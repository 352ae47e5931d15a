import ProtoDune.Lib.Chain

/-!
# `List-Single.hh`: singly linked lists with a tail pointer

The event builder keeps every DMA buffer on one of these lists. A `List` is a
head with a forward link and a tail link, a `List::Node` begins with a forward
link, and the code casts a head to a node wherever a link comes back round to
the list, so heads and nodes share one address type `Ptr` here.

Main results:

* `Rep.init`, `Rep.insertTail`, `Rep.insertHead`, `Rep.removeHead` — each
  operation refines its sequence operation, where it does.
* `Holds.removeHead` — removing the head repairs a stale tail.
* `frame_*` — a list is not disturbed by operations on other lists.
* `runRefines_iff` — a run refines the abstract run exactly when no node is
  put at the head of an empty list.
-/

namespace ProtoDune.Daq

open LinkChain

variable {Ptr : Type*} [DecidableEq Ptr]

/-- The link words in memory. `m_flnk` is the first member of both `List` and
`List::Node`, so one map holds the forward links of heads and nodes; only
heads have an `m_blnk`. -/
structure Links (Ptr : Type*) where
  flnk : Ptr → Ptr
  blnk : Ptr → Ptr

namespace Links

/-- Store a forward link. -/
def setFlnk (m : Links Ptr) (p q : Ptr) : Links Ptr :=
  { m with flnk := Function.update m.flnk p q }

/-- Store a tail link. -/
def setBlnk (m : Links Ptr) (p q : Ptr) : Links Ptr :=
  { m with blnk := Function.update m.blnk p q }

@[simp] theorem setFlnk_flnk (m : Links Ptr) (p q : Ptr) :
    (m.setFlnk p q).flnk = Function.update m.flnk p q := rfl
@[simp] theorem setFlnk_blnk (m : Links Ptr) (p q : Ptr) :
    (m.setFlnk p q).blnk = m.blnk := rfl
@[simp] theorem setBlnk_flnk (m : Links Ptr) (p q : Ptr) :
    (m.setBlnk p q).flnk = m.flnk := rfl
@[simp] theorem setBlnk_blnk (m : Links Ptr) (p q : Ptr) :
    (m.setBlnk p q).blnk = Function.update m.blnk p q := rfl

/-! ## The operations of the class -/

/-- `List::init`. -/
def init (m : Links Ptr) (l : Ptr) : Links Ptr :=
  let m := m.setFlnk l l
  m.setBlnk l (m.flnk l)

/-- `List::insert_tail`: the new memory and the old tail. -/
def insertTail (m : Links Ptr) (l node : Ptr) : Links Ptr × Ptr :=
  let blnk := m.blnk l
  let m := m.setBlnk l node
  let m := m.setFlnk node l
  let m := m.setFlnk blnk node
  (m, blnk)

/-- `List::insert_head`: the new memory and the old first node. The tail link
is not written, also when the list was empty. -/
def insertHead (m : Links Ptr) (l node : Ptr) : Links Ptr × Ptr :=
  let flnk := m.flnk l
  let m := m.setFlnk node flnk
  let m := m.setFlnk l node
  (m, flnk)

/-- `List::remove_head`: the new memory and the removed node, `none` for the
null pointer of an empty list. -/
def removeHead (m : Links Ptr) (l : Ptr) : Links Ptr × Option Ptr :=
  let node := m.flnk l
  if node ≠ l then
    let flnk := m.flnk node
    let m := m.setFlnk l flnk
    let m := if flnk = l then m.setBlnk l l else m
    (m, some node)
  else
    (m, none)

end Links

/-! ## What a list represents -/

/-- The links from the head `l` visit exactly the distinct nodes `xs` and end
at the head. -/
structure Holds (m : Links Ptr) (l : Ptr) (xs : List Ptr) : Prop where
  chain : Chain m.flnk l xs l
  nodup : (l :: xs).Nodup

/-- The list at `l` represents `xs`: besides, the tail link is the last node,
or the head itself when there is none. -/
structure Rep (m : Links Ptr) (l : Ptr) (xs : List Ptr) : Prop extends Holds m l xs where
  tail : m.blnk l = lastCell l xs

omit [DecidableEq Ptr] in
/-- The represented sequence is unique. -/
theorem Holds.unique {m : Links Ptr} {l : Ptr} {xs ys : List Ptr}
    (hx : Holds m l xs) (hy : Holds m l ys) : xs = ys :=
  hx.chain.unique hy.chain (List.nodup_cons.mp hx.nodup).1 (List.nodup_cons.mp hy.nodup).1

/-- A fresh list is empty. -/
theorem Rep.init (m : Links Ptr) (l : Ptr) : Rep (m.init l) l [] where
  chain := by simp [Links.init]
  nodup := by simp
  tail := by simp [Links.init]

/-- `insert_tail` appends. -/
theorem Rep.insertTail {m : Links Ptr} {l node : Ptr} {xs : List Ptr}
    (hr : Rep m l xs) (hnl : node ≠ l) (hnx : node ∉ xs) :
    Rep (m.insertTail l node).1 l (xs ++ [node]) := by
  have hnm : node ∉ l :: xs := by simp [hnl, hnx]
  have hlast : lastCell l xs ≠ node := fun h => hnm (h ▸ lastCell_mem l xs)
  refine ⟨⟨?_, ?_⟩, ?_⟩
  · simp only [Links.insertTail, Links.setFlnk_flnk, Links.setBlnk_flnk]
    rw [chain_append, chain_nil, hr.tail, Function.update_of_ne hlast.symm,
      Function.update_self]
    -- the new node's own link is off the old chain; then the old tail is relinked
    exact ⟨(hr.chain.update_of_notMem hnm).update_last hr.nodup, rfl⟩
  · rw [← List.cons_append, List.nodup_append]
    refine ⟨hr.nodup, List.nodup_singleton node, ?_⟩
    intro a ha b hb hab
    rw [List.mem_singleton] at hb
    exact hnm (hb ▸ hab ▸ ha)
  · simp [Links.insertTail]

/-- `insert_head` links the node in front, whatever the tail link. -/
theorem Holds.insertHead {m : Links Ptr} {l node : Ptr} {xs : List Ptr}
    (hr : Holds m l xs) (hnl : node ≠ l) (hnx : node ∉ xs) :
    Holds (m.insertHead l node).1 l (node :: xs) := by
  have hl : l ∉ xs := (List.nodup_cons.mp hr.nodup).1
  refine ⟨?_, ?_⟩
  · simp only [Links.insertHead, Links.setFlnk_flnk, chain_cons, Function.update_self, true_and]
    have hnode : Chain (Function.update m.flnk node (m.flnk l)) node xs l := by
      cases xs with
      | nil =>
          rw [chain_nil, Function.update_self]
          exact hr.chain
      | cons x xs =>
          rw [chain_cons, Function.update_self]
          exact ⟨hr.chain.1, hr.chain.2.update_of_notMem hnx⟩
    refine hnode.update_of_notMem ?_
    simp [hnl.symm, hl]
  · have hxs : xs.Nodup := (List.nodup_cons.mp hr.nodup).2
    simp [List.nodup_cons, hl, hnx, hnl.symm, hxs]

omit [DecidableEq Ptr] in
/-- The first node of a list. -/
theorem Holds.flnk_eq {m : Links Ptr} {l : Ptr} {xs : List Ptr} (hr : Holds m l xs) :
    m.flnk l = xs.head?.getD l := by
  cases xs with
  | nil => exact hr.chain
  | cons x xs => exact hr.chain.1

/-- `insert_head` prepends when the list is not empty. -/
theorem Rep.insertHead {m : Links Ptr} {l node : Ptr} {xs : List Ptr}
    (hr : Rep m l xs) (hnl : node ≠ l) (hnx : node ∉ xs) (hne : xs ≠ []) :
    Rep (m.insertHead l node).1 l (node :: xs) := by
  refine ⟨hr.toHolds.insertHead hnl hnx, ?_⟩
  obtain ⟨x, xs, rfl⟩ := List.exists_cons_of_ne_nil hne
  simpa [Links.insertHead] using hr.tail

/-- `insert_head` on an empty list leaves the tail link at the head. -/
theorem Rep.insertHead_nil {m : Links Ptr} {l node : Ptr} (hr : Rep m l []) (hnl : node ≠ l) :
    Holds (m.insertHead l node).1 l [node] ∧ (m.insertHead l node).1.blnk l = l :=
  ⟨hr.toHolds.insertHead hnl (by simp), by simpa [Links.insertHead] using hr.tail⟩

/-- `remove_head` of a list whose tail link is right as soon as it has two
nodes: the rest is represented, so a stale tail of a single node is repaired. -/
theorem Holds.removeHead {m : Links Ptr} {l x : Ptr} {xs : List Ptr}
    (hr : Holds m l (x :: xs)) (htail : xs ≠ [] → m.blnk l = lastCell l (x :: xs)) :
    Rep (m.removeHead l).1 l xs ∧ (m.removeHead l).2 = some x := by
  have hlx : x ≠ l := by
    rintro rfl
    simpa using hr.nodup
  have hx : m.flnk l = x := hr.chain.1
  have hlxs : l ∉ xs := fun h => (List.nodup_cons.mp hr.nodup).1 (List.mem_cons_of_mem _ h)
  have hnd : (l :: xs).Nodup := List.nodup_cons.mpr
    ⟨hlxs, (List.nodup_cons.mp (List.nodup_cons.mp hr.nodup).2).2⟩
  simp only [Links.removeHead, hx, ne_eq, hlx, not_false_eq_true, if_true]
  refine ⟨?_, trivial⟩
  cases xs with
  | nil =>
      have hback : m.flnk x = l := hr.chain.2
      exact ⟨⟨by simp [hback], hnd⟩, by simp [hback]⟩
  | cons y ys =>
      have hxy : m.flnk x = y := hr.chain.2.1
      have hyl : y ≠ l := by
        rintro rfl
        simp at hlxs
      rw [hxy, if_neg hyl]
      refine ⟨⟨?_, hnd⟩, ?_⟩
      · simpa using hr.chain.2.2.update_of_notMem (d := y) hlxs
      · simpa using htail (by simp)

/-- `remove_head` of an empty list returns the null pointer and writes nothing. -/
theorem Holds.removeHead_nil {m : Links Ptr} {l : Ptr} (hr : Holds m l []) :
    m.removeHead l = (m, none) := by
  have hl : m.flnk l = l := hr.chain
  simp [Links.removeHead, hl]

/-- `remove_head` pops the front. -/
theorem Rep.removeHead {m : Links Ptr} {l : Ptr} {xs : List Ptr} (hr : Rep m l xs) :
    Rep (m.removeHead l).1 l xs.tail ∧ (m.removeHead l).2 = xs.head? := by
  cases xs with
  | nil =>
      rw [hr.toHolds.removeHead_nil]
      exact ⟨hr, rfl⟩
  | cons x xs => exact hr.toHolds.removeHead fun _ => hr.tail

/-! ## Frames -/

section Frame

omit [DecidableEq Ptr]

/-- `Holds` depends on the forward links of the head and the nodes. -/
theorem Holds.congr {m m' : Links Ptr} {l : Ptr} {xs : List Ptr} (hr : Holds m l xs)
    (hf : ∀ y ∈ l :: xs, m'.flnk y = m.flnk y) : Holds m' l xs :=
  ⟨hr.chain.congr hf, hr.nodup⟩

/-- `Rep` depends, besides, on the tail link of the head. -/
theorem Rep.congr {m m' : Links Ptr} {l : Ptr} {xs : List Ptr} (hr : Rep m l xs)
    (hf : ∀ y ∈ l :: xs, m'.flnk y = m.flnk y) (hb : m'.blnk l = m.blnk l) : Rep m' l xs :=
  ⟨hr.toHolds.congr hf, hb.trans hr.tail⟩

end Frame

namespace Links

variable {m : Links Ptr} {l node p : Ptr}

theorem init_flnk_of_ne (hl : p ≠ l) : (m.init l).flnk p = m.flnk p := by
  simp [init, hl]

theorem init_blnk_of_ne (hl : p ≠ l) : (m.init l).blnk p = m.blnk p := by
  simp [init, hl]

theorem insertTail_flnk_of_ne (hn : p ≠ node) (ht : p ≠ m.blnk l) :
    (m.insertTail l node).1.flnk p = m.flnk p := by
  simp [insertTail, hn, ht]

theorem insertTail_blnk_of_ne (hl : p ≠ l) :
    (m.insertTail l node).1.blnk p = m.blnk p := by
  simp [insertTail, hl]

theorem insertHead_flnk_of_ne (hn : p ≠ node) (hl : p ≠ l) :
    (m.insertHead l node).1.flnk p = m.flnk p := by
  simp [insertHead, hn, hl]

@[simp] theorem insertHead_blnk : (m.insertHead l node).1.blnk = m.blnk := rfl

theorem removeHead_flnk_of_ne (hl : p ≠ l) : (m.removeHead l).1.flnk p = m.flnk p := by
  simp only [removeHead]
  split
  · split <;> simp [hl]
  · rfl

theorem removeHead_blnk_of_ne (hl : p ≠ l) : (m.removeHead l).1.blnk p = m.blnk p := by
  simp only [removeHead]
  split
  · split <;> simp [hl]
  · rfl

end Links

/-! ## Runs of operations -/

/-- One operation on a list, with the node it is given. -/
inductive ListOp (Ptr : Type*) where
  | init
  | insertTail (node : Ptr)
  | insertHead (node : Ptr)
  | removeHead

namespace ListOp

/-- What the code does: the new memory and the returned pointer, `none` for
a null pointer and for an operation that returns nothing. -/
def exec (l : Ptr) (m : Links Ptr) : ListOp Ptr → Links Ptr × Option Ptr
  | .init => (m.init l, none)
  | .insertTail node => ((m.insertTail l node).1, some (m.insertTail l node).2)
  | .insertHead node => ((m.insertHead l node).1, some (m.insertHead l node).2)
  | .removeHead => m.removeHead l

/-- What the operation means on the sequence. -/
def apply (xs : List Ptr) : ListOp Ptr → List Ptr
  | .init => []
  | .insertTail node => xs ++ [node]
  | .insertHead node => node :: xs
  | .removeHead => xs.tail

/-- What the operation returns on the sequence: the old last or first node, or
the head `l` when there was none; for `remove_head` the popped node. -/
def result (l : Ptr) (xs : List Ptr) : ListOp Ptr → Option Ptr
  | .init => none
  | .insertTail _ => some (lastCell l xs)
  | .insertHead _ => some (xs.head?.getD l)
  | .removeHead => xs.head?

/-- An inserted node is a node, not the head, and is not on the list. -/
def Fresh (l : Ptr) (xs : List Ptr) : ListOp Ptr → Prop
  | .insertTail node => node ≠ l ∧ node ∉ xs
  | .insertHead node => node ≠ l ∧ node ∉ xs
  | .init => True
  | .removeHead => True

/-- The operation does not put a node at the head of an empty list. -/
def HeadInsertOk (xs : List Ptr) : ListOp Ptr → Prop
  | .insertHead _ => xs ≠ []
  | .init => True
  | .insertTail _ => True
  | .removeHead => True

/-- Each operation refines its sequence operation and returns what it should,
except for a head insertion into an empty list. -/
theorem exec_refines {l : Ptr} {m : Links Ptr} {xs : List Ptr} {op : ListOp Ptr}
    (hr : Rep m l xs) (hf : op.Fresh l xs) (hok : op.HeadInsertOk xs) :
    Rep (op.exec l m).1 l (op.apply xs) ∧ (op.exec l m).2 = op.result l xs := by
  cases op with
  | init => exact ⟨Rep.init m l, rfl⟩
  | insertTail node => exact ⟨hr.insertTail hf.1 hf.2, congrArg some hr.tail⟩
  | insertHead node => exact ⟨hr.insertHead hf.1 hf.2 hok, congrArg some hr.flnk_eq⟩
  | removeHead => exact hr.removeHead

/-- A head insertion into an empty list does not refine: the tail link stays at
the head. -/
theorem exec_not_rep {l : Ptr} {m : Links Ptr} {xs : List Ptr} {op : ListOp Ptr}
    (hr : Rep m l xs) (hf : op.Fresh l xs) (hok : ¬ op.HeadInsertOk xs) :
    ¬ Rep (op.exec l m).1 l (op.apply xs) := by
  cases op with
  | insertHead node =>
      obtain rfl : xs = [] := not_not.mp hok
      intro hr'
      have hstale := (hr.insertHead_nil hf.1).2
      have htail : (m.insertHead l node).1.blnk l = node := hr'.tail
      exact hf.1 (htail.symm.trans hstale)
  | init => exact absurd trivial hok
  | insertTail node => exact absurd trivial hok
  | removeHead => exact absurd trivial hok

end ListOp

/-- The code refines the sequence at every point of the run: before each
operation, after it, and in the pointer it returns. -/
def RunRefines (l : Ptr) : Links Ptr → List Ptr → List (ListOp Ptr) → Prop
  | m, xs, [] => Rep m l xs
  | m, xs, op :: ops => Rep m l xs ∧ (op.exec l m).2 = op.result l xs ∧
      RunRefines l (op.exec l m).1 (op.apply xs) ops

/-- Every inserted node of the run is fresh when it is inserted. -/
def RunFresh (l : Ptr) : List Ptr → List (ListOp Ptr) → Prop
  | _, [] => True
  | xs, op :: ops => op.Fresh l xs ∧ RunFresh l (op.apply xs) ops

/-- No operation of the run puts a node at the head of an empty list. -/
def RunHeadInsertOk : List Ptr → List (ListOp Ptr) → Prop
  | _, [] => True
  | xs, op :: ops => op.HeadInsertOk xs ∧ RunHeadInsertOk (op.apply xs) ops

/-- What a refining run starts from is represented. -/
theorem RunRefines.rep {l : Ptr} {m : Links Ptr} {xs : List Ptr} {ops : List (ListOp Ptr)}
    (h : RunRefines l m xs ops) : Rep m l xs := by
  cases ops with
  | nil => exact h
  | cons op ops => exact h.1

/-- From a represented list, the run refines exactly when no operation puts a
node at the head of an empty list. -/
theorem Rep.runRefines_iff {l : Ptr} {m : Links Ptr} {xs : List Ptr} {ops : List (ListOp Ptr)}
    (hr : Rep m l xs) (hf : RunFresh l xs ops) :
    RunRefines l m xs ops ↔ RunHeadInsertOk xs ops := by
  induction ops generalizing m xs with
  | nil => exact ⟨fun _ => trivial, fun _ => hr⟩
  | cons op ops ih =>
      by_cases hok : op.HeadInsertOk xs
      · obtain ⟨hr', hres⟩ := ListOp.exec_refines hr hf.1 hok
        have hrest := ih hr' hf.2
        exact ⟨fun h => ⟨hok, hrest.mp h.2.2⟩, fun h => ⟨hr, hres, hrest.mpr h.2⟩⟩
      · refine ⟨fun h => ?_, fun h => absurd h.1 hok⟩
        exact absurd h.2.2.rep (ListOp.exec_not_rep hr hf.1 hok)

/-- **List refinement.** A run of operations on a list that starts empty, in
any memory, refines the abstract sequence exactly when no node is put at the
head of the list while it is empty. -/
theorem list_run_refines_iff (m : Links Ptr) (l : Ptr) (ops : List (ListOp Ptr))
    (hf : RunFresh l [] ops) :
    RunRefines l (m.init l) [] ops ↔ RunHeadInsertOk [] ops :=
  (Rep.init m l).runRefines_iff hf

theorem list_run_refines_iff_two :
    RunFresh 0 [] [ListOp.insertTail 1, .insertHead 2] ∧
      RunRefines 0 (Links.init ⟨id, id⟩ 0) [] [ListOp.insertTail 1, .insertHead 2] := by
  have hf : RunFresh 0 [] [ListOp.insertTail 1, .insertHead 2] := by
    simp [RunFresh, ListOp.Fresh, ListOp.apply]
  refine ⟨hf, (list_run_refines_iff ⟨id, id⟩ 0 _ hf).mpr ?_⟩
  simp [RunHeadInsertOk, ListOp.HeadInsertOk, ListOp.apply]

/-- The put-back of the event builder on a list of one: the node is taken and
put back at the head, then another is appended. -/
def putBackRun : List (ListOp Nat) :=
  [.insertTail 1, .removeHead, .insertHead 1, .insertTail 2]

/-- The put-back run loses node 1: the links visit node 2 alone, while the
sequence is `[1, 2]`. -/
theorem putBackRun_drops_node :
    RunFresh 0 [] putBackRun ∧ ¬ RunRefines 0 (Links.init ⟨id, id⟩ 0) [] putBackRun ∧
      putBackRun.foldl ListOp.apply [] = [1, 2] ∧
      walk (putBackRun.foldl (fun m op => (op.exec 0 m).1) (Links.init ⟨id, id⟩ 0)).flnk 0 9 0
        = [2] := by
  refine ⟨?_, ?_, by decide, by decide⟩
  · simp [putBackRun, RunFresh, ListOp.Fresh, ListOp.apply]
  · intro h
    -- after the put-back the tail link should be node 1
    have htail := h.2.2.2.2.2.2.1.tail
    exact absurd htail (by decide)

end ProtoDune.Daq
