import ProtoDune.Daq.ListSingle

/-!
# `List-Single.hh`: the operations on two lists

`append`, `prepend`, `transfer` and `split` move all or part of the nodes of one
list to another without visiting them: they rewrite the links of the two heads
and of the boundary nodes.

Main results:

* `TwoLists.append`, `TwoLists.prepend`, `TwoLists.transfer` — what each operation
  comes to, where it does.
* `TwoLists.not_split` — `split` never leaves two lists.
* `bulk_exact_iff` — when the two lists are what they should be.
-/

namespace ProtoDune.Daq

open LinkChain

variable {Ptr : Type*} [DecidableEq Ptr]

namespace Links

/-- `List::append`. -/
def append (m : Links Ptr) (l src : Ptr) : Links Ptr :=
  let sflnk := m.flnk src
  if sflnk = src then m
  else
    let dblnk := m.blnk l
    let sblnk := m.blnk src
    let m := m.setFlnk dblnk sflnk
    let m := m.setBlnk l sblnk
    let m := m.setFlnk sblnk l
    let m := m.setBlnk src src
    m.setFlnk src src

/-- `List::prepend`. The tail link of the destination is not written, also when
it was empty. -/
def prepend (m : Links Ptr) (l src : Ptr) : Links Ptr :=
  let sflnk := m.flnk src
  if sflnk = src then m
  else
    let dflnk := m.flnk l
    let sblnk := m.blnk src
    let m := m.setFlnk l sflnk
    let m := m.setFlnk sblnk dflnk
    let m := m.setBlnk src src
    m.setFlnk src src

/-- `List::split`: the nodes of `list` after `node`, to `l`. The links of the
last node and of `node` are not written. -/
def split (m : Links Ptr) (l list node : Ptr) : Links Ptr :=
  let m := m.setFlnk l (m.flnk node)
  let m := m.setBlnk l (m.blnk list)
  m.setBlnk list node

/-- `List::transfer`: the head is copied, and `list` is made empty. -/
def transfer (m : Links Ptr) (l list : Ptr) : Links Ptr :=
  let m := m.setFlnk l (m.flnk list)
  let m := m.setBlnk l (m.blnk list)
  let m := m.setFlnk (m.blnk l) l
  m.init list

end Links

/-! ## Two lists -/

/-- Two disjoint lists: the destination `l` with the nodes `xs`, and the source
`src` with the nodes `ys`. -/
structure TwoLists (m : Links Ptr) (l : Ptr) (xs : List Ptr) (src : Ptr) (ys : List Ptr) :
    Prop where
  dest : Rep m l xs
  source : Rep m src ys
  disjoint : List.Disjoint (l :: xs) (src :: ys)

namespace TwoLists

variable {m : Links Ptr} {l src y : Ptr} {xs ys : List Ptr}

section

omit [DecidableEq Ptr]

theorem src_ne (h : TwoLists m l xs src ys) : src ≠ l := by
  rintro rfl
  exact h.disjoint List.mem_cons_self List.mem_cons_self

theorem dest_notMem (h : TwoLists m l xs src ys) : l ∉ ys := fun hl =>
  h.disjoint List.mem_cons_self (List.mem_cons_of_mem _ hl)

theorem src_notMem (h : TwoLists m l xs src ys) : src ∉ l :: xs := fun hs =>
  h.disjoint hs List.mem_cons_self

/-- The nodes of both, in either order, make one list without repetition. -/
theorem nodup_append (h : TwoLists m l xs src ys) : (l :: (xs ++ ys)).Nodup := by
  rw [← List.cons_append, List.nodup_append']
  refine ⟨h.dest.nodup, (List.nodup_cons.mp h.source.nodup).2, ?_⟩
  intro p hp hp'
  exact h.disjoint hp (List.mem_cons_of_mem _ hp')

theorem nodup_prepend (h : TwoLists m l xs src ys) : (l :: (ys ++ xs)).Nodup :=
  ((List.perm_append_comm : (xs ++ ys).Perm (ys ++ xs)).cons l).nodup_iff.mp h.nodup_append

theorem nodup_source (h : TwoLists m l xs src ys) : (l :: ys).Nodup :=
  List.nodup_cons.mpr ⟨h.dest_notMem, (List.nodup_cons.mp h.source.nodup).2⟩

theorem flnk_nil (h : TwoLists m l xs src []) : m.flnk src = src := h.source.chain

/-- The first node of the source is not its head. -/
theorem flnk_cons (h : TwoLists m l xs src (y :: ys)) : m.flnk src = y ∧ y ≠ src := by
  refine ⟨h.source.chain.1, ?_⟩
  rintro rfl
  exact (List.nodup_cons.mp h.source.nodup).1 List.mem_cons_self

/-- The last node of a source that has one. -/
theorem blnk_cons (h : TwoLists m l xs src (y :: ys)) : m.blnk src = lastCell y ys := by
  rw [h.source.tail, lastCell_cons]

end

/-- The links lead from the first node of the source to `p`, where the last one
is relinked to `p` and the others are as they were. -/
theorem chain_moved (h : TwoLists m l xs src (y :: ys)) {next : Ptr → Ptr} {p : Ptr}
    (hlast : next (lastCell y ys) = p)
    (hrest : ∀ z ∈ y :: ys, z ≠ lastCell y ys → next z = m.flnk z) :
    Chain next y ys p := by
  have hnd : (y :: ys).Nodup := (List.nodup_cons.mp h.source.nodup).2
  refine (h.source.chain.2.update_last (c := p) hnd).congr ?_
  intro z hz
  by_cases hzl : z = lastCell y ys
  · rw [hzl, hlast, Function.update_self]
  · rw [hrest z hz hzl, Function.update_of_ne hzl]

/-- After a write to the last node of the source and to its head. -/
theorem chain_relinked (h : TwoLists m l xs src (y :: ys)) (c p q : Ptr) (hc : c ∉ y :: ys) :
    Chain (Function.update (Function.update (Function.update m.flnk c q) (lastCell y ys) p)
      src src) y ys p := by
  have hsrc : src ∉ y :: ys := (List.nodup_cons.mp h.source.nodup).1
  apply h.chain_moved
  · have hne : lastCell y ys ≠ src := fun he => hsrc (he ▸ lastCell_mem y ys)
    rw [Function.update_of_ne hne, Function.update_self]
  · intro z hz hzl
    have hzs : z ≠ src := fun he => hsrc (he ▸ hz)
    have hzc : z ≠ c := fun he => hc (he ▸ hz)
    rw [Function.update_of_ne hzs, Function.update_of_ne hzl, Function.update_of_ne hzc]

/-! ## What the operations come to -/

/-- **`append`** puts the nodes of the source after those of the destination. -/
theorem append (h : TwoLists m l xs src ys) :
    Rep (m.append l src) l (xs ++ ys) ∧ Rep (m.append l src) src [] := by
  cases ys with
  | nil =>
      have hm : m.append l src = m := by simp [Links.append, h.flnk_nil]
      rw [hm, List.append_nil]
      exact ⟨h.dest, h.source⟩
  | cons y ys =>
      obtain ⟨hfirst, hne⟩ := h.flnk_cons
      have hflnk : (m.append l src).flnk = Function.update (Function.update
          (Function.update m.flnk (lastCell l xs) y) (lastCell y ys) l) src src := by
        simp [Links.append, hfirst, hne, h.dest.tail, h.blnk_cons]
      have hblnk : (m.append l src).blnk =
          Function.update (Function.update m.blnk l (lastCell y ys)) src src := by
        simp [Links.append, hfirst, hne, h.blnk_cons]
      have hold : lastCell l xs ∉ y :: ys := fun hl =>
        h.disjoint (lastCell_mem l xs) (List.mem_cons_of_mem _ hl)
      have hnew : lastCell y ys ∉ l :: xs := fun hl =>
        h.disjoint hl (List.mem_cons_of_mem _ (lastCell_mem y ys))
      refine ⟨⟨⟨?_, h.nodup_append⟩, ?_⟩, ⟨by simp [hflnk], by simp⟩, by simp [hblnk]⟩
      · rw [hflnk, chain_append]
        refine ⟨?_, h.chain_relinked _ l y hold⟩
        -- the destination now ends at the first node of the source
        have hdest := h.dest.chain.update_last (c := y) h.dest.nodup
        exact (hdest.update_of_notMem hnew).update_of_notMem h.src_notMem
      · rw [hblnk, Function.update_of_ne h.src_ne.symm, Function.update_self,
          lastCell_append_cons]

/-- The links after `prepend` of a source that has a node. -/
theorem prepend_cons (h : TwoLists m l xs src (y :: ys)) :
    (m.prepend l src).flnk = Function.update (Function.update (Function.update m.flnk l y)
      (lastCell y ys) (m.flnk l)) src src ∧
    (m.prepend l src).blnk = Function.update m.blnk src src := by
  obtain ⟨hfirst, hne⟩ := h.flnk_cons
  constructor
  · simp [Links.prepend, hfirst, hne, h.blnk_cons]
  · simp [Links.prepend, hfirst, hne]

/-- **`prepend`** to a destination that has a node puts the nodes of the source
before its own. -/
theorem prepend (h : TwoLists m l xs src ys) (hne : ys = [] ∨ xs ≠ []) :
    Rep (m.prepend l src) l (ys ++ xs) ∧ Rep (m.prepend l src) src [] := by
  cases ys with
  | nil =>
      have hm : m.prepend l src = m := by simp [Links.prepend, h.flnk_nil]
      rw [hm, List.nil_append]
      exact ⟨h.dest, h.source⟩
  | cons y ys =>
      obtain ⟨x, xs, rfl⟩ := List.exists_cons_of_ne_nil (hne.resolve_left (List.cons_ne_nil y ys))
      obtain ⟨hflnk, hblnk⟩ := h.prepend_cons
      have hfirst : m.flnk l = x := h.dest.chain.1
      have hlx : l ∉ x :: xs := (List.nodup_cons.mp h.dest.nodup).1
      have hold : l ∉ y :: ys := h.dest_notMem
      have hll : l ≠ lastCell y ys := fun he => hold (he ▸ lastCell_mem y ys)
      have hnew : lastCell y ys ∉ x :: xs := fun hl =>
        h.disjoint (List.mem_cons_of_mem _ hl) (List.mem_cons_of_mem _ (lastCell_mem y ys))
      have hsx : src ∉ x :: xs := fun hs => h.src_notMem (List.mem_cons_of_mem _ hs)
      refine ⟨⟨⟨?_, h.nodup_prepend⟩, ?_⟩, ⟨by simp [hflnk], by simp⟩, by simp [hblnk]⟩
      · rw [hflnk, hfirst, chain_append]
        refine ⟨⟨?_, h.chain_relinked l x y hold⟩, ?_⟩
        · rw [Function.update_of_ne h.src_ne.symm, Function.update_of_ne hll,
            Function.update_self]
        · -- the old nodes of the destination are not written
          have hdest := h.dest.chain.2.update_of_notMem (d := y) hlx
          exact (hdest.update_of_notMem hnew).update_of_notMem hsx
      · rw [hblnk, Function.update_of_ne h.src_ne.symm, h.dest.tail, lastCell_cons,
          lastCell_append_cons]

/-- To an empty destination `prepend` leaves the tail link at the head. -/
theorem not_prepend (h : TwoLists m l [] src (y :: ys)) :
    ¬ Rep (m.prepend l src) l (y :: ys ++ []) := by
  intro hr
  have hstale : (m.prepend l src).blnk l = l := by
    rw [h.prepend_cons.2, Function.update_of_ne h.src_ne.symm]
    exact h.dest.tail
  have hlast : lastCell y ys = l := by
    rw [← hstale, hr.tail, List.append_nil, lastCell_cons]
  exact h.dest_notMem (hlast ▸ lastCell_mem y ys)

/-- **`transfer`** of a source that has a node. -/
theorem transfer (h : TwoLists m l xs src ys) (hne : ys ≠ []) :
    Rep (m.transfer l src) l ys ∧ Rep (m.transfer l src) src [] := by
  obtain ⟨y, ys, rfl⟩ := List.exists_cons_of_ne_nil hne
  obtain ⟨hfirst, -⟩ := h.flnk_cons
  have hflnk : (m.transfer l src).flnk = Function.update (Function.update
      (Function.update m.flnk l y) (lastCell y ys) l) src src := by
    simp [Links.transfer, Links.init, hfirst, h.blnk_cons]
  have hblnk : (m.transfer l src).blnk =
      Function.update (Function.update m.blnk l (lastCell y ys)) src src := by
    simp [Links.transfer, Links.init, h.blnk_cons]
  have hll : l ≠ lastCell y ys := fun he => h.dest_notMem (he ▸ lastCell_mem y ys)
  refine ⟨⟨⟨⟨?_, ?_⟩, h.nodup_source⟩, ?_⟩, ⟨by simp [hflnk], by simp⟩, by simp [hblnk]⟩
  · rw [hflnk, Function.update_of_ne h.src_ne.symm, Function.update_of_ne hll,
      Function.update_self]
  · rw [hflnk]
    exact h.chain_relinked l l y h.dest_notMem
  · rw [hblnk, Function.update_of_ne h.src_ne.symm, Function.update_self, lastCell_cons]

/-- After `transfer` of an empty source the destination leads to the other head. -/
theorem not_transfer (h : TwoLists m l xs src []) : ¬ Rep (m.transfer l src) l [] := by
  intro hr
  have htail : m.blnk src = src := h.source.tail
  have hlost : (m.transfer l src).flnk l = src := by
    simp [Links.transfer, Links.init, h.src_ne.symm, h.flnk_nil, htail]
  have hback : (m.transfer l src).flnk l = l := hr.chain
  exact h.src_ne (hlost.symm.trans hback)

/-- **`split`** leaves the destination without an end of its own: its links lead
to the head of the other list. -/
theorem not_split {pre post : List Ptr} {node : Ptr} (h : TwoLists m l xs src ys)
    (hnode : src :: ys = pre ++ node :: post) : ¬ Rep (m.split l src node) l post := by
  intro hr
  have hl : l ∉ node :: post := by
    intro hl
    refine h.disjoint List.mem_cons_self ?_
    rw [hnode]
    exact List.mem_append_right _ hl
  have hrest : Chain m.flnk node post src := by
    cases pre with
    | nil =>
        obtain ⟨rfl, rfl⟩ := List.cons.inj hnode
        exact h.source.chain
    | cons p pre =>
        obtain ⟨rfl, rfl⟩ := List.cons.inj hnode
        exact (chain_append.mp h.source.chain).2
  have hflnk : (m.split l src node).flnk = Function.update m.flnk l (m.flnk node) := rfl
  -- the destination takes over the link of `node`, and with it the rest of the chain
  have hlead : Chain (m.split l src node).flnk l post src := by
    rw [hflnk]
    cases post with
    | nil =>
        rw [chain_nil, Function.update_self]
        exact hrest
    | cons x post =>
        rw [chain_cons, Function.update_self]
        refine ⟨hrest.1, hrest.2.update_of_notMem ?_⟩
        exact fun hx => hl (List.mem_cons_of_mem _ hx)
  exact h.src_ne (hlead.end_unique hr.chain)

end TwoLists

/-! ## When the lists are what they should be -/

/-- An operation of a list on another one, with the node it is given. -/
inductive BulkOp (Ptr : Type*) where
  | append
  | prepend
  | transfer
  | split (node : Ptr)

namespace BulkOp

/-- What the code does. -/
def exec (m : Links Ptr) (l src : Ptr) : BulkOp Ptr → Links Ptr
  | .append => m.append l src
  | .prepend => m.prepend l src
  | .transfer => m.transfer l src
  | .split node => m.split l src node

/-- What the operation means: the nodes of the destination and of the source
afterwards. The node of `split` may also be the head of the source. -/
def apply (xs : List Ptr) (src : Ptr) (ys : List Ptr) : BulkOp Ptr → List Ptr × List Ptr
  | .append => (xs ++ ys, [])
  | .prepend => (ys ++ xs, [])
  | .transfer => (ys, [])
  | .split node =>
      (((src :: ys).dropWhile (· ≠ node)).tail, ((src :: ys).takeWhile (· ≠ node) ++ [node]).tail)

/-- The node of a `split` is on the source. -/
def OnSource (src : Ptr) (ys : List Ptr) : BulkOp Ptr → Prop
  | .split node => node ∈ src :: ys
  | .append => True
  | .prepend => True
  | .transfer => True

/-- The operation leaves two lists, with the nodes it means. -/
def Exact (m : Links Ptr) (l : Ptr) (xs : List Ptr) (src : Ptr) (ys : List Ptr)
    (op : BulkOp Ptr) : Prop :=
  Rep (op.exec m l src) l (op.apply xs src ys).1 ∧
    Rep (op.exec m l src) src (op.apply xs src ys).2

/-- Nodes are not put into an empty list by `prepend`, none are moved by
`transfer`, and there is no `split`. -/
def Works (xs ys : List Ptr) : BulkOp Ptr → Prop
  | .append => True
  | .prepend => ys = [] ∨ xs ≠ []
  | .transfer => ys ≠ []
  | .split _ => False

end BulkOp

/-- **Bulk operations.** For any two disjoint lists, an operation leaves the two
lists it means exactly when it works: always for `append`, unless the
destination alone is empty for `prepend`, unless the source is empty for
`transfer`, and never for `split`. -/
theorem bulk_exact_iff {m : Links Ptr} {l src : Ptr} {xs ys : List Ptr} {op : BulkOp Ptr}
    (h : TwoLists m l xs src ys) (hon : op.OnSource src ys) :
    op.Exact m l xs src ys ↔ op.Works xs ys := by
  cases op with
  | append => exact iff_of_true h.append trivial
  | prepend =>
      constructor
      · intro hexact
        by_contra hworks
        obtain ⟨hys, hxs⟩ := not_or.mp hworks
        obtain rfl : xs = [] := not_not.mp hxs
        obtain ⟨y, ys, rfl⟩ := List.exists_cons_of_ne_nil hys
        exact h.not_prepend hexact.1
      · exact h.prepend
  | transfer =>
      constructor
      · rintro hexact rfl
        exact h.not_transfer hexact.1
      · exact h.transfer
  | split node =>
      refine iff_of_false ?_ id
      intro hexact
      obtain ⟨pre, post, hnode, hpre⟩ :=
        List.eq_append_cons_of_mem (show node ∈ src :: ys from hon)
      have hpost : (BulkOp.apply xs src ys (.split node)).1 = post := by
        have hdrop : ∀ p ∈ pre, decide (p ≠ node) = true := by
          intro p hp
          exact decide_eq_true fun he => hpre (he ▸ hp)
        show ((src :: ys).dropWhile (· ≠ node)).tail = post
        rw [hnode, List.dropWhile_append_of_pos hdrop, List.dropWhile_cons_of_neg (by simp),
          List.tail_cons]
      exact h.not_split hnode (hpost ▸ hexact.1)

/-- Heads 0 and 1, with the nodes 2, 3 and 4, 5. -/
def twoByTwo : Links Nat where
  flnk := fun p => if p = 0 then 2 else if p = 2 then 3 else if p = 3 then 0 else
    if p = 1 then 4 else if p = 4 then 5 else if p = 5 then 1 else p
  blnk := fun p => if p = 0 then 3 else if p = 1 then 5 else p

theorem twoLists_twoByTwo : TwoLists twoByTwo 0 [2, 3] 1 [4, 5] :=
  ⟨⟨⟨by decide, by decide⟩, by decide⟩, ⟨⟨by decide, by decide⟩, by decide⟩, by simp⟩

theorem bulk_exact_iff_twoByTwo :
    (BulkOp.append : BulkOp Nat).Exact twoByTwo 0 [2, 3] 1 [4, 5] ∧
      (BulkOp.prepend : BulkOp Nat).Exact twoByTwo 0 [2, 3] 1 [4, 5] ∧
      (BulkOp.transfer : BulkOp Nat).Exact twoByTwo 0 [2, 3] 1 [4, 5] ∧
      ¬ (BulkOp.split 4).Exact twoByTwo 0 [2, 3] 1 [4, 5] := by
  have happend : (BulkOp.append : BulkOp Nat).OnSource 1 [4, 5] := trivial
  have hprepend : (BulkOp.prepend : BulkOp Nat).OnSource 1 [4, 5] := trivial
  have htransfer : (BulkOp.transfer : BulkOp Nat).OnSource 1 [4, 5] := trivial
  have hsplit : (BulkOp.split 4).OnSource 1 [4, 5] := by simp [BulkOp.OnSource]
  refine ⟨(bulk_exact_iff twoLists_twoByTwo happend).mpr trivial, ?_, ?_, ?_⟩
  · exact (bulk_exact_iff twoLists_twoByTwo hprepend).mpr (.inr (List.cons_ne_nil 2 [3]))
  · exact (bulk_exact_iff twoLists_twoByTwo htransfer).mpr (List.cons_ne_nil 4 [5])
  · exact (bulk_exact_iff twoLists_twoByTwo hsplit).mp

/-- Heads 0 and 1, and the node 2 on the list of head 1. -/
def oneNode : Links Nat where
  flnk := fun p => if p = 1 then 2 else if p = 2 then 1 else p
  blnk := fun p => if p = 1 then 2 else p

theorem twoLists_oneNode : TwoLists oneNode 0 [] 1 [2] :=
  ⟨⟨⟨by decide, by decide⟩, by decide⟩, ⟨⟨by decide, by decide⟩, by decide⟩, by simp⟩

theorem twoLists_oneNode_swap : TwoLists oneNode 1 [2] 0 [] :=
  ⟨⟨⟨by decide, by decide⟩, by decide⟩, ⟨⟨by decide, by decide⟩, by decide⟩, by simp⟩

/-- The node prepended to an empty list is not its tail, an empty list that is
transferred leads to the wrong head, and so does a list split at its only node. -/
theorem oneNode_lost :
    (TwoLists oneNode 0 [] 1 [2] ∧ ¬ (BulkOp.prepend : BulkOp Nat).Exact oneNode 0 [] 1 [2] ∧
      ¬ (BulkOp.split 2).Exact oneNode 0 [] 1 [2]) ∧
      TwoLists oneNode 1 [2] 0 [] ∧
        ¬ (BulkOp.transfer : BulkOp Nat).Exact oneNode 1 [2] 0 [] := by
  refine ⟨⟨twoLists_oneNode, ?_, ?_⟩, twoLists_oneNode_swap, ?_⟩
  · intro h
    exact absurd h.1.tail (by decide)
  · intro h
    exact absurd h.1.chain (by decide)
  · intro h
    exact absurd h.1.chain (by decide)

end ProtoDune.Daq
