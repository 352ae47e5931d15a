import Mathlib.Algebra.Group.Int.Defs
import Mathlib.Algebra.Group.Nat.Defs
import Mathlib.Data.Set.Insert
import ProtoDune.Daq.ListSingle

/-!
# Many lists in one memory

The event builder threads a fixed set of heads `H` (the latency lists, the
contributor lists of the events) through one pool of nodes `N` (the frame
buffers). `ListStore m live σ` says that the memory holds the sequence `σ h` at
every live head `h`, no node being on two lists.

A list of one node may have a stale tail link (`Tight` fails there): that is
how `insert_head` leaves a list that was empty. Every operation but
`insert_tail` copes with it; `insert_tail` needs a tight list.
-/

namespace ProtoDune.Daq

open LinkChain

variable {H N : Type*} [DecidableEq H] [DecidableEq N]

/-- The nodes of a sequence, as addresses. -/
def cells (xs : List N) : List (H ⊕ N) := xs.map Sum.inr

omit [DecidableEq H] [DecidableEq N] in
@[simp] theorem inr_mem_cells {xs : List N} {n : N} :
    (Sum.inr n : H ⊕ N) ∈ cells xs ↔ n ∈ xs := by
  simp [cells]

omit [DecidableEq H] [DecidableEq N] in
@[simp] theorem inl_notMem_cells {xs : List N} {h : H} : (Sum.inl h : H ⊕ N) ∉ cells xs := by
  simp [cells]

omit [DecidableEq H] [DecidableEq N] in
/-- A list does not pass through another head. -/
theorem ne_head_of_mem {xs : List N} {h h' : H} {y : H ⊕ N}
    (hy : y ∈ .inl h' :: cells xs) (hne : h' ≠ h) : y ≠ .inl h := by
  rintro rfl
  rcases List.mem_cons.mp hy with heq | hmem
  · exact hne (Sum.inl.inj heq).symm
  · exact inl_notMem_cells hmem

omit [DecidableEq H] [DecidableEq N] in
/-- A list does not pass through a node that is not on it. -/
theorem ne_node_of_mem {xs : List N} {h : H} {n : N} {y : H ⊕ N}
    (hy : y ∈ .inl h :: cells xs) (hn : n ∉ xs) : y ≠ .inr n := by
  rintro rfl
  rcases List.mem_cons.mp hy with heq | hmem
  · exact Sum.inr_ne_inl heq
  · exact hn (inr_mem_cells.mp hmem)

/-- The tail link of the head `h` is right for the sequence `xs`. -/
def Tight (m : Links (H ⊕ N)) (h : H) (xs : List N) : Prop :=
  m.blnk (.inl h) = lastCell (.inl h) (cells xs)

/-- Every live head `h` holds its own sequence `σ h`, with a tight tail unless
the list has exactly one node and the tail link is at the head. -/
structure ListStore (m : Links (H ⊕ N)) (live : Set H) (σ : H → List N) : Prop where
  holds : ∀ h ∈ live, Holds m (.inl h) (cells (σ h))
  disjoint : ∀ h ∈ live, ∀ h' ∈ live, ∀ n, n ∈ σ h → n ∈ σ h' → h = h'
  tail : ∀ h ∈ live, Tight m h (σ h) ∨ (σ h).length = 1 ∧ m.blnk (.inl h) = .inl h

namespace ListStore

variable {m m' : Links (H ⊕ N)} {live : Set H} {σ : H → List N} {h : H} {n : N}

omit [DecidableEq H] [DecidableEq N] in
theorem rep (hs : ListStore m live σ) (hl : h ∈ live) (ht : Tight m h (σ h)) :
    Rep m (.inl h) (cells (σ h)) :=
  ⟨hs.holds h hl, ht⟩

omit [DecidableEq H] [DecidableEq N] in
/-- A list that is not of one node is tight. -/
theorem tight_of_length_ne_one (hs : ListStore m live σ) (hl : h ∈ live)
    (hne : (σ h).length ≠ 1) : Tight m h (σ h) :=
  (hs.tail h hl).resolve_right fun hst => hne hst.1

omit [DecidableEq H] [DecidableEq N] in
/-- A list is stale when its tail link is at the head although it has a node;
otherwise it is tight. -/
theorem tight_of_not_stale (hs : ListStore m live σ) (hl : h ∈ live)
    (hst : ¬ (m.blnk (.inl h) = .inl h ∧ σ h ≠ [])) : Tight m h (σ h) := by
  refine (hs.tail h hl).resolve_right ?_
  rintro ⟨hlen, hb⟩
  refine hst ⟨hb, ?_⟩
  intro hnil
  rw [hnil] at hlen
  exact absurd hlen (by simp)

omit [DecidableEq H] [DecidableEq N] in
theorem nodup (hs : ListStore m live σ) (hl : h ∈ live) : (σ h).Nodup :=
  List.Nodup.of_map _ (List.nodup_cons.mp (hs.holds h hl).nodup).2

omit [DecidableEq H] [DecidableEq N] in
/-- Fewer heads are a store too. -/
theorem mono (hs : ListStore m live σ) {live' : Set H} (hsub : live' ⊆ live) :
    ListStore m live' σ where
  holds h hl := hs.holds h (hsub hl)
  disjoint h hl h' hl' := hs.disjoint h (hsub hl) h' (hsub hl')
  tail h hl := hs.tail h (hsub hl)

omit [DecidableEq N] in
/-- The common part of the operations: memory and sequence change at one head
only, where the new list is known, and every other list keeps its links. -/
theorem of_step (hs : ListStore m live σ) {ys : List N}
    (hhold : Holds m' (.inl h) (cells ys))
    (htail : Tight m' h ys ∨ ys.length = 1 ∧ m'.blnk (.inl h) = .inl h)
    (hfresh : ∀ h' ∈ live, h' ≠ h → ∀ k ∈ ys, k ∉ σ h')
    (hflnk : ∀ h' ∈ live, h' ≠ h → ∀ y ∈ .inl h' :: cells (σ h'), m'.flnk y = m.flnk y)
    (hblnk : ∀ h' ∈ live, h' ≠ h → m'.blnk (.inl h') = m.blnk (.inl h')) :
    ListStore m' (insert h live) (Function.update σ h ys) := by
  constructor
  · intro h' hl'
    rcases eq_or_ne h' h with rfl | hne
    · rwa [Function.update_self]
    · have hl' : h' ∈ live := hl'.resolve_left hne
      rw [Function.update_of_ne hne]
      exact (hs.holds h' hl').congr (hflnk h' hl' hne)
  · intro h1 hl1 h2 hl2 k hk1 hk2
    rcases eq_or_ne h1 h with heq1 | hne1 <;> rcases eq_or_ne h2 h with heq2 | hne2
    · rw [heq1, heq2]
    · rw [heq1, Function.update_self] at hk1
      rw [Function.update_of_ne hne2] at hk2
      exact absurd hk2 (hfresh h2 (hl2.resolve_left hne2) hne2 k hk1)
    · rw [Function.update_of_ne hne1] at hk1
      rw [heq2, Function.update_self] at hk2
      exact absurd hk1 (hfresh h1 (hl1.resolve_left hne1) hne1 k hk2)
    · rw [Function.update_of_ne hne1] at hk1
      rw [Function.update_of_ne hne2] at hk2
      exact hs.disjoint h1 (hl1.resolve_left hne1) h2 (hl2.resolve_left hne2) k hk1 hk2
  · intro h' hl'
    rcases eq_or_ne h' h with rfl | hne
    · rwa [Function.update_self]
    · have hl' : h' ∈ live := hl'.resolve_left hne
      have ht := hs.tail h' hl'
      rw [Function.update_of_ne hne]
      unfold Tight at ht ⊢
      rwa [hblnk h' hl' hne]

/-- `init` makes a head live, with an empty list. -/
theorem init (hs : ListStore m live σ) (h : H) :
    ListStore (m.init (.inl h)) (insert h live) (Function.update σ h []) := by
  have hr := Rep.init m (.inl h : H ⊕ N)
  refine hs.of_step hr.toHolds (.inl hr.tail) (by simp) ?_ ?_
  · intro h' _ hne y hy
    exact Links.init_flnk_of_ne (ne_head_of_mem hy hne)
  · intro h' _ hne
    exact Links.init_blnk_of_ne fun heq => hne (Sum.inl.inj heq)

/-- `insert_tail` on a tight list appends a fresh node. -/
theorem insertTail (hs : ListStore m live σ) (hl : h ∈ live) (ht : Tight m h (σ h))
    (hn : ∀ h' ∈ live, n ∉ σ h') :
    ListStore (m.insertTail (.inl h) (.inr n)).1 live (Function.update σ h (σ h ++ [n])) ∧
      Tight (m.insertTail (.inl h) (.inr n)).1 h (σ h ++ [n]) := by
  have hnode : (.inr n : H ⊕ N) ≠ .inl h := Sum.inr_ne_inl
  have hr := (hs.rep hl ht).insertTail hnode (by simpa using hn h hl)
  have hcells : cells (σ h) ++ [.inr n] = (cells (σ h ++ [n]) : List (H ⊕ N)) := by simp [cells]
  rw [hcells] at hr
  refine ⟨?_, hr.tail⟩
  rw [← Set.insert_eq_of_mem hl]
  refine hs.of_step hr.toHolds (.inl hr.tail) ?_ ?_ ?_
  · intro h' hl' hne k hk hk'
    rcases List.mem_append.mp hk with hk | hk
    · exact hne (hs.disjoint h' hl' h hl k hk' hk)
    · rw [List.mem_singleton.mp hk] at hk'
      exact hn h' hl' hk'
  · intro h' hl' hne y hy
    -- the two written forward links are the new node's and the old tail's
    have hy' : y ∉ Sum.inl h :: cells (σ h) := by
      intro hmem
      rcases List.mem_cons.mp hmem with rfl | hm
      · exact ne_head_of_mem hy hne rfl
      · obtain ⟨k, hk, rfl⟩ := List.mem_map.mp hm
        exact ne_node_of_mem hy (fun hk' => hne (hs.disjoint h' hl' h hl k hk' hk)) rfl
    refine Links.insertTail_flnk_of_ne (ne_node_of_mem hy (hn h' hl')) ?_
    rw [ht]
    rintro rfl
    exact hy' (lastCell_mem _ _)
  · intro h' _ hne
    exact Links.insertTail_blnk_of_ne fun heq => hne (Sum.inl.inj heq)

/-- `insert_head` prepends a fresh node, and leaves a stale tail when the list
was empty. -/
theorem insertHead (hs : ListStore m live σ) (hl : h ∈ live) (ht : Tight m h (σ h))
    (hn : ∀ h' ∈ live, n ∉ σ h') :
    ListStore (m.insertHead (.inl h) (.inr n)).1 live (Function.update σ h (n :: σ h)) := by
  have hnode : (.inr n : H ⊕ N) ≠ .inl h := Sum.inr_ne_inl
  have hr := (hs.holds h hl).insertHead hnode (by simpa using hn h hl)
  rw [← Set.insert_eq_of_mem hl]
  refine hs.of_step hr ?_ ?_ ?_ ?_
  · rcases eq_or_ne (σ h) [] with hnil | hcons
    · right
      have hb : m.blnk (.inl h) = .inl h := by rw [ht, hnil]; rfl
      simp [hnil, hb]
    · left
      have hrep := (hs.rep hl ht).insertHead hnode
        (by simpa using hn h hl) (by simpa [cells] using hcons)
      exact hrep.tail
  · intro h' hl' hne k hk hk'
    rcases List.mem_cons.mp hk with rfl | hk
    · exact hn h' hl' hk'
    · exact hne (hs.disjoint h' hl' h hl k hk' hk)
  · intro h' hl' hne y hy
    exact Links.insertHead_flnk_of_ne (ne_node_of_mem hy (hn h' hl')) (ne_head_of_mem hy hne)
  · intro h' _ _
    rfl

/-- `remove_head` pops the first node and leaves a tight list, also when the
tail was stale. -/
theorem removeHead (hs : ListStore m live σ) (hl : h ∈ live) {xs : List N}
    (hσ : σ h = n :: xs) :
    ListStore (m.removeHead (.inl h)).1 live (Function.update σ h xs) ∧
      Tight (m.removeHead (.inl h)).1 h xs ∧ (m.removeHead (.inl h)).2 = some (.inr n) := by
  have hhold := hs.holds h hl
  rw [hσ] at hhold
  have htail : (cells xs : List (H ⊕ N)) ≠ [] →
      m.blnk (.inl h) = lastCell (.inl h) (.inr n :: cells xs) := by
    intro hne
    have ht : Tight m h (σ h) := by
      refine hs.tight_of_length_ne_one hl ?_
      rw [hσ]
      simpa [cells] using hne
    rw [Tight, hσ] at ht
    exact ht
  obtain ⟨hr, hret⟩ := Holds.removeHead (x := (.inr n : H ⊕ N)) hhold htail
  refine ⟨?_, hr.tail, hret⟩
  rw [← Set.insert_eq_of_mem hl]
  refine hs.of_step hr.toHolds (.inl hr.tail) ?_ ?_ ?_
  · intro h' hl' hne k hk hk'
    exact hne (hs.disjoint h' hl' h hl k hk' (by rw [hσ]; exact List.mem_cons_of_mem _ hk))
  · intro h' _ hne y hy
    exact Links.removeHead_flnk_of_ne (ne_head_of_mem hy hne)
  · intro h' _ hne
    exact Links.removeHead_blnk_of_ne fun heq => hne (Sum.inl.inj heq)

/-- `remove_head` of an empty list changes nothing. -/
theorem removeHead_nil (hs : ListStore m live σ) (hl : h ∈ live) (hσ : σ h = []) :
    m.removeHead (.inl h) = (m, none) := by
  have hhold := hs.holds h hl
  rw [hσ] at hhold
  exact hhold.removeHead_nil

end ListStore

end ProtoDune.Daq
