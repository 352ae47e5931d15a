import ProtoDune.Daq.Threads

/-!
# What a list operation does to a memory

The operations on a list whose tail link is right or at the head. In either
case they leave such a list behind, and touch no cell but those of the list and
of the given node.

Main results:

* `listEffect` — the effect of each operation.
-/

namespace ProtoDune.Daq

open Access LinkChain

/-- The list at `h` has the buffers `xs`, and its tail link is right or at the head. -/
structure ListAt (m : Links Addr) (h : Head) (xs : List Nat) : Prop where
  holds : Holds m (.inl h) (cells xs)
  tail : Tight m h xs ∨ m.blnk (.inl h) = .inl h

/-- `op` on the list `h` with the buffers `xs` leaves the buffers `ys` and gives `popped` to the
caller. -/
structure ListEffect (op : ListOp Addr) (mem : LinkCell → Addr) (h : Head)
    (xs given ys popped : List Nat) : Prop where
  list : ListAt (op.exec (.inl h) (linksOf mem)).1 h ys
  taken : op.taken (op.exec (.inl h) (linksOf mem)).2 = popped.map .inr
  nodup : popped.Nodup
  given_mem : ∀ i ∈ given, i ∈ ys
  mem_or : ∀ i ∈ ys, i ∈ xs ∨ i ∈ given
  popped_mem : ∀ i ∈ popped, i ∈ xs ∧ i ∉ ys
  flnk : ∀ p, p ≠ .inl h → (∀ i, p = .inr i → i ∉ xs ∧ i ∉ given) →
    (op.exec (.inl h) (linksOf mem)).1.flnk p = mem (.flnk p)
  blnk : ∀ p, p ≠ .inl h → (op.exec (.inl h) (linksOf mem)).1.blnk p = mem (.blnk p)
  within : ∀ S : Set LinkCell, .flnk (.inl h) ∈ S → .blnk (.inl h) ∈ S →
    (∀ i, i ∈ xs ∨ i ∈ given → .flnk (.inr i) ∈ S) → (op.accesses (.inl h)).Within S mem

variable {mem : LinkCell → Addr} {h : Head} {xs given : List Nat} {i : Nat}

theorem ListEffect.init (mem : LinkCell → Addr) (h : Head) (xs : List Nat) :
    ListEffect .init mem h xs [] [] [] where
  list := by
    have hrep := Rep.init (linksOf mem) (.inl h : Addr)
    exact ⟨hrep.toHolds, .inl hrep.tail⟩
  taken := rfl
  nodup := .nil
  given_mem := by simp
  mem_or := by simp
  popped_mem := by simp
  flnk p hp _ := Links.init_flnk_of_ne hp
  blnk p hp := Links.init_blnk_of_ne hp
  within S hf hb _ := ⟨hf, hf, hb, trivial⟩

/-- The tail link is the head or a node of the list. -/
theorem ListAt.blnk_cases (hl : ListAt (linksOf mem) h xs) :
    mem (.blnk (.inl h)) = .inl h ∨ ∃ i ∈ xs, mem (.blnk (.inl h)) = .inr i := by
  rcases hl.tail with htight | hstale
  · have hmem : mem (.blnk (.inl h)) ∈ .inl h :: (cells xs : List Addr) := by
      change (linksOf mem).blnk (.inl h) ∈ _
      rw [htight]
      exact lastCell_mem _ _
    rcases List.mem_cons.mp hmem with heq | hmem
    · exact .inl heq
    · obtain ⟨i, hi, heq⟩ := List.mem_map.mp hmem
      exact .inr ⟨i, hi, heq.symm⟩
  · exact .inl hstale

/-- `insert_tail` appends, or replaces a list whose tail link is stale. -/
theorem ListAt.insertTail (hl : ListAt (linksOf mem) h xs) (hi : i ∉ xs) :
    ∃ ys, ListEffect (.insertTail (.inr i)) mem h xs [i] ys [] := by
  have hne : (.inr i : Addr) ≠ .inl h := nofun
  have hcell : (.inr i : Addr) ∉ cells xs := by simpa using hi
  obtain ⟨ys, hlist, hmem, hsub⟩ : ∃ ys : List Nat,
      ListAt ((linksOf mem).insertTail (.inl h) (.inr i)).1 h ys ∧ i ∈ ys ∧
        ∀ j ∈ ys, j ∈ xs ∨ j ∈ [i] := by
    rcases hl.tail with htight | hstale
    · have hrep : Rep (linksOf mem) (.inl h) (cells xs) := ⟨hl.holds, htight⟩
      have hrep' := hrep.insertTail hne hcell
      have hcells : cells xs ++ [.inr i] = (cells (xs ++ [i]) : List Addr) := by simp [cells]
      rw [hcells] at hrep'
      exact ⟨xs ++ [i], ⟨hrep'.toHolds, .inl hrep'.tail⟩, by simp, by simp⟩
    · refine ⟨[i], ⟨⟨?_, by simp [cells]⟩, .inl ?_⟩, by simp, by simp⟩
      · have hback : (linksOf mem).blnk (.inl h) = .inl h := hstale
        simp only [Links.insertTail, hback, Links.setFlnk_flnk, Links.setBlnk_flnk, cells,
          List.map_cons, List.map_nil, chain_cons, chain_nil, Function.update_self]
        exact ⟨trivial, by rw [Function.update_of_ne hne, Function.update_self]⟩
      · simp [Tight, Links.insertTail, cells]
  refine ⟨ys, hlist, rfl, .nil, by simpa using hmem, hsub, by simp, ?_, ?_, ?_⟩
  · intro p hp hnode
    refine Links.insertTail_flnk_of_ne ?_ ?_
    · rintro rfl
      exact (hnode i rfl).2 List.mem_cons_self
    · rintro rfl
      rcases hl.blnk_cases with heq | ⟨j, hj, heq⟩
      · exact hp heq
      · exact (hnode j heq).1 hj
  · exact fun p hp => Links.insertTail_blnk_of_ne hp
  · intro S hf hb hnodes
    refine ⟨hb, hb, hnodes i (.inr List.mem_cons_self), ?_, trivial⟩
    rcases hl.blnk_cases with heq | ⟨j, hj, heq⟩
    · rw [heq]
      exact hf
    · rw [heq]
      exact hnodes j (.inl hj)

/-- `insert_head` prepends. -/
theorem ListAt.insertHead (hl : ListAt (linksOf mem) h xs) (hi : i ∉ xs) :
    ListEffect (.insertHead (.inr i)) mem h xs [i] (i :: xs) [] := by
  have hne : (.inr i : Addr) ≠ .inl h := nofun
  have hcell : (.inr i : Addr) ∉ cells xs := by simpa using hi
  refine ⟨⟨hl.holds.insertHead hne hcell, ?_⟩, rfl, .nil, by simp, by simp +contextual [or_comm],
    by simp, ?_, fun p _ => rfl, ?_⟩
  · rcases hl.tail with htight | hstale
    · cases xs with
      | nil => exact .inr htight
      | cons x xs =>
        left
        have hlast : lastCell (.inl h) (cells (i :: x :: xs)) =
            lastCell (.inl h) (cells (x :: xs) : List Addr) := by simp [cells]
        exact htight.trans hlast.symm
    · exact .inr hstale
  · intro p hp hnode
    refine Links.insertHead_flnk_of_ne ?_ hp
    rintro rfl
    exact (hnode i rfl).2 List.mem_cons_self
  · intro S hf _ hnodes
    exact ⟨hf, hnodes i (.inr List.mem_cons_self), hf, trivial⟩

/-- `remove_head` takes the first buffer. -/
theorem ListAt.removeHead_cons {x : Nat} (hl : ListAt (linksOf mem) h (x :: xs)) :
    ListEffect .removeHead mem h (x :: xs) [] xs [x] := by
  have hhold := hl.holds
  have hx : mem (.flnk (.inl h)) = .inr x := hhold.chain.1
  have hnx : x ∉ xs := by
    have hnd := (List.nodup_cons.mp hhold.nodup).2
    simpa using (List.nodup_cons.mp (List.Nodup.of_map _ hnd)).1
  have hnd : (.inl h :: (cells xs : List Addr)).Nodup := by
    have h₁ := List.nodup_cons.mp hhold.nodup
    have h₂ := List.nodup_cons.mp h₁.2
    exact List.nodup_cons.mpr ⟨fun hm => h₁.1 (List.mem_cons_of_mem _ hm), h₂.2⟩
  have hhead : (.inl h : Addr) ∉ (cells xs : List Addr) := (List.nodup_cons.mp hnd).1
  obtain ⟨hlist, htaken⟩ : ListAt ((linksOf mem).removeHead (.inl h)).1 h xs ∧
      ((linksOf mem).removeHead (.inl h)).2 = some (.inr x) := by
    by_cases htight : (cells xs : List Addr) ≠ [] →
        (linksOf mem).blnk (.inl h) = lastCell (.inl h) (.inr x :: cells xs)
    · obtain ⟨hrep, hret⟩ := Holds.removeHead hhold htight
      exact ⟨⟨hrep.toHolds, .inl hrep.tail⟩, hret⟩
    · -- a stale tail stays
      rw [Classical.not_imp] at htight
      have hstale : (linksOf mem).blnk (.inl h) = .inl h := hl.tail.resolve_left htight.2
      cases xs with
      | nil => exact absurd rfl htight.1
      | cons y ys =>
        have hy : (linksOf mem).flnk (.inr x) = .inr y := hhold.chain.2.1
        have hx' : (linksOf mem).flnk (.inl h) = .inr x := hx
        have hr : (linksOf mem).removeHead (.inl h) =
            ((linksOf mem).setFlnk (.inl h) (.inr y), some (.inr x)) := by
          simp [Links.removeHead, hx', hy]
        rw [hr]
        refine ⟨⟨⟨?_, hnd⟩, .inr hstale⟩, rfl⟩
        refine ⟨Function.update_self _ _ _, ?_⟩
        exact (hhold.chain.2.2).update_of_notMem hhead
  refine ⟨hlist, ?_, List.nodup_singleton x, by simp, ?_, ?_, ?_, ?_, ?_⟩
  · change ListOp.taken .removeHead ((linksOf mem).removeHead (.inl h)).2 = _
    rw [htaken]
    rfl
  · exact fun i hi => .inl (List.mem_cons_of_mem x hi)
  · simpa using hnx
  · exact fun p hp _ => Links.removeHead_flnk_of_ne hp
  · exact fun p hp => Links.removeHead_blnk_of_ne hp
  · intro S hf hb hnodes
    refine ⟨hf, ?_⟩
    rw [hx]
    dsimp only
    rw [if_pos (by simp)]
    refine ⟨hnodes x (.inl List.mem_cons_self), hf, ?_⟩
    split
    · exact ⟨hb, trivial⟩
    · trivial

/-- `remove_head` takes the first buffer, if there is one. -/
theorem ListAt.removeHead (hl : ListAt (linksOf mem) h xs) :
    ∃ ys popped, ListEffect .removeHead mem h xs [] ys popped := by
  cases xs with
  | cons x xs => exact ⟨xs, [x], hl.removeHead_cons⟩
  | nil =>
    have hempty : mem (.flnk (.inl h)) = .inl h := hl.holds.chain
    have hexec : ListOp.exec (.inl h) (linksOf mem) .removeHead = (linksOf mem, none) :=
      hl.holds.removeHead_nil
    refine ⟨[], [], ?_, ?_, .nil, by simp, by simp, by simp, ?_, ?_, ?_⟩
    · rw [hexec]
      exact hl
    · rw [hexec]
      rfl
    · intro p _ _
      rw [hexec]
      rfl
    · intro p _
      rw [hexec]
      rfl
    · intro S hf _ _
      refine ⟨hf, ?_⟩
      rw [hempty]
      dsimp only
      rw [if_neg (by simp)]
      trivial

/-- The effect of any operation on a list, or of `init` on anything. -/
theorem listEffect {op : ListOp Addr} (hl : op = .init ∨ ListAt (linksOf mem) h xs)
    (hgiven : op.given = given.map .inr) (hfresh : ∀ i ∈ given, i ∉ xs) :
    ∃ ys popped, ListEffect op mem h xs given ys popped := by
  cases op with
  | init =>
    have hnil : given = [] := List.map_eq_nil_iff.mp hgiven.symm
    subst hnil
    exact ⟨[], [], .init mem h xs⟩
  | insertTail node =>
    have hlist : ListAt (linksOf mem) h xs := hl.resolve_left nofun
    obtain ⟨i, rfl, rfl⟩ := List.map_eq_singleton_iff.mp hgiven.symm
    obtain ⟨ys, heffect⟩ := hlist.insertTail (hfresh i List.mem_cons_self)
    exact ⟨ys, [], heffect⟩
  | insertHead node =>
    have hlist : ListAt (linksOf mem) h xs := hl.resolve_left nofun
    obtain ⟨i, rfl, rfl⟩ := List.map_eq_singleton_iff.mp hgiven.symm
    exact ⟨i :: xs, [], hlist.insertHead (hfresh i List.mem_cons_self)⟩
  | removeHead =>
    have hlist : ListAt (linksOf mem) h xs := hl.resolve_left nofun
    have hnil : given = [] := List.map_eq_nil_iff.mp hgiven.symm
    subst hnil
    exact hlist.removeHead

end ProtoDune.Daq
