import Mathlib.Data.List.Basic
import Mathlib.Data.List.Infix

/-!
# The positions of chosen items

`findIdxs p xs` lists the positions of the items of `xs` that are chosen by `p`,
in order. Here: the items at these positions, and what lies between two of them.
-/

namespace Positions

variable {α β : Type*} {p : β → Bool}

/-- The items of a list at the positions chosen in a list beside it. -/
theorem map_getElem?_findIdxs (xs : List α) (marks : List β) (s : Nat)
    (h : xs.length = marks.length) :
    (marks.findIdxs p s).map (fun k => xs[k - s]?) =
      ((xs.zip marks).filter fun a => p a.2).map fun a => some a.1 := by
  induction xs generalizing marks s with
  | nil =>
    have hnil : marks = [] := List.eq_nil_of_length_eq_zero h.symm
    rw [hnil]
    rfl
  | cons x xs ih =>
    cases marks with
    | nil => cases h
    | cons mark marks =>
      have htail : (marks.findIdxs p (s + 1)).map (fun k => (x :: xs)[k - s]?) =
          ((xs.zip marks).filter fun a => p a.2).map fun a => some a.1 := by
        rw [← ih marks (s + 1) (by simpa using h)]
        apply List.map_congr_left
        intro k hk
        have hle := List.ge_of_mem_findIdxs k hk
        rw [show k - s = k - (s + 1) + 1 by omega, List.getElem?_cons_succ]
      rw [List.findIdxs_cons, List.zip_cons_cons, List.filter_cons]
      dsimp only
      split
      · rw [List.map_cons, List.map_cons, htail, Nat.sub_self, List.getElem?_cons_zero]
      · exact htail

/-- Nothing is chosen between two positions that follow each other. -/
theorem eq_false_between {xs : List β} {j i i' m : Nat} (hi : (xs.findIdxs p)[j]? = some i)
    (hi' : (xs.findIdxs p)[j + 1]? = some i') (hlo : i < m) (hhi : m < i') {x : β}
    (hx : xs[m]? = some x) : p x = false := by
  by_contra hp
  obtain ⟨hm, rfl⟩ := List.getElem?_eq_some_iff.mp hx
  have hmem : m ∈ xs.findIdxs p :=
    (List.mem_findIdxs_iff_pos_getElem hm).mpr (by simpa using hp)
  obtain ⟨l, hl, rfl⟩ := List.getElem_of_mem hmem
  obtain ⟨hj, rfl⟩ := List.getElem?_eq_some_iff.mp hi
  obtain ⟨hj', rfl⟩ := List.getElem?_eq_some_iff.mp hi'
  -- the positions increase, so `l` would lie between `j` and `j + 1`
  have hmono := List.pairwise_iff_getElem.mp (show (xs.findIdxs p).Pairwise (· < ·) from
    List.pairwise_findIdxs)
  rcases Nat.lt_trichotomy l j with hlt | rfl | hlt
  · have := hmono l j hl hj hlt
    omega
  · omega
  · rcases Nat.lt_or_ge (j + 1) l with hgt | hge
    · have := hmono (j + 1) l hj' hl hgt
      omega
    · obtain rfl : l = j + 1 := by omega
      omega

end Positions
