import Mathlib.Algebra.BigOperators.Group.Finset.Basic
import Mathlib.Data.Finset.Card
import Mathlib.Order.Interval.Finset.Nat
import Mathlib.Tactic.Abel

/-!
# The gaps of an increasing list of numbers

A quantity of the gaps between consecutive numbers of a list is summed up by
`gapSum`; it may depend on how many numbers came before. The numbers that lie
strictly inside the list and are not on it are the union of its gaps.
-/

namespace Gaps

variable {M : Type*} [AddCommMonoid M]

/-- The sum of `f` over the gaps of `k :: ks`, where `i` is the number of
elements up to `k`. -/
def gapSum (f : Nat → Nat → Nat → M) : Nat → Nat → List Nat → M
  | _, _, [] => 0
  | i, k, k' :: ks => f i k k' + gapSum f (i + 1) k' ks

theorem gapSum_add (f g : Nat → Nat → Nat → M) (i k : Nat) (ks : List Nat) :
    gapSum (fun i k k' => f i k k' + g i k k') i k ks = gapSum f i k ks + gapSum g i k ks := by
  induction ks generalizing i k with
  | nil => exact (add_zero 0).symm
  | cons k' ks ih =>
    rw [gapSum, gapSum, gapSum, ih]
    abel

theorem gapSum_congr {f g : Nat → Nat → Nat → M} {i k : Nat} {ks : List Nat}
    (hsorted : (k :: ks).Pairwise (· < ·)) (h : ∀ i k k', k < k' → f i k k' = g i k k') :
    gapSum f i k ks = gapSum g i k ks := by
  induction ks generalizing i k with
  | nil => rfl
  | cons k' ks ih =>
    obtain ⟨hfirst, hrest⟩ := List.pairwise_cons.mp hsorted
    rw [gapSum, gapSum, ih hrest, h i k k' (hfirst k' List.mem_cons_self)]

theorem map_gapSum {N : Type*} [AddCommMonoid N] (φ : M →+ N) (f : Nat → Nat → Nat → M)
    (i k : Nat) (ks : List Nat) :
    φ (gapSum f i k ks) = gapSum (fun i k k' => φ (f i k k')) i k ks := by
  induction ks generalizing i k with
  | nil => exact map_zero φ
  | cons k' ks ih => rw [gapSum, gapSum, map_add, ih]

variable (P : Nat → Prop) [DecidablePred P]

/-- How many numbers between `k` and `k'` have the property `P`. -/
def gapCount (k k' : Nat) : Nat := ((Finset.Ioo k k').filter P).card

/-- The numbers below `n` with the property `P` that lie strictly inside the
list and are not on it. -/
def inside (n : Nat) (ks : List Nat) : Finset Nat :=
  (Finset.range n).filter fun x => (∃ a ∈ ks, a < x) ∧ (∃ b ∈ ks, x < b) ∧ P x ∧ x ∉ ks

theorem mem_inside {n x : Nat} {ks : List Nat} (hn : ∀ k ∈ ks, k < n) :
    x ∈ inside P n ks ↔ (∃ a ∈ ks, a < x) ∧ (∃ b ∈ ks, x < b) ∧ P x ∧ x ∉ ks := by
  unfold inside
  rw [Finset.mem_filter, Finset.mem_range]
  constructor
  · rintro ⟨-, h⟩
    exact h
  · rintro ⟨ha, ⟨b, hb, hlt⟩, hP⟩
    exact ⟨lt_trans hlt (hn b hb), ha, ⟨b, hb, hlt⟩, hP⟩

theorem inside_cons_cons {n k k' : Nat} {ks : List Nat}
    (hsorted : (k :: k' :: ks).Pairwise (· < ·)) (hn : ∀ x ∈ k :: k' :: ks, x < n) :
    inside P n (k :: k' :: ks) = (Finset.Ioo k k').filter P ∪ inside P n (k' :: ks) := by
  obtain ⟨hfirst, hrest⟩ := List.pairwise_cons.mp hsorted
  obtain ⟨hsecond, -⟩ := List.pairwise_cons.mp hrest
  have hkk' := hfirst k' List.mem_cons_self
  have hn' : ∀ x ∈ k' :: ks, x < n := fun x hx => hn x (List.mem_cons_of_mem _ hx)
  ext x
  rw [Finset.mem_union, mem_inside P hn, mem_inside P hn', Finset.mem_filter, Finset.mem_Ioo]
  constructor
  · rintro ⟨⟨a, ha, hax⟩, ⟨b, hb, hxb⟩, hP, hnot⟩
    rcases Nat.lt_trichotomy x k' with hlt | rfl | hgt
    · left
      refine ⟨⟨?_, hlt⟩, hP⟩
      rcases List.mem_cons.mp ha with rfl | ha
      · exact hax
      · exact lt_trans (hfirst a ha) hax
    · exact absurd (List.mem_cons_of_mem _ List.mem_cons_self) hnot
    · right
      refine ⟨⟨k', List.mem_cons_self, hgt⟩, ⟨b, ?_, hxb⟩, hP, ?_⟩
      · rcases List.mem_cons.mp hb with rfl | hb
        · omega
        · exact hb
      · intro hx
        exact hnot (List.mem_cons_of_mem _ hx)
  · rintro (⟨⟨hlo, hhi⟩, hP⟩ | ⟨⟨a, ha, hax⟩, ⟨b, hb, hxb⟩, hP, hnot⟩)
    · refine ⟨⟨k, List.mem_cons_self, hlo⟩, ⟨k', by simp, hhi⟩, hP, ?_⟩
      intro hx
      rcases List.mem_cons.mp hx with rfl | hx
      · omega
      · rcases List.mem_cons.mp hx with rfl | hx
        · omega
        · have := hsecond x hx
          omega
    · refine ⟨⟨a, List.mem_cons_of_mem _ ha, hax⟩, ⟨b, List.mem_cons_of_mem _ hb, hxb⟩, hP, ?_⟩
      intro hx
      rcases List.mem_cons.mp hx with rfl | hx
      · have := hfirst a ha
        omega
      · exact hnot hx

/-- **Inside the list is what lies in its gaps.** -/
theorem card_inside {n i k : Nat} {ks : List Nat} (hsorted : (k :: ks).Pairwise (· < ·))
    (hn : ∀ x ∈ k :: ks, x < n) :
    (inside P n (k :: ks)).card = gapSum (fun _ k k' => gapCount P k k') i k ks := by
  induction ks generalizing i k with
  | nil =>
    rw [gapSum, Finset.card_eq_zero, Finset.eq_empty_iff_forall_notMem]
    intro x hx
    obtain ⟨⟨a, ha, hax⟩, ⟨b, hb, hxb⟩, -⟩ := (mem_inside P hn).mp hx
    rw [List.mem_singleton] at ha hb
    omega
  | cons k' ks ih =>
    obtain ⟨-, hrest⟩ := List.pairwise_cons.mp hsorted
    obtain ⟨hsecond, -⟩ := List.pairwise_cons.mp hrest
    have hn' : ∀ x ∈ k' :: ks, x < n := fun x hx => hn x (List.mem_cons_of_mem _ hx)
    have hdisjoint : Disjoint ((Finset.Ioo k k').filter P) (inside P n (k' :: ks)) := by
      rw [Finset.disjoint_left]
      intro x hx hx'
      obtain ⟨⟨-, hhi⟩, -⟩ := (Finset.mem_filter.trans (and_congr_left' Finset.mem_Ioo)).mp hx
      obtain ⟨⟨a, ha, hax⟩, -⟩ := (mem_inside P hn').mp hx'
      rcases List.mem_cons.mp ha with rfl | ha
      · omega
      · have := hsecond a ha
        omega
    rw [inside_cons_cons P hsorted hn, Finset.card_union_of_disjoint hdisjoint, gapSum,
      ih (i := i + 1) hrest hn', gapCount]

/-- A gap holds the numbers with the property and those without. -/
theorem gapCount_add_gapCount_not (k k' : Nat) :
    gapCount P k k' + gapCount (fun x => ¬ P x) k k' = k' - k - 1 := by
  unfold gapCount
  rw [Finset.card_filter_add_card_filter_not, Nat.card_Ioo]

end Gaps
