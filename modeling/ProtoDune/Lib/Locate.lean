import Mathlib.Data.List.TakeWhile
import ProtoDune.Lib.WindowSelect

/-!
# Locating a time in a stream of spans

In a stream ordered by beginnings the items that have begun by a time stand in
front. The last of them is the one to look for.

Main results:

* `InOrder.getElem?_begun` — what has begun stands in front.
* `InOrder.lastBegun_iff` — the item looked for is the last of what has begun.
-/

namespace Locate

open WindowSelect (Span)

variable {T α : Type*} [LinearOrder T] (span : α → Span T)

/-- No item begins before an earlier one does. -/
def InOrder (xs : List α) : Prop :=
  xs.Pairwise fun a b => (span a).beg ≤ (span b).beg

/-- The items in front that begin at or before `t`. -/
def begun (t : T) (xs : List α) : List α :=
  xs.takeWhile fun x => decide ((span x).beg ≤ t)

/-- Item `i` is the last that begins at or before `t`. -/
def LastBegun (t : T) (xs : List α) (i : Nat) : Prop :=
  (∃ x, xs[i]? = some x ∧ (span x).beg ≤ t)
    ∧ ∀ j y, xs[j]? = some y → (span y).beg ≤ t → j ≤ i

variable {span}

theorem InOrder.snoc {xs : List α} {x : α} :
    InOrder span (xs ++ [x]) ↔ InOrder span xs ∧ ∀ y ∈ xs, (span y).beg ≤ (span x).beg := by
  simp [InOrder, List.pairwise_append]

theorem length_begun_le (t : T) (xs : List α) : (begun span t xs).length ≤ xs.length :=
  (List.takeWhile_sublist _).length_le

/-- Everything has begun, or something has not. -/
theorem begun_eq_self_iff {t : T} {xs : List α} :
    begun span t xs = xs ↔ ∀ x ∈ xs, (span x).beg ≤ t := by
  rw [begun, List.takeWhile_eq_self_iff]
  simp

theorem begun_eq_self_of_length {t : T} {xs : List α}
    (h : (begun span t xs).length = xs.length) : begun span t xs = xs :=
  (List.takeWhile_prefix _).eq_of_length h

theorem begun_snoc (t : T) (xs : List α) (x : α) :
    begun span t (xs ++ [x])
      = if (begun span t xs).length = xs.length ∧ (span x).beg ≤ t then xs ++ [x]
        else begun span t xs := by
  rw [begun, List.takeWhile_append, ← begun]
  by_cases hall : (begun span t xs).length = xs.length
  · rw [if_pos hall, begun_eq_self_of_length hall]
    by_cases hx : (span x).beg ≤ t <;> simp [hx]
  · rw [if_neg hall, if_neg fun h => hall h.1]

theorem begun_eq_take (t : T) (xs : List α) :
    begun span t xs = xs.take (begun span t xs).length :=
  List.prefix_iff_eq_take.mp (List.takeWhile_prefix _)

/-- The last of the items that have begun. -/
theorem getLast?_begun {t : T} {xs : List α} {n : Nat}
    (hn : (begun span t xs).length = n + 1) : (begun span t xs).getLast? = xs[n]? := by
  rw [List.getLast?_eq_getElem?, hn, begun_eq_take, hn, Nat.add_sub_cancel,
    List.getElem?_take_of_lt (Nat.lt_succ_self n)]

/-- The others. -/
theorem mem_dropLast_begun {t : T} {xs : List α} {n : Nat} {x : α}
    (hn : (begun span t xs).length = n + 1) (hx : x ∈ (begun span t xs).dropLast) :
    ∃ j < n, xs[j]? = some x := by
  obtain ⟨j, hj⟩ := List.mem_iff_getElem?.mp hx
  rw [List.dropLast_eq_take, hn, Nat.add_sub_cancel, begun_eq_take, hn, List.take_take,
    List.getElem?_take] at hj
  split at hj
  · exact ⟨j, by omega, hj⟩
  · cases hj

namespace InOrder

variable {xs : List α} {t : T}

/-- The items that have begun are those at the first positions. -/
theorem getElem?_begun (h : InOrder span xs) {i : Nat} {x : α} (hx : xs[i]? = some x) :
    i < (begun span t xs).length ↔ (span x).beg ≤ t := by
  induction xs generalizing i with
  | nil => simp at hx
  | cons y ys ih =>
      obtain ⟨hy, hys⟩ := List.pairwise_cons.mp h
      by_cases hle : (span y).beg ≤ t
      · rw [begun, List.takeWhile_cons_of_pos (by simpa using hle), List.length_cons]
        cases i with
        | zero =>
            obtain rfl : y = x := by simpa using hx
            simpa using hle
        | succ i => exact Nat.succ_lt_succ_iff.trans (ih hys hx)
      · rw [begun, List.takeWhile_cons_of_neg (by simpa using hle), List.length_nil]
        refine iff_of_false (Nat.not_lt_zero i) fun hxt => hle ?_
        cases i with
        | zero =>
            obtain rfl : y = x := by simpa using hx
            exact hxt
        | succ i => exact le_trans (hy x (List.mem_of_getElem? hx)) hxt

/-- The item looked for is the last of those that have begun. -/
theorem lastBegun_iff (h : InOrder span xs) {i : Nat} :
    LastBegun span t xs i ↔ (begun span t xs).length = i + 1 := by
  have hlen : (begun span t xs).length ≤ xs.length := length_begun_le t xs
  constructor
  · rintro ⟨⟨x, hx, hxt⟩, hlast⟩
    have hi := (h.getElem?_begun hx).mpr hxt
    by_contra hne
    have hlt : i + 1 < xs.length := by omega
    have hnext := List.getElem?_eq_getElem hlt
    have hle := hlast _ _ hnext ((h.getElem?_begun hnext).mp (by omega))
    omega
  · intro heq
    have hx := List.getElem?_eq_getElem (show i < xs.length by omega)
    refine ⟨⟨_, hx, (h.getElem?_begun hx).mp (by omega)⟩, fun j y hy hyt => ?_⟩
    have hj := (h.getElem?_begun hy).mpr hyt
    omega

end InOrder

end Locate
