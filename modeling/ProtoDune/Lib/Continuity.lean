import Mathlib.Logic.Function.Iterate

/-!
# Continuity of a sampled stream

A stream of values is contiguous when each is the successor of the one before. It comes in
packets of `size` values, of which every `sample`-th is looked at: the values of such a
packet are compared with the successor of the value before, the first of them with what the
last value of the packet looked at before leads to.

Main results:

* `Contiguous.iterate` — what a value of a contiguous stream leads to.
* `not_deviates` — no value of a contiguous stream deviates.
-/

namespace Continuity

variable {α : Type*} {next : α → α} {f : Nat → α} {size sample n i : Nat}

/-- The first `n` values of `f` follow each other. -/
def Contiguous (next : α → α) (f : Nat → α) (n : Nat) : Prop :=
  ∀ g, g + 1 < n → f (g + 1) = next (f g)

/-- The last value of the packet looked at before packet `n`. -/
def lastBefore (f : Nat → α) (size sample n : Nat) : α := f (size * (n - sample) + (size - 1))

/-- What continuity with the value looked at before asks of value `i` of packet `n`. -/
def predicted (next : α → α) (f : Nat → α) (size sample n i : Nat) : α :=
  if i = 0 then next^[size * (sample - 1) + 1] (lastBefore f size sample n)
  else next (f (size * n + (i - 1)))

/-- Value `i` of packet `n` is not the one that is predicted. -/
def Deviates (next : α → α) (f : Nat → α) (size sample n i : Nat) : Prop :=
  f (size * n + i) ≠ predicted next f size sample n i

theorem Contiguous.iterate (h : Contiguous next f n) (g k : Nat) (hlt : g + k < n) :
    f (g + k) = next^[k] (f g) := by
  induction k with
  | zero => rfl
  | succ k ih =>
      rw [Function.iterate_succ_apply', ← ih (by omega)]
      exact h (g + k) hlt

/-- **No value** of a contiguous stream deviates. -/
theorem not_deviates {packets : Nat} (h : Contiguous next f (size * packets)) (hn : n < packets)
    (hi : i < size) (hsample : 0 < sample) (hprev : i = 0 → sample ≤ n) :
    ¬Deviates next f size sample n i := by
  have hin : size * n + i < size * packets := by
    have hroom := Nat.mul_le_mul_left size hn
    rw [Nat.mul_succ] at hroom
    omega
  unfold Deviates predicted
  rw [not_not]
  by_cases hzero : i = 0
  · have hplace : size * n = size * (n - sample) + (size - 1) + (size * (sample - 1) + 1) := by
      obtain ⟨k, rfl⟩ := Nat.exists_eq_add_of_le (hprev hzero)
      obtain ⟨s, rfl⟩ := Nat.exists_eq_add_of_le' hsample
      rw [Nat.add_sub_cancel_left, Nat.add_sub_cancel, Nat.mul_add, Nat.mul_add]
      omega
    rw [if_pos hzero, lastBefore, ← h.iterate _ _ (by omega), hzero, Nat.add_zero]
    exact congrArg f hplace
  · rw [if_neg hzero, ← h]
    · congr 1
      omega
    · omega

end Continuity
