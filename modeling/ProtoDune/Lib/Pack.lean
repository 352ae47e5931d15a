import Mathlib.Data.Nat.Basic

/-!
# Packing

`pack xs n` is `n` bit vectors of one width side by side, the first one lowest.

Main results:

* `getLsbD_pack` — a bit of the packed vectors.
-/

namespace BitPack

variable {w : Nat}

/-- The first `n` vectors side by side. -/
def pack (xs : Nat → BitVec w) : (n : Nat) → BitVec (w * n)
  | 0 => 0#_
  | n + 1 => (xs n ++ pack xs n).cast (Nat.add_comm w (w * n))

theorem getLsbD_pack (xs : Nat → BitVec w) {n i : Nat} (h : i < w * n) :
    (pack xs n).getLsbD i = (xs (i / w)).getLsbD (i % w) := by
  induction n with
  | zero => exact absurd h (Nat.not_lt_zero i)
  | succ n ih =>
      rw [pack, BitVec.getLsbD_cast, BitVec.getLsbD_append]
      by_cases hi : i < w * n
      · rw [if_pos hi, ih hi]
      · have hsub : i - w * n < w := by rw [Nat.mul_succ] at h; omega
        have hpos : 0 < w := Nat.zero_lt_of_lt hsub
        have hdiv : i / w = n := by
          refine Nat.div_eq_of_lt_le ?_ ?_
          · rw [Nat.mul_comm]; exact Nat.le_of_not_lt hi
          · rw [Nat.mul_comm]; exact h
        have hmod : i % w = i - w * n := by
          rw [Nat.mod_def, hdiv]
        rw [if_neg hi, hdiv, hmod]

/-- Vectors that agree pack to the same. -/
theorem pack_congr {xs ys : Nat → BitVec w} {n : Nat} (h : ∀ k < n, xs k = ys k) :
    pack xs n = pack ys n := by
  induction n with
  | zero => rfl
  | succ n ih => rw [pack, pack, h n (Nat.lt_succ_self n), ih fun k hk => h k (by omega)]

end BitPack
