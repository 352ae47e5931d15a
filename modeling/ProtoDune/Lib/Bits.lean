import Mathlib.Data.Nat.Bitwise
import Mathlib.Data.Nat.Size

/-!
# Bit strings

`toBits n x` is the field of the `n` low bits of `x`, most significant bit
first; `ofBits` reads a bit string as a number.

Main results:

* `toBits_append` — a field splits at any bit.
* `toBits_shift_or`, `toBits_shift_mod_or` — shifting in a field appends it.
* `ofBits_toBits`, `toBits_ofBits` — the two are inverse.
* `sub_countLeadingZeros` — what is not leading zeros is the size.
-/

namespace BitString

/-- The `n` low bits of `x`, most significant first. -/
def toBits : Nat → Nat → List Bool
  | 0, _ => []
  | n + 1, x => x.testBit n :: toBits n x

/-- The number a bit string spells, most significant bit first. -/
def ofBits : List Bool → Nat
  | [] => 0
  | b :: bs => b.toNat * 2 ^ bs.length + ofBits bs

@[simp] theorem toBits_zero (x : Nat) : toBits 0 x = [] := rfl

theorem toBits_succ (n x : Nat) : toBits (n + 1) x = x.testBit n :: toBits n x := rfl

@[simp] theorem length_toBits (n x : Nat) : (toBits n x).length = n := by
  induction n with
  | zero => rfl
  | succ n ih => simp [toBits_succ, ih]

/-- A field depends on its own bits only. -/
theorem toBits_congr {n x y : Nat} (h : ∀ i < n, x.testBit i = y.testBit i) :
    toBits n x = toBits n y := by
  induction n with
  | zero => rfl
  | succ n ih =>
      rw [toBits_succ, toBits_succ, h n (Nat.lt_succ_self n),
        ih fun i hi => h i (Nat.lt_succ_of_lt hi)]

/-- Cutting off bits above the field changes nothing. -/
theorem toBits_mod {n m : Nat} (hle : n ≤ m) (x : Nat) : toBits n (x % 2 ^ m) = toBits n x := by
  refine toBits_congr fun i hi => ?_
  rw [Nat.testBit_mod_two_pow]
  simp [Nat.lt_of_lt_of_le hi hle]

/-- A field splits at any bit. -/
theorem toBits_append (m n x : Nat) : toBits (m + n) x = toBits m (x >>> n) ++ toBits n x := by
  induction m with
  | zero => simp
  | succ m ih =>
      rw [Nat.succ_add, toBits_succ, toBits_succ, ih, Nat.testBit_shiftRight, Nat.add_comm n m]
      rfl

/-- Shifting in a field appends it. -/
theorem toBits_shift_or {n y : Nat} (hy : y < 2 ^ n) (m x : Nat) :
    toBits (m + n) (x <<< n ||| y) = toBits m x ++ toBits n y := by
  rw [toBits_append]
  congr 1
  · refine toBits_congr fun i _ => ?_
    have hbit : y.testBit (n + i) = false :=
      Nat.testBit_lt_two_pow (Nat.lt_of_lt_of_le hy (Nat.pow_le_pow_right (by decide) (by omega)))
    simp [Nat.testBit_shiftRight, hbit]
  · refine toBits_congr fun i hi => ?_
    have hshift : (x <<< n).testBit i = false := by simp [Nat.testBit_shiftLeft, hi]
    rw [Nat.testBit_or, hshift, Bool.false_or]

/-- Shifting in a field appends it, also in a word of `w` bits. -/
theorem toBits_shift_mod_or {n w y : Nat} (hy : y < 2 ^ n) {m : Nat} (hle : m + n ≤ w)
    (x : Nat) : toBits (m + n) (x <<< n % 2 ^ w ||| y) = toBits m x ++ toBits n y := by
  rw [← toBits_shift_or hy]
  refine toBits_congr fun i hi => ?_
  simp [Nat.testBit_or, Nat.testBit_mod_two_pow, Nat.lt_of_lt_of_le hi hle]

/-- A field of equal bits. -/
theorem toBits_eq_replicate {n x : Nat} {b : Bool} (h : ∀ i < n, x.testBit i = b) :
    toBits n x = List.replicate n b := by
  induction n with
  | zero => rfl
  | succ n ih =>
      rw [toBits_succ, List.replicate_succ, h n (Nat.lt_succ_self n),
        ih fun i hi => h i (Nat.lt_succ_of_lt hi)]

/-- The top bit of a number of `n + 1` bits. -/
theorem testBit_top {n x : Nat} (hx : x < 2 ^ (n + 1)) : x.testBit n = true ↔ 2 ^ n ≤ x := by
  refine ⟨Nat.ge_two_pow_of_testBit, fun hge => ?_⟩
  have hdiv : x / 2 ^ n = 1 := by
    rw [Nat.pow_succ] at hx
    exact Nat.div_eq_of_lt_le (by omega) (by omega)
  rw [Nat.testBit_eq_decide_div_mod_eq, hdiv]
  rfl

/-- Subtracting a multiple of `2 ^ j` leaves the bits below `j`. -/
theorem testBit_sub {x s i j : Nat} (hs : 2 ^ j ∣ s) (hle : s ≤ x) (hi : i < j) :
    (x - s).testBit i = x.testBit i := by
  obtain ⟨k, rfl⟩ := hs
  have hmod : (x - 2 ^ j * k) % 2 ^ j = x % 2 ^ j := Nat.sub_mul_mod hle
  have hbits := congrArg (Nat.testBit · i) hmod
  simpa [Nat.testBit_mod_two_pow, hi] using hbits

theorem ofBits_lt (bs : List Bool) : ofBits bs < 2 ^ bs.length := by
  induction bs with
  | nil => exact Nat.one_pos
  | cons b bs ih =>
      rw [ofBits, List.length_cons, Nat.pow_succ]
      cases b <;> simp <;> omega

theorem ofBits_append (xs ys : List Bool) :
    ofBits (xs ++ ys) = ofBits xs * 2 ^ ys.length + ofBits ys := by
  induction xs with
  | nil => simp [ofBits]
  | cons x xs ih =>
      rw [List.cons_append, ofBits, ofBits, ih, List.length_append, Nat.pow_add]
      rw [Nat.add_mul, Nat.mul_assoc, Nat.add_assoc]

/-- A field reads back as its number. -/
theorem ofBits_toBits (n x : Nat) : ofBits (toBits n x) = x % 2 ^ n := by
  induction n with
  | zero => simp [ofBits, Nat.mod_one]
  | succ n ih =>
      rw [toBits_succ, ofBits, length_toBits, ih, Nat.mod_pow_succ,
      Nat.testBit_eq_decide_div_mod_eq]
      have hbit := Nat.mod_lt (x / 2 ^ n) (show 0 < 2 by decide)
      rcases (show x / 2 ^ n % 2 = 0 ∨ x / 2 ^ n % 2 = 1 by omega) with h | h <;> simp [h]
      omega

/-- The number of a bit string spells it again. -/
theorem toBits_ofBits (bs : List Bool) : toBits bs.length (ofBits bs) = bs := by
  induction bs with
  | nil => rfl
  | cons b bs ih =>
      have hlt := ofBits_lt bs
      rw [List.length_cons, toBits_succ, ofBits]
      congr 1
      · rw [Nat.testBit_eq_decide_div_mod_eq, Nat.add_comm,
          Nat.add_mul_div_right _ _ (Nat.two_pow_pos _), Nat.div_eq_of_lt hlt]
        cases b <;> rfl
      · rw [← toBits_mod (Nat.le_refl bs.length), Nat.add_comm, Nat.add_mul_mod_self_right,
          Nat.mod_eq_of_lt hlt, ih]

/-- The zeros above the highest bit of the `w`-bit number `x`. -/
def countLeadingZeros : Nat → Nat → Nat
  | 0, _ => 0
  | w + 1, x => if x.testBit w then 0 else countLeadingZeros w x + 1

theorem countLeadingZeros_le (w x : Nat) : countLeadingZeros w x ≤ w := by
  induction w with
  | zero => exact Nat.le_refl 0
  | succ w ih =>
      rw [countLeadingZeros]
      split <;> omega

theorem countLeadingZeros_congr {w x y : Nat} (h : ∀ i < w, x.testBit i = y.testBit i) :
    countLeadingZeros w x = countLeadingZeros w y := by
  induction w with
  | zero => rfl
  | succ w ih =>
      rw [countLeadingZeros, countLeadingZeros, h w (Nat.lt_succ_self w),
        ih fun i hi => h i (Nat.lt_succ_of_lt hi)]

/-- The highest bit of a number stands behind its leading zeros. -/
theorem countLeadingZeros_spec {w x : Nat} (hx : x < 2 ^ w) (hne : x ≠ 0) :
    countLeadingZeros w x < w ∧ x.testBit (w - 1 - countLeadingZeros w x) = true ∧
      ∀ i < countLeadingZeros w x, x.testBit (w - 1 - i) = false := by
  induction w with
  | zero => omega
  | succ w ih =>
      rw [countLeadingZeros]
      by_cases hbit : x.testBit w = true
      · rw [if_pos hbit]
        exact ⟨Nat.succ_pos w, hbit, fun i hi => absurd hi (Nat.not_lt_zero i)⟩
      · rw [if_neg hbit]
        have hlt : x < 2 ^ w := Nat.not_le.mp fun hge => hbit ((testBit_top hx).mpr hge)
        obtain ⟨hle, hset, habove⟩ := ih hlt
        refine ⟨Nat.succ_lt_succ hle, ?_, ?_⟩
        · rwa [show w + 1 - 1 - (countLeadingZeros w x + 1) = w - 1 - countLeadingZeros w x by omega]
        · intro i hi
          rcases Nat.eq_zero_or_pos i with rfl | hpos
          · exact Bool.not_eq_true _ ▸ hbit
          · rw [show w + 1 - 1 - i = w - 1 - (i - 1) by omega]
            exact habove (i - 1) (by omega)

theorem ne_zero_of_testBit {x i : Nat} (h : x.testBit i = true) : x ≠ 0 := by
  rintro rfl
  rw [Nat.zero_testBit] at h
  exact Bool.false_ne_true h

theorem countLeadingZeros_eq {w x n : Nat} (hx : x < 2 ^ w)
    (hset : x.testBit (w - 1 - n) = true) (habove : ∀ i < n, x.testBit (w - 1 - i) = false) :
    countLeadingZeros w x = n := by
  obtain ⟨-, hset', habove'⟩ := countLeadingZeros_spec hx (ne_zero_of_testBit hset)
  refine Nat.le_antisymm (Nat.not_lt.mp fun hlt => ?_) (Nat.not_lt.mp fun hlt => ?_)
  · rw [habove' n hlt] at hset
    exact Bool.false_ne_true hset
  · rw [habove _ hlt] at hset'
    exact Bool.false_ne_true hset'

/-- Dropping a leading zero and shifting in a one. -/
theorem countLeadingZeros_shift {w x y : Nat} (hy : ∀ i < w, y.testBit (i + 1) = x.testBit i)
    (hone : y.testBit 0 = true) : countLeadingZeros (w + 1) y = countLeadingZeros w x := by
  induction w with
  | zero => exact if_pos hone
  | succ w ih =>
      rw [countLeadingZeros, hy w (Nat.lt_succ_self w),
        ih fun i hi => hy i (Nat.lt_succ_of_lt hi), countLeadingZeros]

theorem sub_countLeadingZeros {w x : Nat} (hx : x < 2 ^ w) :
    w - countLeadingZeros w x = Nat.size x := by
  induction w with
  | zero =>
      obtain rfl : x = 0 := by omega
      rfl
  | succ w ih =>
      rw [countLeadingZeros]
      by_cases hbit : x.testBit w = true
      · rw [if_pos hbit]
        have hge : 2 ^ w ≤ x := (testBit_top hx).mp hbit
        exact le_antisymm (Nat.lt_size.mpr hge) (Nat.size_le.mpr hx)
      · rw [if_neg hbit]
        have hlt : x < 2 ^ w := Nat.not_le.mp fun hge => hbit ((testBit_top hx).mpr hge)
        rw [← ih hlt]
        have hle := countLeadingZeros_le w x
        omega

end BitString
