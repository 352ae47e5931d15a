import Mathlib.Algebra.Group.Nat.Defs
import Mathlib.Data.Nat.Basic

/-!
# Fields of a word

A word is composed of fields by shifts and unions, or by concatenation, the first
field highest, and taken apart by shifts and masks, or by slices.

Main results:

* `shiftLeft_or_setWidth` — a shift and a union append a field.
* `setWidth_and_mask`, `setWidth_shiftRight` — a mask and a shift take a slice.
* `extractLsb'_extractLsb'`, `extractLsb'_append_straddle` — slices of slices and
  across two fields.
* `extractLsb'_shiftLeft_self`, `extractLsb'_shiftLeft_disjoint` — the slices of a
  field that is shifted in place.
* `extract_union` — the same for fields by their size and offset.
-/

namespace BitFields

variable {w : Nat}

/-- Shifting a field in. -/
theorem shiftLeft_or_setWidth {n m k : Nat} (s : BitVec n) (x : BitVec m) :
    s.setWidth k <<< m ||| x.setWidth k = (s ++ x).setWidth k := by
  ext i hi
  simp only [BitVec.getElem_or, BitVec.getElem_shiftLeft, BitVec.getElem_setWidth,
    BitVec.getLsbD_append]
  by_cases him : i < m
  · simp [him]
  · have hx : x.getLsbD i = false := BitVec.getLsbD_of_ge x i (Nat.le_of_not_lt him)
    simp [him, hx]

/-- The low bits of a value. -/
theorem setWidth_and_mask {m k l : Nat} (x : BitVec w) (h : l ≤ m) :
    (x.setWidth m &&& BitVec.ofNat m (2 ^ l - 1)).setWidth k = (x.extractLsb' 0 l).setWidth k := by
  ext i hi
  simp only [BitVec.getElem_setWidth, BitVec.getLsbD_and, BitVec.getLsbD_setWidth,
    BitVec.getLsbD_ofNat, BitVec.getLsbD_extractLsb', Nat.testBit_two_pow_sub_one, Nat.zero_add]
  by_cases hil : i < l
  · have him : i < m := Nat.lt_of_lt_of_le hil h
    simp [hil, him]
  · simp [hil]

/-- The high bits of a value. -/
theorem setWidth_shiftRight {m k l s : Nat} (x : BitVec w) (h : w ≤ s + l) (hle : w ≤ m) :
    (x.setWidth m >>> s).setWidth k = (x.extractLsb' s l).setWidth k := by
  ext i hi
  simp only [BitVec.getElem_setWidth, BitVec.getLsbD_ushiftRight, BitVec.getLsbD_setWidth,
    BitVec.getLsbD_extractLsb']
  by_cases his : s + i < w
  · have hm : s + i < m := Nat.lt_of_lt_of_le his hle
    have hl : i < l := by omega
    simp [hm, hl]
  · simp [BitVec.getLsbD_of_ge x (s + i) (Nat.le_of_not_lt his)]

/-- A shift and a mask read a slice. -/
theorem toNat_shiftRight_and_mask {s l : Nat} (x : BitVec w) (h : l ≤ w) :
    (x >>> s &&& BitVec.ofNat w (2 ^ l - 1)).toNat = (x.extractLsb' s l).toNat := by
  have hlt : 2 ^ l - 1 < 2 ^ w :=
    Nat.lt_of_lt_of_le (Nat.sub_lt (Nat.two_pow_pos l) Nat.one_pos)
      (Nat.pow_le_pow_right Nat.two_pos h)
  rw [BitVec.toNat_and, BitVec.toNat_ushiftRight, BitVec.toNat_ofNat, Nat.mod_eq_of_lt hlt,
    Nat.and_two_pow_sub_one_eq_mod, BitVec.extractLsb'_toNat]

theorem setWidth_shiftRight_eq (x : BitVec w) (s l : Nat) :
    (x >>> s).setWidth l = x.extractLsb' s l := by
  ext i hi
  simp

theorem extractLsb'_extractLsb' {s l s' l' : Nat} (x : BitVec w) (h : s' + l' ≤ l) :
    (x.extractLsb' s l).extractLsb' s' l' = x.extractLsb' (s + s') l' := by
  ext i hi
  have hil : s' + i < l := by omega
  simp only [BitVec.getElem_extractLsb', BitVec.getLsbD_extractLsb']
  rw [decide_eq_true hil, Bool.true_and, Nat.add_assoc]

/-- A slice across two fields. -/
theorem extractLsb'_append_straddle {v s n m : Nat} (x : BitVec v) (y : BitVec w) (h : s + m = w) :
    (x ++ y).extractLsb' s (n + m) = x.extractLsb' 0 n ++ y.extractLsb' s m := by
  ext i hi
  simp only [BitVec.getElem_extractLsb', BitVec.getLsbD_append, BitVec.getElem_append]
  by_cases him : i < m
  · rw [if_pos (by omega), dif_pos him]
  · have hsub : s + i - w = 0 + (i - m) := by omega
    rw [if_neg (by omega), dif_neg him, hsub]

/-- The slice of a field that is shifted in place. -/
theorem extractLsb'_shiftLeft_self {n s : Nat} (x : BitVec n) (h : s + n ≤ w) :
    (x.setWidth w <<< s).extractLsb' s n = x := by
  ext i hi
  have hlt : s + i < w := by omega
  have hge : ¬ s + i < s := by omega
  have hiw : i < w := by omega
  simp only [BitVec.getElem_extractLsb', BitVec.getLsbD_shiftLeft, BitVec.getLsbD_setWidth, hlt,
    hge, decide_true, decide_false, Bool.not_false, Bool.true_and, Nat.add_sub_cancel_left, hiw]
  exact BitVec.getLsbD_eq_getElem hi

/-- A slice beside a field that is shifted in place. -/
theorem extractLsb'_shiftLeft_disjoint {n s t l : Nat} (x : BitVec n) (h : t + l ≤ s ∨ s + n ≤ t) :
    (x.setWidth w <<< s).extractLsb' t l = 0 := by
  ext i hi
  simp only [BitVec.getElem_extractLsb', BitVec.getLsbD_shiftLeft, BitVec.getLsbD_setWidth]
  rcases h with h | h
  · have hlt : t + i < s := by omega
    simp [hlt]
  · have hoff : x.getLsbD (t + i - s) = false := BitVec.getLsbD_of_ge x _ (by omega)
    simp [hoff]

/-- A field left out shows where it, or one above, is not 0. -/
theorem append_append_eq_iff {n m k : Nat} (hm : 0 < m) (x : BitVec n) (r : BitVec m)
    (e : BitVec k) : x ++ r ++ e = (x ++ e).setWidth (n + m + k) ↔ x = 0 ∧ r = 0 := by
  constructor
  · intro h
    -- a bit of `x ++ r` is that of `x` at the same place
    have hbit {j : Nat} (hj : j < n + m) :
        (if j < m then r.getLsbD j else x.getLsbD (j - m)) = x.getLsbD j := by
      have hat := congrArg (fun z => z.getLsbD (k + j)) h
      have hk : ¬ k + j < k := by omega
      have hlt : k + j < n + m + k := by omega
      simp only [BitVec.getLsbD_append, BitVec.getLsbD_setWidth, hk, hlt, if_false, decide_true,
        Bool.true_and, Nat.add_sub_cancel_left] at hat
      exact hat
    have hzero (c : Nat) : ∀ j, n ≤ j + c → x.getLsbD j = false := by
      induction c with
      | zero => exact fun j hj => BitVec.getLsbD_of_ge x j hj
      | succ c ih =>
        intro j hj
        rcases Nat.lt_or_ge j n with hlt | hge
        · rw [← Nat.add_sub_cancel j m]
          have hnext := hbit (show j + m < n + m by omega)
          rw [if_neg (by omega)] at hnext
          rw [hnext]
          exact ih (j + m) (by omega)
        · exact BitVec.getLsbD_of_ge x j hge
    have hx : x = 0 := BitVec.eq_of_getLsbD_eq fun j _ => by
      rw [hzero n j (Nat.le_add_left n j)]
      simp
    refine ⟨hx, BitVec.eq_of_getLsbD_eq fun j hj => ?_⟩
    have hlow := hbit (show j < n + m by omega)
    rw [if_pos hj, hx] at hlow
    rw [hlow]
    simp
  · rintro ⟨rfl, rfl⟩
    refine BitVec.eq_of_getLsbD_eq fun i hi => ?_
    simp only [BitVec.getLsbD_append, BitVec.getLsbD_setWidth]
    by_cases h : i < k
    · simp [h, hi]
    · simp [h]

/-- A word is 0 where its fields are. -/
theorem append_eq_zero_iff {n m : Nat} (x : BitVec n) (y : BitVec m) :
    x ++ y = 0 ↔ x = 0 ∧ y = 0 := by
  constructor
  · intro h
    have hx : (x ++ y).extractLsb' m n = x := BitVec.extractLsb'_append_eq_left
    have hy : (x ++ y).extractLsb' 0 m = y := BitVec.extractLsb'_append_eq_right
    rw [h] at hx hy
    exact ⟨hx.symm.trans BitVec.extractLsb'_zero, hy.symm.trans BitVec.extractLsb'_zero⟩
  · rintro ⟨rfl, rfl⟩
    exact BitVec.zero_append_zero

/-! ## Fields by their size and offset -/

/-- A field of a number. -/
structure Field where
  size : Nat
  offset : Nat

namespace Field

/-- The values of a field. -/
def mask (f : Field) : Nat := 2 ^ f.size - 1

/-- A value in its field. -/
def insert (f : Field) (v : Nat) : Nat := (v &&& f.mask) <<< f.offset

/-- The value of a field. -/
def extract (f : Field) (x : Nat) : Nat := x >>> f.offset &&& f.mask

variable {f g : Field}

theorem extract_eq (f : Field) (x : Nat) : f.extract x = x / 2 ^ f.offset % 2 ^ f.size := by
  rw [extract, mask, Nat.and_two_pow_sub_one_eq_mod, Nat.shiftRight_eq_div_pow]

theorem testBit_insert (f : Field) (v i : Nat) :
    (f.insert v).testBit i = (decide (f.offset ≤ i ∧ i < f.offset + f.size)
      && v.testBit (i - f.offset)) := by
  rw [insert, mask, Nat.testBit_shiftLeft, Nat.testBit_and, Nat.testBit_two_pow_sub_one]
  by_cases hle : f.offset ≤ i
  · have hiff : i - f.offset < f.size ↔ f.offset ≤ i ∧ i < f.offset + f.size := by omega
    simp only [ge_iff_le, hle, decide_true, Bool.true_and, hiff, Bool.and_comm]
  · simp [hle]

theorem extract_or (f : Field) (x y : Nat) : f.extract (x ||| y) = f.extract x ||| f.extract y := by
  rw [extract, Nat.shiftRight_or_distrib, Nat.and_or_distrib_right]
  rfl

theorem extract_insert_self {v : Nat} (h : v < 2 ^ f.size) : f.extract (f.insert v) = v := by
  rw [extract, insert, Nat.shiftLeft_shiftRight, Nat.and_assoc, Nat.and_self, mask,
    Nat.and_two_pow_sub_one_eq_mod, Nat.mod_eq_of_lt h]

/-- A field beside it is not seen. -/
theorem extract_insert_of_apart (h : g.offset + g.size ≤ f.offset ∨ f.offset + f.size ≤ g.offset)
    (v : Nat) : f.extract (g.insert v) = 0 := by
  apply Nat.eq_of_testBit_eq
  intro i
  rw [extract, mask, Nat.testBit_and, Nat.testBit_two_pow_sub_one, Nat.testBit_shiftRight,
    testBit_insert, Nat.zero_testBit]
  by_cases hi : i < f.size
  · have hout : ¬ (g.offset ≤ f.offset + i ∧ f.offset + i < g.offset + g.size) := by omega
    simp only [hout, decide_false, Bool.false_and]
  · simp only [hi, decide_false, Bool.and_false]

theorem insert_lt {n : Nat} (h : f.offset + f.size ≤ n) (v : Nat) : f.insert v < 2 ^ n := by
  apply Nat.lt_pow_two_of_testBit
  intro i hi
  have hout : ¬ (f.offset ≤ i ∧ i < f.offset + f.size) := by omega
  simp only [testBit_insert, hout, decide_false, Bool.false_and]

end Field

/-- The word of fields with their values. -/
def union : List (Field × Nat) → Nat
  | [] => 0
  | (f, v) :: fs => f.insert v ||| union fs

/-- The field is beside the others. -/
def apart (f : Field) (fs : List (Field × Nat)) : Bool :=
  fs.all fun e => e.1.offset + e.1.size ≤ f.offset || f.offset + f.size ≤ e.1.offset

/-- The fields are in the `n` low bits. -/
def within (n : Nat) (fs : List (Field × Nat)) : Bool :=
  fs.all fun e => e.1.offset + e.1.size ≤ n

section Union

variable {f : Field}

theorem union_lt {n : Nat} {fs : List (Field × Nat)} (h : within n fs = true) :
    union fs < 2 ^ n := by
  induction fs with
  | nil => exact Nat.two_pow_pos n
  | cons e fs ih =>
      rw [within, List.all_cons, Bool.and_eq_true, decide_eq_true_eq] at h
      exact Nat.or_lt_two_pow (Field.insert_lt h.1 e.2) (ih h.2)

theorem extract_insert_or_of_apart {e : Field × Nat} {fs : List (Field × Nat)}
    (h : apart f (e :: fs) = true) (x : Nat) :
    f.extract (e.1.insert e.2 ||| x) = f.extract x ∧ apart f fs = true := by
  rw [apart, List.all_cons, Bool.and_eq_true, Bool.or_eq_true, decide_eq_true_eq,
    decide_eq_true_eq] at h
  rw [Field.extract_or, Field.extract_insert_of_apart h.1, Nat.zero_or]
  exact ⟨rfl, h.2⟩

theorem extract_union_of_apart {fs : List (Field × Nat)} (h : apart f fs = true) :
    f.extract (union fs) = 0 := by
  induction fs with
  | nil => rw [union, Field.extract, Nat.zero_shiftRight, Nat.zero_and]
  | cons e fs ih =>
      obtain ⟨hskip, hrest⟩ := extract_insert_or_of_apart h (union fs)
      rw [union, hskip, ih hrest]

/-- **A field** of a word is read back when the others are beside it. -/
theorem extract_union {v : Nat} (fs gs : List (Field × Nat)) (hv : v < 2 ^ f.size)
    (hfs : apart f fs = true) (hgs : apart f gs = true) :
    f.extract (union (fs ++ (f, v) :: gs)) = v := by
  induction fs with
  | nil =>
      rw [List.nil_append, union, Field.extract_or, Field.extract_insert_self hv,
        extract_union_of_apart hgs, Nat.or_zero]
  | cons e fs ih =>
      obtain ⟨hskip, hrest⟩ := extract_insert_or_of_apart hfs (union (fs ++ (f, v) :: gs))
      rw [List.cons_append, union, hskip, ih hrest]

end Union

end BitFields
