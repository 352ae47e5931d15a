import Mathlib.Data.List.GetD
import Mathlib.Data.List.OfFn

/-!
# Cyclic redundancy checks

The register of a CRC as a shift register with feedback, for any width and any
polynomial. A step is additive in the register and the bit, so two messages are
told apart by running their difference from the zero register.

Main results:

* `run_xor` — the run over a difference is the difference of the runs.
* `run_eq_zero_iff` — what brings a register to zero in at most `w` bits.
* `run_ne_of_burst`, `run_ne_of_twoFlips` — errors that change the register.
* `run_complement_iff` — the residue after a complemented register was received.
* `eq_run_of_additive` — a parallel implementation is checked on unit vectors.
-/

namespace Crc

variable {w m n : Nat} (poly : BitVec w)

/-- The feedback. -/
def tap (c : Bool) : BitVec w := if c then poly else 0#w

/-- A bit is shifted into the register. -/
def step (s : BitVec w) (b : Bool) : BitVec w := s <<< 1 ^^^ tap poly (s.msb ^^ b)

/-- The register after the bits. -/
def run (s : BitVec w) (bs : List Bool) : BitVec w := bs.foldl (step poly) s

variable {poly} {s t : BitVec w} {a b : Bool} {as bs : List Bool}

@[simp] theorem tap_false : tap poly false = 0#w := rfl

@[simp] theorem tap_true : tap poly true = poly := rfl

theorem tap_xor (a b : Bool) : tap poly (a ^^ b) = tap poly a ^^^ tap poly b := by
  cases a <;> cases b <;> simp

@[simp] theorem run_nil : run poly s [] = s := rfl

@[simp] theorem run_cons : run poly s (b :: bs) = run poly (step poly s b) bs := rfl

theorem run_append : run poly s (as ++ bs) = run poly (run poly s as) bs := by
  simp [run]

/-! ## Differences -/

theorem step_xor : step poly (s ^^^ t) (a ^^ b) = step poly s a ^^^ step poly t b := by
  have htap : ((s ^^^ t).msb ^^ (a ^^ b)) = ((s.msb ^^ a) ^^ (t.msb ^^ b)) := by
    rw [BitVec.msb_xor]
    cases s.msb <;> cases t.msb <;> cases a <;> cases b <;> rfl
  unfold step
  rw [htap, tap_xor, BitVec.shiftLeft_xor_distrib]
  ac_rfl

theorem run_xor (h : as.length = bs.length) :
    run poly (s ^^^ t) (List.zipWith xor as bs) = run poly s as ^^^ run poly t bs := by
  induction as generalizing bs s t with
  | nil =>
    rw [List.length_nil] at h
    simp [List.eq_nil_of_length_eq_zero h.symm]
  | cons a as ih =>
    cases bs with
    | nil => simp at h
    | cons b bs =>
      rw [List.length_cons, List.length_cons, Nat.succ.injEq] at h
      rw [List.zipWith_cons_cons, run_cons, run_cons, run_cons, ← ih h, step_xor]

/-- Two runs from one register. -/
theorem run_eq_run_iff (h : as.length = bs.length) :
    run poly s as = run poly s bs ↔ run poly 0#w (List.zipWith xor as bs) = 0#w := by
  have hself : s ^^^ s = 0#w := BitVec.xor_self
  rw [← hself, run_xor h, hself]
  exact BitVec.xor_eq_zero_iff.symm

theorem zipWith_xor_eq_false (h : as.length = bs.length)
    (hdiff : ∀ i, (List.zipWith xor as bs).getD i false = false) : as = bs := by
  apply List.ext_getElem h
  intro i hi hi'
  have hbit := hdiff i
  rw [List.getD_eq_getElem _ _ (by rw [List.length_zipWith]; omega), List.getElem_zipWith] at hbit
  simpa using hbit

@[simp] theorem step_zero_false : step poly 0#w false = 0#w := by
  simp [step]

@[simp] theorem step_zero_true : step poly 0#w true = poly := by
  simp [step]

@[simp] theorem run_zero_replicate (k : Nat) : run poly 0#w (List.replicate k false) = 0#w := by
  induction k with
  | zero => rfl
  | succ k ih => rw [List.replicate_succ, run_cons, step_zero_false, ih]

/-! ## Coming to zero -/

/-- The bits of a vector from the most significant one on. -/
def bitsBE (s : BitVec w) : List Bool := List.ofFn fun i : Fin w => s.getMsbD i

/-- The bits of a vector from the least significant one on. -/
def bitsLE (d : BitVec m) : List Bool := List.ofFn fun i : Fin m => d.getLsbD i

@[simp] theorem length_bitsBE : (bitsBE s).length = w := List.length_ofFn

@[simp] theorem length_bitsLE (d : BitVec m) : (bitsLE d).length = m := List.length_ofFn

@[simp] theorem getElem_bitsBE {i : Nat} (hi : i < (bitsBE s).length) :
    (bitsBE s)[i] = s.getMsbD i := List.getElem_ofFn _

@[simp] theorem getElem_bitsLE (d : BitVec m) {i : Nat} (hi : i < (bitsLE d).length) :
    (bitsLE d)[i] = d.getLsbD i := List.getElem_ofFn _

theorem bitsLE_injective {d e : BitVec m} (h : bitsLE d = bitsLE e) : d = e := by
  apply BitVec.eq_of_getLsbD_eq
  intro i hi
  exact congrFun (List.ofFn_injective h) ⟨i, hi⟩

theorem pos_of_getLsbD (hpoly : poly.getLsbD 0 = true) : 0 < w := by
  cases w with
  | zero => simp at hpoly
  | succ w => exact Nat.succ_pos w

theorem getLsbD_step (hpoly : poly.getLsbD 0 = true) :
    (step poly s b).getLsbD 0 = (s.msb ^^ b) := by
  unfold step
  cases s.msb ^^ b <;> simp [hpoly]

theorem getMsbD_step (hb : s.msb = b) (i : Nat) :
    (step poly s b).getMsbD i = s.getMsbD (i + 1) := by
  simp [step, hb]

/-- A register comes to zero in at most `w` bits exactly when these are its leading bits and all
others are clear. -/
theorem run_eq_zero_iff (hpoly : poly.getLsbD 0 = true) (hlen : bs.length ≤ w) :
    run poly s bs = 0#w ↔ ∀ i < w, s.getMsbD i = bs.getD i false := by
  induction bs generalizing s with
  | nil =>
    rw [run_nil]
    constructor
    · rintro rfl i -
      simp
    · intro h
      apply BitVec.eq_of_getMsbD_eq
      intro i hi
      simp [h i hi]
  | cons b bs ih =>
    rw [List.length_cons] at hlen
    have hw : 0 < w := by omega
    have hpast : bs.getD (w - 1) false = false := by
      rw [List.getD_eq_default]
      omega
    rw [run_cons, ih (by omega)]
    constructor
    · intro h
      have hlow : (s.msb ^^ b) = false := by
        have hbit := h (w - 1) (by omega)
        rw [hpast, BitVec.getMsbD_eq_getLsbD, Nat.sub_self, getLsbD_step hpoly] at hbit
        simpa [show w - 1 < w by omega] using hbit
      have hb : s.msb = b := by simpa using hlow
      intro i hi
      cases i with
      | zero => simpa [BitVec.msb_eq_getMsbD_zero] using hb
      | succ i => simpa [getMsbD_step hb i] using h i (by omega)
    · intro h
      have hb : s.msb = b := by simpa [BitVec.msb_eq_getMsbD_zero] using h 0 hw
      intro i hi
      rw [getMsbD_step hb i]
      by_cases hlast : i + 1 < w
      · simpa using h (i + 1) hlast
      · have hi' : i = w - 1 := by omega
        subst hi'
        rw [hpast, BitVec.getMsbD_of_ge]
        omega

theorem run_zero_eq_zero (hpoly : poly.getLsbD 0 = true) (hlen : bs.length ≤ w)
    (h : run poly 0#w bs = 0#w) : ∀ i, bs.getD i false = false := by
  intro i
  by_cases hi : i < w
  · simpa using ((run_eq_zero_iff hpoly hlen).mp h i hi).symm
  · rw [List.getD_eq_default]
    omega

theorem step_eq_zero (hpoly : poly.getLsbD 0 = true) (hw : 0 < w) (h : step poly s b = 0#w) :
    ∀ i < w, s.getMsbD i = [b].getD i false := by
  have hrun : run poly s [b] = 0#w := h
  have hlen : [b].length ≤ w := hw
  exact (run_eq_zero_iff hpoly hlen).mp hrun

theorem run_injective (hpoly : poly.getLsbD 0 = true) (h : run poly s bs = run poly t bs) :
    s = t := by
  have hw := pos_of_getLsbD hpoly
  induction bs generalizing s t with
  | nil => exact h
  | cons b bs ih =>
    have hstep := ih h
    have hzero : step poly (s ^^^ t) false = 0#w := by
      rw [← Bool.xor_self b, step_xor, hstep]
      exact BitVec.xor_self
    apply BitVec.xor_eq_zero_iff.mp
    apply BitVec.eq_of_getMsbD_eq
    intro i hi
    rw [step_eq_zero hpoly hw hzero i hi]
    cases i <;> simp

/-! ## Errors -/

/-- `as` and `bs` differ, and only within `k` bits that follow each other. -/
def Burst (k : Nat) (as bs : List Bool) : Prop :=
  ∃ pre a b post, as = pre ++ a ++ post ∧ bs = pre ++ b ++ post ∧
    a.length = b.length ∧ a.length ≤ k ∧ a ≠ b

/-- `as` and `bs` differ in two bits with fewer than `k` bits between them. -/
def TwoFlips (k : Nat) (as bs : List Bool) : Prop :=
  ∃ pre x mid y post, as = pre ++ x :: (mid ++ y :: post) ∧
    bs = pre ++ (!x) :: (mid ++ (!y) :: post) ∧ mid.length < k

/-- Whether the register `s` stays off the top bit alone for `k` zero bits. -/
def apart (poly : BitVec w) : Nat → BitVec w → Bool
  | 0, _ => true
  | k + 1, s => s != BitVec.twoPow w (w - 1) && apart poly k (step poly s false)

/-- A burst no longer than the register changes it. -/
theorem run_ne_of_burst (hpoly : poly.getLsbD 0 = true) (h : Burst w as bs) :
    run poly s as ≠ run poly s bs := by
  obtain ⟨pre, a, b, post, rfl, rfl, hlen, hle, hne⟩ := h
  intro heq
  rw [run_append, run_append, run_append, run_append] at heq
  have hmid := run_injective hpoly heq
  rw [run_eq_run_iff hlen] at hmid
  apply hne
  apply zipWith_xor_eq_false hlen
  exact run_zero_eq_zero hpoly (by rw [List.length_zipWith]; omega) hmid

theorem apart_run {k : Nat} (h : apart poly k s = true) {i : Nat} (hi : i < k) :
    run poly s (List.replicate i false) ≠ BitVec.twoPow w (w - 1) := by
  induction k generalizing s i with
  | zero => omega
  | succ k ih =>
    rw [apart, Bool.and_eq_true, bne_iff_ne] at h
    cases i with
    | zero => exact h.1
    | succ i => exact ih h.2 (by omega)

theorem zipWith_xor_self (l : List Bool) :
    List.zipWith xor l l = List.replicate l.length false := by
  induction l with
  | nil => rfl
  | cons a l ih =>
    rw [List.zipWith_cons_cons, ih, Bool.xor_self]
    rfl

/-- Two flipped bits change the register as long as their distance is below the order. -/
theorem run_ne_of_twoFlips (hpoly : poly.getLsbD 0 = true) {k : Nat}
    (hk : apart poly k poly = true) (h : TwoFlips k as bs) : run poly s as ≠ run poly s bs := by
  obtain ⟨pre, x, mid, y, post, rfl, rfl, hmid⟩ := h
  have hw := pos_of_getLsbD hpoly
  intro heq
  rw [run_append, run_append] at heq
  rw [run_eq_run_iff (by simp)] at heq
  have hflip (c : Bool) : (c ^^ !c) = true := by cases c <;> rfl
  rw [List.zipWith_cons_cons, List.zipWith_append rfl, List.zipWith_cons_cons, hflip, hflip,
    zipWith_xor_self, zipWith_xor_self, run_cons, step_zero_true, run_append, run_cons] at heq
  have hzero : step poly (run poly poly (List.replicate mid.length false)) true = 0#w := by
    rw [← run_zero_replicate post.length] at heq
    exact run_injective hpoly heq
  apply apart_run hk hmid
  apply BitVec.eq_of_getMsbD_eq
  intro i hi
  rw [step_eq_zero hpoly hw hzero i hi, BitVec.getMsbD_twoPow]
  cases i with
  | zero => simp; omega
  | succ i => simp; omega

/-! ## The residue -/

theorem getD_bitsBE (s : BitVec w) {i : Nat} (hi : i < w) :
    (bitsBE s).getD i false = s.getMsbD i := by
  rw [List.getD_eq_getElem _ _ (by rw [length_bitsBE]; exact hi), getElem_bitsBE]

/-- The register comes to zero on its own bits. -/
theorem run_bitsBE (hpoly : poly.getLsbD 0 = true) : run poly s (bitsBE s) = 0#w := by
  rw [run_eq_zero_iff hpoly (Nat.le_of_eq length_bitsBE)]
  intro i hi
  rw [getD_bitsBE s hi]

theorem zipWith_xor_true (l : List Bool) :
    List.zipWith xor l (List.replicate l.length true) = l.map not := by
  induction l with
  | nil => rfl
  | cons a l ih => simp [List.replicate_succ, ih]

/-- After `w` more bits the register is the residue exactly when these were the complement of the
register. -/
theorem run_complement_iff (hpoly : poly.getLsbD 0 = true) (hlen : bs.length = w) :
    run poly s bs = run poly 0#w (List.replicate w true) ↔ bs = (bitsBE s).map not := by
  have hresidue : run poly s ((bitsBE s).map not) = run poly 0#w (List.replicate w true) := by
    have hxor : run poly (s ^^^ 0#w) (List.zipWith xor (bitsBE s) (List.replicate w true)) =
        run poly s (bitsBE s) ^^^ run poly 0#w (List.replicate w true) := run_xor (by simp)
    rw [run_bitsBE hpoly, BitVec.zero_xor, BitVec.xor_zero] at hxor
    rw [← hxor]
    congr 1
    have hnot := zipWith_xor_true (bitsBE s)
    rw [length_bitsBE] at hnot
    exact hnot.symm
  constructor
  · intro h
    rw [← hresidue, run_eq_run_iff (by simp [hlen])] at h
    apply zipWith_xor_eq_false (by simp [hlen])
    exact run_zero_eq_zero hpoly (by simp [hlen]) h
  · rintro rfl
    exact hresidue

/-! ## Parallel implementations -/

theorem bitsLE_xor (d e : BitVec m) :
    bitsLE (d ^^^ e) = List.zipWith xor (bitsLE d) (bitsLE e) := by
  apply List.ext_getElem
  · simp
  · intro i hi hi'
    simp

/-- The bits of two words, the low one first. -/
theorem bitsLE_append (hi : BitVec m) (lo : BitVec n) :
    bitsLE (hi ++ lo) = bitsLE lo ++ bitsLE hi := by
  apply List.ext_getElem
  · simp [Nat.add_comm]
  · intro i hi hi'
    simp only [getElem_bitsLE, List.getElem_append, BitVec.getLsbD_append, length_bitsLE]
    split <;> simp

/-- An additive function on bit vectors. -/
def Additive (f : BitVec m → BitVec n) : Prop := ∀ x y, f (x ^^^ y) = f x ^^^ f y

theorem Additive.map_zero {f : BitVec m → BitVec n} (hf : Additive f) : f 0#m = 0#n := by
  have h := hf 0#m 0#m
  rwa [BitVec.xor_self, BitVec.xor_self] at h

/-- Additive functions that agree on the unit vectors agree. -/
theorem Additive.ext {f g : BitVec m → BitVec n} (hf : Additive f) (hg : Additive g)
    (h : ∀ i < m, f (BitVec.twoPow m i) = g (BitVec.twoPow m i)) (x : BitVec m) : f x = g x := by
  -- the bits of `x` are cleared one by one, from the top
  have hlow : ∀ k ≤ m, ∀ x : BitVec m, (∀ i, k ≤ i → x.getLsbD i = false) → f x = g x := by
    intro k
    induction k with
    | zero =>
      intro _ x hx
      have hzero : x = 0#m := by
        apply BitVec.eq_of_getLsbD_eq
        intro i _
        simp [hx i]
      rw [hzero, hf.map_zero, hg.map_zero]
    | succ k ih =>
      intro hk x hx
      by_cases hbit : x.getLsbD k = true
      · have hclear : f (x ^^^ BitVec.twoPow m k) = g (x ^^^ BitVec.twoPow m k) := by
          apply ih (by omega)
          intro i hi
          rw [BitVec.getLsbD_xor, BitVec.getLsbD_twoPow]
          by_cases hik : i = k
          · subst hik
            simp [hbit]
            omega
          · simp [hx i (by omega), Ne.symm hik]
        rw [hf, hg, h k hk] at hclear
        exact (BitVec.xor_left_inj _).mp hclear
      · apply ih (by omega)
        intro i hi
        rcases Nat.eq_or_lt_of_le hi with rfl | hlt
        · simpa using hbit
        · exact hx i hlt
  exact hlow m (Nat.le_refl m) x fun i hi => BitVec.getLsbD_of_ge x i hi

/-- A parallel implementation that is additive in the register and the word takes the first `k`
bits of the word one by one, if it does so on the unit vectors. -/
theorem eq_run_of_additive (k : Nat) {next : BitVec w → BitVec m → BitVec w}
    (hxor : ∀ s t d e, next (s ^^^ t) (d ^^^ e) = next s d ^^^ next t e)
    (hreg : ∀ i < w, next (BitVec.twoPow w i) 0#m =
      run poly (BitVec.twoPow w i) ((bitsLE 0#m).take k))
    (hword : ∀ i < m, next 0#w (BitVec.twoPow m i) =
      run poly 0#w ((bitsLE (BitVec.twoPow m i)).take k))
    (s : BitVec w) (d : BitVec m) : next s d = run poly s ((bitsLE d).take k) := by
  have hrun (s t : BitVec w) (d e : BitVec m) : run poly (s ^^^ t) ((bitsLE (d ^^^ e)).take k) =
      run poly s ((bitsLE d).take k) ^^^ run poly t ((bitsLE e).take k) := by
    rw [bitsLE_xor, List.take_zipWith, run_xor (by simp)]
  have hs : next s 0#m = run poly s ((bitsLE 0#m).take k) := by
    apply Additive.ext (f := fun s => next s 0#m)
      (g := fun s => run poly s ((bitsLE 0#m).take k)) _ _ hreg
    · intro s t
      simpa using hxor s t 0#m 0#m
    · intro s t
      simpa using hrun s t 0#m 0#m
  have hd : next 0#w d = run poly 0#w ((bitsLE d).take k) := by
    apply Additive.ext (f := next 0#w) (g := fun d => run poly 0#w ((bitsLE d).take k)) _ _ hword
    · intro d e
      simpa using hxor 0#w 0#w d e
    · intro d e
      simpa using hrun 0#w 0#w d e
  have hnext := hxor s 0#w 0#m d
  have hserial := hrun s 0#w 0#m d
  rw [BitVec.xor_zero, BitVec.zero_xor] at hnext hserial
  rw [hnext, hserial, hs, hd]

/-- A parallel implementation over the words of a message. -/
theorem foldl_eq_run {next : BitVec w → BitVec m → BitVec w}
    (h : ∀ s d, next s d = run poly s (bitsLE d)) (s : BitVec w) (ds : List (BitVec m)) :
    ds.foldl next s = run poly s (ds.flatMap bitsLE) := by
  induction ds generalizing s with
  | nil => rfl
  | cons d ds ih => rw [List.foldl_cons, ih, h, List.flatMap_cons, run_append]

end Crc
