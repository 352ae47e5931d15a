import ProtoDune.Lib.ArithCoder

/-!
# `AP-Encode.h`: the arithmetic encoder

The encoder takes all expansions of a symbol at once: it counts the leading
bits that `lo` and `hi` share, which are put out, and the ones after them where
`lo` is 1 and `hi` is 0, which become pending.

Main results:

* `scale_eq_narrow` — the 12, 13 and 22 bit arithmetic of `scale` is exact.
* `reduce_of_expands` — the parallel reduction is the run of expansions.
* `encodeSyms_emitAll` — the loop puts out what the expansions put out.
-/

namespace ProtoDune.Firmware

open BitString ArithCoder

/-- `APC_K_NORM_NBITS`. -/
abbrev normNBits : Nat := 10

/-- `APC_K_NBITS`. -/
abbrev cvNBits : Nat := normNBits + 2

/-- `APC_K_Q1`; the half is twice, the third quarter three times it. -/
abbrev quarter : Nat := 2 ^ normNBits

/-- `APC_K_HI`. -/
abbrev cvHi : Nat := 2 ^ cvNBits - 1

/-- `compose`: `nbits` of `bits`, with `npending` complements of the first of
them right after it. -/
def compose (bits nbits npending : Nat) : Nat :=
  let nbuf := npending + nbits
  if npending ≠ 0 then
    let nbits := nbits - 1
    let leadingBit := (bits >>> nbits) % 2
    let buf := leadingBit <<< (nbuf - 1)
    if leadingBit = 0 then
      buf ||| (1 <<< npending - 1) <<< nbits ||| bits
    else
      -- `bits.clear (nbits)`
      buf ||| (bits ^^^ 1 <<< nbits)
  else bits

namespace APECv

/-- `scale_hi`, in the widths of `APE_scaled_t` and `APE_cv_t`. -/
def scaleHi (lo range value : Nat) : Nat :=
  let xlo := ((lo + 2 ^ 22 - 1) % 2 ^ 22) <<< normNBits % 2 ^ 22
  ((range * value + xlo) >>> normNBits) % 2 ^ 12

/-- `scale_lo`. -/
def scaleLo (lo range value : Nat) : Nat :=
  let xlo := lo <<< normNBits % 2 ^ 22
  ((range * value + xlo) >>> normNBits) % 2 ^ 12

/-- `scale`; the range is an `APE_range_t`. -/
def scale (cv : Interval) (lo hi : Nat) : Interval :=
  let range := (cv.hi + 2 ^ 13 - cv.lo + 1) % 2 ^ 13
  ⟨scaleLo cv.lo range lo, scaleHi cv.lo range hi⟩

/-- `reduce_hi`: shift in ones, by way of the reversed value and its sign. -/
def reduceHi (hi nreduce hiMask : Nat) : Nat :=
  let r : BitVec 13 := 1#13 <<< 12 ||| (BitVec.ofNat 12 hi).reverse.setWidth 13
  ((r.sshiftRight nreduce).setWidth 12).reverse.toNat ||| hiMask

/-- `reduce_lo`. -/
def reduceLo (lo nreduce : Nat) : Nat := lo <<< nreduce % 2 ^ 12 &&& 0x7ff

end APECv

/-! ## The reduction of `APE_encode` -/

/-- `diff`. -/
def diff (cv : Interval) : Nat := cv.lo ^^^ cv.hi

/-- `nsame`: the leading bits `lo` and `hi` share. -/
def nsame (cv : Interval) : Nat := countLeadingZeros 12 (diff cv)

/-- `~` of an `APE_cv_t`. -/
def compl (x : Nat) : Nat := x ^^^ 0xfff

/-- `hi_mask`. -/
def hiMask (cv : Interval) : Nat :=
  ((cv.lo &&& compl cv.hi) <<< nsame cv % 2 ^ 12) <<< 1 % 2 ^ 12 &&& 0x800

/-- `pending`. -/
def pending (cv : Interval) : Nat :=
  ((compl cv.lo ||| cv.hi) <<< 1 % 2 ^ 12 ||| 1) &&& diff cv

/-- `nreduce`: the bits to drop. -/
def nreduce (cv : Interval) : Nat := countLeadingZeros 12 (pending cv)

/-- `mpending`: the newly pending bits. -/
def mpending (cv : Interval) : Nat := (nreduce cv + 2 ^ 4 - nsame cv) % 2 ^ 4

/-- `reduce_lo` and `reduce_hi`. -/
def reduce (cv : Interval) : Interval :=
  ⟨APECv.reduceLo cv.lo (nreduce cv), APECv.reduceHi cv.hi (nreduce cv) (hiMask cv)⟩

/-- The code limits and the count of pending bits, of `APE_etx`. -/
structure Etx where
  cv : Interval
  tofollow : Nat
deriving DecidableEq

/-- `APE_start`. -/
def apeStart : Etx := ⟨⟨0, cvHi⟩, 0⟩

/-- One pass of the loop of `APE_encode`: the context after symbol `idx`, and
the `ebits` and `nebits` that go into the stream, when some do. -/
def encodeSym (table : Nat → Nat) (etx : Etx) (idx : Nat) : Etx × Option (Nat × Nat) :=
  let cv := APECv.scale etx.cv (table idx) (table (idx + 1))
  if nsame cv ≠ 0 then
    let bits := cv.lo >>> (12 - nsame cv)
    (⟨reduce cv, mpending cv⟩,
      some (compose bits (nsame cv) etx.tofollow, nsame cv + etx.tofollow))
  else (⟨reduce cv, etx.tofollow + mpending cv⟩, none)

/-- The bits of an insertion. -/
def insertion : Option (Nat × Nat) → List Bool
  | none => []
  | some (ebits, nebits) => toBits nebits ebits

/-- The loop of `APE_encode`, into an unbounded bit string. -/
def encodeSyms (table : Nat → Nat) (etx : Etx) : List Nat → Etx × List Bool
  | [] => (etx, [])
  | idx :: idxs =>
      let (etx', e) := encodeSym table etx idx
      let (etx'', bits) := encodeSyms table etx' idxs
      (etx'', insertion e ++ bits)

/-- `APE_finish`: the last `buf` and its bits. -/
def apeFinish (etx : Etx) : Nat × Nat :=
  let tofollow := etx.tofollow + 1
  let bit := (etx.cv.lo >>> (cvNBits - 2)) % 2
  (compose bit 1 tofollow, 1 + tofollow)

/-- The whole bit string of a sequence of symbol indices. -/
def apeEncode (table : Nat → Nat) (idxs : List Nat) : List Bool :=
  let (etx, bits) := encodeSyms table apeStart idxs
  bits ++ insertion (some (apeFinish etx))

/-! ## `compose` and `scale` -/

/-- The composed bits: the first, its complements, the others. -/
theorem toBits_compose {bits n : Nat} (hbits : bits < 2 ^ (n + 1)) (npending : Nat) :
    toBits (n + 1 + npending) (compose bits (n + 1) npending) =
      bits.testBit n :: List.replicate npending (!bits.testBit n) ++ toBits n bits := by
  unfold compose
  dsimp only
  by_cases hzero : npending = 0
  · subst hzero
    rfl
  have hsum : n + 1 + npending = npending + 1 + n := by omega
  have hbuf : npending + (n + 1) - 1 = npending + n := rfl
  have hlead := Nat.toNat_testBit bits n
  rw [if_pos hzero, Nat.add_sub_cancel, Nat.shiftRight_eq_div_pow, ← hlead, hsum, hbuf]
  cases hbit : bits.testBit n
  · have hlt : bits < 2 ^ n := by
      rw [← Nat.not_le, ← testBit_top hbits, hbit]
      exact Bool.false_ne_true
    rw [Bool.toNat_false, if_pos rfl, Nat.zero_shiftLeft, Nat.zero_or, toBits_shift_or hlt,
      toBits_succ, Nat.one_shiftLeft, Nat.testBit_two_pow_sub_one]
    have hones : ∀ i < npending, (2 ^ npending - 1).testBit i = true := fun i hi => by simp [hi]
    rw [toBits_eq_replicate hones]
    simp
  · have hlow : bits ^^^ 1 <<< n < 2 ^ n := by
      refine Nat.lt_pow_two_of_testBit _ fun i hi => ?_
      rcases Nat.lt_or_eq_of_le hi with hgt | rfl
      · have hi' := Nat.testBit_lt_two_pow
          (Nat.lt_of_lt_of_le hbits (Nat.pow_le_pow_right (by decide) hgt))
        simp [Nat.one_shiftLeft, hi', Nat.testBit_two_pow_of_ne (Nat.ne_of_lt hgt)]
      · simp [Nat.one_shiftLeft, hbit]
    have hsame : toBits n (bits ^^^ 1 <<< n) = toBits n bits := by
      refine toBits_congr fun i hi => ?_
      simp [Nat.one_shiftLeft, Nat.testBit_two_pow_of_ne (Nat.ne_of_gt hi)]
    rw [Bool.toNat_true, if_neg Nat.one_ne_zero, Nat.shiftLeft_add, toBits_shift_or hlow, hsame,
      toBits_succ, Nat.one_shiftLeft, Nat.testBit_two_pow_self]
    rw [toBits_eq_replicate fun i hi => Nat.testBit_two_pow_of_ne (Nat.ne_of_gt hi)]
    simp

theorem compose_zero (bits nbits : Nat) : compose bits nbits 0 = bits := rfl

/-- What `compose` gives fits its bits. -/
theorem compose_lt {bits n : Nat} (hbits : bits < 2 ^ (n + 1)) (npending : Nat) :
    compose bits (n + 1) npending < 2 ^ (n + 1 + npending) := by
  have hsmall : bits < 2 ^ (n + 1 + npending) :=
    Nat.lt_of_lt_of_le hbits (Nat.pow_le_pow_right (Nat.zero_lt_succ 1) (Nat.le_add_right _ _))
  have hbuf : npending + (n + 1) - 1 = n + npending := by omega
  unfold compose
  dsimp only
  rw [hbuf, Nat.add_sub_cancel]
  split
  · have hlead : (bits >>> n % 2) <<< (n + npending) < 2 ^ (n + 1 + npending) := by
      have hbit : bits >>> n % 2 < 2 ^ 1 := Nat.mod_lt _ (Nat.zero_lt_succ 1)
      rw [show n + 1 + npending = 1 + (n + npending) by omega, Nat.shiftLeft_eq,
        Nat.pow_add 2 1]
      exact Nat.mul_lt_mul_of_pos_right hbit (Nat.two_pow_pos _)
    split
    · have hones : (1 <<< npending - 1) <<< n < 2 ^ (n + 1 + npending) := by
        rw [Nat.one_shiftLeft, Nat.shiftLeft_eq,
          show n + 1 + npending = npending + (n + 1) by omega, Nat.pow_add]
        have hpos := Nat.two_pow_pos npending
        have hle : 2 ^ n ≤ 2 ^ (n + 1) := Nat.pow_le_pow_right (Nat.zero_lt_succ 1) (Nat.le_succ n)
        exact Nat.mul_lt_mul_of_lt_of_le (by omega) hle (Nat.two_pow_pos _)
      exact Nat.or_lt_two_pow (Nat.or_lt_two_pow hlead hones) hsmall
    · refine Nat.or_lt_two_pow hlead (Nat.xor_lt_two_pow hsmall ?_)
      rw [Nat.one_shiftLeft]
      exact Nat.pow_lt_pow_right (Nat.lt_succ_self 1) (by omega)
  · exact hsmall

/-- The widths of `scale` hold its values: it is the slice of the symbol. -/
theorem APECv.scale_eq_narrow {cv : Interval} (hcv : cv.Normal quarter) {T : Nat → Nat} {i : Nat}
    (hi : T i < T (i + 1)) (hT : T (i + 1) < quarter) :
    APECv.scale cv (T i) (T (i + 1)) = cv.narrow normNBits T i := by
  have hle := hcv.le
  have hlt : cv.hi < 4096 := hcv.lt
  have hrange : (cv.hi + 2 ^ 13 - cv.lo + 1) % 2 ^ 13 = cv.range := by
    unfold Interval.range
    omega
  obtain ⟨hlo, hmid, hhi⟩ := Interval.narrow_bounds hcv hi (Nat.le_of_lt hT)
  have hslice := Interval.slice_lt hcv hi
  unfold Interval.narrow at hlo hmid hhi ⊢
  dsimp only at hlo hmid hhi
  unfold APECv.scale
  dsimp only
  rw [hrange]
  congr 1
  · have hxlo : cv.lo <<< normNBits % 2 ^ 22 = cv.lo * 2 ^ normNBits := by
      rw [Nat.shiftLeft_eq]
      exact Nat.mod_eq_of_lt (show cv.lo * 1024 < 4194304 by omega)
    unfold APECv.scaleLo
    dsimp only
    rw [hxlo, Nat.shiftRight_eq_div_pow, Nat.add_mul_div_right _ _ (Nat.two_pow_pos _)]
    omega
  · have hxlo : ((cv.lo + 2 ^ 22 - 1) % 2 ^ 22) <<< normNBits % 2 ^ 22 =
        ((cv.lo + 2 ^ 12 - 1) % 2 ^ 12) * 2 ^ normNBits := by
      rw [Nat.shiftLeft_eq]
      change (cv.lo + 4194304 - 1) % 4194304 * 1024 % 4194304 = (cv.lo + 4096 - 1) % 4096 * 1024
      omega
    unfold APECv.scaleHi
    dsimp only
    rw [hxlo, Nat.shiftRight_eq_div_pow, Nat.add_mul_div_right _ _ (Nat.two_pow_pos _)]
    generalize cv.range * T (i + 1) / 2 ^ normNBits = x at *
    generalize cv.range * T i / 2 ^ normNBits = y at *
    omega

/-! ## The parallel reduction -/

/-- `reduce_hi` shifts in ones. -/
theorem APECv.reduceHi_eq {hi n : Nat} (hn : n ≤ 12) (mask : Nat) :
    APECv.reduceHi hi n mask = (hi * 2 ^ n + (2 ^ n - 1)) % 2 ^ 12 ||| mask := by
  unfold APECv.reduceHi
  dsimp only
  congr 1
  refine Nat.eq_of_testBit_eq fun i => ?_
  rw [Nat.testBit_mod_two_pow, Nat.mul_comm hi,
    Nat.testBit_two_pow_mul_add _ (Nat.sub_one_lt (Nat.two_pow_pos n).ne'),
    BitVec.testBit_toNat, BitVec.getLsbD_reverse, BitVec.getMsbD_eq_getLsbD]
  by_cases hi12 : i < 12
  · have hmsb : (1#13 <<< 12 ||| (BitVec.ofNat 12 hi).reverse.setWidth 13).msb = true := by
      rw [BitVec.msb_or]
      rfl
    have htop : ∀ j, (1#13 <<< 12).getLsbD j = decide (j = 12) := by
      intro j
      rw [BitVec.getLsbD_shiftLeft, BitVec.getLsbD_one]
      grind
    rw [BitVec.getLsbD_setWidth, BitVec.getLsbD_sshiftRight, hmsb, BitVec.getLsbD_or, htop,
      BitVec.getLsbD_setWidth, BitVec.getLsbD_reverse, BitVec.getMsbD_eq_getLsbD,
      BitVec.getLsbD_ofNat]
    by_cases hin : i < n
    · simp [hi12, hin]
      omega
    · have hsum : n + (11 - i) < 12 := by omega
      have hback : 11 - (n + (11 - i)) = i - n := by omega
      have hlt : i - n < 12 := by omega
      simp [hi12, hin, hsum, hback, hlt]
      grind
  · simp [hi12]

theorem APECv.reduceLo_eq (lo n : Nat) : APECv.reduceLo lo n = lo * 2 ^ n % 2 ^ 11 := by
  unfold APECv.reduceLo
  rw [show 0x7ff = 2 ^ 11 - 1 from rfl, Nat.and_two_pow_sub_one_eq_mod, Nat.shiftLeft_eq,
    Nat.mod_mod_of_dvd _ (show 2 ^ 11 ∣ 2 ^ 12 from ⟨2, rfl⟩)]

/-- `x'` is `x` shifted left below bit `j`, with `b` shifted in. -/
structure ShiftsIn (j : Nat) (b : Bool) (x x' : Nat) : Prop where
  zero : x'.testBit 0 = b
  succ : ∀ i < j, x'.testBit (i + 1) = x.testBit i

theorem ShiftsIn.of_eq {x x' s j : Nat} {b : Bool} (hs : 2 ^ j ∣ s) (hle : s ≤ x)
    (hx' : x' = 2 * (x - s) + b.toNat) : ShiftsIn j b x x' := by
  have hdiv : x' / 2 = x - s := by
    have hbit := Bool.toNat_lt b
    omega
  refine ⟨?_, fun i hi => ?_⟩
  · rw [hx', Nat.testBit_zero]
    cases b <;> simp
  · rw [Nat.testBit_succ, hdiv, testBit_sub hs hle hi]

section Expansion

variable {cv J : Interval} {s : Nat} {ss : List Nat}

theorem expand_shiftsIn {j : Nat} (hcv : cv.Valid quarter) (hs : cv.offset quarter = some s)
    (hj : 2 ^ j ∣ s) :
    ShiftsIn j false cv.lo (cv.expand s).lo ∧ ShiftsIn j true cv.hi (cv.expand s).hi := by
  have hle := Interval.offset_le_lo hs
  exact ⟨.of_eq hj hle rfl, .of_eq hj (Nat.le_trans hle hcv.le) rfl⟩

theorem testBit_diff (cv : Interval) (i : Nat) :
    (diff cv).testBit i = (cv.lo.testBit i ^^ cv.hi.testBit i) := Nat.testBit_xor ..

theorem testBit_compl {x i : Nat} (hi : i < 12) : (compl x).testBit i = !x.testBit i := by
  unfold compl
  rw [Nat.testBit_xor, show 0xfff = 2 ^ 12 - 1 from rfl, Nat.testBit_two_pow_sub_one]
  simp [hi]

theorem testBit_pending_zero (cv : Interval) :
    (pending cv).testBit 0 = (diff cv).testBit 0 := by
  unfold pending
  rw [Nat.testBit_and, Nat.testBit_or]
  simp

theorem testBit_pending_succ (cv : Interval) {i : Nat} (hi : i + 1 < 12) :
    (pending cv).testBit (i + 1) =
      ((!cv.lo.testBit i || cv.hi.testBit i) && (diff cv).testBit (i + 1)) := by
  unfold pending
  rw [Nat.testBit_and, Nat.testBit_or, Nat.testBit_mod_two_pow, Nat.testBit_shiftLeft,
    Nat.add_sub_cancel, Nat.testBit_or, testBit_compl (by omega)]
  simp [hi, Nat.testBit_succ]

/-- The bits of `pending` move with those of the limits. -/
theorem testBit_pending_shift {cv cv' : Interval} {j : Nat}
    (hlo : ShiftsIn j false cv.lo cv'.lo) (hhi : ShiftsIn j true cv.hi cv'.hi) {i : Nat}
    (hi : i ≤ j) (hi11 : i < 11)
    (hdiff : (diff cv').testBit (i + 1) = (diff cv).testBit i) :
    (pending cv').testBit (i + 1) = (pending cv).testBit i := by
  rw [testBit_pending_succ cv' (by omega), hdiff]
  cases i with
  | zero => rw [hhi.zero, testBit_pending_zero, Bool.or_true, Bool.true_and]
  | succ i => rw [hlo.succ i hi, hhi.succ i hi, testBit_pending_succ cv (by omega)]

theorem testBit_diff_shift {cv cv' : Interval} {j : Nat} (hlo : ShiftsIn j false cv.lo cv'.lo)
    (hhi : ShiftsIn j true cv.hi cv'.hi) {i : Nat} (hi : i < j) :
    (diff cv').testBit (i + 1) = (diff cv).testBit i := by
  rw [testBit_diff, testBit_diff, hlo.succ i hi, hhi.succ i hi]

/-- The quarter a limit lies in, read from its bits. -/
theorem testBit_eleven {x : Nat} (hx : x < 4 * quarter) :
    x.testBit 11 = decide (2 * quarter ≤ x) := by
  rw [Bool.eq_iff_iff, testBit_top (show x < 2 ^ (11 + 1) from hx), decide_eq_true_iff]
  exact Iff.rfl

theorem testBit_ten_low {x : Nat} (hx : x < 2 * quarter) :
    x.testBit 10 = decide (quarter ≤ x) := by
  rw [Bool.eq_iff_iff, testBit_top (show x < 2 ^ (10 + 1) from hx), decide_eq_true_iff]

theorem testBit_ten_high {x : Nat} (hge : 2 * quarter ≤ x) (hx : x < 4 * quarter) :
    x.testBit 10 = decide (3 * quarter ≤ x) := by
  rw [← testBit_sub (show 2 ^ 11 ∣ 2 * quarter from ⟨1, rfl⟩) hge (show 10 < 11 by decide),
    testBit_ten_low (by omega)]
  exact decide_eq_decide.mpr (by omega)

/-- In a half the limits share the first bit. -/
theorem half_of_offset (hcv : cv.Valid quarter) (hs : cv.offset quarter = some s)
    (hne : s ≠ quarter) : 2 ^ 11 ∣ s ∧ cv.lo.testBit 11 = decide (s ≠ 0) ∧
      cv.hi.testBit 11 = decide (s ≠ 0) := by
  have hle := hcv.le
  have hlt := hcv.lt
  rw [testBit_eleven hlt, testBit_eleven (Nat.lt_of_le_of_lt hle hlt)]
  rcases Interval.offset_cases hs with ⟨rfl, hhi⟩ | ⟨rfl, hlo⟩ | ⟨rfl, _⟩
  · refine ⟨Nat.dvd_zero _, decide_eq_decide.mpr ?_, decide_eq_decide.mpr ?_⟩ <;> omega
  · have hpos : quarter ≠ 0 := by decide
    refine ⟨⟨1, rfl⟩, decide_eq_decide.mpr ?_, decide_eq_decide.mpr ?_⟩ <;> omega
  · exact absurd rfl hne

/-- In the middle `lo` starts with 01 and `hi` with 10. -/
theorem middle_of_offset (hcv : cv.Valid quarter) (hs : cv.offset quarter = some quarter) :
    cv.lo.testBit 11 = false ∧ cv.hi.testBit 11 = true ∧ cv.lo.testBit 10 = true ∧
      cv.hi.testBit 10 = false := by
  have hle := hcv.le
  have hlt := hcv.lt
  have hpos : 0 < quarter := by decide
  rcases Interval.offset_cases hs with ⟨h, _⟩ | ⟨h, _⟩ | ⟨_, hlo, hlo', hhi, hhi'⟩
  · omega
  · omega
  rw [testBit_eleven hlt, testBit_eleven (by omega), testBit_ten_low hlo',
    testBit_ten_high hhi hlt]
  exact ⟨decide_eq_false (by omega), decide_eq_true hhi, decide_eq_true hlo,
    decide_eq_false (by omega)⟩

theorem straddle_of_offset (hs : cv.offset quarter = some quarter) :
    cv.lo < 2 * quarter ∧ 2 * quarter ≤ cv.hi := by
  have hpos : 0 < quarter := by decide
  rcases Interval.offset_cases hs with ⟨h, _⟩ | ⟨h, _⟩ | ⟨_, _, hlo, hhi, _⟩ <;> omega

/-- After an expansion of the middle the limits straddle the half. -/
theorem straddle_expand (hcv : cv.Valid quarter) (hs : cv.offset quarter = some quarter) :
    (cv.expand quarter).lo < 2 * quarter ∧ 2 * quarter ≤ (cv.expand quarter).hi := by
  have hpos : 0 < quarter := by decide
  have hle := hcv.le
  show 2 * (cv.lo - quarter) < 2 * quarter ∧ 2 * quarter ≤ 2 * (cv.hi - quarter) + 1
  rcases Interval.offset_cases hs with ⟨h, _⟩ | ⟨h, _⟩ | ⟨_, hlo, hlo', hhi, hhi'⟩ <;> omega

/-- What shifts in makes the last bits differ. -/
theorem testBit_diff_expand_zero (hcv : cv.Valid quarter) (hs : cv.offset quarter = some s) :
    (diff (cv.expand s)).testBit 0 = true := by
  obtain ⟨hzlo, hzhi⟩ := expand_shiftsIn (j := 0) hcv hs (Nat.one_dvd s)
  rw [testBit_diff, hzlo.zero, hzhi.zero]
  rfl

/-- An expansion out of a half drops one common bit. -/
theorem nsame_expand (hcv : cv.Valid quarter) (hs : cv.offset quarter = some s)
    (hne : s ≠ quarter) : nsame cv = nsame (cv.expand s) + 1 := by
  obtain ⟨hdvd, hlo11, hhi11⟩ := half_of_offset hcv hs hne
  obtain ⟨hlo, hhi⟩ := expand_shiftsIn hcv hs hdvd
  have htop : (diff cv).testBit 11 = false := by
    rw [testBit_diff, hlo11, hhi11, Bool.xor_self]
  unfold nsame
  rw [countLeadingZeros_shift (fun i hi => testBit_diff_shift hlo hhi hi)
    (testBit_diff_expand_zero hcv hs), countLeadingZeros, if_neg (by simp [htop])]

/-- An expansion drops one bit. -/
theorem nreduce_expand (hcv : cv.Valid quarter) (hs : cv.offset quarter = some s) :
    nreduce cv = nreduce (cv.expand s) + 1 := by
  have hmove : (pending cv).testBit 11 = false ∧ ∀ i < 11,
      (pending (cv.expand s)).testBit (i + 1) = (pending cv).testBit i := by
    rw [testBit_pending_succ cv (by decide), testBit_diff]
    by_cases hne : s = quarter
    · subst hne
      obtain ⟨hlo11, hhi11, hlo10, hhi10⟩ := middle_of_offset hcv hs
      obtain ⟨hlo, hhi⟩ := expand_shiftsIn (j := 10) hcv hs ⟨1, rfl⟩
      rw [hlo10, hhi10]
      refine ⟨rfl, fun i hi => testBit_pending_shift hlo hhi (by omega) hi ?_⟩
      rcases Nat.lt_or_eq_of_le (Nat.le_of_lt_succ hi) with hlt | rfl
      · exact testBit_diff_shift hlo hhi hlt
      · -- the limits still straddle the half, and differ in the next bit already
        obtain ⟨hlo', hhi'⟩ := straddle_expand hcv hs
        have hlt' := (hcv.expand hs).lt
        rw [testBit_diff, testBit_diff, hlo10, hhi10, testBit_eleven (by omega),
          testBit_eleven hlt', decide_eq_true hhi', decide_eq_false (by omega)]
        rfl
    · obtain ⟨hdvd, hlo11, hhi11⟩ := half_of_offset hcv hs hne
      obtain ⟨hlo, hhi⟩ := expand_shiftsIn hcv hs hdvd
      rw [hlo11, hhi11, Bool.xor_self, Bool.and_false]
      exact ⟨rfl, fun i hi =>
        testBit_pending_shift hlo hhi (by omega) hi (testBit_diff_shift hlo hhi hi)⟩
  have hone : (pending (cv.expand s)).testBit 0 = true := by
    rw [testBit_pending_zero, testBit_diff_expand_zero hcv hs]
  unfold nreduce
  rw [countLeadingZeros_shift hmove.2 hone, countLeadingZeros, if_neg (by simp [hmove.1])]

/-- Limits that straddle the half differ in the first bit. -/
theorem nsame_eq_zero (hcv : cv.Valid quarter) (hlo : cv.lo < 2 * quarter)
    (hhi : 2 * quarter ≤ cv.hi) : nsame cv = 0 := by
  have hlt := hcv.lt
  have htop : (diff cv).testBit 11 = true := by
    rw [testBit_diff, testBit_eleven hlt, testBit_eleven (by omega), decide_eq_true hhi,
      decide_eq_false (Nat.not_le.mpr hlo)]
    rfl
  unfold nsame
  rw [countLeadingZeros, if_pos htop]

theorem nreduce_eq_zero (hcv : cv.Valid quarter) (hs : cv.offset quarter = none) :
    nreduce cv = 0 := by
  have hlt := hcv.lt
  obtain ⟨hlo, hhi, hmid⟩ := Interval.offset_eq_none_iff.mp hs
  have htop : (pending cv).testBit 11 = true := by
    rw [testBit_pending_succ cv (by decide), testBit_diff, testBit_eleven hlt,
      testBit_eleven (by omega), testBit_ten_low hlo, testBit_ten_high hhi hlt]
    simp only [decide_eq_true hhi, decide_eq_false (Nat.not_le.mpr hlo)]
    rcases hmid with hmid | hmid
    · rw [decide_eq_false (Nat.not_le.mpr hmid)]
      simp
    · rw [decide_eq_true hmid]
      simp
  unfold nreduce
  rw [countLeadingZeros, if_pos htop]

/-- `nreduce` counts the expansions. -/
theorem nreduce_of_expands (hcv : cv.Valid quarter) (h : Expands quarter cv ss J) :
    nreduce cv = ss.length := by
  induction h with
  | done hnone => exact nreduce_eq_zero hcv hnone
  | step hs _ ih => rw [nreduce_expand hcv hs, ih (hcv.expand hs), List.length_cons]

/-! ### What the reduction leaves -/

/-- `lo` drops its first bits and shifts in zeros. -/
theorem lo_of_expands (hcv : cv.Valid quarter) (h : Expands quarter cv ss J) :
    J.lo = cv.lo * 2 ^ ss.length % 2 ^ 11 := by
  induction h with
  | done hnone =>
      obtain ⟨hlo, _⟩ := Interval.offset_eq_none_iff.mp hnone
      rw [List.length_nil, Nat.pow_zero, Nat.mul_one]
      exact (Nat.mod_eq_of_lt hlo).symm
  | @step I J s ss hs _ ih =>
      obtain ⟨k, hk⟩ : 2 ^ 11 ∣ 2 * s := by
        rcases Interval.offset_cases hs with ⟨rfl, _⟩ | ⟨rfl, _⟩ | ⟨rfl, _⟩
        · exact Nat.dvd_zero _
        · exact ⟨2, rfl⟩
        · exact ⟨1, rfl⟩
      have hle := Interval.offset_le_lo hs
      have hmul : I.lo * 2 ^ (ss.length + 1) =
          2 * (I.lo - s) * 2 ^ ss.length + 2 ^ 11 * (k * 2 ^ ss.length) := by
        obtain ⟨d, hd⟩ := Nat.exists_eq_add_of_le hle
        rw [hd, Nat.add_sub_cancel_left, Nat.pow_succ, ← Nat.mul_assoc (2 ^ 11), ← hk]
        ring
      rw [ih (hcv.expand hs), List.length_cons, hmul, Nat.add_mul_mod_self_left]
      rfl

/-- Shifting in ones one at a time. -/
theorem shift_ones {x s : Nat} (hle : s ≤ x) (n : Nat) :
    x * 2 ^ (n + 1) + (2 ^ (n + 1) - 1) =
      (2 * (x - s) + 1) * 2 ^ n + (2 ^ n - 1) + 2 * s * 2 ^ n := by
  have hpos := Nat.two_pow_pos n
  obtain ⟨d, rfl⟩ := Nat.exists_eq_add_of_le hle
  obtain ⟨m, hm⟩ : ∃ m, 2 ^ n = m + 1 := ⟨2 ^ n - 1, by omega⟩
  rw [Nat.add_sub_cancel_left, Nat.pow_succ, hm, show (m + 1) * 2 - 1 = 2 * m + 1 by omega,
    Nat.add_sub_cancel]
  ring

/-- While the limits straddle the half all expansions are of the middle, and
`hi` keeps its first bit. -/
theorem straddle_of_expands (hcv : cv.Valid quarter) (h : Expands quarter cv ss J)
    (hlo : cv.lo < 2 * quarter) (hhi : 2 * quarter ≤ cv.hi) :
    ss = List.replicate ss.length quarter ∧
      J.hi = (cv.hi * 2 ^ ss.length + (2 ^ ss.length - 1)) % 2 ^ 11 + 2 ^ 11 := by
  induction h with
  | @done I _ =>
      have hlt := hcv.lt
      refine ⟨rfl, ?_⟩
      change I.hi < 4096 at hlt
      change 2048 ≤ I.hi at hhi
      rw [List.length_nil]
      omega
  | @step I J s ss hs _ ih =>
      obtain rfl : s = quarter := by
        rcases Interval.offset_cases hs with ⟨_, h⟩ | ⟨_, h⟩ | ⟨h, _⟩ <;> omega
      obtain ⟨hlo', hhi'⟩ := straddle_expand hcv hs
      obtain ⟨hall, hJ⟩ := ih (hcv.expand hs) hlo' hhi'
      have hle : quarter ≤ I.hi := by omega
      refine ⟨?_, ?_⟩
      · rw [List.length_cons, List.replicate_succ, ← hall]
      · rw [hJ, List.length_cons, shift_ones hle,
          show 2 * quarter * 2 ^ ss.length = 2 ^ 11 * 2 ^ ss.length from rfl,
          Nat.add_mul_mod_self_left]
        rfl

/-- The top bit of `hi_mask` says whether bits become pending. -/
theorem hiMask_eq (cv : Interval) : hiMask cv =
    ((decide (nsame cv ≤ 10) && (cv.lo.testBit (10 - nsame cv) &&
      !cv.hi.testBit (10 - nsame cv))).toNat) * 2 ^ 11 := by
  unfold hiMask
  rw [show 0x800 = 2 ^ 11 from rfl, Nat.and_two_pow, Nat.testBit_mod_two_pow,
    Nat.testBit_shiftLeft, Nat.testBit_mod_two_pow, Nat.testBit_shiftLeft, Nat.testBit_and,
    testBit_compl (by omega)]
  simp

theorem hiMask_expand (hcv : cv.Valid quarter) (hs : cv.offset quarter = some s)
    (hne : s ≠ quarter) : hiMask cv = hiMask (cv.expand s) := by
  obtain ⟨hdvd, _⟩ := half_of_offset hcv hs hne
  obtain ⟨hlo, hhi⟩ := expand_shiftsIn hcv hs hdvd
  rw [hiMask_eq, hiMask_eq, nsame_expand hcv hs hne]
  generalize nsame (cv.expand s) = n
  by_cases hn : n ≤ 9
  · rw [show 10 - n = 10 - (n + 1) + 1 by omega, hlo.succ _ (by omega), hhi.succ _ (by omega),
      decide_eq_true (show n + 1 ≤ 10 by omega), decide_eq_true (show n ≤ 10 by omega)]
  · rw [show 10 - n = 0 by omega, hlo.zero, decide_eq_false (show ¬ n + 1 ≤ 10 by omega)]
    simp

theorem or_two_pow_eleven {y : Nat} (hy : y < 2 ^ 12) : y ||| 2 ^ 11 = y % 2 ^ 11 + 2 ^ 11 := by
  have hmod : y % 2 ^ 11 < 2 ^ 11 := Nat.mod_lt _ (by decide)
  have hsum := Nat.two_pow_add_eq_or_of_lt hmod 1
  rw [Nat.mul_one] at hsum
  rw [Nat.add_comm, hsum]
  by_cases hlt : y < 2 ^ 11
  · rw [Nat.mod_eq_of_lt hlt, Nat.or_comm]
  · have hy' : y = 2 ^ 11 ||| y % 2 ^ 11 := by omega
    rw [← hy', hy', Nat.or_comm, ← Nat.or_assoc, Nat.or_self, ← hy']

/-- `hi` drops its first bits, shifts in ones and keeps its first bit while
bits become pending. -/
theorem hi_of_expands (hcv : cv.Valid quarter) (h : Expands quarter cv ss J) :
    J.hi = (cv.hi * 2 ^ ss.length + (2 ^ ss.length - 1)) % 2 ^ 12 ||| hiMask cv := by
  induction h with
  | @done I hnone =>
      obtain ⟨hlo, hhi, hmid⟩ := Interval.offset_eq_none_iff.mp hnone
      have hlt := hcv.lt
      have hmask : hiMask I = 0 := by
        rw [hiMask_eq, nsame_eq_zero hcv hlo hhi, Nat.sub_zero, testBit_ten_low hlo,
          testBit_ten_high hhi hlt]
        rcases hmid with hmid | hmid
        · rw [decide_eq_false (Nat.not_le.mpr hmid)]
          simp
        · rw [decide_eq_true hmid]
          simp
      rw [hmask, List.length_nil, Nat.pow_zero, Nat.mul_one, Nat.sub_self, Nat.add_zero,
        Nat.or_zero]
      exact (Nat.mod_eq_of_lt hlt).symm
  | @step I J s ss hs hrest ih =>
      by_cases hne : s = quarter
      · subst hne
        obtain ⟨_, _, hlo10, hhi10⟩ := middle_of_offset hcv hs
        obtain ⟨hlo, hhi⟩ := straddle_of_offset hs
        have hmask : hiMask I = 2 ^ 11 := by
          rw [hiMask_eq, nsame_eq_zero hcv hlo hhi, Nat.sub_zero, hlo10, hhi10]
          rfl
        rw [(straddle_of_expands hcv (.step hs hrest) hlo hhi).2, hmask,
          or_two_pow_eleven (Nat.mod_lt _ (by decide)),
          Nat.mod_mod_of_dvd _ (show 2 ^ 11 ∣ 2 ^ 12 from ⟨2, rfl⟩)]
      · obtain ⟨⟨k, hk⟩, _⟩ := half_of_offset hcv hs hne
        have hle : s ≤ I.hi := Nat.le_trans (Interval.offset_le_lo hs) hcv.le
        have hdvd : 2 * s * 2 ^ ss.length = 2 ^ 12 * (k * 2 ^ ss.length) := by
          rw [hk]
          ring
        rw [ih (hcv.expand hs), hiMask_expand hcv hs hne, List.length_cons, shift_ones hle, hdvd,
          Nat.add_mul_mod_self_left]
        rfl

/-- The parallel reduction ends where the expansions do. -/
theorem reduce_of_expands (hcv : cv.Valid quarter) (h : Expands quarter cv ss J) :
    reduce cv = J := by
  have hle : nreduce cv ≤ 12 := countLeadingZeros_le _ _
  unfold reduce
  rw [APECv.reduceLo_eq, APECv.reduceHi_eq hle, nreduce_of_expands hcv h, ← lo_of_expands hcv h,
    ← hi_of_expands hcv h]

/-! ### What the reduction puts out -/

/-- The bits put out and left pending by the loop are those of the expansions. -/
theorem emitAll_of_expands (hcv : cv.Valid quarter) (h : Expands quarter cv ss J) (o : Output) :
    nsame cv ≤ ss.length ∧ o.emitAll quarter ss =
      if nsame cv = 0 then ⟨o.bits, o.pending + ss.length⟩
      else ⟨o.bits ++ toBits (nsame cv + o.pending)
        (compose (cv.lo >>> (12 - nsame cv)) (nsame cv) o.pending), ss.length - nsame cv⟩ := by
  induction h generalizing o with
  | @done I hnone =>
      obtain ⟨hlo, hhi, _⟩ := Interval.offset_eq_none_iff.mp hnone
      rw [nsame_eq_zero hcv hlo hhi, if_pos rfl]
      exact ⟨Nat.le_refl _, rfl⟩
  | @step I J s ss hs hrest ih =>
      by_cases hne : s = quarter
      · subst hne
        obtain ⟨hlo, hhi⟩ := straddle_of_offset hs
        rw [nsame_eq_zero hcv hlo hhi, if_pos rfl,
          (straddle_of_expands hcv (.step hs hrest) hlo hhi).1, List.length_replicate,
          Output.emitAll_replicate]
        exact ⟨Nat.zero_le _, rfl⟩
      · obtain ⟨hdvd, hlo11, _⟩ := half_of_offset hcv hs hne
        obtain ⟨hlo, _⟩ := expand_shiftsIn hcv hs hdvd
        obtain ⟨hle, hemit⟩ := ih (hcv.expand hs) (o.emit quarter s)
        have hle12 : nsame I ≤ 12 := countLeadingZeros_le _ _
        have hltlo : I.lo < 2 ^ 12 := Nat.lt_of_le_of_lt hcv.le hcv.lt
        rw [nsame_expand hcv hs hne] at hle12 ⊢
        generalize nsame (I.expand s) = m at *
        -- the first common bit ends the pending ones, the others follow
        have hbits : I.lo >>> (12 - (m + 1)) < 2 ^ (m + 1) := by
          rw [Nat.shiftRight_eq_div_pow]
          refine Nat.div_lt_of_lt_mul ?_
          rw [← Nat.pow_add, Nat.sub_add_cancel hle12]
          exact hltlo
        have hfirst : (I.lo >>> (12 - (m + 1))).testBit m = decide (s ≠ 0) := by
          rw [Nat.testBit_shiftRight, show 12 - (m + 1) + m = 11 by omega, hlo11]
        have hothers : toBits m (I.lo >>> (12 - (m + 1))) =
            toBits m ((I.expand s).lo >>> (12 - m)) := by
          refine toBits_congr fun i hi => ?_
          rw [Nat.testBit_shiftRight, Nat.testBit_shiftRight,
            show 12 - m + i = 12 - (m + 1) + i + 1 by omega, hlo.succ _ (by omega)]
        have hrest' : (o.emit quarter s).emitAll quarter ss =
            ⟨(o.emit quarter s).bits ++ toBits m ((I.expand s).lo >>> (12 - m)),
              ss.length - m⟩ := by
          have hzero : (o.emit quarter s).pending = 0 := by
            rw [Output.emit, if_neg hne]
          rw [hemit, hzero, compose_zero, Nat.add_zero, Nat.zero_add]
          by_cases hm : m = 0
          · rw [if_pos hm, hm, toBits_zero, List.append_nil, Nat.sub_zero]
          · rw [if_neg hm]
        have hnot : (!decide (s ≠ 0)) = decide (s = 0) := by simp
        refine ⟨Nat.succ_le_succ hle, ?_⟩
        rw [Output.emitAll_cons, hrest', if_neg (Nat.succ_ne_zero m), toBits_compose hbits, hfirst,
          hnot, hothers, List.length_cons, Nat.add_sub_add_right, Output.emit, if_neg hne]
        simp only [List.append_assoc, List.cons_append]

end Expansion

/-! ## The loop of `APE_encode` -/

/-- A cumulative table of `n` bins: `0 = T 0 ≤ T 1 ≤ … ≤ T n ≤ 1023`. -/
structure Cumulative (T : Nat → Nat) (n : Nat) : Prop where
  zero : T 0 = 0
  step : ∀ i < n, T i ≤ T (i + 1)
  top : T n ≤ 1023

/-- A bin of the table that holds symbols. -/
def Occupied (T : Nat → Nat) (n i : Nat) : Prop := i < n ∧ T i < T (i + 1)

instance (T : Nat → Nat) (n i : Nat) : Decidable (Occupied T n i) :=
  inferInstanceAs (Decidable (_ ∧ _))

namespace Cumulative

variable {T : Nat → Nat} {n : Nat}

theorem mono (hT : Cumulative T n) {i j : Nat} (hij : i ≤ j) (hj : j ≤ n) : T i ≤ T j := by
  induction j with
  | zero => rw [Nat.le_zero.mp hij]
  | succ j ih =>
      rcases Nat.lt_or_eq_of_le hij with hlt | rfl
      · exact Nat.le_trans (ih (Nat.le_of_lt_succ hlt) (by omega)) (hT.step j hj)
      · exact Nat.le_refl _

theorem lt_quarter (hT : Cumulative T n) {i : Nat} (hi : i ≤ n) : T i < quarter :=
  Nat.lt_succ_of_le (Nat.le_trans (hT.mono hi (Nat.le_refl n)) hT.top)

theorem codable (hT : Cumulative T n) {i : Nat} (hi : Occupied T n i) :
    Encodes.Codable normNBits T i :=
  ⟨hi.2, Nat.le_of_lt (hT.lt_quarter hi.1)⟩

end Cumulative

section Encode

variable {T : Nat → Nat} {n : Nat}

/-- One pass of the loop takes the expansions of its symbol. -/
theorem encodeSym_expands (hT : Cumulative T n) {etx : Etx} (hcv : etx.cv.Normal quarter) {i : Nat}
    (hi : Occupied T n i) : ∃ ss,
      Expands quarter (etx.cv.narrow normNBits T i) ss (encodeSym T etx i).1.cv ∧
      ∀ bits, (⟨bits, etx.tofollow⟩ : Output).emitAll quarter ss =
        ⟨bits ++ insertion (encodeSym T etx i).2, (encodeSym T etx i).1.tofollow⟩ := by
  obtain ⟨hlt, hle⟩ := hT.codable hi
  have hvalid := Interval.narrow_valid hcv hlt hle
  obtain ⟨ss, J, hJ⟩ := Expands.exists hvalid
  have hreduce := reduce_of_expands hvalid hJ
  have hcount := nreduce_of_expands hvalid hJ
  have hle12 : nreduce (etx.cv.narrow normNBits T i) ≤ 12 := countLeadingZeros_le _ _
  refine ⟨ss, ?_⟩
  unfold encodeSym
  dsimp only
  rw [APECv.scale_eq_narrow hcv hlt (hT.lt_quarter hi.1), hreduce]
  have hpend : nsame (etx.cv.narrow normNBits T i) ≤ ss.length →
      mpending (etx.cv.narrow normNBits T i) =
        ss.length - nsame (etx.cv.narrow normNBits T i) := by
    intro hsame
    unfold mpending
    omega
  by_cases hzero : nsame (etx.cv.narrow normNBits T i) = 0
  · rw [if_neg (not_not.mpr hzero)]
    refine ⟨hJ, fun bits => ?_⟩
    obtain ⟨hsame, hemit⟩ := emitAll_of_expands hvalid hJ ⟨bits, etx.tofollow⟩
    rw [hemit, if_pos hzero, hpend hsame, hzero, Nat.sub_zero, insertion, List.append_nil]
  · rw [if_pos hzero]
    refine ⟨hJ, fun bits => ?_⟩
    obtain ⟨hsame, hemit⟩ := emitAll_of_expands hvalid hJ ⟨bits, etx.tofollow⟩
    rw [hemit, if_neg hzero, hpend hsame, insertion]

/-- The loop encodes its symbols. -/
theorem encodeSyms_encodes (hT : Cumulative T n) {is : List Nat} (his : ∀ i ∈ is, Occupied T n i)
    {etx : Etx} (hcv : etx.cv.Normal quarter) : ∃ ss,
      Encodes normNBits T etx.cv is ss (encodeSyms T etx is).1.cv ∧
      ∀ bits, (⟨bits, etx.tofollow⟩ : Output).emitAll quarter ss =
        ⟨bits ++ (encodeSyms T etx is).2, (encodeSyms T etx is).1.tofollow⟩ := by
  induction is generalizing etx with
  | nil => exact ⟨[], .nil, fun bits => by rw [encodeSyms, List.append_nil]; rfl⟩
  | cons i is ih =>
      have hi := his i (List.mem_cons_self ..)
      obtain ⟨hlt, hle⟩ := hT.codable hi
      obtain ⟨ss, hss, hemit⟩ := encodeSym_expands hT hcv hi
      obtain ⟨ts, hts, hrest⟩ := ih (fun j hj => his j (List.mem_cons_of_mem _ hj))
        (hss.normal (Interval.narrow_valid hcv hlt hle))
      refine ⟨ss ++ ts, .cons hss hts, fun bits => ?_⟩
      rw [Output.emitAll_append, hemit, hrest, encodeSyms, List.append_assoc]

/-- `APE_finish` flushes the output. -/
theorem insertion_apeFinish {etx : Etx} (hcv : etx.cv.Normal quarter) (bits : List Bool) :
    bits ++ insertion (some (apeFinish etx)) =
      (⟨bits, etx.tofollow⟩ : Output).flush (decide (quarter ≤ etx.cv.lo)) := by
  obtain ⟨hlo, _⟩ := Interval.offset_eq_none_iff.mp hcv.offset_eq
  have hbit : (etx.cv.lo >>> (cvNBits - 2)) % 2 < 2 ^ (0 + 1) := Nat.mod_lt _ (by decide)
  have htop : ((etx.cv.lo >>> (cvNBits - 2)) % 2).testBit 0 = decide (quarter ≤ etx.cv.lo) := by
    rw [← testBit_ten_low hlo, Nat.testBit_zero, Nat.mod_mod, ← Nat.testBit_zero,
      Nat.testBit_shiftRight]
    rfl
  unfold apeFinish insertion Output.flush
  dsimp only
  rw [show 1 + (etx.tofollow + 1) = 0 + 1 + (etx.tofollow + 1) by omega, toBits_compose hbit, htop,
    toBits_zero, List.append_nil]

/-- The interval before the first symbol. -/
theorem apeStart_normal : apeStart.cv.Normal quarter := ⟨⟨by decide, by decide⟩, by decide⟩

/-- The whole output is the flushed one of the expansions. -/
theorem apeEncode_eq (hT : Cumulative T n) {is : List Nat} (his : ∀ i ∈ is, Occupied T n i) :
    ∃ ss K, Encodes normNBits T apeStart.cv is ss K ∧ K.Normal quarter ∧
      apeEncode T is =
        ((⟨[], 0⟩ : Output).emitAll quarter ss).flush (decide (quarter ≤ K.lo)) := by
  obtain ⟨ss, hss, hemit⟩ := encodeSyms_encodes hT his apeStart_normal
  have hK := hss.normal apeStart_normal fun i hi => hT.codable (his i hi)
  refine ⟨ss, _, hss, hK, ?_⟩
  have hstart : (⟨[], 0⟩ : Output) = ⟨[], apeStart.tofollow⟩ := rfl
  rw [hstart, hemit []]
  unfold apeEncode
  dsimp only
  rw [insertion_apeFinish hK, List.nil_append]

end Encode

end ProtoDune.Firmware
