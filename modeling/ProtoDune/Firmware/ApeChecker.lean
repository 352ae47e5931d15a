import ProtoDune.Firmware.ApeEncode

/-!
# `AP-Encode.h`: `APE_checker`, the plain reduction

The encoder carries a checker that reduces the limits one bit at a time, in 32
bits. A pass of the encoder and one of the checker are compared here.

Main results:

* `checkerLoop_expands` — the plain loop takes the expansions and stops.
* `checker_agrees` — the two agree on every pass, and over whole runs.
-/

namespace ProtoDune.Firmware

open BitString ArithCoder

/-- `APE_checker`; the input `m_npending` of `reduce` is replaced by its output. -/
structure ApeChecker where
  low : Nat
  high : Nat
  npending : Nat
  bits : Nat
  nbits : Nat
deriving DecidableEq

/-- The pending bits of `put_bit_plus_pending`. -/
def putPending (bit : Bool) : Nat → Nat → Nat
  | 0, bits => bits
  | n + 1, bits => putPending bit n (bits <<< 1 % 2 ^ 32 ||| if bit then 0 else 1)

/-- `put_bit_plus_pending`. -/
def putBitPlusPending (bits : Nat) (bit : Bool) (npending : Nat) : Nat :=
  putPending bit npending (bits <<< 1 % 2 ^ 32 ||| if bit then 1 else 0)

/-- The end of a pass of the loop of `APE_checker::reduce`. -/
def ApeChecker.double (chk : ApeChecker) : ApeChecker :=
  { chk with
    high := (chk.high <<< 1 % 2 ^ 32 + 1) % 2 ^ 32 &&& cvHi
    low := chk.low <<< 1 % 2 ^ 32 &&& cvHi }

/-- Put a bit with the pending ones. -/
def ApeChecker.put (chk : ApeChecker) (bit : Bool) : ApeChecker :=
  { chk with
    nbits := chk.nbits + (chk.npending + 1)
    bits := putBitPlusPending chk.bits bit chk.npending
    npending := 0 }

/-- Make a bit pending. -/
def ApeChecker.defer (chk : ApeChecker) : ApeChecker :=
  { chk with
    npending := chk.npending + 1
    low := chk.low - quarter
    high := chk.high - quarter }

/-- The loop of `APE_checker::reduce`, for a number of passes. -/
def checkerLoop : Nat → ApeChecker → Option ApeChecker
  | 0, _ => none
  | passes + 1, chk =>
      if chk.high < 2 * quarter then checkerLoop passes (chk.put false).double
      else if 2 * quarter ≤ chk.low then checkerLoop passes (chk.put true).double
      else if quarter ≤ chk.low ∧ chk.high < 3 * quarter then checkerLoop passes chk.defer.double
      else some chk

/-- `APE_checker::reduce`, given up after `APC_K_NBITS + 1` passes. -/
def checkerReduce (npending : Nat) (cv : Interval) : Option ApeChecker :=
  checkerLoop (cvNBits + 1)
    { low := cv.lo, high := cv.hi, npending := npending, bits := 0, nbits := 0 }

/-- `compose`, with its assertion. -/
def composeChecked (bits nbits npending : Nat) : Option Nat :=
  if 64 < npending + nbits then none else some (compose bits nbits npending)

/-- A pass of the encoder after `scale`: the limits, the pending count, `ebits`
and `nebits`. -/
structure ReducePass where
  cv : Interval
  npending : Nat
  ebits : Nat
  nebits : Nat
deriving DecidableEq

/-- The reduction of `APE_encode`. -/
def reducePass (cv : Interval) (npending : Nat) : Option ReducePass :=
  if nsame cv ≠ 0 then do
    let ebits ← composeChecked (cv.lo >>> (12 - nsame cv)) (nsame cv) npending
    return ⟨reduce cv, mpending cv, ebits, nsame cv + npending⟩
  else some ⟨reduce cv, npending + mpending cv, 0, 0⟩

/-- The checker's view of a pass, in its 32 bits. -/
def ReducePass.toChecker (p : ReducePass) : ApeChecker :=
  ⟨p.cv.lo, p.cv.hi, p.npending, p.ebits % 2 ^ 32, p.nebits⟩

/-- The passes of the encoder over some symbols. -/
def passRun (table : Nat → Nat) (etx : Etx) : List Nat → Option (List ReducePass)
  | [] => some []
  | idx :: idxs => do
      let p ← reducePass (APECv.scale etx.cv (table idx) (table (idx + 1))) etx.tofollow
      let ps ← passRun table ⟨p.cv, p.npending⟩ idxs
      return p :: ps

/-- The same with the plain reduction, which goes on with its own results. -/
def checkerRun (table : Nat → Nat) (etx : Etx) : List Nat → Option (List ApeChecker)
  | [] => some []
  | idx :: idxs => do
      let chk ← checkerReduce etx.tofollow
        (APECv.scale etx.cv (table idx) (table (idx + 1)))
      let chks ← checkerRun table ⟨⟨chk.low, chk.high⟩, chk.npending⟩ idxs
      return chk :: chks

/-! ## The plain loop -/

/-- The checker holds the limits and the output of the expansions. -/
structure ApeChecker.Shows (chk : ApeChecker) (cv : Interval) (o : Output) : Prop where
  low_eq : chk.low = cv.lo
  high_eq : chk.high = cv.hi
  npending_eq : chk.npending = o.pending
  nbits_eq : chk.nbits = o.bits.length
  bits_eq : chk.bits = ofBits o.bits % 2 ^ 32

/-- One more bit in the 32 bits of the checker. -/
theorem shiftIn32 (bits : List Bool) (bit : Bool) :
    ((ofBits bits % 2 ^ 32) <<< 1 % 2 ^ 32 ||| bit.toNat) = ofBits (bits ++ [bit]) % 2 ^ 32 := by
  have hbit := Bool.toNat_lt bit
  have hor := Nat.two_pow_add_eq_or_of_lt (show bit.toNat < 2 ^ 1 from hbit) (ofBits bits % 2 ^ 31)
  have heven : (ofBits bits % 2 ^ 32) <<< 1 % 2 ^ 32 = 2 ^ 1 * (ofBits bits % 2 ^ 31) := by
    rw [Nat.shiftLeft_eq]
    omega
  have hval : ofBits (bits ++ [bit]) = ofBits bits * 2 + bit.toNat := by
    rw [ofBits_append]
    simp [ofBits]
  rw [heven, ← hor, hval]
  omega

theorem putPending_eq (bits : List Bool) (bit : Bool) (npending : Nat) :
    putPending bit npending (ofBits bits % 2 ^ 32) =
      ofBits (bits ++ List.replicate npending (!bit)) % 2 ^ 32 := by
  induction npending generalizing bits with
  | zero => rw [putPending, List.replicate_zero, List.append_nil]
  | succ n ih =>
      have hbit : (if bit then 0 else 1) = (!bit).toNat := by cases bit <;> rfl
      rw [putPending, hbit, shiftIn32, ih, List.append_assoc, List.replicate_succ,
        List.singleton_append]

/-- A bit and its pending ones are appended. -/
theorem putBitPlusPending_eq (bits : List Bool) (bit : Bool) (npending : Nat) :
    putBitPlusPending (ofBits bits % 2 ^ 32) bit npending =
      ofBits (bits ++ bit :: List.replicate npending (!bit)) % 2 ^ 32 := by
  have hbit : (if bit then 1 else 0) = bit.toNat := by cases bit <;> rfl
  rw [putBitPlusPending, hbit, shiftIn32, putPending_eq, List.append_assoc, List.singleton_append]

/-- Doubling modulo the width, as in the library's expansion. -/
theorem double_limits {x y s : Nat} (hs : x = y + s)
    (hdvd : s = 0 ∨ s = 2 * quarter) :
    x <<< 1 % 2 ^ 32 &&& cvHi = 2 * y % 2 ^ 12 ∧
      (x <<< 1 % 2 ^ 32 + 1) % 2 ^ 32 &&& cvHi = (2 * y + 1) % 2 ^ 12 := by
  have hmask : cvHi = 2 ^ 12 - 1 := rfl
  rw [hmask, Nat.and_two_pow_sub_one_eq_mod, Nat.and_two_pow_sub_one_eq_mod, Nat.shiftLeft_eq]
  have hs' : s = 0 ∨ s = 2048 := hdvd
  omega

/-- A pass of the plain loop is one expansion. -/
theorem ApeChecker.Shows.put {chk : ApeChecker} {cv : Interval} {o : Output} {s : Nat}
    (h : chk.Shows cv o) (hcv : cv.Valid quarter) (hs : cv.offset quarter = some s)
    (hne : s ≠ quarter) : (chk.put (decide (s ≠ 0))).double.Shows (cv.expand s)
      (o.emit quarter s) := by
  obtain ⟨hlow, hhigh, hpending, hnbits, hbits⟩ := h
  have hle := hcv.le
  have hlt : cv.hi < 4096 := hcv.lt
  have hoff := Interval.offset_le_lo hs
  have hle' := (hcv.expand hs).le
  have hlt' : (cv.expand s).hi < 4096 := (hcv.expand hs).lt
  change 2 * (cv.lo - s) ≤ 2 * (cv.hi - s) + 1 at hle'
  change 2 * (cv.hi - s) + 1 < 4096 at hlt'
  have hcases : s = 0 ∨ s = 2 * quarter := by
    rcases Interval.offset_cases hs with ⟨h, _⟩ | ⟨h, _⟩ | ⟨h, _⟩
    · exact .inl h
    · exact .inr h
    · exact absurd h hne
  have hnot : (!decide (s ≠ 0)) = decide (s = 0) := by simp
  rw [Output.emit, if_neg hne]
  refine ⟨?_, ?_, rfl, ?_, ?_⟩
  · show chk.low <<< 1 % 2 ^ 32 &&& cvHi = 2 * (cv.lo - s)
    rw [hlow, (double_limits (Nat.sub_add_cancel hoff).symm hcases).1]
    omega
  · show (chk.high <<< 1 % 2 ^ 32 + 1) % 2 ^ 32 &&& cvHi = 2 * (cv.hi - s) + 1
    rw [hhigh, (double_limits (Nat.sub_add_cancel (Nat.le_trans hoff hle)).symm hcases).2]
    omega
  · show chk.nbits + (chk.npending + 1) = _
    rw [hnbits, hpending, List.length_append, List.length_cons, List.length_replicate]
  · show putBitPlusPending chk.bits (decide (s ≠ 0)) chk.npending = _
    rw [hbits, hpending, putBitPlusPending_eq, hnot]

/-- Deferring touches the limits and the pending count only. -/
theorem ApeChecker.defer_double (chk : ApeChecker) :
    chk.defer.double.nbits = chk.nbits ∧ chk.defer.double.bits = chk.bits ∧
      chk.defer.double.npending = chk.npending + 1 := by
  unfold ApeChecker.defer ApeChecker.double
  exact ⟨rfl, rfl, rfl⟩

theorem ApeChecker.Shows.defer {chk : ApeChecker} {cv : Interval} {o : Output}
    (h : chk.Shows cv o) (hcv : cv.Valid quarter) (hs : cv.offset quarter = some quarter) :
    chk.defer.double.Shows (cv.expand quarter) (o.emit quarter quarter) := by
  obtain ⟨hlow, hhigh, hpending, hnbits, hbits⟩ := h
  have hle := hcv.le
  have hlt : cv.hi < 4096 := hcv.lt
  have hlt' : (cv.expand quarter).hi < 4096 := (hcv.expand hs).lt
  change 2 * (cv.hi - quarter) + 1 < 4096 at hlt'
  rw [Output.emit_self]
  obtain ⟨hsameNbits, hsameBits, hnext⟩ := chk.defer_double
  refine ⟨?_, ?_, ?_, hsameNbits.trans hnbits, hsameBits.trans hbits⟩
  · show (chk.low - quarter) <<< 1 % 2 ^ 32 &&& cvHi = 2 * (cv.lo - quarter)
    have hdouble :=
      @double_limits (cv.lo - quarter) (cv.lo - quarter) 0 (Nat.add_zero _).symm (.inl rfl)
    rw [hlow, hdouble.1]
    omega
  · show ((chk.high - quarter) <<< 1 % 2 ^ 32 + 1) % 2 ^ 32 &&& cvHi = 2 * (cv.hi - quarter) + 1
    have hdouble :=
      @double_limits (cv.hi - quarter) (cv.hi - quarter) 0 (Nat.add_zero _).symm (.inl rfl)
    rw [hhigh, hdouble.2]
    omega
  · rw [hnext, hpending]

/-- The plain loop takes the expansions and stops. -/
theorem checkerLoop_expands {cv J : Interval} {ss : List Nat} (h : Expands quarter cv ss J)
    (hcv : cv.Valid quarter) {chk : ApeChecker} {o : Output} (hchk : chk.Shows cv o)
    {passes : Nat} (hpasses : ss.length < passes) :
    ∃ chk', checkerLoop passes chk = some chk' ∧ chk'.Shows J (o.emitAll quarter ss) := by
  induction h generalizing chk o passes with
  | @done I hnone =>
      obtain ⟨hlo, hhi, hmid⟩ := Interval.offset_eq_none_iff.mp hnone
      obtain ⟨passes, rfl⟩ : ∃ m, passes = m + 1 := ⟨passes - 1, by omega⟩
      refine ⟨chk, ?_, hchk⟩
      rw [checkerLoop, hchk.low_eq, hchk.high_eq, if_neg (by omega), if_neg (by omega),
        if_neg (by omega)]
  | @step I J s ss hs hrest ih =>
      obtain ⟨passes, rfl⟩ : ∃ m, passes = m + 1 := ⟨passes - 1, by omega⟩
      rw [List.length_cons] at hpasses
      have hpasses' : ss.length < passes := Nat.lt_of_succ_lt_succ hpasses
      have hle := hcv.le
      have hpos : 0 < quarter := by decide
      rw [Output.emitAll_cons, checkerLoop, hchk.low_eq, hchk.high_eq]
      rcases Interval.offset_cases hs with ⟨rfl, hhi⟩ | ⟨rfl, hlo⟩ | ⟨rfl, hlo, hlo', hhi, hhi'⟩
      · rw [if_pos hhi]
        exact ih (hcv.expand hs) (hchk.put hcv hs (by decide)) hpasses'
      · rw [if_neg (by omega), if_pos hlo]
        exact ih (hcv.expand hs) (hchk.put hcv hs (by decide)) hpasses'
      · rw [if_neg (by omega), if_neg (by omega), if_pos ⟨hlo, hhi'⟩]
        exact ih (hcv.expand hs) (hchk.defer hcv hs) hpasses'

/-! ## The two passes -/

/-- **One pass.** Where `compose` fits its 64 bits, the encoder's reduction and
the checker's give the same. -/
theorem reducePass_eq {cv : Interval} (hcv : cv.Valid quarter) {npending : Nat}
    (hfits : nsame cv = 0 ∨ nsame cv + npending ≤ 64) :
    ∃ p, reducePass cv npending = some p ∧ checkerReduce npending cv = some p.toChecker ∧
      p.cv.Normal quarter := by
  obtain ⟨ss, J, hJ⟩ := Expands.exists hcv
  have hlen : ss.length < cvNBits + 1 := by
    rw [← nreduce_of_expands hcv hJ]
    exact Nat.lt_succ_of_le (countLeadingZeros_le _ _)
  have hstart : ApeChecker.Shows ⟨cv.lo, cv.hi, npending, 0, 0⟩ cv ⟨[], npending⟩ :=
    ⟨rfl, rfl, rfl, rfl, rfl⟩
  obtain ⟨chk, hrun, hlow, hhigh, hpending, hnbits, hbits⟩ :=
    checkerLoop_expands hJ hcv hstart hlen
  obtain ⟨hsame, hemit⟩ := emitAll_of_expands hcv hJ ⟨[], npending⟩
  have hmpending : mpending cv = ss.length - nsame cv := by
    have hcount := nreduce_of_expands hcv hJ
    have hlt : ss.length < 13 := hlen
    unfold mpending
    omega
  rw [hemit] at hpending hnbits hbits
  unfold reducePass checkerReduce
  rw [hrun, reduce_of_expands hcv hJ, hmpending]
  obtain ⟨low, high, pending', bits, nbits⟩ := chk
  dsimp only at hlow hhigh hpending hnbits hbits
  by_cases hzero : nsame cv = 0
  · rw [if_pos hzero] at hpending hnbits hbits
    rw [if_neg (not_not.mpr hzero), hzero, Nat.sub_zero]
    refine ⟨_, rfl, ?_, hJ.normal hcv⟩
    rw [hlow, hhigh, hpending, hnbits, hbits]
    rfl
  · rw [if_neg hzero] at hpending hnbits hbits
    obtain ⟨n, hn⟩ : ∃ n, nsame cv = n + 1 := ⟨nsame cv - 1, by omega⟩
    have hle : nsame cv ≤ 12 := countLeadingZeros_le _ _
    have hfits' : composeChecked (cv.lo >>> (12 - nsame cv)) (nsame cv) npending =
        some (compose (cv.lo >>> (12 - nsame cv)) (nsame cv) npending) := if_neg (by omega)
    have hlt : compose (cv.lo >>> (12 - nsame cv)) (nsame cv) npending <
        2 ^ (nsame cv + npending) := by
      have hlo : cv.lo < 2 ^ 12 := Nat.lt_of_le_of_lt hcv.le hcv.lt
      have hshift : cv.lo >>> (12 - nsame cv) < 2 ^ nsame cv := by
        rw [Nat.shiftRight_eq_div_pow]
        refine Nat.div_lt_of_lt_mul ?_
        rw [← Nat.pow_add, Nat.sub_add_cancel hle]
        exact hlo
      rw [hn] at hshift ⊢
      exact compose_lt hshift npending
    rw [if_pos hzero, hfits', Option.bind_eq_bind, Option.bind_some]
    refine ⟨_, rfl, ?_, hJ.normal hcv⟩
    rw [hlow, hhigh, hpending, hnbits, hbits, List.nil_append, ofBits_toBits, Nat.mod_eq_of_lt hlt,
      length_toBits]
    rfl

theorem fits_of_reducePass {cv : Interval} {npending : Nat} {p : ReducePass}
    (h : reducePass cv npending = some p) : nsame cv = 0 ∨ nsame cv + npending ≤ 64 := by
  by_contra hno
  rw [not_or] at hno
  have hnone : composeChecked (cv.lo >>> (12 - nsame cv)) (nsame cv) npending = none :=
    if_pos (by omega)
  rw [reducePass, if_pos hno.1, hnone] at h
  cases h

/-- Over a run in which no `compose` fails. -/
theorem checkerRun_eq {T : Nat → Nat} {n : Nat} (hT : Cumulative T n) {is : List Nat}
    (his : ∀ i ∈ is, Occupied T n i) {etx : Etx} (hcv : etx.cv.Normal quarter)
    {ps : List ReducePass} (hrun : passRun T etx is = some ps) :
    checkerRun T etx is = some (ps.map ReducePass.toChecker) := by
  induction is generalizing etx ps with
  | nil =>
      cases hrun
      rfl
  | cons i is ih =>
      have hi := his i (List.mem_cons_self ..)
      obtain ⟨hlt, hle⟩ := hT.codable hi
      have hvalid := Interval.narrow_valid hcv hlt hle
      rw [passRun, APECv.scale_eq_narrow hcv hlt (hT.lt_quarter hi.1)] at hrun
      rw [checkerRun, APECv.scale_eq_narrow hcv hlt (hT.lt_quarter hi.1)]
      obtain ⟨p, hp, hrun⟩ := Option.bind_eq_some_iff.mp hrun
      obtain ⟨ps', hps, heq⟩ := Option.bind_eq_some_iff.mp hrun
      cases heq
      obtain ⟨p', hp', hchk, hnormal⟩ := reducePass_eq hvalid (fits_of_reducePass hp)
      obtain rfl : p' = p := Option.some.inj (hp'.symm.trans hp)
      have hrest := ih (fun j hj => his j (List.mem_cons_of_mem _ hj)) hnormal hps
      rw [hchk, Option.bind_eq_bind, Option.bind_some]
      change Option.bind (checkerRun T ⟨p'.cv, p'.npending⟩ is) _ = _
      rw [hrest]
      rfl

/-- **Agreement.** On all limits, and over whole runs of symbols: as long as no
`compose` fails its assertion, the plain reduction, going on with its own
results, gives the same limits, pending counts and bits. -/
theorem checker_agrees :
    (∀ cv : Interval, cv.lo ≤ cv.hi → cv.hi < 2 ^ 12 → ∀ npending,
      nsame cv = 0 ∨ nsame cv + npending ≤ 64 →
      ∃ p, reducePass cv npending = some p ∧ checkerReduce npending cv = some p.toChecker) ∧
    ∀ (T : Nat → Nat) (n : Nat), Cumulative T n → ∀ is, (∀ i ∈ is, Occupied T n i) →
      ∀ ps, passRun T apeStart is = some ps →
        checkerRun T apeStart is = some (ps.map ReducePass.toChecker) := by
  refine ⟨fun cv hle hlt npending hfits => ?_, fun T n hT is his => ?_⟩
  · obtain ⟨p, hp, hchk, _⟩ := reducePass_eq ⟨hle, hlt⟩ hfits
    exact ⟨p, hp, hchk⟩
  · exact fun ps hps => checkerRun_eq hT his apeStart_normal hps

theorem checker_agrees_middle : ∃ p, reducePass ⟨1500, 2500⟩ 3 = some p ∧
    checkerReduce 3 ⟨1500, 2500⟩ = some p.toChecker :=
  checker_agrees.1 ⟨1500, 2500⟩ (by decide) (by decide) 3 (.inl (by decide))

end ProtoDune.Firmware
