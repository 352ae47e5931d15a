import ProtoDune.Firmware.ApdDecode

/-!
# The limits of the coder and of the decoder

Both sides keep a code interval. The encoder computes it in fields of 10 to 24 bits and
reduces it at once, the decoder in 16 and 32 bits and bit by bit.

Main results:

* `expandLoop_limits` — the loop of the decoder leaves the reduced limits, whatever it
  reads.
* `apdDecodes_limits` — a decoder that finds the symbols of an encoder has its limits.
* `coder_limits` — what holds before every scaling step, and of the step.
-/

namespace ProtoDune.Firmware

open BitString ArithCoder

/-! ## The decoder, once it has found a symbol -/

/-- `range`, as the decoder computes it. -/
def Dtx.range (dtx : Dtx) : Nat := (sub16 dtx.hi dtx.lo + 1) % 2 ^ 16

/-- `scale_hi` and `scale_lo` for the symbol found. -/
def Dtx.scale (table : Nat → Nat) (dtx : Dtx) (symbol : Nat) : Dtx :=
  { dtx with
    lo := APDCv.scaleLo dtx.lo dtx.range (table symbol)
    hi := APDCv.scaleHi dtx.lo dtx.range (table (symbol + 1)) }

/-- `apd_decode` after the search: narrow the limits, then the loop. -/
def apdNarrow (mem : Memory) (table : Nat → Nat) (dtx : Dtx) (symbol : Nat) : Option Dtx :=
  expandLoop mem (cvNBits + 1) (dtx.scale (fun i => table (i + 1)) symbol)

/-- That is what `apd_decode` does. -/
theorem apdNarrow_of_apdDecode {mem : Memory} {table : Nat → Nat} {dtx dtx' : Dtx} {symbol : Nat}
    (h : apdDecode mem table dtx = some (symbol, dtx')) :
    apdNarrow mem table dtx symbol = some dtx' := by
  unfold apdDecode at h
  dsimp only at h
  obtain ⟨found, -, h⟩ := Option.bind_eq_some_iff.mp h
  obtain ⟨dtx₁, hloop, h⟩ := Option.bind_eq_some_iff.mp h
  obtain ⟨rfl, rfl⟩ := Prod.mk.inj (Option.some.inj h)
  exact hloop

/-- The decoder has the limits of the interval. -/
structure Dtx.Has (dtx : Dtx) (cv : Interval) : Prop where
  lo : dtx.lo = cv.lo
  hi : dtx.hi = cv.hi

section Limits

variable {mem : Memory} {cv J : Interval} {dtx : Dtx}

theorem Dtx.Has.range_eq (h : dtx.Has cv) (hcv : cv.Valid quarter) : dtx.range = cv.range := by
  have hle := hcv.le
  have hlt : cv.hi < 4096 := hcv.lt
  unfold Dtx.range Interval.range
  rw [h.lo, h.hi, sub16_eq hle (by omega)]
  omega

/-- Reading a bit leaves the limits alone. -/
theorem Dtx.Has.addInputBit (h : dtx.Has cv) : (addInputBit mem dtx).Has cv := ⟨h.lo, h.hi⟩

theorem Dtx.Has.shift (h : dtx.Has cv) (hcv : cv.Valid quarter) {s : Nat}
    (hs : cv.offset quarter = some s) : (dtx.shift s).Has (cv.expand s) := by
  obtain ⟨hlo, hhi⟩ := shift_limits hcv hs h.lo h.hi
  exact ⟨hlo, hhi⟩

/-- **The loop** takes the expansions of its limits, whatever it reads. -/
theorem expandLoop_limits {ss : List Nat} (hss : Expands quarter cv ss J)
    (hcv : cv.Valid quarter) (h : dtx.Has cv) {passes : Nat} (hpasses : ss.length < passes) :
    ∃ dtx', expandLoop mem passes dtx = some dtx' ∧ dtx'.Has J := by
  induction hss generalizing dtx passes with
  | @done I hnone =>
      obtain ⟨hlo, hhi, hmid⟩ := Interval.offset_eq_none_iff.mp hnone
      obtain ⟨passes, rfl⟩ := Nat.exists_eq_add_of_lt hpasses
      refine ⟨dtx, ?_, h⟩
      rw [expandLoop, h.lo, h.hi, if_neg (by omega), if_neg (by omega), if_neg (by omega)]
  | @step I J s ss hs hrest ih =>
      obtain ⟨passes, rfl⟩ := Nat.exists_eq_succ_of_ne_zero (Nat.ne_of_gt (Nat.zero_lt_of_lt hpasses))
      rw [List.length_cons] at hpasses
      obtain ⟨dtx', hloop, hJ⟩ := ih (hcv.expand hs) (h.shift hcv hs).addInputBit
        (Nat.lt_of_succ_lt_succ hpasses)
      refine ⟨dtx', ?_, hJ⟩
      rw [expandLoop, h.lo, h.hi]
      rcases Interval.offset_cases hs with ⟨rfl, hhi⟩ | ⟨rfl, hlo⟩ | ⟨rfl, hlo, hlo', hhi, hhi'⟩
      · rw [if_pos hhi]
        exact hloop
      · have hle := hcv.le
        rw [if_neg (by omega), if_pos hlo]
        exact hloop
      · rw [if_neg (by omega), if_neg (by omega), if_pos ⟨hlo, hhi'⟩]
        exact hloop

/-- `apd_start` sets the widest limits. -/
theorem apdStart_has (mem : Memory) (src boff : Nat) :
    (apdStart mem src boff).Has apeStart.cv := by
  have hsteps : ∀ (n : Nat) (dtx : Dtx), dtx.Has apeStart.cv →
      (Nat.repeat (addInputBit mem) n dtx).Has apeStart.cv := by
    intro n dtx h
    induction n with
    | zero => exact h
    | succ n ih => exact ih.addInputBit
  unfold apdStart
  exact hsteps cvNBits _ ⟨rfl, rfl⟩

end Limits

/-! ## One symbol -/

section Symbol

variable {T : Nat → Nat} {n i : Nat}

/-- The arithmetic of `scale` for symbol `i`: its fields lose nothing. -/
structure ScaleExact (T : Nat → Nat) (cv : Interval) (i : Nat) : Prop where
  /-- 13 bits hold the range, and 24 bits the sums -/
  range : (cv.hi + 2 ^ 13 - cv.lo + 1) % 2 ^ 13 = cv.hi - cv.lo + 1
  sumLo : (cv.hi - cv.lo + 1) * T i + cv.lo <<< normNBits % 2 ^ 22 < 2 ^ 24
  sumHi : (cv.hi - cv.lo + 1) * T (i + 1)
    + ((cv.lo + 2 ^ 22 - 1) % 2 ^ 22) <<< normNBits % 2 ^ 22 < 2 ^ 24
  /-- the results are those of unbounded numbers -/
  lo : (APECv.scale cv (T i) (T (i + 1))).lo
    = cv.lo + (cv.hi - cv.lo + 1) * T i / 2 ^ normNBits
  hi : (APECv.scale cv (T i) (T (i + 1))).hi + 1
    = cv.lo + (cv.hi - cv.lo + 1) * T (i + 1) / 2 ^ normNBits

theorem scaleExact {cv : Interval} (hcv : cv.Normal quarter) (hT : Cumulative T n)
    (hi : Occupied T n i) : ScaleExact T cv i := by
  have hle := hcv.le
  have hlt : cv.hi < 4096 := hcv.lt
  have hnarrow := APECv.scale_eq_narrow hcv hi.2 (hT.lt_quarter hi.1)
  have hrange : cv.hi - cv.lo + 1 ≤ 4096 := by omega
  have hproduct : ∀ j ≤ n, (cv.hi - cv.lo + 1) * T j ≤ 4096 * 1024 := fun j hj =>
    Nat.mul_le_mul hrange (Nat.le_of_lt (hT.lt_quarter hj))
  have hlow := hproduct i (Nat.le_of_lt hi.1)
  have hhigh := hproduct (i + 1) hi.1
  have hpos := Nat.pos_of_ne_zero (Nat.ne_zero_of_lt (Interval.slice_lt hcv hi.2))
  constructor
  · omega
  · have hxlo : cv.lo <<< normNBits % 2 ^ 22 < 2 ^ 22 := Nat.mod_lt _ (Nat.two_pow_pos 22)
    omega
  · have hxlo : ((cv.lo + 2 ^ 22 - 1) % 2 ^ 22) <<< normNBits % 2 ^ 22 < 2 ^ 22 :=
      Nat.mod_lt _ (Nat.two_pow_pos 22)
    omega
  · rw [hnarrow]
    rfl
  · rw [hnarrow]
    change cv.lo + cv.range * T (i + 1) / 2 ^ normNBits - 1 + 1
      = cv.lo + cv.range * T (i + 1) / 2 ^ normNBits
    omega

/-- **One symbol.** The decoder narrows and reduces its limits to those of the encoder,
whatever its value and whatever it reads. -/
theorem apdNarrow_has {mem : Memory} {dtx : Dtx} {etx : Etx} (hT : Cumulative T n)
    (hi : Occupied T n i) (hcv : etx.cv.Normal quarter) (h : dtx.Has etx.cv) :
    (dtx.scale T i).Has (APECv.scale etx.cv (T i) (T (i + 1))) ∧
      ∃ dtx', apdNarrow mem (apdTable n T) dtx i = some dtx' ∧
        dtx'.Has (encodeSym T etx i).1.cv := by
  obtain ⟨hlt, hle⟩ := hT.codable hi
  have hvalid := Interval.narrow_valid hcv hlt hle
  obtain ⟨hlo, hhi⟩ := apdScale_eq_narrow hcv hlt (hT.lt_quarter hi.1)
  have hscaled : (dtx.scale T i).Has (etx.cv.narrow normNBits T i) := by
    unfold Dtx.scale
    rw [h.range_eq hcv.toValid, h.lo]
    exact ⟨hlo, hhi⟩
  obtain ⟨ss, hss, -⟩ := encodeSym_expands hT hcv hi
  have htable : (fun k => apdTable n T (k + 1)) = T :=
    funext fun k => if_neg (Nat.succ_ne_zero k)
  refine ⟨?_, ?_⟩
  · rw [APECv.scale_eq_narrow hcv hlt (hT.lt_quarter hi.1)]
    exact hscaled
  · unfold apdNarrow
    rw [htable]
    exact expandLoop_limits hss hvalid hscaled (passes_of_expands hss hvalid)

end Symbol

/-! ## The run -/

section Run

variable {T : Nat → Nat} {n : Nat}

/-- A decoder that finds the symbols of an encoder has its limits. -/
theorem apdDecodes_limits (hT : Cumulative T n) {mem : Memory} (calls : Nat) :
    ∀ {dtx dtx' : Dtx} {etx : Etx} {symbols : List Nat}, etx.cv.Normal quarter →
      dtx.Has etx.cv → apdDecodes mem (apdTable n T) calls dtx = some (symbols, dtx') →
      (∀ i ∈ symbols, Occupied T n i) → dtx'.Has (encodeSyms T etx symbols).1.cv := by
  induction calls with
  | zero =>
      intro dtx dtx' etx symbols _ h hrun _
      obtain ⟨rfl, rfl⟩ := Prod.mk.inj (Option.some.inj hrun)
      exact h
  | succ calls ih =>
      intro dtx dtx' etx symbols hcv h hrun hsymbols
      rw [apdDecodes] at hrun
      obtain ⟨⟨symbol, dtx₁⟩, hfirst, hrun⟩ := Option.bind_eq_some_iff.mp hrun
      obtain ⟨⟨rest, dtx₂⟩, hrest, hrun⟩ := Option.bind_eq_some_iff.mp hrun
      obtain ⟨rfl, rfl⟩ := Prod.mk.inj (Option.some.inj hrun)
      have hi := hsymbols symbol List.mem_cons_self
      obtain ⟨-, dtx₃, hnarrow, h₁⟩ := apdNarrow_has hT hi hcv h
      rw [apdNarrow_of_apdDecode hfirst] at hnarrow
      obtain rfl := Option.some.inj hnarrow
      obtain ⟨ss, hss, -⟩ := encodeSym_expands hT hcv hi
      obtain ⟨hlt, hle⟩ := hT.codable hi
      have hcv₁ := hss.normal (Interval.narrow_valid hcv hlt hle)
      have hlast := ih hcv₁ h₁ hrest fun j hj => hsymbols j (List.mem_cons_of_mem _ hj)
      exact hlast

/-- What holds before a scaling step, when the symbols `is` were encoded. -/
structure CoderLimits (T : Nat → Nat) (n : Nat) (is : List Nat) (etx : Etx) : Prop where
  /-- the limits straddle the half, and are not both in the middle -/
  straddle : etx.cv.lo < 2048 ∧ 2048 ≤ etx.cv.hi ∧ etx.cv.hi < 4096
  notMiddle : ¬(1024 ≤ etx.cv.lo ∧ etx.cv.hi < 3072)
  range : 1026 ≤ etx.cv.hi - etx.cv.lo + 1 ∧ etx.cv.hi - etx.cv.lo + 1 ≤ 4096
  /-- the step, for any symbol -/
  inside : ∀ i, Occupied T n i →
    etx.cv.lo ≤ (APECv.scale etx.cv (T i) (T (i + 1))).lo ∧
    (APECv.scale etx.cv (T i) (T (i + 1))).lo ≤ (APECv.scale etx.cv (T i) (T (i + 1))).hi ∧
    (APECv.scale etx.cv (T i) (T (i + 1))).hi ≤ etx.cv.hi
  disjoint : ∀ i j, Occupied T n i → Occupied T n j → i < j →
    (APECv.scale etx.cv (T i) (T (i + 1))).hi < (APECv.scale etx.cv (T j) (T (j + 1))).lo
  exact : ∀ i, Occupied T n i → ScaleExact T etx.cv i
  /-- the decoder has the limits of the encoder, after these symbols, … -/
  decoded : ∀ (mem : Memory) (src boff : Nat) (dtx : Dtx),
    apdDecodes mem (apdTable n T) is.length (apdStart mem src boff) = some (is, dtx) →
    dtx.Has etx.cv
  /-- … when it has scaled them, and after the next one -/
  next : ∀ (mem : Memory) (dtx : Dtx) (i : Nat), dtx.Has etx.cv → Occupied T n i →
    (dtx.scale T i).Has (APECv.scale etx.cv (T i) (T (i + 1))) ∧
    ∃ dtx', apdNarrow mem (apdTable n T) dtx i = some dtx' ∧
      dtx'.Has (encodeSym T etx i).1.cv

/-- **The limits of the coder.** For every table and every sequence of symbols that occur,
before each scaling step the limits are wide, the step is exact and stays inside, and the
decoder computes the same limits. -/
theorem coder_limits (hT : Cumulative T n) {is : List Nat} (his : ∀ i ∈ is, Occupied T n i) :
    CoderLimits T n is (encodeSyms T apeStart is).1 := by
  obtain ⟨ss, hss, -⟩ := encodeSyms_encodes hT his apeStart_normal
  have hcv := hss.normal apeStart_normal fun i hi => hT.codable (his i hi)
  obtain ⟨hlo, hhi, hmid⟩ := Interval.offset_eq_none_iff.mp hcv.offset_eq
  have hscale : ∀ i, Occupied T n i →
      APECv.scale (encodeSyms T apeStart is).1.cv (T i) (T (i + 1))
        = (encodeSyms T apeStart is).1.cv.narrow normNBits T i := fun i hi =>
    APECv.scale_eq_narrow hcv hi.2 (hT.lt_quarter hi.1)
  constructor
  · exact ⟨hlo, hhi, hcv.lt⟩
  · change _ < 1024 ∨ 3072 ≤ _ at hmid
    omega
  · exact ⟨hcv.add_two_le_range, hcv.toValid.range_le⟩
  · intro i hi
    rw [hscale i hi]
    exact Interval.narrow_bounds hcv hi.2 (Nat.le_of_lt (hT.lt_quarter hi.1))
  · intro i j hi hj hij
    rw [hscale i hi, hscale j hj]
    exact Interval.narrow_disjoint hcv hi.2 (hT.mono hij (Nat.le_of_lt hj.1))
  · exact fun i hi => scaleExact hcv hT hi
  · intro mem src boff dtx hrun
    exact apdDecodes_limits hT is.length apeStart_normal (apdStart_has mem src boff) hrun his
  · exact fun mem dtx i h hi => apdNarrow_has hT hi hcv h

theorem coder_limits_threeBins :
    CoderLimits threeBins 3 [1, 0, 2] (encodeSyms threeBins apeStart [1, 0, 2]).1 :=
  coder_limits threeBins_cumulative (by decide)

end Run

end ProtoDune.Firmware
