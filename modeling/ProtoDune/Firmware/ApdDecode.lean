import ProtoDune.Firmware.ApeEncode

/-!
# `apdtemplate.h`, `AP-Decode.cpp`: the arithmetic decoder

The decoder reads 64-bit words, most significant bit first. It keeps the limits
of the encoder and the next 12 bits of the stream, less what the expansions
subtracted.

Main results:

* `addInputBit_tracks`, `expandLoop_expands` — one bit, and one run of the loop.
* `lookupBot_eq` — the linear search finds the bin of a cumulative value.
* `apd_decodes_ape` — the decoder gives back what the encoder took.
-/

namespace ProtoDune.Firmware

open BitString ArithCoder

/-- The 64-bit words of memory, by address over 8. -/
abbrev Memory := Nat → Nat

/-- `load`. -/
def load (mem : Memory) (address : Nat) : Nat := mem (address / 8)

/-- Bit `k` of memory, in the order of the decoder. -/
def bitAt (mem : Memory) (k : Nat) : Bool := (mem (k / 64)).testBit (63 - k % 64)

/-- Memory holds a bit string from bit `k` on. -/
def Holds (mem : Memory) (k : Nat) (bits : List Bool) : Prop :=
  ∀ i (hi : i < bits.length), bitAt mem (k + i) = bits[i]

instance (mem : Memory) (k : Nat) (bits : List Bool) : Decidable (Holds mem k bits) :=
  inferInstanceAs (Decidable (∀ i (hi : i < bits.length), bitAt mem (k + i) = bits[i]))

/-- `APD_dtx`; `beg` and `cur` are addresses. -/
structure Dtx where
  lo : Nat
  hi : Nat
  value : Nat
  buffer : Nat
  togo : Nat
  beg : Nat
  cur : Nat
  bbeg : Nat

/-- `add_input_bit`. -/
def addInputBit (mem : Memory) (dtx : Dtx) : Dtx :=
  let (buffer, cur, togo) :=
    if dtx.togo = 0 then (load mem dtx.cur, dtx.cur + 8, 64 - 1)
    else (dtx.buffer, dtx.cur, dtx.togo - 1)
  { dtx with
    value := (dtx.value <<< 1 % 2 ^ 16 ||| buffer >>> togo % 2) &&& cvHi
    buffer := buffer
    cur := cur
    togo := togo }

/-- `apd_start`. -/
def apdStart (mem : Memory) (src boff : Nat) : Dtx :=
  -- the misalignment of the source goes into the offset unscaled
  let boff := boff + src % 8
  let beg := src / 8 * 8 + boff / 64 * 8
  let boff := boff % 64
  let dtx : Dtx :=
    { lo := 0, hi := cvHi, value := 0, buffer := load mem beg, togo := 64 - boff
      beg := beg, cur := beg + 8, bbeg := boff }
  Nat.repeat (addInputBit mem) cvNBits dtx

namespace APDCv

/-- `scale_m1`; the division is one of `int`. -/
def scaleM1 (num den : Nat) : Nat :=
  ((((num <<< normNBits : Nat) : Int) - 1).tdiv den % 2 ^ 16).toNat

/-- `scale_hi`, in the widths of `APD_scaled_t` and `APD_cv_t`. -/
def scaleHi (lo range value : Nat) : Nat :=
  let xlo := ((lo + 2 ^ 32 - 1) % 2 ^ 32) <<< normNBits % 2 ^ 32
  ((range * value + xlo) % 2 ^ 32) >>> normNBits % 2 ^ 16

/-- `scale_lo`. -/
def scaleLo (lo range value : Nat) : Nat :=
  let xlo := lo <<< normNBits % 2 ^ 32
  ((range * value + xlo) % 2 ^ 32) >>> normNBits % 2 ^ 16

end APDCv

/-- The search of `lookup_bot`, from `p` on; `none` when it leaves the table. -/
def lookupFrom (cum : Nat) (table : Nat → Nat) : Nat → Nat → Option Nat
  | 0, _ => none
  | left + 1, p => if cum < table p then some (p - 1) else lookupFrom cum table left (p + 1)

/-- `lookup_bot`. -/
def lookupBot (cum : Nat) (table : Nat → Nat) (cnt : Nat) : Option Nat :=
  if table cnt ≤ cum then some cnt else lookupFrom cum table cnt 1

/-- Subtraction of `uint16_t`. -/
def sub16 (x y : Nat) : Nat := (x + 2 ^ 16 - y) % 2 ^ 16

/-- Subtract `s` from value and limits, and scale the limits up. -/
def Dtx.shift (dtx : Dtx) (s : Nat) : Dtx :=
  { dtx with
    value := sub16 dtx.value s
    lo := sub16 dtx.lo s <<< 1 % 2 ^ 16 &&& cvHi
    hi := (sub16 dtx.hi s <<< 1 % 2 ^ 16 ||| 1) &&& cvHi }

/-- The loop of `apd_decode`, for a number of passes. -/
def expandLoop (mem : Memory) : Nat → Dtx → Option Dtx
  | 0, _ => none
  | passes + 1, dtx =>
      if dtx.hi < 2 * quarter then
        expandLoop mem passes (addInputBit mem (dtx.shift 0))
      else if 2 * quarter ≤ dtx.lo then
        expandLoop mem passes (addInputBit mem (dtx.shift (2 * quarter)))
      else if quarter ≤ dtx.lo ∧ dtx.hi < 3 * quarter then
        expandLoop mem passes (addInputBit mem (dtx.shift quarter))
      else some dtx

/-- `apd_decode`; `table 0` is the number of bins, the cumulative counts follow.
The loop runs at most `APC_K_NBITS + 1` passes before it is given up. -/
def apdDecode (mem : Memory) (table : Nat → Nat) (dtx : Dtx) : Option (Nat × Dtx) := do
  let cnt := table 0 - 1
  let range := (sub16 dtx.hi dtx.lo + 1) % 2 ^ 16
  let cum := APDCv.scaleM1 ((sub16 dtx.value dtx.lo + 1) % 2 ^ 16) range
  let table := fun i => table (i + 1)
  let symbol ← lookupBot cum table cnt
  let hi := APDCv.scaleHi dtx.lo range (table (symbol + 1))
  let lo := APDCv.scaleLo dtx.lo range (table symbol)
  let dtx ← expandLoop mem (cvNBits + 1) { dtx with lo := lo, hi := hi }
  return (symbol, dtx)

/-- `n` calls of `apd_decode`. -/
def apdDecodes (mem : Memory) (table : Nat → Nat) : Nat → Dtx → Option (List Nat × Dtx)
  | 0, dtx => some ([], dtx)
  | n + 1, dtx => do
      let (symbol, dtx) ← apdDecode mem table dtx
      let (symbols, dtx) ← apdDecodes mem table n dtx
      return (symbol :: symbols, dtx)

/-- `APD_finish`. -/
def apdFinish (dtx : Dtx) : Int :=
  8 * ((dtx.cur : Int) - dtx.beg) - dtx.togo - cvNBits - dtx.bbeg + 1 + 1

/-- The table of the decoder for `n` bins. -/
def apdTable (n : Nat) (T : Nat → Nat) (k : Nat) : Nat := if k = 0 then n else T (k - 1)

/-! ## Reading bits -/

/-- `n` bits were read from bit `start` on. -/
structure ReadUpTo (mem : Memory) (start : Nat) (dtx : Dtx) (n : Nat) : Prop where
  start_eq : start = 8 * dtx.beg + dtx.bbeg
  aligned : dtx.cur % 8 = 0
  pos : 8 ≤ dtx.cur
  buffer_eq : dtx.buffer = mem (dtx.cur / 8 - 1)
  togo_le : dtx.togo ≤ 64
  upTo : start + n + dtx.togo = 8 * dtx.cur

/-- The stream of bits from `start` on. -/
def streamAt (mem : Memory) (start : Nat) (i : Nat) : Bool := bitAt mem (start + i)

theorem ReadUpTo.addInputBit {mem : Memory} {start n : Nat} {dtx : Dtx}
    (h : ReadUpTo mem start dtx n) : ReadUpTo mem start (addInputBit mem dtx) (n + 1) := by
  obtain ⟨hstart, haligned, hpos, hbuffer, htogo, hupTo⟩ := h
  unfold ProtoDune.Firmware.addInputBit
  by_cases hzero : dtx.togo = 0
  · simp only [if_pos hzero]
    refine ⟨hstart, ?_, ?_, ?_, ?_, ?_⟩
    · show (dtx.cur + 8) % 8 = 0
      omega
    · show 8 ≤ dtx.cur + 8
      omega
    · show load mem dtx.cur = mem ((dtx.cur + 8) / 8 - 1)
      rw [load]
      congr 1
      omega
    · show 64 - 1 ≤ 64
      omega
    · show start + (n + 1) + (64 - 1) = 8 * (dtx.cur + 8)
      omega
  · simp only [if_neg hzero]
    refine ⟨hstart, haligned, hpos, hbuffer, ?_, ?_⟩
    · show dtx.togo - 1 ≤ 64
      omega
    · show start + (n + 1) + (dtx.togo - 1) = 8 * dtx.cur
      omega

theorem and_cvHi (x : Nat) : x &&& cvHi = x % 2 ^ 12 :=
  Nat.and_two_pow_sub_one_eq_mod x 12

/-- Shifting a bit into a 12-bit value. -/
theorem shiftBit_eq {x b : Nat} (hx : x < 2 ^ 12) (hb : b < 2) :
    ((x <<< 1 % 2 ^ 16 ||| b) &&& cvHi) = (2 * x + b) % 2 ^ 12 := by
  have hor := Nat.two_pow_add_eq_or_of_lt (show b < 2 ^ 1 from hb) x
  rw [Nat.pow_one] at hor
  rw [and_cvHi, Nat.shiftLeft_eq, Nat.pow_one, Nat.mod_eq_of_lt (show x * 2 < 2 ^ 16 by omega),
    Nat.mul_comm, ← hor]

/-- The bit read is the next one of the stream. -/
theorem ReadUpTo.value_addInputBit {mem : Memory} {start n : Nat} {dtx : Dtx}
    (h : ReadUpTo mem start dtx n) (hvalue : dtx.value < 2 ^ 12) :
    (ProtoDune.Firmware.addInputBit mem dtx).value =
      (2 * dtx.value + (streamAt mem start n).toNat) % 2 ^ 12 := by
  obtain ⟨_, haligned, hpos, hbuffer, htogo, hupTo⟩ := h
  have hbit : ∀ word togo, word.testBit togo = streamAt mem start n →
      ((dtx.value <<< 1 % 2 ^ 16 ||| word >>> togo % 2) &&& cvHi) =
        (2 * dtx.value + (streamAt mem start n).toNat) % 2 ^ 12 := by
    intro word togo hword
    rw [Nat.shiftRight_eq_div_pow, ← Nat.toNat_testBit, hword]
    exact shiftBit_eq hvalue (Bool.toNat_lt _)
  unfold ProtoDune.Firmware.addInputBit
  by_cases hzero : dtx.togo = 0
  · simp only [if_pos hzero]
    refine hbit _ _ ?_
    have hword : (start + n) / 64 = dtx.cur / 8 := by omega
    have hplace : 63 - (start + n) % 64 = 64 - 1 := by omega
    rw [streamAt, bitAt, hword, hplace, load]
  · simp only [if_neg hzero]
    refine hbit _ _ ?_
    have hword : (start + n) / 64 = dtx.cur / 8 - 1 := by omega
    have hplace : 63 - (start + n) % 64 = dtx.togo - 1 := by omega
    rw [streamAt, bitAt, hword, hplace, hbuffer]

/-- The decoder follows the encoder: it has the limits `cv`, and the number
read from `n` bits less `c`. -/
structure Tracks (mem : Memory) (start : Nat) (dtx : Dtx) (n c : Nat) (cv : Interval) : Prop
    extends ReadUpTo mem start dtx n where
  lo_eq : dtx.lo = cv.lo
  hi_eq : dtx.hi = cv.hi
  value_eq : c + dtx.value = read (streamAt mem start) n

theorem read_lt (b : Nat → Bool) (n : Nat) : read b n < 2 ^ n := by
  induction n with
  | zero => exact Nat.one_pos
  | succ n ih =>
      have hbit := Bool.toNat_lt (b n)
      rw [read_succ, Nat.pow_succ]
      omega

/-- The decoder starts with the first 12 bits. -/
theorem apdStart_tracks (mem : Memory) {src : Nat} (hsrc : src % 8 = 0) (boff : Nat) :
    Tracks mem (8 * src + boff) (apdStart mem src boff) 12 0 ⟨0, cvHi⟩ := by
  have hsteps : ∀ n ≤ 12, ∀ dtx : Dtx, ReadUpTo mem (8 * src + boff) dtx 0 → dtx.value = 0 →
      ReadUpTo mem (8 * src + boff) (Nat.repeat (addInputBit mem) n dtx) n ∧
        (Nat.repeat (addInputBit mem) n dtx).lo = dtx.lo ∧
        (Nat.repeat (addInputBit mem) n dtx).hi = dtx.hi ∧
        (Nat.repeat (addInputBit mem) n dtx).value =
          read (streamAt mem (8 * src + boff)) n := by
    intro n hn dtx hdtx hzero
    induction n with
    | zero => exact ⟨hdtx, rfl, rfl, hzero⟩
    | succ n ih =>
        obtain ⟨hread, hlo, hhi, hvalue⟩ := ih (by omega)
        have hpow : 2 ^ (n + 1) ≤ 2 ^ 12 := Nat.pow_le_pow_right (by decide) hn
        have hlt := read_lt (streamAt mem (8 * src + boff)) (n + 1)
        have hlt' := read_lt (streamAt mem (8 * src + boff)) n
        have hle : 2 ^ n ≤ 2 ^ 12 := Nat.pow_le_pow_right (by decide) (by omega)
        refine ⟨hread.addInputBit, hlo, hhi, ?_⟩
        show (addInputBit mem (Nat.repeat (addInputBit mem) n dtx)).value = _
        rw [hread.value_addInputBit (by omega), hvalue, ← read_succ]
        exact Nat.mod_eq_of_lt (by omega)
  unfold apdStart
  dsimp only
  rw [hsrc, Nat.add_zero]
  obtain ⟨hread, hlo, hhi, hvalue⟩ := hsteps 12 (Nat.le_refl _)
    { lo := 0, hi := cvHi, value := 0, buffer := load mem (src / 8 * 8 + boff / 64 * 8)
      togo := 64 - boff % 64, beg := src / 8 * 8 + boff / 64 * 8
      cur := src / 8 * 8 + boff / 64 * 8 + 8, bbeg := boff % 64 }
    ⟨by dsimp only; omega, by dsimp only; omega, by dsimp only; omega,
      by dsimp only [load]; congr 1; omega, by dsimp only; omega, by dsimp only; omega⟩ rfl
  exact ⟨hread, hlo, hhi, by rw [Nat.zero_add]; exact hvalue⟩

/-! ## The loop of `apd_decode` -/

theorem sub16_eq {x s : Nat} (hle : s ≤ x) (hx : x < 2 ^ 16) : sub16 x s = x - s := by
  unfold sub16
  omega

/-- The limits after one pass of the loop. -/
theorem shift_limits {dtx : Dtx} {cv : Interval} {s : Nat} (hcv : cv.Valid quarter)
    (hs : cv.offset quarter = some s) (hlo : dtx.lo = cv.lo) (hhi : dtx.hi = cv.hi) :
    (dtx.shift s).lo = (cv.expand s).lo ∧ (dtx.shift s).hi = (cv.expand s).hi := by
  have hle := hcv.le
  have hlt : cv.hi < 4096 := hcv.lt
  have hoff := Interval.offset_le_lo hs
  have hle' := (hcv.expand hs).le
  have hlt' : (cv.expand s).hi < 4096 := (hcv.expand hs).lt
  change 2 * (cv.lo - s) ≤ 2 * (cv.hi - s) + 1 at hle'
  change 2 * (cv.hi - s) + 1 < 4096 at hlt'
  constructor
  · show sub16 dtx.lo s <<< 1 % 2 ^ 16 &&& cvHi = 2 * (cv.lo - s)
    rw [hlo, sub16_eq hoff (by omega), and_cvHi, Nat.shiftLeft_eq]
    omega
  · show (sub16 dtx.hi s <<< 1 % 2 ^ 16 ||| 1) &&& cvHi = 2 * (cv.hi - s) + 1
    rw [hhi, sub16_eq (Nat.le_trans hoff hle) (by omega), shiftBit_eq (by omega) (by decide)]
    omega

/-- One pass of the loop is one expansion. -/
theorem Tracks.shift {mem : Memory} {start n c s : Nat} {dtx : Dtx} {cv : Interval}
    (h : Tracks mem start dtx n c cv) (hcv : cv.Valid quarter)
    (hs : cv.offset quarter = some s) (hin : Contains (streamAt mem start) n c cv) :
    Tracks mem start (addInputBit mem (dtx.shift s)) (n + 1) (2 * (c + s)) (cv.expand s) := by
  obtain ⟨hread, hlo, hhi, hvalue⟩ := h
  obtain ⟨hlo', hhi'⟩ := shift_limits hcv hs hlo hhi
  obtain ⟨hge, hle⟩ := hin
  have hlt : cv.hi < 4096 := hcv.lt
  have hoff := Interval.offset_le_lo hs
  have hlt' : (cv.expand s).hi < 4096 := (hcv.expand hs).lt
  change 2 * (cv.hi - s) + 1 < 4096 at hlt'
  have hbit := Bool.toNat_lt (streamAt mem start n)
  have hread' : ReadUpTo mem start (dtx.shift s) n :=
    ⟨hread.start_eq, hread.aligned, hread.pos, hread.buffer_eq, hread.togo_le, hread.upTo⟩
  have hshift : (dtx.shift s).value = dtx.value - s := sub16_eq (by omega) (by omega)
  refine ⟨hread'.addInputBit, hlo', hhi', ?_⟩
  rw [hread'.value_addInputBit (by omega), hshift, read_succ]
  omega

/-- The passes the loop is given are enough. -/
theorem passes_of_expands {cv J : Interval} {ss : List Nat} (h : Expands quarter cv ss J)
    (hcv : cv.Valid quarter) : ss.length < cvNBits + 1 := by
  have hpow := h.two_pow_length_le hcv
  have hpos : 1 ≤ cv.range := Nat.succ_pos _
  have hquarter : 4 * quarter = 2 ^ cvNBits := by decide
  have hpow' : 2 ^ ss.length ≤ 2 ^ cvNBits := by
    rw [← hquarter]
    exact Nat.le_trans (Nat.le_mul_of_pos_right _ hpos) hpow
  exact Nat.lt_succ_of_le ((Nat.pow_le_pow_iff_right Nat.one_lt_two).mp hpow')

/-- The loop takes the expansions of its limits and stops. -/
theorem expandLoop_expands {mem : Memory} {start : Nat} {cv J : Interval} {ss : List Nat}
    (h : Expands quarter cv ss J) (hcv : cv.Valid quarter) {n c : Nat} {dtx : Dtx}
    (hdtx : Tracks mem start dtx n c cv)
    (hin : Contains (streamAt mem start) (n + ss.length) (shifted c ss) J) {passes : Nat}
    (hpasses : ss.length < passes) :
    ∃ dtx', expandLoop mem passes dtx = some dtx' ∧
      Tracks mem start dtx' (n + ss.length) (shifted c ss) J := by
  induction h generalizing n c dtx passes with
  | @done I hnone =>
      obtain ⟨hlo, hhi, hmid⟩ := Interval.offset_eq_none_iff.mp hnone
      obtain ⟨passes, rfl⟩ : ∃ m, passes = m + 1 := ⟨passes - 1, by omega⟩
      refine ⟨dtx, ?_, hdtx⟩
      rw [expandLoop, hdtx.lo_eq, hdtx.hi_eq, if_neg (by omega), if_neg (by omega),
        if_neg (by omega)]
  | @step I J s ss hs hrest ih =>
      obtain ⟨passes, rfl⟩ : ∃ m, passes = m + 1 := ⟨passes - 1, by omega⟩
      have hnow := (Expands.step hs hrest).contains hcv hin
      have hdtx' := hdtx.shift hcv hs hnow
      rw [List.length_cons] at hpasses
      rw [List.length_cons, Nat.add_comm ss.length 1, ← Nat.add_assoc] at hin ⊢
      obtain ⟨dtx', hloop, htracks⟩ := ih (hcv.expand hs) hdtx' hin (Nat.lt_of_succ_lt_succ hpasses)
      refine ⟨dtx', ?_, htracks⟩
      rw [expandLoop, hdtx.lo_eq, hdtx.hi_eq]
      have hle := hcv.le
      rcases Interval.offset_cases hs with ⟨rfl, hhi⟩ | ⟨rfl, hlo⟩ | ⟨rfl, hlo, hlo', hhi, hhi'⟩
      · rw [if_pos hhi]
        exact hloop
      · rw [if_neg (by omega), if_pos hlo]
        exact hloop
      · rw [if_neg (by omega), if_neg (by omega), if_pos ⟨hlo, hhi'⟩]
        exact hloop

/-! ## `apd_decode` -/

theorem lookupFrom_eq {T : Nat → Nat} {cum i : Nat} (hbelow : ∀ j ≤ i, T j ≤ cum)
    (habove : cum < T (i + 1)) {left p : Nat} (hp : p ≤ i + 1) (hleft : i + 1 < p + left) :
    lookupFrom cum T left p = some i := by
  induction left generalizing p with
  | zero => omega
  | succ left ih =>
      rw [lookupFrom]
      rcases Nat.lt_or_eq_of_le hp with hlt | rfl
      · rw [if_neg (Nat.not_lt.mpr (hbelow p (Nat.le_of_lt_succ hlt)))]
        exact ih hlt (by omega)
      · rw [if_pos habove]
        rfl

/-- The search finds the bin of a cumulative value. -/
theorem lookupBot_eq {T : Nat → Nat} {n cum i : Nat} (hT : Cumulative T n) (hi : i < n)
    (hbelow : T i ≤ cum) (habove : cum < T (i + 1)) : lookupBot cum T (n - 1) = some i := by
  unfold lookupBot
  by_cases htop : T (n - 1) ≤ cum
  · rw [if_pos htop]
    congr 1
    by_contra hne
    have hle := hT.mono (show i + 1 ≤ n - 1 by omega) (Nat.sub_le n 1)
    omega
  · have hlt : i < n - 1 := by
      by_contra hge
      obtain rfl : i = n - 1 := by omega
      exact htop hbelow
    rw [if_neg htop]
    exact lookupFrom_eq (fun j hj => Nat.le_trans (hT.mono hj (by omega)) hbelow) habove
      (by omega) (by omega)

/-- The widths of the decoder hold the slice too. -/
theorem apdScale_eq_narrow {cv : Interval} (hcv : cv.Normal quarter) {T : Nat → Nat} {i : Nat}
    (hi : T i < T (i + 1)) (hT : T (i + 1) < quarter) :
    APDCv.scaleLo cv.lo cv.range (T i) = (cv.narrow normNBits T i).lo ∧
      APDCv.scaleHi cv.lo cv.range (T (i + 1)) = (cv.narrow normNBits T i).hi := by
  have hle := hcv.le
  have hlt : cv.hi < 4096 := hcv.lt
  obtain ⟨hlo, hmid, hhi⟩ := Interval.narrow_bounds hcv hi (Nat.le_of_lt hT)
  have hslice := Interval.slice_lt hcv hi
  have hrange : cv.range ≤ 4096 := hcv.range_le
  have hnum : cv.range * T (i + 1) ≤ 4096 * 1024 := Nat.mul_le_mul hrange (Nat.le_of_lt hT)
  have hnum' : cv.range * T i ≤ cv.range * T (i + 1) := Nat.mul_le_mul_left _ (Nat.le_of_lt hi)
  change cv.lo + cv.range * T i / 1024 ≤ cv.lo + cv.range * T (i + 1) / 1024 - 1 at hmid
  change cv.lo + cv.range * T (i + 1) / 1024 - 1 ≤ cv.hi at hhi
  change cv.range * T i / 1024 < cv.range * T (i + 1) / 1024 at hslice
  unfold APDCv.scaleLo APDCv.scaleHi Interval.narrow
  dsimp only
  simp only [Nat.shiftLeft_eq, Nat.shiftRight_eq_div_pow]
  generalize cv.range * T (i + 1) = x at *
  generalize cv.range * T i = y at *
  constructor
  · change (y + cv.lo * 1024 % 4294967296) % 4294967296 / 1024 % 65536 = cv.lo + y / 1024
    omega
  · change (x + (cv.lo + 4294967296 - 1) % 4294967296 * 1024 % 4294967296) % 4294967296 / 1024 %
      65536 = cv.lo + x / 1024 - 1
    omega

theorem scaleM1_eq {cv : Interval} {v : Nat} (hlo : cv.lo ≤ v) (hhi : v ≤ cv.hi)
    (hlt : cv.hi < 4096) :
    APDCv.scaleM1 ((sub16 v cv.lo + 1) % 2 ^ 16) ((sub16 cv.hi cv.lo + 1) % 2 ^ 16) =
      cv.cum normNBits v := by
  rw [sub16_eq hlo (by omega), sub16_eq (Nat.le_trans hlo hhi) (by omega),
    Nat.mod_eq_of_lt (by omega), Nat.mod_eq_of_lt (by omega)]
  have hnum : (((v - cv.lo + 1) <<< normNBits : Nat) : Int) - 1 =
      (((v - cv.lo + 1) * 2 ^ normNBits - 1 : Nat) : Int) := by
    rw [Nat.shiftLeft_eq]
    change (((v - cv.lo + 1) * 1024 : Nat) : Int) - 1 = (((v - cv.lo + 1) * 1024 - 1 : Nat) : Int)
    omega
  have hsmall : cv.cum normNBits v < 1024 := by
    refine Nat.div_lt_of_lt_mul ?_
    change (v - cv.lo + 1) * 1024 - 1 < (cv.hi - cv.lo + 1) * 1024
    omega
  unfold APDCv.scaleM1
  rw [hnum, ← Int.ofNat_tdiv]
  change ((cv.cum normNBits v : Int) % 2 ^ 16).toNat = _
  omega

/-- A code value in the slice of a symbol decodes to it, and the decoder
narrows and expands its limits as the encoder did. -/
theorem apdDecode_eq {mem : Memory} {start n c bins i : Nat} {T : Nat → Nat} {dtx : Dtx}
    {cv J : Interval} {ss : List Nat} (hT : Cumulative T bins) (hi : Occupied T bins i)
    (hdtx : Tracks mem start dtx n c cv) (hcv : cv.Normal quarter)
    (hss : Expands quarter (cv.narrow normNBits T i) ss J)
    (hin : Contains (streamAt mem start) (n + ss.length) (shifted c ss) J) :
    ∃ dtx', apdDecode mem (apdTable bins T) dtx = some (i, dtx') ∧
      Tracks mem start dtx' (n + ss.length) (shifted c ss) J := by
  obtain ⟨hlt, hle⟩ := hT.codable hi
  have hvalid := Interval.narrow_valid hcv hlt hle
  obtain ⟨hge, hle'⟩ := hss.contains hvalid hin
  obtain ⟨hbounds, _, hbounds'⟩ := Interval.narrow_bounds hcv hlt hle
  have hvalue := hdtx.value_eq
  obtain ⟨hbelow, habove⟩ := Interval.mem_narrow hcv hlt hle
    (show (cv.narrow normNBits T i).lo ≤ dtx.value by omega) (by omega)
  have hrange : (sub16 cv.hi cv.lo + 1) % 2 ^ 16 = cv.range := by
    have hlt : cv.hi < 4096 := hcv.lt
    have hle := hcv.le
    rw [sub16_eq hle (by omega)]
    unfold Interval.range
    omega
  obtain ⟨hscaleLo, hscaleHi⟩ := apdScale_eq_narrow hcv hlt (hT.lt_quarter hi.1)
  have hlen := passes_of_expands hss hvalid
  have hscaled : Tracks mem start
      { dtx with lo := (cv.narrow normNBits T i).lo, hi := (cv.narrow normNBits T i).hi } n c
      (cv.narrow normNBits T i) :=
    ⟨⟨hdtx.start_eq, hdtx.aligned, hdtx.pos, hdtx.buffer_eq, hdtx.togo_le, hdtx.upTo⟩, rfl, rfl,
      hvalue⟩
  obtain ⟨dtx', hloop, htracks⟩ := expandLoop_expands hss hvalid hscaled hin hlen
  have hcount : apdTable bins T 0 - 1 = bins - 1 := rfl
  have htable : ∀ k, apdTable bins T (k + 1) = T k := fun k => if_neg (Nat.succ_ne_zero k)
  refine ⟨dtx', ?_, htracks⟩
  unfold apdDecode
  dsimp only
  rw [hdtx.lo_eq, hdtx.hi_eq, scaleM1_eq (by omega) (by omega) hcv.lt, hcount, hrange]
  simp only [htable]
  rw [lookupBot_eq hT hi.1 hbelow habove, Option.bind_eq_bind, Option.bind_some, hscaleLo,
    hscaleHi, hloop]
  rfl

/-- The decoder follows the encoder through all symbols. -/
theorem apdDecodes_encodes {mem : Memory} {start n c bins : Nat} {T : Nat → Nat} {dtx : Dtx}
    {cv K : Interval} {is ss : List Nat} (hT : Cumulative T bins)
    (h : Encodes normNBits T cv is ss K) (his : ∀ i ∈ is, Occupied T bins i)
    (hdtx : Tracks mem start dtx n c cv) (hcv : cv.Normal quarter)
    (hin : Contains (streamAt mem start) (n + ss.length) (shifted c ss) K) :
    ∃ dtx', apdDecodes mem (apdTable bins T) is.length dtx = some (is, dtx') ∧
      Tracks mem start dtx' (n + ss.length) (shifted c ss) K := by
  induction h generalizing n c dtx with
  | nil => exact ⟨dtx, rfl, hdtx⟩
  | @cons I J K i is ss ts hss hrest ih =>
      have hi := his i (List.mem_cons_self ..)
      have his' : ∀ j ∈ is, Occupied T bins j := fun j hj => his j (List.mem_cons_of_mem _ hj)
      obtain ⟨hlt, hle⟩ := hT.codable hi
      have hJ := hss.normal (Interval.narrow_valid hcv hlt hle)
      rw [List.length_append, ← Nat.add_assoc, shifted_append] at hin ⊢
      have hnow := hrest.contains hJ (fun j hj => hT.codable (his' j hj)) hin
      obtain ⟨dtx₁, hdecode, htracks⟩ := apdDecode_eq hT hi hdtx hcv hss hnow
      obtain ⟨dtx₂, hdecodes, htracks'⟩ := ih his' htracks hJ hin
      refine ⟨dtx₂, ?_, htracks'⟩
      rw [List.length_cons, apdDecodes, hdecode]
      change (apdDecodes mem (apdTable bins T) is.length dtx₁).bind _ = _
      rw [hdecodes]
      rfl

/-- `APD_finish` counts the bits read, less the 10 it has read ahead. -/
theorem apdFinish_eq {mem : Memory} {start n : Nat} {dtx : Dtx}
    (h : ReadUpTo mem start dtx n) : apdFinish dtx = n - 10 := by
  have hstart := h.start_eq
  have hupTo := h.upTo
  unfold apdFinish
  change 8 * ((dtx.cur : Int) - dtx.beg) - dtx.togo - 12 - dtx.bbeg + 1 + 1 = _
  omega

/-- Whatever follows the encoder's bits in memory, the decoder gives back the
symbols and counts the bits. -/
theorem apd_decodes_ape {T : Nat → Nat} {bins : Nat} (hT : Cumulative T bins) {is : List Nat}
    (his : ∀ i ∈ is, Occupied T bins i) (mem : Memory) {src boff : Nat} (hsrc : src % 8 = 0)
    (hmem : Holds mem (8 * src + boff) (apeEncode T is)) :
    ∃ dtx, apdDecodes mem (apdTable bins T) is.length (apdStart mem src boff) = some (is, dtx) ∧
      apdFinish dtx = (apeEncode T is).length := by
  obtain ⟨ss, K, hss, hK, hS⟩ := apeEncode_eq hT his
  obtain ⟨hin, hlen⟩ := hss.flush_contains hK hS hmem
  obtain ⟨dtx, hdecodes, htracks⟩ := apdDecodes_encodes hT hss his
    (apdStart_tracks mem hsrc boff) apeStart_normal hin
  refine ⟨dtx, hdecodes, ?_⟩
  rw [apdFinish_eq htracks.toReadUpTo, hlen]
  omega

/-- A table of three bins. -/
def threeBins (i : Nat) : Nat := [0, 100, 500, 1023].getD i 0

theorem threeBins_cumulative : Cumulative threeBins 3 := ⟨rfl, by decide, by decide⟩

theorem apd_decodes_ape_four : ∃ dtx,
    apdDecodes (fun _ => 0xa1f0000000000123) (apdTable 3 threeBins) [1, 0, 2, 1].length
      (apdStart (fun _ => 0xa1f0000000000123) 8 4) = some ([1, 0, 2, 1], dtx) ∧
    apdFinish dtx = (apeEncode threeBins [1, 0, 2, 1]).length :=
  apd_decodes_ape threeBins_cumulative (by decide) _ rfl (by decide +kernel)

end ProtoDune.Firmware
