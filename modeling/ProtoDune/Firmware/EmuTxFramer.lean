import ProtoDune.Firmware.WibLine
import ProtoDune.Lib.Pack

/-!
# `ProtoDuneDpmEmuTxFramer`

The emulator's framer counts the symbols of a frame, `cnt` from 1 to 125, and
feeds each word into a delay line; the CRC overwrites the end of the line.

Main results:

* `Sending.tick` — one clock cycle adds a word to the frame on the line.
* `frame_sent` — the 125 cycles of a frame put its words and their CRC on the line.
-/

namespace ProtoDune.Firmware.ProtoDuneDpmEmuTxFramer

/-- An array `(DLY_C downto 0)`. -/
structure DelayLine (α : Type*) where
  d0 : α
  d1 : α
  d2 : α
  d3 : α
deriving DecidableEq

/-- `v(DLY_C downto 1) := r(DLY_C-1 downto 0)`. -/
def DelayLine.shift {α : Type*} (l : DelayLine α) : DelayLine α := ⟨l.d0, l.d0, l.d1, l.d2⟩

/-- The input ports in a clock cycle. -/
structure Ports where
  enable : Bool
  sendCnt : Bool
  adcData : Nat → BitVec 12
  timingTs : BitVec 64
  fiberId : BitVec 3
  crateId : BitVec 5
  slotId : BitVec 3

structure RegType where
  convt : Bool
  txData : DelayLine (BitVec 16)
  txdataK : DelayLine (BitVec 2)
  timestamp : BitVec 64
  convertCnt : BitVec 16
  crcValid : Bool
  crcRst : Bool
  crcData : BitVec 16
  cnt : Nat
  idx : Nat
deriving DecidableEq

/-- `REG_INIT_C`. -/
def REG_INIT_C : RegType where
  convt := false
  txData := ⟨idle.data, idle.data, idle.data, idle.data⟩
  txdataK := ⟨0b11, 0b11, 0b11, 0b11⟩
  timestamp := 0
  convertCnt := 0
  crcValid := false
  crcRst := true
  crcData := 0
  cnt := 1
  idx := 0

/-- 64 ADCs of 12 bits, the first one lowest: `coldData1` for `lo = 0`, `coldData2` for
`lo = 64`. -/
def coldData (adcData : Nat → BitVec 12) (lo : Nat) : BitVec (12 * 64) :=
  BitPack.pack (fun i => adcData (i + lo)) 64

/-- A COLDDATA word: a byte of each stream. -/
def coldWord (adcData : Nat → BitVec 12) (idx : Nat) : BitVec 16 :=
  (coldData adcData 64).extractLsb' (idx * 8) 8 ++ (coldData adcData 0).extractLsb' (idx * 8) 8

/-- `v.txdataK(0) := k`. -/
def RegType.setK (v : RegType) (k : BitVec 2) : RegType :=
  { v with txdataK := { v.txdataK with d0 := k } }

/-- `v.txData(0) := w`. -/
def RegType.setData (v : RegType) (w : BitVec 16) : RegType :=
  { v with txData := { v.txData with d0 := w } }

/-- `v.txdataK(DLY_C) := k; v.txData(DLY_C) := w`. -/
def RegType.setLast (v : RegType) (k : BitVec 2) (w : BitVec 16) : RegType :=
  { v with txdataK := { v.txdataK with d3 := k }, txData := { v.txData with d3 := w } }

/-- The case on `r.cnt`. -/
def stateMachine (crcResult : BitVec 32) (p : Ports) (r v : RegType) : RegType :=
  if r.cnt = 1 then
    let v := { v with timestamp := p.timingTs, idx := 0 }
    if p.enable then
      { (v.setK 0b01).setData (p.fiberId ++ 1#5 ++ K28_5_C) with crcValid := true, crcRst := false }
    else
      { (v.setK 0b11).setData idle.data with convertCnt := 0, crcValid := false, crcRst := true }
  else if r.cnt = 2 then
    (v.setK 0b00).setData (0#8 ++ p.slotId ++ p.crateId)
  else if r.cnt = 5 then
    v.setData (r.timestamp.extractLsb' 0 16)
  else if r.cnt = 6 then
    v.setData (r.timestamp.extractLsb' 16 16)
  else if r.cnt = 7 then
    v.setData (r.timestamp.extractLsb' 32 16)
  else if r.cnt = 8 then
    v.setData (BitVec.ofBool p.sendCnt ++ r.timestamp.extractLsb' 48 15)
  else if r.cnt = 12 then
    v.setData r.convertCnt
  else if 17 ≤ r.cnt ∧ r.cnt ≤ 64 then
    { v.setData (coldWord p.adcData r.idx) with idx := r.idx + 1 }
  else if r.cnt = 68 then
    v.setData r.convertCnt
  else if 73 ≤ r.cnt ∧ r.cnt ≤ 120 then
    { v.setData (coldWord p.adcData r.idx) with idx := r.idx + 1 }
  else if r.cnt = 121 then
    { (v.setK 0b11).setData idle.data with crcValid := false, convt := true }
  else if r.cnt = 122 then
    (v.setK 0b11).setData idle.data
  else if r.cnt = 123 then
    (v.setK 0b11).setData idle.data
  else if r.cnt = 124 then
    v.setLast 0b00 (crcResult.extractLsb' 0 16)
  else if r.cnt = 125 then
    { v.setLast 0b00 (crcResult.extractLsb' 16 16) with
      crcRst := true, convertCnt := r.convertCnt + 1 }
  else
    (v.setK 0b00).setData 0

/-- The check for sending the debug counter. -/
def debugCounter (p : Ports) (r v : RegType) : RegType :=
  if p.sendCnt ∧ p.enable then
    if r.cnt = 1 then v.setData (0#8 ++ v.txData.d0.extractLsb' 0 8)
    else if r.cnt < 121 then v.setData (BitVec.ofNat 16 (r.cnt - 1))
    else v
  else v

/-- The counter and the shift register. -/
def advance (p : Ports) (r : RegType) : RegType :=
  let v := { r with txdataK := r.txdataK.shift, txData := r.txData.shift }
  if p.enable ∨ r.cnt ≠ 1 then
    { v with convt := false, cnt := if r.cnt = 125 then 1 else r.cnt + 1 }
  else { v with convt := true }

/-- The process `comb`: the next value of the registers. -/
def comb (crcResult : BitVec 32) (rst : Bool) (p : Ports) (r : RegType) : RegType :=
  let v := debugCounter p r (stateMachine crcResult p r (advance p r))
  if rst then REG_INIT_C else { v with crcData := v.txData.d0 }

/-! ## Runs -/

variable {σ : Type*} (e : CrcEngine σ)

/-- The registers of the framer and the state of its CRC engine. -/
structure Emulator (σ : Type*) where
  r : RegType
  crc : σ

/-- One clock cycle. -/
def tick (m : Emulator σ) (p : Ports) : Emulator σ where
  r := comb (e.crc m.crc) false p m.r
  crc := e.clock m.r.crcRst m.r.crcValid m.r.crcData m.crc

/-- The outputs `txData` and `txdataK`. -/
def RegType.txOut (r : RegType) : LineSymbol := ⟨r.txData.d3, r.txdataK.d3⟩

/-- The symbol on the line in each clock cycle. -/
def sent (m : Emulator σ) : List Ports → List LineSymbol
  | [] => []
  | p :: ps => m.r.txOut :: sent (tick e m p) ps

/-- The delay line, from its end. -/
def RegType.waiting (r : RegType) : List LineSymbol :=
  [r.txOut, ⟨r.txData.d2, r.txdataK.d2⟩, ⟨r.txData.d1, r.txdataK.d1⟩, ⟨r.txData.d0, r.txdataK.d0⟩]

theorem sent_append (m : Emulator σ) (ps qs : List Ports) :
    sent e m (ps ++ qs) = sent e m ps ++ sent e (ps.foldl (tick e) m) qs := by
  induction ps generalizing m with
  | nil => rfl
  | cons p ps ih => rw [List.cons_append, sent, sent, ih, List.cons_append, List.foldl_cons]

/-! ## The words of a frame -/

/-- The word at the position `i`, before the debug counter. -/
def muxWord (p : Ports) (timestamp : BitVec 64) (convertCnt : BitVec 16) (i : Nat) : BitVec 16 :=
  if i = 0 then p.fiberId ++ 1#5 ++ K28_5_C
  else if i = 1 then 0#8 ++ p.slotId ++ p.crateId
  else if i = 4 then timestamp.extractLsb' 0 16
  else if i = 5 then timestamp.extractLsb' 16 16
  else if i = 6 then timestamp.extractLsb' 32 16
  else if i = 7 then BitVec.ofBool p.sendCnt ++ timestamp.extractLsb' 48 15
  else if i = 11 ∨ i = 67 then convertCnt
  else if 16 ≤ i ∧ i < 64 then coldWord p.adcData (i - 16)
  else if 72 ≤ i ∧ i < 120 then coldWord p.adcData (i - 24)
  else 0

/-- The word at the position `i`. -/
def word (p : Ports) (timestamp : BitVec 64) (convertCnt : BitVec 16) (i : Nat) : BitVec 16 :=
  if p.sendCnt ∧ p.enable then
    if i = 0 then 0#8 ++ (muxWord p timestamp convertCnt 0).extractLsb' 0 8 else BitVec.ofNat 16 i
  else muxWord p timestamp convertCnt i

/-- The byte counter at the position `i`. -/
def idxAt (i : Nat) : Nat := min (i - 16) 48 + min (i - 72) 48

/-! ## The cycles of a frame -/

section Cycles

variable {crcResult : BitVec 32} {p : Ports} {r v : RegType} {i : Nat}

/-- The cycle that feeds the word `w` into the delay line. -/
def RegType.feed (r : RegType) (k : BitVec 2) (w : BitVec 16) : RegType :=
  { r with
    convt := false, cnt := r.cnt + 1, crcData := w
    txData := { r.txData.shift with d0 := w }, txdataK := { r.txdataK.shift with d0 := k } }

theorem comb_idle (hcnt : r.cnt = 1) (hp : p.enable = false) :
    comb crcResult false p r = { r.feed 0b11 idle.data with
      convt := true, cnt := 1, timestamp := p.timingTs, idx := 0, convertCnt := 0
      crcValid := false, crcRst := true } := by
  simp [comb, advance, stateMachine, debugCounter, hcnt, hp, RegType.feed, RegType.setK,
    RegType.setData]

theorem comb_first (hcnt : r.cnt = 1) (hp : p.enable = true) :
    comb crcResult false p r = { r.feed 0b01 (word p p.timingTs r.convertCnt 0) with
      timestamp := p.timingTs, idx := 0, crcValid := true, crcRst := false } := by
  by_cases hs : p.sendCnt <;>
    simp [comb, advance, stateMachine, debugCounter, hcnt, hp, hs, RegType.feed, RegType.setK,
      RegType.setData, word, muxWord]

theorem comb_gap (hcnt : 121 ≤ r.cnt ∧ r.cnt ≤ 123) :
    comb crcResult false p r = { r.feed 0b11 idle.data with
      crcValid := r.crcValid && decide (r.cnt ≠ 121), convt := decide (r.cnt = 121) } := by
  have hcases : r.cnt = 121 ∨ r.cnt = 122 ∨ r.cnt = 123 := by omega
  rcases hcases with h | h | h <;>
    simp [comb, advance, stateMachine, debugCounter, h, RegType.feed, RegType.setK,
      RegType.setData]

theorem comb_crcLo (hcnt : r.cnt = 124) :
    comb crcResult false p r = { r.feed r.txdataK.d0 r.txData.d0 with
      txData := ⟨r.txData.d0, r.txData.d0, r.txData.d1, crcResult.extractLsb' 0 16⟩
      txdataK := ⟨r.txdataK.d0, r.txdataK.d0, r.txdataK.d1, 0b00⟩ } := by
  simp [comb, advance, stateMachine, debugCounter, hcnt, RegType.feed, RegType.setLast,
    DelayLine.shift]

theorem comb_crcHi (hcnt : r.cnt = 125) :
    comb crcResult false p r = { r.feed r.txdataK.d0 r.txData.d0 with
      txData := ⟨r.txData.d0, r.txData.d0, r.txData.d1, crcResult.extractLsb' 16 16⟩
      txdataK := ⟨r.txdataK.d0, r.txdataK.d0, r.txdataK.d1, 0b00⟩
      cnt := 1, crcRst := true, convertCnt := r.convertCnt + 1 } := by
  simp [comb, advance, stateMachine, debugCounter, hcnt, RegType.feed, RegType.setLast,
    DelayLine.shift]

theorem setK_of_eq {k : BitVec 2} (h : v.txdataK.d0 = k) : v.setK k = v := by
  subst h
  rfl

/-- The case on `r.cnt` at the position `i`, which sets the K flags only while they are set. -/
theorem stateMachine_word (hcnt : r.cnt = i + 1) (hpos : 0 < i) (hi : i < wibWords)
    (hidx : r.idx = idxAt i) (hv : v.idx = r.idx) (hK : 1 < i → v.txdataK.d0 = 0b00) :
    stateMachine crcResult p r v =
      { (v.setK 0b00).setData (muxWord p r.timestamp r.convertCnt i) with
        idx := idxAt (i + 1) } := by
  rw [hidx] at hv
  have hi : i < 120 := hi
  unfold stateMachine muxWord
  simp only [hcnt, hidx]
  by_cases hcold : 16 ≤ i ∧ i < 64 ∨ 72 ≤ i
  · -- the COLDDATA: the byte counter goes on
    rw [setK_of_eq (hK (by omega))]
    have hnext : idxAt (i + 1) = idxAt i + 1 := by unfold idxAt; omega
    rcases hcold with h | h
    · have hat : idxAt i = i - 16 := by unfold idxAt; omega
      simp (disch := omega) only [if_neg, if_pos, hnext, hat]
    · have hat : idxAt i = i - 24 := by unfold idxAt; omega
      simp (disch := omega) only [if_neg, if_pos, hnext, hat]
  · have hnext : idxAt (i + 1) = v.idx := by rw [hv]; unfold idxAt; omega
    rw [hnext]
    by_cases h1 : i = 1
    · subst h1
      rfl
    rw [setK_of_eq (hK (by omega))]
    by_cases hlit : i = 4 ∨ i = 5 ∨ i = 6 ∨ i = 7 ∨ i = 11 ∨ i = 67
    · rcases hlit with rfl | rfl | rfl | rfl | rfl | rfl <;> rfl
    · -- the zeros
      simp (disch := omega) only [if_neg]
      rfl

theorem debugCounter_word (hcnt : r.cnt = i + 1) (hpos : 0 < i) (hi : i < wibWords) {k : Nat} :
    debugCounter p r { v.setData (muxWord p r.timestamp r.convertCnt i) with idx := k } =
      { v.setData (word p r.timestamp r.convertCnt i) with idx := k } := by
  have hi : i < 120 := hi
  unfold debugCounter word
  by_cases hdebug : p.sendCnt = true ∧ p.enable = true
  · rw [if_pos hdebug, if_pos hdebug, if_neg (by omega), if_pos (by omega), if_neg (by omega), hcnt]
    rfl
  · rw [if_neg hdebug, if_neg hdebug]

theorem comb_word (hcnt : r.cnt = i + 1) (hpos : 0 < i) (hi : i < wibWords)
    (hidx : r.idx = idxAt i) (hK : 1 < i → r.txdataK.d0 = 0b00) :
    comb crcResult false p r = { r.feed 0b00 (word p r.timestamp r.convertCnt i) with
      idx := idxAt (i + 1) } := by
  have hadvance : advance p r = { r with
      convt := false, cnt := r.cnt + 1
      txdataK := r.txdataK.shift, txData := r.txData.shift } := by
    have hi : i < 120 := hi
    unfold advance
    rw [if_pos (Or.inr (by omega)), if_neg (by omega)]
  have hkept : (advance p r).idx = r.idx := by rw [hadvance]
  have hflags : 1 < i → (advance p r).txdataK.d0 = 0b00 := by rw [hadvance]; exact hK
  unfold comb
  rw [stateMachine_word hcnt hpos hi hidx hkept hflags, debugCounter_word hcnt hpos hi, hadvance]
  rfl

end Cycles

/-! ## The phases of a frame -/

/-- Between two frames. -/
structure Ready (r : RegType) : Prop where
  cnt : r.cnt = 1
  crcRst : r.crcRst = true
  line : r.waiting = [r.txOut, idle, idle, idle]

/-- The words `ws` of a frame have been fed in. -/
structure Sending (m : Emulator σ) (ws : List (BitVec 16)) : Prop where
  pos : 0 < ws.length
  cnt : m.r.cnt = ws.length + 1
  idx : m.r.idx = idxAt ws.length
  dataK : 1 < ws.length → m.r.txdataK.d0 = 0b00
  crcRst : m.r.crcRst = false
  crcValid : m.r.crcValid = true
  crc : e.next m.crc m.r.crcData = ws.foldl e.next e.seed

/-- All words have been fed in, and `k` cycles have passed since. -/
structure Ending (m : Emulator σ) (ws : List (BitVec 16)) (k : Nat) : Prop where
  cnt : m.r.cnt = 121 + k
  crcRst : m.r.crcRst = false
  crcValid : m.r.crcValid = false
  crc : m.crc = ws.foldl e.next e.seed

variable {e} {m : Emulator σ} {ws : List (BitVec 16)} {k : Nat}

theorem Ready.tick_idle (h : Ready m.r) (p : Ports) (hp : p.enable = false) :
    Ready (tick e m p).r ∧ (tick e m p).r.txOut = idle := by
  obtain ⟨hcnt, hrst, hline⟩ := h
  simp only [RegType.waiting, List.cons.injEq] at hline
  obtain ⟨-, h2, h1, h0, -⟩ := hline
  have hr : (tick e m p).r = _ := comb_idle hcnt hp
  refine ⟨⟨by rw [hr], by rw [hr], ?_⟩, ?_⟩
  · rw [hr]
    simp only [RegType.waiting, RegType.feed, DelayLine.shift, h1, h0]
    rfl
  · rw [hr]
    exact h2

/-- The first word of a frame. -/
theorem Ready.tick_first (h : Ready m.r) (p : Ports) (hp : p.enable = true) :
    Sending e (tick e m p) [word p p.timingTs m.r.convertCnt 0] ∧
      (tick e m p).r.waiting = [idle, idle, idle, ⟨word p p.timingTs m.r.convertCnt 0, 0b01⟩] ∧
      (tick e m p).r.timestamp = p.timingTs ∧
      (tick e m p).r.convertCnt = m.r.convertCnt := by
  obtain ⟨hcnt, hrst, hline⟩ := h
  simp only [RegType.waiting, List.cons.injEq] at hline
  obtain ⟨-, h2, h1, h0, -⟩ := hline
  have hr : (tick e m p).r = _ := comb_first hcnt hp
  have hcrc : (tick e m p).crc = e.seed := by
    change e.clock m.r.crcRst _ _ _ = _
    rw [hrst, CrcEngine.clock_init]
  refine ⟨⟨Nat.zero_lt_one, ?_, ?_, ?_, ?_, ?_, ?_⟩, ?_, ?_, ?_⟩
  · rw [hr]
    exact congrArg (· + 1) hcnt
  · rw [hr]
    rfl
  · exact fun h => absurd h (Nat.lt_irrefl 1)
  · rw [hr]
  · rw [hr]
  · rw [hr, hcrc]
    rfl
  · rw [hr]
    simp only [RegType.waiting, RegType.txOut, RegType.feed, DelayLine.shift, h2, h1, h0]
  · rw [hr]
  · rw [hr]
    rfl

/-- A word of a frame. -/
theorem Sending.tick_word (h : Sending e m ws) (hlen : ws.length < wibWords) (p : Ports) :
    Sending e (tick e m p) (ws ++ [word p m.r.timestamp m.r.convertCnt ws.length]) ∧
      (tick e m p).r.waiting =
        m.r.waiting.tail ++ [⟨word p m.r.timestamp m.r.convertCnt ws.length, 0b00⟩] ∧
      (tick e m p).r.timestamp = m.r.timestamp ∧
      (tick e m p).r.convertCnt = m.r.convertCnt := by
  have hr : (tick e m p).r = _ := comb_word h.cnt h.pos hlen h.idx h.dataK
  have hcrc : (tick e m p).crc = ws.foldl e.next e.seed := by
    change e.clock m.r.crcRst m.r.crcValid _ _ = _
    rw [h.crcRst, h.crcValid, CrcEngine.clock_ce, h.crc]
  refine ⟨⟨?_, ?_, ?_, ?_, ?_, ?_, ?_⟩, ?_, ?_, ?_⟩
  · simp
  · rw [hr, List.length_append]
    exact congrArg (· + 1) h.cnt
  · rw [hr, List.length_append]
    rfl
  · intro _
    rw [hr]
    rfl
  · rw [hr]
    exact h.crcRst
  · rw [hr]
    exact h.crcValid
  · rw [hr, hcrc, List.foldl_append]
    rfl
  · rw [hr]
    rfl
  · rw [hr]
    rfl
  · rw [hr]
    rfl

/-- The first idle symbol after the words. -/
theorem Sending.tick_gap (h : Sending e m ws) (hlen : ws.length = wibWords) (p : Ports) :
    Ending e (tick e m p) ws 1 ∧ (tick e m p).r.waiting = m.r.waiting.tail ++ [idle] := by
  have hcnt : m.r.cnt = 121 := by rw [h.cnt, hlen]; rfl
  have hr : (tick e m p).r = _ := comb_gap (by omega)
  refine ⟨⟨?_, ?_, ?_, ?_⟩, ?_⟩
  · rw [hr]
    exact congrArg (· + 1) hcnt
  · rw [hr]
    exact h.crcRst
  · rw [hr]
    simp [hcnt]
  · change e.clock m.r.crcRst m.r.crcValid _ _ = _
    rw [h.crcRst, h.crcValid, CrcEngine.clock_ce, h.crc]
  · rw [hr]
    rfl

theorem Ending.tick_gap (h : Ending e m ws k) (hk : k ≤ 2) (p : Ports) :
    Ending e (tick e m p) ws (k + 1) ∧ (tick e m p).r.waiting = m.r.waiting.tail ++ [idle] := by
  have hcnt : m.r.cnt = 121 + k := h.cnt
  have hr : (tick e m p).r = _ := comb_gap (by omega)
  refine ⟨⟨?_, ?_, ?_, ?_⟩, ?_⟩
  · rw [hr]
    exact congrArg (· + 1) hcnt
  · rw [hr]
    exact h.crcRst
  · rw [hr]
    simp [h.crcValid]
  · change e.clock m.r.crcRst m.r.crcValid _ _ = _
    rw [h.crcRst, h.crcValid, CrcEngine.clock_hold, h.crc]
  · rw [hr]
    rfl

/-- The low half of the CRC replaces the symbol at the end of the line. -/
theorem Ending.tick_crcLo (h : Ending e m ws 3) (p : Ports)
    (hline : m.r.waiting = [m.r.txOut, idle, idle, idle]) :
    Ending e (tick e m p) ws 4 ∧
      (tick e m p).r.waiting =
        [⟨(e.checksum ws).extractLsb' 0 16, 0b00⟩, idle, idle, idle] := by
  simp only [RegType.waiting, List.cons.injEq] at hline
  obtain ⟨-, -, h1, h0, -⟩ := hline
  have hr : (tick e m p).r = _ := comb_crcLo h.cnt
  refine ⟨⟨?_, ?_, ?_, ?_⟩, ?_⟩
  · rw [hr]
    exact congrArg (· + 1) h.cnt
  · rw [hr]
    exact h.crcRst
  · rw [hr]
    exact h.crcValid
  · change e.clock m.r.crcRst m.r.crcValid _ _ = _
    rw [h.crcRst, h.crcValid, CrcEngine.clock_hold, h.crc]
  · rw [hr, h.crc]
    simp only [RegType.waiting, RegType.txOut, h1, h0]
    rfl

/-- The high half of the CRC follows it. -/
theorem Ending.tick_crcHi (h : Ending e m ws 4) (p : Ports)
    (hline : m.r.waiting = [m.r.txOut, idle, idle, idle]) :
    Ready (tick e m p).r ∧
      (tick e m p).r.txOut = ⟨(e.checksum ws).extractLsb' 16 16, 0b00⟩ ∧
      (tick e m p).r.convertCnt = m.r.convertCnt + 1 := by
  simp only [RegType.waiting, List.cons.injEq] at hline
  obtain ⟨-, -, h1, h0, -⟩ := hline
  have hr : (tick e m p).r = _ := comb_crcHi h.cnt
  refine ⟨⟨by rw [hr], by rw [hr], ?_⟩, ?_, by rw [hr]⟩
  · rw [hr]
    simp only [RegType.waiting, h1, h0]
  · rw [hr, h.crc]
    rfl
/-! ## The cycles of a whole frame -/

/-- The words of a frame that is fed in during the cycles `ps`. -/
def sentWords (timestamp : BitVec 64) (convertCnt : BitVec 16) (ps : List Ports) :
    List (BitVec 16) :=
  ps.mapIdx fun i p => word p timestamp convertCnt i

theorem sentWords_snoc (timestamp : BitVec 64) (convertCnt : BitVec 16) (ps : List Ports)
    (p : Ports) :
    sentWords timestamp convertCnt (ps ++ [p]) =
      sentWords timestamp convertCnt ps ++ [word p timestamp convertCnt ps.length] := by
  rw [sentWords, List.mapIdx_concat]
  rfl

@[simp] theorem length_sentWords (timestamp : BitVec 64) (convertCnt : BitVec 16)
    (ps : List Ports) : (sentWords timestamp convertCnt ps).length = ps.length :=
  List.length_mapIdx

/-- The cycles in which words are fed in. -/
theorem words_sent (h : Ready m.r) {p : Ports} (hp : p.enable = true) (ps : List Ports)
    (hlen : ps.length < wibWords) :
    Sending e ((p :: ps).foldl (tick e) m) (sentWords p.timingTs m.r.convertCnt (p :: ps)) ∧
      sent e m (p :: ps) ++ ((p :: ps).foldl (tick e) m).r.waiting =
        [m.r.txOut, idle, idle, idle] ++
          wordSymbols (sentWords p.timingTs m.r.convertCnt (p :: ps)) ∧
      ((p :: ps).foldl (tick e) m).r.timestamp = p.timingTs ∧
      ((p :: ps).foldl (tick e) m).r.convertCnt = m.r.convertCnt := by
  induction ps using List.reverseRecOn with
  | nil =>
      obtain ⟨hsend, hwait, hts, hcvt⟩ := h.tick_first (e := e) p hp
      exact ⟨hsend, congrArg (m.r.txOut :: ·) hwait, hts, hcvt⟩
  | append_singleton ps q ih =>
      rw [List.length_append] at hlen
      obtain ⟨hsend, hsent, hts, hcvt⟩ := ih (Nat.lt_of_succ_lt hlen)
      rw [← List.cons_append, List.foldl_append, sentWords_snoc, sent_append]
      generalize hm' : (p :: ps).foldl (tick e) m = m' at *
      have hlt : (sentWords p.timingTs m.r.convertCnt (p :: ps)).length < wibWords := by
        rw [length_sentWords]
        exact hlen
      have hne : sentWords p.timingTs m.r.convertCnt (p :: ps) ≠ [] :=
        List.ne_nil_of_length_pos hsend.pos
      obtain ⟨hsend', hwait, hts', hcvt'⟩ := hsend.tick_word hlt q
      rw [hts, hcvt, length_sentWords] at hsend' hwait
      refine ⟨hsend', ?_, hts'.trans hts, hcvt'.trans hcvt⟩
      rw [wordSymbols_append hne, ← List.append_assoc, ← hsent, List.foldl_cons, List.foldl_nil,
        hwait]
      simp only [List.append_assoc]
      rfl

/-- The cycles after the words: the delay line runs out, and the CRC follows. -/
theorem Sending.tail_sent (h : Sending e m ws) (hlen : ws.length = wibWords)
    (p₁ p₂ p₃ p₄ p₅ : Ports) :
    sent e m [p₁, p₂, p₃, p₄, p₅] =
      m.r.waiting ++ [⟨(e.checksum ws).extractLsb' 0 16, 0b00⟩] := by
  obtain ⟨h₁, hw₁⟩ := h.tick_gap hlen p₁
  obtain ⟨h₂, hw₂⟩ := h₁.tick_gap (by omega) p₂
  obtain ⟨h₃, hw₃⟩ := h₂.tick_gap (by omega) p₃
  have hline : (tick e (tick e (tick e m p₁) p₂) p₃).r.waiting =
      [⟨m.r.txData.d0, m.r.txdataK.d0⟩, idle, idle, idle] := by
    rw [hw₃, hw₂, hw₁]
    rfl
  have hout := (List.cons.inj hline).1
  obtain ⟨-, hw₄⟩ := h₃.tick_crcLo p₄ (by rw [hline, hout])
  have hout₁ := (List.cons.inj hw₁).1
  have hout₂ := (List.cons.inj (hw₂.trans (by rw [hw₁]; rfl))).1
  have hout₄ := (List.cons.inj hw₄).1
  simp only [sent]
  rw [hout₁, hout₂, hout, hout₄]
  rfl

/-- The cycles of a frame: its words follow the symbols in the delay line. -/
theorem frame_sent (h : Ready m.r) {p : Ports} (hp : p.enable = true) (ps qs : List Ports)
    (hps : ps.length = 119) (hqs : qs.length = 5) :
    sent e m (p :: ps ++ qs) =
      [m.r.txOut, idle, idle, idle] ++
        wordSymbols (sentWords p.timingTs m.r.convertCnt (p :: ps)) ++
        [⟨(e.checksum (sentWords p.timingTs m.r.convertCnt (p :: ps))).extractLsb' 0 16,
          0b00⟩] := by
  obtain ⟨hsend, hsent, -, -⟩ := words_sent (e := e) h hp ps (by rw [hps]; decide)
  rw [sent_append, ← hsent]
  generalize (p :: ps).foldl (tick e) m = m' at *
  generalize hws : sentWords p.timingTs m.r.convertCnt (p :: ps) = ws at *
  have hlen : ws.length = wibWords := by
    rw [← hws, length_sentWords, List.length_cons, hps]
    rfl
  match qs, hqs with
  | [p₁, p₂, p₃, p₄, p₅], _ => rw [hsend.tail_sent hlen, List.append_assoc]

/-! ## What goes on the line -/

/-- The state of the emulator after the symbols `S` have left it. -/
inductive Sends (e : CrcEngine σ) (m : Emulator σ) (S : List LineSymbol) : Prop
  | ready {F o} (h : Ready m.r) (ho : o.Closed) (hS : OnLine e (S ++ [m.r.txOut]) F o)
  | words {F ws} (h : Sending e m ws) (hlen : ws.length ≤ wibWords)
      (hS : OnLine e (S ++ m.r.waiting) F (.words ws))
  | ending {F ws k} (h : Ending e m ws (k + 1)) (hk : k ≤ 2) (hlen : ws.length = wibWords)
      (hgap : m.r.waiting.drop (3 - k) = List.replicate (k + 1) idle)
      (hS : OnLine e (S ++ m.r.waiting.take (3 - k)) F (.words ws))
  | crc {F ws} (h : Ending e m ws 4) (hline : m.r.waiting = [m.r.txOut, idle, idle, idle])
      (hS : OnLine e (S ++ [m.r.txOut]) F (.crcLo ws))

/-- The first byte of a frame. -/
theorem word_zero_low (p : Ports) (timestamp : BitVec 64) (convertCnt : BitVec 16) :
    (word p timestamp convertCnt 0).extractLsb' 0 8 = K28_5_C := by
  have hmux : (muxWord p timestamp convertCnt 0).extractLsb' 0 8 = K28_5_C :=
    BitVec.extractLsb'_append_eq_right
  unfold word
  split
  · rw [if_pos rfl, hmux]
    exact BitVec.extractLsb'_append_eq_right
  · exact hmux

theorem Ready.tick_sends {S : List LineSymbol} {fs : List (List (BitVec 16))} {o : LineState}
    (h : Ready m.r) (ho : o.Closed) (hS : OnLine e (S ++ [m.r.txOut]) fs o) (p : Ports) :
    Sends e (tick e m p) (S ++ [m.r.txOut]) := by
  obtain ⟨fs₁, h₁⟩ := hS.pause ho
  cases hp : p.enable with
  | false =>
      obtain ⟨hready, hout⟩ := h.tick_idle (e := e) p hp
      rw [← hout] at h₁
      exact .ready (o := .gap) hready trivial h₁
  | true =>
      obtain ⟨hsend, hwait, -, -⟩ := h.tick_first (e := e) p hp
      refine .words (F := fs₁) hsend (Nat.succ_le_of_lt (Nat.zero_lt_succ _)) ?_
      rw [hwait]
      have hfirst := ((h₁.idle).idle).first _ (word_zero_low p p.timingTs m.r.convertCnt)
      simpa only [List.append_assoc, List.cons_append, List.nil_append] using hfirst

theorem Sending.tick_sends {S : List LineSymbol} {fs : List (List (BitVec 16))}
    (h : Sending e m ws) (hlen : ws.length ≤ wibWords)
    (hS : OnLine e (S ++ m.r.waiting) fs (.words ws)) (p : Ports) :
    Sends e (tick e m p) (S ++ [m.r.txOut]) := by
  by_cases hlt : ws.length < wibWords
  · obtain ⟨hsend, hwait, -, -⟩ := h.tick_word hlt p
    refine .words (F := fs) hsend (by simpa using Nat.succ_le_of_lt hlt) ?_
    rw [hwait]
    simpa [RegType.waiting] using hS.word _ hlt
  · have hall : ws.length = wibWords := Nat.le_antisymm hlen (Nat.le_of_not_lt hlt)
    obtain ⟨hend, hwait⟩ := h.tick_gap hall p
    refine .ending (F := fs) hend (Nat.zero_le 2) hall ?_ ?_
    · rw [hwait]
      rfl
    · rw [hwait]
      simpa [RegType.waiting] using hS

theorem Ending.tick_sends {S : List LineSymbol} {fs : List (List (BitVec 16))}
    (h : Ending e m ws (k + 1)) (hk : k ≤ 2) (hlen : ws.length = wibWords)
    (hgap : m.r.waiting.drop (3 - k) = List.replicate (k + 1) idle)
    (hS : OnLine e (S ++ m.r.waiting.take (3 - k)) fs (.words ws)) (p : Ports) :
    Sends e (tick e m p) (S ++ [m.r.txOut]) := by
  have hcases : k = 0 ∨ k = 1 ∨ k = 2 := by omega
  rcases hcases with rfl | rfl | rfl
  · obtain ⟨hend, hwait⟩ := h.tick_gap (by omega) p
    refine .ending (F := fs) hend (by omega) hlen ?_ ?_
    · rw [hwait]
      simpa [RegType.waiting] using hgap
    · rw [hwait]
      simpa [RegType.waiting] using hS
  · obtain ⟨hend, hwait⟩ := h.tick_gap (by omega) p
    refine .ending (F := fs) hend (by omega) hlen ?_ ?_
    · rw [hwait]
      simpa [RegType.waiting] using hgap
    · rw [hwait]
      simpa [RegType.waiting] using hS
  · have hline : m.r.waiting = [m.r.txOut, idle, idle, idle] :=
      congrArg (m.r.txOut :: ·) hgap
    obtain ⟨hend, hwait⟩ := h.tick_crcLo p hline
    have hout : (tick e m p).r.txOut = ⟨(e.checksum ws).extractLsb' 0 16, 0b00⟩ :=
      (List.cons.inj hwait).1
    refine .crc (F := fs) hend (by rw [hwait, hout]) ?_
    rw [hout]
    exact OnLine.crcLo hS hlen

/-- One clock cycle: the line keeps to the protocol. -/
theorem Sends.step {S : List LineSymbol} (h : Sends e m S) (p : Ports) :
    Sends e (tick e m p) (S ++ [m.r.txOut]) := by
  cases h with
  | ready h ho hS => exact h.tick_sends ho hS p
  | words h hlen hS => exact h.tick_sends hlen hS p
  | ending h hk hlen hgap hS => exact h.tick_sends hk hlen hgap hS p
  | @crc fs ws h hline hS =>
      obtain ⟨hready, hout, -⟩ := h.tick_crcHi p hline
      have hhi := hS.crcHi
      rw [← hout] at hhi
      exact .ready (o := .crcHi ws) hready trivial hhi

theorem Sends.run {S : List LineSymbol} (h : Sends e m S) (ps : List Ports) :
    Sends e (ps.foldl (tick e) m) (S ++ sent e m ps) := by
  induction ps generalizing m S with
  | nil => rwa [sent, List.append_nil]
  | cons p ps ih =>
      have hstep := ih (h.step p)
      rwa [List.append_assoc] at hstep

/-- The emulator after the reset. -/
def Emulator.init (s : σ) : Emulator σ := ⟨REG_INIT_C, s⟩

theorem Sends.init (s : σ) : Sends e (Emulator.init s) [] :=
  .ready (o := .gap) ⟨rfl, rfl, rfl⟩ trivial OnLine.nil.idle

/-- The count is 1 only between two frames. -/
theorem Sends.ready_of_cnt {S : List LineSymbol} (h : Sends e m S) (hcnt : m.r.cnt = 1) :
    Ready m.r := by
  cases h with
  | ready h _ _ => exact h
  | words h _ _ =>
      have := h.cnt
      have := h.pos
      omega
  | ending h _ _ _ _ =>
      have := h.cnt
      omega
  | crc h _ _ =>
      have := h.cnt
      omega

theorem Sends.onLine {S : List LineSymbol} (h : Sends e m S) : ∃ fs o, OnLine e S fs o := by
  cases h with
  | ready _ _ hS => exact hS.of_append
  | words _ _ hS => exact hS.of_append
  | ending _ _ _ _ hS => exact hS.of_append
  | crc _ _ hS => exact hS.of_append

/-- The emulator follows the line protocol in every run. -/
theorem sent_onLine (s : σ) (ps : List Ports) :
    ∃ fs o, OnLine e (sent e (Emulator.init s) ps) fs o :=
  ((Sends.init s).run ps).onLine

end ProtoDune.Firmware.ProtoDuneDpmEmuTxFramer
