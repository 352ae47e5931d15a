import Mathlib.Data.List.Forall2
import Mathlib.Data.List.GetD
import ProtoDune.Firmware.AxiStream
import ProtoDune.Firmware.WibLine
import ProtoDune.Lib.Framing

/-!
# `ProtoDuneDpmWibRxFramer`

The receiver's framer takes a frame of 120 words, two CRC words and an idle
symbol off the line, whatever the symbols are, and sends the words downstream;
the last one waits until the errors of the frame are known.

Main results:

* `Receives.step` — what one clock cycle keeps.
* `framer_robust` — in every run the output is cut into whole frames with the
  right flags, and an open frame is always completed.
-/

namespace ProtoDune.Firmware.ProtoDuneDpmWibRxFramer

open Framing

/-- The side-band bits: `WIB_SOF_C` and `WIB_RUN_EN_C` of the first byte, `WIB_EOFE_C` and
`WIB_FLUSH_C` of the last byte. -/
structure TUser where
  sof : Bool
  runEn : Bool
  eofe : Bool
  flush : Bool
deriving DecidableEq

def TUser.none : TUser := ⟨false, false, false, false⟩

abbrev Beat := AxiWord (BitVec 16) TUser

inductive StateType where
  | IDLE_S
  | MOVE_S
  | CRC_LO_S
  | CRC_HI_S
  | LAST_S
deriving DecidableEq

/-- The input ports in a clock cycle. -/
structure Ports where
  rxValid : Bool
  rxData : BitVec 16
  rxdataK : BitVec 2
  rxDecErr : BitVec 2
  rxDispErr : BitVec 2
  swFlush : Bool
  runEnable : Bool
  blowoffWib : Bool
  pause : Bool

structure RegType where
  blowoffWib : Bool
  swFlush : Bool
  notSwFlush : Bool
  rxValid : Bool
  rxData : BitVec 16
  rxdataK : BitVec 2
  eofe : Bool
  errPktDrop : Bool
  errPktLen : Bool
  errCrc : Bool
  crcValid : Bool
  crcRst : Bool
  crcData : BitVec 16
  crc : BitVec 32
  cnt : Nat
  txMaster : AxiStreamMaster (BitVec 16) TUser
  state : StateType

/-- `REG_INIT_C`. -/
def REG_INIT_C : RegType where
  blowoffWib := true
  swFlush := false
  notSwFlush := true
  rxValid := false
  rxData := 0
  rxdataK := 0
  eofe := false
  errPktDrop := false
  errPktLen := false
  errCrc := false
  crcValid := false
  crcRst := true
  crcData := 0
  crc := 0
  cnt := 0
  txMaster := { tData := 0, tLast := false, tUser := .none, tValid := false }
  state := .IDLE_S

/-- Forward the first word of a frame. -/
def startFrame (p : Ports) (r v : RegType) : RegType :=
  { v with
    txMaster := { v.txMaster with
      tValid := !p.blowoffWib, tData := r.rxData
      tUser := { v.txMaster.tUser with sof := true, runEn := p.runEnable } }
    crcValid := true, crcData := r.rxData
    swFlush := p.swFlush, notSwFlush := !p.swFlush
    cnt := 1, state := .MOVE_S }

/-- The check for invalid data. -/
def checkData (r v : RegType) : RegType :=
  if r.eofe = false then
    if r.rxValid = false ∨ r.rxdataK ≠ 0b00 then
      { v with errPktLen := r.notSwFlush, eofe := r.notSwFlush }
    else v
  else v

/-- The checks after the CRC words. -/
def checkLast (crcResult : BitVec 32) (r v : RegType) : RegType :=
  if r.eofe = false then
    let v :=
      if r.rxValid = false ∨ r.rxdataK ≠ 0b11 ∨ r.rxData ≠ idle.data then
        { v with errPktLen := r.notSwFlush, eofe := r.notSwFlush }
      else v
    if r.crc ≠ crcResult ∧ v.eofe = false then
      { v with errCrc := r.notSwFlush, eofe := r.notSwFlush }
    else v
  else v

/-- The case on `r.state`. -/
def stateMachine (crcResult : BitVec 32) (p : Ports) (r v : RegType) : RegType :=
  match r.state with
  | .IDLE_S =>
      let v := { v with eofe := false, blowoffWib := p.blowoffWib }
      if r.rxValid ∧ r.rxdataK = 0b01 ∧ r.rxData.extractLsb' 0 8 = K28_5_C then
        if p.pause then { v with errPktDrop := true } else startFrame p r v
      else if p.swFlush ∧ p.pause = false then startFrame p r v
      else v
  | .MOVE_S =>
      let v := { v with
        txMaster := { v.txMaster with tValid := !r.blowoffWib, tData := r.rxData }
        crcValid := true, crcData := r.rxData }
      let v := checkData r v
      let v := { v with cnt := r.cnt + 1 }
      if r.cnt = 119 then
        { v with txMaster := { v.txMaster with tValid := false }, state := .CRC_LO_S }
      else v
  | .CRC_LO_S =>
      let v := { v with crc := r.crc.extractLsb' 16 16 ++ r.rxData }
      { checkData r v with state := .CRC_HI_S }
  | .CRC_HI_S =>
      let v := { v with crc := r.rxData ++ r.crc.extractLsb' 0 16 }
      { checkData r v with state := .LAST_S }
  | .LAST_S =>
      let v := checkLast crcResult r v
      { v with
        txMaster := { v.txMaster with
          tValid := !r.blowoffWib, tLast := true
          tUser := { v.txMaster.tUser with eofe := v.eofe, flush := r.swFlush } }
        crcRst := true, state := .IDLE_S }

/-- The registers with the strobes reset and the line sampled. -/
def sample (p : Ports) (r : RegType) : RegType :=
  { r with
    txMaster := { r.txMaster with tValid := false, tLast := false, tUser := .none }
    crcRst := false, crcValid := false
    errPktDrop := false, errPktLen := false, errCrc := false
    rxValid := p.rxValid && p.rxDecErr == 0 && p.rxDispErr == 0
    rxData := p.rxData, rxdataK := p.rxdataK }

/-- The process `comb`: the next value of the registers. -/
def comb (crcResult : BitVec 32) (rst : Bool) (p : Ports) (r : RegType) : RegType :=
  let v := stateMachine crcResult p r (sample p r)
  if rst then REG_INIT_C else v

/-! ## What was received -/

/-- A symbol in the receive registers. -/
structure RxSymbol extends LineSymbol where
  valid : Bool

/-- The receive registers. -/
def RegType.rx (r : RegType) : RxSymbol := ⟨⟨r.rxData, r.rxdataK⟩, r.rxValid⟩

/-- A valid data symbol. -/
def RxSymbol.isData (s : RxSymbol) : Bool := s.valid && s.dataK == 0b00

/-- A valid idle symbol. -/
def RxSymbol.isIdle (s : RxSymbol) : Bool := s.valid && s.toLineSymbol == idle

/-- A valid symbol that starts a frame. -/
def RxSymbol.isStart (s : RxSymbol) : Bool :=
  s.valid && s.dataK == 0b01 && s.data.extractLsb' 0 8 == K28_5_C

/-- The symbols that were received for a frame, and the flags when it was started. -/
structure Reception where
  symbols : List RxSymbol
  flush : Bool
  runEn : Bool
  blown : Bool

namespace Reception

variable {σ : Type*} (e : CrcEngine σ) (rc : Reception)

def add (s : RxSymbol) : Reception := { rc with symbols := rc.symbols ++ [s] }

/-- The words that were received. -/
def data : List (BitVec 16) := rc.symbols.map fun s => s.data

/-- The words of the frame. -/
def words : List (BitVec 16) := rc.data.take wibWords

/-- A symbol after the first one, up to the CRC, is not valid data. -/
def lengthError : Bool := (rc.symbols.tail.take 121).any fun s => !s.isData

/-- There is no idle symbol after the CRC. -/
def idleError : Bool := !((rc.symbols.drop 122).all RxSymbol.isIdle)

/-- The CRC that was received. -/
def crc : BitVec 32 := rc.data.getD 121 0 ++ rc.data.getD 120 0

def crcError : Bool := rc.crc != e.checksum rc.words

/-- An error was detected while the frame was received. -/
def error : Bool := rc.lengthError || rc.idleError || rc.crcError e

/-- The output for the words so far. -/
def openBeats : List Beat :=
  match rc.data.take 119 with
  | [] => []
  | w :: ws =>
      ⟨w, false, { TUser.none with sof := true, runEn := rc.runEn }⟩ ::
        ws.map fun w => ⟨w, false, .none⟩

/-- The output for the whole frame. -/
def frameBeats : List Beat :=
  rc.openBeats ++ [⟨rc.data.getD 119 0, true,
    { TUser.none with eofe := !rc.flush && rc.error e, flush := rc.flush }⟩]

end Reception

/-! ## Runs -/

variable {σ : Type*} (e : CrcEngine σ)

/-- The registers, the state of the CRC engine, the output so far, and what was received for the
frames that have ended and for the open one. -/
structure Monitor (σ : Type*) where
  r : RegType
  crcState : σ
  out : List Beat
  ended : List Reception
  cur : Option Reception

/-- What a register of the output sends. -/
def sentBeat (m : AxiStreamMaster (BitVec 16) TUser) : List Beat :=
  if m.tValid then [m.toAxiWord] else []

/-- One clock cycle. -/
def tick (m : Monitor σ) (p : Ports) : Monitor σ :=
  let r := comb (e.crc m.crcState) false p m.r
  { r
    crcState := e.clock m.r.crcRst m.r.crcValid m.r.crcData m.crcState
    out := m.out ++ sentBeat r.txMaster
    ended := m.ended ++ if m.r.state = .LAST_S then (m.cur.map (·.add m.r.rx)).toList else []
    cur :=
      if m.r.state = .IDLE_S then
        if r.state = .MOVE_S then some ⟨[m.r.rx], p.swFlush, p.runEnable, p.blowoffWib⟩ else none
      else if m.r.state = .LAST_S then none
      else m.cur.map (·.add m.r.rx) }

/-- After the reset. -/
def Monitor.init (s : σ) : Monitor σ := ⟨REG_INIT_C, s, [], [], none⟩

/-- The cycles since the reset. -/
def run (s : σ) (ps : List Ports) : Monitor σ := ps.foldl (tick e) (Monitor.init s)

/-! ## One clock cycle -/

/-- The state after `n` symbols of a frame. -/
def phase (n : Nat) : StateType :=
  if n ≤ 119 then .MOVE_S else if n = 120 then .CRC_LO_S else if n = 121 then .CRC_HI_S else .LAST_S

/-- The registers while a frame is received. -/
structure Receiving (m : Monitor σ) (rc : Reception) : Prop where
  cur : m.cur = some rc
  pos : 0 < rc.symbols.length
  len : rc.symbols.length ≤ 122
  state : m.r.state = phase rc.symbols.length
  cnt : rc.symbols.length ≤ 119 → m.r.cnt = rc.symbols.length
  eofe : m.r.eofe = (!rc.flush && rc.symbols.tail.any fun s => !s.isData)
  blowoffWib : m.r.blowoffWib = rc.blown
  swFlush : m.r.swFlush = rc.flush
  notSwFlush : m.r.notSwFlush = !rc.flush
  crcRst : m.r.crcRst = false
  crcOn : rc.symbols.length ≤ 120 →
    m.r.crcValid = true ∧ e.next m.crcState m.r.crcData = rc.data.foldl e.next e.seed
  crcOff : 120 < rc.symbols.length →
    m.r.crcValid = false ∧ m.crcState = rc.words.foldl e.next e.seed
  tData : 120 ≤ rc.symbols.length → m.r.txMaster.tData = rc.data.getD 119 0
  crcLo : 121 ≤ rc.symbols.length → m.r.crc.extractLsb' 0 16 = rc.data.getD 120 0
  crcHi : 122 ≤ rc.symbols.length → m.r.crc = rc.crc

/-- The registers between frames. -/
structure Gap (m : Monitor σ) : Prop where
  cur : m.cur = none
  state : m.r.state = .IDLE_S
  crcValid : m.r.crcValid = false
  seed : m.r.crcRst = true ∨ m.crcState = e.seed

/-- The output for what was received. -/
def expected (ended : List Reception) (cur : Option Reception) : List Beat :=
  (ended.filter fun rc => !rc.blown).flatMap (Reception.frameBeats e) ++
    ((cur.filter fun rc => !rc.blown).map Reception.openBeats).getD []

/-- The state between cycles. -/
structure Receives (m : Monitor σ) : Prop where
  out : m.out = expected e m.ended m.cur
  ended : ∀ rc ∈ m.ended, rc.symbols.length = 123
  phase : Gap e m ∨ ∃ rc, Receiving e m rc

variable {e} {m : Monitor σ} {rc : Reception} {p : Ports} {crcResult : BitVec 32} {r v : RegType}

theorem not_isData : r.rx.isData = false ↔ r.rxValid = false ∨ r.rxdataK ≠ 0b00 := by
  simp only [RxSymbol.isData, RegType.rx, Bool.and_eq_false_iff, beq_eq_false_iff_ne]

theorem checkData_eq (hv : v.eofe = r.eofe) (hl : v.errPktLen = false) :
    checkData r v = { v with
      errPktLen := !r.eofe && !r.rx.isData && r.notSwFlush
      eofe := r.eofe || (!r.rx.isData && r.notSwFlush) } := by
  have hkeep : v = { v with errPktLen := false, eofe := r.eofe } := by rw [← hv, ← hl]
  unfold checkData
  cases he : r.eofe
  · rw [if_pos rfl]
    cases hdata : r.rx.isData
    · rw [if_pos (not_isData.mp hdata)]
      rfl
    · rw [if_neg fun h => Bool.false_ne_true ((not_isData.mpr h).symm.trans hdata)]
      exact hkeep.trans (by rw [he]; rfl)
  · rw [if_neg (by simp)]
    exact hkeep.trans (by rw [he]; rfl)

/-- The error flag with one more symbol. -/
theorem eofe_add {flush any : Bool} (he : r.eofe = (!flush && any)) (hn : r.notSwFlush = !flush) :
    (r.eofe || (!r.rx.isData && r.notSwFlush)) = (!flush && (any || !r.rx.isData)) := by
  rw [he, hn]
  cases flush <;> cases any <;> cases r.rx.isData <;> rfl

/-! ### The fields of a reception as it grows -/

@[simp] theorem Reception.add_flush (s : RxSymbol) : (rc.add s).flush = rc.flush := rfl
@[simp] theorem Reception.add_blown (s : RxSymbol) : (rc.add s).blown = rc.blown := rfl

theorem Reception.data_add (s : RxSymbol) : (rc.add s).data = rc.data ++ [s.data] := by
  simp [Reception.data, Reception.add]

theorem Reception.length_data : rc.data.length = rc.symbols.length := List.length_map _

theorem Reception.length_add (s : RxSymbol) :
    (rc.add s).symbols.length = rc.symbols.length + 1 := by
  simp [Reception.add]

theorem Reception.tail_add (hpos : 0 < rc.symbols.length) (s : RxSymbol) :
    (rc.add s).symbols.tail = rc.symbols.tail ++ [s] :=
  List.tail_append_of_ne_nil (List.ne_nil_of_length_pos hpos)

theorem Reception.words_eq (h : rc.symbols.length ≤ 120) : rc.words = rc.data :=
  List.take_of_length_le (by rw [Reception.length_data]; exact h)

theorem Reception.words_add (h : 120 ≤ rc.symbols.length) (s : RxSymbol) :
    (rc.add s).words = rc.words := by
  rw [Reception.words, Reception.data_add, List.take_append_of_le_length]
  · rfl
  · rw [Reception.length_data]
    exact h

theorem Reception.getD_data_add {k : Nat} (h : k < rc.symbols.length) (s : RxSymbol) :
    (rc.add s).data.getD k 0 = rc.data.getD k 0 := by
  rw [Reception.data_add, List.getD_append _ _ _ _ (by rw [Reception.length_data]; exact h)]

theorem Reception.getD_data_length (s : RxSymbol) :
    (rc.add s).data.getD rc.symbols.length 0 = s.data := by
  rw [Reception.data_add, List.getD_append_right _ _ _ _ (Nat.le_of_eq Reception.length_data),
    Reception.length_data, Nat.sub_self]
  rfl

theorem Reception.openBeats_add (hpos : 0 < rc.symbols.length) (h : rc.symbols.length < 119)
    (s : RxSymbol) : (rc.add s).openBeats = rc.openBeats ++ [⟨s.data, false, .none⟩] := by
  have hne : rc.data ≠ [] := List.ne_nil_of_length_pos (by rw [Reception.length_data]; exact hpos)
  obtain ⟨w, ws, hdata⟩ := List.exists_cons_of_ne_nil hne
  have hws : (w :: ws).length < 119 := by rw [← hdata, Reception.length_data]; exact h
  have hlong : (w :: (ws ++ [s.data])).length ≤ 119 := by simp at hws ⊢; omega
  unfold Reception.openBeats
  rw [Reception.data_add, hdata, List.cons_append, List.take_of_length_le hlong,
    List.take_of_length_le (Nat.le_of_lt hws)]
  simp [Reception.add]

theorem Reception.openBeats_add_of_le (h : 119 ≤ rc.symbols.length) (s : RxSymbol) :
    (rc.add s).openBeats = rc.openBeats := by
  unfold Reception.openBeats
  rw [Reception.data_add, List.take_append_of_le_length (by rw [Reception.length_data]; exact h)]
  rfl

/-! ### The next registers in each state -/

/-- The registers of a cycle between frames. -/
def idleRegs (p : Ports) (r : RegType) : RegType :=
  { sample p r with eofe := false, blowoffWib := p.blowoffWib }

theorem isStart_iff : r.rx.isStart = true ↔
    r.rxValid = true ∧ r.rxdataK = 0b01 ∧ r.rxData.extractLsb' 0 8 = K28_5_C := by
  simp only [RxSymbol.isStart, RegType.rx, Bool.and_eq_true, beq_iff_eq, and_assoc]

theorem comb_idle (h : r.state = .IDLE_S) :
    comb crcResult false p r =
      if p.pause = false ∧ (r.rx.isStart = true ∨ p.swFlush = true) then
        startFrame p r (idleRegs p r)
      else { idleRegs p r with errPktDrop := r.rx.isStart && p.pause } := by
  simp only [comb, stateMachine, h, Bool.false_eq_true, if_false, ← isStart_iff]
  cases r.rx.isStart <;> cases p.pause <;> cases p.swFlush <;> rfl

theorem comb_move (h : r.state = .MOVE_S) :
    comb crcResult false p r = { sample p r with
      txMaster := { (sample p r).txMaster with
        tValid := !r.blowoffWib && decide (r.cnt ≠ 119), tData := r.rxData }
      crcValid := true, crcData := r.rxData
      errPktLen := !r.eofe && !r.rx.isData && r.notSwFlush
      eofe := r.eofe || (!r.rx.isData && r.notSwFlush)
      cnt := r.cnt + 1
      state := if r.cnt = 119 then .CRC_LO_S else .MOVE_S } := by
  simp only [comb, stateMachine, h, Bool.false_eq_true, if_false]
  rw [checkData_eq (by rfl) (by rfl)]
  by_cases hcnt : r.cnt = 119
  · simp only [hcnt, ne_eq, not_true_eq_false, decide_false, Bool.and_false, ↓reduceIte]
  · simp only [hcnt, ne_eq, not_false_eq_true, decide_true, Bool.and_true, sample, h, ↓reduceIte]

theorem comb_crcLo (h : r.state = .CRC_LO_S) :
    comb crcResult false p r = { sample p r with
      crc := r.crc.extractLsb' 16 16 ++ r.rxData
      errPktLen := !r.eofe && !r.rx.isData && r.notSwFlush
      eofe := r.eofe || (!r.rx.isData && r.notSwFlush)
      state := .CRC_HI_S } := by
  simp only [comb, stateMachine, h, Bool.false_eq_true, if_false]
  rw [checkData_eq (by rfl) (by rfl)]

theorem comb_crcHi (h : r.state = .CRC_HI_S) :
    comb crcResult false p r = { sample p r with
      crc := r.rxData ++ r.crc.extractLsb' 0 16
      errPktLen := !r.eofe && !r.rx.isData && r.notSwFlush
      eofe := r.eofe || (!r.rx.isData && r.notSwFlush)
      state := .LAST_S } := by
  simp only [comb, stateMachine, h, Bool.false_eq_true, if_false]
  rw [checkData_eq (by rfl) (by rfl)]

theorem not_isIdle : r.rx.isIdle = false ↔
    r.rxValid = false ∨ r.rxdataK ≠ 0b11 ∨ r.rxData ≠ idle.data := by
  have hsymbol : (⟨r.rxData, r.rxdataK⟩ : LineSymbol) = idle ↔
      r.rxdataK = 0b11 ∧ r.rxData = idle.data := by
    rw [idle, LineSymbol.mk.injEq]
    exact And.comm
  rw [RxSymbol.isIdle, RegType.rx, Bool.and_eq_false_iff, beq_eq_false_iff_ne, ne_eq, hsymbol,
    not_and_or]

theorem checkLast_eq (hv : v.eofe = r.eofe) (hl : v.errPktLen = false) (hc : v.errCrc = false) :
    checkLast crcResult r v = { v with
      errPktLen := !r.eofe && !r.rx.isIdle && r.notSwFlush
      errCrc := !r.eofe && !(!r.rx.isIdle && r.notSwFlush) && r.crc != crcResult && r.notSwFlush
      eofe := r.eofe || ((!r.rx.isIdle || r.crc != crcResult) && r.notSwFlush) } := by
  have hkeep : v = { v with errPktLen := false, errCrc := false, eofe := r.eofe } := by
    rw [← hv]
    cases v
    cases hl
    cases hc
    rfl
  rw [hkeep]
  unfold checkLast
  cases he : r.eofe
  · rw [if_pos rfl]
    cases hidle : r.rx.isIdle
    · rw [if_pos (not_isIdle.mp hidle)]
      by_cases hcrc : r.crc = crcResult <;> cases r.notSwFlush <;> simp [hcrc]
    · rw [if_neg fun h => Bool.false_ne_true ((not_isIdle.mpr h).symm.trans hidle)]
      by_cases hcrc : r.crc = crcResult <;> simp [hcrc]
  · rw [if_neg (by simp)]
    simp

theorem comb_last (h : r.state = .LAST_S) :
    comb crcResult false p r = { sample p r with
      errPktLen := !r.eofe && !r.rx.isIdle && r.notSwFlush
      errCrc := !r.eofe && !(!r.rx.isIdle && r.notSwFlush) && r.crc != crcResult && r.notSwFlush
      eofe := r.eofe || ((!r.rx.isIdle || r.crc != crcResult) && r.notSwFlush)
      txMaster := { (sample p r).txMaster with
        tValid := !r.blowoffWib, tLast := true
        tUser := { TUser.none with
          eofe := r.eofe || ((!r.rx.isIdle || r.crc != crcResult) && r.notSwFlush)
          flush := r.swFlush } }
      crcRst := true
      state := .IDLE_S } := by
  simp only [comb, stateMachine, h, Bool.false_eq_true, if_false]
  rw [checkLast_eq (by rfl) (by rfl) (by rfl)]
  rfl

/-- The receive registers sample the line in every state. -/
theorem comb_rx (p : Ports) (r : RegType) : (comb crcResult false p r).rx =
    ⟨⟨p.rxData, p.rxdataK⟩, p.rxValid && p.rxDecErr == 0 && p.rxDispErr == 0⟩ := by
  cases h : r.state with
  | IDLE_S =>
    rw [comb_idle h]
    split <;> rfl
  | MOVE_S => rw [comb_move h]; rfl
  | CRC_LO_S => rw [comb_crcLo h]; rfl
  | CRC_HI_S => rw [comb_crcHi h]; rfl
  | LAST_S => rw [comb_last h]; rfl

/-! ### One clock cycle of a run -/

/-- A cycle between frames does not end one. -/
theorem Gap.tick_cur (h : Gap e m) (p : Ports) :
    (tick e m p).crcState = e.seed ∧ (tick e m p).ended = m.ended ∧
      (tick e m p).cur =
        if (tick e m p).r.state = .MOVE_S then
          some ⟨[m.r.rx], p.swFlush, p.runEnable, p.blowoffWib⟩
        else none := by
  refine ⟨?_, ?_, ?_⟩
  · change e.clock m.r.crcRst m.r.crcValid m.r.crcData m.crcState = e.seed
    rw [h.crcValid]
    rcases h.seed with hrst | hseed
    · rw [hrst, CrcEngine.clock_init]
    · rw [hseed]
      cases m.r.crcRst <;> rfl
  · change m.ended ++ (if m.r.state = .LAST_S then _ else _) = _
    rw [h.state]
    exact List.append_nil _
  · change (if m.r.state = .IDLE_S then _ else _) = _
    rw [if_pos h.state]
    rfl

/-- A frame is started. -/
theorem Gap.tick_start (h : Gap e m) (hr : (tick e m p).r = startFrame p m.r (idleRegs p m.r)) :
    Receiving e (tick e m p) ⟨[m.r.rx], p.swFlush, p.runEnable, p.blowoffWib⟩ ∧
      (tick e m p).ended = m.ended ∧
      (tick e m p).out = m.out ++ if p.blowoffWib then [] else
        (⟨[m.r.rx], p.swFlush, p.runEnable, p.blowoffWib⟩ : Reception).openBeats := by
  obtain ⟨hseed, hended, hcur⟩ := h.tick_cur p
  rw [hr] at hcur
  refine ⟨⟨hcur, Nat.zero_lt_one, by simp, ?_, ?_, ?_, ?_, ?_, ?_, ?_, ?_, ?_, ?_, ?_, ?_⟩,
    hended, ?_⟩
  · rw [hr]
    rfl
  · intro _
    rw [hr]
    rfl
  · rw [hr]
    simp [startFrame, idleRegs]
  · rw [hr]
    rfl
  · rw [hr]
    rfl
  · rw [hr]
    rfl
  · rw [hr]
    rfl
  · intro _
    rw [hr, hseed]
    exact ⟨rfl, rfl⟩
  · exact fun h => absurd h (by simp)
  · exact fun h => absurd h (by simp)
  · exact fun h => absurd h (by simp)
  · exact fun h => absurd h (by simp)
  · change m.out ++ sentBeat (tick e m p).r.txMaster = _
    rw [hr]
    cases hblown : p.blowoffWib <;> simp [sentBeat, startFrame, idleRegs, sample, hblown,
      Reception.openBeats, Reception.data, RegType.rx]

/-- No frame is started. -/
theorem Gap.tick_stay (h : Gap e m) {d : Bool}
    (hr : (tick e m p).r = { idleRegs p m.r with errPktDrop := d }) :
    Gap e (tick e m p) ∧ (tick e m p).ended = m.ended ∧ (tick e m p).out = m.out := by
  obtain ⟨hseed, hended, hcur⟩ := h.tick_cur p
  have hstate : (tick e m p).r.state = .IDLE_S := by
    rw [hr]
    exact h.state
  refine ⟨⟨?_, hstate, by rw [hr]; rfl, .inr hseed⟩, hended, ?_⟩
  · rw [hcur, hstate]
    rfl
  · change m.out ++ sentBeat (tick e m p).r.txMaster = _
    rw [hr]
    exact List.append_nil _

theorem Gap.step (h : Gap e m) (p : Ports) :
    (Gap e (tick e m p) ∧ (tick e m p).ended = m.ended ∧ (tick e m p).out = m.out) ∨
      ∃ rc, Receiving e (tick e m p) rc ∧ (tick e m p).ended = m.ended ∧
        (tick e m p).out = m.out ++ if rc.blown then [] else rc.openBeats := by
  have hr : (tick e m p).r = _ := comb_idle h.state
  split at hr
  · exact .inr ⟨_, h.tick_start hr⟩
  · exact .inl (h.tick_stay hr)

theorem phase_move {n : Nat} (h : n ≤ 119) : phase n = .MOVE_S := if_pos h

theorem Receiving.crcState_next (h : Receiving e m rc) :
    (if m.r.crcValid then e.next m.crcState m.r.crcData else m.crcState) =
      rc.words.foldl e.next e.seed := by
  by_cases hon : rc.symbols.length ≤ 120
  · rw [(h.crcOn hon).1, if_pos rfl, (h.crcOn hon).2, Reception.words_eq hon]
  · rw [(h.crcOff (Nat.lt_of_not_le hon)).1, (h.crcOff (Nat.lt_of_not_le hon)).2]
    rfl

/-- A cycle that is not the last one of a frame. -/
theorem Receiving.tick_cur (h : Receiving e m rc) (hlast : m.r.state ≠ .LAST_S)
    (hidle : m.r.state ≠ .IDLE_S) (p : Ports) :
    (tick e m p).cur = some (rc.add m.r.rx) ∧ (tick e m p).ended = m.ended ∧
      (tick e m p).crcState = rc.words.foldl e.next e.seed := by
  refine ⟨?_, ?_, ?_⟩
  · change (if m.r.state = .IDLE_S then _ else if m.r.state = .LAST_S then _ else
      m.cur.map (·.add m.r.rx)) = _
    rw [if_neg hidle, if_neg hlast, h.cur]
    rfl
  · change m.ended ++ (if m.r.state = .LAST_S then _ else _) = _
    rw [if_neg hlast]
    exact List.append_nil _
  · change e.clock m.r.crcRst m.r.crcValid m.r.crcData m.crcState = _
    rw [h.crcRst, ← h.crcState_next]
    cases m.r.crcValid <;> rfl

/-- A word of a frame. -/
theorem Receiving.step_move (h : Receiving e m rc) (hn : rc.symbols.length ≤ 119) (p : Ports) :
    Receiving e (tick e m p) (rc.add m.r.rx) ∧ (tick e m p).ended = m.ended ∧
      (tick e m p).out = m.out ++
        if rc.blown ∨ rc.symbols.length = 119 then [] else [⟨m.r.rxData, false, .none⟩] := by
  have hstate : m.r.state = .MOVE_S := h.state.trans (phase_move hn)
  obtain ⟨hcur, hended, hcrc⟩ := h.tick_cur (by rw [hstate]; decide) (by rw [hstate]; decide) p
  have hr : (tick e m p).r = _ := comb_move hstate
  have hlen := rc.length_add m.r.rx
  refine ⟨⟨hcur, by omega, by omega, ?_, ?_, ?_, ?_, ?_, ?_, ?_, ?_, ?_, ?_, ?_, ?_⟩, hended, ?_⟩
  · rw [hr, hlen, h.cnt hn]
    unfold phase
    split_ifs <;> first | rfl | omega
  · intro _
    rw [hr, hlen]
    exact congrArg (· + 1) (h.cnt hn)
  · rw [hr, Reception.tail_add h.pos, List.any_append]
    simpa using eofe_add h.eofe h.notSwFlush
  · rw [hr]
    exact h.blowoffWib
  · rw [hr]
    exact h.swFlush
  · rw [hr]
    exact h.notSwFlush
  · rw [hr]
    rfl
  · intro _
    rw [hr, hcrc, Reception.words_eq (by omega), Reception.data_add, List.foldl_append]
    exact ⟨rfl, rfl⟩
  · intro hlt
    omega
  · intro hle
    have hn' : rc.symbols.length = 119 := by omega
    have hget := rc.getD_data_length m.r.rx
    rw [hn'] at hget
    rw [hr, hget]
    rfl
  · intro hle
    omega
  · intro hle
    omega
  · change m.out ++ sentBeat (tick e m p).r.txMaster = _
    rw [hr, h.blowoffWib, h.cnt hn]
    cases rc.blown <;> by_cases hlast : rc.symbols.length = 119 <;> simp [sentBeat, sample, hlast]

/-- A symbol of the CRC. -/
theorem Receiving.step_crc (h : Receiving e m rc) (hlo : 120 ≤ rc.symbols.length)
    (hhi : rc.symbols.length ≤ 121) (p : Ports) :
    Receiving e (tick e m p) (rc.add m.r.rx) ∧ (tick e m p).ended = m.ended ∧
      (tick e m p).out = m.out := by
  have hlen := rc.length_add m.r.rx
  have hget := rc.getD_data_length m.r.rx
  have hkeep {k : Nat} (hk : k < rc.symbols.length) := rc.getD_data_add hk m.r.rx
  have hcases : rc.symbols.length = 120 ∨ rc.symbols.length = 121 := by omega
  rcases hcases with hn | hn
  · have hstate : m.r.state = .CRC_LO_S := h.state.trans (by rw [hn]; rfl)
    obtain ⟨hcur, hended, hcrc⟩ := h.tick_cur (by rw [hstate]; decide) (by rw [hstate]; decide) p
    have hr : (tick e m p).r = _ := comb_crcLo hstate
    refine ⟨⟨hcur, by omega, by omega, ?_, ?_, ?_, ?_, ?_, ?_, ?_, ?_, ?_, ?_, ?_, ?_⟩, hended, ?_⟩
    · rw [hr, hlen, hn]
      rfl
    · intro hle
      omega
    · rw [hr, Reception.tail_add h.pos, List.any_append]
      simpa using eofe_add h.eofe h.notSwFlush
    · rw [hr]
      exact h.blowoffWib
    · rw [hr]
      exact h.swFlush
    · rw [hr]
      exact h.notSwFlush
    · rw [hr]
      rfl
    · intro hle
      omega
    · intro _
      rw [hr, hcrc, Reception.words_add hlo]
      exact ⟨rfl, rfl⟩
    · intro _
      rw [hr, hkeep (by omega), ← h.tData hlo]
      rfl
    · intro _
      rw [hn] at hget
      rw [hr, hget]
      exact BitVec.extractLsb'_append_eq_right
    · intro hle
      omega
    · change m.out ++ sentBeat (tick e m p).r.txMaster = _
      rw [hr]
      exact List.append_nil _
  · have hstate : m.r.state = .CRC_HI_S := h.state.trans (by rw [hn]; rfl)
    obtain ⟨hcur, hended, hcrc⟩ := h.tick_cur (by rw [hstate]; decide) (by rw [hstate]; decide) p
    have hr : (tick e m p).r = _ := comb_crcHi hstate
    refine ⟨⟨hcur, by omega, by omega, ?_, ?_, ?_, ?_, ?_, ?_, ?_, ?_, ?_, ?_, ?_, ?_⟩, hended, ?_⟩
    · rw [hr, hlen, hn]
      rfl
    · intro hle
      omega
    · rw [hr, Reception.tail_add h.pos, List.any_append]
      simpa using eofe_add h.eofe h.notSwFlush
    · rw [hr]
      exact h.blowoffWib
    · rw [hr]
      exact h.swFlush
    · rw [hr]
      exact h.notSwFlush
    · rw [hr]
      rfl
    · intro hle
      omega
    · intro _
      rw [hr, hcrc, Reception.words_add hlo]
      exact ⟨rfl, rfl⟩
    · intro _
      rw [hr, hkeep (by omega), ← h.tData hlo]
      rfl
    · intro _
      rw [hr, hkeep (by omega), ← h.crcLo (by omega)]
      exact BitVec.extractLsb'_append_eq_right
    · intro _
      rw [hn] at hget
      rw [hr, Reception.crc, hget, hkeep (by omega), ← h.crcLo (by omega)]
      rfl
    · change m.out ++ sentBeat (tick e m p).r.txMaster = _
      rw [hr]
      exact List.append_nil _

/-- The flags of a whole frame, from the registers before its last symbol. -/
theorem Receiving.error_add (h : Receiving e m rc) (hn : rc.symbols.length = 122) :
    (m.r.eofe || ((!m.r.rx.isIdle || m.r.crc != e.crc m.crcState) && m.r.notSwFlush)) =
      (!rc.flush && (rc.add m.r.rx).error e) := by
  have hlength : (rc.add m.r.rx).lengthError = rc.symbols.tail.any fun s => !s.isData := by
    have htake : (rc.symbols.tail ++ [m.r.rx]).take 121 = rc.symbols.tail := by
      rw [List.take_append_of_le_length (by simp [hn]), List.take_of_length_le (by simp [hn])]
    rw [Reception.lengthError, Reception.tail_add h.pos, htake]
  have hidle : (rc.add m.r.rx).idleError = !m.r.rx.isIdle := by
    have hdrop : (rc.symbols ++ [m.r.rx]).drop 122 = [m.r.rx] := by
      rw [List.drop_append_of_le_length (by omega), List.drop_of_length_le (by omega)]
      rfl
    simp [Reception.idleError, Reception.add, hdrop]
  have hcrc : (rc.add m.r.rx).crcError e = (m.r.crc != e.crc m.crcState) := by
    rw [Reception.crcError, Reception.crc, Reception.getD_data_add (by omega),
      Reception.getD_data_add (by omega), Reception.words_add (by omega), CrcEngine.checksum,
      ← (h.crcOff (by omega)).2, h.crcHi (by omega)]
    rfl
  rw [Reception.error, hlength, hidle, hcrc, h.eofe, h.notSwFlush]
  cases rc.flush <;> simp [Bool.or_assoc]

/-- The symbol after the CRC ends the frame. -/
theorem Receiving.step_last (h : Receiving e m rc) (hn : rc.symbols.length = 122) (p : Ports) :
    Gap e (tick e m p) ∧ (tick e m p).ended = m.ended ++ [rc.add m.r.rx] ∧
      (tick e m p).out = m.out ++ if rc.blown then [] else
        [⟨rc.data.getD 119 0, true,
          { TUser.none with
            eofe := !rc.flush && (rc.add m.r.rx).error e
            flush := rc.flush }⟩] := by
  have hstate : m.r.state = .LAST_S := h.state.trans (by rw [hn]; rfl)
  have hr : (tick e m p).r = _ := comb_last hstate
  rw [h.error_add hn] at hr
  refine ⟨⟨?_, ?_, ?_, ?_⟩, ?_, ?_⟩
  · change (if m.r.state = .IDLE_S then _ else if m.r.state = .LAST_S then _ else _) = _
    rw [hstate]
    rfl
  · rw [hr]
  · rw [hr]
    rfl
  · left
    rw [hr]
  · change m.ended ++ (if m.r.state = .LAST_S then _ else _) = _
    rw [if_pos hstate, h.cur]
    rfl
  · change m.out ++ sentBeat (tick e m p).r.txMaster = _
    rw [hr, h.blowoffWib, h.swFlush]
    cases rc.blown
    · rw [← h.tData (by omega)]
      rfl
    · rfl

/-- A symbol of a frame that does not end it. -/
theorem Receiving.step (h : Receiving e m rc) (hn : rc.symbols.length < 122) (p : Ports)
    {sent : List Beat} (hout : m.out = sent ++ if rc.blown then [] else rc.openBeats) :
    Receiving e (tick e m p) (rc.add m.r.rx) ∧ (tick e m p).ended = m.ended ∧
      (tick e m p).out = sent ++ if rc.blown then [] else (rc.add m.r.rx).openBeats := by
  by_cases hmove : rc.symbols.length ≤ 119
  · obtain ⟨hnext, hended, hgrow⟩ := h.step_move hmove p
    refine ⟨hnext, hended, ?_⟩
    rw [hgrow, hout]
    cases rc.blown
    · by_cases hlast : rc.symbols.length = 119
      · simp [hlast, Reception.openBeats_add_of_le (Nat.le_of_eq hlast.symm)]
      · have hopen := Reception.openBeats_add h.pos (by omega : rc.symbols.length < 119) m.r.rx
        simp only [hopen, hlast, Bool.false_eq_true, or_self, if_false, List.append_assoc]
        rfl
    · simp
  · obtain ⟨hnext, hended, hgrow⟩ := h.step_crc (by omega) (by omega) p
    refine ⟨hnext, hended, ?_⟩
    rw [hgrow, hout, Reception.openBeats_add_of_le (by omega)]

theorem Receiving.next (h : Receiving e m rc) (hn : rc.symbols.length < 122) (p : Ports) :
    Receiving e (tick e m p) (rc.add m.r.rx) ∧ (tick e m p).ended = m.ended := by
  by_cases hmove : rc.symbols.length ≤ 119
  · obtain ⟨hnext, hended, -⟩ := h.step_move hmove p
    exact ⟨hnext, hended⟩
  · obtain ⟨hnext, hended, -⟩ := h.step_crc (by omega) (by omega) p
    exact ⟨hnext, hended⟩

/-! ### Runs -/

theorem expected_some (ended : List Reception) :
    expected e ended (some rc) =
      expected e ended none ++ if rc.blown then [] else rc.openBeats := by
  cases hb : rc.blown <;> simp [expected, Option.filter_some, hb]

theorem expected_append_singleton (ended : List Reception) :
    expected e (ended ++ [rc]) none =
      expected e ended none ++ if rc.blown then [] else rc.frameBeats e := by
  cases hb : rc.blown <;> simp [expected, hb]

theorem Receives.init (s : σ) : Receives e (Monitor.init s) :=
  ⟨rfl, fun _ h => absurd h List.not_mem_nil, .inl ⟨rfl, rfl, rfl, .inl rfl⟩⟩

theorem Receives.step (h : Receives e m) (p : Ports) : Receives e (tick e m p) := by
  have hout := h.out
  rcases h.phase with hgap | ⟨rc, hrc⟩
  · rw [hgap.cur] at hout
    rcases hgap.step p with ⟨hgap', hended, hsent⟩ | ⟨rc, hrc, hended, hsent⟩
    · refine ⟨?_, hended ▸ h.ended, .inl hgap'⟩
      rw [hsent, hended, hgap'.cur, hout]
    · refine ⟨?_, hended ▸ h.ended, .inr ⟨rc, hrc⟩⟩
      rw [hsent, hended, hrc.cur, expected_some, hout]
  · rw [hrc.cur, expected_some] at hout
    by_cases hn : rc.symbols.length = 122
    · obtain ⟨hgap, hended, hsent⟩ := hrc.step_last hn p
      refine ⟨?_, ?_, .inl hgap⟩
      · rw [hsent, hended, hgap.cur, expected_append_singleton, hout, List.append_assoc]
        congr 1
        rw [Reception.add_blown]
        cases rc.blown
        · rw [Reception.frameBeats, Reception.getD_data_add (by omega),
            Reception.openBeats_add_of_le (by omega)]
          rfl
        · rfl
      · intro rc' hrc'
        rw [hended] at hrc'
        rcases List.mem_append.mp hrc' with hmem | hmem
        · exact h.ended rc' hmem
        · rw [List.mem_singleton.mp hmem, Reception.length_add, hn]
    · have hlen := hrc.len
      obtain ⟨hrc', hended, hsent⟩ := hrc.step (by omega) p hout
      refine ⟨?_, hended ▸ h.ended, .inr ⟨_, hrc'⟩⟩
      rw [hsent, hended, hrc'.cur, expected_some, Reception.add_blown]

theorem Receives.foldl (h : Receives e m) (ps : List Ports) : Receives e (ps.foldl (tick e) m) := by
  induction ps generalizing m with
  | nil => exact h
  | cons p ps ih => exact ih (h.step p)

/-- An open frame ends after 123 symbols, whatever they are. -/
theorem Receiving.complete (h : Receiving e m rc) (qs : List Ports)
    (hlen : rc.symbols.length + qs.length = 123) :
    ∃ t, Gap e (qs.foldl (tick e) m) ∧
      (qs.foldl (tick e) m).ended = m.ended ++ [{ rc with symbols := rc.symbols ++ t }] := by
  induction qs generalizing m rc with
  | nil =>
    have hle := h.len
    have hrc : rc.symbols.length = 123 := hlen
    omega
  | cons q qs ih =>
    have hle := h.len
    rw [List.length_cons] at hlen
    by_cases hn : rc.symbols.length = 122
    · obtain ⟨hgap, hended, -⟩ := h.step_last hn q
      have hnil : qs = [] := List.eq_nil_of_length_eq_zero (by omega)
      subst hnil
      exact ⟨[m.r.rx], hgap, hended⟩
    · have hnext : Receiving e (tick e m q) (rc.add m.r.rx) ∧ (tick e m q).ended = m.ended := by
        by_cases hmove : rc.symbols.length ≤ 119
        · exact ⟨(h.step_move hmove q).1, (h.step_move hmove q).2.1⟩
        · exact ⟨(h.step_crc (by omega) (by omega) q).1, (h.step_crc (by omega) (by omega) q).2.1⟩
      have hlen' : (rc.add m.r.rx).symbols.length + qs.length = 123 := by
        rw [Reception.length_add]
        omega
      obtain ⟨hnext, hkept⟩ := h.next (by omega) q
      obtain ⟨t, hgap, hended⟩ := ih hnext hlen'
      refine ⟨m.r.rx :: t, hgap, ?_⟩
      rw [List.foldl_cons, hended, hkept, Reception.add, List.append_assoc]
      rfl

/-! ## The output -/

variable (e) in
/-- The frame `f` is whole and carries what was received. -/
structure Reception.Carried (rc : Reception) (f : List Beat) : Prop where
  length : f.length = wibWords
  data : f.map AxiWord.tData = rc.words
  sof : ∀ i b, f[i]? = some b → (b.tUser.sof = true ↔ i = 0)
  tLast : ∀ i b, f[i]? = some b → (b.tLast = true ↔ i = wibWords - 1)
  flush : ∀ b ∈ f.getLast?, b.tUser.flush = rc.flush
  eofe : ∀ b ∈ f.getLast?, rc.flush = false →
    (b.tUser.eofe = true ↔ rc.lengthError = true ∨ rc.idleError = true ∨ rc.crcError e = true)

theorem Reception.length_openBeats : rc.openBeats.length = min 119 rc.symbols.length := by
  have hlen : (rc.data.take 119).length = min 119 rc.symbols.length := by
    rw [List.length_take, Reception.length_data]
  unfold Reception.openBeats
  cases hdata : rc.data.take 119 with
  | nil => rw [← hlen, hdata]; rfl
  | cons w ws => rw [← hlen, hdata]; simp

theorem Reception.tData_openBeats : rc.openBeats.map AxiWord.tData = rc.data.take 119 := by
  unfold Reception.openBeats
  cases rc.data.take 119 with
  | nil => rfl
  | cons w ws => simp [Function.comp_def]

theorem Reception.tLast_openBeats : ∀ b ∈ rc.openBeats, b.tLast = false := by
  unfold Reception.openBeats
  cases rc.data.take 119 with
  | nil => exact fun _ h => absurd h List.not_mem_nil
  | cons w ws => simp

theorem Reception.tUser_openBeats :
    ∀ b ∈ rc.openBeats, b.tUser.eofe = false ∧ b.tUser.flush = false := by
  unfold Reception.openBeats
  cases rc.data.take 119 with
  | nil => exact fun _ h => absurd h List.not_mem_nil
  | cons w ws => simp [TUser.none]

theorem Reception.sof_openBeats {i : Nat} {b : Beat} (h : rc.openBeats[i]? = some b) :
    b.tUser.sof = true ↔ i = 0 := by
  unfold Reception.openBeats at h
  cases hdata : rc.data.take 119 with
  | nil => simp [hdata] at h
  | cons w ws =>
    rw [hdata] at h
    cases i with
    | zero =>
      rw [← Option.some.inj h]
      simp
    | succ i =>
      obtain ⟨w', -, rfl⟩ := List.mem_map.mp (List.mem_of_getElem? h)
      simp [TUser.none]

theorem Reception.isFrame_frameBeats (rc : Reception) :
    IsFrame AxiWord.tLast (rc.frameBeats e) :=
  ⟨_, _, rfl, rfl, Reception.tLast_openBeats⟩

/-- The output for a frame that has ended. -/
theorem Reception.carried (h : rc.symbols.length = 123) :
    rc.Carried e (rc.frameBeats e) := by
  have hopen : rc.openBeats.length = 119 := by
    rw [Reception.length_openBeats, h]
    rfl
  have hdata : rc.data.length = 123 := Reception.length_data.trans h
  have hcases (i : Nat) (b : Beat) (hb : (rc.frameBeats e)[i]? = some b) :
      (i < 119 ∧ rc.openBeats[i]? = some b) ∨ (i = 119 ∧ b = ⟨rc.data.getD 119 0, true,
        { TUser.none with eofe := !rc.flush && rc.error e, flush := rc.flush }⟩) := by
    rw [Reception.frameBeats, List.getElem?_append] at hb
    split at hb
    · exact .inl ⟨by omega, hb⟩
    · obtain ⟨hi, hb⟩ := List.getElem?_eq_some_iff.mp hb
      rw [List.length_singleton] at hi
      exact .inr ⟨by omega, by rw [← hb, List.getElem_singleton]⟩
  refine ⟨?_, ?_, ?_, ?_, ?_, ?_⟩
  · simp [Reception.frameBeats, hopen, wibWords]
  · have htake : rc.data.take (119 + 1) = rc.data.take 119 ++ [rc.data.getD 119 0] := by
      rw [List.take_add_one, List.getElem?_eq_getElem (by omega : 119 < rc.data.length),
        ← List.getD_eq_getElem rc.data 0]
      rfl
    rw [Reception.frameBeats, List.map_append, Reception.tData_openBeats]
    exact htake.symm
  · intro i b hb
    rcases hcases i b hb with ⟨hlt, hb⟩ | ⟨rfl, rfl⟩
    · exact Reception.sof_openBeats hb
    · simp [TUser.none]
  · intro i b hb
    rcases hcases i b hb with ⟨hlt, hb⟩ | ⟨rfl, rfl⟩
    · rw [Reception.tLast_openBeats b (List.mem_of_getElem? hb)]
      simp only [Bool.false_eq_true, false_iff, wibWords]
      omega
    · simp [wibWords]
  · intro b hb
    rw [Reception.frameBeats, List.getLast?_concat, Option.mem_some] at hb
    rw [← hb]
  · intro b hb hflush
    rw [Reception.frameBeats, List.getLast?_concat, Option.mem_some] at hb
    rw [← hb, hflush]
    simp [Reception.error, or_assoc]

/-- The frames of the output. -/
theorem Receives.frames_out (h : Receives e m) : frames AxiWord.tLast m.out =
    ⟨(m.ended.filter fun rc => !rc.blown).map (Reception.frameBeats e),
      ((m.cur.filter fun rc => !rc.blown).map Reception.openBeats).getD []⟩ := by
  rw [h.out, expected, List.flatMap_def]
  apply frames_flatten
  · intro f hf
    obtain ⟨rc, -, rfl⟩ := List.mem_map.mp hf
    exact rc.isFrame_frameBeats
  · cases m.cur.filter fun rc => !rc.blown with
    | none => exact fun _ h => absurd h List.not_mem_nil
    | some rc => exact rc.tLast_openBeats

theorem run_append (s : σ) (ps qs : List Ports) :
    run e s (ps ++ qs) = qs.foldl (tick e) (run e s ps) := List.foldl_append

variable (e) in
theorem receives_run (s : σ) (ps : List Ports) : Receives e (run e s ps) :=
  (Receives.init s).foldl ps

variable (e) in
/-- In every run the output is cut into the frames that were not blown off, each one whole and
with the flags of what was received for it. Between frames nothing is left open, and a frame that
is open ends with its 123rd symbol, whatever comes. -/
theorem framer_robust (s : σ) (ps : List Ports) :
    List.Forall₂ (Reception.Carried e) ((run e s ps).ended.filter fun rc => !rc.blown)
        (frames AxiWord.tLast (run e s ps).out).complete ∧
      ((run e s ps).r.state = .IDLE_S →
        (run e s ps).cur = none ∧ (frames AxiWord.tLast (run e s ps).out).rest = []) ∧
      ((run e s ps).r.state ≠ .IDLE_S → ∃ rc, (run e s ps).cur = some rc ∧
        ∀ qs, rc.symbols.length + qs.length = 123 → ∃ t,
          (run e s (ps ++ qs)).r.state = .IDLE_S ∧
          (run e s (ps ++ qs)).ended =
            (run e s ps).ended ++ [{ rc with symbols := rc.symbols ++ t }]) := by
  have h := receives_run e s ps
  refine ⟨?_, ?_, ?_⟩
  · rw [h.frames_out, List.forall₂_map_right_iff, List.forall₂_same]
    intro rc hrc
    exact Reception.carried (h.ended rc (List.mem_filter.mp hrc).1)
  · intro hidle
    have hcur : (run e s ps).cur = none := by
      rcases h.phase with hgap | ⟨rc, hrc⟩
      · exact hgap.cur
      · have hphase : ∀ n, phase n ≠ .IDLE_S := by
          intro n
          unfold phase
          split_ifs <;> exact StateType.noConfusion
        exact absurd (hrc.state.symm.trans hidle) (hphase _)
    refine ⟨hcur, ?_⟩
    rw [h.frames_out, hcur]
    rfl
  · intro hidle
    rcases h.phase with hgap | ⟨rc, hrc⟩
    · exact absurd hgap.state hidle
    · refine ⟨rc, hrc.cur, fun qs hlen => ?_⟩
      obtain ⟨t, hgap, hended⟩ := hrc.complete qs hlen
      rw [run_append]
      exact ⟨t, hgap.state, hended⟩

end ProtoDune.Firmware.ProtoDuneDpmWibRxFramer
