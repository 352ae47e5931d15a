import Mathlib.Tactic.IntervalCases
import ProtoDune.Firmware.EthernetCRC
import ProtoDune.Firmware.FembGearbox

/-!
# `FEMB_EventBuilder`

The event builder of the WIB sends a frame of 120 words and a CRC for each
convert cycle: two words a clock cycle, which the gearbox puts on the line. The
words go to the CRC engine one cycle before they go to the gearbox, so that the
CRC can overwrite what stands in the delay registers after the last of them.

Main results:

* `unpack_pack` — what the gearbox is given comes out as the same symbol.
* `gearbox_tick` — the line carries what the gearbox has taken.
* `inFlight_tick`, `inFlight_newFrame` — the symbols that a cycle adds to those on
  their way.
-/

namespace ProtoDune.Firmware.FEMB_EventBuilder

open EthernetCRC FEMB_Gearbox

def DAQ_BYTE_ALIGN_CHAR : BitVec 8 := 0x5C
def DAQ_COMMA_CHAR : BitVec 8 := 0x3C
def DAQ_SOF : BitVec 8 := 0xBC

def FRAME_SIZE : Nat := 55
def CDA_FIFO_START : Nat := FRAME_SIZE / 2

inductive EB_state_t where
  | EB_STATE_INIT_WAIT
  | EB_STATE_NEW_FRAME
  | EB_STATE_SKIP_WORD
  | EB_STATE_SEND_H1
  | EB_STATE_SEND_H3
  | EB_STATE_SEND_H5
  | EB_STATE_SEND_H7
  | EB_STATE_SEND_CDA1_H
  | EB_STATE_SEND_CDA1_DATA
  | EB_STATE_SEND_CDA2_H
  | EB_STATE_SEND_CDA2_DATA
  | WAIT_S
  | EB_STATE_SEND_CRC1
  | EB_STATE_SEND_CRC2
deriving DecidableEq

/-- `convert_t`. -/
structure Convert where
  reset_count : BitVec 24
  convert_count : BitVec 16
  time_stamp : BitVec 32
  slot_id : BitVec 3
  crate_id : BitVec 5

/-- `FEMB_stream_t`. -/
structure Stream where
  capture_errors : BitVec 8
  CD_timestamp : BitVec 8
  data_out : BitVec 16

/-- The input ports in a clock cycle; `debug` is `control.debug`. -/
structure Ports where
  convert : Convert
  FEMB_stream : Fin 4 → Stream
  debug : Bool

/-- `data_out_8b` and `data_k_out_8b`, as three words. -/
structure Words where
  w0 : LineSymbol
  w1 : LineSymbol
  w2 : LineSymbol

/-- Two comma characters. -/
def comma : LineSymbol := ⟨DAQ_COMMA_CHAR ++ DAQ_COMMA_CHAR, 0b11⟩

/-- The default of `data_out_8b`. -/
def commas : Words := ⟨comma, comma, comma⟩

/-- The lock-on pattern. -/
def idles : Words :=
  let w := ⟨DAQ_BYTE_ALIGN_CHAR ++ DAQ_COMMA_CHAR, 0b11⟩
  ⟨w, w, w⟩

/-- The registers of the process `EVB`. Of `header_errors` the bits 15 to 10 are never set. -/
structure Regs where
  EB_state : EB_state_t
  data_out : Words
  data_valid : BitVec 3
  data_out_delay : Words
  data_valid_delay : BitVec 3
  crc_reset : Bool
  crc_process : Bool
  crc_bytes : BitVec 2
  debug_mode_data : BitVec 32
  CD_odd_data_words : BitVec 16
  header_errors : BitVec 10
  header_fiber_number : BitVec 2
  header_slot_number : BitVec 3
  header_crate_number : BitVec 5
  convert_info : Convert
  CDA_send_counter : Nat
  new_event : Bool
  FEMB_read : BitVec 4

/-- The registers that `reset` sets. -/
def Regs.reset (r : Regs) : Regs :=
  { r with
    data_out := commas
    data_out_delay := commas
    crc_reset := true
    crc_process := false
    crc_bytes := 0b00
    EB_state := .EB_STATE_INIT_WAIT
    FEMB_read := 0x0 }

/-! ## The words of a cycle -/

/-- The header of a COLDATA chip, from its two streams. -/
def cdHeader (a b : Stream) : BitVec 16 := b.capture_errors ++ a.capture_errors

/-- The low bytes of the two streams. -/
def cdLow (a b : Stream) : BitVec 16 := b.data_out.extractLsb' 0 8 ++ a.data_out.extractLsb' 0 8

/-- The high bytes, which are cached for the next cycle. -/
def cdHigh (a b : Stream) : BitVec 16 := b.data_out.extractLsb' 8 8 ++ a.data_out.extractLsb' 8 8

/-- The capture errors of the four streams. -/
def captureErrors (p : Ports) : BitVec 4 :=
  BitVec.ofBool ((p.FEMB_stream 3).capture_errors != 0) ++
    BitVec.ofBool ((p.FEMB_stream 2).capture_errors != 0) ++
    BitVec.ofBool ((p.FEMB_stream 1).capture_errors != 0) ++
    BitVec.ofBool ((p.FEMB_stream 0).capture_errors != 0)

/-- A COLDATA chip is at another convert count. -/
def misaligned (p : Ports) (a b : Stream) : Bool :=
  b.CD_timestamp ++ a.CD_timestamp != p.convert.convert_count

/-- The bits of `header_errors`: `ERR_ALIGNMENT` at 8, `ERR_CD_DATA_ERRORS` at 4 and
`ERR_CD_CAPTURE` at 0. -/
def headerErrors (p : Ports) : BitVec 10 :=
  BitVec.ofBool (misaligned p (p.FEMB_stream 2) (p.FEMB_stream 3)) ++
    BitVec.ofBool (misaligned p (p.FEMB_stream 0) (p.FEMB_stream 1)) ++
    captureErrors p ++ captureErrors p

/-- The four bytes of the debug pattern, each advanced by 4. -/
def debugNext (d : BitVec 32) : BitVec 32 :=
  (d.extractLsb' 24 8 + 4) ++ (d.extractLsb' 16 8 + 4) ++ (d.extractLsb' 8 8 + 4) ++
    (d.extractLsb' 0 8 + 4)

/-- Send the words `w0` and `w1`, or the debug pattern, and add them to the CRC. -/
def send (p : Ports) (k0 : BitVec 2) (w0 w1 : BitVec 16) (next : BitVec 32) (v : Regs) : Regs :=
  let v := { v with
    data_out := { v.data_out with w0 := ⟨w0, k0⟩, w1 := ⟨w1, 0b00⟩ }
    data_valid := 0b011, crc_process := true, crc_bytes := 0b00 }
  if p.debug then
    let d := v.debug_mode_data
    { v with
      data_out := { v.data_out with
        w0 := ⟨d.extractLsb' 0 16, k0⟩, w1 := ⟨d.extractLsb' 16 16, 0b00⟩ }
      debug_mode_data := next }
  else v

/-- The assignments before the case on the state. -/
def defaults (r : Regs) : Regs :=
  { r with
    new_event := false
    data_out := commas
    data_valid := 0b000
    data_out_delay := r.data_out
    data_valid_delay := r.data_valid
    crc_reset := false
    crc_process := false
    crc_bytes := 0b00
    FEMB_read := 0x0 }

/-- `EB_STATE_NEW_FRAME`: the CRC goes into the delay registers, and the next frame starts. -/
def newFrame (FIBER_ID : BitVec 2) (data_crc : BitVec 32) (empty_line_request : Bool) (p : Ports)
    (v : Regs) : Regs :=
  let v := { v with
    debug_mode_data := 0x030201bc
    data_out_delay := { v.data_out_delay with
      w0 := ⟨data_crc.extractLsb' 0 16, 0b00⟩, w1 := ⟨data_crc.extractLsb' 16 16, 0b00⟩ }
    data_valid_delay := 0b011
    new_event := true
    header_fiber_number := FIBER_ID
    header_slot_number := p.convert.slot_id
    header_crate_number := p.convert.crate_id
    crc_reset := true
    convert_info := p.convert }
  if empty_line_request = false then
    { v with data_out := idles, data_valid := 0b111, EB_state := .EB_STATE_SEND_H1 }
  else
    { v with data_valid := 0b000, EB_state := .EB_STATE_SKIP_WORD }

/-- The process `EVB` in a clock cycle. -/
def evb (FIBER_ID : BitVec 2) (data_crc : BitVec 32) (empty_line_request : Bool) (p : Ports)
    (r : Regs) : Regs :=
  let v := defaults r
  let s := p.FEMB_stream
  match r.EB_state with
  | .EB_STATE_INIT_WAIT => { v with EB_state := .EB_STATE_NEW_FRAME }
  | .EB_STATE_NEW_FRAME => newFrame FIBER_ID data_crc empty_line_request p v
  | .EB_STATE_SKIP_WORD =>
      { v with data_out := idles, data_valid := 0b111, EB_state := .EB_STATE_SEND_H1 }
  | .EB_STATE_SEND_H1 =>
      let c := r.convert_info.reset_count
      let v := send p 0b01 (c.extractLsb' 0 8 ++ DAQ_SOF) (c.extractLsb' 8 16) 0x07060504 v
      { v with EB_state := .EB_STATE_SEND_H3, header_errors := headerErrors p }
  | .EB_STATE_SEND_H3 =>
      let v := send p 0b00 r.convert_info.convert_count (0#6 ++ r.header_errors)
        (debugNext r.debug_mode_data) v
      { v with EB_state := .EB_STATE_SEND_H5 }
  | .EB_STATE_SEND_H5 =>
      let t := r.convert_info.time_stamp
      let v := send p 0b00 (t.extractLsb' 0 16) (t.extractLsb' 16 16)
        (debugNext r.debug_mode_data) v
      { v with EB_state := .EB_STATE_SEND_H7, FEMB_read := 0x3 }
  | .EB_STATE_SEND_H7 =>
      let v := send p 0b00
        (0#6 ++ r.header_fiber_number ++ r.header_slot_number ++ r.header_crate_number) 0
        (debugNext r.debug_mode_data) v
      { v with EB_state := .EB_STATE_SEND_CDA1_H }
  | .EB_STATE_SEND_CDA1_H =>
      let v := send p 0b00 (cdHeader (s 0) (s 1)) (cdLow (s 0) (s 1))
        (debugNext r.debug_mode_data) v
      { v with
        CD_odd_data_words := cdHigh (s 0) (s 1)
        CDA_send_counter := CDA_FIFO_START
        EB_state := .EB_STATE_SEND_CDA1_DATA }
  | .EB_STATE_SEND_CDA1_DATA =>
      let v := send p 0b00 r.CD_odd_data_words (cdLow (s 0) (s 1)) (debugNext r.debug_mode_data) v
      let v := { v with
        CD_odd_data_words := cdHigh (s 0) (s 1), CDA_send_counter := r.CDA_send_counter - 1 }
      if r.CDA_send_counter = 2 then { v with FEMB_read := 0xC }
      else if r.CDA_send_counter = 1 then { v with EB_state := .EB_STATE_SEND_CDA2_H }
      else v
  | .EB_STATE_SEND_CDA2_H =>
      let v := send p 0b00 (cdHeader (s 2) (s 3)) (cdLow (s 2) (s 3))
        (debugNext r.debug_mode_data) v
      { v with
        CD_odd_data_words := cdHigh (s 2) (s 3)
        CDA_send_counter := CDA_FIFO_START
        EB_state := .EB_STATE_SEND_CDA2_DATA }
  | .EB_STATE_SEND_CDA2_DATA =>
      let v := send p 0b00 r.CD_odd_data_words (cdLow (s 2) (s 3)) (debugNext r.debug_mode_data) v
      let v := { v with
        CD_odd_data_words := cdHigh (s 2) (s 3), CDA_send_counter := r.CDA_send_counter - 1 }
      if r.CDA_send_counter = 1 then { v with EB_state := .WAIT_S } else v
  | .WAIT_S => { v with EB_state := .EB_STATE_NEW_FRAME }
  | .EB_STATE_SEND_CRC1 => { v with EB_state := .EB_STATE_INIT_WAIT }
  | .EB_STATE_SEND_CRC2 => { v with EB_state := .EB_STATE_INIT_WAIT }

/-! ## The gearbox -/

/-- A word of `gearbox_input`: each byte has its K flag in front. -/
def pack (s : LineSymbol) : BitVec 18 :=
  s.dataK.extractLsb' 1 1 ++ s.data.extractLsb' 8 8 ++ s.dataK.extractLsb' 0 1 ++
    s.data.extractLsb' 0 8

/-- A word of `data_out` and `data_k_out`, from `gearbox_output`. -/
def unpack (w : BitVec 18) : LineSymbol :=
  ⟨w.extractLsb' 9 8 ++ w.extractLsb' 0 8, w.extractLsb' 17 1 ++ w.extractLsb' 8 1⟩

/-- The inputs of the gearbox. -/
def gearboxInput (w : Words) (valid : BitVec 3) : Inputs (BitVec 18) where
  words_in := ![pack w.w0, pack w.w1, pack w.w2]
  data_in_valid := valid

@[simp] theorem unpack_pack (s : LineSymbol) : unpack (pack s) = s := by
  have hdata : (unpack (pack s)).data = s.data := by
    apply BitVec.eq_of_getLsbD_eq
    intro i hi
    simp only [unpack, pack, BitVec.getLsbD_append, BitVec.getLsbD_extractLsb']
    interval_cases i <;> simp
  have hK : (unpack (pack s)).dataK = s.dataK := by
    apply BitVec.eq_of_getLsbD_eq
    intro i hi
    simp only [unpack, pack, BitVec.getLsbD_append, BitVec.getLsbD_extractLsb']
    interval_cases i <;> simp
  cases s
  exact congrArg₂ LineSymbol.mk hdata hK

theorem map_unpack_words (w : Words) (valid : BitVec 3) :
    (gearboxInput w valid).words.map unpack = [w.w0, w.w1, w.w2] := by
  simp [Inputs.words, gearboxInput, List.ofFn_succ]

/-! ## Runs -/

/-- The registers of the event builder, of `EthernetCRCD32` and of the gearbox. -/
structure Builder where
  r : Regs
  c : BitVec 32
  g : FEMB_Gearbox.Regs (BitVec 18)

/-- The register of the CRC engine after a clock edge; `crc_input_data` is `data_out_8b`. -/
def crcNext (b : Builder) : BitVec 32 :=
  if b.r.crc_reset then BitVec.allOnes 32
  else if b.r.crc_process then
    d32 b.r.crc_bytes b.c (b.r.data_out.w1.data ++ b.r.data_out.w0.data)
  else b.c

/-- One clock cycle. -/
def tick (FIBER_ID : BitVec 2) (b : Builder) (p : Ports) : Builder where
  r := evb FIBER_ID (crc b.c) b.g.empty_word_request p b.r
  c := crcNext b
  g := clock b.g (gearboxInput b.r.data_out_delay b.r.data_valid_delay)

/-- The reset, whatever the registers hold. -/
def Builder.reset (b : Builder) : Builder :=
  ⟨b.r.reset, b.c, FEMB_Gearbox.reset (pack comma) b.g⟩

/-- The symbols that the gearbox accepts in the state `q`. -/
def taken (q : State) (w : Words) (valid : BitVec 3) : List LineSymbol :=
  (accepted q (gearboxInput w valid)).map unpack

theorem taken_eq (q : State) (w : Words) (valid : BitVec 3) :
    taken q w valid = [w.w0, w.w1, w.w2].take (q.takes valid) := by
  rw [taken, accepted, List.map_take, map_unpack_words]
  rfl

theorem taken_two (q : State) (w : Words) : taken q w 0b011 = [w.w0, w.w1] := by
  rw [taken_eq]
  cases q <;> rfl

theorem taken_subset (q : State) (w : Words) (valid : BitVec 3) :
    ∀ s ∈ taken q w valid, s = w.w0 ∨ s = w.w1 ∨ s = w.w2 := by
  intro s hs
  rw [taken_eq] at hs
  simpa using List.mem_of_mem_take hs

/-- The symbols behind the delay registers, unless the CRC is going to take their place. -/
def Builder.behind (b : Builder) : List LineSymbol :=
  if b.r.EB_state = .EB_STATE_NEW_FRAME then []
  else taken (b.g.sr_state.next b.r.data_valid_delay) b.r.data_out b.r.data_valid

/-- The symbols between the process and the line: those in the gearbox, from the bottom, those in
the delay registers, and those behind them. -/
def Builder.inFlight (b : Builder) : List LineSymbol :=
  b.g.content.map unpack ++ taken b.g.sr_state b.r.data_out_delay b.r.data_valid_delay ++ b.behind

/-- The two symbols of a cycle on the line, the low half first. -/
def Builder.lineOut (b : Builder) : List LineSymbol := b.g.out.map unpack

/-! ## One clock cycle -/

variable {FIBER_ID : BitVec 2} {p : Ports} {r : Regs} {b : Builder}

theorem send_eq (p : Ports) (k0 : BitVec 2) (w0 w1 : BitVec 16) (next : BitVec 32) (v : Regs) :
    send p k0 w0 w1 next v = { v with
      data_out := { v.data_out with
        w0 := ⟨if p.debug then v.debug_mode_data.extractLsb' 0 16 else w0, k0⟩
        w1 := ⟨if p.debug then v.debug_mode_data.extractLsb' 16 16 else w1, 0b00⟩ }
      data_valid := 0b011, crc_process := true, crc_bytes := 0b00
      debug_mode_data := if p.debug then next else v.debug_mode_data } := by
  unfold send
  cases p.debug <;> rfl

/-- The delay registers take over, except where the CRC overwrites them. -/
theorem evb_delay (FIBER_ID : BitVec 2) (data_crc : BitVec 32) (req : Bool) (p : Ports)
    (h : r.EB_state ≠ .EB_STATE_NEW_FRAME) :
    (evb FIBER_ID data_crc req p r).data_out_delay = r.data_out ∧
      (evb FIBER_ID data_crc req p r).data_valid_delay = r.data_valid := by
  unfold evb
  cases hs : r.EB_state <;> simp only [send_eq]
  case EB_STATE_NEW_FRAME => exact absurd hs h
  case EB_STATE_SEND_CDA1_DATA => split_ifs <;> exact ⟨rfl, rfl⟩
  case EB_STATE_SEND_CDA2_DATA => split_ifs <;> exact ⟨rfl, rfl⟩
  all_goals exact ⟨rfl, rfl⟩

theorem newFrame_delay (FIBER_ID : BitVec 2) (data_crc : BitVec 32) (req : Bool) (p : Ports)
    (v : Regs) : (newFrame FIBER_ID data_crc req p v).data_valid_delay = 0b011 ∧
    (newFrame FIBER_ID data_crc req p v).data_out_delay.w0 =
      ⟨data_crc.extractLsb' 0 16, 0b00⟩ ∧
    (newFrame FIBER_ID data_crc req p v).data_out_delay.w1 =
      ⟨data_crc.extractLsb' 16 16, 0b00⟩ := by
  unfold newFrame
  split_ifs <;> exact ⟨rfl, rfl, rfl⟩

/-- The gearbox takes what is in the delay registers. -/
theorem gearbox_tick (b : Builder) (p : Ports) :
    (tick FIBER_ID b p).lineOut ++ (tick FIBER_ID b p).g.content.map unpack =
      b.g.content.map unpack ++ taken b.g.sr_state b.r.data_out_delay b.r.data_valid_delay := by
  have h := congrArg (List.map unpack)
    (clock_content b.g (gearboxInput b.r.data_out_delay b.r.data_valid_delay))
  rw [List.map_append, List.map_append] at h
  exact h

/-- A cycle adds what it writes behind the delay registers. -/
theorem inFlight_tick (FIBER_ID : BitVec 2) (p : Ports)
    (h : b.r.EB_state ≠ .EB_STATE_NEW_FRAME) :
    (tick FIBER_ID b p).lineOut ++ (tick FIBER_ID b p).inFlight =
      b.inFlight ++ (tick FIBER_ID b p).behind := by
  obtain ⟨hout, hvalid⟩ := evb_delay FIBER_ID (crc b.c) b.g.empty_word_request p h
  have htaken : taken (tick FIBER_ID b p).g.sr_state (tick FIBER_ID b p).r.data_out_delay
      (tick FIBER_ID b p).r.data_valid_delay = b.behind := by
    rw [Builder.behind, if_neg h]
    change taken (clock _ _).sr_state (evb _ _ _ _ _).data_out_delay
      (evb _ _ _ _ _).data_valid_delay = _
    rw [clock_state, hout, hvalid]
    rfl
  rw [Builder.inFlight, htaken, ← List.append_assoc, ← List.append_assoc, gearbox_tick]
  rfl

theorem tick_newFrame (h : b.r.EB_state = .EB_STATE_NEW_FRAME) :
    (tick FIBER_ID b p).r =
      newFrame FIBER_ID (crc b.c) b.g.empty_word_request p (defaults b.r) := by
  change evb _ _ _ _ _ = _
  unfold evb
  rw [h]

/-- At the start of a frame the CRC of the last one comes first. -/
theorem inFlight_newFrame (FIBER_ID : BitVec 2) (p : Ports)
    (h : b.r.EB_state = .EB_STATE_NEW_FRAME) :
    (tick FIBER_ID b p).lineOut ++ (tick FIBER_ID b p).inFlight =
      b.inFlight ++ [⟨(crc b.c).extractLsb' 0 16, 0b00⟩, ⟨(crc b.c).extractLsb' 16 16, 0b00⟩] ++
        (tick FIBER_ID b p).behind := by
  have hr : (tick FIBER_ID b p).r = _ := tick_newFrame h
  obtain ⟨hvalid, hw0, hw1⟩ :=
    newFrame_delay FIBER_ID (crc b.c) b.g.empty_word_request p (defaults b.r)
  have htaken : taken (tick FIBER_ID b p).g.sr_state (tick FIBER_ID b p).r.data_out_delay
      (tick FIBER_ID b p).r.data_valid_delay =
        [⟨(crc b.c).extractLsb' 0 16, 0b00⟩, ⟨(crc b.c).extractLsb' 16 16, 0b00⟩] := by
    rw [hr, hvalid, taken_two, hw0, hw1]
  have hbehind : b.behind = [] := if_pos h
  rw [Builder.inFlight, htaken, ← List.append_assoc, ← List.append_assoc, gearbox_tick,
    Builder.inFlight, hbehind, List.append_nil]

end ProtoDune.Firmware.FEMB_EventBuilder
