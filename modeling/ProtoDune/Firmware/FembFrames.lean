import Mathlib.Data.List.GetD
import ProtoDune.Firmware.FembEventBuilder

/-!
# The frames of the event builder

What goes into a frame: the convert information when it is started, and the
streams in the 60 clock cycles in which its words are written. The data words
come from two cycles, since the high bytes of a stream are sent one cycle late.

Main results:

* `words_add` — a clock cycle adds two words to those that were written.
* `Sending.step` — the process writes the words of the frame.
-/

namespace ProtoDune.Firmware.FEMB_EventBuilder

/-- The inputs when a frame was started, and in the cycles in which words were written. -/
structure Capture where
  start : Ports
  cycles : List Ports

/-- The index of a stream. -/
def streamIndex (i : Nat) : Fin 4 := ⟨i % 4, Nat.mod_lt i (by omega)⟩

namespace Capture

variable (FIBER_ID : BitVec 2) (cap : Capture)

def add (p : Ports) : Capture := { cap with cycles := cap.cycles ++ [p] }

/-- The inputs in the cycle `k`. -/
def port (k : Nat) : Ports := cap.cycles.getD k cap.start

/-- The streams of the first and of the second COLDATA chip. -/
def stream (k i : Nat) : Stream := (cap.port k).FEMB_stream (streamIndex i)

/-- The words for a COLDATA chip with the streams `a` and `a + 1`, whose header is in the
cycle `h`. -/
def coldata (h a k : Nat) : BitVec 16 × BitVec 16 :=
  (if k = h then cdHeader (cap.stream k a) (cap.stream k (a + 1))
    else cdHigh (cap.stream (k - 1) a) (cap.stream (k - 1) (a + 1)),
    cdLow (cap.stream k a) (cap.stream k (a + 1)))

/-- The two words of the cycle `k`. -/
def plain (k : Nat) : BitVec 16 × BitVec 16 :=
  let c := cap.start.convert
  if k = 0 then (c.reset_count.extractLsb' 0 8 ++ DAQ_SOF, c.reset_count.extractLsb' 8 16)
  else if k = 1 then (c.convert_count, 0#6 ++ headerErrors (cap.port 0))
  else if k = 2 then (c.time_stamp.extractLsb' 0 16, c.time_stamp.extractLsb' 16 16)
  else if k = 3 then (0#6 ++ FIBER_ID ++ c.slot_id ++ c.crate_id, 0)
  else if k < 32 then cap.coldata 4 0 k
  else cap.coldata 32 2 k

/-- The debug pattern in the cycle `k`; it advances in the cycles that send it. -/
def debugData : Nat → BitVec 32
  | 0 => 0x030201bc
  | k + 1 =>
      if (cap.port k).debug then if k = 0 then 0x07060504 else debugNext (debugData k)
      else debugData k

/-- The two words that are sent in the cycle `k`. -/
def sent (k : Nat) : BitVec 16 × BitVec 16 :=
  if (cap.port k).debug then
    ((cap.debugData k).extractLsb' 0 16, (cap.debugData k).extractLsb' 16 16)
  else cap.plain FIBER_ID k

/-- The words that were written. -/
def words : List (BitVec 16) :=
  (List.range cap.cycles.length).flatMap fun k =>
    [(cap.sent FIBER_ID k).1, (cap.sent FIBER_ID k).2]

variable {FIBER_ID cap} {p : Ports} {k : Nat}

@[simp] theorem length_add : (cap.add p).cycles.length = cap.cycles.length + 1 := by
  simp [add]

theorem port_add_of_lt (h : k < cap.cycles.length) : (cap.add p).port k = cap.port k :=
  List.getD_append _ _ _ _ h

@[simp] theorem port_add_length : (cap.add p).port cap.cycles.length = p := by
  unfold port add
  rw [List.getD_append_right _ _ _ _ (Nat.le_refl _), Nat.sub_self]
  rfl

theorem stream_add_of_lt (h : k < cap.cycles.length) (i : Nat) :
    (cap.add p).stream k i = cap.stream k i := by
  rw [stream, port_add_of_lt h]
  rfl

@[simp] theorem stream_add_length (i : Nat) :
    (cap.add p).stream cap.cycles.length i = p.FEMB_stream (streamIndex i) := by
  rw [stream, port_add_length]

theorem debugData_add (h : k ≤ cap.cycles.length) :
    (cap.add p).debugData k = cap.debugData k := by
  induction k with
  | zero => rfl
  | succ k ih => rw [debugData, debugData, ih (by omega), port_add_of_lt h]

theorem coldata_add_of_lt (h : k < cap.cycles.length) (hd a : Nat) :
    (cap.add p).coldata hd a k = cap.coldata hd a k := by
  unfold coldata
  rw [stream_add_of_lt h, stream_add_of_lt h, stream_add_of_lt (by omega),
    stream_add_of_lt (by omega)]

theorem plain_add_of_lt (h : k < cap.cycles.length) :
    (cap.add p).plain FIBER_ID k = cap.plain FIBER_ID k := by
  unfold plain
  rw [port_add_of_lt (by omega), coldata_add_of_lt h, coldata_add_of_lt h]
  rfl

theorem sent_add_of_lt (h : k < cap.cycles.length) :
    (cap.add p).sent FIBER_ID k = cap.sent FIBER_ID k := by
  rw [sent, port_add_of_lt h, plain_add_of_lt h, debugData_add (Nat.le_of_lt h)]
  rfl

/-- A clock cycle adds its two words. -/
theorem words_add : (cap.add p).words FIBER_ID = cap.words FIBER_ID ++
    [((cap.add p).sent FIBER_ID cap.cycles.length).1,
      ((cap.add p).sent FIBER_ID cap.cycles.length).2] := by
  have hold : (List.range cap.cycles.length).flatMap (fun k =>
      [((cap.add p).sent FIBER_ID k).1, ((cap.add p).sent FIBER_ID k).2]) =
        cap.words FIBER_ID := by
    unfold words
    rw [List.flatMap_def, List.flatMap_def]
    congr 1
    apply List.map_congr_left
    intro k hk
    rw [sent_add_of_lt (List.mem_range.mp hk)]
  rw [← hold, words, length_add, List.range_succ, List.flatMap_append, List.flatMap_singleton]

@[simp] theorem length_words : (cap.words FIBER_ID).length = 2 * cap.cycles.length := by
  simp [words, List.map_const', Nat.mul_comm]

/-- The first word starts the frame. -/
theorem sent_zero_low : (cap.sent FIBER_ID 0).1.extractLsb' 0 8 = DAQ_SOF := by
  unfold sent
  split
  · change ((0x030201bc : BitVec 32).extractLsb' 0 16).extractLsb' 0 8 = DAQ_SOF
    decide
  · exact BitVec.extractLsb'_append_eq_right

end Capture

/-! ## The process while it writes a frame -/

variable {FIBER_ID : BitVec 2} {cap : Capture} {r : Regs} {p : Ports}

/-- In the state `q` with the counter at `n`, the words of `k` cycles were written. -/
inductive Position : EB_state_t → Nat → Nat → Prop
  | h1 (n : Nat) : Position .EB_STATE_SEND_H1 n 0
  | h3 (n : Nat) : Position .EB_STATE_SEND_H3 n 1
  | h5 (n : Nat) : Position .EB_STATE_SEND_H5 n 2
  | h7 (n : Nat) : Position .EB_STATE_SEND_H7 n 3
  | cda1Header (n : Nat) : Position .EB_STATE_SEND_CDA1_H n 4
  | cda1Data (k : Nat) (h : 5 ≤ k) (h' : k < 32) : Position .EB_STATE_SEND_CDA1_DATA (32 - k) k
  | cda2Header (n : Nat) : Position .EB_STATE_SEND_CDA2_H n 32
  | cda2Data (k : Nat) (h : 33 ≤ k) (h' : k < 60) : Position .EB_STATE_SEND_CDA2_DATA (60 - k) k
  | wait (n : Nat) : Position .WAIT_S n 60

/-- The registers while the frame `cap` is written. -/
structure Sending (FIBER_ID : BitVec 2) (cap : Capture) (r : Regs) : Prop where
  position : Position r.EB_state r.CDA_send_counter cap.cycles.length
  info : r.convert_info = cap.start.convert
  fiber : r.header_fiber_number = FIBER_ID
  slot : r.header_slot_number = cap.start.convert.slot_id
  crate : r.header_crate_number = cap.start.convert.crate_id
  debug : r.debug_mode_data = cap.debugData cap.cycles.length
  errors : 0 < cap.cycles.length → r.header_errors = headerErrors (cap.port 0)
  odd1 : 4 < cap.cycles.length → cap.cycles.length < 32 →
    r.CD_odd_data_words =
      cdHigh (cap.stream (cap.cycles.length - 1) 0) (cap.stream (cap.cycles.length - 1) 1)
  odd2 : 32 < cap.cycles.length → r.CD_odd_data_words =
      cdHigh (cap.stream (cap.cycles.length - 1) 2) (cap.stream (cap.cycles.length - 1) 3)

/-- The marks of the first word. -/
def firstK (k : Nat) : BitVec 2 := if k = 0 then 0b01 else 0b00

@[simp] theorem firstK_zero : firstK 0 = 0b01 := rfl

theorem firstK_of_pos {k : Nat} (h : 0 < k) : firstK k = 0b00 := if_neg (by omega)

/-- What the process writes for the gearbox and for the CRC engine. -/
structure Written (k : Nat) (ws : BitVec 16 × BitVec 16) (r : Regs) : Prop where
  w0 : r.data_out.w0 = ⟨ws.1, firstK k⟩
  w1 : r.data_out.w1 = ⟨ws.2, 0b00⟩
  valid : r.data_valid = 0b011
  crc_reset : r.crc_reset = false
  crc_process : r.crc_process = true
  crc_bytes : r.crc_bytes = 0b00

/-- What a cycle that writes the words of the cycle `k` does to the other registers. -/
structure Moves (p : Ports) (k : Nat) (r r' : Regs) : Prop where
  position : Position r'.EB_state r'.CDA_send_counter (k + 1)
  info : r'.convert_info = r.convert_info
  fiber : r'.header_fiber_number = r.header_fiber_number
  slot : r'.header_slot_number = r.header_slot_number
  crate : r'.header_crate_number = r.header_crate_number
  debug : r'.debug_mode_data =
    if p.debug then if k = 0 then 0x07060504 else debugNext r.debug_mode_data
    else r.debug_mode_data
  errors : r'.header_errors = if k = 0 then headerErrors p else r.header_errors
  odd : 4 ≤ k → r'.CD_odd_data_words =
    if k < 32 then cdHigh (p.FEMB_stream 0) (p.FEMB_stream 1)
    else cdHigh (p.FEMB_stream 2) (p.FEMB_stream 3)

section Step

variable (FIBER_ID p) (data_crc : BitVec 32) (req : Bool)

theorem evb_cda1Data (hs : r.EB_state = .EB_STATE_SEND_CDA1_DATA) :
    evb FIBER_ID data_crc req p r =
      { send p 0b00 r.CD_odd_data_words (cdLow (p.FEMB_stream 0) (p.FEMB_stream 1))
          (debugNext r.debug_mode_data) (defaults r) with
        CD_odd_data_words := cdHigh (p.FEMB_stream 0) (p.FEMB_stream 1)
        CDA_send_counter := r.CDA_send_counter - 1
        FEMB_read := if r.CDA_send_counter = 2 then 0xC else 0x0
        EB_state := if r.CDA_send_counter = 1 then .EB_STATE_SEND_CDA2_H
          else .EB_STATE_SEND_CDA1_DATA } := by
  unfold evb
  rw [hs]
  simp only [send_eq]
  by_cases h2 : r.CDA_send_counter = 2
  · simp [h2, defaults, hs]
  · by_cases h1 : r.CDA_send_counter = 1 <;> simp [h2, h1, defaults, hs]

theorem evb_cda2Data (hs : r.EB_state = .EB_STATE_SEND_CDA2_DATA) :
    evb FIBER_ID data_crc req p r =
      { send p 0b00 r.CD_odd_data_words (cdLow (p.FEMB_stream 2) (p.FEMB_stream 3))
          (debugNext r.debug_mode_data) (defaults r) with
        CD_odd_data_words := cdHigh (p.FEMB_stream 2) (p.FEMB_stream 3)
        CDA_send_counter := r.CDA_send_counter - 1
        EB_state := if r.CDA_send_counter = 1 then .WAIT_S
          else .EB_STATE_SEND_CDA2_DATA } := by
  unfold evb
  rw [hs]
  simp only [send_eq]
  by_cases h1 : r.CDA_send_counter = 1 <;> simp [h1, defaults, hs]

theorem evb_moves {k : Nat} (h : Position r.EB_state r.CDA_send_counter k) (hk : k < 60) :
    Moves p k r (evb FIBER_ID data_crc req p r) := by
  generalize hq : r.EB_state = q, hn : r.CDA_send_counter = n at h
  cases h with
  | wait => omega
  | h1 =>
    simp only [evb, hq, send_eq]
    exact ⟨.h3 _, rfl, rfl, rfl, rfl, rfl, rfl, by omega⟩
  | h3 =>
    simp only [evb, hq, send_eq]
    exact ⟨.h5 _, rfl, rfl, rfl, rfl, rfl, rfl, by omega⟩
  | h5 =>
    simp only [evb, hq, send_eq]
    exact ⟨.h7 _, rfl, rfl, rfl, rfl, rfl, rfl, by omega⟩
  | h7 =>
    simp only [evb, hq, send_eq]
    exact ⟨.cda1Header _, rfl, rfl, rfl, rfl, rfl, rfl, by omega⟩
  | cda1Header =>
    simp only [evb, hq, send_eq]
    exact ⟨.cda1Data 5 (by omega) (by omega), rfl, rfl, rfl, rfl, rfl, rfl, fun _ => rfl⟩
  | cda1Data _ h h' =>
    have hk0 : k ≠ 0 := by omega
    have hnext : Position (if 32 - k = 1 then .EB_STATE_SEND_CDA2_H
        else .EB_STATE_SEND_CDA1_DATA) (32 - k - 1) (k + 1) := by
      by_cases hlast : k = 31
      · subst hlast
        exact .cda2Header 0
      · rw [if_neg (by omega)]
        exact .cda1Data (k + 1) (by omega) (by omega)
    rw [evb_cda1Data FIBER_ID p data_crc req hq, hn, send_eq]
    exact ⟨hnext, rfl, rfl, rfl, rfl, by rw [if_neg hk0]; rfl, by rw [if_neg hk0]; rfl,
      fun _ => (if_pos h').symm⟩
  | cda2Header =>
    simp only [evb, hq, send_eq]
    exact ⟨.cda2Data 33 (by omega) (by omega), rfl, rfl, rfl, rfl, rfl, rfl, fun _ => rfl⟩
  | cda2Data _ h h' =>
    have hk0 : k ≠ 0 := by omega
    have hnext : Position (if 60 - k = 1 then .WAIT_S else .EB_STATE_SEND_CDA2_DATA)
        (60 - k - 1) (k + 1) := by
      by_cases hlast : k = 59
      · subst hlast
        exact .wait 0
      · rw [if_neg (by omega)]
        exact .cda2Data (k + 1) (by omega) (by omega)
    rw [evb_cda2Data FIBER_ID p data_crc req hq, hn, send_eq]
    exact ⟨hnext, rfl, rfl, rfl, rfl, by rw [if_neg hk0]; rfl, by rw [if_neg hk0]; rfl,
      fun _ => (if_neg (by omega)).symm⟩

variable {FIBER_ID p data_crc req}

/-- A cycle that sends the words of its place in the frame. -/
theorem Written.of_send {k0 : BitVec 2} {w0 w1 : BitVec 16} {next : BitVec 32} {r' : Regs}
    (h : Sending FIBER_ID cap r) (hk : k0 = firstK cap.cycles.length)
    (hw : (cap.add p).plain FIBER_ID cap.cycles.length = (w0, w1))
    (hout : r'.data_out = (send p k0 w0 w1 next (defaults r)).data_out)
    (hrest : r'.data_valid = 0b011 ∧ r'.crc_reset = false ∧ r'.crc_process = true ∧
      r'.crc_bytes = 0b00) :
    Written cap.cycles.length ((cap.add p).sent FIBER_ID cap.cycles.length) r' := by
  obtain ⟨hvalid, hreset, hprocess, hbytes⟩ := hrest
  have hsent : (cap.add p).sent FIBER_ID cap.cycles.length =
      if p.debug then (r.debug_mode_data.extractLsb' 0 16, r.debug_mode_data.extractLsb' 16 16)
      else (w0, w1) := by
    rw [Capture.sent, Capture.port_add_length, Capture.debugData_add (Nat.le_refl _), ← h.debug, hw]
  rw [send_eq] at hout
  refine ⟨?_, ?_, hvalid, hreset, hprocess, hbytes⟩
  · rw [hout, hsent, ← hk]
    cases p.debug <;> rfl
  · rw [hout, hsent]
    cases p.debug <;> rfl

/-- The data of a COLDATA chip, after its header. -/
theorem coldata_add (hd a : Nat) (h : cap.cycles.length ≠ hd) (hpos : 0 < cap.cycles.length) :
    (cap.add p).coldata hd a cap.cycles.length =
      (cdHigh (cap.stream (cap.cycles.length - 1) a) (cap.stream (cap.cycles.length - 1) (a + 1)),
        cdLow (p.FEMB_stream (streamIndex a)) (p.FEMB_stream (streamIndex (a + 1)))) := by
  rw [Capture.coldata, if_neg h, Capture.stream_add_length, Capture.stream_add_length,
    Capture.stream_add_of_lt (by omega), Capture.stream_add_of_lt (by omega)]

/-- The header of a COLDATA chip and its first data. -/
theorem coldata_add_header (a : Nat) :
    (cap.add p).coldata cap.cycles.length a cap.cycles.length =
      (cdHeader (p.FEMB_stream (streamIndex a)) (p.FEMB_stream (streamIndex (a + 1))),
        cdLow (p.FEMB_stream (streamIndex a)) (p.FEMB_stream (streamIndex (a + 1)))) := by
  rw [Capture.coldata, if_pos rfl, Capture.stream_add_length, Capture.stream_add_length]

theorem Sending.written (h : Sending FIBER_ID cap r) (hlen : cap.cycles.length < 60) :
    Written cap.cycles.length ((cap.add p).sent FIBER_ID cap.cycles.length)
      (evb FIBER_ID data_crc req p r) := by
  have hinfo : (cap.add p).start.convert = r.convert_info := h.info.symm
  have hpos := h.position
  obtain ⟨k, hk⟩ : ∃ k, cap.cycles.length = k := ⟨_, rfl⟩
  rw [hk] at hpos
  generalize hq : r.EB_state = q, hn : r.CDA_send_counter = n at hpos
  cases hpos with
  | wait => omega
  | h1 =>
    have hw : (cap.add p).plain FIBER_ID cap.cycles.length =
        (r.convert_info.reset_count.extractLsb' 0 8 ++ DAQ_SOF,
          r.convert_info.reset_count.extractLsb' 8 16) := by
      simp [Capture.plain, hk, hinfo]
    have hfirst : 0b01 = firstK cap.cycles.length := by simp [hk]
    apply Written.of_send h hfirst hw
    · simp only [evb, hq]
      rfl
    · simp [evb, hq, send_eq, defaults]
  | h3 =>
    have herr : headerErrors ((cap.add p).port 0) = r.header_errors := by
      rw [Capture.port_add_of_lt (by omega), h.errors (by omega)]
    have hw : (cap.add p).plain FIBER_ID cap.cycles.length =
        (r.convert_info.convert_count, 0#6 ++ r.header_errors) := by
      simp [Capture.plain, hk, hinfo, herr]
    apply Written.of_send h (firstK_of_pos (by omega)).symm hw
    · simp only [evb, hq]
      rfl
    · simp [evb, hq, send_eq, defaults]
  | h5 =>
    have hw : (cap.add p).plain FIBER_ID cap.cycles.length =
        (r.convert_info.time_stamp.extractLsb' 0 16,
          r.convert_info.time_stamp.extractLsb' 16 16) := by
      simp [Capture.plain, hk, hinfo]
    apply Written.of_send h (firstK_of_pos (by omega)).symm hw
    · simp only [evb, hq]
      rfl
    · simp [evb, hq, send_eq, defaults]
  | h7 =>
    have hslot : (cap.add p).start.convert.slot_id = r.header_slot_number := h.slot.symm
    have hcrate : (cap.add p).start.convert.crate_id = r.header_crate_number := h.crate.symm
    have hw : (cap.add p).plain FIBER_ID cap.cycles.length =
        (0#6 ++ r.header_fiber_number ++ r.header_slot_number ++ r.header_crate_number, 0) := by
      simp [Capture.plain, hk, hslot, hcrate, h.fiber]
    apply Written.of_send h (firstK_of_pos (by omega)).symm hw
    · simp only [evb, hq]
      rfl
    · simp [evb, hq, send_eq, defaults]
  | cda1Header =>
    have hw : (cap.add p).plain FIBER_ID cap.cycles.length =
        (cap.add p).coldata cap.cycles.length 0 cap.cycles.length := by
      simp [Capture.plain, hk]
    rw [coldata_add_header] at hw
    apply Written.of_send h (firstK_of_pos (by omega)).symm hw
    · simp only [evb, hq]
      rfl
    · simp [evb, hq, send_eq, defaults]
  | cda1Data _ hlo hhi =>
    have hplain : (cap.add p).plain FIBER_ID cap.cycles.length =
        (cap.add p).coldata 4 0 cap.cycles.length := by
      simp [Capture.plain, hk, hhi, show k ≠ 0 by omega, show k ≠ 1 by omega,
        show k ≠ 2 by omega, show k ≠ 3 by omega]
    rw [coldata_add 4 0 (by omega) (by omega), ← h.odd1 (by omega) (by omega)] at hplain
    apply Written.of_send h (firstK_of_pos (by omega)).symm hplain
    · rw [evb_cda1Data FIBER_ID p data_crc req hq]
      rfl
    · rw [evb_cda1Data FIBER_ID p data_crc req hq]
      simp [send_eq, defaults]
  | cda2Header =>
    have hw : (cap.add p).plain FIBER_ID cap.cycles.length =
        (cap.add p).coldata cap.cycles.length 2 cap.cycles.length := by
      simp [Capture.plain, hk]
    rw [coldata_add_header] at hw
    apply Written.of_send h (firstK_of_pos (by omega)).symm hw
    · simp only [evb, hq]
      rfl
    · simp [evb, hq, send_eq, defaults]
  | cda2Data _ hlo hhi =>
    have hplain : (cap.add p).plain FIBER_ID cap.cycles.length =
        (cap.add p).coldata 32 2 cap.cycles.length := by
      simp [Capture.plain, hk, show ¬k < 32 by omega, show k ≠ 0 by omega, show k ≠ 1 by omega,
        show k ≠ 2 by omega, show k ≠ 3 by omega]
    rw [coldata_add 32 2 (by omega) (by omega), ← h.odd2 (by omega)] at hplain
    apply Written.of_send h (firstK_of_pos (by omega)).symm hplain
    · rw [evb_cda2Data FIBER_ID p data_crc req hq]
      rfl
    · rw [evb_cda2Data FIBER_ID p data_crc req hq]
      simp [send_eq, defaults]

/-- A cycle writes two words of the frame. -/
theorem Sending.step (h : Sending FIBER_ID cap r) (hlen : cap.cycles.length < 60) :
    Sending FIBER_ID (cap.add p) (evb FIBER_ID data_crc req p r) := by
  have hm := evb_moves FIBER_ID p data_crc req h.position hlen
  refine ⟨?_, hm.info.trans h.info, hm.fiber.trans h.fiber, hm.slot.trans h.slot,
    hm.crate.trans h.crate, ?_, ?_, ?_, ?_⟩
  · rw [Capture.length_add]
    exact hm.position
  · rw [hm.debug, Capture.length_add, Capture.debugData, Capture.port_add_length,
      Capture.debugData_add (Nat.le_refl _), h.debug]
  · intro _
    rw [hm.errors]
    by_cases hzero : cap.cycles.length = 0
    · have hport : (cap.add p).port cap.cycles.length = p := Capture.port_add_length
      rw [hzero] at hport
      rw [if_pos hzero, hport]
    · rw [if_neg hzero, Capture.port_add_of_lt (by omega), h.errors (by omega)]
  · intro hlo hhi
    rw [Capture.length_add] at hlo hhi
    rw [hm.odd (by omega), if_pos (by omega), Capture.length_add, Nat.add_sub_cancel,
      Capture.stream_add_length, Capture.stream_add_length]
    rfl
  · intro hlo
    rw [Capture.length_add] at hlo
    rw [hm.odd (by omega), if_neg (by omega), Capture.length_add, Nat.add_sub_cancel,
      Capture.stream_add_length, Capture.stream_add_length]
    rfl

end Step

end ProtoDune.Firmware.FEMB_EventBuilder
