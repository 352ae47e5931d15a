import Mathlib.Data.List.Basic
import ProtoDune.Firmware.FembFrames

/-!
# The line of the event builder

After a reset the line carries symbols that start no frame, and from the first
frame on it follows the protocol of the line: the frames that were written, each
one with its CRC, and idle symbols between them. The event builder leaves out a
cycle exactly when the gearbox is in its deepest state.

Main results:

* `Follows.tick` — a clock cycle keeps the line on the protocol.
* `run_onLine` — every run since a reset, whatever the inputs are.
* `run_not_slipped` — after the first frame has started the gearbox loses no word.
-/

namespace ProtoDune.Firmware.FEMB_EventBuilder

open EthernetCRC FEMB_Gearbox

/-- The states that write words of a frame. -/
def EB_state_t.writes : EB_state_t → Bool
  | .EB_STATE_SEND_H1 | .EB_STATE_SEND_H3 | .EB_STATE_SEND_H5 | .EB_STATE_SEND_H7 => true
  | .EB_STATE_SEND_CDA1_H | .EB_STATE_SEND_CDA1_DATA => true
  | .EB_STATE_SEND_CDA2_H | .EB_STATE_SEND_CDA2_DATA => true
  | _ => false

/-- The registers, the symbols on the line so far, the frames that were written, and the one that
is being written. -/
structure Monitor where
  b : Builder
  line : List LineSymbol
  ended : List Capture
  cur : Option Capture

/-- One clock cycle. -/
def Monitor.tick (FIBER_ID : BitVec 2) (m : Monitor) (p : Ports) : Monitor :=
  let b := FEMB_EventBuilder.tick FIBER_ID m.b p
  { b
    line := m.line ++ b.lineOut
    ended := if m.b.r.EB_state = .EB_STATE_NEW_FRAME then m.ended ++ m.cur.toList else m.ended
    cur :=
      if m.b.r.EB_state = .EB_STATE_NEW_FRAME then some ⟨p, []⟩
      else if m.b.r.EB_state.writes then m.cur.map fun cap => cap.add p
      else m.cur }

/-- The clock cycles since the reset, whatever was in the registers. -/
def run (FIBER_ID : BitVec 2) (b : Builder) (ps : List Ports) : Monitor :=
  ps.foldl (Monitor.tick FIBER_ID) ⟨b.reset, [], [], none⟩

/-- The symbols on the line and those on their way to it. -/
def Monitor.symbols (m : Monitor) : List LineSymbol := m.line ++ m.b.inFlight

/-- The line while the words `ws` of a frame are written. -/
def openLine (ws : List (BitVec 16)) : LineState := if ws = [] then .gap else .words ws

/-- The words of the frames that were written. -/
def Monitor.frames (FIBER_ID : BitVec 2) (m : Monitor) : List (List (BitVec 16)) :=
  m.ended.map (Capture.words FIBER_ID)

/-- The handshake with the gearbox, `k` cycles into a frame. Only in the first one the gearbox
may be too deep for the three idle symbols, since the reset leaves `data_valid` alone. -/
structure Sync (first : Prop) (k : Nat) (b : Builder) : Prop where
  valid_zero : k = 0 → b.r.data_valid = 0b111
  valid_pos : 0 < k → b.r.data_valid = 0b011
  delay_zero : k = 0 →
    (b.r.data_valid_delay = 0b011 ∧ (b.g.sr_state = .SR_STATE_6 ∨ first)) ∨
      (b.r.data_valid_delay = 0b000 ∧ b.g.sr_state = .SR_STATE_7)
  delay_one : k = 1 → b.r.data_valid_delay = 0b111 ∧ (b.g.sr_state ≠ .SR_STATE_7 ∨ first)
  delay : 1 < k → b.r.data_valid_delay = 0b011 ∧ b.g.sr_state ≠ .SR_STATE_5
  request : 2 < k → b.g.empty_word_request = (b.g.sr_state == .SR_STATE_7)

/-- Where the process is, with the symbols `T` since the first frame. -/
inductive Stage (FIBER_ID : BitVec 2) (m : Monitor) (T : List LineSymbol) : Prop
  | start (cur : m.cur = none) (ended : m.ended = []) (empty : T = [])
      (request : m.b.g.empty_word_request = false)
      (state : m.b.r.EB_state = .EB_STATE_NEW_FRAME ∨
        (m.b.r.EB_state = .EB_STATE_INIT_WAIT ∧ m.b.g.sr_state = .SR_STATE_6))
  | skip (cap : Capture) (ws : List (BitVec 16)) (fs : List (List (BitVec 16)))
      (cur : m.cur = some cap) (empty : cap.cycles = [])
      (state : m.b.r.EB_state = .EB_STATE_SKIP_WORD)
      (sending : Sending FIBER_ID cap { m.b.r with EB_state := .EB_STATE_SEND_H1 })
      (frames : m.frames FIBER_ID = fs ++ [ws])
      (line : OnLine d16bEngine T fs (.crcHi ws))
      (crc : crcNext m.b = d16bEngine.seed)
      (sync : m.b.r.data_valid = 0b000 ∧ m.b.r.data_valid_delay = 0b011 ∧
        m.b.g.sr_state = .SR_STATE_7)
  | send (cap : Capture) (cur : m.cur = some cap) (sending : Sending FIBER_ID cap m.b.r)
      (line : OnLine d16bEngine T (m.frames FIBER_ID) (openLine (cap.words FIBER_ID)))
      (crc : crcNext m.b = (cap.words FIBER_ID).foldl d16bEngine.next d16bEngine.seed)
      (sync : Sync (m.ended = []) cap.cycles.length m.b)
  | finish (cap : Capture) (cur : m.cur = some cap) (length : cap.cycles.length = 60)
      (state : m.b.r.EB_state = .EB_STATE_NEW_FRAME)
      (line : OnLine d16bEngine T (m.frames FIBER_ID) (.words (cap.words FIBER_ID)))
      (crc : m.b.c = (cap.words FIBER_ID).foldl d16bEngine.next d16bEngine.seed)
      (delay : m.b.r.data_valid_delay = 0b011 ∧ m.b.g.sr_state ≠ .SR_STATE_5)
      (request : m.b.g.empty_word_request = (m.b.g.sr_state == .SR_STATE_7))

/-- The symbols since the reset: some that start no frame, and then the line protocol. -/
def Follows (FIBER_ID : BitVec 2) (m : Monitor) : Prop :=
  ∃ J T, m.symbols = J ++ T ∧ (∀ s ∈ J, s.dataK ≠ 0b01) ∧ Stage FIBER_ID m T

variable {FIBER_ID : BitVec 2} {m : Monitor} {p : Ports} {cap : Capture} {J T : List LineSymbol}
  {fs : List (List (BitVec 16))} {ws : List (BitVec 16)}

/-! ## The symbols of a cycle -/

theorem symbols_tick (FIBER_ID : BitVec 2) (p : Ports)
    (h : m.b.r.EB_state ≠ .EB_STATE_NEW_FRAME) :
    (m.tick FIBER_ID p).symbols = m.symbols ++ (m.tick FIBER_ID p).b.behind := by
  have hflow := inFlight_tick FIBER_ID p h
  unfold Monitor.symbols Monitor.tick
  rw [List.append_assoc, hflow, List.append_assoc]

theorem symbols_newFrame (FIBER_ID : BitVec 2) (p : Ports)
    (h : m.b.r.EB_state = .EB_STATE_NEW_FRAME) :
    (m.tick FIBER_ID p).symbols = m.symbols ++
      [⟨(crc m.b.c).extractLsb' 0 16, 0b00⟩, ⟨(crc m.b.c).extractLsb' 16 16, 0b00⟩] ++
        (m.tick FIBER_ID p).b.behind := by
  have hflow := inFlight_newFrame FIBER_ID p h
  unfold Monitor.symbols Monitor.tick
  rw [List.append_assoc, hflow]
  simp

/-- Two or three idle symbols. -/
theorem taken_idles (q : State) : ∃ n, taken q idles 0b111 = List.replicate (n + 1) idle := by
  cases q
  · exact ⟨2, rfl⟩
  · exact ⟨2, rfl⟩
  · exact ⟨1, rfl⟩

/-- Idle symbols between frames. -/
theorem onLine_idles (h : OnLine d16bEngine T fs .gap) (n : Nat) :
    OnLine d16bEngine (T ++ List.replicate n idle) fs .gap := by
  induction n with
  | zero => simpa using h
  | succ n ih =>
    rw [List.replicate_succ', ← List.append_assoc]
    exact ih.idle

/-- The idle symbols after a frame. -/
theorem onLine_last (h : OnLine d16bEngine T fs (.crcHi ws)) (n : Nat) :
    OnLine d16bEngine (T ++ List.replicate (n + 1) idle) (fs ++ [ws]) .gap := by
  rw [List.replicate_succ, ← List.singleton_append, ← List.append_assoc]
  exact onLine_idles h.last n

/-! ## The stages -/

theorem state_tick (b : Builder) : (FEMB_EventBuilder.tick FIBER_ID b p).g.sr_state =
    b.g.sr_state.next b.r.data_valid_delay := clock_state _ _

theorem request_tick (b : Builder) : (FEMB_EventBuilder.tick FIBER_ID b p).g.empty_word_request =
    (b.g.sr_state == .SR_STATE_7) := clock_request _ _

@[simp] theorem next_two (q : State) : q.next 0b011 = q := by
  cases q <;> rfl

/-- The registers when a frame was started. -/
theorem newFrame_sending (c : BitVec 32) (req : Bool) (v : Regs) : Sending FIBER_ID ⟨p, []⟩
    { newFrame FIBER_ID c req p v with EB_state := .EB_STATE_SEND_H1 } := by
  cases req
  · exact ⟨.h1 _, rfl, rfl, rfl, rfl, rfl, by simp, by simp, by simp⟩
  · exact ⟨.h1 _, rfl, rfl, rfl, rfl, rfl, by simp, by simp, by simp⟩

/-- The idle symbols that are written without a request for an empty word. -/
theorem behind_newFrame (FIBER_ID : BitVec 2) (p : Ports)
    (h : m.b.r.EB_state = .EB_STATE_NEW_FRAME)
    (hreq : m.b.g.empty_word_request = false) :
    ∃ n, (m.tick FIBER_ID p).b.behind = List.replicate (n + 1) idle := by
  have hr : (m.tick FIBER_ID p).b.r = _ := tick_newFrame h
  rw [Builder.behind, hr, hreq]
  exact taken_idles _

/-- A frame starts after the reset. -/
theorem Follows.tick_start (hcur : m.cur = none) (hended : m.ended = [])
    (hreq : m.b.g.empty_word_request = false) (h : m.b.r.EB_state = .EB_STATE_NEW_FRAME)
    (hJ : ∀ s ∈ m.symbols, s.dataK ≠ 0b01) : Follows FIBER_ID (m.tick FIBER_ID p) := by
  obtain ⟨n, hn⟩ := behind_newFrame FIBER_ID p h hreq
  have hr : (m.tick FIBER_ID p).b.r = _ := tick_newFrame h
  rw [hreq] at hr
  refine ⟨_, _, symbols_newFrame FIBER_ID p h, ?_, ?_⟩
  · intro s hs
    rcases List.mem_append.mp hs with hs | hs
    · exact hJ s hs
    · rcases List.mem_pair.mp hs with rfl | rfl <;> simp
  · have hcur' : (m.tick FIBER_ID p).cur = some ⟨p, []⟩ := if_pos h
    have hended' : (m.tick FIBER_ID p).ended = [] := by
      change (if _ then _ else _) = _
      rw [if_pos h, hended, hcur]
      rfl
    refine .send ⟨p, []⟩ hcur' ?_ ?_ ?_ ?_
    · rw [hr]
      exact newFrame_sending (crc m.b.c) false (defaults m.b.r)
    · rw [Monitor.frames, hended', hn]
      exact onLine_idles .nil (n + 1)
    · change (if (m.tick FIBER_ID p).b.r.crc_reset then _ else _) = _
      rw [hr]
      rfl
    · have hdelay : (m.tick FIBER_ID p).b.r.data_valid_delay = 0b011 := by
        rw [hr]
        rfl
      refine ⟨fun _ => ?_, by simp, fun _ => .inl ⟨hdelay, .inr hended'⟩, by simp, by simp,
        by simp⟩
      rw [hr]
      rfl

/-- The process leaves its initial state. -/
theorem Follows.tick_init (hcur : m.cur = none) (hended : m.ended = [])
    (hq : m.b.g.sr_state = .SR_STATE_6) (h : m.b.r.EB_state = .EB_STATE_INIT_WAIT)
    (hJ : ∀ s ∈ m.symbols, s.dataK ≠ 0b01) : Follows FIBER_ID (m.tick FIBER_ID p) := by
  have hr : (m.tick FIBER_ID p).b.r.EB_state = .EB_STATE_NEW_FRAME := by
    change (evb _ _ _ _ _).EB_state = _
    unfold evb
    rw [h]
  have hne : m.b.r.EB_state ≠ .EB_STATE_NEW_FRAME := by simp [h]
  have hbehind : (m.tick FIBER_ID p).b.behind = [] := if_pos hr
  have hsymbols := symbols_tick FIBER_ID p hne
  rw [hbehind, List.append_nil] at hsymbols
  refine ⟨m.symbols, [], by rw [hsymbols, List.append_nil], hJ, .start ?_ ?_ rfl ?_ (.inl hr)⟩
  · simp [Monitor.tick, h, EB_state_t.writes, hcur]
  · simp [Monitor.tick, h, hended]
  · exact (request_tick m.b).trans (by rw [hq]; rfl)

/-- The idle symbols after a cycle that was left out. -/
theorem Follows.tick_skip {fs : List (List (BitVec 16))} (hsym : m.symbols = J ++ T)
    (hJ : ∀ s ∈ J, s.dataK ≠ 0b01) (hcur : m.cur = some cap) (hempty : cap.cycles = [])
    (h : m.b.r.EB_state = .EB_STATE_SKIP_WORD)
    (hsend : Sending FIBER_ID cap { m.b.r with EB_state := .EB_STATE_SEND_H1 })
    (hframes : m.frames FIBER_ID = fs ++ [ws]) (hline : OnLine d16bEngine T fs (.crcHi ws))
    (hcrc : crcNext m.b = d16bEngine.seed)
    (hsync : m.b.r.data_valid = 0b000 ∧ m.b.r.data_valid_delay = 0b011 ∧
      m.b.g.sr_state = .SR_STATE_7) : Follows FIBER_ID (m.tick FIBER_ID p) := by
  obtain ⟨hvalid, hdelay, hq⟩ := hsync
  have hr : (m.tick FIBER_ID p).b.r = { defaults m.b.r with
      data_out := idles, data_valid := 0b111, EB_state := .EB_STATE_SEND_H1 } := by
    change evb _ _ _ _ _ = _
    unfold evb
    rw [h]
  have hne : m.b.r.EB_state ≠ .EB_STATE_NEW_FRAME := by simp [h]
  have hbehind : ∃ n, (m.tick FIBER_ID p).b.behind = List.replicate (n + 1) idle := by
    rw [Builder.behind, hr]
    exact taken_idles _
  obtain ⟨n, hn⟩ := hbehind
  have hcur' : (m.tick FIBER_ID p).cur = some cap := by
    simp [Monitor.tick, h, EB_state_t.writes, hcur]
  have hended' : (m.tick FIBER_ID p).ended = m.ended := by
    simp [Monitor.tick, h]
  have hwords : cap.words FIBER_ID = [] := by
    rw [Capture.words, hempty]
    rfl
  refine ⟨J, T ++ List.replicate (n + 1) idle, ?_, hJ, .send cap hcur' ?_ ?_ ?_ ?_⟩
  · rw [symbols_tick FIBER_ID p hne, hsym, hn, List.append_assoc]
  · rw [hr]
    exact ⟨by rw [hempty]; exact .h1 _, hsend.info, hsend.fiber, hsend.slot, hsend.crate,
      hsend.debug, hsend.errors, hsend.odd1, hsend.odd2⟩
  · rw [Monitor.frames, hended', hwords]
    rw [Monitor.frames] at hframes
    rw [hframes]
    exact onLine_last hline n
  · rw [hwords]
    change (if (m.tick FIBER_ID p).b.r.crc_reset then _
      else if (m.tick FIBER_ID p).b.r.crc_process then _ else crcNext m.b) = _
    rw [hr]
    exact hcrc
  · rw [hempty]
    refine ⟨fun _ => by rw [hr], by simp, fun _ => .inr ⟨?_, ?_⟩, by simp, by simp, by simp⟩
    · rw [hr]
      exact hvalid
    · change (FEMB_EventBuilder.tick FIBER_ID m.b p).g.sr_state = _
      rw [state_tick, hdelay, next_two, hq]

theorem Position.writes {q : EB_state_t} {n k : Nat} (h : Position q n k) (hk : k < 60) :
    q.writes = true := by
  cases h with
  | wait => omega
  | _ => rfl

theorem Position.ne_newFrame {q : EB_state_t} {n k : Nat} (h : Position q n k) :
    q ≠ .EB_STATE_NEW_FRAME := by
  cases h <;> simp

theorem openLine_words (h : cap.cycles.length ≠ 0) :
    openLine (cap.words FIBER_ID) = .words (cap.words FIBER_ID) := by
  apply if_neg
  intro hnil
  have hlen : (cap.words FIBER_ID).length = 2 * cap.cycles.length := Capture.length_words
  rw [hnil, List.length_nil] at hlen
  omega

/-- The two words of a cycle on the line. -/
theorem onLine_write (h : OnLine d16bEngine T fs (openLine (cap.words FIBER_ID)))
    (hk : cap.cycles.length < 60) (p : Ports) :
    OnLine d16bEngine (T ++
      [⟨((cap.add p).sent FIBER_ID cap.cycles.length).1, firstK cap.cycles.length⟩,
        ⟨((cap.add p).sent FIBER_ID cap.cycles.length).2, 0b00⟩]) fs
      (openLine ((cap.add p).words FIBER_ID)) := by
  have hlen : (cap.words FIBER_ID).length = 2 * cap.cycles.length := Capture.length_words
  rw [openLine_words (by simp), Capture.words_add]
  rw [← List.singleton_append, ← List.append_assoc, ← List.singleton_append
    (l := [((cap.add p).sent FIBER_ID cap.cycles.length).2]), ← List.append_assoc]
  have hfirst : OnLine d16bEngine
      (T ++ [⟨((cap.add p).sent FIBER_ID cap.cycles.length).1, firstK cap.cycles.length⟩]) fs
      (.words (cap.words FIBER_ID ++ [((cap.add p).sent FIBER_ID cap.cycles.length).1])) := by
    by_cases hzero : cap.cycles.length = 0
    · have hnil : cap.words FIBER_ID = [] := List.eq_nil_of_length_eq_zero (by omega)
      rw [hnil, openLine, if_pos rfl] at h
      rw [hnil, hzero]
      exact h.first _ Capture.sent_zero_low
    · rw [openLine_words hzero] at h
      rw [firstK_of_pos (by omega)]
      exact h.word _ (by rw [hlen, wibWords]; omega)
  apply hfirst.word
  rw [List.length_append, hlen, wibWords]
  simp
  omega

/-- The words of a cycle are added to the CRC. -/
theorem crcNext_write {b : Builder} {k : Nat} {s : BitVec 16 × BitVec 16}
    (h : Written k s b.r) : crcNext b = [s.1, s.2].foldl d16bEngine.next b.c := by
  unfold crcNext
  rw [h.crc_reset, h.crc_process, h.crc_bytes, h.w0, h.w1]
  exact d32_append 0b00 (by decide) _ _ _

theorem Sync.step {first : Prop} {k : Nat} (h : Sync first k m.b)
    (hvalid : (m.tick FIBER_ID p).b.r.data_valid = 0b011)
    (hdelay : (m.tick FIBER_ID p).b.r.data_valid_delay = m.b.r.data_valid) :
    Sync first (k + 1) (m.tick FIBER_ID p).b := by
  have hq : (m.tick FIBER_ID p).b.g.sr_state = m.b.g.sr_state.next m.b.r.data_valid_delay :=
    state_tick m.b
  have hreq : (m.tick FIBER_ID p).b.g.empty_word_request = (m.b.g.sr_state == .SR_STATE_7) :=
    request_tick m.b
  refine ⟨by omega, fun _ => hvalid, by omega, ?_, ?_, ?_⟩
  · intro hk
    have hk0 : k = 0 := by omega
    refine ⟨hdelay.trans (h.valid_zero hk0), ?_⟩
    rw [hq]
    rcases h.delay_zero hk0 with ⟨hd, hstate | hfirst⟩ | ⟨hd, hstate⟩
    · left
      rw [hd, hstate]
      decide
    · exact .inr hfirst
    · left
      rw [hd, hstate]
      decide
  · intro hk
    refine ⟨hdelay.trans (h.valid_pos (by omega)), ?_⟩
    rw [hq]
    by_cases hk1 : k = 1
    · rw [(h.delay_one hk1).1]
      cases m.b.g.sr_state <;> decide
    · obtain ⟨hd, hstate⟩ := h.delay (by omega)
      rw [hd, next_two]
      exact hstate
  · intro hk
    rw [hreq, hq, (h.delay (by omega)).1, next_two]

/-- A cycle that writes two words. -/
theorem Follows.tick_send (hsym : m.symbols = J ++ T) (hJ : ∀ s ∈ J, s.dataK ≠ 0b01)
    (hcur : m.cur = some cap) (hsend : Sending FIBER_ID cap m.b.r)
    (hline : OnLine d16bEngine T (m.frames FIBER_ID) (openLine (cap.words FIBER_ID)))
    (hcrc : crcNext m.b = (cap.words FIBER_ID).foldl d16bEngine.next d16bEngine.seed)
    (hsync : Sync (m.ended = []) cap.cycles.length m.b) (hk : cap.cycles.length < 60) :
    Follows FIBER_ID (m.tick FIBER_ID p) := by
  have hne := hsend.position.ne_newFrame
  have hwrites := hsend.position.writes hk
  have hnext : Sending FIBER_ID (cap.add p) (m.tick FIBER_ID p).b.r := hsend.step hk
  have hwritten : Written cap.cycles.length ((cap.add p).sent FIBER_ID cap.cycles.length)
      (m.tick FIBER_ID p).b.r := hsend.written hk
  have hdelay := (evb_delay FIBER_ID (crc m.b.c) m.b.g.empty_word_request p hne).2
  have hbehind : (m.tick FIBER_ID p).b.behind =
      [⟨((cap.add p).sent FIBER_ID cap.cycles.length).1, firstK cap.cycles.length⟩,
        ⟨((cap.add p).sent FIBER_ID cap.cycles.length).2, 0b00⟩] := by
    rw [Builder.behind, if_neg hnext.position.ne_newFrame, hwritten.valid, taken_two, hwritten.w0,
      hwritten.w1]
  have hcur' : (m.tick FIBER_ID p).cur = some (cap.add p) := by
    simp [Monitor.tick, hne, hwrites, hcur]
  have hended' : (m.tick FIBER_ID p).ended = m.ended := by
    simp [Monitor.tick, hne]
  refine ⟨J, T ++ (m.tick FIBER_ID p).b.behind, ?_, hJ, .send (cap.add p) hcur' hnext ?_ ?_ ?_⟩
  · rw [symbols_tick FIBER_ID p hne, hsym, List.append_assoc]
  · rw [Monitor.frames, hended', hbehind]
    exact onLine_write hline hk p
  · rw [crcNext_write hwritten, Capture.words_add, List.foldl_append, ← hcrc]
    rfl
  · rw [hended', Capture.length_add]
    exact hsync.step hwritten.valid hdelay

theorem Position.wait_of {q : EB_state_t} {n k : Nat} (h : Position q n k) (hk : ¬k < 60) :
    q = .WAIT_S ∧ k = 60 := by
  cases h with
  | wait => exact ⟨rfl, rfl⟩
  | _ => omega

/-- The cycle in which the CRC is completed. -/
theorem Follows.tick_wait (hsym : m.symbols = J ++ T) (hJ : ∀ s ∈ J, s.dataK ≠ 0b01)
    (hcur : m.cur = some cap) (hsend : Sending FIBER_ID cap m.b.r)
    (hline : OnLine d16bEngine T (m.frames FIBER_ID) (openLine (cap.words FIBER_ID)))
    (hcrc : crcNext m.b = (cap.words FIBER_ID).foldl d16bEngine.next d16bEngine.seed)
    (hsync : Sync (m.ended = []) cap.cycles.length m.b) (hk : ¬cap.cycles.length < 60) :
    Follows FIBER_ID (m.tick FIBER_ID p) := by
  have hne := hsend.position.ne_newFrame
  obtain ⟨hstate, hlen⟩ := hsend.position.wait_of hk
  have hdelay := (evb_delay FIBER_ID (crc m.b.c) m.b.g.empty_word_request p hne).2
  have hnew : (m.tick FIBER_ID p).b.r.EB_state = .EB_STATE_NEW_FRAME := by
    change (evb _ _ _ _ _).EB_state = _
    unfold evb
    rw [hstate]
  have hbehind : (m.tick FIBER_ID p).b.behind = [] := if_pos hnew
  have hended' : (m.tick FIBER_ID p).ended = m.ended := by
    simp [Monitor.tick, hne]
  have hq : (m.tick FIBER_ID p).b.g.sr_state = m.b.g.sr_state := by
    change (FEMB_EventBuilder.tick FIBER_ID m.b p).g.sr_state = _
    rw [state_tick, (hsync.delay (by omega)).1, next_two]
  have hsymbols := symbols_tick FIBER_ID p hne
  rw [hbehind, List.append_nil, hsym] at hsymbols
  refine ⟨J, T, hsymbols, hJ, .finish cap ?_ hlen hnew ?_ hcrc ⟨?_, ?_⟩ ?_⟩
  · simp [Monitor.tick, hstate, EB_state_t.writes, hcur]
  · rw [Monitor.frames, hended', ← openLine_words (by omega)]
    exact hline
  · exact hdelay.trans (hsync.valid_pos (by omega))
  · rw [hq]
    exact (hsync.delay (by omega)).2
  · rw [hq]
    exact request_tick m.b

/-- The CRC of a frame that was written. -/
theorem onLine_crc (h : OnLine d16bEngine T fs (.words (cap.words FIBER_ID)))
    (hlen : cap.cycles.length = 60)
    (hcrc : m.b.c = (cap.words FIBER_ID).foldl d16bEngine.next d16bEngine.seed) :
    OnLine d16bEngine (T ++ [⟨(crc m.b.c).extractLsb' 0 16, 0b00⟩,
      ⟨(crc m.b.c).extractLsb' 16 16, 0b00⟩]) fs (.crcHi (cap.words FIBER_ID)) := by
  have hwords : (cap.words FIBER_ID).length = wibWords := by
    rw [Capture.length_words, hlen, wibWords]
  have hsum : crc m.b.c = d16bEngine.checksum (cap.words FIBER_ID) := by
    rw [hcrc]
    rfl
  rw [hsum, ← List.singleton_append, ← List.append_assoc]
  exact (h.crcLo hwords).crcHi

/-- The CRC takes the place of what was in the delay registers, and the next frame starts. -/
theorem Follows.tick_finish (hsym : m.symbols = J ++ T) (hJ : ∀ s ∈ J, s.dataK ≠ 0b01)
    (hcur : m.cur = some cap) (hlen : cap.cycles.length = 60)
    (h : m.b.r.EB_state = .EB_STATE_NEW_FRAME)
    (hline : OnLine d16bEngine T (m.frames FIBER_ID) (.words (cap.words FIBER_ID)))
    (hcrc : m.b.c = (cap.words FIBER_ID).foldl d16bEngine.next d16bEngine.seed)
    (hdelay : m.b.r.data_valid_delay = 0b011 ∧ m.b.g.sr_state ≠ .SR_STATE_5)
    (hreq : m.b.g.empty_word_request = (m.b.g.sr_state == .SR_STATE_7)) :
    Follows FIBER_ID (m.tick FIBER_ID p) := by
  have hended' : (m.tick FIBER_ID p).ended = m.ended ++ [cap] := by
    change (if _ then _ else _) = _
    rw [if_pos h, hcur]
    rfl
  have hframes : (m.tick FIBER_ID p).frames FIBER_ID =
      m.frames FIBER_ID ++ [cap.words FIBER_ID] := by
    rw [Monitor.frames, hended', List.map_append]
    rfl
  have hcur' : (m.tick FIBER_ID p).cur = some ⟨p, []⟩ := if_pos h
  have hr : (m.tick FIBER_ID p).b.r = _ := tick_newFrame h
  have hq : (m.tick FIBER_ID p).b.g.sr_state = m.b.g.sr_state := by
    change (FEMB_EventBuilder.tick FIBER_ID m.b p).g.sr_state = _
    rw [state_tick, hdelay.1, next_two]
  have hline' := onLine_crc hline hlen hcrc
  have hsymbols := symbols_newFrame FIBER_ID p h
  rw [hsym, List.append_assoc J T, List.append_assoc J] at hsymbols
  cases hempty : m.b.g.empty_word_request
  · rw [hempty] at hr
    obtain ⟨n, hn⟩ := behind_newFrame FIBER_ID p h hempty
    have hdelay' : (m.tick FIBER_ID p).b.r.data_valid_delay = 0b011 := by
      rw [hr]
      rfl
    have hsix : (m.tick FIBER_ID p).b.g.sr_state = .SR_STATE_6 := by
      rw [hq]
      cases hs : m.b.g.sr_state
      · exact absurd hs hdelay.2
      · rfl
      · rw [hs, hempty] at hreq
        exact absurd hreq (by decide)
    refine ⟨J, _, hsymbols, hJ, .send ⟨p, []⟩ hcur' ?_ ?_ ?_ ?_⟩
    · rw [hr]
      exact newFrame_sending (crc m.b.c) false (defaults m.b.r)
    · rw [hframes, hn]
      exact onLine_last hline' n
    · change (if (m.tick FIBER_ID p).b.r.crc_reset then _ else _) = _
      rw [hr]
      rfl
    · refine ⟨fun _ => ?_, by simp, fun _ => .inl ⟨hdelay', .inl hsix⟩, by simp, by simp,
        by simp⟩
      rw [hr]
      rfl
  · rw [hempty] at hr
    have hseven : m.b.g.sr_state = .SR_STATE_7 := by
      rw [hempty] at hreq
      exact eq_of_beq hreq.symm
    have hbehind : (m.tick FIBER_ID p).b.behind = [] := by
      rw [Builder.behind, hq, hseven, hr]
      rfl
    rw [hbehind, List.append_nil] at hsymbols
    refine ⟨J, _, hsymbols, hJ, .skip ⟨p, []⟩ _ _ hcur' rfl ?_ ?_ hframes hline' ?_ ⟨?_, ?_, ?_⟩⟩
    · rw [hr]
      rfl
    · rw [hr]
      exact newFrame_sending (crc m.b.c) true (defaults m.b.r)
    · change (if (m.tick FIBER_ID p).b.r.crc_reset then _ else _) = _
      rw [hr]
      rfl
    · rw [hr]
      rfl
    · rw [hr]
      rfl
    · rw [hq, hseven]

/-- One clock cycle. -/
theorem Follows.tick (h : Follows FIBER_ID m) (p : Ports) :
    Follows FIBER_ID (m.tick FIBER_ID p) := by
  obtain ⟨J, T, hsym, hJ, hstage⟩ := h
  cases hstage with
  | start hcur hended hempty hreq hstate =>
    have hJ' : ∀ s ∈ m.symbols, s.dataK ≠ 0b01 := by
      rwa [hsym, hempty, List.append_nil]
    rcases hstate with hnew | ⟨hinit, hq⟩
    · exact Follows.tick_start hcur hended hreq hnew hJ'
    · exact Follows.tick_init hcur hended hq hinit hJ'
  | skip cap ws fs hcur hempty hstate hsend hframes hline hcrc hsync =>
    exact Follows.tick_skip hsym hJ hcur hempty hstate hsend hframes hline hcrc hsync
  | send cap hcur hsend hline hcrc hsync =>
    by_cases hk : cap.cycles.length < 60
    · exact Follows.tick_send hsym hJ hcur hsend hline hcrc hsync hk
    · exact Follows.tick_wait hsym hJ hcur hsend hline hcrc hsync hk
  | finish cap hcur hlen hstate hline hcrc hdelay hreq =>
    exact Follows.tick_finish hsym hJ hcur hlen hstate hline hcrc hdelay hreq

/-! ## Runs -/

theorem run_append_singleton (b : Builder) (ps : List Ports) (p : Ports) :
    run FIBER_ID b (ps ++ [p]) = (run FIBER_ID b ps).tick FIBER_ID p := by
  simp [run]

/-- After the reset there are only commas. -/
theorem symbols_reset (b : Builder) :
    ∀ s ∈ (run FIBER_ID b []).symbols, s.dataK ≠ 0b01 := by
  intro s hs
  have hcomma : s = comma := by
    rcases List.mem_append.mp hs with hs | hs
    · exact absurd hs List.not_mem_nil
    · rcases List.mem_append.mp hs with hs | hs
      · rcases List.mem_append.mp hs with hs | hs
        · obtain ⟨w, hw, rfl⟩ := List.mem_map.mp hs
          obtain ⟨i, rfl⟩ := (List.mem_ofFn' _ _).mp (List.mem_of_mem_take hw)
          exact unpack_pack comma
        · rcases taken_subset _ _ _ s hs with rfl | rfl | rfl <;> rfl
      · rcases taken_subset _ _ _ s hs with rfl | rfl | rfl <;> rfl
  rw [hcomma]
  decide

theorem follows_run (FIBER_ID : BitVec 2) (b : Builder) (ps : List Ports) :
    Follows FIBER_ID (run FIBER_ID b ps) := by
  induction ps using List.reverseRecOn with
  | nil =>
    exact ⟨_, [], (List.append_nil _).symm, symbols_reset b,
      .start rfl rfl rfl rfl (.inr ⟨rfl, rfl⟩)⟩
  | append_singleton ps p ih =>
    rw [run_append_singleton]
    exact ih.tick p

/-- Apart from the second cycle of the first frame and what comes before it, the gearbox takes the
words that the event builder marks as valid. -/
theorem run_not_slipped (b : Builder) (ps : List Ports) (p : Ports) :
    (run FIBER_ID b (ps ++ [p])).b.g.slipped = false ∨ (run FIBER_ID b ps).ended = [] ∧
      ∀ cap, (run FIBER_ID b ps).cur = some cap → cap.cycles.length = 1 := by
  have htwo (q : State) : valid 0b011 = some (q.takes 0b011) := by cases q <;> rfl
  obtain ⟨J, T, hsym, hJ, hstage⟩ := follows_run FIBER_ID b ps
  rw [run_append_singleton]
  change (clock _ (gearboxInput _ (run FIBER_ID b ps).b.r.data_valid_delay)).slipped = false ∨ _
  rw [clock_slipped, bne_eq_false_iff_eq]
  change valid (run FIBER_ID b ps).b.r.data_valid_delay =
    some ((run FIBER_ID b ps).b.g.sr_state.takes (run FIBER_ID b ps).b.r.data_valid_delay) ∨ _
  cases hstage with
  | start hcur hended => exact .inr ⟨hended, by simp [hcur]⟩
  | skip _ _ _ _ _ _ _ _ _ _ hsync => exact .inl (by rw [hsync.2.1, ← htwo])
  | finish _ _ _ _ _ _ hdelay => exact .inl (by rw [hdelay.1, ← htwo])
  | send cap hcur _ _ _ hsync =>
    rcases Nat.lt_trichotomy cap.cycles.length 1 with hk | hk | hk
    · rcases hsync.delay_zero (by omega) with ⟨hd, -⟩ | ⟨hd, hq⟩
      · exact .inl (by rw [hd, ← htwo])
      · exact .inl (by rw [hd, hq]; rfl)
    · obtain ⟨hd, hq | hended⟩ := hsync.delay_one hk
      · left
        rw [hd]
        cases hs : (run FIBER_ID b ps).b.g.sr_state
        · rfl
        · rfl
        · exact absurd hs hq
      · right
        refine ⟨hended, fun cap' hcap' => ?_⟩
        rw [← Option.some.inj (hcur.symm.trans hcap')]
        exact hk
    · exact .inl (by rw [(hsync.delay hk).1, ← htwo])

/-- The protocol up to the symbols that are on their way. -/
theorem Stage.onLine (h : Stage FIBER_ID m T) :
    ∃ fs o, OnLine d16bEngine T fs o ∧ fs <+: m.frames FIBER_ID := by
  cases h with
  | start _ _ hempty => exact ⟨[], .gap, hempty ▸ .nil, List.nil_prefix⟩
  | skip _ ws fs _ _ _ _ hframes hline =>
    exact ⟨fs, _, hline, hframes ▸ List.prefix_append fs [ws]⟩
  | send _ _ _ hline => exact ⟨_, _, hline, List.prefix_refl _⟩
  | finish _ _ _ _ hline => exact ⟨_, _, hline, List.prefix_refl _⟩

/-- Few symbols are on their way. -/
theorem length_inFlight (b : Builder) : b.inFlight.length ≤ 13 := by
  have htaken (q : State) (w : Words) (v : BitVec 3) : (taken q w v).length ≤ 3 := by
    rw [taken_eq, List.length_take]
    exact Nat.min_le_right _ _
  have hbehind : b.behind.length ≤ 3 := by
    unfold Builder.behind
    split
    · simp
    · exact htaken _ _ _
  have hdelay := htaken b.g.sr_state b.r.data_out_delay b.r.data_valid_delay
  have hcontent : b.g.content.length ≤ 7 := by
    rw [length_content]
    cases b.g.sr_state <;> decide
  simp only [Builder.inFlight, List.length_append, List.length_map]
  omega

/-- The line is a first part of the symbols that were written. -/
theorem line_split {L R : List LineSymbol} (h : L ++ R = J ++ T) :
    ∃ J' S R', L = J' ++ S ∧ T = S ++ R' ∧ R'.length ≤ R.length ∧ ∀ s ∈ J', s ∈ J := by
  rcases List.append_eq_append_iff.mp h with ⟨K, hJ, hR⟩ | ⟨S, hL, hT⟩
  · refine ⟨L, [], T, (List.append_nil L).symm, rfl, ?_, ?_⟩
    · rw [hR, List.length_append]
      omega
    · intro s hs
      rw [hJ]
      exact List.mem_append_left K hs
  · exact ⟨J, S, R, hL, hT, Nat.le_refl _, fun _ hs => hs⟩

/-- In every run since a reset, whatever the registers held before it and whatever the inputs are:
the line carries symbols that start no frame, and then it follows the line protocol with the CRC
of `EthernetCRCD16B`. The frames on it are those that were written, in their order, and seven
cycles into a frame all earlier ones are on the line. -/
theorem run_onLine (FIBER_ID : BitVec 2) (b : Builder) (ps : List Ports) :
    ∃ J S, (run FIBER_ID b ps).line = J ++ S ∧ (∀ s ∈ J, s.dataK ≠ 0b01) ∧
      ∃ fs o, OnLine d16bEngine S fs o ∧ fs <+: (run FIBER_ID b ps).frames FIBER_ID ∧
        ∀ cap, (run FIBER_ID b ps).cur = some cap → 7 ≤ cap.cycles.length →
          fs = (run FIBER_ID b ps).frames FIBER_ID := by
  obtain ⟨J, T, hsym, hJ, hstage⟩ := follows_run FIBER_ID b ps
  obtain ⟨J', S, R, hline, hT, hR, hJ'⟩ := line_split hsym
  have hfew := length_inFlight (run FIBER_ID b ps).b
  refine ⟨J', S, hline, fun s hs => hJ s (hJ' s hs), ?_⟩
  have hlate : (∃ cap, (run FIBER_ID b ps).cur = some cap ∧ 7 ≤ cap.cycles.length) →
      ∃ o, OnLine d16bEngine S ((run FIBER_ID b ps).frames FIBER_ID) o := by
    rintro ⟨cap, hcap, hk⟩
    have hlen : (cap.words FIBER_ID).length = 2 * cap.cycles.length := Capture.length_words
    have hopen : OnLine d16bEngine (S ++ R) ((run FIBER_ID b ps).frames FIBER_ID)
        (.words (cap.words FIBER_ID)) := by
      rw [← hT]
      cases hstage with
      | start hnone => simp [hcap] at hnone
      | skip cap' _ _ hcur hempty =>
        rw [hcap] at hcur
        rw [Option.some.inj hcur, hempty] at hk
        simp at hk
      | send cap' hcur _ hline =>
        rw [hcap] at hcur
        rw [← Option.some.inj hcur, openLine_words (by omega)] at hline
        exact hline
      | finish cap' hcur _ _ hline =>
        rw [hcap] at hcur
        rw [Option.some.inj hcur]
        exact hline
    obtain ⟨ws', hws'⟩ := hopen.of_append_words (by omega)
    exact ⟨_, hws'⟩
  by_cases h : ∃ cap, (run FIBER_ID b ps).cur = some cap ∧ 7 ≤ cap.cycles.length
  · obtain ⟨o, ho⟩ := hlate h
    exact ⟨_, o, ho, List.prefix_refl _, fun _ _ _ => rfl⟩
  · obtain ⟨fs, o, ho, hpre⟩ := hstage.onLine
    rw [hT] at ho
    obtain ⟨fs', o', ho', hpre'⟩ := ho.of_append_prefix
    exact ⟨fs', o', ho', hpre'.trans hpre, fun cap hcap hk => absurd ⟨cap, hcap, hk⟩ h⟩

end ProtoDune.Firmware.FEMB_EventBuilder
