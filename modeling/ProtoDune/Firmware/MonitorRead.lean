import ProtoDune.Firmware.WibFrameRead

/-!
# `MonitorRead.h`, `Monitor.h`: the read monitor

Every frame that is read is counted by its status: all of them, the well-framed
ones by their state, and the others by their framing errors. The errors in the
contents are counted for well-framed frames that are not flushed. The counters
are 32 bits wide.

Main results:

* `update_read_spec` — what one frame adds to each counter.
* `monitor_counts` — what the counters say after any sequence of frames.
-/

namespace ProtoDune.Firmware

namespace ReadStatus

def ErrCd0ChkSum : Nat := 0x0b
def ErrCd1ChkSum : Nat := 0x13
def ErrCd1CvtCnt : Nat := 0x14
def ErrCd1Hdrs : Nat := 0x17
def StateBeg : Nat := 0x18
def ErrFrameBeg : Nat := 0x1a

/-- `status.test (bit)`. -/
def test (status : BitVec 32) (bit : Nat) : Bool := status.getLsbD bit

/-- `ReadStatus::state`: the bits `RunDisable` and `Flush`. -/
def state (status : BitVec 32) : Nat := (status.extractLsb' StateBeg 2).toNat

/-- `ReadStatus::isGoodFrame`. -/
def isGoodFrame (status : BitVec 32) : Bool := status >>> ErrFrameBeg == 0

end ReadStatus

open ReadStatus

/-! `MonitorRead::WibCounter`. -/

namespace WibCounter

def ErrWibComma : Nat := 0x00
def ErrWibVersion : Nat := 0x01
def ErrWibId : Nat := 0x02
def ErrWibRsvd : Nat := 0x03
def ErrWibErrors : Nat := 0x04
def ErrWibTimestamp : Nat := 0x05
def ErrCd0StrErr1 : Nat := 0x08
def ErrCd0StrErr2 : Nat := 0x09
def ErrCd0Rsvd0 : Nat := 0x0a
def ErrCd0ChkSum : Nat := 0x0b
def ErrCd0CvtCnt : Nat := 0x0c
def ErrCd0ErrReg : Nat := 0x0d
def ErrCd0Rsvd1 : Nat := 0x0e
def ErrCd0Hdrs : Nat := 0x0f
def ErrCd1StrErr1 : Nat := 0x10
def ErrCd1StrErr2 : Nat := 0x11
def ErrCd1Rsvd0 : Nat := 0x12
def ErrCd1ChkSum : Nat := 0x13
def ErrCd1CvtCnt : Nat := 0x14
def ErrCd1ErrReg : Nat := 0x15
def ErrCd1Rsvd1 : Nat := 0x16
def ErrCd1Hdrs : Nat := 0x17

end WibCounter

/-! `MonitorRead::StateCounter`. -/

namespace StateCounter

def Normal : Nat := 0x0
def RunDisabled : Nat := 0x1
def Flush : Nat := 0x2
def DisFlush : Nat := 0x3

end StateCounter

/-! `MonitorRead::FrameCounter`. -/

namespace FrameCounter

def ErrSofM : Nat := 0x0
def ErrSofU : Nat := 0x1
def ErrEofM : Nat := 0x2
def ErrEofU : Nat := 0x3
def ErrEofE : Nat := 0x4

end FrameCounter

/-- `MonitorRead`: the summary and the errors. The arrays have 4, 5 and 24
counters. -/
structure MonitorRead where
  mask : BitVec 32
  nframes : BitVec 32
  nStates : Nat → BitVec 32
  nFrameErrs : Nat → BitVec 32
  nWibErrs : Nat → BitVec 32

namespace MonitorRead

/-- `init`. -/
def init : MonitorRead := ⟨0, 0, fun _ => 0, fun _ => 0, fun _ => 0⟩

/-- `count` of a WIB error. -/
def countWib (mon : MonitorRead) (increment : Bool) (counter : Nat) : MonitorRead :=
  if increment then
    { mon with nWibErrs := Function.update mon.nWibErrs counter (mon.nWibErrs counter + 1) }
  else mon

/-- `count` of a WIB error with an offset to the counter. -/
def countWibOff (mon : MonitorRead) (increment : Bool) (counter off : Nat) : MonitorRead :=
  if increment then
    { mon with nWibErrs :=
        Function.update mon.nWibErrs (counter + off) (mon.nWibErrs (counter + off) + 1) }
  else mon

/-- `count` of a framing error. -/
def countFrame (mon : MonitorRead) (increment : Bool) (counter : Nat) : MonitorRead :=
  if increment then
    { mon with nFrameErrs :=
        Function.update mon.nFrameErrs counter (mon.nFrameErrs counter + 1) }
  else mon

/-- `count` of a frame state. -/
def countState (mon : MonitorRead) (state : Nat) : MonitorRead :=
  { mon with nStates := Function.update mon.nStates state (mon.nStates state + 1) }

/-- `update_frame`. -/
def update_frame (mon : MonitorRead) (status : BitVec 32) : MonitorRead :=
  let mon := mon.countFrame (test status ErrSofU) FrameCounter.ErrSofU
  let mon := mon.countFrame (test status ErrEofU) FrameCounter.ErrEofU
  let mon := mon.countFrame (test status ErrEofM) FrameCounter.ErrEofM
  mon.countFrame (test status ErrEofE) FrameCounter.ErrEofE

/-- `update_wib`. -/
def update_wib (mon : MonitorRead) (status : BitVec 32) : MonitorRead :=
  -- header word 0
  let mon := mon.countWib (test status ErrWibComma) WibCounter.ErrWibComma
  let mon := mon.countWib (test status ErrWibId) WibCounter.ErrWibId
  let mon := mon.countWib (test status ErrWibVersion) WibCounter.ErrWibVersion
  let mon := mon.countWib (test status ErrWibRsvd) WibCounter.ErrWibRsvd
  let mon := mon.countWib (test status ErrWibErrors) WibCounter.ErrWibErrors
  -- header word 1
  mon.countWib (test status ErrWibTimestamp) WibCounter.ErrWibTimestamp

/-- `update_colddata`. -/
def update_colddata (mon : MonitorRead) (status : BitVec 32) (soff coff : Nat) : MonitorRead :=
  -- header word 0
  let mon := mon.countWibOff (test status (ErrCd0StrErr1 + soff)) WibCounter.ErrCd0StrErr1 coff
  let mon := mon.countWibOff (test status (ErrCd0StrErr2 + soff)) WibCounter.ErrCd0StrErr2 coff
  let mon := mon.countWibOff (test status (ErrCd0Rsvd0 + soff)) WibCounter.ErrCd0Rsvd0 coff
  let mon := mon.countWibOff (test status (ErrCd0ChkSum + soff)) WibCounter.ErrCd0ChkSum coff
  let mon := mon.countWibOff (test status (ErrCd0CvtCnt + soff)) WibCounter.ErrCd0CvtCnt coff
  -- header word 1
  let mon := mon.countWibOff (test status (ErrCd0ErrReg + soff)) WibCounter.ErrCd0ErrReg coff
  let mon := mon.countWibOff (test status (ErrCd0Rsvd1 + soff)) WibCounter.ErrCd0Rsvd1 coff
  mon.countWibOff (test status (ErrCd0Hdrs + soff)) WibCounter.ErrCd0Hdrs coff

/-- `update_read`. -/
def update_read (lcl : MonitorRead) (status : BitVec 32) : MonitorRead :=
  let lcl := { lcl with mask := status, nframes := lcl.nframes + 1 }
  if test status ErrSofM then lcl.countFrame true FrameCounter.ErrSofM
  else
    let lcl := lcl.update_frame status
    if isGoodFrame status then
      let lcl := lcl.countState (state status)
      if !test status Flush then
        let lcl := lcl.update_wib status
        let lcl := lcl.update_colddata status 0 0
        lcl.update_colddata status 8 8
      else lcl
    else lcl

/-- The status bits for errors in the contents, each with its counter. -/
def contentCounters : List (Nat × Nat) :=
  [(ErrWibComma, WibCounter.ErrWibComma), (ErrWibId, WibCounter.ErrWibId),
    (ErrWibVersion, WibCounter.ErrWibVersion), (ErrWibRsvd, WibCounter.ErrWibRsvd),
    (ErrWibErrors, WibCounter.ErrWibErrors), (ErrWibTimestamp, WibCounter.ErrWibTimestamp),
    (ErrCd0StrErr1, WibCounter.ErrCd0StrErr1), (ErrCd0StrErr2, WibCounter.ErrCd0StrErr2),
    (ErrCd0Rsvd0, WibCounter.ErrCd0Rsvd0), (ErrCd0ChkSum, WibCounter.ErrCd0ChkSum),
    (ErrCd0CvtCnt, WibCounter.ErrCd0CvtCnt), (ErrCd0ErrReg, WibCounter.ErrCd0ErrReg),
    (ErrCd0Rsvd1, WibCounter.ErrCd0Rsvd1), (ErrCd0Hdrs, WibCounter.ErrCd0Hdrs),
    (ErrCd1StrErr1, WibCounter.ErrCd1StrErr1), (ErrCd1StrErr2, WibCounter.ErrCd1StrErr2),
    (ErrCd1Rsvd0, WibCounter.ErrCd1Rsvd0), (ErrCd1ChkSum, WibCounter.ErrCd1ChkSum),
    (ErrCd1CvtCnt, WibCounter.ErrCd1CvtCnt), (ErrCd1ErrReg, WibCounter.ErrCd1ErrReg),
    (ErrCd1Rsvd1, WibCounter.ErrCd1Rsvd1), (ErrCd1Hdrs, WibCounter.ErrCd1Hdrs)]

/-- Each error has a counter of its own. -/
theorem contentCounters_nodup : (contentCounters.map Prod.snd).Nodup := by decide

/-! ## One frame -/

/-- What an event adds to its counter. -/
def hit (b : Bool) : BitVec 32 := if b then 1 else 0

/-- Count the errors in the contents. -/
def countContents (status : BitVec 32) (mon : MonitorRead) (counters : List (Nat × Nat)) :
    MonitorRead :=
  counters.foldl (fun mon a => mon.countWib (test status a.1) a.2) mon

/-- The two functions go through all the errors. -/
theorem update_contents (mon : MonitorRead) (status : BitVec 32) :
    ((mon.update_wib status).update_colddata status 0 0).update_colddata status 8 8 =
      countContents status mon contentCounters := by
  have hoff : ∀ (mon : MonitorRead) (increment : Bool) (counter off : Nat),
      mon.countWibOff increment counter off = mon.countWib increment (counter + off) :=
    fun _ _ _ _ => rfl
  unfold update_wib update_colddata
  simp only [hoff]
  rfl

variable {mon : MonitorRead} {status : BitVec 32} {increment : Bool} {counter i : Nat}

theorem countWib_nWibErrs :
    (mon.countWib increment counter).nWibErrs i =
      mon.nWibErrs i + hit (increment && i == counter) := by
  unfold countWib hit
  cases increment with
  | false => exact (BitVec.add_zero _).symm
  | true =>
    by_cases hi : i = counter
    · rw [hi]
      simp
    · simp [hi]

/-- A counter that no error of the list is counted in. -/
theorem countContents_notMem {counters : List (Nat × Nat)} (h : i ∉ counters.map Prod.snd) :
    (countContents status mon counters).nWibErrs i = mon.nWibErrs i := by
  induction counters generalizing mon with
  | nil => rfl
  | cons a counters ih =>
    rw [List.map_cons, List.mem_cons, not_or] at h
    show (countContents status (mon.countWib (test status a.1) a.2) counters).nWibErrs i = _
    rw [ih h.2, countWib_nWibErrs, beq_false_of_ne h.1, Bool.and_false]
    exact BitVec.add_zero _

/-- **Each error is counted in its own counter.** -/
theorem countContents_mem {counters : List (Nat × Nat)} {bit : Nat}
    (hnodup : (counters.map Prod.snd).Nodup) (h : (bit, counter) ∈ counters) :
    (countContents status mon counters).nWibErrs counter =
      mon.nWibErrs counter + hit (test status bit) := by
  induction counters generalizing mon with
  | nil => cases h
  | cons a counters ih =>
    rw [List.map_cons, List.nodup_cons] at hnodup
    show (countContents status (mon.countWib (test status a.1) a.2) counters).nWibErrs counter = _
    rcases List.mem_cons.mp h with rfl | h
    · rw [countContents_notMem hnodup.1, countWib_nWibErrs, beq_self_eq_true, Bool.and_true]
    · have hne : counter ≠ a.2 := by
        rintro rfl
        exact hnodup.1 (List.mem_map.mpr ⟨_, h, rfl⟩)
      rw [ih hnodup.2 h, countWib_nWibErrs, beq_false_of_ne hne, Bool.and_false]
      congr 1
      exact BitVec.add_zero _

/-- The other counters are left alone. -/
theorem countContents_frame (status : BitVec 32) (mon : MonitorRead) (counters : List (Nat × Nat)) :
    (countContents status mon counters).nframes = mon.nframes ∧
      (countContents status mon counters).nStates = mon.nStates := by
  induction counters generalizing mon with
  | nil => exact ⟨rfl, rfl⟩
  | cons a counters ih =>
    obtain ⟨hframes, hstates⟩ := ih (mon.countWib (test status a.1) a.2)
    refine ⟨hframes.trans ?_, hstates.trans ?_⟩
    · unfold countWib
      split <;> rfl
    · unfold countWib
      split <;> rfl

/-- What counting the framing errors leaves alone. -/
structure SameContents (mon mon' : MonitorRead) : Prop where
  nframes : mon'.nframes = mon.nframes
  nStates : mon'.nStates = mon.nStates
  nWibErrs : mon'.nWibErrs = mon.nWibErrs

theorem countFrame_same (mon : MonitorRead) (increment : Bool) (counter : Nat) :
    SameContents mon (mon.countFrame increment counter) := by
  unfold countFrame
  split <;> exact ⟨rfl, rfl, rfl⟩

theorem SameContents.trans {mon mon' mon'' : MonitorRead} (h : SameContents mon mon')
    (h' : SameContents mon' mon'') : SameContents mon mon'' :=
  ⟨h'.nframes.trans h.nframes, h'.nStates.trans h.nStates, h'.nWibErrs.trans h.nWibErrs⟩

theorem update_frame_same (mon : MonitorRead) (status : BitVec 32) :
    SameContents mon (mon.update_frame status) :=
  ((((countFrame_same mon _ _).trans (countFrame_same _ _ _)).trans
    (countFrame_same _ _ _)).trans (countFrame_same _ _ _))

/-- A frame without a start is not well-framed. -/
theorem isGoodFrame_of_errSofM (h : test status ErrSofM = true) : isGoodFrame status = false := by
  unfold isGoodFrame
  rw [beq_eq_false_iff_ne]
  intro hzero
  have hbit : (status >>> ErrFrameBeg).getLsbD 0 = true := by
    rw [BitVec.getLsbD_ushiftRight]
    exact h
  rw [hzero] at hbit
  cases hbit

/-- The contents of the frame are checked. -/
def checked (status : BitVec 32) : Bool := isGoodFrame status && !test status Flush

/-- **One frame**: what is added to each counter. -/
structure Counted (mon mon' : MonitorRead) (status : BitVec 32) : Prop where
  nframes : mon'.nframes = mon.nframes + 1
  nStates : ∀ i, mon'.nStates i = mon.nStates i + hit (isGoodFrame status && i == state status)
  nWibErrs : ∀ bit counter, (bit, counter) ∈ contentCounters →
    mon'.nWibErrs counter = mon.nWibErrs counter + hit (checked status && test status bit)

/-- A frame of which nothing but its framing is counted. -/
theorem SameContents.counted {mon' : MonitorRead}
    (h : SameContents { mon with mask := status, nframes := mon.nframes + 1 } mon')
    (hgood : isGoodFrame status = false) : Counted mon mon' status := by
  refine ⟨h.nframes, ?_, ?_⟩
  · intro i
    rw [h.nStates, hgood]
    exact (BitVec.add_zero _).symm
  · intro bit counter _
    rw [h.nWibErrs, checked, hgood]
    exact (BitVec.add_zero _).symm

theorem countState_nStates (mon : MonitorRead) (state i : Nat) :
    (mon.countState state).nStates i = mon.nStates i + hit (i == state) := by
  unfold countState hit
  by_cases hi : i = state
  · rw [hi]
    simp
  · simp [hi]

theorem update_read_spec (mon : MonitorRead) (status : BitVec 32) :
    Counted mon (mon.update_read status) status := by
  unfold update_read
  dsimp only
  by_cases hsof : test status ErrSofM = true
  · rw [if_pos hsof]
    exact (countFrame_same _ _ _).counted (isGoodFrame_of_errSofM hsof)
  · rw [if_neg hsof]
    have hsame := update_frame_same { mon with mask := status, nframes := mon.nframes + 1 } status
    by_cases hgood : isGoodFrame status = true
    · rw [if_pos hgood]
      by_cases hflush : (!test status Flush) = true
      · rw [if_pos hflush, update_contents]
        obtain ⟨hframes, hstates⟩ := countContents_frame status
          ((update_frame { mon with mask := status, nframes := mon.nframes + 1 } status).countState
            (state status)) contentCounters
        refine ⟨hframes.trans hsame.nframes, ?_, ?_⟩
        · intro i
          rw [hstates, countState_nStates, hsame.nStates, hgood, Bool.true_and]
        · intro bit counter hmem
          rw [countContents_mem contentCounters_nodup hmem, checked, hgood, hflush, Bool.true_and,
            Bool.true_and]
          exact congrArg (· + _) (congrFun hsame.nWibErrs counter)
      · rw [if_neg hflush]
        refine ⟨hsame.nframes, ?_, ?_⟩
        · intro i
          rw [countState_nStates, hsame.nStates, hgood, Bool.true_and]
        · intro bit counter _
          rw [checked, eq_false_of_ne_true hflush, Bool.and_false]
          exact (congrFun hsame.nWibErrs counter).trans (BitVec.add_zero _).symm
    · rw [if_neg hgood]
      exact hsame.counted (eq_false_of_ne_true hgood)

/-! ## Any number of frames -/

/-- The monitor after the frames with the given statuses. -/
def run (statuses : List (BitVec 32)) : MonitorRead := statuses.foldl update_read init

/-- A counter that each frame adds to by its status. -/
theorem counter_run (f : MonitorRead → BitVec 32) (p : BitVec 32 → Bool)
    (hstep : ∀ mon status, f (mon.update_read status) = f mon + hit (p status))
    (statuses : List (BitVec 32)) :
    f (run statuses) = f init + BitVec.ofNat 32 (statuses.countP p) := by
  have hfrom : ∀ mon : MonitorRead, f (statuses.foldl update_read mon) =
      f mon + BitVec.ofNat 32 (statuses.countP p) := by
    induction statuses with
    | nil =>
      intro mon
      exact (BitVec.add_zero _).symm
    | cons status statuses ih =>
      intro mon
      rw [List.foldl_cons, ih, hstep, List.countP_cons, BitVec.add_assoc, Nat.add_comm,
        BitVec.ofNat_add]
      congr 2
      unfold hit
      split <;> rfl
  exact hfrom init

/-- The sum of the counters of the four states. -/
def sumStates (mon : MonitorRead) : BitVec 32 :=
  mon.nStates StateCounter.Normal + mon.nStates StateCounter.RunDisabled +
    mon.nStates StateCounter.Flush + mon.nStates StateCounter.DisFlush

theorem state_lt (status : BitVec 32) : state status < 4 := by
  unfold state
  exact BitVec.isLt _

theorem sumStates_update (mon : MonitorRead) (status : BitVec 32) :
    (mon.update_read status).sumStates = mon.sumStates + hit (isGoodFrame status) := by
  have hstates := (update_read_spec mon status).nStates
  unfold sumStates
  rw [hstates, hstates, hstates, hstates]
  -- the frame is in exactly one of the states
  have hone : hit (isGoodFrame status && StateCounter.Normal == state status) +
      hit (isGoodFrame status && StateCounter.RunDisabled == state status) +
      hit (isGoodFrame status && StateCounter.Flush == state status) +
      hit (isGoodFrame status && StateCounter.DisFlush == state status) =
        hit (isGoodFrame status) := by
    cases isGoodFrame status with
    | false => rfl
    | true =>
      have hlt := state_lt status
      have hcases : state status = 0 ∨ state status = 1 ∨ state status = 2 ∨ state status = 3 := by
        omega
      rcases hcases with h | h | h | h <;> rw [h] <;> rfl
  rw [← hone]
  ac_rfl

/-- What the counters say of the frames so far, modulo 2^32. -/
structure Counts (statuses : List (BitVec 32)) (mon : MonitorRead) : Prop where
  nframes : mon.nframes = BitVec.ofNat 32 statuses.length
  total : mon.nframes =
    mon.sumStates + BitVec.ofNat 32 (statuses.countP fun status => !isGoodFrame status)
  states : ∀ i, mon.nStates i =
    BitVec.ofNat 32 (statuses.countP fun status => isGoodFrame status && i == state status)
  contents : ∀ bit counter, (bit, counter) ∈ contentCounters →
    mon.nWibErrs counter =
      BitVec.ofNat 32 (statuses.countP fun status => checked status && test status bit)

/-- **The read monitor**: after every frame of every sequence, the total is the
sum of the states and of the frames that are not well-framed, and each error in
the contents is counted in well-framed frames that are not flushed, modulo 2^32. -/
theorem monitor_counts (statuses : List (BitVec 32)) : Counts statuses (run statuses) := by
  have hframes : (run statuses).nframes = BitVec.ofNat 32 statuses.length := by
    have h := counter_run MonitorRead.nframes (fun _ => true)
      (fun mon status => (update_read_spec mon status).nframes) statuses
    rw [h, List.countP_true]
    exact BitVec.zero_add _
  have hstates : (run statuses).sumStates = BitVec.ofNat 32 (statuses.countP isGoodFrame) := by
    rw [counter_run sumStates isGoodFrame sumStates_update statuses]
    exact BitVec.zero_add _
  refine ⟨hframes, ?_, ?_, ?_⟩
  · rw [hframes, hstates, ← BitVec.ofNat_add, List.length_eq_countP_add_countP isGoodFrame]
    simp
  · intro i
    rw [counter_run (fun mon => mon.nStates i) _
      (fun mon status => (update_read_spec mon status).nStates i) statuses]
    exact BitVec.zero_add _
  · intro bit counter hmem
    rw [counter_run (fun mon => mon.nWibErrs counter) _
      (fun mon status => (update_read_spec mon status).nWibErrs bit counter hmem) statuses]
    exact BitVec.zero_add _

/-- After 2^32 frames with a comma that does not match, none is counted. -/
theorem comma_wraps :
    ¬ ∀ statuses : List (BitVec 32),
      (run statuses).nframes.toNat = (run statuses).sumStates.toNat +
          statuses.countP (fun status => !isGoodFrame status) ∧
        ∀ bit counter, (bit, counter) ∈ contentCounters →
          ((run statuses).nWibErrs counter).toNat =
            statuses.countP fun status => checked status && test status bit := by
  intro hall
  have hcomma : (ErrWibComma, WibCounter.ErrWibComma) ∈ contentCounters := List.mem_cons_self
  obtain ⟨-, hcontents⟩ := hall (List.replicate (2 ^ 32) 1)
  have hcount := hcontents ErrWibComma WibCounter.ErrWibComma hcomma
  have hrun := counter_run (fun mon => mon.nWibErrs WibCounter.ErrWibComma) _
    (fun mon status => (update_read_spec mon status).nWibErrs _ _ hcomma)
    (List.replicate (2 ^ 32) 1)
  have hbad : (checked 1 && test 1 ErrWibComma) = true := by decide
  rw [List.countP_replicate, if_pos hbad] at hcount hrun
  rw [hrun] at hcount
  cases hcount

end MonitorRead

end ProtoDune.Firmware
