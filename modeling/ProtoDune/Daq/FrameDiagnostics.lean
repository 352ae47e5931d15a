import ProtoDune.Daq.SetConfig

/-!
# `DaqBuffer.cpp`: `FrameDiagnostics::check_dataFrame`

The receiving thread looks at some of the packets it receives and compares the time stamp
and the two convert counts of each frame with those of the frame before. For each
destination it keeps what it predicts of the next packet it looks at. A remainder by zero
and a product that overflows have no result.

Main results:

* `checkFrames_spec` — the frames at which a packet is reported.
* `checkFrames_isSome` — when the check of a packet comes to an end.
* `check_dataFrame_spec` — what a call reports and keeps.
-/

namespace ProtoDune.Daq

/-! ## The counts of a frame -/

/-- `timestamp`, `cvt_0` and `cvt_1` of a frame, or what is predicted of them. -/
structure Sequence where
  timestamp : BitVec 64
  cvt_0 : BitVec 16
  cvt_1 : BitVec 16
deriving DecidableEq

/-- A packet as it is received: 1024 frames of 30 words. -/
abbrev PacketData := Nat → BitVec 64

def N64_PER_FRAME : Nat := 30

/-- The size of a packet in bytes, with its two last words. -/
def NBYTES : Nat := (N64_PER_FRAME * 1024 + 1 + 1) * 8

/-- The counts in frame `frame`. -/
def frameSequence (data : PacketData) (frame : Nat) : Sequence :=
  let idx := N64_PER_FRAME * frame
  { timestamp := data (idx + 1)
    cvt_0 := (data (idx + 2) >>> 48).setWidth 16
    cvt_1 := (data (idx + 16) >>> 48).setWidth 16 }

/-- The counts of the frame that follows. -/
def Sequence.next (s : Sequence) : Sequence where
  timestamp := s.timestamp + BitVec.ofNat 64 TimingClockTicks.PER_SAMPLE
  cvt_0 := s.cvt_0 + 1#16
  cvt_1 := s.cvt_1 + 1#16

/-- The counts `k` frames on. -/
def Sequence.advance (s : Sequence) (k : Nat) : Sequence where
  timestamp := s.timestamp + BitVec.ofNat 64 (TimingClockTicks.PER_SAMPLE * k)
  cvt_0 := s.cvt_0 + BitVec.ofNat 16 k
  cvt_1 := s.cvt_1 + BitVec.ofNat 16 k

/-- No packet was looked at yet. -/
def Sequence.zero : Sequence := ⟨0#64, 0#16, 0#16⟩

/-! ## `Activator` -/

/-- Whether a diagnostic is activated; both are 32 bits wide. -/
structure Activator where
  m_freq : Nat
  m_count : Nat

def Activator.init (freq : Nat) : Activator where
  m_freq := freq
  m_count := if freq = 0xffffffff then freq else 0

def Activator.declare (a : Activator) : Bool × Activator :=
  if a.m_count ≠ 0 then (false, { a with m_count := a.m_count - 1 })
  else (true, { a with m_count := a.m_freq })

/-! ## `check_dataFrame` -/

/-- What is printed: an incorrect amount of data, a bad comma character, an error of the
sequence, a spot check. -/
inductive Report where
  | aborted (nbytes : Nat)
  | frame (frame : Nat)
  | seq (frame error : Nat)
  | spot (frame : Nat)

/-- `m_dataFrameCheck`, and the static `History` and `Counter`. -/
structure FrameDiagnostics where
  check : Dest → Activator
  history : Dest → Sequence
  counter : Nat

def FrameDiagnostics.init (freqDataCheck : Nat) : FrameDiagnostics where
  check := fun _ => Activator.init freqDataCheck
  history := fun _ => .zero
  counter := 0

/-- `error` -/
def sequenceError (actual predicted : Sequence) : Nat :=
  (actual.timestamp != predicted.timestamp).toNat <<< 0
    ||| (actual.cvt_0 != predicted.cvt_0).toNat <<< 1
    ||| (actual.cvt_1 != predicted.cvt_1).toNat <<< 2

/-- The counts predicted of the first frame: where a time stamp is kept, those of the frame
itself. -/
def seedPredicted (history : Sequence) (data : PacketData) : Sequence :=
  if history.timestamp ≠ 0#64 then frameSequence data 0 else history

/-- One frame. The remainder is that by an integer division, which is 0 for a large
interval. -/
def checkFrame (data : PacketData) (counter sample frame : Nat) (predicted : Sequence) :
    Option (List Report × Sequence) :=
  let d := data (N64_PER_FRAME * frame)
  let comma := if d &&& 0xff#64 ≠ 0xbc#64 then [Report.frame frame] else []
  let actual := frameSequence data frame
  let error := sequenceError actual predicted
  let advanced (predicted : Sequence) : Sequence :=
    { timestamp := actual.timestamp + BitVec.ofNat 64 TimingClockTicks.PER_SAMPLE
      cvt_0 := predicted.cvt_0 + 1#16
      cvt_1 := predicted.cvt_1 + 1#16 }
  if error ≠ 0 then
    -- the prediction is resynched to the actual counts
    some (comma ++ [.seq frame error], advanced actual)
  else if 8 * 32768 / sample = 0 then none
  else
    let spot :=
      if counter % (8 * 32768 / sample) = 0 ∧ frame % 256 = 0 then [Report.spot frame] else []
    some (comma ++ spot, advanced predicted)

/-- The loop over `left` frames, from `frame` on. -/
def checkFrames (data : PacketData) (counter sample : Nat) :
    (left frame : Nat) → Sequence → Option (List Report × Sequence)
  | 0, _, predicted => some ([], predicted)
  | left + 1, frame, predicted =>
      match checkFrame data counter sample frame predicted with
      | none => none
      | some (reports, predicted) =>
          match checkFrames data counter sample left (frame + 1) predicted with
          | none => none
          | some (later, predicted) => some (reports ++ later, predicted)

/-- What is kept for the next packet, `sample` packets on; the product is one of `int`s. -/
def keepPredicted (sample : Nat) (predicted : Sequence) : Option Sequence :=
  let skip : Int := ((sample : Int) - 1) * TimingClockTicks.PER_SAMPLE
  if skip < 2 ^ 31 then
    some { timestamp := predicted.timestamp + BitVec.ofInt 64 skip
           cvt_0 := predicted.cvt_0 + BitVec.ofNat 16 sample - 1#16
           cvt_1 := predicted.cvt_1 + BitVec.ofNat 16 sample - 1#16 }
  else none

/-- `check_dataFrame` -/
def FrameDiagnostics.check_dataFrame (diag : FrameDiagnostics) (data : PacketData) (nbytes : Nat)
    (dest : Dest) (sample : Nat) : Option (List Report × FrameDiagnostics) :=
  let (active, check) := (diag.check dest).declare
  let diag := { diag with check := Function.update diag.check dest check }
  if !active then some ([], diag)
  else if nbytes ≠ NBYTES then some ([.aborted nbytes], diag)
  else
    let n64 := nbytes / 8 - 2
    let predicted := seedPredicted (diag.history dest) data
    let frames := (n64 + N64_PER_FRAME - 1) / N64_PER_FRAME
    match checkFrames data diag.counter sample frames 0 predicted with
    | none => none
    | some (reports, predicted) =>
        match keepPredicted sample predicted with
        | none => none
        | some kept =>
            some (reports, { diag with
              counter := (diag.counter + sample) % 2 ^ 32
              history := Function.update diag.history dest kept })

/-- A sequence error is reported at `frame`. -/
def HasError (reports : List Report) (frame : Nat) : Prop := ∃ error, .seq frame error ∈ reports

/-! ## The counts -/

theorem Sequence.next_iterate (s : Sequence) (k : Nat) : Sequence.next^[k] s = s.advance k := by
  induction k with
  | zero =>
      rw [Function.iterate_zero_apply]
      unfold advance
      rw [Nat.mul_zero, BitVec.add_zero, BitVec.add_zero, BitVec.add_zero]
  | succ k ih =>
      rw [Function.iterate_succ_apply', ih]
      unfold advance next
      rw [Nat.mul_succ, BitVec.ofNat_add, BitVec.ofNat_add, ← BitVec.add_assoc,
        ← BitVec.add_assoc, ← BitVec.add_assoc]

theorem Sequence.advance_next (s : Sequence) (k : Nat) :
    s.next.advance k = s.advance (k + 1) := by
  rw [← next_iterate, ← next_iterate, Function.iterate_succ_apply]

theorem sequenceError_eq_zero {actual predicted : Sequence} :
    sequenceError actual predicted = 0 ↔ actual = predicted := by
  unfold sequenceError
  rw [Nat.or_eq_zero_iff, Nat.or_eq_zero_iff]
  simp only [Nat.shiftLeft_eq_zero_iff, Bool.toNat_eq_zero, bne_eq_false_iff_eq]
  constructor
  · rintro ⟨⟨htime, hcvt_0⟩, hcvt_1⟩
    cases actual
    cases predicted
    simp_all
  · rintro rfl
    exact ⟨⟨rfl, rfl⟩, rfl⟩

/-- What is kept is `sample` packets taken for frames, as long as the product is an `int`. -/
theorem keepPredicted_eq_some_iff {sample : Nat} (hpos : 0 < sample) {s kept : Sequence} :
    keepPredicted sample s = some kept ↔
      sample ≤ 85899346 ∧ s.advance (sample - 1) = kept := by
  obtain ⟨k, rfl⟩ := Nat.exists_eq_add_of_le' hpos
  have hskip : (((k + 1 : Nat) : Int) - 1) * (25 : Nat) = ((25 * k : Nat) : Int) := by
    omega
  have hint : ((25 * k : Nat) : Int) < 2 ^ 31 ↔ k + 1 ≤ 85899346 := by
    omega
  have hcount : ∀ c : BitVec 16, c + BitVec.ofNat 16 (k + 1) - 1#16 = c + BitVec.ofNat 16 k := by
    intro c
    rw [BitVec.ofNat_add, ← BitVec.add_assoc]
    exact BitVec.add_sub_cancel _ _
  unfold keepPredicted Sequence.advance TimingClockTicks.PER_SAMPLE
  dsimp only
  rw [hskip, hcount, hcount, BitVec.ofInt_natCast, Nat.add_sub_cancel]
  split
  · next hlt => rw [Option.some.injEq, and_iff_right (hint.mp hlt)]
  · next hge => exact iff_of_false nofun fun h => hge (hint.mpr h.1)

/-! ## Every so many calls -/

/-- After `calls` calls of `declare`: the call comes round every `freq + 1` of them. -/
structure Activator.After (freq calls : Nat) (a : Activator) : Prop where
  interval : a.m_freq = freq
  le : a.m_count ≤ freq
  dvd : freq + 1 ∣ calls + a.m_count

namespace Activator

variable {freq calls : Nat} {a : Activator}

theorem After.init (hfreq : freq ≠ 0xffffffff) : After freq 0 (Activator.init freq) := by
  unfold Activator.init
  rw [if_neg hfreq]
  exact ⟨rfl, Nat.zero_le freq, Nat.dvd_zero _⟩

theorem After.declare_iff (h : After freq calls a) : a.declare.1 = true ↔ freq + 1 ∣ calls := by
  have hdvd := h.dvd
  have hle := h.le
  unfold Activator.declare
  split
  · next hcount =>
    refine iff_of_false Bool.false_ne_true fun hcalls => ?_
    have hmultiple := (Nat.dvd_add_right hcalls).mp hdvd
    have hroom := Nat.le_of_dvd (Nat.pos_of_ne_zero hcount) hmultiple
    omega
  · next hcount =>
    rw [not_not.mp hcount, Nat.add_zero] at hdvd
    exact iff_of_true rfl hdvd

theorem After.declare (h : After freq calls a) : After freq (calls + 1) a.declare.2 := by
  have hdvd := h.dvd
  have hle := h.le
  unfold Activator.declare
  split
  · next hcount =>
    refine ⟨h.interval, ?_, ?_⟩
    · change a.m_count - 1 ≤ freq
      omega
    · have hsame : calls + 1 + (a.m_count - 1) = calls + a.m_count := by omega
      exact hsame ▸ hdvd
  · next hcount =>
    rw [not_not.mp hcount, Nat.add_zero] at hdvd
    refine ⟨h.interval, Nat.le_of_eq h.interval, ?_⟩
    change freq + 1 ∣ calls + 1 + a.m_freq
    rw [h.interval, Nat.add_assoc, Nat.add_comm 1]
    exact (Nat.dvd_add_right hdvd).mpr (Nat.dvd_refl _)

end Activator

/-! ## The frames of a packet -/

/-- The counts that frame `frame` is compared with. -/
def expectedSequence (data : PacketData) (predicted : Sequence) (frame : Nat) : Sequence :=
  if frame = 0 then predicted else (frameSequence data (frame - 1)).next

section Frames

variable {data : PacketData} {counter sample : Nat}

theorem hasError_append {reports later : List Report} {i : Nat} :
    HasError (reports ++ later) i ↔ HasError reports i ∨ HasError later i := by
  unfold HasError
  rw [← exists_or]
  exact exists_congr fun error => List.mem_append

theorem not_mem_ite {p : Prop} [Decidable p] {r r' : Report} (hne : r ≠ r') :
    r ∉ (if p then [r'] else []) := by
  split
  · exact fun h => hne (List.mem_singleton.mp h)
  · exact List.not_mem_nil

/-- **One frame** is reported when it is not the one expected. Where the interval is too
large the check goes on behind an error only. -/
theorem checkFrame_spec {frame : Nat} {predicted after : Sequence} {reports : List Report}
    (h : checkFrame data counter sample frame predicted = some (reports, after)) :
    after = (frameSequence data frame).next ∧
      (∀ i, HasError reports i ↔ i = frame ∧ frameSequence data frame ≠ predicted) ∧
      (8 * 32768 / sample = 0 → frameSequence data frame ≠ predicted) := by
  unfold checkFrame at h
  dsimp only at h
  split at h
  · next herror =>
    have hne : frameSequence data frame ≠ predicted := fun heq =>
      herror (sequenceError_eq_zero.mpr heq)
    cases h
    refine ⟨rfl, fun i => ⟨?_, ?_⟩, fun _ => hne⟩
    · rintro ⟨error, hmem⟩
      rcases List.mem_append.mp hmem with hmem | hmem
      · exact absurd hmem (not_mem_ite nofun)
      · cases List.mem_singleton.mp hmem
        exact ⟨rfl, hne⟩
    · rintro ⟨rfl, -⟩
      exact ⟨_, List.mem_append_right _ (List.mem_singleton_self _)⟩
  · next herror =>
    have heq : frameSequence data frame = predicted :=
      sequenceError_eq_zero.mp (not_not.mp herror)
    split at h
    · cases h
    · next hevery =>
      cases h
      refine ⟨by rw [heq]; rfl, fun i => ⟨?_, fun h => absurd heq h.2⟩,
        fun hzero => absurd hzero hevery⟩
      rintro ⟨error, hmem⟩
      rcases List.mem_append.mp hmem with hmem | hmem
      · exact absurd hmem (not_mem_ite nofun)
      · exact absurd hmem (not_mem_ite nofun)

theorem checkFrame_isSome (counter : Nat) {frame : Nat} {predicted : Sequence}
    (h : 8 * 32768 / sample = 0 → frameSequence data frame ≠ predicted) :
    ∃ reports after, checkFrame data counter sample frame predicted = some (reports, after) := by
  unfold checkFrame
  dsimp only
  split
  · exact ⟨_, _, rfl⟩
  · next herror =>
    have heq : frameSequence data frame = predicted :=
      sequenceError_eq_zero.mp (not_not.mp herror)
    rw [if_neg fun hzero => h hzero heq]
    exact ⟨_, _, rfl⟩

/-- **The loop** reports the frames that are not the ones expected. -/
theorem checkFrames_spec {first : Sequence} {left : Nat} :
    ∀ {frame : Nat} {after : Sequence} {reports : List Report},
      checkFrames data counter sample left frame (expectedSequence data first frame)
        = some (reports, after) →
      after = expectedSequence data first (frame + left) ∧
        (∀ i, HasError reports i ↔
          frame ≤ i ∧ i < frame + left ∧ frameSequence data i ≠ expectedSequence data first i) ∧
        (8 * 32768 / sample = 0 → ∀ i, frame ≤ i → i < frame + left →
          frameSequence data i ≠ expectedSequence data first i) := by
  induction left with
  | zero =>
      intro frame after reports h
      cases h
      refine ⟨rfl, fun i => ⟨?_, fun hi => by omega⟩, fun _ i hle hlt => by omega⟩
      rintro ⟨error, hmem⟩
      cases hmem
  | succ left ih =>
      intro frame after reports h
      unfold checkFrames at h
      split at h
      · cases h
      · next here predicted hone =>
        obtain ⟨hafter, herror, hlarge⟩ := checkFrame_spec hone
        have hnext : predicted = expectedSequence data first (frame + 1) := hafter
        rw [hnext] at h
        split at h
        · cases h
        · next later predicted' hrest =>
          cases h
          obtain ⟨hend, hlater, hall⟩ := ih hrest
          refine ⟨?_, fun i => ?_, fun hzero i hle hlt => ?_⟩
          · rw [hend, Nat.add_right_comm, Nat.add_assoc]
          · rw [hasError_append, herror, hlater]
            constructor
            · rintro (⟨rfl, hne⟩ | ⟨hle, hlt, hne⟩)
              · exact ⟨Nat.le_refl i, by omega, hne⟩
              · exact ⟨by omega, by omega, hne⟩
            · rintro ⟨hle, hlt, hne⟩
              rcases Nat.eq_or_lt_of_le hle with rfl | hlt'
              · exact .inl ⟨rfl, hne⟩
              · exact .inr ⟨hlt', by omega, hne⟩
          · rcases Nat.eq_or_lt_of_le hle with rfl | hlt'
            · exact hlarge hzero
            · exact hall hzero i hlt' (by omega)

/-- **The loop** comes to its end where no remainder by zero is taken: at every frame the
interval is small, or the frame is not the one expected. -/
theorem checkFrames_isSome {first : Sequence} {left : Nat} :
    ∀ {frame : Nat}, (8 * 32768 / sample = 0 → ∀ i, frame ≤ i → i < frame + left →
        frameSequence data i ≠ expectedSequence data first i) →
      ∃ reports after, checkFrames data counter sample left frame
        (expectedSequence data first frame) = some (reports, after) := by
  induction left with
  | zero =>
      intro frame _
      exact ⟨[], _, rfl⟩
  | succ left ih =>
      intro frame h
      obtain ⟨here, between, hone⟩ := checkFrame_isSome counter fun hzero =>
        h hzero frame (Nat.le_refl frame) (by omega)
      have hnext : between = expectedSequence data first (frame + 1) := (checkFrame_spec hone).1
      obtain ⟨later, after, hrest⟩ := ih fun hzero i hle hlt =>
        h hzero i (Nat.le_of_succ_le hle) (by omega)
      refine ⟨here ++ later, after, ?_⟩
      unfold checkFrames
      rw [hone]
      dsimp only
      rw [hnext, hrest]

end Frames

/-! ## A call -/

namespace FrameDiagnostics

variable {diag diag' : FrameDiagnostics} {data : PacketData} {dest : Dest} {sample : Nat}
  {reports : List Report}

/-- A call that is not to check. -/
theorem check_dataFrame_idle (h : (diag.check dest).declare.1 = false) (data : PacketData)
    (nbytes sample : Nat) :
    diag.check_dataFrame data nbytes dest sample = some ([], { diag with
      check := Function.update diag.check dest (diag.check dest).declare.2 }) := by
  unfold check_dataFrame
  dsimp only
  rw [h]
  rfl

/-- The frames in a packet. -/
theorem frames_eq : (NBYTES / 8 - 2 + N64_PER_FRAME - 1) / N64_PER_FRAME = 1024 := rfl

/-- **A call that checks** a packet: it reports the frames that do not continue the ones
before, the first of them as compared with what was kept, if that has no time stamp. -/
theorem check_dataFrame_spec (hsample : 0 < sample)
    (hactive : (diag.check dest).declare.1 = true)
    (h : diag.check_dataFrame data NBYTES dest sample = some (reports, diag')) :
    diag'.check = Function.update diag.check dest (diag.check dest).declare.2 ∧
      diag'.history = Function.update diag.history dest
        ((frameSequence data 1023).next.advance (sample - 1)) ∧
      (∀ i, HasError reports i ↔ i < 1024 ∧ frameSequence data i
        ≠ expectedSequence data (seedPredicted (diag.history dest) data) i) ∧
      (8 * 32768 / sample = 0 → ∀ i < 1024, frameSequence data i
        ≠ expectedSequence data (seedPredicted (diag.history dest) data) i) ∧
      sample ≤ 85899346 := by
  unfold check_dataFrame at h
  dsimp only at h
  rw [hactive, frames_eq] at h
  split at h
  · next hnot => exact absurd hnot Bool.false_ne_true
  · rw [if_neg (fun hne => hne rfl)] at h
    split at h
    · cases h
    · next here after hframes =>
      split at h
      · cases h
      · next kept hkeep =>
        cases h
        have hfirst : checkFrames data diag.counter sample 1024 0
            (expectedSequence data (seedPredicted (diag.history dest) data) 0)
              = some (reports, after) := hframes
        obtain ⟨hafter, herror, hlarge⟩ := checkFrames_spec hfirst
        rw [Nat.zero_add] at hafter
        obtain ⟨hint, hkept⟩ := (keepPredicted_eq_some_iff hsample).mp hkeep
        refine ⟨rfl, ?_, fun i => ?_, fun hzero i hlt => hlarge hzero i (Nat.zero_le i) ?_, hint⟩
        · rw [← hkept, hafter]
          rfl
        · rw [herror, Nat.zero_add, and_iff_right (Nat.zero_le i)]
        · rw [Nat.zero_add]
          exact hlt

/-- **A call that checks** returns where no remainder by zero is taken and the product does
not overflow. -/
theorem check_dataFrame_isSome (hsample : 0 < sample)
    (hactive : (diag.check dest).declare.1 = true) (hint : sample ≤ 85899346)
    (hlarge : 8 * 32768 / sample = 0 → ∀ i < 1024, frameSequence data i
      ≠ expectedSequence data (seedPredicted (diag.history dest) data) i) :
    ∃ reports diag', diag.check_dataFrame data NBYTES dest sample = some (reports, diag') := by
  obtain ⟨reports, after, hframes⟩ : ∃ reports after, checkFrames data diag.counter sample 1024 0
      (expectedSequence data (seedPredicted (diag.history dest) data) 0)
        = some (reports, after) :=
    checkFrames_isSome fun hzero i _ hlt => hlarge hzero i (by omega)
  have hkeep := (keepPredicted_eq_some_iff hsample (s := after)).mpr ⟨hint, rfl⟩
  have hfirst : checkFrames data diag.counter sample 1024 0
      (seedPredicted (diag.history dest) data) = some (reports, after) := hframes
  unfold check_dataFrame
  dsimp only
  rw [hactive, frames_eq, Bool.not_true, if_neg Bool.false_ne_true,
    if_neg (fun hne => hne rfl), hfirst]
  dsimp only
  rw [hkeep]
  exact ⟨_, _, rfl⟩

end FrameDiagnostics

end ProtoDune.Daq
