import ProtoDune.Daq.FrameDiagnostics
import ProtoDune.Lib.Continuity

/-!
# `DaqBuffer.cpp`: the continuity of the frames received

The packets of the two destinations come in any order. Every `stride`-th packet of a
destination is passed to `check_dataFrame`, which looks at every `freq + 1`-th of these.

Main results:

* `receive_checked`, `run_checked` — what a packet and a run leave, and what is reported.
* `run_isSome_iff` — when a run comes to its end.
* `errorsExact_iff` — when the reports are those that continuity asks for.
* `frames_checked` — both, for every run.
-/

namespace ProtoDune.Daq

open Continuity

/-! ## A run -/

/-- The packets received so far, and what was reported of those that were passed. -/
structure CheckRun where
  diag : FrameDiagnostics
  seen : Dest → Nat
  log : List (Dest × Nat × List Report)

namespace CheckRun

/-- Before the first packet. -/
def start (freq : Nat) : CheckRun where
  diag := FrameDiagnostics.init freq
  seen := fun _ => 0
  log := []

/-- The next packet of a destination is received. -/
def receive (streams : Dest → Nat → PacketData) (stride sample : Nat) (r : CheckRun)
    (dest : Dest) : Option CheckRun :=
  let n := r.seen dest
  let seen := Function.update r.seen dest (n + 1)
  if n % stride ≠ 0 then some { r with seen }
  else
    match r.diag.check_dataFrame (streams dest n) NBYTES dest sample with
    | none => none
    | some (reports, diag) => some { diag, seen, log := r.log ++ [(dest, n, reports)] }

/-- The packets are received in the order of `order`. -/
def run (streams : Dest → Nat → PacketData) (stride sample : Nat) :
    List Dest → CheckRun → Option CheckRun
  | [], r => some r
  | dest :: order, r =>
      match r.receive streams stride sample dest with
      | none => none
      | some r => run streams stride sample order r

/-- A sequence error was reported at frame `i` of packet `n`. -/
def Reported (r : CheckRun) (dest : Dest) (n i : Nat) : Prop :=
  ∃ reports, (dest, n, reports) ∈ r.log ∧ HasError reports i

end CheckRun

/-- The frames of all packets of a destination. -/
def streamSequence (stream : Nat → PacketData) (g : Nat) : Sequence :=
  frameSequence (stream (g / 1024)) (g % 1024)

/-! ## What it should report -/

/-- No error is reported of a contiguous stream, and errors are reported at the frames of
checked packets that deviate. The very first frame has nothing to deviate from. -/
structure ErrorsExact (stream : Nat → PacketData) (sample : Nat) (r : CheckRun)
    (dest : Dest) : Prop where
  quiet : Contiguous Sequence.next (streamSequence stream) (1024 * r.seen dest) →
    ∀ n i, ¬r.Reported dest n i
  exact : ∀ n i, n < r.seen dest → sample ∣ n → i < 1024 → 0 < n ∨ 0 < i →
    (r.Reported dest n i ↔ Deviates Sequence.next (streamSequence stream) 1024 sample n i)

/-- The first frame of a later packet: where a time stamp is kept it continues what was
looked at before; where it is zero, it is neither what was kept nor what continuity asks
for, unless these are the same. -/
def Continues (sample : Nat) (last first : Sequence) : Prop :=
  if (last.advance sample).timestamp ≠ 0#64 then first = last.advance (1024 * (sample - 1) + 1)
  else sample = 1 ∨
    first ≠ last.advance sample ∧ first ≠ last.advance (1024 * (sample - 1) + 1)

/-- A contiguous stream starts with zero counts, and the first frames of the packets looked
at later continue those looked at before. -/
structure StartsAndContinues (stream : Nat → PacketData) (sample packets : Nat) : Prop where
  first : 0 < packets →
    Contiguous Sequence.next (streamSequence stream) (1024 * packets) →
      streamSequence stream 0 = .zero
  later : ∀ n, 0 < n → n < packets → sample ∣ n →
    Continues sample (lastBefore (streamSequence stream) 1024 sample n)
      (streamSequence stream (1024 * n))

/-- None of the frames looked at is the one it is compared with: not the first of a packet
with what was kept, nor a later one with the frame before. -/
structure NoneExpected (stream : Nat → PacketData) (sample packets : Nat) : Prop where
  first : 0 < packets → streamSequence stream 0 ≠ .zero
  kept : ∀ n, 0 < n → n < packets → sample ∣ n →
    ((lastBefore (streamSequence stream) 1024 sample n).advance sample).timestamp = 0#64 ∧
      streamSequence stream (1024 * n)
        ≠ (lastBefore (streamSequence stream) 1024 sample n).advance sample
  later : ∀ n i, n < packets → sample ∣ n → 0 < i → i < 1024 →
    Deviates Sequence.next (streamSequence stream) 1024 sample n i

/-! ## What it reports -/

/-- What is kept for the packet looked at next, when `n` packets were received. -/
def keptSequence (stream : Nat → PacketData) (sample n : Nat) : Sequence :=
  if n = 0 then .zero
  else (frameSequence (stream (sample * ((n - 1) / sample))) 1023).next.advance (sample - 1)

/-- Frame `i` of packet `n` is not what is predicted of it. -/
def Wrong (stream : Nat → PacketData) (sample n i : Nat) : Prop :=
  frameSequence (stream n) i
    ≠ expectedSequence (stream n) (seedPredicted (keptSequence stream sample n) (stream n)) i

/-- The check of packet `n` comes to its end: the product of the interval is an `int`, and
where the interval is large no frame is the one expected. -/
structure Ends (stream : Nat → PacketData) (sample n : Nat) : Prop where
  product : sample ≤ 85899346
  remainder : 8 * 32768 / sample = 0 → ∀ i < 1024, Wrong stream sample n i

/-- The number of calls for `n` packets. -/
def callsOf (stride n : Nat) : Nat := (n + stride - 1) / stride

section Calls

variable {stride n : Nat}

theorem callsOf_of_dvd (hstride : 0 < stride) (h : n % stride = 0) :
    callsOf stride n = n / stride ∧ callsOf stride (n + 1) = n / stride + 1 := by
  obtain ⟨q, rfl⟩ := Nat.dvd_of_mod_eq_zero h
  unfold callsOf
  rw [Nat.mul_div_cancel_left q hstride]
  constructor
  · apply Nat.div_eq_of_lt_le
    · rw [Nat.mul_comm]
      omega
    · rw [Nat.succ_mul, Nat.mul_comm]
      omega
  · apply Nat.div_eq_of_lt_le
    · rw [Nat.succ_mul, Nat.mul_comm]
      omega
    · rw [Nat.succ_mul, Nat.succ_mul, Nat.mul_comm]
      omega

theorem callsOf_succ (hstride : 0 < stride) (h : n % stride ≠ 0) :
    callsOf stride (n + 1) = callsOf stride n := by
  have hsplit := Nat.div_add_mod n stride
  have hlt := Nat.mod_lt n hstride
  unfold callsOf
  have hnext : (n + 1 + stride - 1) / stride = n / stride + 1 := by
    apply Nat.div_eq_of_lt_le
    · rw [Nat.succ_mul, Nat.mul_comm]
      omega
    · rw [Nat.succ_mul, Nat.succ_mul, Nat.mul_comm]
      omega
  rw [hnext, eq_comm]
  apply Nat.div_eq_of_lt_le
  · rw [Nat.succ_mul, Nat.mul_comm]
    omega
  · rw [Nat.succ_mul, Nat.succ_mul, Nat.mul_comm]
    omega

end Calls

section Kept

variable {stream : Nat → PacketData} {sample n : Nat}

theorem keptSequence_of_dvd (h : sample ∣ n) :
    keptSequence stream sample (n + 1)
      = (frameSequence (stream n) 1023).next.advance (sample - 1) := by
  unfold keptSequence
  rw [if_neg (Nat.succ_ne_zero n), Nat.add_sub_cancel, Nat.mul_div_cancel' h]

theorem keptSequence_of_not_dvd (h : ¬sample ∣ n) :
    keptSequence stream sample (n + 1) = keptSequence stream sample n := by
  cases n with
  | zero => exact absurd (Nat.dvd_zero sample) h
  | succ n =>
      unfold keptSequence
      rw [if_neg (Nat.succ_ne_zero _), if_neg (Nat.succ_ne_zero _), Nat.add_sub_cancel,
        Nat.add_sub_cancel, Nat.succ_div_of_not_dvd h]

end Kept

/-! ## One packet -/

/-- What holds between two packets. -/
structure Checked (streams : Dest → Nat → PacketData) (stride freq : Nat) (r : CheckRun) :
    Prop where
  check : ∀ d, (r.diag.check d).After freq (callsOf stride (r.seen d))
  history : ∀ d, r.diag.history d = keptSequence (streams d) (stride * (freq + 1)) (r.seen d)
  reported : ∀ d n i, r.Reported d n i ↔ n < r.seen d ∧ stride * (freq + 1) ∣ n ∧ i < 1024 ∧
    Wrong (streams d) (stride * (freq + 1)) n i
  ended : ∀ d n, n < r.seen d → stride * (freq + 1) ∣ n →
    Ends (streams d) (stride * (freq + 1)) n

section Run

variable {streams : Dest → Nat → PacketData} {stride freq : Nat} {r r' : CheckRun} {dest : Dest}

theorem start_checked (hfreq : freq ≠ 0xffffffff) (hstride : 0 < stride) :
    Checked streams stride freq (CheckRun.start freq) := by
  refine ⟨fun d => ?_, fun d => rfl, fun d n i => ⟨?_, fun h => absurd h.1 (Nat.not_lt_zero n)⟩,
    fun d n hlt => absurd hlt (Nat.not_lt_zero n)⟩
  · have hnone : callsOf stride 0 = 0 := by
      unfold callsOf
      exact Nat.div_eq_of_lt (by omega)
    change (Activator.init freq).After freq (callsOf stride 0)
    rw [hnone]
    exact Activator.After.init hfreq
  · rintro ⟨reports, hmem, -⟩
    cases hmem

/-- What a packet of `dest` changes, and what it leaves of the other destination. -/
theorem Checked.next (h : Checked streams stride freq r)
    (hseen : r'.seen = Function.update r.seen dest (r.seen dest + 1))
    (hother : ∀ d, d ≠ dest →
      r'.diag.check d = r.diag.check d ∧ r'.diag.history d = r.diag.history d)
    (hcheck : (r'.diag.check dest).After freq (callsOf stride (r.seen dest + 1)))
    (hhistory : r'.diag.history dest
      = keptSequence (streams dest) (stride * (freq + 1)) (r.seen dest + 1))
    (hreported : ∀ d n i, r'.Reported d n i ↔ r.Reported d n i ∨ d = dest ∧ n = r.seen dest ∧
      stride * (freq + 1) ∣ n ∧ i < 1024 ∧ Wrong (streams dest) (stride * (freq + 1)) n i)
    (hends : stride * (freq + 1) ∣ r.seen dest →
      Ends (streams dest) (stride * (freq + 1)) (r.seen dest)) :
    Checked streams stride freq r' := by
  have hsame : r'.seen dest = r.seen dest + 1 := by
    rw [hseen, Function.update_self]
  have hseen' : ∀ d, d ≠ dest → r'.seen d = r.seen d := by
    intro d hd
    rw [hseen, Function.update_of_ne hd]
  refine ⟨fun d => ?_, fun d => ?_, fun d n i => ?_, fun d n hlt hdvd => ?_⟩
  · by_cases hd : d = dest
    · rw [hd, hsame]
      exact hcheck
    · rw [hseen' d hd, (hother d hd).1]
      exact h.check d
  · by_cases hd : d = dest
    · rw [hd, hsame]
      exact hhistory
    · rw [hseen' d hd, (hother d hd).2]
      exact h.history d
  · rw [hreported, h.reported]
    by_cases hd : d = dest
    · rw [hd, hsame]
      constructor
      · rintro (⟨hlt, hrest⟩ | ⟨-, rfl, hrest⟩)
        · exact ⟨Nat.lt_succ_of_lt hlt, hrest⟩
        · exact ⟨Nat.lt_succ_self _, hrest⟩
      · rintro ⟨hlt, hrest⟩
        rcases Nat.lt_succ_iff_lt_or_eq.mp hlt with hlt | heq
        · exact .inl ⟨hlt, hrest⟩
        · exact .inr ⟨rfl, heq, hrest⟩
    · rw [hseen' d hd]
      exact or_iff_left fun hnew => hd hnew.1
  · by_cases hd : d = dest
    · subst hd
      rw [hsame] at hlt
      rcases Nat.lt_succ_iff_lt_or_eq.mp hlt with hlt | rfl
      · exact h.ended d n hlt hdvd
      · exact hends hdvd
    · rw [hseen' d hd] at hlt
      exact h.ended d n hlt hdvd

/-- A packet that is not looked at. -/
theorem Checked.skip (h : Checked streams stride freq r)
    (hnot : ¬stride * (freq + 1) ∣ r.seen dest)
    (hseen : r'.seen = Function.update r.seen dest (r.seen dest + 1))
    (hother : ∀ d, d ≠ dest → r'.diag.check d = r.diag.check d)
    (hcheck : (r'.diag.check dest).After freq (callsOf stride (r.seen dest + 1)))
    (hhistory : r'.diag.history = r.diag.history)
    (hreported : ∀ d n i, r'.Reported d n i ↔ r.Reported d n i) :
    Checked streams stride freq r' := by
  refine h.next hseen (fun d hd => ⟨hother d hd, by rw [hhistory]⟩) hcheck ?_ ?_
    fun hdvd => absurd hdvd hnot
  · rw [hhistory, keptSequence_of_not_dvd hnot]
    exact h.history dest
  · intro d n i
    rw [hreported]
    refine (or_iff_left ?_).symm
    rintro ⟨-, rfl, hdvd, -⟩
    exact hnot hdvd

theorem reported_append {diag : FrameDiagnostics} {seen : Dest → Nat} {reports : List Report}
    (n₀ n i : Nat) (dest d : Dest) :
    (CheckRun.mk diag seen (r.log ++ [(dest, n₀, reports)])).Reported d n i ↔
      r.Reported d n i ∨ d = dest ∧ n = n₀ ∧ HasError reports i := by
  unfold CheckRun.Reported
  constructor
  · rintro ⟨reports', hmem, herror⟩
    rcases List.mem_append.mp hmem with hmem | hmem
    · exact .inl ⟨reports', hmem, herror⟩
    · cases List.mem_singleton.mp hmem
      exact .inr ⟨rfl, rfl, herror⟩
  · rintro (⟨reports', hmem, herror⟩ | ⟨rfl, rfl, herror⟩)
    · exact ⟨reports', List.mem_append_left _ hmem, herror⟩
    · exact ⟨reports, List.mem_append_right _ (List.mem_singleton_self _), herror⟩

theorem sample_dvd_iff {n : Nat} (h : n % stride = 0) :
    freq + 1 ∣ n / stride ↔ stride * (freq + 1) ∣ n :=
  Nat.dvd_div_iff_mul_dvd (Nat.dvd_of_mod_eq_zero h)

/-- The packets that are passed and looked at. -/
theorem Checked.declare_iff (hstride : 0 < stride) (h : Checked streams stride freq r)
    (hmod : r.seen dest % stride = 0) :
    (r.diag.check dest).declare.1 = true ↔ stride * (freq + 1) ∣ r.seen dest := by
  have hafter := h.check dest
  rw [(callsOf_of_dvd hstride hmod).1] at hafter
  rw [hafter.declare_iff, sample_dvd_iff hmod]

/-- **One packet.** -/
theorem receive_checked (hstride : 0 < stride) (h : Checked streams stride freq r)
    (hstep : r.receive streams stride (stride * (freq + 1)) dest = some r') :
    Checked streams stride freq r' ∧
      r'.seen = Function.update r.seen dest (r.seen dest + 1) := by
  have hpos : 0 < stride * (freq + 1) := Nat.mul_pos hstride (Nat.succ_pos freq)
  unfold CheckRun.receive at hstep
  dsimp only at hstep
  split at hstep
  · next hskip =>
    -- the packet is not passed
    cases hstep
    have hnot : ¬stride * (freq + 1) ∣ r.seen dest := fun hdvd =>
      hskip (Nat.mod_eq_zero_of_dvd (Nat.dvd_trans (Nat.dvd_mul_right _ _) hdvd))
    refine ⟨h.skip hnot rfl (fun _ _ => rfl) ?_ rfl fun _ _ _ => Iff.rfl, rfl⟩
    rw [callsOf_succ hstride hskip]
    exact h.check dest
  · next hpassed =>
    have hmod : r.seen dest % stride = 0 := not_not.mp hpassed
    obtain ⟨hcalls, hcalls'⟩ := callsOf_of_dvd hstride hmod
    have hafter := h.check dest
    rw [hcalls] at hafter
    have hnext := hafter.declare
    rw [← hcalls'] at hnext
    have hround := h.declare_iff hstride hmod
    by_cases hactive : (r.diag.check dest).declare.1 = true
    · have hdvd := hround.mp hactive
      split at hstep
      · cases hstep
      · next reports diag hcall =>
        cases hstep
        obtain ⟨hcheck, hhistory, herror, hlarge, hint⟩ :=
          FrameDiagnostics.check_dataFrame_spec hpos hactive hcall
        rw [h.history dest] at herror hlarge
        refine ⟨h.next rfl (fun d hd => ⟨?_, ?_⟩) ?_ ?_ ?_ fun _ => ⟨hint, hlarge⟩, rfl⟩
        · rw [hcheck, Function.update_of_ne hd]
        · rw [hhistory, Function.update_of_ne hd]
        · rw [hcheck, Function.update_self]
          exact hnext
        · rw [hhistory, Function.update_self, keptSequence_of_dvd hdvd]
        · intro d n i
          rw [reported_append, herror]
          refine or_congr_right (and_congr_right fun _ => and_congr_right fun hn => ?_)
          subst hn
          rw [and_iff_right hdvd]
          rfl
    · have hidle := Bool.eq_false_iff.mpr hactive
      have hnot : ¬stride * (freq + 1) ∣ r.seen dest := fun hdvd => hactive (hround.mpr hdvd)
      rw [FrameDiagnostics.check_dataFrame_idle hidle] at hstep
      cases hstep
      refine ⟨h.skip hnot rfl (fun d hd => Function.update_of_ne hd _ _) ?_ rfl ?_, rfl⟩
      · dsimp only
        rw [Function.update_self]
        exact hnext
      · intro d n i
        rw [reported_append]
        refine or_iff_left ?_
        rintro ⟨-, -, error, hmem⟩
        cases hmem

/-- **A run.** -/
theorem run_checked (hstride : 0 < stride) (order : List Dest) :
    ∀ {r r' : CheckRun}, Checked streams stride freq r →
      CheckRun.run streams stride (stride * (freq + 1)) order r = some r' →
      Checked streams stride freq r' ∧ ∀ d, r'.seen d = r.seen d + order.count d := by
  induction order with
  | nil =>
      intro r r' h hrun
      cases hrun
      exact ⟨h, fun d => rfl⟩
  | cons dest order ih =>
      intro r r' h hrun
      unfold CheckRun.run at hrun
      split at hrun
      · cases hrun
      · next between hstep =>
        obtain ⟨hbetween, hseen⟩ := receive_checked hstride h hstep
        obtain ⟨hchecked, hcount⟩ := ih hbetween hrun
        refine ⟨hchecked, fun d => ?_⟩
        rw [hcount, hseen]
        by_cases hd : d = dest
        · rw [hd, Function.update_self, List.count_cons_self]
          omega
        · rw [Function.update_of_ne hd, List.count_cons_of_ne (Ne.symm hd)]

/-- A packet is received where its check ends. -/
theorem receive_isSome (hstride : 0 < stride) (h : Checked streams stride freq r)
    (hends : stride * (freq + 1) ∣ r.seen dest →
      Ends (streams dest) (stride * (freq + 1)) (r.seen dest)) :
    ∃ r', r.receive streams stride (stride * (freq + 1)) dest = some r' := by
  have hpos : 0 < stride * (freq + 1) := Nat.mul_pos hstride (Nat.succ_pos freq)
  unfold CheckRun.receive
  dsimp only
  split
  · exact ⟨_, rfl⟩
  · next hpassed =>
    have hround := h.declare_iff hstride (not_not.mp hpassed)
    by_cases hactive : (r.diag.check dest).declare.1 = true
    · obtain ⟨hint, hlarge⟩ := hends (hround.mp hactive)
      unfold Wrong at hlarge
      rw [← h.history dest] at hlarge
      obtain ⟨reports, diag, hcall⟩ :=
        FrameDiagnostics.check_dataFrame_isSome hpos hactive hint hlarge
      rw [hcall]
      exact ⟨_, rfl⟩
    · rw [FrameDiagnostics.check_dataFrame_idle (Bool.eq_false_iff.mpr hactive)]
      exact ⟨_, rfl⟩

/-- **When a run ends**: the checks of all packets looked at do. -/
theorem run_isSome_iff (hstride : 0 < stride) (order : List Dest) :
    ∀ {r : CheckRun}, Checked streams stride freq r →
      ((∃ r', CheckRun.run streams stride (stride * (freq + 1)) order r = some r') ↔
        ∀ d n, n < r.seen d + order.count d → stride * (freq + 1) ∣ n →
          Ends (streams d) (stride * (freq + 1)) n) := by
  intro r h
  constructor
  · rintro ⟨r', hrun⟩ d n hlt hdvd
    obtain ⟨hchecked, hseen⟩ := run_checked hstride order h hrun
    exact hchecked.ended d n (hseen d ▸ hlt) hdvd
  · intro hends
    induction order generalizing r with
    | nil => exact ⟨r, rfl⟩
    | cons dest order ih =>
        have hhere : r.seen dest < r.seen dest + (dest :: order).count dest := by
          rw [List.count_cons_self]
          omega
        obtain ⟨between, hstep⟩ := receive_isSome hstride h (hends dest _ hhere)
        obtain ⟨hbetween, hseen⟩ := receive_checked hstride h hstep
        unfold CheckRun.run
        rw [hstep]
        refine ih hbetween fun d n hlt => hends d n ?_
        rw [hseen] at hlt
        by_cases hd : d = dest
        · rw [hd, Function.update_self] at hlt
          rw [hd, List.count_cons_self]
          omega
        · rw [Function.update_of_ne hd] at hlt
          rwa [List.count_cons_of_ne (Ne.symm hd)]

end Run

/-! ## Against what it should report -/

section Reports

variable {stream : Nat → PacketData} {sample n i : Nat}

theorem streamSequence_eq (n : Nat) (hi : i < 1024) :
    streamSequence stream (1024 * n + i) = frameSequence (stream n) i := by
  have hpacket : (1024 * n + i) / 1024 = n := by omega
  have hframe : (1024 * n + i) % 1024 = i := by omega
  rw [streamSequence, hpacket, hframe]

theorem streamSequence_first (n : Nat) :
    streamSequence stream (1024 * n) = frameSequence (stream n) 0 :=
  streamSequence_eq n (Nat.zero_lt_succ 1023)

theorem wrong_iff_of_pos (hpos : 0 < i) (hi : i < 1024) :
    Wrong stream sample n i ↔ Deviates Sequence.next (streamSequence stream) 1024 sample n i := by
  unfold Wrong expectedSequence Deviates predicted
  rw [if_neg (Nat.ne_of_gt hpos), if_neg (Nat.ne_of_gt hpos), streamSequence_eq n hi,
    streamSequence_eq n (by omega)]

/-- The packet looked at before, `sample` packets for frames on. -/
theorem keptSequence_eq (hpos : 0 < sample) (hn : 0 < n) (hdvd : sample ∣ n) :
    keptSequence stream sample n
      = (lastBefore (streamSequence stream) 1024 sample n).advance sample := by
  have hprev : sample * ((n - 1) / sample) = n - sample := by
    obtain ⟨q, rfl⟩ := hdvd
    obtain ⟨q, rfl⟩ := Nat.exists_eq_add_of_le' (Nat.pos_of_mul_pos_left hn)
    have hdiv : (sample * (q + 1) - 1) / sample = q := by
      apply Nat.div_eq_of_lt_le
      · rw [Nat.mul_succ, Nat.mul_comm]
        omega
      · rw [Nat.succ_mul, Nat.mul_succ, Nat.mul_comm]
        omega
    rw [hdiv, Nat.mul_succ, Nat.add_sub_cancel]
  unfold keptSequence lastBefore
  rw [if_neg (Nat.ne_of_gt hn), hprev, Sequence.advance_next,
    Nat.sub_add_cancel hpos, streamSequence_eq _ (by decide)]

theorem wrong_first : Wrong stream sample n 0 ↔
    (keptSequence stream sample n).timestamp = 0#64
      ∧ streamSequence stream (1024 * n) ≠ keptSequence stream sample n := by
  unfold Wrong expectedSequence seedPredicted
  rw [if_pos rfl, streamSequence_first]
  split
  · next hkept => exact iff_of_false (fun hne => hne rfl) fun h => hkept h.1
  · next hkept => exact (and_iff_right (not_not.mp hkept)).symm

/-- What is kept is not what continuity asks for, unless every packet is looked at. -/
theorem advance_ne (hint : sample < 2 ^ 31) (hmore : 1 < sample) (s : Sequence) :
    s.advance sample ≠ s.advance (1024 * (sample - 1) + 1) := by
  intro h
  have htime : s.timestamp + BitVec.ofNat 64 (25 * sample)
      = s.timestamp + BitVec.ofNat 64 (25 * (1024 * (sample - 1) + 1)) :=
    congrArg Sequence.timestamp h
  have hticks := congrArg BitVec.toNat ((BitVec.add_right_inj _).mp htime)
  have hleft : 25 * sample < 2 ^ 64 := by omega
  have hright : 25 * (1024 * (sample - 1) + 1) < 2 ^ 64 := by omega
  rw [BitVec.toNat_ofNat, BitVec.toNat_ofNat, Nat.mod_eq_of_lt hleft,
    Nat.mod_eq_of_lt hright] at hticks
  clear h htime
  omega

/-- **The first frame** of a later packet. -/
theorem first_iff (hpos : 0 < sample) (hint : sample < 2 ^ 31) (hn : 0 < n) (hdvd : sample ∣ n) :
    (Wrong stream sample n 0 ↔ Deviates Sequence.next (streamSequence stream) 1024 sample n 0) ↔
      Continues sample (lastBefore (streamSequence stream) 1024 sample n)
        (streamSequence stream (1024 * n)) := by
  rw [wrong_first, keptSequence_eq hpos hn hdvd]
  unfold Deviates predicted Continues
  rw [if_pos rfl, Sequence.next_iterate, Nat.add_zero]
  generalize lastBefore (streamSequence stream) 1024 sample n = last
  generalize streamSequence stream (1024 * n) = first
  by_cases hkept : (last.advance sample).timestamp = 0#64
  · rw [if_neg (not_not_intro hkept), and_iff_right hkept]
    rcases Nat.eq_or_lt_of_le hpos with rfl | hmore
    · exact iff_of_true Iff.rfl (.inl rfl)
    · have hne := advance_ne hint hmore last
      have hone : sample ≠ 1 := Nat.ne_of_gt hmore
      constructor
      · intro hsame
        refine .inr ⟨fun heq => ?_, fun heq => ?_⟩
        · exact hsame.mpr (heq ▸ hne) heq
        · exact hsame.mp (heq ▸ hne.symm) heq
      · rintro (hsample | ⟨hkeep, hasks⟩)
        · exact absurd hsample hone
        · exact iff_of_true hkeep hasks
  · rw [if_pos hkept]
    constructor
    · intro hsame
      exact not_not.mp fun hne => hkept (hsame.mpr hne).1
    · intro heq
      exact iff_of_false (fun h => hkept h.1) (not_not_intro heq)

/-- Where the product of the interval is an `int`, the checks of all packets looked at end
just when the interval is small or none of the frames is the one expected. -/
theorem ends_iff {packets : Nat} (hpos : 0 < sample) (hint : sample ≤ 85899346) :
    (∀ n, n < packets → sample ∣ n → Ends stream sample n) ↔
      sample ≤ 8 * 32768 ∨ NoneExpected stream sample packets := by
  constructor
  · intro hends
    rcases Nat.lt_or_ge (8 * 32768) sample with hlarge | hsmall
    · have hwrong : ∀ n i, n < packets → sample ∣ n → i < 1024 → Wrong stream sample n i :=
        fun n i hlt hdvd hi => (hends n hlt hdvd).remainder (Nat.div_eq_of_lt hlarge) i hi
      refine .inr ⟨fun hsome => ?_, fun n hn hlt hdvd => ?_, fun n i hlt hdvd hi hi' => ?_⟩
      · exact (wrong_first.mp (hwrong 0 0 hsome (Nat.dvd_zero _) (Nat.zero_lt_succ _))).2
      · have hfirst := wrong_first.mp (hwrong n 0 hlt hdvd (Nat.zero_lt_succ _))
        rwa [keptSequence_eq hpos hn hdvd] at hfirst
      · exact (wrong_iff_of_pos hi hi').mp (hwrong n i hlt hdvd hi')
    · exact .inl hsmall
  · rintro (hsmall | hnone) n hlt hdvd
    · exact ⟨hint, fun hzero => absurd hzero (Nat.ne_of_gt (Nat.div_pos hsmall hpos))⟩
    · refine ⟨hint, fun _ i hi => ?_⟩
      rcases Nat.eq_zero_or_pos i with rfl | hpos'
      · rw [wrong_first]
        rcases Nat.eq_zero_or_pos n with rfl | hn
        · exact ⟨rfl, hnone.first hlt⟩
        · rw [keptSequence_eq hpos hn hdvd]
          exact hnone.kept n hn hlt hdvd
      · exact (wrong_iff_of_pos hpos' hi).mpr (hnone.later n i hlt hdvd hpos' hi)

end Reports

section Main

variable {streams : Dest → Nat → PacketData} {stride freq : Nat} {r : CheckRun}

/-- **When the reports are exact.** -/
theorem errorsExact_iff (hstride : 0 < stride) (hint : stride * (freq + 1) < 2 ^ 31)
    (h : Checked streams stride freq r) (d : Dest) :
    ErrorsExact (streams d) (stride * (freq + 1)) r d ↔
      StartsAndContinues (streams d) (stride * (freq + 1)) (r.seen d) := by
  have hpos : 0 < stride * (freq + 1) := Nat.mul_pos hstride (Nat.succ_pos freq)
  have hreported : ∀ n i, n < r.seen d → stride * (freq + 1) ∣ n → i < 1024 →
      (r.Reported d n i ↔ Wrong (streams d) (stride * (freq + 1)) n i) := by
    intro n i hlt hdvd hi
    rw [h.reported, and_iff_right hlt, and_iff_right hdvd, and_iff_right hi]
  constructor
  · intro hexact
    refine ⟨fun hsome hcontiguous => ?_, fun n hn hlt hdvd => ?_⟩
    · have hquiet := hexact.quiet hcontiguous 0 0
      rw [hreported 0 0 hsome (Nat.dvd_zero _) (Nat.zero_lt_succ _), wrong_first] at hquiet
      exact not_not.mp fun hne => hquiet ⟨rfl, hne⟩
    · have hsame := hexact.exact n 0 hlt hdvd (Nat.zero_lt_succ _) (.inl hn)
      rw [hreported n 0 hlt hdvd (Nat.zero_lt_succ _)] at hsame
      exact (first_iff hpos hint hn hdvd).mp hsame
  · intro hseeded
    have hexact : ∀ n i, n < r.seen d → stride * (freq + 1) ∣ n → i < 1024 → 0 < n ∨ 0 < i →
        (r.Reported d n i ↔ Deviates Sequence.next (streamSequence (streams d)) 1024
          (stride * (freq + 1)) n i) := by
      intro n i hlt hdvd hi hlater
      rw [hreported n i hlt hdvd hi]
      by_cases hzero : i = 0
      · subst hzero
        have hn : 0 < n := hlater.resolve_right (Nat.lt_irrefl 0)
        exact (first_iff hpos hint hn hdvd).mpr (hseeded.later n hn hlt hdvd)
      · exact wrong_iff_of_pos (Nat.pos_of_ne_zero hzero) hi
    refine ⟨fun hcontiguous n i hreport => ?_, hexact⟩
    obtain ⟨hlt, hdvd, hi, hwrong⟩ := (h.reported d n i).mp hreport
    by_cases hlater : 0 < n ∨ 0 < i
    · refine not_deviates hcontiguous hlt hi hpos (fun hzero => ?_)
        ((hexact n i hlt hdvd hi hlater).mp hreport)
      exact Nat.le_of_dvd (hlater.resolve_right (by omega)) hdvd
    · obtain ⟨rfl, rfl⟩ : n = 0 ∧ i = 0 := by omega
      exact (wrong_first.mp hwrong).2 (hseeded.first hlt hcontiguous)

end Main

/-- With a small interval every run comes to its end. -/
theorem run_isSome_of_le {streams : Dest → Nat → PacketData} {stride freq : Nat}
    (hstride : 0 < stride) (hsmall : stride * (freq + 1) ≤ 8 * 32768) (order : List Dest) :
    ∃ r, CheckRun.run streams stride (stride * (freq + 1)) order (CheckRun.start freq)
      = some r := by
  have hpos : 0 < stride * (freq + 1) := Nat.mul_pos hstride (Nat.succ_pos freq)
  have hfactor : freq + 1 ≤ stride * (freq + 1) := Nat.le_mul_of_pos_left _ hstride
  refine (run_isSome_iff hstride order (start_checked (by omega) hstride)).mpr fun d => ?_
  exact (ends_iff hpos (by omega)).mpr (.inl hsmall)

/-- **The continuity check** of every `sample`-th packet. A run comes to its end just when
`sample` is not above `8 * 32768`, nothing is received, or the product of `sample` is an `int`
and none of the frames looked at is the one expected: any other frame is behind a remainder by
zero. When it does, the errors reported are those that continuity asks for just when a
contiguous stream starts with zero counts and the packets looked at later continue those
looked at before. -/
theorem frames_checked (streams : Dest → Nat → PacketData) (order : List Dest) (stride freq : Nat)
    (hstride : 0 < stride) (hint : stride * (freq + 1) < 2 ^ 31) :
    ((∃ r, CheckRun.run streams stride (stride * (freq + 1)) order (CheckRun.start freq)
        = some r) ↔
      stride * (freq + 1) ≤ 8 * 32768 ∨ order = [] ∨ stride * (freq + 1) ≤ 85899346 ∧
        ∀ d, NoneExpected (streams d) (stride * (freq + 1)) (order.count d)) ∧
      ∀ r, CheckRun.run streams stride (stride * (freq + 1)) order (CheckRun.start freq) = some r →
        ∀ d, ErrorsExact (streams d) (stride * (freq + 1)) r d ↔
          StartsAndContinues (streams d) (stride * (freq + 1)) (order.count d) := by
  have hpos : 0 < stride * (freq + 1) := Nat.mul_pos hstride (Nat.succ_pos freq)
  have hfactor : freq + 1 ≤ stride * (freq + 1) := Nat.le_mul_of_pos_left _ hstride
  have hstart : Checked streams stride freq (CheckRun.start freq) :=
    start_checked (by omega) hstride
  have hseen : ∀ d, (CheckRun.start freq).seen d + order.count d = order.count d :=
    fun d => Nat.zero_add _
  constructor
  · rw [run_isSome_iff hstride order hstart]
    simp only [hseen]
    constructor
    · intro hends
      cases order with
      | nil => exact .inr (.inl rfl)
      | cons dest order =>
          have hsome : 0 < (dest :: order).count dest := List.count_pos_iff.mpr List.mem_cons_self
          have hproduct := (hends dest 0 hsome (Nat.dvd_zero _)).product
          rcases Nat.lt_or_ge (8 * 32768) (stride * (freq + 1)) with hlarge | hsmall
          · refine .inr (.inr ⟨hproduct, fun d => ?_⟩)
            exact ((ends_iff hpos hproduct).mp (hends d)).resolve_left (Nat.not_le.mpr hlarge)
          · exact .inl hsmall
    · rintro (hsmall | rfl | ⟨hproduct, hnone⟩) d
      · exact (ends_iff hpos (by omega)).mpr (.inl hsmall)
      · exact fun n hlt => absurd hlt (Nat.not_lt_zero n)
      · exact (ends_iff hpos hproduct).mpr (.inr (hnone d))
  · intro r hrun d
    obtain ⟨hchecked, hcount⟩ := run_checked hstride order hstart hrun
    rw [← hseen d, ← hcount d]
    exact errorsExact_iff hstride hint hchecked d

/-- Packets without a gap, the time stamp of the first frame being `base`. -/
def steady (base n : Nat) : PacketData := fun k =>
  let g := 1024 * n + k / 30
  if k % 30 = 0 then 0xbc#64
  else if k % 30 = 1 then BitVec.ofNat 64 (base + 25 * g)
  else BitVec.ofNat 64 (g % 2 ^ 16 * 2 ^ 48)

theorem frameSequence_steady (base n i : Nat) : frameSequence (steady base n) i =
    Sequence.advance ⟨BitVec.ofNat 64 base, 0#16, 0#16⟩ (1024 * n + i) := by
  have hcount : ∀ g : Nat, (BitVec.ofNat 64 (g % 2 ^ 16 * 2 ^ 48) >>> 48).setWidth 16
      = 0#16 + BitVec.ofNat 16 g := by
    intro g
    apply BitVec.eq_of_toNat_eq
    rw [BitVec.zero_add, BitVec.toNat_setWidth, BitVec.toNat_ushiftRight, BitVec.toNat_ofNat,
      BitVec.toNat_ofNat, Nat.shiftRight_eq_div_pow]
    omega
  have hword : ∀ k, (30 * i + k) % 30 = k % 30 := fun k => Nat.mul_add_mod 30 i k
  have hframe : ∀ k, k < 30 → (30 * i + k) / 30 = i := by
    intro k hk
    omega
  unfold frameSequence steady Sequence.advance N64_PER_FRAME TimingClockTicks.PER_SAMPLE
  dsimp only
  rw [hword, hword, hword, hframe 1 (by decide), hframe 2 (by decide), hframe 16 (by decide),
    if_neg (show ¬1 % 30 = 0 by decide), if_pos rfl, if_neg (show ¬2 % 30 = 0 by decide),
    if_neg (show ¬2 % 30 = 1 by decide), if_neg (show ¬16 % 30 = 0 by decide),
    if_neg (show ¬16 % 30 = 1 by decide), hcount, BitVec.ofNat_add]

theorem streamSequence_steady (base g : Nat) : streamSequence (steady base) g =
    Sequence.advance ⟨BitVec.ofNat 64 base, 0#16, 0#16⟩ g := by
  rw [streamSequence, frameSequence_steady, Nat.div_add_mod]

theorem steady_contiguous (base n : Nat) :
    Contiguous Sequence.next (streamSequence (steady base)) n := by
  intro g _
  rw [streamSequence_steady, streamSequence_steady, ← Sequence.next_iterate,
    ← Sequence.next_iterate, Function.iterate_succ_apply']

/-- Frames that all have the same counts. -/
def stuck : PacketData := fun _ => 1#64

theorem streamSequence_stuck (g : Nat) :
    streamSequence (fun _ => stuck) g = ⟨1#64, 0#16, 0#16⟩ := by
  have hcount : (1#64 >>> 48).setWidth 16 = 0#16 := by decide
  unfold streamSequence frameSequence stuck
  dsimp only
  rw [hcount]

/-- Of a stuck stream no frame is expected before a second packet is looked at. -/
theorem stuck_noneExpected {sample packets : Nat} (hpackets : packets ≤ 1) :
    NoneExpected (fun _ => stuck) sample packets := by
  refine ⟨fun _ => ?_, fun n hn hlt => by omega, fun n i _ _ hpos _ => ?_⟩
  · rw [streamSequence_stuck]
    decide
  · unfold Deviates predicted
    rw [if_neg (Nat.ne_of_gt hpos), streamSequence_stuck, streamSequence_stuck]
    decide

theorem frames_checked_steady :
    (∃ r, CheckRun.run (fun _ => steady 0) 1 1 [0, 1, 0, 1] (CheckRun.start 0) = some r ∧
      ∀ d, ErrorsExact (steady 0) 1 r d) ∧
    (∃ r, CheckRun.run (fun _ _ => stuck) 262145 262145 [0] (CheckRun.start 0) = some r ∧
      ∀ d, ErrorsExact (fun _ => stuck) 262145 r d) ∧
    ¬∃ r, CheckRun.run (fun _ => steady 0) 262145 262145 [0] (CheckRun.start 0) = some r := by
  refine ⟨?_, ?_, ?_⟩
  · obtain ⟨hends, hexact⟩ :=
      frames_checked (fun _ => steady 0) [0, 1, 0, 1] 1 0 (by decide) (by decide)
    obtain ⟨r, hrun⟩ := hends.mpr (.inl (by decide))
    refine ⟨r, hrun, fun d => (hexact r hrun d).mpr ⟨fun _ _ => streamSequence_steady 0 0, ?_⟩⟩
    intro n hn hlt _
    -- packet 1 continues packet 0
    have htwo : ∀ d : Dest, [(0 : Dest), 1, 0, 1].count d = 2 := by decide
    rw [htwo] at hlt
    obtain rfl : n = 1 := by omega
    unfold Continues lastBefore
    rw [streamSequence_steady, streamSequence_steady]
    decide
  · obtain ⟨hends, hexact⟩ :=
      frames_checked (fun _ _ => stuck) [0] 262145 0 (by decide) (by decide)
    have hone : ∀ d : Dest, [(0 : Dest)].count d ≤ 1 := by decide
    obtain ⟨r, hrun⟩ :=
      hends.mpr (.inr (.inr ⟨by decide, fun d => stuck_noneExpected (hone d)⟩))
    refine ⟨r, hrun, fun d => (hexact r hrun d).mpr ⟨fun hsome hcontiguous => ?_, ?_⟩⟩
    · have hnext := hcontiguous 0 (by omega)
      rw [streamSequence_stuck, streamSequence_stuck] at hnext
      exact absurd hnext (by decide)
    · intro n hn hlt
      have hfirst : n < 1 := Nat.lt_of_lt_of_le hlt (hone d)
      exfalso
      exact Nat.not_lt.mpr hn hfirst
  · intro hrun
    have hends := (frames_checked (fun _ => steady 0) [0] 262145 0 (by decide) (by decide)).1
    rcases hends.mp hrun with hsmall | hnil | ⟨-, hnone⟩
    · exact absurd hsmall (by decide)
    · cases hnil
    · -- the second frame is the one expected
      have hsecond := (hnone 0).later 0 1 (by decide) (Nat.dvd_zero _) (by decide) (by decide)
      exact not_deviates (steady_contiguous 0 _) (show 0 < 1 by decide) (by decide) (by decide)
        (fun h => absurd h Nat.one_ne_zero) hsecond

/-- A contiguous stream is reported at its first frame; a packet that is lost is not
reported. -/
theorem steady_reported_lost_not :
    (∃ r, CheckRun.run (fun _ => steady 25) 1 1 [0] (CheckRun.start 0) = some r ∧
      Contiguous Sequence.next (streamSequence (steady 25)) (1024 * r.seen 0) ∧
        r.Reported 0 0 0) ∧
      ∃ r, CheckRun.run (fun _ n => steady 0 (2 * n)) 1 1 [0, 0] (CheckRun.start 0) = some r ∧
        r.seen 0 = 2 ∧
        Deviates Sequence.next (streamSequence fun n => steady 0 (2 * n)) 1024 1 1 0 ∧
        ¬r.Reported 0 1 0 := by
  constructor
  · have hend : ∃ r, CheckRun.run (fun _ => steady 25) 1 (1 * (0 + 1)) [0] (CheckRun.start 0)
        = some r := run_isSome_of_le (by decide) (by decide) _
    obtain ⟨r, hrun⟩ := hend
    obtain ⟨hchecked, hseen⟩ :=
      run_checked (by decide) [0] (start_checked (by decide) (by decide)) hrun
    refine ⟨r, hrun, steady_contiguous 25 _, ?_⟩
    rw [hchecked.reported, hseen]
    refine ⟨by decide, by decide, by decide, wrong_first.mpr ⟨rfl, fun heq => ?_⟩⟩
    rw [streamSequence_steady] at heq
    exact absurd heq (by decide)
  · have hend : ∃ r, CheckRun.run (fun _ n => steady 0 (2 * n)) 1 (1 * (0 + 1)) [0, 0]
        (CheckRun.start 0) = some r := run_isSome_of_le (by decide) (by decide) _
    obtain ⟨r, hrun⟩ := hend
    obtain ⟨hchecked, hseen⟩ :=
      run_checked (by decide) [0, 0] (start_checked (by decide) (by decide)) hrun
    refine ⟨r, hrun, hseen 0, ?_, ?_⟩
    · unfold Deviates predicted lastBefore
      rw [if_pos rfl, streamSequence_eq 1 (by decide), streamSequence_eq _ (by decide),
        frameSequence_steady, frameSequence_steady]
      decide
    · rw [hchecked.reported]
      rintro ⟨-, -, -, hwrong⟩
      have hkept := (wrong_first.mp hwrong).1
      rw [keptSequence_eq (by decide) (by decide) (by decide)] at hkept
      unfold lastBefore at hkept
      rw [streamSequence_eq _ (by decide), frameSequence_steady] at hkept
      exact absurd hkept (by decide)

end ProtoDune.Daq
