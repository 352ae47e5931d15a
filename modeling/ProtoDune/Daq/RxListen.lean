import ProtoDune.Daq.RxTrigger

/-!
# When the receive loop listens to the trigger stream

`select` clears the timing descriptor of the set when nothing is ready on it.
Each way through an iteration has to set it again while no event is being
built; the way of a loopback packet does not.

Main result: `listening_iff` — the timing descriptor is in the set at every loop
head without an event, and out of it at every loop head with an event of a
hardware trigger, exactly when no loopback packet arrives alone and without an
event.
-/

namespace ProtoDune.Daq

open Outcome

theorem TrigInv.receive {s : RxState} (h : TrigInv s) (index : Nat) :
    TrigInv { s with received := s.received ++ [index] } :=
  ⟨h.active, h.balanced, h.masked, h.discarded⟩

namespace RxState

variable {bCount index alloc : Nat} {cfg : Config} {dest : Dest} {s s' s'' : RxState}

/-- Without an event, the timing channel is listened to. -/
def Ready (s : RxState) : Prop := s.event = none → s.timingSet = true

/-- `s'` follows `s` within an iteration, and listens if `s` does. -/
structure Keeps (s s' : RxState) : Prop where
  runMode : s'.runMode = s.runMode
  ready : s.Ready → s'.Ready

theorem Keeps.trans (h : Keeps s s') (h' : Keeps s' s'') : Keeps s s'' :=
  ⟨h'.runMode.trans h.runMode, fun hs => h'.ready (h.ready hs)⟩

theorem Keeps.of_same (h : SameTrigger s s') : Keeps s s' := by
  refine ⟨h.runMode, ?_⟩
  intro hs hnone
  rw [h.timingSet]
  exact hs (h.event.symm.trans hnone)

/-- An event is being built, whatever is listened to. -/
theorem Keeps.of_some (hmode : s'.runMode = s.runMode) (hsome : s'.event ≠ none) : Keeps s s' := by
  refine ⟨hmode, ?_⟩
  intro _ hnone
  exact absurd hnone hsome

theorem postEventAndReset_keeps {ev : Event} :
    Ensures (fun s' => s'.runMode = s.runMode) (fun _ => True) (s.postEventAndReset ev) := by
  unfold postEventAndReset
  dsimp only
  split
  · exact .ok rfl
  · exact .error trivial

theorem settle_keeps {action : Nat} :
    Ensures (Keeps s) (fun _ => True) (s.settle index dest action) := by
  refine .weaken settle_ensures ?_ ?_
  · intro s' hsame
    exact .of_same hsame
  · intro _ _
    trivial

theorem dispatch_keeps : Ensures (Keeps s) (fun _ => True) (s.dispatch bCount index dest) := by
  unfold dispatch
  split
  · split
    · exact .error trivial
    · refine .bind (.trivial _) ?_
      rintro ⟨mem, ev, action⟩ -
      dsimp only
      split
      · -- posted: the timing channel is listened to again
        refine .bind postEventAndReset_keeps ?_
        intro s1 hmode
        refine .mono settle_keeps ?_
        intro s' hs'
        refine ⟨hs'.runMode.trans hmode, ?_⟩
        intro _
        exact hs'.ready fun _ => rfl
      · refine .mono settle_keeps ?_
        intro s' hs'
        refine Keeps.trans ?_ hs'
        exact .of_some rfl (by simp)
  · refine .bind (.trivial _) ?_
    intro mem _
    exact .ok ⟨rfl, id⟩

theorem softTrigger_keeps {time : WindowSelect.Span Nat} :
    Ensures (fun r => Keeps s r.1) (fun _ => True) (s.softTrigger bCount cfg alloc time) := by
  unfold softTrigger
  split
  · refine .bind (.trivial _) ?_
    intro t _
    split
    · refine .bind (.trivial _) ?_
      rintro ⟨mem, ev, post⟩ -
      dsimp only
      split
      · refine .bind postEventAndReset_keeps ?_
        intro s1 hmode
        exact .ok ⟨hmode, fun _ _ => rfl⟩
      · exact .ok (.of_some rfl (by simp))
    · exact .ok ⟨rfl, id⟩
  · exact .ok ⟨rfl, id⟩

theorem goodData_keeps {d : DataMsg} :
    Ensures (Keeps s) (fun _ => True) (s.goodData bCount cfg alloc d dest) := by
  have hfill : Keeps s (s.fillBody d) := ⟨rfl, id⟩
  refine .bind softTrigger_keeps ?_
  rintro ⟨s1, done⟩ hs1
  dsimp only at hs1 ⊢
  split
  · exact .ok (hfill.trans hs1)
  · refine .mono dispatch_keeps ?_
    intro s' hs'
    exact (hfill.trans hs1).trans hs'

/-- After `relisten` the loop listens, if it is not building an event. -/
theorem relisten_ready (h : TrigInv s) : s.relisten.Ready := by
  intro hnone
  unfold relisten at hnone ⊢
  split
  · rfl
  · rename_i hact
    rw [if_neg hact] at hnone
    have hoff : s.trgActive = false := by rw [h.active, hnone]; rfl
    exact absurd (by rw [hoff]; rfl) hact

/-- A packet that is not a loopback packet leaves the loop listening. -/
theorem serviceData_ready {d : DataMsg} (h : TrigInv s) (hd : d.dest ≠ 2) :
    Ensures (fun s' => s'.runMode = s.runMode ∧ s'.Ready) (fun _ => True)
      (s.serviceData bCount cfg alloc d) := by
  have hready := relisten_ready h
  have hmode : s.relisten.runMode = s.runMode := by
    unfold relisten
    split <;> rfl
  unfold serviceData
  rw [if_neg hd]
  dsimp only
  split
  · split
    · exact .ok ⟨hmode, hready⟩
    · split
      · exact .ok ⟨hmode, hready⟩
      · refine .mono goodData_keeps ?_
        intro s' hs'
        exact ⟨hs'.runMode.trans hmode, hs'.ready hready⟩
  · exact .ok ⟨hmode, hready⟩

/-- A loopback packet changes neither the event nor the set. -/
theorem serviceData_loopback {d : DataMsg} (hd : d.dest = 2) :
    s.serviceData bCount cfg alloc d = .ok (s.freeBuffer d.index) := by
  unfold serviceData
  exact if_pos hd

/-- Only in a run on external triggers does a timing message start an event. -/
theorem readTimingMsg_some {tmsg tmsg' : TimingMsg}
    (h : s.readTimingMsg tmsg = (s', some tmsg')) : s.runMode = .EXTERNAL := by
  unfold readTimingMsg at h
  split at h
  · rename_i hserve
    exact hserve.2.1
  · cases h

theorem readTimingMsg_keeps {tmsg : TimingMsg} {msg : Option TimingMsg}
    (h : s.readTimingMsg tmsg = (s', msg)) :
    s'.event = s.event ∧ s'.timingSet = s.timingSet ∧ s'.runMode = s.runMode := by
  unfold readTimingMsg at h
  dsimp only at h
  split at h
  · split at h
    · split at h
      · obtain ⟨rfl, -⟩ := Prod.mk.inj h
        exact ⟨rfl, rfl, rfl⟩
      · obtain ⟨rfl, -⟩ := Prod.mk.inj h
        exact ⟨rfl, rfl, rfl⟩
    · obtain ⟨rfl, -⟩ := Prod.mk.inj h
      exact ⟨rfl, rfl, rfl⟩
  · obtain ⟨rfl, -⟩ := Prod.mk.inj h
    exact ⟨rfl, rfl, rfl⟩

/-- What the timing half does to the event and to the set. -/
structure Timed (s s' : RxState) : Prop extends Keeps s s' where
  external : s.event = none → s'.event ≠ none → s.runMode = .EXTERNAL

theorem serviceTiming_timed {tmsg : TimingMsg} :
    Ensures (Timed s) (fun _ => True) (s.serviceTiming bCount cfg alloc tmsg) := by
  unfold serviceTiming
  split
  · rename_i s1 hread
    obtain ⟨hevent, hset, hmode⟩ := readTimingMsg_keeps hread
    refine .ok ⟨⟨hmode, ?_⟩, ?_⟩
    · intro hs hnone
      rw [hset]
      exact hs (hevent.symm.trans hnone)
    · intro hnone hsome
      exact absurd (hevent.trans hnone) hsome
  · rename_i s1 tmsg' hread
    have hext := readTimingMsg_some hread
    obtain ⟨-, -, hmode⟩ := readTimingMsg_keeps hread
    refine .bind (.trivial _) ?_
    rintro ⟨mem, ev, post⟩ -
    dsimp only
    split
    · refine .bind postEventAndReset_keeps ?_
      intro s2 hmode'
      exact .ok ⟨⟨hmode'.trans hmode, fun _ _ => rfl⟩, fun _ _ => hext⟩
    · exact .ok ⟨.of_some hmode (by simp), fun _ _ => hext⟩

theorem timingHalf_timed (inp : RxInput) :
    Ensures (Timed s) (fun _ => True) (s.timingHalf bCount inp) := by
  unfold timingHalf
  split
  · exact serviceTiming_timed
  · exact .ok ⟨⟨rfl, id⟩, fun hnone hsome => absurd hnone hsome⟩

/-- `select` leaves the timing descriptor in the set if a message is there. -/
theorem select_ready (h : s.Ready) (inp : RxInput) (hinp : s.event ≠ none ∨ inp.timing ≠ none) :
    (s.select inp).Ready := by
  intro hnone
  have hs : s.event = none := (select_event inp).1.symm.trans hnone
  obtain hsome | htiming := hinp
  · exact absurd hs hsome
  · have hset : (s.select inp).timingSet = (s.timingSet && inp.timing.isSome) := by
      unfold select
      dsimp only
      split <;> rfl
    rw [hset, h hs, Bool.true_and]
    exact Option.isSome_iff_ne_none.mpr htiming

/-- A loopback packet arrives alone while no event is being built. -/
def Deaf (s : RxState) (inp : RxInput) : Prop :=
  s.event = none ∧ inp.timing = none ∧ ∃ d, inp.data = some d ∧ d.dest = 2

theorem timingHalf_spec (hinv : TrigInv s) (inp : RxInput) :
    Ensures (fun t => TrigInv t ∧ (s.select inp).Timed t) (fun _ => True)
      ((s.select inp).timingHalf bCount inp) := by
  refine ((timingHalf_ensures hinv inp).and (timingHalf_timed inp)).weaken ?_ ?_
  · rintro t ⟨⟨htrig, -⟩, htimed⟩
    exact ⟨htrig, htimed⟩
  · intro _ _
    trivial

/-- An iteration does nothing, or both its halves. -/
theorem rxIter_ok {inp : RxInput} (h : s.rxIter bCount inp = .ok s') :
    s' = s ∧ inp.data = none ∨
      ((s.timingSet && inp.timing.isSome) || inp.data.isSome) = true ∧
        ∃ t, (s.select inp).timingHalf bCount inp = .ok t ∧ t.dataHalf bCount inp = .ok s' := by
  unfold rxIter at h
  split at h
  · rename_i hready
    right
    refine ⟨hready, ?_⟩
    cases hhalf : (s.select inp).timingHalf bCount inp with
    | ok t =>
      rw [hhalf] at h
      exact ⟨t, rfl, h⟩
    | error e =>
      rw [hhalf] at h
      cases h
  · rename_i hready
    left
    refine ⟨(Except.ok.inj h).symm, ?_⟩
    cases hdata : inp.data with
    | none => rfl
    | some d => exact absurd (by rw [hdata, Option.isSome_some, Bool.or_true]) hready

theorem dataHalf_runMode {inp : RxInput} (h : TrigInv s) (hs' : s.dataHalf bCount inp = .ok s') :
    s'.runMode = s.runMode := by
  unfold dataHalf at hs'
  split at hs'
  · rename_i d _
    by_cases hd : d.dest = 2
    · rw [serviceData_loopback hd] at hs'
      obtain rfl := Except.ok.inj hs'
      rfl
    · exact ((serviceData_ready (h.receive d.index) hd).of_ok hs').1
  · obtain rfl := Except.ok.inj hs'
    rfl

/-- A step that is not deaf leaves the loop listening. -/
theorem rxIter_ready (hinv : TrigInv s) (h : s.Ready) {inp : RxInput} (hdeaf : ¬ s.Deaf inp)
    (hs' : s.rxIter bCount inp = .ok s') : s'.Ready := by
  obtain ⟨rfl, -⟩ | ⟨hready, t, ht, hs'⟩ := rxIter_ok hs'
  · exact h
  · obtain ⟨htrig, htimed⟩ := (timingHalf_spec hinv inp).of_ok ht
    have hkeep : s.event ≠ none ∨ inp.timing ≠ none → t.Ready := fun hinp =>
      htimed.ready (select_ready h inp hinp)
    unfold dataHalf at hs'
    split at hs'
    · rename_i d hdata
      by_cases hd : d.dest = 2
      · -- the set is as the timing half left it
        rw [serviceData_loopback hd] at hs'
        obtain rfl := Except.ok.inj hs'
        apply hkeep
        by_contra hnot
        obtain ⟨hnone, htiming⟩ := not_or.mp hnot
        exact hdeaf ⟨not_not.mp hnone, not_not.mp htiming, d, hdata, hd⟩
      · exact ((serviceData_ready (htrig.receive d.index) hd).of_ok hs').2
    · -- `select` returned for the timing message
      rename_i hdata
      obtain rfl := Except.ok.inj hs'
      apply hkeep
      right
      intro htiming
      rw [htiming, hdata] at hready
      simp at hready

/-- After a deaf step the loop does not listen. -/
theorem rxIter_deaf (bCount : Nat) {inp : RxInput} (h : s.Deaf inp) :
    ∃ s', s.rxIter bCount inp = .ok s' ∧ s'.event = none ∧ s'.timingSet = false := by
  obtain ⟨hnone, htiming, d, hdata, hd⟩ := h
  have hsel : (s.select inp).event = none ∧ (s.select inp).timingSet = false := by
    refine ⟨(select_event inp).1.trans hnone, ?_⟩
    unfold select
    rw [htiming]
    dsimp only
    split <;> exact Bool.and_false _
  refine ⟨{ s.select inp with
    received := (s.select inp).received ++ [d.index]
    mem := (s.select inp).mem.free d.index }, ?_, hsel⟩
  have hhalf : (s.select inp).timingHalf bCount inp = .ok (s.select inp) := by
    unfold timingHalf
    rw [hsel.2]
  unfold rxIter
  rw [hhalf, hdata, Option.isSome_some, Bool.or_true, if_pos rfl]
  show (s.select inp).dataHalf bCount inp = _
  unfold dataHalf
  rw [hdata]
  exact serviceData_loopback hd

end RxState

/-! ## Runs -/

open RxState

variable {bCount : Nat} {body : Nat → FrameBuffer} {cfg : Config}

/-- A loop head, and whether its event, if it has one, was started by a timing
message. -/
structure LoopState where
  state : RxState
  hardware : Bool

namespace LoopState

/-- Whether a timing message started the event of the next loop head: the event
goes on, or is there after the timing half. -/
def startedBy (bCount : Nat) (x : LoopState) (inp : RxInput) : Bool :=
  if x.state.event.isSome then x.hardware
  else match (x.state.select inp).timingHalf bCount inp with
    | .ok t => t.event.isSome
    | .error _ => false

/-- The loop heads of the run on `inps`. -/
def heads (bCount : Nat) (x : LoopState) : List RxInput → List LoopState
  | [] => [x]
  | inp :: inps =>
      x :: match x.state.rxIter bCount inp with
        | .ok s' => heads bCount ⟨s', x.startedBy bCount inp⟩ inps
        | .error _ => []

/-- The timing descriptor is in the set without an event, and out of it with an
event of a hardware trigger. -/
def Listening (x : LoopState) : Prop :=
  (x.state.event = none → x.state.timingSet = true) ∧
    (x.state.event ≠ none → x.hardware = true → x.state.timingSet = false)

/-- What holds at every loop head, listening or not. -/
structure Inv (x : LoopState) : Prop where
  trig : TrigInv x.state
  external : x.hardware = true → x.state.event ≠ none → x.state.runMode = .EXTERNAL

variable {x : LoopState} {inp : RxInput} {s' : RxState}

/-- An event of a hardware trigger masks the timing channel. -/
theorem Inv.listening_iff_ready (h : x.Inv) : x.Listening ↔ x.state.Ready := by
  constructor
  · intro hx
    exact hx.1
  · intro hready
    refine ⟨hready, ?_⟩
    intro hsome hhw
    exact h.trig.masked (Option.isSome_iff_ne_none.mpr hsome) (h.external hhw hsome)

theorem Inv.step (h : x.Inv) (hs' : x.state.rxIter bCount inp = .ok s') :
    Inv ⟨s', x.startedBy bCount inp⟩ := by
  refine ⟨(RxState.rxIter_ensures h.trig inp).of_ok hs', ?_⟩
  intro hhw hsome
  dsimp only at hhw hsome ⊢
  obtain ⟨rfl, -⟩ | ⟨-, t, ht, hs'⟩ := rxIter_ok hs'
  · unfold startedBy at hhw
    rw [if_pos (Option.isSome_iff_ne_none.mpr hsome)] at hhw
    exact h.external hhw hsome
  · obtain ⟨htrig, htimed⟩ := (timingHalf_spec h.trig inp).of_ok ht
    rw [dataHalf_runMode htrig hs', htimed.runMode]
    unfold startedBy at hhw
    split at hhw
    · -- the run mode does not change while an event is built
      rename_i hold
      have hkept : (x.state.select inp).runMode = x.state.runMode := by
        unfold select
        dsimp only
        rw [if_neg (by simpa using Option.isSome_iff_ne_none.mp hold)]
      rw [hkept]
      exact h.external hhw (Option.isSome_iff_ne_none.mp hold)
    · rename_i hnone
      rw [ht] at hhw
      apply htimed.external
      · rw [(select_event inp).1]
        simpa using hnone
      · exact Option.isSome_iff_ne_none.mp hhw

/-- **The run**: from a listening loop head the loop listens at every loop head
exactly when no step is deaf. -/
theorem Inv.heads_iff (inps : List RxInput) (h : x.Inv) (hx : x.Listening) :
    (∀ y ∈ heads bCount x inps, y.Listening) ↔
      ∀ p ∈ (heads bCount x inps).zip inps, ¬ p.1.state.Deaf p.2 := by
  induction inps generalizing x with
  | nil => simp [heads, hx]
  | cons inp inps ih =>
    rw [heads, List.zip_cons_cons, List.forall_mem_cons, List.forall_mem_cons]
    cases hstep : x.state.rxIter bCount inp with
    | error e =>
      have hdeaf : ¬ x.state.Deaf inp := by
        intro hdeaf
        obtain ⟨s', hok, -⟩ := rxIter_deaf bCount hdeaf
        rw [hstep] at hok
        cases hok
      simp [hx, hdeaf]
    | ok s' =>
      dsimp only
      have hnext : Inv ⟨s', x.startedBy bCount inp⟩ := h.step hstep
      by_cases hdeaf : x.state.Deaf inp
      · -- the next loop head is without an event, and does not listen
        obtain ⟨s'', hok, hnone, hset⟩ := rxIter_deaf bCount hdeaf
        obtain rfl := Except.ok.inj (hstep.symm.trans hok)
        have hfirst : (⟨s', x.startedBy bCount inp⟩ : LoopState) ∈
            heads bCount ⟨s', x.startedBy bCount inp⟩ inps := by
          cases inps <;> exact List.mem_cons_self
        constructor
        · rintro ⟨-, hall⟩
          have hset' := (hall _ hfirst).1 hnone
          rw [hset] at hset'
          cases hset'
        · rintro ⟨hno, -⟩
          exact absurd hdeaf hno
      · have hlisten : Listening ⟨s', x.startedBy bCount inp⟩ :=
          hnext.listening_iff_ready.mpr (rxIter_ready h.trig hx.1 hdeaf hstep)
        rw [ih hnext hlisten]
        simp [hx, hdeaf]

/-- The loop is entered without an event. -/
def start (body : Nat → FrameBuffer) (cfg : Config) : LoopState := ⟨.start body cfg, false⟩

theorem start_inv (body : Nat → FrameBuffer) (cfg : Config) : (start body cfg).Inv :=
  ⟨(LoopHead.start : LoopHead 0 body cfg _).trigInv, fun hhw => (nomatch hhw)⟩

end LoopState

/-- **When the trigger stream is listened to.** In every run, the timing
descriptor is in the set at all loop heads without an event, and out of it at all
loop heads with an event of a hardware trigger, exactly when no loopback packet
arrives alone while no event is being built. -/
theorem listening_iff (bCount : Nat) (body : Nat → FrameBuffer) (cfg : Config)
    (inps : List RxInput) :
    (∀ x ∈ LoopState.heads bCount (.start body cfg) inps, x.Listening) ↔
      ∀ p ∈ (LoopState.heads bCount (.start body cfg) inps).zip inps,
        ¬ p.1.state.Deaf p.2 := by
  apply (LoopState.start_inv body cfg).heads_iff inps
  exact ⟨fun _ => rfl, fun hsome => absurd rfl hsome⟩

/-- A loopback packet, and nothing on the timing channel. -/
def loneLoopback : RxInput where
  cfg := ⟨.EXTERNAL, false, 1000, 1000, 1⟩
  timing := none
  data := some ⟨3, 2, 0, 64, 0, ⟨0, 0⟩⟩
  alloc := 0

/-- After a loopback packet the loop waits for data alone, without an event. -/
theorem loneLoopback_deafens :
    ¬ ∀ x ∈ LoopState.heads 4 (.start (fun _ => ⟨⟨0, 0⟩, 0, 0⟩) loneLoopback.cfg) [loneLoopback],
      x.Listening := by
  intro hall
  have hlast := (hall _ (List.mem_cons_of_mem _ List.mem_cons_self)).1 rfl
  cases hlast

end ProtoDune.Daq
