import ProtoDune.Daq.EventBuild
import ProtoDune.Daq.RxRun
import ProtoDune.Lib.Outcome

/-!
# The trigger state machine of the receive loop

`trgActive`, `event` and the timing descriptor in the set given to `select`
together say whether an event is being built. Nothing is assumed here about the
lists in memory, the messages and packets, or the buffers and events handed out.

Main results:

* `Event.evaluate_balanced`, `Event.seedAndDrain_balanced` — the counts of
  complete and incomplete contributors of an event always add up.
* `trigger_safe` — at every loop head `trgActive` says whether there is an
  event, no trigger is discarded, no event is overwritten, and neither
  consistency check fails.
-/

namespace ProtoDune.Daq

open WindowSelect Outcome

/-! ## The counts of an event -/

/-- The number of bits set. -/
def popcount (x : BitVec 32) : Nat := (List.range 32).countP x.getLsbD

/-- The mask and the number of contributors agree. -/
def Event.Balanced (ev : Event) : Prop :=
  ∃ closed, ev.ctbs = pendingMask closed ∧ ev.nctbs = closedCount closed

theorem popcount_pendingMask (closed : Dest → Bool) :
    popcount (pendingMask closed) + closedCount closed = 2 := by
  unfold pendingMask closedCount
  cases closed 0 <;> cases closed 1 <;> decide

theorem Event.Balanced.popcount_add {ev : Event} (h : ev.Balanced) :
    popcount ev.ctbs + ev.nctbs = 2 := by
  obtain ⟨closed, hctbs, hnctbs⟩ := h
  rw [hctbs, hnctbs, popcount_pendingMask]

/-- Neither `exit (-1)` of the two consistency checks. -/
def Consistent (e : Stop) : Prop := e ≠ .evaluateExit ∧ e ≠ .postExit

namespace Event

variable {fuel : Nat} {m : Memory} {ev ev' : Event} {node : Addr} {dest : Dest}

theorem Balanced.congr (h : ev.Balanced) (hctbs : ev'.ctbs = ev.ctbs)
    (hnctbs : ev'.nctbs = ev.nctbs) : ev'.Balanced := by
  obtain ⟨closed, h1, h2⟩ := h
  exact ⟨closed, hctbs.trans h1, hnctbs.trans h2⟩

/-- Closing an open contributor. -/
theorem Balanced.complete (h : ev.Balanced) (hopen : ev.ctbs &&& ctbMask dest ≠ 0) :
    (ev.complete dest).Balanced := by
  obtain ⟨closed, hctbs, hnctbs⟩ := h
  have hd : closed dest = false := by
    rw [hctbs, ne_eq, pendingMask_and_ctbMask] at hopen
    simpa using hopen
  refine ⟨Function.update closed dest true, ?_, ?_⟩
  · show ev.ctbs &&& ~~~(ctbMask dest) = _
    rw [hctbs, pendingMask_and_not_ctbMask]
  · show ev.nctbs + 1 = _
    rw [hnctbs, closedCount_update hd]

theorem Balanced.nctbs_le (h : ev.Balanced) : ev.nctbs ≤ 2 := by
  obtain ⟨closed, -, hnctbs⟩ := h
  rw [hnctbs]
  exact closedCount_le closed

theorem scanForTriggerNode_ensures {list : Head} {trgTime : Nat} (scanNode : Addr)
    (scanNpkt : Nat) :
    Ensures (fun _ => True) Consistent
      (scanForTriggerNode m list trgTime fuel scanNode scanNpkt) := by
  induction fuel generalizing scanNode scanNpkt with
  | zero => exact .error ⟨fun h => Stop.noConfusion h, fun h => Stop.noConfusion h⟩
  | succ fuel ih =>
    rw [scanForTriggerNode]
    split
    · exact .ok trivial
    · split
      · exact .ok trivial
      · exact ih _ _

/-- What `findTrigger` leaves alone. -/
structure SameCounts (ev ev' : Event) : Prop where
  id : ev'.id = ev.id
  ctbs : ev'.ctbs = ev.ctbs
  nctbs : ev'.nctbs = ev.nctbs

theorem findTrigger_ensures {npkt : Nat} :
    Ensures (SameCounts ev) Consistent (ev.findTrigger fuel m node dest npkt) := by
  unfold findTrigger
  split
  · dsimp only
    split
    · refine .bind (scanForTriggerNode_ensures _ _) fun found _ => ?_
      cases found with
      | none => exact .ok ⟨rfl, rfl, rfl⟩
      | some found => exact .ok ⟨rfl, rfl, rfl⟩
    · split
      · exact .ok ⟨rfl, rfl, rfl⟩
      · exact .ok ⟨rfl, rfl, rfl⟩
  · exact .ok ⟨rfl, rfl, rfl⟩

/-- `ev'` is `ev` later on: the same object, balanced, and still open unless it
is to be posted. -/
structure Progress (ev ev' : Event) (post : Prop) : Prop where
  id : ev'.id = ev.id
  balanced : ev'.Balanced
  still_open : ¬ post → ev.ctbs ≠ 0 → ev'.ctbs ≠ 0

theorem Progress.refl {post : Prop} (h : ev.Balanced) : Progress ev ev post :=
  ⟨rfl, h, fun _ h => h⟩

/-- What an answer of `evaluate` says about the event afterwards. -/
structure Answer (ev ev' : Event) (action : Nat) : Prop where
  progress : Progress ev ev' (action &&& ACTION_M_POST ≠ 0)
  free : action &&& ACTION_M_FREE ≠ 0 → action &&& ACTION_M_POST = 0

/-- An answer without POST. -/
theorem Progress.answer (h : Progress ev ev' False) (action : Nat)
    (hpost : action &&& ACTION_M_POST = 0) : Answer ev ev' action :=
  ⟨⟨h.id, h.balanced, fun _ => h.still_open nofun⟩, fun _ => hpost⟩

/-- An answer with POST, which does not free the packet. -/
theorem Balanced.answer (h : ev'.Balanced) (hid : ev'.id = ev.id) (action : Nat)
    (hpost : action &&& ACTION_M_POST ≠ 0) (hfree : action &&& ACTION_M_FREE = 0) :
    Answer ev ev' action :=
  ⟨⟨hid, h, fun hn => absurd hpost hn⟩, fun hf => absurd hfree hf⟩

theorem evaluate_balanced (h : ev.Balanced) :
    Ensures (fun r => Answer ev r.2.1 r.2.2) Consistent (ev.evaluate fuel m node dest) := by
  unfold evaluate
  by_cases hclosed : ev.ctbs &&& ctbMask dest = 0
  · rw [if_pos hclosed]
    exact .ok ((Progress.refl h).answer ACTION_M_ADDTOLATENCY (by decide))
  · rw [if_neg hclosed]
    split
    · exact .ok ((Progress.refl h).answer ACTION_M_FREE (by decide))
    · split
      · dsimp only
        refine .bind findTrigger_ensures fun ev1 hsame => ?_
        have hbal : ev1.Balanced := h.congr hsame.ctbs hsame.nctbs
        split
        · have hbal' : (ev1.complete dest).Balanced := hbal.complete (by rwa [hsame.ctbs])
          have hle := hbal'.nctbs_le
          rw [if_neg (by omega)]
          split
          · have hid : (ev1.complete dest).id = ev.id := hsame.id
            exact .ok (hbal'.answer hid ACTION_M_POST (by decide) (by decide))
          · rename_i hctbs
            have hprog : Progress ev (ev1.complete dest) False :=
              ⟨hsame.id, hbal', fun _ _ => hctbs⟩
            exact .ok (hprog.answer ACTION_M_NONE (by decide))
        · have hprog : Progress ev ev1 False :=
            ⟨hsame.id, hbal, fun _ hne => by rw [hsame.ctbs]; exact hne⟩
          exact .ok (hprog.answer ACTION_M_NONE (by decide))
      · have hbal' := h.complete hclosed
        dsimp only
        split
        · have hid : (ev.complete dest).id = ev.id := rfl
          exact .ok (hbal'.answer hid (ACTION_M_ADDTOLATENCY ||| ACTION_M_POST) (by decide)
            (by decide))
        · rename_i hctbs
          have hprog : Progress ev (ev.complete dest) False := ⟨rfl, hbal', fun _ _ => hctbs⟩
          exact .ok (hprog.answer ACTION_M_ADDTOLATENCY (by decide))

theorem Progress.trans {ev₁ ev₂ ev₃ : Event} {post : Prop} (h : Progress ev₁ ev₂ False)
    (h' : Progress ev₂ ev₃ post) : Progress ev₁ ev₃ post :=
  ⟨h'.id.trans h.id, h'.balanced, fun hn hne => h'.still_open hn (h.still_open nofun hne)⟩

theorem seedContributor_balanced {n : Nat} (h : ev.Balanced) :
    Ensures (fun r => Progress ev r.2.1 (r.2.2 = true)) Consistent
      (seedContributor fuel dest n m ev) := by
  induction n generalizing m ev with
  | zero => exact .error ⟨fun h => Stop.noConfusion h, fun h => Stop.noConfusion h⟩
  | succ n ih =>
    rw [seedContributor]
    split
    · exact .ok (.refl h)
    · refine .bind (evaluate_balanced h) ?_
      rintro ⟨m1, ev1, action⟩ ⟨hprog, hfree⟩
      dsimp only at hprog hfree
      -- an answer without POST leaves the event open
      have hopen : action &&& ACTION_M_POST = 0 → Progress ev ev1 False := fun hzero =>
        ⟨hprog.id, hprog.balanced, fun _ => hprog.still_open fun hn => hn hzero⟩
      dsimp only
      split
      · rename_i hf
        refine .mono (ih hprog.balanced) fun r hr => (hopen (hfree hf)).trans hr
      · split
        · exact .ok ⟨hprog.id, hprog.balanced, fun hn => hprog.still_open (by simpa using hn)⟩
        · split
          · exact .ok ⟨hprog.id, hprog.balanced, fun hn => absurd rfl hn⟩
          · rename_i hpost
            have hzero : action &&& ACTION_M_POST = 0 := by simpa using hpost
            split
            · exact .ok ⟨hprog.id, hprog.balanced, fun _ => (hopen hzero).still_open not_false⟩
            · exact .mono (ih hprog.balanced) fun r hr => (hopen hzero).trans hr

theorem seedLoop_balanced {ictbs : List Dest} (h : ev.Balanced) :
    Ensures (fun r => Progress ev r.2.1 (r.2.2 ≠ 0)) Consistent
      (seedLoop fuel ictbs m ev) := by
  induction ictbs generalizing m ev with
  | nil => exact .ok (.refl h)
  | cons ictb ictbs ih =>
    rw [seedLoop]
    have hprep : (ev.prepare m ictb).2.Balanced := h.congr rfl rfl
    refine .bind (seedContributor_balanced hprep) ?_
    rintro ⟨m1, ev1, post⟩ hprog
    have hfrom : Progress ev ev1 (post = true) := ⟨hprog.id, hprog.balanced, hprog.still_open⟩
    cases post with
    | true =>
      have hpost : ACTION_M_POST ≠ 0 := by decide
      exact .ok ⟨hfrom.id, hfrom.balanced, fun hn => absurd hpost hn⟩
    | false =>
      refine .mono (ih hfrom.balanced) fun r hr => Progress.trans ?_ hr
      exact ⟨hfrom.id, hfrom.balanced, fun _ => hfrom.still_open Bool.false_ne_true⟩

theorem seedAndDrain_balanced :
    Ensures (fun r => r.2.1.id = ev.id ∧ r.2.1.Balanced ∧ (r.2.2 = 0 → r.2.1.ctbs ≠ 0))
      Consistent (ev.seedAndDrain fuel m 3) := by
  have hmask : (3 : BitVec 32) = pendingMask fun _ => false := by decide
  have hopen : (3 : BitVec 32) ≠ 0 := by decide
  have hstart : Balanced { ev with ctbs := 3, nctbs := 0 } := ⟨fun _ => false, hmask, rfl⟩
  refine .mono (seedLoop_balanced hstart) ?_
  rintro ⟨m1, ev1, post⟩ hprog
  exact ⟨hprog.id, hprog.balanced, fun hpost =>
    hprog.still_open (fun hn => hn hpost) hopen⟩

end Event

/-! ## The invariant -/

/-- What holds at the loop head, and between the timing and the data half. -/
structure TrigInv (s : RxState) : Prop where
  active : s.trgActive = s.event.isSome
  balanced : ∀ ev, s.event = some ev → ev.Balanced ∧ ev.ctbs ≠ 0
  /-- while an event of a hardware trigger is built, the timing channel is not listened to -/
  masked : s.event.isSome = true → s.runMode = .EXTERNAL → s.timingSet = false
  discarded : s.counters.disTrgCnt = 0

/-- The event in progress is still there, or it is the last one posted. -/
def EventKept (s s' : RxState) : Prop :=
  ∀ ev, s.event = some ev →
    (∃ ev', s'.event = some ev' ∧ ev'.id = ev.id ∧ s'.posted = s.posted) ∨
    (s'.event = none ∧ ∃ ev', ev'.id = ev.id ∧ s'.posted = s.posted ++ [ev'])

/-- The state machine does not move. -/
structure SameTrigger (s s' : RxState) : Prop where
  event : s'.event = s.event
  trgActive : s'.trgActive = s.trgActive
  timingSet : s'.timingSet = s.timingSet
  runMode : s'.runMode = s.runMode
  disTrgCnt : s'.counters.disTrgCnt = s.counters.disTrgCnt
  posted : s'.posted = s.posted

theorem EventKept.of_none {s s' : RxState} (h : s.event = none) : EventKept s s' := by
  intro ev hev
  rw [h] at hev
  cases hev

namespace SameTrigger

variable {s s' s'' : RxState}

theorem trigInv (h : SameTrigger s s') (hs : TrigInv s) : TrigInv s' := by
  refine ⟨?_, ?_, ?_, h.disTrgCnt.trans hs.discarded⟩
  · rw [h.trgActive, h.event, hs.active]
  · rw [h.event]
    exact hs.balanced
  · rw [h.event, h.runMode, h.timingSet]
    exact hs.masked

theorem eventKept (h : SameTrigger s s') : EventKept s s' := fun ev hev =>
  .inl ⟨ev, h.event.trans hev, rfl, h.posted⟩

/-- The event does what it does in the steps before or after. -/
theorem eventKept_left (h : SameTrigger s s') (hk : EventKept s' s'') : EventKept s s'' := by
  intro ev hev
  have hcase := hk ev (h.event.trans hev)
  rwa [h.posted] at hcase

end SameTrigger

namespace RxState

variable {bCount index alloc : Nat} {cfg : Config} {dest : Dest} {s : RxState} {ev : Event}

/-- The consistency check of `postEventAndReset` passes. -/
theorem postEventAndReset_eq (h : ev.Balanced) :
    ∃ ev', ev'.id = ev.id ∧
      s.postEventAndReset ev = .ok { s with posted := s.posted ++ [ev'] } := by
  obtain ⟨closed, hctbs, hnctbs⟩ := h
  refine ⟨{ ev with ctbs := 3 &&& ~~~ev.ctbs }, rfl, ?_⟩
  have hcheck : [0, 1, 1, 2][(3 &&& ~~~ev.ctbs).toNat]? = some ev.nctbs := by
    rw [hctbs, hnctbs]
    unfold pendingMask closedCount
    cases closed 0 <;> cases closed 1 <;> decide
  unfold postEventAndReset
  exact if_pos hcheck

theorem settle_ensures {action : Nat} :
    Ensures (SameTrigger s) Consistent (s.settle index dest action) := by
  unfold settle
  split
  · exact .ok ⟨rfl, rfl, rfl, rfl, rfl, rfl⟩
  · split
    · unfold LatencyList.replace
      dsimp only
      split
      · split
        · exact .ok ⟨rfl, rfl, rfl, rfl, rfl, rfl⟩
        · exact .error ⟨nofun, nofun⟩
      · exact .ok ⟨rfl, rfl, rfl, rfl, rfl, rfl⟩
    · exact .ok ⟨rfl, rfl, rfl, rfl, rfl, rfl⟩

/-- No event, and the timing channel is listened to. -/
theorem rearm_trigInv (h : s.counters.disTrgCnt = 0) : TrigInv s.rearm :=
  ⟨rfl, fun _ hev => (nomatch hev), fun hsome => (nomatch hsome), h⟩

theorem dispatch_ensures (h : TrigInv s) :
    Ensures (fun s' => TrigInv s' ∧ EventKept s s') Consistent
      (s.dispatch bCount index dest) := by
  unfold dispatch
  split
  · split
    · exact .error ⟨nofun, nofun⟩
    · rename_i ev hev
      obtain ⟨hbal, hopen⟩ := h.balanced ev hev
      refine .bind (Event.evaluate_balanced hbal) ?_
      rintro ⟨mem, ev1, action⟩ ⟨hprog, -⟩
      dsimp only at hprog ⊢
      split
      · obtain ⟨ev', hid, hpost⟩ := postEventAndReset_eq (s := { s with mem, event := some ev1 })
          hprog.balanced
        rw [hpost]
        refine .mono (settle_ensures (s := rearm _)) fun s' hsame => ?_
        refine ⟨hsame.trigInv (rearm_trigInv h.discarded), fun ev0 hev0 => .inr ⟨hsame.event, ?_⟩⟩
        obtain rfl : ev = ev0 := Option.some.inj (hev.symm.trans hev0)
        exact ⟨ev', hid.trans hprog.id, hsame.posted⟩
      · rename_i hn
        refine .mono settle_ensures fun s' hsame => ?_
        have hinv : TrigInv { s with mem, event := some ev1 } := by
          refine ⟨by rw [h.active, hev]; rfl, ?_, ?_, h.discarded⟩
          · intro ev2 hev2
            obtain rfl := Option.some.inj hev2
            exact ⟨hprog.balanced, hprog.still_open hn hopen⟩
          · exact fun _ => h.masked (by rw [hev]; rfl)
        refine ⟨hsame.trigInv hinv, fun ev0 hev0 => .inl ⟨ev1, hsame.event, ?_, hsame.posted⟩⟩
        obtain rfl : ev = ev0 := Option.some.inj (hev.symm.trans hev0)
        exact hprog.id
  · unfold LatencyList.replace
    dsimp only
    have hsame : ∀ mem, SameTrigger s { s with mem } := fun _ => ⟨rfl, rfl, rfl, rfl, rfl, rfl⟩
    split
    · split
      · exact .ok ⟨(hsame _).trigInv h, (hsame _).eventKept⟩
      · exact .error ⟨nofun, nofun⟩
    · exact .ok ⟨(hsame _).trigInv h, (hsame _).eventKept⟩

/-- A trigger is served: the event it starts, or its posting. -/
theorem open_trigInv {mem : Memory} {ev : Event} (hbal : ev.Balanced) (hopen : ev.ctbs ≠ 0)
    (hdis : s.counters.disTrgCnt = 0) (hmask : s.runMode = .EXTERNAL → s.timingSet = false) :
    TrigInv { s with mem, event := some ev, trgActive := true } := by
  refine ⟨rfl, ?_, fun _ => hmask, hdis⟩
  intro ev' hev'
  obtain rfl := Option.some.inj hev'
  exact ⟨hbal, hopen⟩

theorem check_ensures {time : Span Nat} {period : Nat} :
    Ensures (fun _ => True) Consistent (SoftTrigger.check time period) := by
  unfold SoftTrigger.check
  split
  · exact .error ⟨nofun, nofun⟩
  · split
    · exact .ok trivial
    · exact .ok trivial

/-- A software trigger only fires without an event. -/
theorem softTrigger_ensures {time : Span Nat} (h : TrigInv s) :
    Ensures (fun r => TrigInv r.1 ∧ (s.event ≠ none → r = (s, false))) Consistent
      (s.softTrigger bCount cfg alloc time) := by
  unfold softTrigger
  split
  · rename_i hguard
    obtain ⟨hmode, hact⟩ := hguard
    have hnone : s.event = none := by
      have := h.active
      rw [hact] at this
      simpa using this.symm
    refine .bind check_ensures fun t _ => ?_
    split
    · refine .bind Event.seedAndDrain_balanced ?_
      rintro ⟨mem, ev, post⟩ ⟨hid, hbal, hopen⟩
      dsimp only at hid hbal hopen ⊢
      split
      · obtain ⟨ev', -, hpost⟩ := postEventAndReset_eq hbal
          (s := { s with mem, softTriggerCnt := inc32 s.softTriggerCnt })
        rw [hpost]
        exact .ok ⟨rearm_trigInv h.discarded, fun hne => absurd hnone hne⟩
      · rename_i hpost
        have hmask : s.runMode = .EXTERNAL → s.timingSet = false := fun hext => by
          rw [hmode] at hext
          cases hext
        exact .ok ⟨open_trigInv (s := { s with softTriggerCnt := inc32 s.softTriggerCnt }) hbal
          (hopen (by simpa using hpost)) h.discarded hmask, fun hne => absurd hnone hne⟩
    · exact .ok ⟨h, fun _ => rfl⟩
  · exact .ok ⟨h, fun _ => rfl⟩

theorem goodData_ensures {d : DataMsg} (h : TrigInv s) :
    Ensures (fun s' => TrigInv s' ∧ EventKept s s') Consistent
      (s.goodData bCount cfg alloc d dest) := by
  have hfill : SameTrigger s (s.fillBody d) := ⟨rfl, rfl, rfl, rfl, rfl, rfl⟩
  refine .bind (softTrigger_ensures (hfill.trigInv h)) ?_
  rintro ⟨s1, done⟩ ⟨hinv, hsame⟩
  dsimp only at hinv hsame ⊢
  cases hev : s.event with
  | none =>
    split
    · exact .ok ⟨hinv, .of_none hev⟩
    · exact .mono (dispatch_ensures hinv) fun s' hs' => ⟨hs'.1, .of_none hev⟩
  | some ev =>
    obtain ⟨rfl, rfl⟩ := Prod.mk.inj (hsame (by rw [hfill.event, hev]; nofun))
    exact .mono (dispatch_ensures hinv) fun s' hs' => ⟨hs'.1, hfill.eventKept_left hs'.2⟩

theorem relisten_trigInv (h : TrigInv s) : TrigInv s.relisten := by
  unfold relisten
  split
  · rename_i hact
    have hnone : s.event = none := by
      have := h.active
      rw [show s.trgActive = false by simpa using hact] at this
      simpa using this.symm
    exact ⟨h.active, h.balanced, fun hsome => by simp [hnone] at hsome, h.discarded⟩
  · exact h

theorem relisten_eventKept {s' : RxState} (hk : EventKept s.relisten s') : EventKept s s' := by
  unfold relisten at hk
  split at hk
  · exact hk
  · exact hk

theorem serviceData_ensures {d : DataMsg} (h : TrigInv s) :
    Ensures (fun s' => TrigInv s' ∧ EventKept s s') Consistent
      (s.serviceData bCount cfg alloc d) := by
  have hfree : ∀ t : RxState, TrigInv t → (∀ s', EventKept t s' → EventKept s s') →
      Ensures (fun s' => TrigInv s' ∧ EventKept s s') Consistent (.ok (t.freeBuffer d.index)) := by
    intro t ht hk
    have hsame : SameTrigger t (t.freeBuffer d.index) := ⟨rfl, rfl, rfl, rfl, rfl, rfl⟩
    exact .ok ⟨hsame.trigInv ht, hk _ hsame.eventKept⟩
  unfold serviceData
  split
  · exact hfree s h fun _ hk => hk
  · have hlisten := relisten_trigInv h
    dsimp only
    split
    · have hcount : SameTrigger s.relisten (s.relisten.countPacket d) :=
        ⟨rfl, rfl, rfl, rfl, rfl, rfl⟩
      have herr : SameTrigger (s.relisten.countPacket d) (s.relisten.countPacket d).countError :=
        ⟨rfl, rfl, rfl, rfl, rfl, rfl⟩
      have hkept : ∀ s', EventKept (s.relisten.countPacket d) s' → EventKept s s' :=
        fun s' hk => relisten_eventKept (hcount.eventKept_left hk)
      split
      · exact hfree _ (herr.trigInv (hcount.trigInv hlisten)) fun _ hk =>
          hkept _ (herr.eventKept_left hk)
      · split
        · exact hfree _ (herr.trigInv (hcount.trigInv hlisten)) fun _ hk =>
            hkept _ (herr.eventKept_left hk)
        · exact .mono (goodData_ensures (hcount.trigInv hlisten)) fun s' hs' =>
            ⟨hs'.1, hkept s' hs'.2⟩
    · exact hfree _ hlisten fun _ hk => relisten_eventKept hk

/-- A timing message does not meet an event in progress, unless it is not looked at. -/
theorem readTimingMsg_trigInv (h : TrigInv s) (hset : s.timingSet = true) (tmsg : TimingMsg) :
    ∃ c, c.disTrgCnt = 0 ∧
      (s.readTimingMsg tmsg = ({ s with counters := c }, none) ∨
        s.event = none ∧ s.readTimingMsg tmsg = ({ s with counters := c }, some tmsg)) := by
  unfold readTimingMsg
  split
  · rename_i hserve
    obtain ⟨-, hmode, -⟩ := hserve
    have hnone : s.event = none := by
      cases hev : s.event with
      | none => rfl
      | some ev =>
        have := h.masked (by rw [hev]; rfl) hmode
        rw [hset] at this
        cases this
    have hact : s.trgActive = false := by rw [h.active, hnone]; rfl
    dsimp only
    split
    · rw [if_pos (by simp [hact])]
      exact ⟨{ s.counters with
        triggers := inc32 s.counters.triggers
        trgMsgCnt := inc32 s.counters.trgMsgCnt }, h.discarded, .inr ⟨hnone, rfl⟩⟩
    · exact ⟨{ s.counters with triggers := inc32 s.counters.triggers }, h.discarded, .inl rfl⟩
  · exact ⟨s.counters, h.discarded, .inl rfl⟩

theorem serviceTiming_ensures {tmsg : TimingMsg} (h : TrigInv s) (hset : s.timingSet = true) :
    Ensures (fun s' => TrigInv s' ∧ (s.event ≠ none → s'.event = s.event ∧ s'.posted = s.posted))
      Consistent (s.serviceTiming bCount cfg alloc tmsg) := by
  obtain ⟨c, hdis, hread | ⟨hnone, hread⟩⟩ := readTimingMsg_trigInv h hset tmsg
  · unfold serviceTiming
    rw [hread]
    exact .ok ⟨⟨h.active, h.balanced, h.masked, hdis⟩, fun _ => ⟨rfl, rfl⟩⟩
  · unfold serviceTiming
    rw [hread]
    dsimp only
    refine .bind Event.seedAndDrain_balanced ?_
    rintro ⟨mem, ev, post⟩ ⟨-, hbal, hopen⟩
    dsimp only at hbal hopen ⊢
    split
    · obtain ⟨ev', -, hpost⟩ := postEventAndReset_eq hbal (s := { s with mem, counters := c })
      rw [hpost]
      exact .ok ⟨rearm_trigInv hdis, fun hne => absurd hnone hne⟩
    · rename_i hpost
      exact .ok ⟨open_trigInv (s := { s with counters := c, timingSet := false }) hbal
        (hopen (by simpa using hpost)) hdis fun _ => rfl, fun hne => absurd hnone hne⟩

theorem select_trigInv (h : TrigInv s) (inp : RxInput) : TrigInv (s.select inp) := by
  unfold select
  dsimp only
  split
  · rename_i hnone
    have hnone : s.event = none := by simpa using hnone
    exact ⟨h.active, h.balanced, fun hsome => by simp [hnone] at hsome, h.discarded⟩
  · refine ⟨h.active, h.balanced, fun hsome hmode => ?_, h.discarded⟩
    have hoff := h.masked hsome hmode
    show (s.timingSet && inp.timing.isSome) = false
    rw [hoff, Bool.false_and]

theorem select_event (inp : RxInput) :
    (s.select inp).event = s.event ∧ (s.select inp).posted = s.posted := by
  unfold select
  dsimp only
  split <;> exact ⟨rfl, rfl⟩

/-- The timing half does not touch an event in progress. -/
theorem timingHalf_ensures (h : TrigInv s) (inp : RxInput) :
    Ensures (fun s' => TrigInv s' ∧ (s.event ≠ none → s'.event = s.event ∧ s'.posted = s.posted))
      Consistent ((s.select inp).timingHalf bCount inp) := by
  have hsel := select_trigInv h inp
  obtain ⟨hev, hposted⟩ := select_event (s := s) inp
  unfold timingHalf
  split
  · rename_i hset _
    refine .mono (serviceTiming_ensures hsel hset) fun s' hs' => ⟨hs'.1, fun hne => ?_⟩
    rw [← hev, ← hposted]
    exact hs'.2 (by rwa [hev])
  · exact .ok ⟨hsel, fun _ => ⟨hev, hposted⟩⟩

theorem dataHalf_ensures (h : TrigInv s) (inp : RxInput) :
    Ensures (fun s' => TrigInv s' ∧ EventKept s s') Consistent (s.dataHalf bCount inp) := by
  unfold dataHalf
  split
  · rename_i d _
    have hsame : SameTrigger s { s with received := s.received ++ [d.index] } :=
      ⟨rfl, rfl, rfl, rfl, rfl, rfl⟩
    exact .mono (serviceData_ensures (hsame.trigInv h)) fun s' hs' =>
      ⟨hs'.1, hsame.eventKept_left hs'.2⟩
  · exact .ok ⟨h, SameTrigger.eventKept ⟨rfl, rfl, rfl, rfl, rfl, rfl⟩⟩

theorem rxIter_ensures (h : TrigInv s) (inp : RxInput) :
    Ensures TrigInv Consistent (s.rxIter bCount inp) := by
  unfold rxIter
  split
  · refine .bind (timingHalf_ensures h inp) fun s1 hs1 => ?_
    exact .mono (dataHalf_ensures hs1.1 inp) fun s' hs' => hs'.1
  · exact .ok h

end RxState

/-! ## Runs -/

/-- The states at the loop heads of the runs of `rxRun`, on any inputs. -/
inductive LoopHead (bCount : Nat) (body : Nat → FrameBuffer) (cfg : Config) : RxState → Prop where
  | start : LoopHead bCount body cfg (.start body cfg)
  | iter {s s' : RxState} {inp : RxInput} : LoopHead bCount body cfg s →
      s.rxIter bCount inp = .ok s' → LoopHead bCount body cfg s'

theorem LoopHead.trigInv {bCount : Nat} {body : Nat → FrameBuffer} {cfg : Config} {s : RxState}
    (h : LoopHead bCount body cfg s) : TrigInv s := by
  induction h with
  | start => exact ⟨rfl, fun _ hev => (nomatch hev), fun hsome => (nomatch hsome), rfl⟩
  | iter _ hiter ih => exact (RxState.rxIter_ensures ih _).of_ok hiter

/-- What the trigger state machine promises at a loop head. -/
structure TriggerSafe (bCount : Nat) (s : RxState) : Prop where
  active : s.trgActive = true ↔ s.event ≠ none
  pending : ∀ ev, s.event = some ev → ev.ctbs ≠ 0 ∧ popcount ev.ctbs + ev.nctbs = 2
  discarded : s.counters.disTrgCnt = 0
  /-- a trigger that is read finds no event, and is not discarded -/
  trigger : ∀ inp tmsg, inp.timing = some tmsg → (s.select inp).timingSet = true →
    (s.select inp).runMode = .EXTERNAL → (s.select inp).trgActive = false ∧ s.event = none
  /-- the timing half leaves an event in progress alone -/
  timing : ∀ inp ev t, s.event = some ev → (s.select inp).timingHalf bCount inp = .ok t →
    t.event = some ev ∧ t.posted = s.posted
  /-- the data half keeps the event it finds, or posts it -/
  data : ∀ inp t s', (s.select inp).timingHalf bCount inp = .ok t →
    t.dataHalf bCount inp = .ok s' → EventKept t s'
  noExit : ∀ inp, s.rxIter bCount inp ≠ .error .evaluateExit ∧
    s.rxIter bCount inp ≠ .error .postExit

/-- **The trigger state machine is safe** at every loop head of every run. -/
theorem trigger_safe (bCount : Nat) (body : Nat → FrameBuffer) (cfg : Config) (s : RxState)
    (h : LoopHead bCount body cfg s) : TriggerSafe bCount s := by
  have hinv := h.trigInv
  refine ⟨?_, ?_, hinv.discarded, ?_, ?_, ?_, ?_⟩
  · rw [hinv.active]
    cases s.event <;> simp
  · intro ev hev
    obtain ⟨hbal, hopen⟩ := hinv.balanced ev hev
    exact ⟨hopen, hbal.popcount_add⟩
  · intro inp tmsg _ hset hmode
    have hsel := RxState.select_trigInv hinv inp
    have hnone : (s.select inp).event = none := by
      cases hev : (s.select inp).event with
      | none => rfl
      | some ev =>
        have := hsel.masked (by rw [hev]; rfl) hmode
        rw [hset] at this
        cases this
    exact ⟨by rw [hsel.active, hnone]; rfl, (RxState.select_event inp).1.symm.trans hnone⟩
  · intro inp ev t hev ht
    obtain ⟨-, hkeep⟩ := (RxState.timingHalf_ensures hinv inp).of_ok ht
    rw [hev] at hkeep
    exact hkeep nofun
  · intro inp t s' ht hs'
    obtain ⟨ht, -⟩ := (RxState.timingHalf_ensures hinv inp).of_ok ht
    exact ((RxState.dataHalf_ensures ht inp).of_ok hs').2
  · intro inp
    have hiter : Ensures TrigInv Consistent (s.rxIter bCount inp) :=
      RxState.rxIter_ensures hinv inp
    exact ⟨fun herr => (hiter.of_error herr).1 rfl, fun herr => (hiter.of_error herr).2 rfl⟩

/-- A trigger, with nothing on the latency lists. -/
def loneTrigger : RxInput where
  cfg := ⟨.EXTERNAL, false, 1000, 1000, 1⟩
  timing := some ⟨0xff, 5000, 1, 0x88⟩
  data := none
  alloc := 0

theorem trigger_safe_loneTrigger :
    let start := RxState.start (fun _ => ⟨⟨0, 0⟩, 0, 0⟩) loneTrigger.cfg
    ∃ s, start.rxIter 4 loneTrigger = .ok s ∧ s.event.isSome = true ∧ TriggerSafe 4 s := by
  intro start
  have hiter : ∃ s, start.rxIter 4 loneTrigger = .ok s ∧ s.event.isSome = true := ⟨_, rfl, rfl⟩
  obtain ⟨s, hs, hev⟩ := hiter
  exact ⟨s, hs, hev, trigger_safe 4 _ _ s (.iter .start hs)⟩

end ProtoDune.Daq
