import ProtoDune.Daq.Conservation

/-!
# No buffer is lost by the receive loop

`Conserved` says of a state of the loop that every buffer that was received and
not given back is reachable from exactly one list, and that the latency lists
have the depth they account for.

Two paths of the code lose a buffer. A latency list whose last packet was put
back by `seedAndDrain` into the emptied list has a stale tail link, and the next
`insert_tail` drops that packet (`RxState.stale`). And when a software trigger
is answered from the latency lists alone, the packet that caused it is put
nowhere. `IterOk` is the condition that an iteration takes neither.

Main results:

* `Inv.rxIter` — an iteration that is `IterOk` returns and keeps the invariant.
* `rx_conserves` — every state reached by such iterations is `Conserved`.
* `rx_loses_buffer`, `rx_loses_trigger_packet` — runs that meet the two paths.
-/

namespace ProtoDune.Daq

open WindowSelect LinkChain

/-! ## The property -/

namespace RxState

/-- The events in progress and posted. -/
def eventIds (s : RxState) : List Nat :=
  s.event.toList.map Event.id ++ s.posted.map Event.id

end RxState

/-- The heads in use: the latency lists and those of the events `ids`. -/
def headsOf (ids : List Nat) : Set Head :=
  {h | ∀ e d, h = .contrib e d → e ∈ ids}

/-- Following `m_flnk` from the head `h` one meets the buffer `i`. -/
def Reaches (m : Memory) (h : Head) (i : Nat) : Prop := ∃ k, m.links.flnk^[k] (.inl h) = .inr i

/-- The buffer `i` was received and not given back since. -/
def RxState.Outstanding (s : RxState) (i : Nat) : Prop :=
  s.mem.returned.count i < s.received.count i

/-- Every outstanding buffer is on exactly one list, and no other buffer is on
any; the lists do not visit a buffer twice; no buffer is given back more often
than it was received; the latency lists have the length they account for. -/
structure Conserved (s : RxState) : Prop where
  owned : ∀ i, s.Outstanding i → ∃! h, h ∈ headsOf s.eventIds ∧ Reaches s.mem h i
  reached : ∀ h ∈ headsOf s.eventIds, ∀ i, Reaches s.mem h i → s.Outstanding i
  simple : ∀ h ∈ headsOf s.eventIds, ∃ xs, Holds s.mem.links (.inl h) xs
  ids : s.eventIds.Nodup
  returned : ∀ i, s.mem.returned.count i ≤ s.received.count i
  depth : ∀ d, ∃ xs, Holds s.mem.links (.inl (.latency d)) xs ∧
    s.mem.remaining d + xs.length = LatencyList.Depth ∧
    0 ≤ s.mem.remaining d ∧ s.mem.remaining d ≤ LatencyList.Depth

/-! ## The condition -/

namespace RxState

/-- The packets on a latency list, the oldest first. -/
def latencyNodes (s : RxState) (d : Dest) : List Addr :=
  walk s.mem.links.flnk (.inl (.latency d)) (LatencyList.Depth.toNat + 1) (.inl (.latency d))

/-- How the window `w` lies to a packet in memory. -/
def nodeVerdict (s : RxState) (w : Span Nat) (node : Addr) : Verdict :=
  verdict w (s.mem.tsRange node)

/-- The latency list `d` alone completes its contributor for the window `w`. -/
def closedBy (s : RxState) (w : Span Nat) (d : Dest) : Prop :=
  closed (s.nodeVerdict w) (s.latencyNodes d) = true

/-- Scanning the latency list `d` for the window `w` ends at its last packet,
which lies beyond the window and is put back into an empty list. -/
def putsBackAlone (s : RxState) (w : Span Nat) (d : Dest) : Prop :=
  ∃ c, leftover (s.nodeVerdict w) (s.latencyNodes d) = [c] ∧ s.nodeVerdict w c = .late

/-- The tail link of the latency list `d` is at the head although the list has
a packet. -/
def stale (s : RxState) (d : Dest) : Prop :=
  s.mem.links.blnk (.inl (.latency d)) = .inl (.latency d) ∧
    s.mem.links.flnk (.inl (.latency d)) ≠ .inl (.latency d)

/-- The packet passes every check of the loop. -/
def accepts (s : RxState) (inp : RxInput) (d : DataMsg) : Prop :=
  d.dest < 2 ∧
    (if s.event.isNone then inp.cfg.blowOffDmaData else s.blowOffDmaData) = false ∧
    d.lastUser &&& TUserEOFE = 0 ∧ (d.trailer &&& 0xffffff).toNat = d.rxSize

/-- The window of the event that the timing message starts. -/
def hwWindow (s : RxState) (inp : RxInput) : Option (Span Nat) :=
  match inp.timing with
  | some tmsg =>
      if s.timingSet ∧ s.event.isNone ∧ inp.cfg.runMode = .EXTERNAL ∧
          inp.cfg.blowOffDmaData = false ∧ tmsg.dest = 0xff ∧ tmsg.isTrigger then
        some (triggerWindow inp.cfg tmsg.timestamp)
      else none
  | none => none

/-- The window of the event that the packet itself starts. -/
def swWindow (s : RxState) (inp : RxInput) (d : DataMsg) : Option (Span Nat) :=
  if s.event.isNone ∧ inp.cfg.runMode = .SOFTWARE then
    match SoftTrigger.check d.tsRange inp.cfg.period with
    | .ok t => if 0 ≤ t then some (triggerWindow inp.cfg t.toNat) else none
    | .error _ => none
  else none

end RxState

/-- The packet `d` of contributor `dest` is lost on neither path. -/
structure PacketOk (s : RxState) (inp : RxInput) (d : DataMsg) (dest : Dest) : Prop where
  /-- a hardware trigger does not put back a lone packet into the list the
  packet joins -/
  hardware : ∀ w, s.hwWindow inp = some w → ¬ s.putsBackAlone w dest
  /-- nor does a software trigger, and the latency lists do not complete its
  event -/
  software : ∀ w, s.swWindow inp d = some w →
    ¬ s.putsBackAlone w dest ∧ ¬ (s.closedBy w 0 ∧ s.closedBy w 1)
  /-- without a trigger, the packet does not join a stale list -/
  idle : s.hwWindow inp = none → s.swWindow inp d = none → s.stale dest →
    ∃ ev, s.event = some ev ∧ ev.ctbs &&& ctbMask dest ≠ 0 ∧ verdict ev.limits d.tsRange ≠ .late

/-- The condition on the state before an iteration and its input. -/
def IterOk (s : RxState) (inp : RxInput) : Prop :=
  ∀ d dest, inp.data = some d → s.accepts inp d → d.dest = dest.val → PacketOk s inp d dest

/-- The driver hands out a buffer of its own that is not outstanding, and the
pool an event that is not in use. -/
structure InputOk (bCount : Nat) (s : RxState) (inp : RxInput) : Prop where
  index : ∀ d, inp.data = some d → d.index < bCount ∧ ¬ s.Outstanding d.index
  alloc : inp.alloc ∉ s.eventIds

/-- The states that iterations satisfying `ok` reach. -/
inductive Reachable (bCount : Nat) (body : Nat → FrameBuffer) (cfg : Config)
    (ok : RxState → RxInput → Prop) : RxState → Prop where
  | start : Reachable bCount body cfg ok (RxState.start body cfg)
  | iter {s s' : RxState} {inp : RxInput} : Reachable bCount body cfg ok s →
      InputOk bCount s inp → ok s inp → s.rxIter bCount inp = .ok s' →
      Reachable bCount body cfg ok s'

/-! ## The invariant -/

/-- The invariant of the loop, with at most one buffer in hand. -/
structure Inv (bCount : Nat) (s : RxState) (σ : Head → List Nat) (hand : Option Nat) : Prop where
  owned : Owned bCount s.mem (headsOf s.eventIds) σ s.received hand
  depths : Depths s.mem σ
  active : s.trgActive = s.event.isSome
  building : ∀ ev, s.event = some ev →
    ∃ closed, Building (headsOf s.eventIds) s.mem ev σ Set.univ closed
  ids : s.eventIds.Nodup

theorem latency_mem_headsOf (ids : List Nat) (d : Dest) : Head.latency d ∈ headsOf ids := by
  intro e d' heq
  cases heq

theorem contrib_mem_headsOf {ids : List Nat} {e : Nat} {d : Dest} :
    Head.contrib e d ∈ headsOf ids ↔ e ∈ ids := by
  constructor
  · intro h
    exact h e d rfl
  · rintro h e' d' ⟨⟩
    exact h

theorem headsOf_congr {ids ids' : List Nat} (h : ∀ e, e ∈ ids ↔ e ∈ ids') :
    headsOf ids = headsOf ids' := by
  ext x
  simp only [headsOf, Set.mem_ofPred_eq, h]

theorem withContribs_headsOf (ids : List Nat) (id : Nat) :
    withContribs (headsOf ids) id = headsOf (id :: ids) := by
  ext h
  cases h with
  | latency d => simp [withContribs, latency_mem_headsOf]
  | contrib e d =>
      rcases dest_cases d with rfl | rfl <;> by_cases he : e = id <;>
        simp [withContribs, contrib_mem_headsOf, he]

namespace RxState

theorem select_spec (s : RxState) (inp : RxInput) :
    (s.select inp).mem = s.mem ∧ (s.select inp).event = s.event ∧
      (s.select inp).trgActive = s.trgActive ∧ (s.select inp).posted = s.posted ∧
      (s.select inp).received = s.received ∧
      (s.select inp).timingSet = (s.timingSet && inp.timing.isSome) ∧
      (s.select inp).runMode = (if s.event.isNone then inp.cfg.runMode else s.runMode) ∧
      (s.select inp).blowOffDmaData =
        (if s.event.isNone then inp.cfg.blowOffDmaData else s.blowOffDmaData) := by
  unfold select
  dsimp only
  split <;> exact ⟨rfl, rfl, rfl, rfl, rfl, rfl, rfl, rfl⟩

theorem putsBackAlone_congr {s s' : RxState} (hmem : s'.mem = s.mem) {w : Span Nat}
    {d : Dest} : s'.putsBackAlone w d ↔ s.putsBackAlone w d := by
  unfold putsBackAlone latencyNodes nodeVerdict
  rw [hmem]

theorem closedBy_congr {s s' : RxState} (hmem : s'.mem = s.mem) {w : Span Nat} {d : Dest} :
    s'.closedBy w d ↔ s.closedBy w d := by
  unfold closedBy latencyNodes nodeVerdict
  rw [hmem]

/-- A timing message changes the counters, and starts an event if it is a
trigger and none is active. -/
theorem readTimingMsg_spec (s : RxState) (tmsg : TimingMsg) :
    ∃ c, s.readTimingMsg tmsg = ({ s with counters := c },
      if s.blowOffDmaData = false ∧ s.runMode = .EXTERNAL ∧ tmsg.dest = 0xff ∧
        tmsg.isTrigger = true ∧ s.trgActive = false then some tmsg else none) := by
  unfold readTimingMsg
  by_cases hserve : !s.blowOffDmaData ∧ s.runMode = .EXTERNAL ∧ tmsg.dest = 0xff
  · rw [if_pos hserve]
    obtain ⟨hb, hm, hd⟩ := hserve
    cases htrg : tmsg.isTrigger <;> cases hact : s.trgActive <;> simp_all
  · rw [if_neg hserve, if_neg]
    · exact ⟨s.counters, rfl⟩
    · rintro ⟨hb, hm, hd, -⟩
      exact hserve ⟨by simp [hb], hm, hd⟩

end RxState

namespace Inv

variable {bCount : Nat} {s s' : RxState} {σ : Head → List Nat} {hand : Option Nat} {i : Nat}

/-- The invariant does not read the other fields. -/
theorem congr (h : Inv bCount s σ hand) (hlinks : s'.mem.links = s.mem.links)
    (hrem : s'.mem.remaining = s.mem.remaining) (hret : s'.mem.returned = s.mem.returned)
    (hev : s'.event = s.event) (hact : s'.trgActive = s.trgActive)
    (hpost : s'.posted = s.posted) (hrecv : s'.received = s.received) :
    Inv bCount s' σ hand := by
  have hids : s'.eventIds = s.eventIds := by rw [RxState.eventIds, RxState.eventIds, hev, hpost]
  obtain ⟨⟨hs, hlat, hled, hfresh, hbound⟩, ⟨hsum, hpos⟩, hact', hbuild, hnd⟩ := h
  refine ⟨?_, ?_, by rw [hact, hev, hact'], ?_, by rwa [hids]⟩
  · rw [hids, hrecv]
    refine ⟨by rwa [hlinks], hlat, by rwa [hret], hfresh, hbound⟩
  · refine ⟨?_, ?_⟩
    · rwa [hrem]
    · rwa [hrem]
  · intro ev hev'
    rw [hev] at hev'
    obtain ⟨closed, hb⟩ := hbuild ev hev'
    rw [hids]
    exact ⟨closed, hb.congr _ hlinks⟩

theorem isNone_event (h : Inv bCount s σ hand) : s.event.isNone = !s.trgActive := by
  rw [h.active]
  cases s.event <;> rfl

/-- The sequence of a latency list is the one read from memory. -/
theorem latencyNodes (h : Inv bCount s σ hand) (d : Dest) :
    s.latencyNodes d = cells (σ (.latency d)) := by
  have hhold := h.owned.store.holds _ (latency_mem_headsOf _ d)
  have hsum := h.depths.sum d
  have hrem := h.depths.remaining d
  refine hhold.chain.walk (List.nodup_cons.mp hhold.nodup).1 ?_
  simp only [cells, List.length_map]
  omega

theorem closedBy_iff (h : Inv bCount s σ hand) {ev : Event} (d : Dest) :
    s.closedBy ev.limits d ↔ closed (packetVerdict s.mem ev) (σ (.latency d)) = true := by
  rw [RxState.closedBy, h.latencyNodes, cells, closed_map fun _ _ => rfl]
  rfl

theorem putsBackAlone_iff (h : Inv bCount s σ hand) {ev : Event} (d : Dest) :
    s.putsBackAlone ev.limits d ↔ ∃ c, leftover (packetVerdict s.mem ev) (σ (.latency d)) = [c] ∧
      packetVerdict s.mem ev c = .late := by
  unfold RxState.putsBackAlone
  rw [h.latencyNodes, cells, leftover_map (f := Sum.inr) (u := packetVerdict s.mem ev)
    fun _ _ => rfl]
  constructor
  · rintro ⟨c, hc, hv⟩
    obtain ⟨c', rest, hL, rfl, hrest⟩ := List.map_eq_cons_iff.mp hc
    rw [List.map_eq_nil_iff.mp hrest] at hL
    exact ⟨c', hL, hv⟩
  · rintro ⟨c, hc, hv⟩
    exact ⟨.inr c, by rw [hc]; rfl, hv⟩

/-- A latency list that is not stale is tight. -/
theorem tight_of_not_stale (h : Inv bCount s σ hand) {d : Dest} (hst : ¬ s.stale d) :
    Tight s.mem.links (.latency d) (σ (.latency d)) := by
  refine h.owned.store.tight_of_not_stale (latency_mem_headsOf _ d) ?_
  rintro ⟨hb, hne⟩
  refine hst ⟨hb, ?_⟩
  obtain ⟨x, xs, hσ⟩ := List.exists_cons_of_ne_nil hne
  have hchain := (h.owned.store.holds _ (latency_mem_headsOf _ d)).chain
  rw [hσ] at hchain
  rw [hchain.1]
  exact Sum.inr_ne_inl

/-- **Received.** The driver hands out a buffer. -/
theorem receive (h : Inv bCount s σ none) (hout : ¬ s.Outstanding i) (hlt : i < bCount) :
    Inv bCount { s with received := s.received ++ [i] } σ (some i) := by
  have hcount : s.received.count i = s.mem.returned.count i := by
    obtain ⟨h1, h0⟩ := h.owned.ledger i
    by_cases hheld : HeldBy (headsOf s.eventIds) σ none i
    · have := h1 hheld
      exact absurd (show s.mem.returned.count i < s.received.count i by omega) hout
    · exact h0 hheld
  exact ⟨h.owned.receive hcount hlt, h.depths, h.active, h.building, h.ids⟩

/-- **Given back.** The buffer in hand goes back to the driver. -/
theorem free (h : Inv bCount s σ (some i)) : Inv bCount (s.freeBuffer i) σ none :=
  ⟨h.owned.free, ⟨h.depths.sum, h.depths.remaining⟩, h.active,
    fun ev hev => (h.building ev hev).imp fun _ hb => hb.congr _ rfl, h.ids⟩

/-- **Kept.** The buffer in hand joins a tight latency list. -/
theorem replace (h : Inv bCount s σ (some i)) {d : Dest}
    (ht : Tight s.mem.links (.latency d) (σ (.latency d))) :
    ∃ mem σ', LatencyList.replace s.mem d (.inr i) = .ok mem ∧
      Inv bCount { s with mem } σ' none := by
  obtain ⟨mem, σ', hrun, howned, hdepths, hsame, hblnk⟩ := h.owned.replace h.depths ht
  refine ⟨mem, σ', hrun, howned, hdepths, h.active, ?_, h.ids⟩
  intro ev hev
  obtain ⟨closed, hb⟩ := h.building ev hev
  exact ⟨closed, hb.transfer howned.store hsame hblnk⟩

/-- **Posted.** The event in progress is queued, whatever contributors it has. -/
theorem post {ev : Event} (h : Inv bCount { s with event := some ev, trgActive := true } σ hand) :
    ∃ s', s.postEventAndReset ev = .ok s' ∧ Inv bCount s'.rearm σ hand ∧ s'.mem = s.mem ∧
      s'.runMode = s.runMode ∧ s'.blowOffDmaData = s.blowOffDmaData ∧
      s'.received = s.received := by
  obtain ⟨closed, hb⟩ := h.building ev rfl
  have htable : [0, 1, 1, 2][(3 &&& ~~~ev.ctbs).toNat]? = some ev.nctbs := by
    rw [hb.ctbs, hb.nctbs]
    unfold pendingMask closedCount
    cases closed 0 <;> cases closed 1 <;> rfl
  refine ⟨{ s with posted := s.posted ++ [{ ev with ctbs := 3 &&& ~~~ev.ctbs }] }, ?_, ?_, rfl,
    rfl, rfl, rfl⟩
  · unfold RxState.postEventAndReset
    rw [if_pos htable]
  · have hids : ∀ e, e ∈ ({ s with event := some ev, trgActive := true } : RxState).eventIds ↔
        e ∈ (RxState.rearm
          { s with posted := s.posted ++ [{ ev with ctbs := 3 &&& ~~~ev.ctbs }] }).eventIds := by
      intro e
      simp only [RxState.eventIds, RxState.rearm, Option.toList, List.map_append, List.map_cons,
        List.map_nil, List.mem_append, List.mem_singleton, List.not_mem_nil, false_or]
      exact or_comm
    refine ⟨?_, ⟨h.depths.sum, h.depths.remaining⟩, rfl, ?_, ?_⟩
    · have howned := h.owned
      rw [headsOf_congr hids] at howned
      exact howned
    · intro ev' hev'
      exact absurd hev' (by simp [RxState.rearm])
    · have hnd := h.ids
      simp only [RxState.eventIds, RxState.rearm, Option.toList, List.map_append, List.map_cons,
        List.map_nil, List.nil_append] at hnd ⊢
      exact (List.perm_append_comm.nodup_iff).mp hnd

/-- **Triggered.** `seedAndDrain` gives a new event its packets. -/
theorem openEvent (h : Inv bCount s σ hand) (hnone : s.event = none) (ev : Event)
    (hnew : ev.id ∉ s.eventIds) :
    ∃ mem ev', ev.seedAndDrain (bCount + 1) s.mem 3 = .ok (mem, ev',
        if allClosed fun d => closed (packetVerdict s.mem ev) (σ (.latency d)) then ACTION_M_POST
        else ACTION_M_NONE) ∧
      Inv bCount { s with mem, event := some ev', trgActive := true }
        (drained ev.id σ (packetVerdict s.mem ev)) hand ∧
      s.mem.returned <+: mem.returned ∧
      ∀ d, ¬ s.putsBackAlone ev.limits d →
        Tight mem.links (.latency d) (drained ev.id σ (packetVerdict s.mem ev) (.latency d)) := by
  obtain ⟨mem, ev', hrun, hd⟩ := seedAndDrain_spec ev (bCount + 1) h.owned.store
    (latency_mem_headsOf _) fun d =>
      Nat.lt_succ_of_le (h.owned.length_le (latency_mem_headsOf _ d))
  have hids : ({ s with mem, event := some ev', trgActive := true } : RxState).eventIds =
      ev.id :: s.eventIds := by
    simp [RxState.eventIds, hnone, hd.framed.id]
  refine ⟨mem, ev', hrun, ⟨?_, h.depths.drained hd, rfl, ?_, ?_⟩, ?_, ?_⟩
  · rw [hids, ← withContribs_headsOf]
    exact h.owned.drained (fun d hmem => hnew (contrib_mem_headsOf.mp hmem)) hd
  · rintro _ ⟨⟩
    rw [hids, ← withContribs_headsOf]
    exact ⟨_, hd.building⟩
  · rw [hids]
    exact List.nodup_cons.mpr ⟨hnew, h.ids⟩
  · rw [hd.returned, List.append_assoc]
    exact List.prefix_append _ _
  · intro d hback
    rw [h.putsBackAlone_iff] at hback
    exact (hd.tight d).resolve_right hback

/-- An accepted timing message starts an event. -/
theorem serviceTiming (h : Inv bCount s σ none) (hnone : s.event = none) {cfg : Config}
    {alloc : Nat} (hnew : alloc ∉ s.eventIds) {tmsg : TimingMsg} {c : Counters}
    (hread : s.readTimingMsg tmsg = ({ s with counters := c }, some tmsg)) :
    ∃ s' σ', s.serviceTiming bCount cfg alloc tmsg = .ok s' ∧ Inv bCount s' σ' none ∧
      s.mem.returned <+: s'.mem.returned ∧ s'.received = s.received ∧
      s'.runMode = s.runMode ∧ s'.blowOffDmaData = s.blowOffDmaData ∧
      ∀ d, ¬ s.putsBackAlone (triggerWindow cfg tmsg.timestamp) d →
        Tight s'.mem.links (.latency d) (σ' (.latency d)) := by
  obtain ⟨mem, ev', hrun, hopen, hret, htight⟩ := h.openEvent hnone
    (newEvent cfg alloc tmsg.timestamp tmsg.sequence) hnew
  unfold RxState.serviceTiming
  rw [hread]
  simp only [hrun, bind, Except.bind]
  split
  · -- both contributors come from the latency lists: the event is posted at once
    obtain ⟨s', hpost, hinv, hmem, hmode, hblow, hrecv⟩ :=
      Inv.post (s := { s with counters := c, mem := mem }) (hopen.congr rfl rfl rfl rfl rfl rfl rfl)
    rw [if_pos (by decide)]
    simp only [hpost]
    refine ⟨_, _, rfl, hinv, ?_, hrecv, hmode, hblow, ?_⟩
    · rw [show s'.rearm.mem = mem from hmem]
      exact hret
    · rw [show s'.rearm.mem = mem from hmem]
      exact htight
  · rw [if_neg (by decide)]
    exact ⟨_, _, rfl, hopen.congr rfl rfl rfl rfl rfl rfl rfl, hret, rfl, rfl, rfl, htight⟩

/-- **The timing half.** It returns and keeps the invariant. When no event is
started it leaves memory and events alone; when one is started only the lists
of the condition become stale. -/
theorem timingHalf (h : Inv bCount s σ none) {inp : RxInput} (hnew : inp.alloc ∉ s.eventIds) :
    ∃ s' σ', (s.select inp).timingHalf bCount inp = .ok s' ∧ Inv bCount s' σ' none ∧
      s.mem.returned <+: s'.mem.returned ∧ s'.received = s.received ∧
      s'.runMode = (s.select inp).runMode ∧
      s'.blowOffDmaData = (s.select inp).blowOffDmaData ∧
      (s.hwWindow inp = none →
        s'.mem = s.mem ∧ s'.event = s.event ∧ s'.posted = s.posted) ∧
      ∀ w, s.hwWindow inp = some w → s'.runMode = .EXTERNAL ∧
        ∀ d, ¬ s.putsBackAlone w d → Tight s'.mem.links (.latency d) (σ' (.latency d)) := by
  obtain ⟨hmem, hev, hact, hpost, hrecv, hset, hmode, hblow⟩ := s.select_spec inp
  have hsel : Inv bCount (s.select inp) σ none := h.congr (by rw [hmem]) (by rw [hmem])
    (by rw [hmem]) hev hact hpost hrecv
  have hactive : s.trgActive = false ↔ s.event.isNone = true := by
    simp only [h.isNone_event, Bool.not_eq_true']
  have hpre : s.mem.returned <+: (s.select inp).mem.returned := by
    simp only [hmem, List.prefix_rfl]
  unfold RxState.timingHalf
  cases htmsg : inp.timing with
  | none =>
      refine ⟨s.select inp, σ, by simp, hsel, hpre, hrecv, rfl, rfl,
        fun _ => ⟨hmem, hev, hpost⟩, ?_⟩
      intro w hw
      simp [RxState.hwWindow, htmsg] at hw
  | some tmsg =>
      rw [htmsg, Option.isSome_some, Bool.and_true] at hset
      obtain ⟨c, hread⟩ := (s.select inp).readTimingMsg_spec tmsg
      have hcond : ((s.select inp).blowOffDmaData = false ∧ (s.select inp).runMode = .EXTERNAL ∧
          tmsg.dest = 0xff ∧ tmsg.isTrigger = true ∧ (s.select inp).trgActive = false) ↔
          s.event.isNone = true ∧ inp.cfg.runMode = .EXTERNAL ∧ inp.cfg.blowOffDmaData = false ∧
            tmsg.dest = 0xff ∧ tmsg.isTrigger = true := by
        rw [hblow, hmode, hact, hactive]
        by_cases hnone : s.event.isNone = true
        · simp only [hnone, if_true]
          tauto
        · simp [hnone]
      by_cases hstart : s.timingSet = true ∧ s.event.isNone = true ∧
          inp.cfg.runMode = .EXTERNAL ∧ inp.cfg.blowOffDmaData = false ∧ tmsg.dest = 0xff ∧
          tmsg.isTrigger = true
      · -- the message starts an event
        obtain ⟨hts, hnone, hm, hb, hdest, htrg⟩ := hstart
        rw [if_pos (hcond.mpr ⟨hnone, hm, hb, hdest, htrg⟩)] at hread
        obtain ⟨s', σ', hrun, hinv, hret, hrecv', hmode', hblow', htight⟩ :=
          hsel.serviceTiming (by rw [hev]; exact Option.isNone_iff_eq_none.mp hnone)
            (by rw [RxState.eventIds, hev, hpost]; exact hnew) hread
        have hwin : s.hwWindow inp = some (triggerWindow inp.cfg tmsg.timestamp) := by
          unfold RxState.hwWindow
          rw [htmsg]
          exact if_pos ⟨hts, hnone, hm, hb, hdest, htrg⟩
        rw [hset, hts]
        rw [hmem] at hret
        refine ⟨s', σ', hrun, hinv, hret, hrecv'.trans hrecv, hmode', hblow', ?_, ?_⟩
        · intro hw
          rw [hwin] at hw
          cases hw
        · intro w hw
          rw [hwin] at hw
          cases hw
          refine ⟨by rw [hmode', hmode, if_pos hnone, hm], fun d hback => htight d ?_⟩
          rwa [RxState.putsBackAlone_congr hmem]
      · -- nothing is started
        have hwin : s.hwWindow inp = none := by
          unfold RxState.hwWindow
          rw [htmsg]
          exact if_neg hstart
        rw [hwin]
        cases hts : s.timingSet with
        | false =>
            rw [hset, hts]
            exact ⟨s.select inp, σ, rfl, hsel, hpre, hrecv, rfl, rfl,
              fun _ => ⟨hmem, hev, hpost⟩, by simp⟩
        | true =>
            rw [if_neg] at hread
            · rw [hset, hts]
              dsimp only
              unfold RxState.serviceTiming
              rw [hread]
              exact ⟨_, σ, rfl, hsel.congr rfl rfl rfl rfl rfl rfl rfl, hpre, hrecv, rfl,
                rfl, fun _ => ⟨hmem, hev, hpost⟩, by simp⟩
            · exact fun hc => hstart ⟨hts, hcond.mp hc⟩

/-- The packet is freed, kept, or already on a list of the event, as its
verdict says. -/
theorem settle {closed : Dest → Bool} {d : Dest} {v : Verdict}
    (h : Inv bCount s σ (if closed d = false ∧ v.keeps = true then none else some i))
    (ht : closed d = true ∨ v = .late → Tight s.mem.links (.latency d) (σ (.latency d))) :
    ∃ s' σ', s.settle i d (actionOf closed d v) = .ok s' ∧ Inv bCount s' σ' none := by
  unfold RxState.settle
  by_cases hfree : closed d = false ∧ v = .early
  · rw [if_pos ((actionOf_free closed d v).mpr hfree)]
    rw [if_neg (by rw [hfree.2]; simp)] at h
    exact ⟨_, σ, rfl, h.free⟩
  rw [if_neg (mt (actionOf_free closed d v).mp hfree)]
  by_cases hkeep : closed d = true ∨ v = .late
  · rw [if_pos ((actionOf_addToLatency closed d v).mpr hkeep)]
    rw [if_neg (by rcases hkeep with hc | rfl <;> simp [*])] at h
    obtain ⟨mem, σ', hrun, hinv⟩ := h.replace (ht hkeep)
    simp only [hrun, bind, Except.bind]
    exact ⟨_, σ', rfl, hinv⟩
  · rw [if_neg (mt (actionOf_addToLatency closed d v).mp hkeep)]
    refine ⟨s, σ, rfl, ?_⟩
    rwa [if_pos] at h
    cases v <;> simp_all

/-- **Disposed of.** The packet in hand is evaluated and put where it belongs,
if the latency list is tight should it go there. -/
theorem dispatch (h : Inv bCount s σ (some i)) {d : Dest}
    (hok : Tight s.mem.links (.latency d) (σ (.latency d)) ∨
      ∃ ev, s.event = some ev ∧ ev.ctbs &&& ctbMask d ≠ 0 ∧ packetVerdict s.mem ev i ≠ .late) :
    ∃ s' σ', s.dispatch bCount i d = .ok s' ∧ Inv bCount s' σ' none := by
  unfold RxState.dispatch
  have hact := h.active
  cases hev : s.event with
  | none =>
      have ht := hok.resolve_right (by rintro ⟨ev, hev', -⟩; rw [hev] at hev'; cases hev')
      obtain ⟨mem, σ', hrun, hinv⟩ := h.replace ht
      rw [hev, Option.isSome_none] at hact
      rw [if_neg (by simp [hact])]
      simp only [hrun, bind, Except.bind]
      exact ⟨_, σ', rfl, hinv.congr rfl rfl rfl hev.symm rfl rfl rfl⟩
  | some ev =>
      rw [hev, Option.isSome_some] at hact
      obtain ⟨closed, hb⟩ := h.building ev hev
      obtain ⟨v, hv⟩ : ∃ v, packetVerdict s.mem ev i = v := ⟨_, rfl⟩
      obtain ⟨mem, ev', hrun, hb', howned, hid, hrem, hblnk⟩ :=
        h.owned.evaluate hb (Set.mem_univ d) hv
      have hlat : ∀ d', offered ev.id σ closed d i v (.latency d') = σ (.latency d') := by
        intro d'
        unfold offered
        split <;> simp
      have hids : ({ s with mem, event := some ev' } : RxState).eventIds = s.eventIds := by
        rw [RxState.eventIds, RxState.eventIds, hev]
        simp [hid]
      have hstep : Inv bCount { s with mem, event := some ev' } (offered ev.id σ closed d i v)
          (if closed d = false ∧ v.keeps = true then none else some i) := by
        refine ⟨by rwa [hids], ⟨?_, ?_⟩, hact, ?_, by rw [hids]; exact h.ids⟩
        · intro d'
          rw [hlat]
          exact hrem ▸ h.depths.sum d'
        · intro d'
          exact hrem ▸ h.depths.remaining d'
        · rintro _ ⟨⟩
          rw [hids]
          exact ⟨_, hb'⟩
      -- a packet that goes to the latency list finds it tight
      have ht : closed d = true ∨ v = .late →
          Tight mem.links (.latency d) (offered ev.id σ closed d i v (.latency d)) := by
        intro hkeep
        rw [hlat]
        unfold Tight
        rw [hblnk]
        refine hok.resolve_right ?_
        rintro ⟨ev2, hev2, hpend, hlate⟩
        rw [hev] at hev2
        cases hev2
        rcases hkeep with hc | hc
        · exact hpend ((hb.ctbs_and d).mpr hc)
        · exact hlate (hv.trans hc)
      rw [if_pos hact]
      simp only [hrun, bind, Except.bind]
      split
      · obtain ⟨s2, hrun2, hinv2, hmem2, -⟩ := Inv.post
          (s := { s with mem, event := some ev' })
          (hstep.congr rfl rfl rfl rfl hact.symm rfl rfl)
        simp only [hrun2]
        refine hinv2.settle (fun hkeep => ?_)
        rw [show s2.rearm.mem = mem from hmem2]
        exact ht hkeep
      · exact hstep.settle ht

/-- The loop body returns and keeps the invariant, or divides by a period of
zero. -/
def Returns (bCount : Nat) (cfg : Config) (r : Except Stop RxState) : Prop :=
  (∃ s' σ', r = .ok s' ∧ Inv bCount s' σ' none) ∨ cfg.period = 0 ∧ r = .error .trap

/-- What the condition on an iteration says of the state in which its packet is
looked at. -/
structure DataOk (s : RxState) (σ : Head → List Nat) (cfg : Config) (d : DataMsg)
    (dest : Dest) : Prop where
  soft : ∀ t, s.runMode = .SOFTWARE → s.event = none →
    SoftTrigger.check d.tsRange cfg.period = .ok t → 0 ≤ t →
    ¬ s.putsBackAlone (triggerWindow cfg t.toNat) dest ∧
      ¬ (s.closedBy (triggerWindow cfg t.toNat) 0 ∧ s.closedBy (triggerWindow cfg t.toNat) 1)
  idle : (∀ t, s.runMode = .SOFTWARE → s.event = none →
      SoftTrigger.check d.tsRange cfg.period = .ok t → ¬ 0 ≤ t) →
    Tight s.mem.links (.latency dest) (σ (.latency dest)) ∨
      ∃ ev, s.event = some ev ∧ ev.ctbs &&& ctbMask dest ≠ 0 ∧
        verdict ev.limits d.tsRange ≠ .late

/-- Filling in the body of the buffer in hand does not concern the lists. -/
theorem fillBody {d : DataMsg} (h : Inv bCount s σ (some d.index)) :
    Inv bCount (s.fillBody d) σ (some d.index) ∧
      (∀ w dest, (s.fillBody d).putsBackAlone w dest ↔ s.putsBackAlone w dest) ∧
      (∀ w dest, (s.fillBody d).closedBy w dest ↔ s.closedBy w dest) ∧
      ∀ ev, packetVerdict (s.fillBody d).mem ev d.index = verdict ev.limits d.tsRange := by
  have hnodes : ∀ dest, (s.fillBody d).latencyNodes dest = s.latencyNodes dest := fun _ => rfl
  have hv : ∀ w dest, ∀ y ∈ s.latencyNodes dest,
      (s.fillBody d).nodeVerdict w y = s.nodeVerdict w y := by
    intro w dest y hy
    rw [h.latencyNodes] at hy
    obtain ⟨n, hn, rfl⟩ := List.mem_map.mp hy
    have hne : n ≠ d.index := by
      rintro rfl
      exact h.owned.hand_fresh d.index rfl _ (latency_mem_headsOf _ dest) hn
    unfold RxState.nodeVerdict Memory.tsRange RxState.fillBody Memory.setTimeRange
    simp [hne]
  have hleft : ∀ w dest, leftover ((s.fillBody d).nodeVerdict w) (s.latencyNodes dest) =
      leftover (s.nodeVerdict w) (s.latencyNodes dest) := by
    intro w dest
    simpa using leftover_map (f := id) (hv w dest)
  refine ⟨h.congr rfl rfl rfl rfl rfl rfl rfl, ?_, ?_, ?_⟩
  · intro w dest
    unfold RxState.putsBackAlone
    rw [hnodes, hleft]
    refine exists_congr fun c => and_congr_right fun hc => ?_
    have hmem : c ∈ s.latencyNodes dest :=
      mem_scan.mpr (.inr (.inr (by rw [hc]; exact List.mem_singleton_self c)))
    rw [hv w dest c hmem]
  · intro w dest
    unfold RxState.closedBy
    rw [hnodes, show closed ((s.fillBody d).nodeVerdict w) (s.latencyNodes dest) =
      closed (s.nodeVerdict w) (s.latencyNodes dest) by
        simpa using closed_map (f := id) (hv w dest)]
  · intro ev
    simp [packetVerdict, RxState.fillBody, Memory.setTimeRange]

/-- **A good packet.** It may start an event by itself; then it is disposed of. -/
theorem goodData {d : DataMsg} (h : Inv bCount s σ (some d.index)) {cfg : Config} {alloc : Nat}
    (hnew : s.runMode = .SOFTWARE → alloc ∉ s.eventIds) {dest : Dest}
    (hok : DataOk s σ cfg d dest) : Returns bCount cfg (s.goodData bCount cfg alloc d dest) := by
  obtain ⟨hfill, hback, hclosed, hverdict⟩ := h.fillBody
  -- no event is started: the packet is disposed of as it is
  have hquiet : (∀ t, s.runMode = .SOFTWARE → s.event = none →
      SoftTrigger.check d.tsRange cfg.period = .ok t → ¬ 0 ≤ t) →
      Returns bCount cfg ((s.fillBody d).dispatch bCount d.index dest) := by
    intro hno
    left
    refine hfill.dispatch ((hok.idle hno).imp_right ?_)
    rintro ⟨ev, hev, hpend, hlate⟩
    exact ⟨ev, hev, hpend, by rwa [hverdict]⟩
  unfold RxState.goodData RxState.softTrigger
  by_cases hmode : (s.fillBody d).runMode = .SOFTWARE ∧ (s.fillBody d).trgActive = false
  · rw [if_pos hmode]
    by_cases hperiod : cfg.period = 0
    · refine .inr ⟨hperiod, ?_⟩
      unfold SoftTrigger.check
      rw [if_pos hperiod]
      rfl
    obtain ⟨t, ht⟩ : ∃ t, SoftTrigger.check d.tsRange cfg.period = .ok t := by
      unfold SoftTrigger.check
      rw [if_neg hperiod]
      split <;> exact ⟨_, rfl⟩
    simp only [ht, bind, Except.bind]
    have hnone : s.event = none := by
      rw [← Option.isNone_iff_eq_none, h.isNone_event, show s.trgActive = false from hmode.2]
      rfl
    by_cases hpos : 0 ≤ t
    · -- the packet starts an event, which the latency lists do not complete
      rw [if_pos hpos]
      obtain ⟨hback', hopen'⟩ := hok.soft t hmode.1 hnone ht hpos
      obtain ⟨mem, ev', hrun, hopen, -, htight⟩ := hfill.openEvent hnone
        (newEvent cfg alloc t.toNat (s.fillBody d).softTriggerCnt) (hnew hmode.1)
      have hall : allClosed (fun e => closed (packetVerdict (s.fillBody d).mem
          (newEvent cfg alloc t.toNat (s.fillBody d).softTriggerCnt)) (σ (.latency e))) =
          false := by
        rw [← Bool.not_eq_true, allClosed, Bool.and_eq_true, ← hfill.closedBy_iff,
          ← hfill.closedBy_iff, hclosed, hclosed]
        exact hopen'
      simp only [hrun, hall, Bool.false_eq_true, if_false]
      rw [if_neg (by decide)]
      dsimp only
      rw [if_neg (by simp)]
      have hinv : Inv bCount { s.fillBody d with
          mem, event := some ev', trgActive := true
          softTriggerCnt := inc32 (s.fillBody d).softTriggerCnt } _ _ :=
        hopen.congr rfl rfl rfl rfl rfl rfl rfl
      refine .inl (hinv.dispatch (.inl (htight dest ?_)))
      rwa [hback]
    · rw [if_neg hpos]
      refine hquiet fun t' _ _ ht' => ?_
      rw [ht] at ht'
      cases ht'
      exact hpos
  · rw [if_neg hmode]
    refine hquiet fun t' hm hnone _ => absurd ⟨hm, ?_⟩ hmode
    show s.trgActive = false
    rw [h.active, hnone]
    rfl

/-- **A packet.** It is freed, or it is a good one. -/
theorem serviceData {d : DataMsg} (h : Inv bCount s σ (some d.index)) {cfg : Config}
    {alloc : Nat} (hnew : s.runMode = .SOFTWARE → alloc ∉ s.eventIds)
    (hok : ∀ dest : Dest, d.dest = dest.val → s.blowOffDmaData = false →
      d.lastUser &&& TUserEOFE = 0 → (d.trailer &&& 0xffffff).toNat = d.rxSize →
      DataOk s σ cfg d dest) :
    Returns bCount cfg (s.serviceData bCount cfg alloc d) := by
  unfold RxState.serviceData
  split
  · exact .inl ⟨_, σ, rfl, h.free⟩
  -- listening to the timing channel again concerns nothing else
  obtain ⟨h1, hmem, hev, hpost, hmode, hblow⟩ : Inv bCount s.relisten σ (some d.index) ∧
      s.relisten.mem = s.mem ∧ s.relisten.event = s.event ∧ s.relisten.posted = s.posted ∧
      s.relisten.runMode = s.runMode ∧ s.relisten.blowOffDmaData = s.blowOffDmaData := by
    unfold RxState.relisten
    split
    · exact ⟨h.congr rfl rfl rfl rfl rfl rfl rfl, rfl, rfl, rfl, rfl, rfl⟩
    · exact ⟨h, rfl, rfl, rfl, rfl, rfl⟩
  have hcount : Inv bCount (s.relisten.countPacket d) σ (some d.index) :=
    h1.congr rfl rfl rfl rfl rfl rfl rfl
  have herr : Inv bCount (s.relisten.countPacket d).countError σ (some d.index) :=
    hcount.congr rfl rfl rfl rfl rfl rfl rfl
  dsimp only
  split
  · next hserve =>
      split
      · exact .inl ⟨_, σ, rfl, herr.free⟩
      · next huser =>
          split
          · exact .inl ⟨_, σ, rfl, herr.free⟩
          · next hsize =>
              have hdata := hok ⟨d.dest, hserve.1⟩ rfl (hblow ▸ hserve.2) (not_not.mp huser)
                (not_not.mp hsize)
              refine hcount.goodData ?_ ⟨?_, ?_⟩
              · intro hm
                show alloc ∉ s.relisten.eventIds
                rw [RxState.eventIds, hev, hpost]
                exact hnew (hmode ▸ hm)
              · intro t hm hn hc ht
                have hsoft := hdata.soft t (hmode ▸ hm) (hev ▸ hn) hc ht
                rwa [← RxState.putsBackAlone_congr (s := s) hmem,
                  ← RxState.closedBy_congr (s := s) hmem,
                  ← RxState.closedBy_congr (s := s) hmem] at hsoft
              · intro hno
                have hidle := hdata.idle fun t hm hn => hno t (hmode.trans hm) (hev.trans hn)
                rw [← hmem, ← hev] at hidle
                exact hidle
  · exact .inl ⟨_, σ, rfl, h1.free⟩

/-- **One iteration.** Under the condition it returns and keeps the invariant. -/
theorem rxIter (h : Inv bCount s σ none) {inp : RxInput} (hin : InputOk bCount s inp)
    (hok : IterOk s inp) : Returns bCount inp.cfg (s.rxIter bCount inp) := by
  unfold RxState.rxIter
  split
  swap
  · exact .inl ⟨s, σ, rfl, h⟩
  obtain ⟨s1, σ1, hrun, h1, hret, hrecv, hmode, hblow, hquiet, hstart⟩ := h.timingHalf hin.alloc
  obtain ⟨-, -, -, -, -, -, hselMode, hselBlow⟩ := s.select_spec inp
  rw [hselMode] at hmode
  rw [hselBlow] at hblow
  simp only [hrun, bind, Except.bind]
  unfold RxState.dataHalf
  cases hd : inp.data with
  | none => exact .inl ⟨s1, σ1, rfl, h1⟩
  | some d =>
      obtain ⟨hlt, hout⟩ := hin.index d hd
      have hout1 : ¬ s1.Outstanding d.index := by
        unfold RxState.Outstanding at hout ⊢
        have hle := hret.sublist.count_le d.index
        rw [hrecv]
        omega
      have h2 := h1.receive hout1 hlt
      dsimp only
      cases hw : s.hwWindow inp with
      | none =>
          obtain ⟨hmem, hev, hpost⟩ := hquiet hw
          refine h2.serviceData ?_ ?_
          · intro _
            show inp.alloc ∉ s1.eventIds
            rw [RxState.eventIds, hev, hpost]
            exact hin.alloc
          intro dest hdest hb huser hsize
          have hpk := hok d dest hd ⟨hdest ▸ dest.isLt, by rw [← hblow]; exact hb, huser, hsize⟩
            hdest
          refine ⟨?_, ?_⟩
          · intro t hm hnone hcheck hpos
            have hnone : s.event = none := hev.symm.trans hnone
            have hm : s1.runMode = .SOFTWARE := hm
            rw [hmode, hnone, Option.isNone_none, if_pos rfl] at hm
            have hsw : s.swWindow inp d = some (triggerWindow inp.cfg t.toNat) := by
              unfold RxState.swWindow
              rw [if_pos ⟨by rw [hnone]; rfl, hm⟩, hcheck]
              exact if_pos hpos
            have hsoft := hpk.software _ hsw
            rwa [← RxState.putsBackAlone_congr hmem,
              ← RxState.closedBy_congr hmem,
              ← RxState.closedBy_congr hmem] at hsoft
          · intro hno
            by_cases hst : s.stale dest
            · have hsw : s.swWindow inp d = none := by
                unfold RxState.swWindow
                split
                · next hm =>
                    have hnone := Option.isNone_iff_eq_none.mp hm.1
                    split
                    · next t hcheck =>
                        refine if_neg (hno t ?_ (hev.trans hnone) hcheck)
                        show s1.runMode = _
                        rw [hmode, if_pos hm.1, hm.2]
                    · rfl
                · rfl
              right
              obtain ⟨ev, hev', hok'⟩ := hpk.idle hw hsw hst
              exact ⟨ev, hev.trans hev', hok'⟩
            · left
              refine h2.tight_of_not_stale ?_
              unfold RxState.stale at hst ⊢
              rwa [← hmem] at hst
      | some w =>
          obtain ⟨hm, htight⟩ := hstart w hw
          have hnot : ∀ {p : Prop}, s1.runMode = .SOFTWARE → p := by
            intro p hsw
            rw [hm] at hsw
            cases hsw
          refine h2.serviceData hnot ?_
          intro dest hdest hb huser hsize
          have hpk := hok d dest hd ⟨hdest ▸ dest.isLt, by rw [← hblow]; exact hb, huser, hsize⟩
            hdest
          exact ⟨fun _ hsw => hnot hsw, fun _ => .inl (htight dest (hpk.hardware w hw))⟩

/-- The loop is entered with the invariant. -/
theorem start (bCount : Nat) (body : Nat → FrameBuffer) (cfg : Config) :
    Inv bCount (RxState.start body cfg) (fun _ => []) none := by
  have hempty : ∀ i, ¬ HeldBy (headsOf (RxState.start body cfg).eventIds) (fun _ => []) none i := by
    rintro i (⟨h, -, hmem⟩ | hmem)
    · exact absurd hmem List.not_mem_nil
    · cases hmem
  refine ⟨⟨⟨?_, ?_, ?_⟩, latency_mem_headsOf _, ?_, ?_, ?_⟩, ⟨?_, ?_⟩, rfl, ?_, ?_⟩
  · intro h _
    exact ⟨rfl, List.nodup_singleton _⟩
  · intro h _ h' _ n hn
    exact absurd hn List.not_mem_nil
  · intro h _
    exact .inl rfl
  · intro i
    exact ⟨fun hheld => absurd hheld (hempty i), fun _ => rfl⟩
  · rintro i ⟨⟩
  · intro i hheld
    exact absurd hheld (hempty i)
  · intro d
    rfl
  · intro d
    show (0 : Int) ≤ LatencyList.Depth
    decide
  · rintro ev ⟨⟩
  · exact List.nodup_nil

theorem reaches_iff (h : Inv bCount s σ none) {hd : Head} (hl : hd ∈ headsOf s.eventIds)
    (i : Nat) : Reaches s.mem hd i ↔ i ∈ σ hd := by
  rw [Reaches, (h.owned.store.holds hd hl).chain.iterate_iff, List.mem_cons,
    or_iff_right Sum.inr_ne_inl, inr_mem_cells]

theorem outstanding_iff (h : Inv bCount s σ none) (i : Nat) :
    s.Outstanding i ↔ ∃ hd ∈ headsOf s.eventIds, i ∈ σ hd := by
  obtain ⟨h1, h0⟩ := h.owned.ledger i
  unfold RxState.Outstanding
  constructor
  · intro hlt
    by_contra hno
    have heq := h0 (by rintro (hheld | hhand); exacts [hno hheld, by cases hhand])
    omega
  · intro hheld
    have heq := h1 (.inl hheld)
    omega

/-- The invariant gives the property. -/
theorem conserved (h : Inv bCount s σ none) : Conserved s where
  owned i hout := by
    obtain ⟨hd, hl, hmem⟩ := (h.outstanding_iff i).mp hout
    refine ⟨hd, ⟨hl, (h.reaches_iff hl i).mpr hmem⟩, ?_⟩
    rintro hd' ⟨hl', hreach⟩
    exact h.owned.store.disjoint hd' hl' hd hl i ((h.reaches_iff hl' i).mp hreach) hmem
  reached hd hl i hreach := (h.outstanding_iff i).mpr ⟨hd, hl, (h.reaches_iff hl i).mp hreach⟩
  simple hd hl := ⟨_, h.owned.store.holds hd hl⟩
  ids := h.ids
  returned i := by
    obtain ⟨h1, h0⟩ := h.owned.ledger i
    by_cases hheld : HeldBy (headsOf s.eventIds) σ none i
    · have heq := h1 hheld
      omega
    · exact (h0 hheld).ge
  depth d := by
    have hsum := h.depths.sum d
    have hrem := h.depths.remaining d
    refine ⟨_, h.owned.store.holds _ (latency_mem_headsOf _ d), ?_, hrem, ?_⟩
    · simpa [cells] using hsum
    · omega

end Inv

/-! ## Runs -/

/-- Every state reached under the condition satisfies the invariant. -/
theorem Reachable.inv {bCount : Nat} {body : Nat → FrameBuffer} {cfg : Config} {s : RxState}
    (hr : Reachable bCount body cfg IterOk s) : ∃ σ, Inv bCount s σ none := by
  induction hr with
  | start => exact ⟨_, Inv.start bCount body cfg⟩
  | iter _ hin hok hrun ih =>
      obtain ⟨σ, hinv⟩ := ih
      rcases hinv.rxIter hin hok with ⟨s', σ', hrun', hinv'⟩ | ⟨-, herr⟩
      · rw [hrun'] at hrun
        cases hrun
        exact ⟨σ', hinv'⟩
      · rw [herr] at hrun
        cases hrun

/-- **Conservation.** In a run whose iterations all meet the condition every
state conserves the buffers, and the next iteration that meets it returns. -/
theorem rx_conserves {bCount : Nat} {body : Nat → FrameBuffer} {cfg : Config} {s : RxState}
    (hr : Reachable bCount body cfg IterOk s) :
    Conserved s ∧ ∀ inp, InputOk bCount s inp → IterOk s inp → inp.cfg.period ≠ 0 →
      ∃ s', s.rxIter bCount inp = .ok s' := by
  obtain ⟨σ, hinv⟩ := hr.inv
  refine ⟨hinv.conserved, fun inp hin hok hperiod => ?_⟩
  rcases hinv.rxIter hin hok with ⟨s', -, hrun, -⟩ | ⟨hzero, -⟩
  · exact ⟨s', hrun⟩
  · exact absurd hzero hperiod

/-- The state after an iteration that returns. -/
def RxState.next (bCount : Nat) (s : RxState) (inp : RxInput) : RxState :=
  match s.rxIter bCount inp with
  | .ok s' => s'
  | .error _ => s

theorem Reachable.next {bCount : Nat} {body : Nat → FrameBuffer} {cfg : Config}
    {ok : RxState → RxInput → Prop} {s : RxState} {inp : RxInput}
    (hr : Reachable bCount body cfg ok s) (hin : InputOk bCount s inp) (hok : ok s inp)
    (hret : (s.rxIter bCount inp).isOk = true) :
    Reachable bCount body cfg ok (s.next bCount inp) := by
  refine hr.iter hin hok ?_
  unfold RxState.next
  cases hrun : s.rxIter bCount inp with
  | ok s' => rfl
  | error e =>
      rw [hrun] at hret
      cases hret

/-- Hardware triggers, with a window of 1000 ticks around the trigger. -/
def hwConfig : Config := ⟨.EXTERNAL, false, 1000, 1000, 1⟩

/-- A good packet. -/
def packetInput (cfg : Config) (index dest : Nat) (time : Span Nat) : RxInput where
  cfg
  timing := none
  data := some ⟨index, dest, 0, 8192, 8192, time⟩
  alloc := index

/-- A good packet of contributor 0. -/
def goodPacket (index beg : Nat) : RxInput :=
  packetInput hwConfig index 0 ⟨beg, beg + PER_FRAME⟩

def noBody : Nat → FrameBuffer := fun _ => ⟨⟨0, 0⟩, 0, 0⟩

def idleStart : RxState := .start noBody hwConfig

/-- A good packet meets the condition when the tail link is up to date. -/
theorem iterOk_packetInput {s : RxState} {index : Nat} {time : Span Nat} {dest : Dest}
    (hst : ¬ s.stale dest) : IterOk s (packetInput hwConfig index dest.val time) := by
  rintro d dest' hd - hdest
  cases hd
  obtain rfl : dest = dest' := Fin.ext hdest
  refine ⟨?_, ?_, fun _ _ h => absurd h hst⟩
  · intro w hw
    cases hw
  · intro w hw
    rw [RxState.swWindow, if_neg (by simp [packetInput, hwConfig])] at hw
    cases hw

/-- A trigger alone has no packet to lose. -/
theorem iterOk_of_data_eq_none {s : RxState} {inp : RxInput} (h : inp.data = none) :
    IterOk s inp := by
  rintro d dest hd
  rw [h] at hd
  cases hd

theorem inputOk_of_data_eq_none {s : RxState} {inp : RxInput} (h : inp.data = none)
    (hnew : inp.alloc ∉ s.eventIds) : InputOk 4 s inp := by
  refine ⟨fun d hd => ?_, hnew⟩
  rw [h] at hd
  cases hd

theorem inputOk_packetInput {s : RxState} {cfg : Config} {index dest : Nat} {time : Span Nat}
    (hlt : index < 4) (hout : ¬ s.mem.returned.count index < s.received.count index)
    (hnew : index ∉ s.eventIds) : InputOk 4 s (packetInput cfg index dest time) :=
  ⟨by rintro d ⟨⟩; exact ⟨hlt, hout⟩, hnew⟩

theorem reachable_onePacket (ok : RxState → RxInput → Prop)
    (hok : ok idleStart (goodPacket 1 100000)) :
    Reachable 4 noBody hwConfig ok (idleStart.next 4 (goodPacket 1 100000)) :=
  Reachable.start.next
    (inputOk_packetInput (by decide) (by decide +kernel) (by decide +kernel)) hok
    (by decide +kernel)

/-- A trigger whose window reaches into the packets that come next. -/
def nextTrigger : RxInput where
  cfg := hwConfig
  timing := some ⟨0xff, 125500, 0, 0x88⟩
  data := none
  alloc := 4

/-- A packet of each contributor, and a trigger that takes both. -/
def seededRun : RxState :=
  ((idleStart.next 4 (packetInput hwConfig 1 0 ⟨100000, 125600⟩)).next 4
    (packetInput hwConfig 2 1 ⟨100000, 125600⟩)).next 4 nextTrigger

/-- The next packet of each contributor, which complete the event. -/
def completedRun : RxState :=
  (seededRun.next 4 (packetInput hwConfig 3 0 ⟨125600, 151200⟩)).next 4
    (packetInput hwConfig 0 1 ⟨125600, 151200⟩)

theorem reachable_completedRun : Reachable 4 noBody hwConfig IterOk completedRun := by
  have hstale (s : RxState) (d : Dest)
      (h : s.mem.links.flnk (.inl (.latency d)) = .inl (.latency d) ∨
        s.mem.links.blnk (.inl (.latency d)) ≠ .inl (.latency d)) : ¬ s.stale d := fun hs =>
    h.elim hs.2 (absurd hs.1)
  have hseeded : Reachable 4 noBody hwConfig IterOk seededRun := by
    refine Reachable.next (Reachable.next (Reachable.start.next
      (inputOk_packetInput (by decide) ?_ ?_) (iterOk_packetInput (hstale _ 0 (.inl rfl))) ?_)
      (inputOk_packetInput (by decide) ?_ ?_) (iterOk_packetInput (hstale _ 1 (.inl ?_))) ?_)
      (inputOk_of_data_eq_none rfl ?_) (iterOk_of_data_eq_none rfl) ?_
    all_goals decide +kernel
  refine Reachable.next (Reachable.next hseeded
    (inputOk_packetInput (by decide) ?_ ?_) (iterOk_packetInput (hstale _ 0 (.inl ?_))) ?_)
    (inputOk_packetInput (by decide) ?_ ?_) (iterOk_packetInput (hstale _ 1 (.inl ?_))) ?_
  all_goals decide +kernel

/-- Two packets of each contributor, with a trigger between: its event is posted, and the next
trigger is taken. -/
theorem rx_conserves_completedRun :
    Conserved completedRun ∧ completedRun.eventIds = [4] ∧ completedRun.event = none ∧
      ∃ s', completedRun.rxIter 4 { nextTrigger with alloc := 5 } = .ok s' := by
  obtain ⟨hconserved, hstep⟩ := rx_conserves reachable_completedRun
  exact ⟨hconserved, by decide +kernel, by decide +kernel,
    hstep _ (inputOk_of_data_eq_none rfl (by decide +kernel)) (iterOk_of_data_eq_none rfl)
      (by decide)⟩

theorem not_reaches {m : Memory} {h : Head} {i : Nat} (xs : List Addr)
    (hc : Chain m.links.flnk (.inl h) xs (.inl h)) (hi : .inr i ∉ .inl h :: xs) :
    ¬ Reaches m h i := fun hreach => hi (hc.iterate_iff.mp hreach)

/-- A trigger whose window ends before the packets on the latency lists. -/
def earlyTrigger : RxInput where
  cfg := hwConfig
  timing := some ⟨0xff, 50000, 0, 0x88⟩
  data := none
  alloc := 0

/-- A packet, a trigger that puts it back, and another packet. -/
def lossyRun : RxState :=
  ((idleStart.next 4 (goodPacket 1 100000)).next 4 earlyTrigger).next 4 (goodPacket 2 125600)

/-- **A lost buffer.** Without the condition, buffer 1 is outstanding but on no
list after three iterations. -/
theorem rx_loses_buffer :
    Reachable 4 noBody hwConfig (fun _ _ => True) lossyRun ∧
      lossyRun.Outstanding 1 ∧ (∀ h ∈ headsOf lossyRun.eventIds, ¬ Reaches lossyRun.mem h 1) ∧
      ¬ Conserved lossyRun := by
  have hr : Reachable 4 noBody hwConfig (fun _ _ => True) lossyRun := by
    refine Reachable.next (Reachable.next (reachable_onePacket _ trivial) ⟨?_, ?_⟩ trivial ?_)
      (inputOk_packetInput (by decide) ?_ ?_) trivial ?_
    · rintro d ⟨⟩
    all_goals decide +kernel
  have hout : lossyRun.Outstanding 1 := by
    unfold RxState.Outstanding
    decide +kernel
  have hlost : ∀ h ∈ headsOf lossyRun.eventIds, ¬ Reaches lossyRun.mem h 1 := by
    have hnot := @not_reaches lossyRun.mem
    intro h hh
    cases h with
    | latency d =>
        rcases dest_cases d with rfl | rfl
        · exact hnot [.inr 2] (by decide +kernel) (by simp)
        · exact hnot [] (by decide +kernel) (by simp)
    | contrib e d =>
        obtain rfl : e = 0 := by
          have he := contrib_mem_headsOf.mp hh
          rw [show lossyRun.eventIds = [0] by decide +kernel] at he
          simpa using he
        rcases dest_cases d with rfl | rfl
        · exact hnot [] (by decide +kernel) (by simp)
        · exact hnot [] (by decide +kernel) (by simp)
  refine ⟨hr, hout, hlost, fun hc => ?_⟩
  obtain ⟨h, ⟨hh, hreach⟩, -⟩ := hc.owned 1 hout
  exact hlost h hh hreach

/-- Software triggers each million ticks. -/
def swConfig : Config := ⟨.SOFTWARE, false, 1000, 1000, 1000000⟩

/-- Two packets that together complete the event of the third, which is its
trigger. -/
def triggeredRun : RxState :=
  (((RxState.start noBody swConfig).next 4 (packetInput swConfig 1 0 ⟨1000100, 1025700⟩)).next 4
    (packetInput swConfig 2 1 ⟨1000100, 1025700⟩)).next 4
    (packetInput swConfig 3 0 ⟨990000, 1015600⟩)

/-- The other path: the packet that is a software trigger is lost when the
latency lists complete its event. -/
theorem rx_loses_trigger_packet :
    Reachable 4 noBody swConfig (fun _ _ => True) triggeredRun ∧ triggeredRun.Outstanding 3 ∧
      ∀ h ∈ headsOf triggeredRun.eventIds, ¬ Reaches triggeredRun.mem h 3 := by
  refine ⟨?_, ?_, ?_⟩
  · refine Reachable.next (Reachable.next (Reachable.start.next
      (inputOk_packetInput (by decide) ?_ ?_) trivial ?_)
      (inputOk_packetInput (by decide) ?_ ?_) trivial ?_)
      (inputOk_packetInput (by decide) ?_ ?_) trivial ?_
    all_goals decide +kernel
  · unfold RxState.Outstanding
    decide +kernel
  · have hnot := @not_reaches triggeredRun.mem
    intro h hh
    cases h with
    | latency d =>
        rcases dest_cases d with rfl | rfl
        · exact hnot [] (by decide +kernel) (by simp)
        · exact hnot [] (by decide +kernel) (by simp)
    | contrib e d =>
        obtain rfl : e = 3 := by
          have he := contrib_mem_headsOf.mp hh
          rw [show triggeredRun.eventIds = [3] by decide +kernel] at he
          simpa using he
        rcases dest_cases d with rfl | rfl
        · exact hnot [.inr 1] (by decide +kernel) (by simp)
        · exact hnot [.inr 2] (by decide +kernel) (by simp)

end ProtoDune.Daq
