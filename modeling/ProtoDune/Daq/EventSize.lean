import Mathlib.Data.List.Range
import ProtoDune.Daq.TxRecord
import ProtoDune.Daq.Ranges

/-!
# The size of an event

How many packets an event gets follows from its window and the times of the packets.
Nothing compares it with the number of I/O vectors of a message.

Main results:

* `Gapless.length_selected` — the number of packets of a stream without gaps.
* `shortWindow_packets` — a bound on the window that is always short enough.
* `PostedLists.fits_iff` — when the message of an event fits.
* `eventSize_iff` — the same for every event that is built.
-/

namespace ProtoDune.Daq

open WindowSelect TimingClockTicks

/-! ## The packets of a window -/

/-- The number of packets that meet the window, of full packets without a gap: from the
one that reaches its beginning to the one that reaches its end. -/
def packetsIn (w : Span Nat) : List Packet → Nat
  | [] => 0
  | p :: _ =>
      if p.time.beg ≤ w.fin then
        (w.fin - p.time.beg - 1) / TimingClockTicks.PER_FRAME + 1
          - (w.beg - p.time.beg - 1) / TimingClockTicks.PER_FRAME
      else 0

theorem packetsIn_cons (w : Span Nat) (p : Packet) (ps : List Packet) :
    packetsIn w (p :: ps)
      = if p.time.beg ≤ w.fin then
          (w.fin - p.time.beg - 1) / TimingClockTicks.PER_FRAME + 1
            - (w.beg - p.time.beg - 1) / TimingClockTicks.PER_FRAME
        else 0 := rfl

/-- The window is not turned round, or by more than a packet. -/
def Unambiguous (w : Span Nat) : Prop :=
  w.beg ≤ w.fin ∨ w.fin + TimingClockTicks.PER_FRAME < w.beg

/-- The configured times are far below the range of a timestamp. -/
theorem triggerWindow_unambiguous (cfg : Config) (blowOff pretrigger duration period : Nat)
    {t : Nat} (ht : t < 2 ^ 64) :
    Unambiguous (triggerWindow (cfg.setConfig blowOff pretrigger duration period) t) := by
  have hpre := from_usecs_lt pretrigger
  have hpost := from_usecs_lt ((duration + 2 ^ 32 - pretrigger) % 2 ^ 32)
  unfold Unambiguous triggerWindow Config.setConfig TimingClockTicks.PER_FRAME PER_SAMPLE
  dsimp only
  omega

/-- The packet meets the window only where that is not turned round. -/
theorem Unambiguous.ordered {w : Span Nat} {p : Packet} (hw : Unambiguous w)
    (hfull : p.time.fin = p.time.beg + TimingClockTicks.PER_FRAME)
    (hin : w.beg ≤ p.time.fin ∧ p.time.beg ≤ w.fin) : w.beg ≤ w.fin := by
  rcases hw with hw | hw
  · exact hw
  · omega

namespace Gapless

variable {w : Span Nat} {p : Packet} {ps : List Packet}

/-- The first packet ended before the window: it is not counted. -/
theorem packetsIn_early (h : Gapless (p :: ps)) (hw : Unambiguous w) (hne : ps ≠ [])
    (hearly : p.time.fin < w.beg) : packetsIn w (p :: ps) = packetsIn w ps := by
  obtain ⟨q, qs, rfl⟩ := List.exists_cons_of_ne_nil hne
  have hfull := h.full p List.mem_cons_self
  have hnext := h.next
  rw [packetsIn_cons, packetsIn_cons]
  unfold Unambiguous at hw
  unfold TimingClockTicks.PER_FRAME PER_SAMPLE at *
  split_ifs <;> omega

/-- The first packet is in the window and does not reach its end: it is counted once. -/
theorem packetsIn_inside (h : Gapless (p :: ps)) (hne : ps ≠ [])
    (hin : w.beg ≤ p.time.fin ∧ p.time.beg ≤ w.fin) (hfin : p.time.fin < w.fin) :
    packetsIn w (p :: ps) = packetsIn w ps + 1 := by
  obtain ⟨q, qs, rfl⟩ := List.exists_cons_of_ne_nil hne
  have hfull := h.full p List.mem_cons_self
  have hnext := h.next
  rw [packetsIn_cons, packetsIn_cons, if_pos hin.2, if_pos (by omega)]
  unfold TimingClockTicks.PER_FRAME PER_SAMPLE at *
  omega

/-- The first packet reaches the end of the window: it is the only one. -/
theorem packetsIn_last (h : Gapless (p :: ps))
    (hin : w.beg ≤ p.time.fin ∧ p.time.beg ≤ w.fin) (hfin : w.fin ≤ p.time.fin) :
    packetsIn w (p :: ps) = 1 := by
  have hfull := h.full p List.mem_cons_self
  rw [packetsIn_cons, if_pos hin.2]
  unfold TimingClockTicks.PER_FRAME PER_SAMPLE at *
  omega

/-- **The number of packets** the event gets. -/
theorem length_selected (h : Gapless ps) (hw : Unambiguous w)
    (hclosed : closed (Packet.verdict w) ps = true) :
    (selected (Packet.verdict w) ps).length = packetsIn w ps := by
  induction ps with
  | nil => cases hclosed
  | cons p ps ih =>
      have hfull := h.full p List.mem_cons_self
      have hne : (p.verdict w).closes = false → ps ≠ [] := by
        rintro hopen rfl
        rw [closed_cons, hopen] at hclosed
        cases hclosed
      have hrest : (p.verdict w).closes = false →
          (selected (Packet.verdict w) ps).length = packetsIn w ps := by
        intro hopen
        rw [closed_cons, hopen] at hclosed
        exact ih h.tail hclosed
      rw [selected_cons]
      by_cases hin : w.beg ≤ p.time.fin ∧ p.time.beg ≤ w.fin
      · have hkeeps : (p.verdict w).keeps = true := keeps_verdict.mpr hin
        have hcl : (p.verdict w).closes = true ↔ w.fin ≤ p.time.fin :=
          closes_verdict (hw.ordered hfull hin) (Nat.le_of_lt (h.beg_lt List.mem_cons_self))
        rw [if_pos hkeeps, List.length_append, List.length_singleton]
        by_cases hfin : w.fin ≤ p.time.fin
        · rw [if_pos (hcl.mpr hfin), h.packetsIn_last hin hfin]
          rfl
        · have hopen : (p.verdict w).closes = false := by
            rw [← Bool.not_eq_true, hcl]
            exact hfin
          rw [hopen, if_neg Bool.false_ne_true, hrest hopen,
            h.packetsIn_inside (hne hopen) hin (Nat.not_le.mp hfin), Nat.add_comm]
      · have hkeeps : ¬(p.verdict w).keeps = true := fun hk => hin (keeps_verdict.mp hk)
        rw [if_neg hkeeps, List.nil_append]
        by_cases hearly : p.time.fin < w.beg
        · have hopen : (p.verdict w).closes = false := by
            rw [Packet.verdict, verdict_eq_early.mpr hearly]
            rfl
          rw [hopen, if_neg Bool.false_ne_true, hrest hopen,
            h.packetsIn_early hw (hne hopen) hearly]
        · -- it begins after the window
          have hlate : w.fin < p.time.beg := by omega
          have hcl : (p.verdict w).closes = true := by
            rw [Packet.verdict, WindowSelect.verdict, if_neg hearly,
              if_neg (Nat.not_le.mpr hlate)]
            rfl
          rw [if_pos hcl, packetsIn_cons, if_neg (Nat.not_le.mpr hlate)]
          rfl

/-- The packets the event gets are those picked. -/
theorem selected_eq_picked (h : Gapless ps) (hw : Unambiguous w) :
    selected (Packet.verdict w) ps = Daq.picked w ps := by
  by_cases hord : w.beg ≤ w.fin
  · exact selected_verdict hord fun p hp => Nat.le_of_lt (h.beg_lt hp)
  · have hnone : ∀ p ∈ ps, ¬(w.beg ≤ p.time.fin ∧ p.time.beg ≤ w.fin) := fun p hp hin =>
      hord (hw.ordered (h.full p hp) hin)
    have hpicked : Daq.picked w ps = [] := by
      rw [List.eq_nil_iff_forall_not_mem]
      exact fun p hp => hnone p ((picked_sublist w ps).subset hp) (mem_picked hp)
    rw [hpicked, List.eq_nil_iff_forall_not_mem]
    intro p hp
    have hkeeps : (p.verdict w).keeps = true := by
      simpa using (List.mem_filter.mp hp).2
    exact hnone p ((selected_sublist _ ps).subset hp) (keeps_verdict.mp hkeeps)

end Gapless

/-- A window no longer than `n` packets gets at most one more. -/
theorem packetsIn_le {w : Span Nat} (ps : List Packet) (hw : w.beg ≤ w.fin) {n : Nat}
    (hn : w.fin - w.beg ≤ n * TimingClockTicks.PER_FRAME) : packetsIn w ps ≤ n + 1 := by
  unfold packetsIn
  cases ps with
  | nil => exact Nat.zero_le _
  | cons p ps =>
      unfold TimingClockTicks.PER_FRAME PER_SAMPLE at *
      dsimp only
      split
      · omega
      · exact Nat.zero_le _

/-- Windows of up to 7168 microseconds, 14 packets, do not get too many. -/
theorem shortWindow_packets (cfg : Config) (blowOff period : Nat) {pretrigger duration t : Nat}
    (hpre : pretrigger ≤ duration) (hduration : duration ≤ 7168) (hlo : 50 * pretrigger ≤ t)
    (hhi : t + 50 * duration < 2 ^ 64) (streams : Dest → List Packet) :
    packetsIn (triggerWindow (cfg.setConfig blowOff pretrigger duration period) t) (streams 0)
      + packetsIn (triggerWindow (cfg.setConfig blowOff pretrigger duration period) t) (streams 1)
      < NIOVECS := by
  obtain ⟨w, hw⟩ : ∃ w, triggerWindow (cfg.setConfig blowOff pretrigger duration period) t = w :=
    ⟨_, rfl⟩
  have hpost : (duration + 2 ^ 32 - pretrigger) % 2 ^ 32 = duration - pretrigger := by omega
  have hp : from_usecs pretrigger = 50 * pretrigger := from_usecs_eq (by omega)
  have hd : from_usecs (duration - pretrigger) = 50 * (duration - pretrigger) :=
    from_usecs_eq (by omega)
  have hbeg : w.beg = t - 50 * pretrigger := by
    rw [← hw, triggerWindow, Config.setConfig, hp]
    dsimp only
    omega
  have hfin : w.fin = t + 50 * (duration - pretrigger) := by
    rw [← hw, triggerWindow, Config.setConfig, hpost, hd]
    dsimp only
    omega
  have hlength : w.fin - w.beg ≤ 14 * TimingClockTicks.PER_FRAME := by
    unfold TimingClockTicks.PER_FRAME PER_SAMPLE
    omega
  have h0 := packetsIn_le (streams 0) (by omega) hlength
  have h1 := packetsIn_le (streams 1) (by omega) hlength
  rw [hw]
  unfold NIOVECS
  omega

/-! ## The message of an event -/

/-- The message of a posted event fits the tables, and its lists are freed to the end. -/
structure EventFits (fuel : Nat) (m : Memory) (ev : Event) : Prop where
  message : ∃ records, txRecords fuel m ev = .ok records ∧
    (∀ r ∈ records, ∀ i ∈ r.iovecs, i < NIOVECS) ∧ ∀ r ∈ records, r.Fits
  free : ∀ d, ∃ e, freeWalk m (.inl (.contrib ev.id d)) fuel
    (m.links.flnk (.inl (.contrib ev.id d))) 0 = .ok e ∧ e ≠ .tooManyNodes

/-- Not too many packets for the I/O vectors of a message, nor too many bytes for the
length of a record. -/
structure EventBounded (w : Span Nat) (m : Memory) (streams : Dest → List Packet) : Prop where
  packets : packetsIn w (streams 0) + packetsIn w (streams 1) < NIOVECS
  bytes : ∀ d, recordBytes
    ((picked w (streams d)).map fun p => (m.body p.index).getWriteSize) < 2 ^ 27

/-- A posted event: both contributors are complete, and its lists hold the buffers. -/
structure PostedLists (m : Memory) (ev : Event) (lists : Dest → List Nat) : Prop where
  ctbs : ev.ctbs = 3
  nctbs : ev.nctbs = 2
  list : ∀ d, Holds m.links (.inl (.contrib ev.id d)) (cells (lists d))

namespace PostedLists

variable {m : Memory} {ev : Event} {lists : Dest → List Nat} {fuel : Nat}

theorem nodup (h : PostedLists m ev lists) (d : Dest) : (lists d).Nodup :=
  List.Nodup.of_map _ (List.nodup_cons.mp (h.list d).nodup).2

/-- **The message** fits when there are few enough packets and bytes. -/
theorem fits_iff (h : PostedLists m ev lists) (hfuel : ∀ d, (lists d).length < fuel)
    (hsize : ∀ d, ∀ index ∈ lists d, (m.body index).getWriteSize < 2 ^ 24) :
    EventFits fuel m ev ↔
      (lists 0).length + (lists 1).length < NIOVECS ∧
        ∀ d, recordBytes ((lists d).map fun index => (m.body index).getWriteSize) < 2 ^ 27 := by
  obtain ⟨sizes, hsizes⟩ : ∃ sizes : Dest → List Nat,
      (fun d => (lists d).map fun index => (m.body index).getWriteSize) = sizes := ⟨_, rfl⟩
  have hlen : ∀ d, (sizes d).length = (lists d).length := by
    intro d
    rw [← hsizes, List.length_map]
  have hrun : txRecords fuel m ev = .ok (recordsOf sizes [0, 1] ev.nctbs 1) := by
    rw [← hsizes]
    exact addContributors_spec h.ctbs h.list hfuel [0, 1] ev.nctbs 1
  have hvectors : (∀ r ∈ recordsOf sizes [0, 1] ev.nctbs 1, ∀ i ∈ r.iovecs, i < NIOVECS)
      ↔ (lists 0).length + (lists 1).length < NIOVECS := by
    rw [vectors_iff sizes NIOVECS [0, 1] (by decide)]
    simp only [List.map_cons, List.map_nil, List.sum_cons, List.sum_nil, hlen]
    omega
  -- with the packets of one message the other counts fit
  have hfields : (lists 0).length + (lists 1).length < NIOVECS →
      ((∀ r ∈ recordsOf sizes [0, 1] ev.nctbs 1, r.Fits) ↔
        ∀ d, recordBytes (sizes d) < 2 ^ 27) := by
    intro hfew
    unfold NIOVECS at hfew
    have hshort : ∀ d, (sizes d).length < 32 := by
      intro d
      rw [hlen]
      rcases dest_cases d with rfl | rfl <;> omega
    have hsum : ∀ d, (sizes d).sum < 2 ^ 31 := by
      intro d
      have hle : (sizes d).sum ≤ (sizes d).length * 2 ^ 24 := by
        apply sum_le_length_mul
        intro n hn
        rw [← hsizes] at hn
        obtain ⟨index, hindex, rfl⟩ := List.mem_map.mp hn
        exact Nat.le_of_lt (hsize d index hindex)
      have hd := hshort d
      omega
    rw [recordsOf_fits_iff (fun d => Nat.lt_trans (hshort d) (by decide)) hsum [0, 1]
      (Nat.le_of_eq h.nctbs.symm) (by rw [h.nctbs]; decide)]
    constructor
    · intro hbytes d
      rcases dest_cases d with rfl | rfl <;> exact hbytes _ (by simp)
    · exact fun hbytes d _ => hbytes d
  have hall : (∀ d, recordBytes ((lists d).map fun index => (m.body index).getWriteSize) < 2 ^ 27)
      ↔ ∀ d, recordBytes (sizes d) < 2 ^ 27 := by rw [← hsizes]
  rw [hall]
  constructor
  · rintro ⟨⟨records, hrecords, hindices, hfits⟩, -⟩
    rw [hrun] at hrecords
    obtain rfl := Except.ok.inj hrecords
    have hfew := hvectors.mp hindices
    exact ⟨hfew, (hfields hfew).mp hfits⟩
  · rintro ⟨hfew, hbytes⟩
    refine ⟨⟨_, hrun, hvectors.mpr hfew, (hfields hfew).mpr hbytes⟩, fun d => ?_⟩
    have height := countP_lt_eight (h.nodup d)
    exact freeWalk_spec (lists d) (h.list d).chain (hfuel d) (by omega)

end PostedLists

/-! ## The whole event -/

section Size

variable {fuel : Nat} {m m' : Memory} {ev ev' : Event}

/-- Evaluating a packet leaves the sizes in the frame buffers alone. -/
theorem evaluate_size {node : Addr} {dest : Dest} {action : Nat}
    (hrun : ev.evaluate fuel m node dest = .ok (m', ev', action)) : m'.body = m.body := by
  rcases evaluate_record hrun with ⟨-, hbody, -⟩ | ⟨-, -, hm', -⟩
  · exact hbody
  · rw [hm']
    rfl

/-- So does building an event. -/
theorem build_size {lat : Dest → List Packet} {arrivals : List (Dest × Packet)}
    {actions : List Nat} {posted : Bool} (hlat : LatencyLists m lat)
    (hfuel : ∀ d, (lat d).length < fuel)
    (hrun : ev.build fuel m arrivals = .ok (m', ev', actions, posted)) (index : Nat) :
    (m'.body index).size = (m.body index).size := by
  obtain ⟨m1, ev1, hrun1, hdr⟩ := seedAndDrain_spec ev fuel hlat.store (fun d => ⟨d, rfl⟩)
    (fun d => by rw [List.length_map]; exact hfuel d)
  have hseed : (m1.body index).size = (m.body index).size := by rw [hdr.framed.body]
  rw [Event.build, hrun1] at hrun
  simp only [bind, Except.bind] at hrun
  split at hrun
  · obtain ⟨rfl, -⟩ : m1 = m' ∧ _ := by simpa using hrun
    exact hseed
  · refine evaluateAll_keeps (P := fun μ _ => (μ.body index).size = (m.body index).size) ?_
      arrivals hseed hrun
    intro m2 m3 e e' dest p action hsize hrun2
    rw [evaluate_size hrun2, ← hsize]
    unfold Memory.setTimeRange
    dsimp only
    by_cases hi : index = p.index
    · rw [hi, Function.update_self]
    · rw [Function.update_of_ne hi]

end Size

/-- An event that is posted has the packets picked of each stream. -/
theorem Evaluated.postedLists {m m' : Memory} {ev ev' : Event} {σ σ' : Head → List Nat}
    {live : Set Head} {lat : Dest → List Packet} {arrivals : List (Dest × Packet)}
    {actions : List Nat} (he : Evaluated live m ev σ lat arrivals m' ev' σ' actions true)
    (hgapless : ∀ d, Gapless (feed lat arrivals d)) (hw : Unambiguous ev.limits)
    (s : RxState) :
    (∀ d, closed (Packet.verdict ev.limits) (feed lat arrivals d) = true) ∧
      ∃ evp, s.postEventAndReset ev' = .ok { s with posted := s.posted ++ [evp] } ∧
        PostedLists m' evp fun d =>
          (picked ev.limits (feed lat arrivals d)).map Packet.index := by
  have hb := he.tracks.building
  have hall := he.posted_eq.symm
  have hdone : ∀ d, closed (Packet.verdict ev.limits) (seen lat arrivals actions.length d)
      = true := by
    rw [allClosed, Bool.and_eq_true] at hall
    intro d
    rcases dest_cases d with rfl | rfl
    · exact hall.1
    · exact hall.2
  have hall' : allClosed (closedOf ev'.limits (feed lat (arrivals.take actions.length))) = true := by
    rw [he.limits]
    exact hall
  have hctbs : ev'.ctbs = 0 := hb.ctbs_eq_zero.mpr hall'
  have hnctbs : ev'.nctbs = 2 := by
    rw [allClosed, Bool.and_eq_true] at hall'
    rw [hb.nctbs, closedCount, hall'.1, hall'.2]
    rfl
  constructor
  · intro d
    rw [feed_eq_seen lat arrivals actions.length d, closed_append, hdone d]
    rfl
  refine ⟨{ ev' with ctbs := 3 }, ?_, rfl, hnctbs, fun d => ?_⟩
  · unfold RxState.postEventAndReset
    rw [hctbs, hnctbs]
    rfl
  · have hlist := hb.store.holds _ (hb.mem d trivial)
    have hsel : selected (Packet.verdict ev.limits) (seen lat arrivals actions.length d)
        = picked ev.limits (feed lat arrivals d) := by
      rw [← (hgapless d).selected_eq_picked hw, feed_eq_seen lat arrivals actions.length d,
        selected_append (hdone d)]
    rw [he.tracks.contrib d, selectedOf, he.limits] at hlist
    rw [← hsel]
    exact hlist

/-- When an event with any such window is posted, its message fits the fixed tables
exactly when the window does not get too many packets or bytes. -/
theorem build_fits_iff {fuel : Nat} {m : Memory} {ev : Event} {lat : Dest → List Packet}
    {arrivals : List (Dest × Packet)} (hw : Unambiguous ev.limits) (hlat : LatencyLists m lat)
    (hgapless : ∀ d, Gapless (feed lat arrivals d))
    (hsize : ∀ d, ∀ p ∈ feed lat arrivals d,
      2 * 8 ≤ (m.body p.index).size ∧ (m.body p.index).size < 2 ^ 24)
    (hbuf : Buffered ev.limits lat arrivals)
    (hfuel : ∀ d, (lat d).length + arrivals.length < fuel) :
    ∃ m' ev' actions posted, ev.build fuel m arrivals = .ok (m', ev', actions, posted) ∧
      (posted = true → ∀ s : RxState, ∃ evp,
        s.postEventAndReset ev' = .ok { s with posted := s.posted ++ [evp] } ∧
        (EventFits fuel m' evp ↔ EventBounded ev.limits m (feed lat arrivals))) := by
  obtain ⟨m1, ev1, σ1, m', ev', σ', actions, posted, hrun, hscan, he⟩ :=
    build_evaluated fuel m ev lat arrivals hlat hbuf hfuel
  have hlim := hscan.framed.limits
  have hbody := build_size hlat (fun d => Nat.lt_of_le_of_lt (Nat.le_add_right _ _) (hfuel d)) hrun
  refine ⟨m', ev', actions, posted, hrun, ?_⟩
  rintro rfl s
  obtain ⟨hclosed, evp, hpost, hlists⟩ := he.postedLists hgapless (hlim ▸ hw) s
  rw [hlim] at hclosed hlists
  have hwrite : ∀ index, (m'.body index).getWriteSize = (m.body index).getWriteSize := by
    intro index
    rw [FrameBuffer.getWriteSize, hbody, FrameBuffer.getWriteSize]
  have hsub : ∀ d, picked ev.limits (feed lat arrivals d) ⊆ feed lat arrivals d := fun d =>
    (picked_sublist _ _).subset
  have hroom : ∀ d, (feed lat arrivals d).length < fuel := by
    intro d
    have hof : (ofDest d arrivals).length ≤ arrivals.length := by
      rw [ofDest, List.length_map]
      exact List.length_filter_le _ _
    have hd := hfuel d
    rw [feed, List.length_append]
    omega
  have hcount : ∀ d, ((picked ev.limits (feed lat arrivals d)).map Packet.index).length
      = packetsIn ev.limits (feed lat arrivals d) := by
    intro d
    rw [List.length_map, ← (hgapless d).selected_eq_picked hw,
      (hgapless d).length_selected hw (hclosed d)]
  refine ⟨evp, hpost, ?_⟩
  rw [hlists.fits_iff ?_ ?_]
  · simp only [hcount, hwrite, List.map_map]
    exact ⟨fun h => ⟨h.1, h.2⟩, fun h => ⟨h.packets, h.bytes⟩⟩
  · intro d
    rw [List.length_map]
    exact Nat.lt_of_le_of_lt (picked_sublist _ _).length_le (hroom d)
  · intro d index hindex
    obtain ⟨p, hp, rfl⟩ := List.mem_map.mp hindex
    obtain ⟨hlo, hhi⟩ := hsize d p (hsub d hp)
    rw [hwrite, FrameBuffer.getWriteSize]
    omega

/-- **The size of an event.** Under any configuration, for any trigger, streams of full
packets without gaps and any interleaving of later packets in available buffers: the event
is built, and when it is posted its message fits the fixed tables exactly when its window
does not get too many packets or bytes. The sizes are in the bodies of the buffers. -/
theorem eventSize_iff (cfg : Config) (blowOff pretrigger duration period : Nat) (fuel : Nat)
    (m : Memory) (alloc t sequence : Nat) (lat : Dest → List Packet)
    (arrivals : List (Dest × Packet)) (ht : t < 2 ^ 64) (hlat : LatencyLists m lat)
    (hgapless : ∀ d, Gapless (feed lat arrivals d))
    (hsize : ∀ d, ∀ p ∈ feed lat arrivals d,
      2 * 8 ≤ (m.body p.index).size ∧ (m.body p.index).size < 2 ^ 24)
    (hbuf : Buffered (triggerWindow (cfg.setConfig blowOff pretrigger duration period) t)
      lat arrivals)
    (hfuel : ∀ d, (lat d).length + arrivals.length < fuel) :
    ∃ m' ev' actions posted,
      (newEvent (cfg.setConfig blowOff pretrigger duration period) alloc t sequence).build
        fuel m arrivals = .ok (m', ev', actions, posted) ∧
      (posted = true → ∀ s : RxState, ∃ evp,
        s.postEventAndReset ev' = .ok { s with posted := s.posted ++ [evp] } ∧
        (EventFits fuel m' evp ↔
          EventBounded (triggerWindow (cfg.setConfig blowOff pretrigger duration period) t) m
            (feed lat arrivals))) := by
  have hw := triggerWindow_unambiguous cfg blowOff pretrigger duration period ht
  exact build_fits_iff hw hlat hgapless hsize hbuf hfuel

/-- A configuration before `setConfig`. -/
def defaultConfig : Config where
  runMode := .EXTERNAL
  blowOffDmaData := false
  pretrigger := 0
  posttrigger := 0
  period := 1

/-- Empty latency lists, and buffers with packets of the size given. -/
def packetMemory (size : Nat) : Memory :=
  { noPackets with body := fun _ => { tsRange := ⟨0, 0⟩, size, status := 0 } }

/-- The first `n` full packets of both destinations. -/
def packetPairs (n : Nat) : List (Dest × Packet) :=
  (List.range n).flatMap fun k =>
    [(0, ⟨2 * k, 25600 * k, 25600 * (k + 1)⟩), (1, ⟨2 * k + 1, 25600 * k, 25600 * (k + 1)⟩)]

/-- The packets of one destination. -/
theorem feed_packetPairs (n : Nat) (d : Dest) :
    feed (fun _ => []) (packetPairs n) d
      = (List.range n).map fun k => ⟨2 * k + d.val, 25600 * k, 25600 * (k + 1)⟩ := by
  have hone : ∀ ks : List Nat, ofDest d (ks.flatMap fun k =>
      [((0 : Dest), (⟨2 * k, 25600 * k, 25600 * (k + 1)⟩ : Packet)),
        (1, ⟨2 * k + 1, 25600 * k, 25600 * (k + 1)⟩)])
      = ks.map fun k => ⟨2 * k + d.val, 25600 * k, 25600 * (k + 1)⟩ := by
    intro ks
    induction ks with
    | nil => rfl
    | cons k ks ih =>
        rw [List.flatMap_cons, List.map_cons, ← ih]
        rcases dest_cases d with rfl | rfl <;> rfl
  exact hone (List.range n)

theorem packetPairs_gapless (n : Nat) (d : Dest) :
    Gapless (feed (fun _ => []) (packetPairs n) d) := by
  rw [feed_packetPairs]
  constructor
  · rw [List.isChain_map, List.isChain_range]
    exact fun k _ => rfl
  · intro p hp
    obtain ⟨k, -, rfl⟩ := List.mem_map.mp hp
    exact Nat.mul_succ 25600 k

/-- Packets in buffers of their own are in available buffers. -/
theorem buffered_of_nodup {arrivals : List (Dest × Packet)}
    (h : (arrivals.map fun a => a.2.index).Nodup) (w : Span Nat) :
    Buffered w (fun _ => []) arrivals := by
  intro j d p hp d'
  refine ⟨fun hmem => ?_, nofun⟩
  -- the buffer would be that of an earlier arrival
  obtain ⟨q, hq, hindex⟩ := List.mem_map.mp hmem
  have hseen : q ∈ ofDest d' (arrivals.take j) := (selected_sublist _ _).subset hq
  obtain ⟨a, ha, rfl⟩ := List.mem_map.mp hseen
  obtain ⟨i, hi⟩ := List.mem_iff_getElem?.mp (List.mem_filter.mp ha).1
  rw [List.getElem?_take] at hi
  split at hi
  · next hij =>
      obtain ⟨hilt, rfl⟩ := List.getElem?_eq_some_iff.mp hi
      obtain ⟨hjlt, hjeq⟩ := List.getElem?_eq_some_iff.mp hp
      have hne := List.pairwise_iff_getElem.mp (List.pairwise_map.mp h) i j hilt hjlt hij
      rw [hjeq] at hne
      exact hne hindex
  · cases hi

/-- The latency lists are empty, whatever the sizes. -/
theorem packetMemory_latencyLists (size : Nat) : LatencyLists (packetMemory size) fun _ => [] :=
  ⟨noPackets_latencyLists.store, fun _ => nofun⟩

theorem packetMemory_size {size : Nat} (hlo : 2 * 8 ≤ size) (hhi : size < 2 ^ 24) (index : Nat) :
    2 * 8 ≤ ((packetMemory size).body index).size ∧
      ((packetMemory size).body index).size < 2 ^ 24 := ⟨hlo, hhi⟩

/-- A window of 8 ms gets 16 packets of each destination: with the header one more than
there are I/O vectors. -/
theorem longWindow_not_fits :
    ∃ m' ev' actions,
      (newEvent (defaultConfig.setConfig 0 0 8000 0) 0 1 0).build 99 (packetMemory 245776)
        (packetPairs 16) = .ok (m', ev', actions, true) ∧
      ∀ s : RxState, ∃ evp,
        s.postEventAndReset ev' = .ok { s with posted := s.posted ++ [evp] } ∧
        ¬EventFits 99 m' evp := by
  have hw : Unambiguous (newEvent (defaultConfig.setConfig 0 0 8000 0) 0 1 0).limits :=
    triggerWindow_unambiguous defaultConfig 0 0 8000 0 (by decide)
  have hfuel : (packetPairs 16).length < 99 := by decide
  obtain ⟨m', ev', actions, posted, hrun, hsize⟩ :=
    build_fits_iff hw (packetMemory_latencyLists 245776) (packetPairs_gapless 16)
      (fun d p _ => packetMemory_size (by decide) (by decide) p.index)
      (buffered_of_nodup (by decide) _) fun _ => by rwa [List.length_nil, Nat.zero_add]
  -- the last packets reach the end of the window
  have hposted : Except.map (fun r => r.2.2.2) ((newEvent (defaultConfig.setConfig 0 0 8000 0)
      0 1 0).build 99 (packetMemory 245776) (packetPairs 16)) = .ok true := rfl
  rw [hrun] at hposted
  obtain rfl : posted = true := Except.ok.inj hposted
  refine ⟨m', ev', actions, hrun, fun s => ?_⟩
  obtain ⟨evp, hpost, hiff⟩ := hsize rfl s
  refine ⟨evp, hpost, fun hfits => ?_⟩
  have hcount := (hiff.mp hfits).packets
  revert hcount
  decide

theorem eventSize_iff_pairs :
    ∃ m' ev' actions posted,
      (newEvent (defaultConfig.setConfig 0 0 800 0) 0 1 0).build 9 (packetMemory 245776)
        (packetPairs 2) = .ok (m', ev', actions, posted) ∧
      (posted = true → ∀ s : RxState, ∃ evp,
        s.postEventAndReset ev' = .ok { s with posted := s.posted ++ [evp] } ∧
        (EventFits 9 m' evp ↔
          EventBounded (triggerWindow (defaultConfig.setConfig 0 0 800 0) 1)
            (packetMemory 245776) (feed (fun _ => []) (packetPairs 2)))) :=
  eventSize_iff defaultConfig 0 0 800 0 9 (packetMemory 245776) 0 1 0 (fun _ => [])
    (packetPairs 2) (by decide) (packetMemory_latencyLists 245776) (packetPairs_gapless 2)
    (fun _ p _ => packetMemory_size (by decide) (by decide) p.index)
    (buffered_of_nodup (by decide) _) (Fin.forall_fin_two.mpr ⟨by decide, by decide⟩)

end ProtoDune.Daq
