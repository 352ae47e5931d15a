import Mathlib.Algebra.Order.BigOperators.Group.List
import ProtoDune.Daq.EventSize
import ProtoDune.Daq.FragmentSent

/-!
# From the trigger to the receiver

A trigger opens a window. The packets of the window are picked off the latency lists and
from those that arrive, the event is posted, its fragment is made in the buffers and sent,
and the printer at the other end finds the packets by the lengths and the offsets in it.

Main results:

* `Gapless.picked_covers` — the packets picked cover the window.
* `build_posted` — the event is built and posted.
* `Posted.delivered` — it is sent, and found.
* `trigger_delivered` — what the receiver finds for a trigger.
-/

namespace ProtoDune.Daq

open WindowSelect TimingClockTicks ByteMemory TxRun

/-! ## The window is covered -/

/-- **The packets picked cover the window**: each of its times is in one of them. -/
theorem Gapless.picked_covers {w : Span Nat} {ps : List Packet} (h : Gapless ps)
    (hdone : Completed w ps) {x : Nat} (hlo : w.beg ≤ x) (hhi : x < w.fin)
    (hstart : ∀ p ∈ ps.head?, p.time.beg ≤ x) :
    ∃ p ∈ Daq.picked w ps, p.time.beg ≤ x ∧ x < p.time.fin := by
  induction ps with
  | nil =>
      obtain ⟨p, hp, -⟩ := hdone
      cases hp
  | cons p ps ih =>
      have hbeg : p.time.beg ≤ x := hstart p rfl
      rw [picked_cons]
      rcases Nat.lt_or_ge x p.time.fin with hx | hx
      · refine ⟨p, List.mem_append_left _ ?_, hbeg, hx⟩
        rw [if_pos (by omega)]
        exact List.mem_singleton_self p
      · -- it ends before, so the window goes on in the rest
        obtain ⟨q, hq, hcase⟩ := hdone
        have hrest : q ∈ ps := by
          rcases List.mem_cons.mp hq with rfl | hq
          · omega
          · exact hq
        rw [if_neg (show ¬w.fin ≤ p.time.fin by omega)]
        obtain ⟨r, hr, hin⟩ := ih h.tail ⟨q, hrest, hcase⟩ <| by
          intro r hr
          cases ps with
          | nil => cases hr
          | cons s ss =>
              obtain rfl : s = r := Option.some.inj hr
              rw [← h.next]
              exact hx
        exact ⟨r, List.mem_append_right _ hr, hin⟩

/-- The window of a trigger that is not too near to either end of the time. -/
theorem triggerWindow_eq (cfg : Config) (blowOff period : Nat) {pretrigger duration t : Nat}
    (hpre : pretrigger ≤ duration) (hduration : duration ≤ 7168) (hlo : 50 * pretrigger ≤ t)
    (hhi : t + 50 * duration < 2 ^ 64) :
    triggerWindow (cfg.setConfig blowOff pretrigger duration period) t
      = ⟨t - 50 * pretrigger, t + 50 * (duration - pretrigger)⟩ := by
  have hpost : (duration + 2 ^ 32 - pretrigger) % 2 ^ 32 = duration - pretrigger := by omega
  have hp : from_usecs pretrigger = 50 * pretrigger := from_usecs_eq (by omega)
  have hd : from_usecs (duration - pretrigger) = 50 * (duration - pretrigger) :=
    from_usecs_eq (by omega)
  rw [triggerWindow, Config.setConfig, hpost, hp, hd]
  dsimp only
  congr 1 <;> omega

/-! ## The bytes of a fragment -/

/-- The packets of a message that fits, each below 4 MiB, are few enough bytes. -/
theorem fragmentBytes_lt {m : Memory} {lists : Dest → List Nat} (b : TxRun.Buffers)
    (hcount : (lists 0).length + (lists 1).length < NIOVECS)
    (hsize : ∀ d, ∀ x ∈ lists d, writeSize m x < 2 ^ 22) : fragmentBytes m b lists < 2 ^ 27 := by
  have hniov : NIOVECS = 32 := rfl
  have hdata : ∀ d, ctbBytes ((lists d).map (writeSize m))
      ≤ 72 + (4 * (lists d).length + 15) + (lists d).length * 2 ^ 22 := by
    intro d
    have hsum : ((lists d).map (writeSize m)).sum ≤ (lists d).length * 2 ^ 22 := by
      rw [← List.length_map (f := writeSize m)]
      refine List.sum_le_card_nsmul _ _ fun n hn => ?_
      obtain ⟨x, hx, rfl⟩ := List.mem_map.mp hn
      exact Nat.le_of_lt (hsize d x hx)
    unfold ctbBytes
    split
    · exact Nat.zero_le _
    · rw [recordBytes, List.length_map]
      omega
  have h0 := hdata 0
  have h1 := hdata 1
  have horigin := originN64_lt b
  have hbytes : originBytes b = 24 + 8 * originN64 b := rfl
  rw [fragmentBytes]
  omega

/-! ## What the receiver finds -/

/-- The receiver finds the packets picked of both streams, each whole and in its place, and
for every time of the window that packet of each stream which the time is in. -/
structure Delivered (w : Span Nat) (m : Memory) (b : TxRun.Buffers) (streams : Dest → List Packet)
    (sent : Sent) : Prop where
  fragment : FragmentOk ((List.finRange 2).map fun d =>
    packetData m b ((picked w (streams d)).map Packet.index)) sent
  covers : ∀ d x, w.beg ≤ x → x < w.fin → ∃ tpcs tpc p,
    acceptFrame (bytes sent.buffers sent.msg) = some tpcs ∧ tpcs[d.val]? = some tpc
      ∧ p ∈ streams d ∧ p.time.beg ≤ x ∧ x < p.time.fin
      ∧ read b (.dma p.index) 0 (writeSize m p.index) ∈ tpc.found (bytes sent.buffers sent.msg)

/-- The packets are found where the fragment is right and they cover the window. -/
theorem TxRun.FragmentOk.delivered {w : Span Nat} {m : Memory} {b : TxRun.Buffers}
    {streams : Dest → List Packet} {sent : Sent}
    (h : FragmentOk ((List.finRange 2).map fun d =>
      packetData m b ((picked w (streams d)).map Packet.index)) sent)
    (hcovers : ∀ d x, w.beg ≤ x → x < w.fin →
      ∃ p ∈ picked w (streams d), p.time.beg ≤ x ∧ x < p.time.fin) :
    Delivered w m b streams sent := by
  refine ⟨h, fun d x hlo hhi => ?_⟩
  obtain ⟨p, hp, hbeg, hfin⟩ := hcovers d x hlo hhi
  obtain ⟨tpcs, hwalk, hfound⟩ := h.walk
  have hlen := congrArg List.length hfound
  rw [List.length_map, List.length_map, List.length_finRange] at hlen
  have hd : d.val < tpcs.length := by
    rw [hlen]
    exact d.isLt
  refine ⟨tpcs, tpcs[d.val], p, hwalk, List.getElem?_eq_getElem hd,
    (picked_sublist _ _).subset hp, hbeg, hfin, ?_⟩
  have hat := congrArg (fun l => l[d.val]?) hfound
  simp only [List.getElem?_map, List.getElem?_eq_getElem hd] at hat
  rcases dest_cases d with rfl | rfl
  all_goals
    rw [Option.some.inj hat]
    exact List.mem_map_of_mem (List.mem_map_of_mem hp)

/-- An event is posted when the streams get to the end of the window. -/
theorem Evaluated.posted_of_completed {live : Set Head} {m m' : Memory} {ev ev' : Event}
    {σ σ' : Head → List Nat} {lat : Dest → List Packet} {arrivals : List (Dest × Packet)}
    {actions : List Nat} {posted : Bool}
    (he : Evaluated live m ev σ lat arrivals m' ev' σ' actions posted)
    (hw : ev.limits.beg ≤ ev.limits.fin) (hfwd : ∀ d, Forward (feed lat arrivals d))
    (hdone : ∀ d, Completed ev.limits (feed lat arrivals d)) : posted = true := by
  by_contra hopen
  -- then all were evaluated, and closed nothing
  have hall := he.exhausted.2 (Bool.not_eq_true _ ▸ hopen)
  have heq := he.posted_eq
  rw [hall, List.take_length, (allClosed_iff hw hfwd).mpr hdone] at heq
  exact hopen heq

theorem length_feed_le (lat : Dest → List Packet) (arrivals : List (Dest × Packet)) (d : Dest) :
    (feed lat arrivals d).length ≤ (lat d).length + arrivals.length := by
  have hof : (ofDest d arrivals).length ≤ arrivals.length := by
    rw [ofDest, List.length_map]
    exact List.length_filter_le _ _
  rw [feed, List.length_append]
  exact Nat.add_le_add_left hof _

/-- What is posted for a window: the packets picked of the streams, as many as the times
say, in buffers that keep their sizes. -/
structure Posted (w : Span Nat) (m : Memory) (streams : Dest → List Packet) (m' : Memory)
    (evp : Event) : Prop where
  lists : PostedLists m' evp fun d => (picked w (streams d)).map Packet.index
  count : ∀ d, (picked w (streams d)).length = packetsIn w (streams d)
  size : ∀ index, (m'.body index).size = (m.body index).size

/-- **The event is built and posted** when the streams get to the end of its window. -/
theorem build_posted (fuel : Nat) (m : Memory) (ev : Event) (lat : Dest → List Packet)
    (arrivals : List (Dest × Packet)) (hw : ev.limits.beg ≤ ev.limits.fin)
    (hlat : LatencyLists m lat) (hgapless : ∀ d, Gapless (feed lat arrivals d))
    (hdone : ∀ d, Completed ev.limits (feed lat arrivals d))
    (hbuf : Buffered ev.limits lat arrivals)
    (hfuel : ∀ d, (lat d).length + arrivals.length < fuel) (s : RxState) :
    ∃ m' ev' actions evp, ev.build fuel m arrivals = .ok (m', ev', actions, true)
      ∧ s.postEventAndReset ev' = .ok { s with posted := s.posted ++ [evp] }
      ∧ Posted ev.limits m (feed lat arrivals) m' evp := by
  obtain ⟨m1, ev1, σ1, m', ev', σ', actions, posted, hrun, hscan, he⟩ :=
    build_evaluated fuel m ev lat arrivals hlat hbuf hfuel
  have hlim := hscan.framed.limits
  have hunamb : Unambiguous ev.limits := .inl hw
  have hposted : posted = true := he.posted_of_completed (by rwa [hlim])
    (fun d p hp => Nat.le_of_lt ((hgapless d).beg_lt hp)) (by rwa [hlim])
  subst hposted
  obtain ⟨hclosed, evp, hpost, hlists⟩ := he.postedLists hgapless (by rwa [hlim]) s
  rw [hlim] at hclosed hlists
  refine ⟨m', ev', actions, evp, hrun, hpost, hlists, ?_, ?_⟩
  · intro d
    rw [← (hgapless d).selected_eq_picked hunamb,
      (hgapless d).length_selected hunamb (hclosed d)]
  · exact build_size hlat (fun d => Nat.lt_of_le_of_lt (Nat.le_add_right _ _) (hfuel d)) hrun

namespace Posted

variable {w : Span Nat} {m m' : Memory} {streams : Dest → List Packet} {evp : Event}

theorem writeSize_eq (h : Posted w m streams m' evp) (index : Nat) :
    writeSize m' index = writeSize m index := by
  rw [writeSize, FrameBuffer.getWriteSize, h.size]
  rfl

theorem packetData_eq (h : Posted w m streams m' evp) (b : TxRun.Buffers) (xs : List Nat) :
    packetData m' b xs = packetData m b xs := by
  unfold packetData
  simp only [h.writeSize_eq]

/-- **It is sent, and found.** The fragment of few enough packets that cover a window. -/
theorem delivered (h : Posted w m streams m' evp) {fuel : Nat}
    (hfuel : ∀ d, (streams d).length < fuel)
    (hcount : packetsIn w (streams 0) + packetsIn w (streams 1) < NIOVECS)
    (hsize : ∀ d, ∀ p ∈ streams d, 2 * 8 ≤ (m.body p.index).size
      ∧ (m.body p.index).size < 2 ^ 22 ∧ 8 ∣ (m.body p.index).size)
    (hw : w.beg < w.fin) (hcovers : ∀ d x, w.beg ≤ x → x < w.fin →
      ∃ p ∈ picked w (streams d), p.time.beg ≤ x ∧ x < p.time.fin)
    (b : TxRun.Buffers) (msg : TxMessage 64) {hoIndex : Nat}
    (hho : ∀ d, ∀ p ∈ streams d, p.index ≠ hoIndex) (horigin : 0 < originN64 b) (source : Nat)
    (srcs : Dest → Nat) :
    ∃ sent, txEvent fuel m' b msg hoIndex source srcs evp = .ok sent
      ∧ Delivered w m b streams sent := by
  have hlen : ∀ d, ((picked w (streams d)).map Packet.index).length = packetsIn w (streams d) :=
    fun d => by rw [List.length_map, h.count]
  have hfits : ∀ d, ((picked w (streams d)).map Packet.index).length < 2 ^ 5 := by
    intro d
    have hniov : NIOVECS = 2 ^ 5 := rfl
    rw [hlen]
    rcases dest_cases d with rfl | rfl <;> omega
  have hroom : ∀ d, ((picked w (streams d)).map Packet.index).length < fuel := by
    intro d
    rw [List.length_map]
    exact Nat.lt_of_le_of_lt (picked_sublist _ _).length_le (hfuel d)
  have hmem : ∀ d, ∀ x ∈ (picked w (streams d)).map Packet.index,
      ∃ p ∈ streams d, p.index = x := by
    intro d x hx
    obtain ⟨p, hp, hpx⟩ := List.mem_map.mp hx
    exact ⟨p, (picked_sublist _ _).subset hp, hpx⟩
  have hne : ∀ d, (picked w (streams d)).map Packet.index ≠ [] := by
    intro d hnil
    obtain ⟨p, hp, -⟩ := hcovers d w.beg (Nat.le_refl _) hw
    rw [List.map_eq_nil_iff.mp hnil] at hp
    cases hp
  obtain ⟨b1, msg1, s1, size, b2, header, sent, hsent, hfin⟩ :=
    txEvent_finished h.lists hroom (fun d => Nat.lt_trans (hfits d) (by decide)) b msg hoIndex
      source srcs horigin
  refine ⟨sent, hsent, FragmentOk.delivered ?_ hcovers⟩
  have hok := hfin.fragmentOk h.lists hroom (fun d => Nat.lt_trans (hfits d) (by decide)) ?_ ?_
    horigin (hne 0) (hne 1) (fragmentBytes_lt b ?_ ?_)
  · rw [contributorsOf_both (hne 0) (hne 1), h.packetData_eq, h.packetData_eq] at hok
    exact hok
  · intro d hmemho
    obtain ⟨p, hp, hpx⟩ := hmem d hoIndex hmemho
    exact hho d p hp hpx
  · intro d x hx
    obtain ⟨p, hp, rfl⟩ := hmem d x hx
    rw [h.size]
    exact (hsize d p hp).2.2
  · rw [hlen, hlen]
    exact hcount
  · intro d x hx
    obtain ⟨p, hp, rfl⟩ := hmem d x hx
    obtain ⟨hlow, hhigh, -⟩ := hsize d p hp
    rw [h.writeSize_eq, writeSize, FrameBuffer.getWriteSize]
    omega

end Posted

/-- **From the trigger to the receiver.** Under any configuration with a window of up to 14
packets, for any trigger, streams of full packets without gaps from before the window to
after its end, and any interleaving of those that are still to come in available buffers:
the event is built and posted and its fragment sent, and the receiver finds in it the
packets of the window. -/
theorem trigger_delivered (cfg : Config) (blowOff period : Nat) {pretrigger duration t : Nat}
    (hpre : pretrigger ≤ duration) (hduration : duration ≤ 7168) (hpos : 0 < duration)
    (hlo : 50 * pretrigger ≤ t) (hhi : t + 50 * duration < 2 ^ 64) (fuel : Nat) (m : Memory)
    (alloc sequence : Nat) (lat : Dest → List Packet) (arrivals : List (Dest × Packet))
    (hlat : LatencyLists m lat) (hgapless : ∀ d, Gapless (feed lat arrivals d))
    (hstart : ∀ d, ∀ p ∈ (feed lat arrivals d).head?, p.time.beg ≤ t - 50 * pretrigger)
    (hdone : ∀ d, Completed ⟨t - 50 * pretrigger, t + 50 * (duration - pretrigger)⟩
      (feed lat arrivals d))
    (hsize : ∀ d, ∀ p ∈ feed lat arrivals d, 2 * 8 ≤ (m.body p.index).size
      ∧ (m.body p.index).size < 2 ^ 22 ∧ 8 ∣ (m.body p.index).size)
    (hbuf : Buffered ⟨t - 50 * pretrigger, t + 50 * (duration - pretrigger)⟩ lat arrivals)
    (hfuel : ∀ d, (lat d).length + arrivals.length < fuel) (b : TxRun.Buffers) (msg : TxMessage 64)
    {hoIndex : Nat} (hho : ∀ d, ∀ p ∈ feed lat arrivals d, p.index ≠ hoIndex)
    (horigin : 0 < originN64 b) (source : Nat) (srcs : Dest → Nat) (s : RxState) :
    ∃ m' ev' actions evp sent,
      (newEvent (cfg.setConfig blowOff pretrigger duration period) alloc t sequence).build
        fuel m arrivals = .ok (m', ev', actions, true)
      ∧ s.postEventAndReset ev' = .ok { s with posted := s.posted ++ [evp] }
      ∧ txEvent fuel m' b msg hoIndex source srcs evp = .ok sent
      ∧ Delivered ⟨t - 50 * pretrigger, t + 50 * (duration - pretrigger)⟩ m b
          (feed lat arrivals) sent := by
  have hwin := triggerWindow_eq cfg blowOff period hpre hduration hlo hhi
  have hshort := shortWindow_packets cfg blowOff period hpre hduration hlo hhi (feed lat arrivals)
  have hlt : t - 50 * pretrigger < t + 50 * (duration - pretrigger) := by omega
  rw [hwin] at hshort
  -- the window of the event is the one given
  have hlimits : (newEvent (cfg.setConfig blowOff pretrigger duration period) alloc t
      sequence).limits = ⟨t - 50 * pretrigger, t + 50 * (duration - pretrigger)⟩ := hwin
  obtain ⟨m', ev', actions, evp, hrun, hpost, hposted⟩ :=
    build_posted fuel m (newEvent (cfg.setConfig blowOff pretrigger duration period) alloc t
      sequence) lat arrivals (by rw [hlimits]; exact Nat.le_of_lt hlt) hlat hgapless
      (by rwa [hlimits]) (by rwa [hlimits]) hfuel s
  rw [hlimits] at hposted
  obtain ⟨sent, hsent, hdelivered⟩ := hposted.delivered
    (fun d => Nat.lt_of_le_of_lt (length_feed_le lat arrivals d) (hfuel d)) hshort hsize hlt
    (fun d x hx hx' => (hgapless d).picked_covers (hdone d) hx hx' fun p hp =>
      (hstart d p hp).trans hx)
    b msg hho horigin source srcs
  exact ⟨m', ev', actions, evp, sent, hrun, hpost, hsent, hdelivered⟩

/-- Two packets of each destination, of which the window of 800 microseconds needs both. -/
theorem trigger_delivered_pairs :
    ∃ m' ev' actions evp sent,
      (newEvent (defaultConfig.setConfig 0 0 800 0) 0 1 0).build 9 (packetMemory 245776)
        (packetPairs 2) = .ok (m', ev', actions, true)
      ∧ (RxState.start (packetMemory 245776).body defaultConfig).postEventAndReset ev'
        = .ok { RxState.start (packetMemory 245776).body defaultConfig with posted := [evp] }
      ∧ txEvent 9 m' originBuffers TxMessage.empty 4 0 (fun _ => 0) evp = .ok sent
      ∧ Delivered ⟨1, 40001⟩ (packetMemory 245776) originBuffers
          (feed (fun _ => []) (packetPairs 2)) sent := by
  have hsize : 2 * 8 ≤ 245776 ∧ 245776 < 2 ^ 22 ∧ 8 ∣ 245776 := by decide
  refine trigger_delivered (t := 1) defaultConfig 0 0 (Nat.zero_le 800) (by decide) (by decide)
    (by decide) (by decide) 9 (packetMemory 245776) 0 0 (fun _ => []) (packetPairs 2)
    (packetMemory_latencyLists 245776) (packetPairs_gapless 2) ?_ ?_ (fun _ _ _ => hsize)
    (buffered_of_nodup (by decide) _) (Fin.forall_fin_two.mpr ⟨by decide, by decide⟩)
    originBuffers TxMessage.empty ?_ (by decide) 0 (fun _ => 0)
    (RxState.start (packetMemory 245776).body defaultConfig)
  · intro d p hp
    rw [feed_packetPairs] at hp
    obtain rfl := Option.some.inj hp
    exact Nat.zero_le 1
  · intro d
    rw [feed_packetPairs]
    -- the second packet reaches the end of the window
    have hmeets : 40001 ≤ 51200 ∧ 25600 ≤ 40001 := by decide
    exact ⟨⟨2 * 1 + d.val, 25600 * 1, 25600 * (1 + 1)⟩, by simp, .inl hmeets⟩
  · intro d p hp
    rw [feed_packetPairs] at hp
    obtain ⟨k, hk, rfl⟩ := List.mem_map.mp hp
    have hk2 := List.mem_range.mp hk
    have hd := d.isLt
    change 2 * k + d.val ≠ 4
    omega

end ProtoDune.Daq
