import Mathlib.Data.List.Chain
import ProtoDune.Daq.TriggerRun
import ProtoDune.Daq.SetConfig
import ProtoDune.Lib.Tiles

/-!
# The ranges of an event record

`addRanges` turns the beginning and the end of the window and the trigger time into
indices: a packet of the list, and a sample of that packet.

Main results:

* `Trig.exact_iff` — when the packet recorded is the last that begins in time.
* `Gapless.locates_iff` — when the indices designate the samples of the three times.
* `triggerRanges_iff` — both, for every event that is built.
-/

namespace ProtoDune.Daq

open WindowSelect Locate LinkChain

/-! ## `getIndex`, `addRanges` -/

namespace RangesBody

/-- `Indices::index` -/
def index (packet sample : Nat) : Nat := packet <<< 16 ||| sample

structure Indices where
  m_begin : Nat
  m_end : Nat
  m_trigger : Nat

structure Timestamps where
  m_begin : Nat
  m_end : Nat

structure Descriptor where
  m_indices : Indices
  m_timestamps : Timestamps

structure Window where
  m_begin : Nat
  m_end : Nat
  m_trigger : Nat

/-- `getIndex`: the index of time `win` in the packet `node`, number `pktIdx`; all ones
where the packet does not reach it. -/
def getIndex (m : Memory) (node : Addr) (win pktIdx : Nat) : Nat :=
  let pkt := m.tsRange node
  if win < pkt.beg ∨ pkt.fin < win then 2 ^ 32 - 1
  else
    let idx := (win - pkt.beg) / TimingClockTicks.PER_SAMPLE % 2 ^ 16
    index pktIdx idx

end RangesBody

/-- The body of a `Ranges` record. -/
structure RangesBody where
  m_window : RangesBody.Window
  m_dsc : RangesBody.Descriptor

/-- `addRanges` for contributor `ictb`, whose list is not empty. -/
def addRanges (m : Memory) (ev : Event) (ictb : Dest) : RangesBody :=
  let list := Head.contrib ev.id ictb
  let first := m.links.flnk (.inl list)
  let last := m.links.blnk (.inl list)
  let idxBeg := RangesBody.getIndex m first ev.limits.beg 0
  -- the number of the last packet, in 16 bits
  let idxEnd :=
    RangesBody.getIndex m last ev.limits.fin ((ev.npkts ictb + (2 ^ 16 - 1)) % 2 ^ 16)
  let idxTrg := match ev.trgNode ictb with
    | some trg => RangesBody.getIndex m trg ev.trgTime (ev.trgNpkt ictb)
    | none => 2 ^ 32 - 1
  { m_window := ⟨ev.limits.beg, ev.limits.fin, ev.trgTime⟩
    m_dsc :=
      { m_indices := ⟨idxBeg, idxEnd, idxTrg⟩
        m_timestamps := ⟨(m.tsRange first).beg, (m.tsRange last).fin⟩ } }

/-! ## What the record should say -/

/-- The ticks of a packet of 1024 samples. -/
def TimingClockTicks.PER_FRAME : Nat := TimingClockTicks.PER_SAMPLE * 1024

/-- An index designates a packet of the list and a sample of it, and the time falls
into that sample. -/
def Designates (ps : List Packet) (idx time : Nat) : Prop :=
  idx % 2 ^ 16 < 1024 ∧ ∃ p, ps[idx / 2 ^ 16]? = some p
    ∧ p.time.beg + TimingClockTicks.PER_SAMPLE * (idx % 2 ^ 16) ≤ time
    ∧ time < p.time.beg + TimingClockTicks.PER_SAMPLE * (idx % 2 ^ 16 + 1)

/-- The three indices designate the samples of the three times. -/
structure RangesBody.Locates (r : RangesBody) (ps : List Packet) : Prop where
  begin : Designates ps r.m_dsc.m_indices.m_begin r.m_window.m_begin
  fin : Designates ps r.m_dsc.m_indices.m_end r.m_window.m_end
  trigger : Designates ps r.m_dsc.m_indices.m_trigger r.m_window.m_trigger

/-- The node recorded for contributor `d` is the last packet of its list that begins at
or before the trigger time, with its position; none, if all begin later. -/
structure TrgExact (ev : Event) (d : Dest) (ps : List Packet) : Prop where
  last : ∀ i p, LastBegun Packet.time ev.trgTime ps i → ps[i]? = some p →
    ev.trgNode d = some (.inr p.index) ∧ ev.trgNpkt d = i
  none : (∀ p ∈ ps, ev.trgTime < p.time.beg) → ev.trgNode d = none

/-- Of the packets that begin in time, all but the last end before the trigger time; the
last one does not, or is the only one and a later packet follows. -/
structure TrgReadable (t : Nat) (ps : List Packet) : Prop where
  earlier : ∀ p ∈ (begun Packet.time t ps).dropLast, p.time.fin < t
  last : ∀ p ∈ (begun Packet.time t ps).getLast?,
    t ≤ p.time.fin ∨ (begun Packet.time t ps).length = 1 ∧ 1 < ps.length
  short : (begun Packet.time t ps).length ≤ 2 ^ 16

/-- Full packets, each ending where the next begins. -/
structure Gapless (ps : List Packet) : Prop where
  joined : ps.IsChain fun p q => p.time.fin = q.time.beg
  full : ∀ p ∈ ps, p.time.fin = p.time.beg + TimingClockTicks.PER_FRAME

/-- The list covers the beginning of the window, and no time looked for is the end of a
packet. -/
structure RangesReadable (w : Span Nat) (t : Nat) (ps : List Packet) : Prop where
  first : ∀ p ∈ ps.head?, p.time.beg ≤ w.beg ∧ p.time.fin ≠ w.beg
  last : ∀ p ∈ ps.getLast?, p.time.fin ≠ w.fin
  trigger : ∀ p ∈ ps, p.time.fin ≠ t
  short : ps.length ≤ 2 ^ 16

/-! ## The trigger node -/

/-- No two positions of the list hold the same node. -/
theorem nodeAt_inj {ps : List Packet} (hnodup : (ps.map Packet.index).Nodup) {i j : Nat}
    (hi : i < ps.length) (hj : j < ps.length) : nodeAt ps i = nodeAt ps j ↔ i = j := by
  refine ⟨fun h => ?_, fun h => h ▸ rfl⟩
  have hindex : ps[i].index = ps[j].index := by
    simpa [nodeAt, List.getElem?_eq_getElem hi, List.getElem?_eq_getElem hj] using h
  have hi' : i < (ps.map Packet.index).length := by rwa [List.length_map]
  have hj' : j < (ps.map Packet.index).length := by rwa [List.length_map]
  have hmap : (ps.map Packet.index)[i] = (ps.map Packet.index)[j] := by
    rwa [List.getElem_map, List.getElem_map]
  exact hnodup.getElem_inj_iff.mp hmap

/-- The packet at a position is recorded when the rule finds the position. -/
theorem Trig.node_eq_iff {m : Memory} {ev : Event} {d : Dest} {ps : List Packet}
    (h : Trig m ev d ps) (hnodup : (ps.map Packet.index).Nodup) {n : Nat} (hn : n < ps.length) :
    ev.trgNode d = some (.inr ps[n].index) ↔ recorded ev.trgTime ps = some n := by
  have hnode : some (.inr ps[n].index) = nodeAt ps n := by
    rw [nodeAt, List.getElem?_eq_getElem hn, Option.map_some]
  rw [h.node, hnode]
  cases hrec : recorded ev.trgTime ps with
  | none => simp [nodeAt, hn]
  | some i =>
      have hi := Nat.lt_of_lt_of_le (recorded_lt hrec) (length_begun_le _ _)
      rw [Option.bind_some, nodeAt_inj hnodup hi hn, Option.some.injEq]

/-- The conditions on the last packet that begins in time, in terms of its position. -/
theorem trgReadable_iff {t n : Nat} {ps : List Packet}
    (hlen : (begun Packet.time t ps).length = n + 1) :
    TrgReadable t ps ↔ recorded t ps = some n ∧ n < 2 ^ 16 := by
  rw [recorded_last_iff hlen]
  obtain ⟨l, hl⟩ : ∃ l, (begun Packet.time t ps).getLast? = some l :=
    ⟨_, List.getLast?_eq_getLast_of_ne_nil (List.ne_nil_of_length_eq_add_one hlen)⟩
  have hlast : (∀ p ∈ (begun Packet.time t ps).getLast?,
        t ≤ p.time.fin ∨ (begun Packet.time t ps).length = 1 ∧ 1 < ps.length)
      ↔ (∀ p ∈ (begun Packet.time t ps).getLast?, t ≤ p.time.fin) ∨ n = 0 ∧ 1 < ps.length := by
    rw [hl, hlen]
    simp
  constructor
  · intro h
    have hshort := h.short
    exact ⟨⟨h.earlier, hlast.mp h.last⟩, by omega⟩
  · rintro ⟨⟨hearlier, hl⟩, hn⟩
    exact ⟨hearlier, hlast.mpr hl, by omega⟩

/-- **The trigger node** recorded is the last packet that begins in time exactly when the
list is readable. -/
theorem Trig.exact_iff {m : Memory} {ev : Event} {d : Dest} {ps : List Packet}
    (h : Trig m ev d ps) (horder : InOrder Packet.time ps)
    (hnodup : (ps.map Packet.index).Nodup) :
    TrgExact ev d ps ↔ TrgReadable ev.trgTime ps := by
  cases hlen : (begun Packet.time ev.trgTime ps).length with
  | zero =>
      -- nothing begins in time
      have hempty := List.eq_nil_of_length_eq_zero hlen
      have hnone := h.node_eq_none.mpr (recorded_none hempty)
      refine iff_of_true ⟨fun i p hlast _ => ?_, fun _ => hnone⟩ ⟨?_, ?_, ?_⟩
      · rw [horder.lastBegun_iff, hlen] at hlast
        cases hlast
      · rw [hempty]
        nofun
      · rw [hempty]
        nofun
      · rw [hlen]
        exact Nat.zero_le _
  | succ n =>
      have hn : n < ps.length := by
        have hle : (begun Packet.time ev.trgTime ps).length ≤ ps.length := length_begun_le _ _
        omega
      have hget : ps[n]? = some ps[n] := List.getElem?_eq_getElem hn
      rw [trgReadable_iff hlen]
      constructor
      · intro hexact
        obtain ⟨hnode, hnpkt⟩ := hexact.last n _ (horder.lastBegun_iff.mpr hlen) hget
        have hrec := (h.node_eq_iff hnodup hn).mp hnode
        have hcount := h.npkt n hrec
        exact ⟨hrec, by omega⟩
      · rintro ⟨hrec, hshort⟩
        refine ⟨fun i p hlast hp => ?_, fun hlate => ?_⟩
        · rw [horder.lastBegun_iff, hlen] at hlast
          obtain rfl : n = i := Nat.succ.inj hlast
          obtain rfl : ps[n] = p := Option.some.inj (hget.symm.trans hp)
          refine ⟨(h.node_eq_iff hnodup hn).mpr hrec, ?_⟩
          rw [h.npkt n hrec, Nat.mod_eq_of_lt hshort]
        · have hle := (horder.getElem?_begun (t := ev.trgTime) hget).mp (by omega)
          exact absurd (hlate _ (List.getElem_mem hn)) (Nat.not_lt.mpr hle)

/-! ## The indices -/

namespace RangesBody

theorem index_eq {packet sample : Nat} (h : sample < 2 ^ 16) :
    index packet sample = packet * 2 ^ 16 + sample := by
  rw [index, ← Nat.shiftLeft_add_eq_or_of_lt h, Nat.shiftLeft_eq]

variable {m : Memory} {node : Addr} {ps : List Packet} {q : Packet} {win k : Nat}

/-- An index that designates the time is of a packet that the time falls into. -/
theorem getIndex_designates (hq : m.tsRange node = q.time)
    (h : Designates ps (getIndex m node win k) win) :
    q.time.beg ≤ win ∧ ∃ p, ps[k]? = some p ∧ p.time.beg ≤ win
      ∧ win < p.time.beg + TimingClockTicks.PER_FRAME := by
  obtain ⟨hsample, p, hp, hlo, hhi⟩ := h
  unfold TimingClockTicks.PER_FRAME
  unfold TimingClockTicks.PER_SAMPLE at *
  unfold getIndex at hsample hp hlo hhi
  rw [hq] at hsample hp hlo hhi
  by_cases hout : win < q.time.beg ∨ q.time.fin < win
  · -- all ones are not a sample
    rw [if_pos hout] at hsample
    exact absurd hsample (by decide)
  · rw [if_neg hout] at hsample hp hlo hhi
    have hlt : (win - q.time.beg) / TimingClockTicks.PER_SAMPLE % 2 ^ 16 < 2 ^ 16 :=
      Nat.mod_lt _ (by decide)
    rw [index_eq hlt] at hsample hp hlo hhi
    have hdiv : (k * 2 ^ 16 + (win - q.time.beg) / TimingClockTicks.PER_SAMPLE % 2 ^ 16) / 2 ^ 16
        = k := by omega
    rw [hdiv] at hp
    exact ⟨by omega, p, hp, by omega, by omega⟩

/-- The time falls into the packet: the index designates its sample. -/
theorem designates_getIndex (hq : m.tsRange node = q.time)
    (hfull : q.time.fin = q.time.beg + TimingClockTicks.PER_FRAME)
    (hp : ps[k]? = some q) (hlo : q.time.beg ≤ win) (hhi : win < q.time.fin) :
    Designates ps (getIndex m node win k) win := by
  have hin : ¬(win < q.time.beg ∨ q.time.fin < win) := by omega
  obtain ⟨s, hs⟩ : ∃ s, (win - q.time.beg) / TimingClockTicks.PER_SAMPLE = s := ⟨_, rfl⟩
  have hidx : getIndex m node win k = index k (s % 2 ^ 16) := by
    rw [getIndex, hq, if_neg hin, hs]
  unfold TimingClockTicks.PER_FRAME at hfull
  unfold Designates
  unfold TimingClockTicks.PER_SAMPLE at *
  have hlt : s < 1024 := by omega
  have hdiv : (k * 2 ^ 16 + s) / 2 ^ 16 = k := by omega
  have hmod : (k * 2 ^ 16 + s) % 2 ^ 16 = s := by omega
  have hsmall : s % 2 ^ 16 = s := Nat.mod_eq_of_lt (by omega)
  rw [hidx, hsmall, index_eq (by omega), hmod, hdiv]
  exact ⟨hlt, q, hp, by omega, by omega⟩

end RangesBody

/-! ## Streams without gaps -/

section Picked

variable {w : Span Nat} {p q : Packet} {ps : List Packet}

theorem picked_cons : picked w (p :: ps)
    = (if w.beg ≤ p.time.fin ∧ p.time.beg ≤ w.fin then [p] else [])
        ++ if w.fin ≤ p.time.fin then [] else picked w ps := by
  unfold picked
  rw [through]
  by_cases hfin : w.fin ≤ p.time.fin <;>
    by_cases hin : w.beg ≤ p.time.fin ∧ p.time.beg ≤ w.fin <;> simp [hfin, hin]

/-- A packet that reaches into the window is picked. -/
theorem picked_head (ps : List Packet) (hin : w.beg ≤ p.time.fin ∧ p.time.beg ≤ w.fin) :
    ∃ rest, picked w (p :: ps) = p :: rest := by
  rw [picked_cons, if_pos hin]
  exact ⟨_, rfl⟩

theorem mem_picked (hp : p ∈ picked w ps) : w.beg ≤ p.time.fin ∧ p.time.beg ≤ w.fin := by
  simpa using (List.mem_filter.mp hp).2

theorem picked_sublist (w : Span Nat) (ps : List Packet) : (picked w ps).Sublist ps :=
  List.filter_sublist.trans (prefix_through _ ps).sublist

end Picked

namespace Gapless

variable {w : Span Nat} {p q : Packet} {ps : List Packet}

theorem tail (h : Gapless (p :: ps)) : Gapless ps :=
  ⟨h.joined.tail, fun q hq => h.full q (List.mem_cons_of_mem p hq)⟩

theorem next (h : Gapless (p :: q :: ps)) : p.time.fin = q.time.beg :=
  (List.isChain_cons_cons.mp h.joined).1

theorem beg_lt (h : Gapless ps) (hp : p ∈ ps) : p.time.beg < p.time.fin := by
  rw [h.full p hp]
  exact Nat.lt_add_of_pos_right (by decide)

/-- The packets picked of a stream without gaps leave no gap. -/
theorem picked (h : Gapless ps) : Gapless (picked w ps) := by
  refine ⟨?_, fun p hp => h.full p ((picked_sublist w ps).subset hp)⟩
  induction ps with
  | nil => exact List.IsChain.nil
  | cons p ps ih =>
      rw [picked_cons]
      by_cases hfin : w.fin ≤ p.time.fin
      · rw [if_pos hfin, List.append_nil]
        split
        · exact List.IsChain.singleton p
        · exact List.IsChain.nil
      · rw [if_neg hfin]
        split
        · next hin =>
            cases ps with
            | nil => exact List.IsChain.singleton p
            | cons q qs =>
                -- the next packet begins in the window
                have hbeg := h.next
                have hlt := h.tail.beg_lt List.mem_cons_self
                obtain ⟨rest, hrest⟩ := picked_head (w := w) (p := q) qs (by omega)
                have hchain := ih h.tail
                rw [hrest] at hchain ⊢
                exact List.isChain_cons_cons.mpr ⟨hbeg, hchain⟩
        · exact ih h.tail

/-- The last packet picked reaches the end of the window. -/
theorem le_last_picked (h : Gapless ps) (hdone : Completed w ps)
    (hp : p ∈ (Daq.picked w ps).getLast?) : w.fin ≤ p.time.fin := by
  induction ps with
  | nil => cases hp
  | cons q qs ih =>
      rw [picked_cons] at hp
      by_cases hfin : w.fin ≤ q.time.fin
      · rw [if_pos hfin, List.append_nil] at hp
        split at hp
        · obtain rfl : q = p := by simpa using hp
          exact hfin
        · cases hp
      · rw [if_neg hfin] at hp
        have hq := h.beg_lt List.mem_cons_self
        have hdone' : Completed w qs := by
          obtain ⟨r, hr, hcase⟩ := hdone
          rcases List.mem_cons.mp hr with rfl | hr
          · omega
          · exact ⟨r, hr, hcase⟩
        split at hp
        · next hin =>
            cases qs with
            | nil =>
                obtain ⟨r, hr, -⟩ := hdone'
                cases hr
            | cons r rs =>
                have hbeg := h.next
                have hlt := h.tail.beg_lt List.mem_cons_self
                obtain ⟨rest, hrest⟩ := picked_head (w := w) (p := r) rs (by omega)
                rw [hrest, List.singleton_append, List.getLast?_cons_cons, ← hrest] at hp
                exact ih h.tail hdone' hp
        · exact ih h.tail hdone' hp

/-- The packets are contiguous spans. -/
theorem contiguous (h : Gapless ps) : Tiles.Contiguous (ps.map Packet.time) where
  joined := (List.isChain_map Packet.time).mpr h.joined
  ordered a ha := by
    obtain ⟨p, hp, rfl⟩ := List.mem_map.mp ha
    exact Nat.le_of_lt (h.beg_lt hp)

/-- A packet ends before a later one begins. -/
theorem fin_le_beg (h : Gapless ps) {i j : Nat} (hp : ps[i]? = some p) (hq : ps[j]? = some q)
    (hij : i < j) : p.time.fin ≤ q.time.beg := by
  have hpair := List.pairwise_map.mp h.contiguous.pairwise
  obtain ⟨hi, rfl⟩ := List.getElem?_eq_some_iff.mp hp
  obtain ⟨hj, rfl⟩ := List.getElem?_eq_some_iff.mp hq
  exact List.pairwise_iff_getElem.mp hpair i j hi hj hij

theorem inOrder (h : Gapless ps) : InOrder Packet.time ps := by
  refine (List.pairwise_map.mp h.contiguous.pairwise).imp_of_mem fun {a} {b} ha _ hab => ?_
  exact (Nat.le_of_lt (h.beg_lt ha)).trans hab

end Gapless

/-! ## The ranges of a list -/

/-- The list of contributor `d` holds the packets `ps`, with what is recorded of them. -/
structure EventList (m : Memory) (ev : Event) (d : Dest) (ps : List Packet) : Prop where
  rep : Rep m.links (.inl (.contrib ev.id d)) (cells (ps.map Packet.index))
  npkts : ev.npkts d = ps.length % 2 ^ 16
  trig : Trig m ev d ps

/-- Full packets of the window without gaps, up to one that reaches its end. -/
structure Covering (w : Span Nat) (ps : List Packet) : Prop where
  gapless : Gapless ps
  meets : ∀ p ∈ ps, w.beg ≤ p.time.fin ∧ p.time.beg ≤ w.fin
  last : ∀ p ∈ ps.getLast?, w.fin ≤ p.time.fin

namespace EventList

variable {m : Memory} {ev : Event} {d : Dest} {ps : List Packet} {w : Span Nat} {t : Nat}

theorem index_nodup (h : EventList m ev d ps) : (ps.map Packet.index).Nodup := by
  have hnd := (List.nodup_cons.mp h.rep.nodup).2
  exact List.Nodup.of_map _ hnd

theorem tsRange (h : EventList m ev d ps) {p : Packet} (hp : p ∈ ps) :
    m.tsRange (.inr p.index) = p.time := h.trig.time p hp

/-- The index of the beginning of the window. -/
theorem begin_iff (h : EventList m ev d ps) (hne : ps ≠ []) (hw : Covering w ps) :
    Designates ps
        (RangesBody.getIndex m (m.links.flnk (.inl (.contrib ev.id d))) w.beg 0) w.beg
      ↔ ∀ p ∈ ps.head?, p.time.beg ≤ w.beg ∧ p.time.fin ≠ w.beg := by
  obtain ⟨p, rest, rfl⟩ := List.exists_cons_of_ne_nil hne
  have hp := List.mem_cons_self (a := p) (l := rest)
  have hfirst : m.links.flnk (.inl (.contrib ev.id d)) = .inr p.index := h.rep.chain.1
  have hmeets := (hw.meets p hp).1
  have hfull := hw.gapless.full p hp
  rw [hfirst, List.head?_cons]
  constructor
  · intro hdes q hq
    obtain rfl := Option.some.inj hq
    obtain ⟨hlo, q, hq, -, hhi⟩ := RangesBody.getIndex_designates (h.tsRange hp) hdes
    obtain rfl : p = q := Option.some.inj hq
    exact ⟨hlo, by omega⟩
  · intro hcond
    obtain ⟨hlo, hne⟩ := hcond p rfl
    exact RangesBody.designates_getIndex (h.tsRange hp) hfull rfl hlo (by omega)

/-- The index of the end of the window. -/
theorem end_iff (h : EventList m ev d ps) (hne : ps ≠ []) (hw : Covering w ps) :
    Designates ps (RangesBody.getIndex m (m.links.blnk (.inl (.contrib ev.id d))) w.fin
        ((ev.npkts d + (2 ^ 16 - 1)) % 2 ^ 16)) w.fin
      ↔ (∀ p ∈ ps.getLast?, p.time.fin ≠ w.fin) ∧ ps.length ≤ 2 ^ 16 := by
  obtain ⟨init, l, rfl⟩ : ∃ init l, ps = init ++ [l] :=
    ⟨_, _, (List.dropLast_append_getLast hne).symm⟩
  have hl : l ∈ init ++ [l] := by simp
  have hget : (init ++ [l])[init.length]? = some l := List.getElem?_concat_length
  have hlast : m.links.blnk (.inl (.contrib ev.id d)) = .inr l.index := by
    rw [h.rep.tail]
    simp [cells]
  have hcount := h.npkts
  rw [List.length_append, List.length_singleton] at hcount ⊢
  have hmeets := (hw.meets l hl).2
  have hreach := hw.last l (by simp)
  have hfull := hw.gapless.full l hl
  rw [hlast, List.getLast?_concat]
  constructor
  · intro hdes
    obtain ⟨-, q, hq, hlo, hhi⟩ := RangesBody.getIndex_designates (h.tsRange hl) hdes
    have hbound := (List.getElem?_eq_some_iff.mp hq).1
    rw [List.length_append, List.length_singleton] at hbound
    -- an earlier packet would end before the last one begins
    have hpos : (ev.npkts d + (2 ^ 16 - 1)) % 2 ^ 16 = init.length := by
      by_contra hother
      have hle := hw.gapless.fin_le_beg hq hget (by omega)
      have hfullq := hw.gapless.full q (List.mem_of_getElem? hq)
      omega
    rw [hpos, hget] at hq
    obtain rfl := Option.some.inj hq
    refine ⟨fun p hp => ?_, by omega⟩
    obtain rfl := Option.some.inj hp
    omega
  · rintro ⟨hne, hshort⟩
    have hpos : (ev.npkts d + (2 ^ 16 - 1)) % 2 ^ 16 = init.length := by omega
    have hne := hne l rfl
    rw [hpos]
    exact RangesBody.designates_getIndex (h.tsRange hl) hfull hget hmeets (by omega)

/-- The index of the trigger time. -/
def trgIndex (m : Memory) (ev : Event) (d : Dest) : Nat :=
  (addRanges m ev d).m_dsc.m_indices.m_trigger

/-- Where the index of the trigger time designates it, no packet ends at that time. -/
theorem ne_trgTime (h : EventList m ev d ps) (hg : Gapless ps) (hshort : ps.length ≤ 2 ^ 16)
    (hdes : Designates ps (trgIndex m ev d) ev.trgTime) : ∀ p ∈ ps, p.time.fin ≠ ev.trgTime := by
  intro p hp heq
  obtain ⟨j, hj⟩ := List.mem_iff_getElem?.mp hp
  have hbeg := hg.beg_lt hp
  unfold trgIndex addRanges at hdes
  dsimp only at hdes
  rw [h.trig.node] at hdes
  cases hrec : recorded ev.trgTime ps with
  | none =>
      rw [hrec, Option.bind_none] at hdes
      exact absurd hdes.1 (show ¬(2 ^ 32 - 1) % 2 ^ 16 < 1024 by decide)
  | some i =>
      have hi : i < ps.length := Nat.lt_of_lt_of_le (recorded_lt hrec) (length_begun_le _ _)
      have hget : ps[i]? = some ps[i] := List.getElem?_eq_getElem hi
      have hcount : ev.trgNpkt d = i := by
        rw [h.trig.npkt i hrec]
        exact Nat.mod_eq_of_lt (by omega)
      rw [hrec, Option.bind_some, nodeAt, hget, Option.map_some, hcount] at hdes
      obtain ⟨-, r, hr, hlo, hhi⟩ :=
        RangesBody.getIndex_designates (h.tsRange (List.getElem_mem hi)) hdes
      rw [← hg.full r (List.mem_of_getElem? hr)] at hhi
      -- the packet would come before the one recorded, and not after it
      rcases Nat.lt_trichotomy j i with hlt | rfl | hgt
      · have hbefore := recorded_min hrec hlt hj
        omega
      · obtain rfl := Option.some.inj (hj.symm.trans hr)
        omega
      · have hafter := hg.fin_le_beg hr hj hgt
        omega

/-- Where no packet ends at the trigger time, the last one that begins in time is
recorded, and the time falls into it. -/
theorem trgIndex_designates (h : EventList m ev d ps) (hw : Covering w ps) (hne : ps ≠ [])
    (hfirst : ∀ p ∈ ps.head?, p.time.beg ≤ ev.trgTime) (hfin : ev.trgTime ≤ w.fin)
    (htrg : ∀ p ∈ ps, p.time.fin ≠ ev.trgTime) (hshort : ps.length ≤ 2 ^ 16) :
    Designates ps (trgIndex m ev d) ev.trgTime := by
  have horder := hw.gapless.inOrder
  obtain ⟨n, hn⟩ : ∃ n, (begun Packet.time ev.trgTime ps).length = n + 1 := by
    obtain ⟨p, rest, rfl⟩ := List.exists_cons_of_ne_nil hne
    refine Nat.exists_eq_succ_of_ne_zero (Nat.ne_of_gt ?_)
    exact (horder.getElem?_begun (i := 0) rfl).mpr (hfirst p rfl)
  have hlen : n < ps.length := by
    have hle : (begun Packet.time ev.trgTime ps).length ≤ ps.length := length_begun_le _ _
    omega
  have hget : ps[n]? = some ps[n] := List.getElem?_eq_getElem hlen
  have hmem : ps[n] ∈ ps := List.getElem_mem hlen
  have hbeg : ps[n].time.beg ≤ ev.trgTime := (horder.getElem?_begun hget).mp (by omega)
  -- the next packet begins later, or there is none
  have hreach : ev.trgTime ≤ ps[n].time.fin := by
    rcases Nat.lt_or_ge (n + 1) ps.length with hlt | hge
    · have hnext := List.getElem?_eq_getElem hlt
      have hlate : ¬ps[n + 1].time.beg ≤ ev.trgTime := fun hle => by
        have hbegun := (horder.getElem?_begun hnext).mpr hle
        omega
      have hjoin := List.isChain_iff_getElem.mp hw.gapless.joined n hlt
      omega
    · have hlast : ps.getLast? = some ps[n] := by
        rw [List.getLast?_eq_getElem?, ← hget]
        congr 1
        omega
      exact hfin.trans (hw.last _ hlast)
  have hrec : recorded ev.trgTime ps = some n := by
    refine ((trgReadable_iff hn).mp ⟨fun p hp => ?_, fun p hp => .inl ?_, by omega⟩).1
    · obtain ⟨j, hj, hp⟩ := mem_dropLast_begun hn hp
      have hle := (hw.gapless.fin_le_beg hp hget hj).trans hbeg
      exact Nat.lt_of_le_of_ne hle (htrg p (List.mem_of_getElem? hp))
    · rw [getLast?_begun hn, hget] at hp
      obtain rfl := Option.some.inj hp
      exact hreach
  have hcount : ev.trgNpkt d = n := by
    rw [h.trig.npkt n hrec]
    exact Nat.mod_eq_of_lt (by omega)
  unfold trgIndex addRanges
  dsimp only
  rw [h.trig.node, hrec, Option.bind_some, nodeAt, hget, Option.map_some, hcount]
  exact RangesBody.designates_getIndex (h.tsRange hmem) (hw.gapless.full _ hmem) hget hbeg
    (Nat.lt_of_le_of_ne hreach (htrg _ hmem).symm)

/-- **The ranges** designate the samples of the three times exactly when the list covers
the beginning of the window and no time looked for is the end of a packet. -/
theorem locates_iff (h : EventList m ev d ps) (hne : ps ≠ []) (hw : Covering ev.limits ps)
    (hbeg : ev.limits.beg ≤ ev.trgTime) (hfin : ev.trgTime ≤ ev.limits.fin) :
    (addRanges m ev d).Locates ps ↔ RangesReadable ev.limits ev.trgTime ps := by
  have hb := h.begin_iff hne hw
  have he := h.end_iff hne hw
  constructor
  · rintro ⟨hdesb, hdese, hdest⟩
    obtain ⟨hlast, hshort⟩ := he.mp hdese
    exact ⟨hb.mp hdesb, hlast, h.ne_trgTime hw.gapless hshort hdest, hshort⟩
  · rintro ⟨hfirst, hlast, htrg, hshort⟩
    refine ⟨hb.mpr hfirst, he.mpr ⟨hlast, hshort⟩, ?_⟩
    exact h.trgIndex_designates hw hne (fun p hp => (hfirst p hp).1.trans hbeg) hfin htrg hshort

end EventList

/-! ## The whole event -/

/-- What is recorded for contributor `d`, whose list is `ps`: the trigger node, and for a
stream without gaps the ranges. -/
structure TriggerLocated (m : Memory) (ev : Event) (d : Dest) (stream ps : List Packet) :
    Prop where
  node : TrgExact ev d ps
  ranges : Gapless stream → ps ≠ [] → (addRanges m ev d).Locates ps

/-- When that is right. -/
structure TriggerReadable (w : Span Nat) (t : Nat) (stream ps : List Packet) : Prop where
  node : TrgReadable t ps
  ranges : Gapless stream → ps ≠ [] → RangesReadable w t ps

/-- The stream of a destination is what was seen of it and what comes later. -/
theorem feed_eq_seen (lat : Dest → List Packet) (arrivals : List (Dest × Packet)) (j : Nat)
    (d : Dest) : feed lat arrivals d = seen lat arrivals j d ++ ofDest d (arrivals.drop j) := by
  rw [seen, ← feed, feed_feed, List.take_append_drop]

/-- Nothing that arrives after a contributor was completed is picked. -/
theorem picked_seen {w : Span Nat} {lat : Dest → List Packet} {arrivals : List (Dest × Packet)}
    {j : Nat} {d : Dest} (hfwd : Forward (feed lat arrivals d))
    (hdone : Completed w (seen lat arrivals j d)) :
    picked w (feed lat arrivals d) = picked w (seen lat arrivals j d) := by
  obtain ⟨p, hp, hcase⟩ := hdone
  have hle := hfwd.take j p hp
  have hend : w.fin ≤ p.time.fin := by
    rcases hcase with ⟨hfin, -⟩ | hlate
    · exact hfin
    · exact (Nat.le_of_lt hlate).trans hle
  unfold picked
  rw [feed_eq_seen lat arrivals j d, through_append ⟨p, hp, by simpa using hend⟩]

/-- **Trigger node and ranges.** For well-formed latency lists, any trigger time in the
window, streams in time order and any interleaving of later packets in available buffers:
the event is built, and when it is posted the trigger node and the ranges of a contributor
are right exactly when its list is readable. -/
theorem triggerRanges_iff (fuel : Nat) (m : Memory) (ev : Event) (lat : Dest → List Packet)
    (arrivals : List (Dest × Packet)) (hlat : LatencyLists m lat)
    (hbeg : ev.limits.beg ≤ ev.trgTime) (hfin : ev.trgTime ≤ ev.limits.fin)
    (hfwd : ∀ d, Forward (feed lat arrivals d))
    (horder : ∀ d, InOrder Packet.time (feed lat arrivals d))
    (havail : Available ev.limits lat arrivals)
    (hfuel : ∀ d, (lat d).length + arrivals.length < fuel) :
    ∃ m' ev' actions posted, ev.build fuel m arrivals = .ok (m', ev', actions, posted) ∧
      (posted = true → ∀ d,
        Rep m'.links (.inl (.contrib ev'.id d))
          (cells ((picked ev.limits (feed lat arrivals d)).map Packet.index)) ∧
        (TriggerLocated m' ev' d (feed lat arrivals d) (picked ev.limits (feed lat arrivals d)) ↔
          TriggerReadable ev.limits ev.trgTime (feed lat arrivals d)
            (picked ev.limits (feed lat arrivals d)))) := by
  have hw := hbeg.trans hfin
  obtain ⟨m1, ev1, σ1, m', ev', σ', actions, posted, hrun, hscan, he⟩ :=
    build_spec fuel m ev lat arrivals hlat hw hfwd havail hfuel
  have hsel := hscan.selection hw hfwd he
  have hid := he.id.trans hscan.id
  have hlim := he.limits.trans hscan.limits
  obtain ⟨htrig, htime⟩ := build_trig hlat hw hfwd horder havail hfuel hrun
  refine ⟨m', ev', actions, posted, hrun, fun hposted d => ?_⟩
  have hdone := hsel.posted_iff.mp hposted d
  have hlist := hsel.list d
  have hnpkts := hsel.npkts d
  have hd := htrig d
  rw [← picked_seen (hfwd d) hdone] at hlist hnpkts hd
  obtain ⟨ps, hps⟩ : ∃ ps, picked ev.limits (feed lat arrivals d) = ps := ⟨_, rfl⟩
  rw [← hid] at hlist
  rw [hps] at hlist hnpkts hd ⊢
  have hev : EventList m' ev' d ps := ⟨hlist, hnpkts, hd⟩
  have hsub := picked_sublist ev.limits (feed lat arrivals d)
  rw [hps] at hsub
  have hnode := hd.exact_iff ((horder d).sublist hsub) hev.index_nodup
  have hranges : Gapless (feed lat arrivals d) → ps ≠ [] →
      ((addRanges m' ev' d).Locates ps ↔ RangesReadable ev.limits ev.trgTime ps) := by
    intro hg hne
    have hcover : Covering ev'.limits ps := by
      rw [hlim, ← hps]
      refine ⟨hg.picked, fun p hp => mem_picked hp, fun p hp => hg.le_last_picked ?_ hp⟩
      obtain ⟨q, hq, hcase⟩ := hdone
      rw [feed_eq_seen lat arrivals actions.length d]
      exact ⟨q, List.mem_append_left _ hq, hcase⟩
    rw [← hlim, ← htime]
    exact hev.locates_iff hne hcover (by rwa [hlim, htime]) (by rwa [hlim, htime])
  rw [htime] at hnode
  exact ⟨hlist, fun h => ⟨hnode.mp h.node, fun hg hne => (hranges hg hne).mp (h.ranges hg hne)⟩,
    fun h => ⟨hnode.mpr h.node, fun hg hne => (hranges hg hne).mpr (h.ranges hg hne)⟩⟩

/-- A memory with empty latency lists. -/
def noPackets : Memory where
  links := ⟨id, id⟩
  body := fun _ => { tsRange := ⟨0, 0⟩, size := 0, status := 0 }
  remaining := fun _ => LatencyList.Depth
  returned := []

/-- An event whose trigger time is the end of a packet. -/
def boundaryEvent : Event where
  id := 0
  limits := ⟨1000, 30000⟩
  trgTime := 25600
  trgSequence := 0
  trgNode := fun _ => none
  trgNpkt := fun _ => 0
  nctbs := 0
  ctbs := 0
  npkts := fun _ => 0

/-- Two full packets of each destination. -/
def fullPackets : List (Dest × Packet) :=
  [(0, ⟨1, 0, 25600⟩), (1, ⟨2, 0, 25600⟩), (0, ⟨3, 25600, 51200⟩), (1, ⟨4, 25600, 51200⟩)]

/-- The second packet begins at the trigger time, and the first one is recorded. -/
theorem boundary_trgNode :
    ∃ m' ev' actions, boundaryEvent.build 9 noPackets fullPackets = .ok (m', ev', actions, true) ∧
      picked ⟨1000, 30000⟩ (feed (fun _ => []) fullPackets 0)
        = [⟨1, 0, 25600⟩, ⟨3, 25600, 51200⟩] ∧
      ev'.trgNode 0 = some (.inr 1) ∧
      ¬TrgExact ev' 0 [⟨1, 0, 25600⟩, ⟨3, 25600, 51200⟩] ∧
      (addRanges m' ev' 0).m_dsc.m_indices.m_trigger = 1024 := by
  refine ⟨_, _, _, rfl, rfl, rfl, fun h => ?_, rfl⟩
  have hlast : LastBegun Packet.time 25600 [⟨1, 0, 25600⟩, ⟨3, 25600, 51200⟩] 1 := by
    refine ⟨⟨_, rfl, Nat.le_refl _⟩, fun j y hy _ => ?_⟩
    have hj := (List.getElem?_eq_some_iff.mp hy).1
    exact Nat.le_of_lt_succ hj
  have hnode := (h.last 1 _ hlast rfl).1
  revert hnode
  decide

theorem noPackets_latencyLists : LatencyLists noPackets fun _ => [] := by
  refine ⟨⟨?_, ?_, ?_⟩, fun d => nofun⟩
  · rintro _ ⟨d, rfl⟩
    exact ⟨rfl, by simp [cells]⟩
  · rintro _ ⟨d, rfl⟩ _ ⟨d', rfl⟩ n hn
    cases hn
  · rintro _ ⟨d, rfl⟩
    exact .inl rfl

theorem triggerRanges_iff_boundary :
    ∃ m' ev' actions posted,
      boundaryEvent.build 9 noPackets fullPackets = .ok (m', ev', actions, posted) ∧
      (posted = true → ∀ d,
        Rep m'.links (.inl (.contrib ev'.id d))
          (cells ((picked ⟨1000, 30000⟩ (feed (fun _ => []) fullPackets d)).map Packet.index)) ∧
        (TriggerLocated m' ev' d (feed (fun _ => []) fullPackets d)
            (picked ⟨1000, 30000⟩ (feed (fun _ => []) fullPackets d)) ↔
          TriggerReadable ⟨1000, 30000⟩ 25600 (feed (fun _ => []) fullPackets d)
            (picked ⟨1000, 30000⟩ (feed (fun _ => []) fullPackets d)))) := by
  refine triggerRanges_iff 9 noPackets boundaryEvent (fun _ => []) fullPackets
    noPackets_latencyLists (by decide) (by decide) ?_ ?_ ?_ ?_
  · intro d p hp
    rcases dest_cases d with rfl | rfl <;> simp [feed, ofDest, fullPackets] at hp <;>
      rcases hp with rfl | rfl <;> decide
  · intro d
    rcases dest_cases d with rfl | rfl <;> simp [InOrder, feed, ofDest, fullPackets]
  · intro j d p hp d'
    rcases j with _ | _ | _ | _ | j
    iterate 4
      · simp [fullPackets] at hp
        obtain ⟨rfl, rfl⟩ := hp
        rcases dest_cases d' with rfl | rfl <;> decide
    · simp [fullPackets] at hp
  · intro d
    rcases dest_cases d with rfl | rfl <;> decide

end ProtoDune.Daq
