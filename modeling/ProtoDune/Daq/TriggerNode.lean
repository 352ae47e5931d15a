import ProtoDune.Daq.WindowSelection
import ProtoDune.Lib.Locate

/-!
# The trigger node of an event

`evaluate` records the first packet it appends that reaches the trigger time. When
one begins after it instead, and none is recorded, the list is scanned for the first
packet that begins at or before the trigger time.

Main results:

* `recorded_snoc` — the rule, packet by packet.
* `recorded_last_iff` — when the packet recorded is the last that begins in time.
* `build_recorded` — what is recorded when an event is built.
-/

namespace ProtoDune.Daq

open WindowSelect Locate LinkChain

/-! ## The rule -/

/-- The position of the packet recorded for the trigger time `t`. -/
def recorded (t : Nat) (ps : List Packet) : Option Nat :=
  ((begun Packet.time t ps).findIdx? fun p => decide (t ≤ p.time.fin)).or
    (if 0 < (begun Packet.time t ps).length ∧ (begun Packet.time t ps).length < ps.length
      then some 0 else none)

/-- What happens to the record when a packet is appended. -/
theorem recorded_snoc {t : Nat} {ps : List Packet} {p : Packet}
    (h : InOrder Packet.time (ps ++ [p])) :
    recorded t (ps ++ [p]) = (recorded t ps).or
      (if t < p.time.beg then (ps ++ [p]).findIdx? fun q => decide (q.time.beg ≤ t)
        else if t ≤ p.time.fin then some ps.length else none) := by
  obtain ⟨hps, hp⟩ := InOrder.snoc.mp h
  have hlen : (begun Packet.time t ps).length ≤ ps.length := length_begun_le t ps
  unfold recorded
  rw [begun_snoc]
  by_cases hall : (begun Packet.time t ps).length = ps.length
  · have heq := begun_eq_self_of_length hall
    rw [heq]
    by_cases hpt : p.time.beg ≤ t
    · -- all have begun: the packet counts if it reaches the time
      simp [hpt, Nat.not_lt.mpr hpt]
    · -- all but the packet: from now on the first of them counts
      rw [if_neg fun h => hpt h.2, if_pos (Nat.not_le.mp hpt)]
      cases ps with
      | nil => simp [hpt]
      | cons q qs =>
          have hq : q.time.beg ≤ t := begun_eq_self_iff.mp heq q List.mem_cons_self
          simp [List.findIdx?_cons, hq]
  · -- the record does not change any more
    have hlt : (begun Packet.time t ps).length < ps.length :=
      Nat.lt_of_le_of_ne hlen hall
    have hlate : t < p.time.beg := by
      have hget := List.getElem?_eq_getElem hlt
      have hnot : ¬(ps[(begun Packet.time t ps).length]).time.beg ≤ t := fun hle =>
        Nat.lt_irrefl _ ((hps.getElem?_begun hget).mpr hle)
      exact Nat.lt_of_lt_of_le (Nat.not_le.mp hnot) (hp _ (List.getElem_mem hlt))
    rw [if_neg fun h => hall h.1, if_pos hlate]
    rcases Nat.eq_zero_or_pos (begun Packet.time t ps).length with hzero | hpos
    · -- nothing has begun
      have hnone : (ps ++ [p]).findIdx? (fun q => decide (q.time.beg ≤ t)) = none := by
        rw [List.findIdx?_eq_none_iff]
        intro q hq
        rw [decide_eq_false_iff_not]
        intro hqt
        obtain ⟨i, hi⟩ := List.mem_iff_getElem?.mp hq
        have hbegun := (h.getElem?_begun hi).mpr hqt
        rw [begun_snoc, if_neg fun h => hall h.1] at hbegun
        omega
      rw [hnone, Option.or_none]
      simp [hzero]
    · simp [hpos, hlt, Nat.lt_succ_of_lt hlt]

/-- Nothing is recorded where nothing has begun. -/
theorem recorded_none {t : Nat} {ps : List Packet} (h : begun Packet.time t ps = []) :
    recorded t ps = none := by
  rw [recorded, h]
  rfl

theorem recorded_lt {t i : Nat} {ps : List Packet} (h : recorded t ps = some i) :
    i < (begun Packet.time t ps).length := by
  rw [recorded, Option.or_eq_some_iff] at h
  rcases h with h | ⟨-, h⟩
  · exact (List.findIdx?_eq_some_iff_findIdx_eq.mp h).1
  · split at h
    · next hlt =>
        obtain rfl : 0 = i := Option.some.inj h
        exact hlt.1
    · cases h

/-- The packets before the one recorded end before the time. -/
theorem recorded_min {t i j : Nat} {ps : List Packet} {p : Packet} (h : recorded t ps = some i)
    (hj : j < i) (hp : ps[j]? = some p) : p.time.fin < t := by
  have hlen := recorded_lt h
  rw [recorded, Option.or_eq_some_iff] at h
  rcases h with h | ⟨-, h⟩
  · obtain ⟨_, _, hmin⟩ := List.findIdx?_eq_some_iff_getElem.mp h
    have hbefore := hmin j hj
    have hget : (begun Packet.time t ps)[j]? = some p := by
      rw [begun_eq_take, List.getElem?_take_of_lt (by omega), hp]
    rw [(List.getElem?_eq_some_iff.mp hget).2] at hbefore
    simpa using hbefore
  · split at h
    · obtain rfl : 0 = i := Option.some.inj h
      exact absurd hj (Nat.not_lt_zero j)
    · cases h

/-- The last packet that has begun is recorded when none before it reaches the time, and
it does, or is alone and a later one follows. -/
theorem recorded_last_iff {t n : Nat} {ps : List Packet}
    (hn : (begun Packet.time t ps).length = n + 1) :
    recorded t ps = some n ↔ (∀ p ∈ (begun Packet.time t ps).dropLast, p.time.fin < t)
      ∧ ((∀ p ∈ (begun Packet.time t ps).getLast?, t ≤ p.time.fin) ∨ n = 0 ∧ 1 < ps.length) := by
  unfold recorded
  obtain ⟨init, l, hfront⟩ : ∃ init l, begun Packet.time t ps = init ++ [l] :=
    ⟨_, _, (List.dropLast_append_getLast (List.ne_nil_of_length_eq_add_one hn)).symm⟩
  rw [hfront] at hn ⊢
  obtain rfl : init.length = n := by simpa using hn
  rw [List.findIdx?_append, List.dropLast_concat, List.getLast?_concat]
  cases hfind : init.findIdx? fun p => decide (t ≤ p.time.fin) with
  | some i =>
      -- an earlier packet is recorded
      obtain ⟨hi, hfin, -⟩ := List.findIdx?_eq_some_iff_getElem.mp hfind
      have hne : i ≠ init.length := Nat.ne_of_lt hi
      have hnot : ¬∀ p ∈ init, p.time.fin < t := fun hall =>
        absurd (hall _ (List.getElem_mem hi)) (Nat.not_lt.mpr (by simpa using hfin))
      simp [hne, hnot]
  | none =>
      have hall : ∀ p ∈ init, p.time.fin < t := fun p hp => by
        simpa using List.findIdx?_eq_none_iff.mp hfind p hp
      rw [and_iff_right hall]
      by_cases hl : t ≤ l.time.fin
      · simp [hl]
      · -- no packet reaches the time: the first one counts
        have hlast : ¬∀ p ∈ some l, t ≤ p.time.fin := fun h => hl (h l rfl)
        rw [List.findIdx?_singleton, if_neg (by simpa using hl), Option.map_none, Option.or_none,
          Option.none_or, or_iff_right hlast, List.length_append, List.length_singleton]
        split_ifs with hlen
        · rw [Option.some.injEq]
          omega
        · refine iff_of_false nofun ?_
          omega

/-! ## The scan -/

/-- The address and the number of the packet at a position of a list. -/
def nodeAt (ps : List Packet) (i : Nat) : Option Addr :=
  (ps[i]?).map fun p => .inr p.index

/-- The scan finds the first packet that begins at or before the time. -/
theorem scanForTriggerNode_eq {m : Memory} {live : Set Head} {σ : Head → List Nat} {list : Head}
    (hs : ListStore m.links live σ) (hl : list ∈ live) (ht : Tight m.links list (σ list))
    (trgTime : Nat) (qs : List Packet) : ∀ {pre : List Nat} {q : Packet} {fuel : Nat} (npkt : Nat),
    σ list = pre ++ (q :: qs).map Packet.index →
    (∀ p ∈ q :: qs, (m.body p.index).tsRange = p.time) → qs.length < fuel →
    scanForTriggerNode m list trgTime fuel (.inr q.index) npkt
      = .ok (((q :: qs).findIdx? fun p => decide (p.time.beg ≤ trgTime)).bind fun i =>
          (nodeAt (q :: qs) i).map fun node => (node, (npkt + i) % 2 ^ 16)) := by
  induction qs with
  | nil =>
      intro pre q fuel npkt hσ htime hfuel
      obtain ⟨f, rfl⟩ := Nat.exists_eq_succ_of_ne_zero (Nat.ne_of_gt hfuel)
      have hlast : m.links.blnk (.inl list) = .inr q.index := by
        rw [ht, hσ]
        simp [cells]
      have hq : m.tsRange (.inr q.index) = q.time := htime q List.mem_cons_self
      rw [scanForTriggerNode, hq, hlast, if_pos rfl]
      by_cases hle : q.time.beg ≤ trgTime <;> simp [hle, nodeAt]
  | cons r rs ih =>
      intro pre q fuel npkt hσ htime hfuel
      obtain ⟨f, rfl⟩ := Nat.exists_eq_succ_of_ne_zero (Nat.ne_of_gt (Nat.zero_lt_of_lt hfuel))
      have hq : m.tsRange (.inr q.index) = q.time := htime q List.mem_cons_self
      have hnext : m.links.flnk (.inr q.index) = .inr r.index := by
        have hc := (hs.holds list hl).chain
        rw [hσ, show (cells (pre ++ (q :: r :: rs).map Packet.index) : List Addr) =
          cells pre ++ .inr q.index :: .inr r.index :: cells (rs.map Packet.index) by
            simp [cells]] at hc
        exact (LinkChain.chain_append.mp hc).2.1
      -- the packet is not the last one: no buffer is on the list twice
      have hnot : Sum.inr q.index ≠ m.links.blnk (.inl list) := by
        have hnd := hs.nodup hl
        rw [hσ, List.map_cons] at hnd
        have hmem := (List.nodup_cons.mp (List.nodup_append.mp hnd).2.1).1
        have hlast : lastCell (.inl list) (cells (pre ++ (q :: r :: rs).map Packet.index))
            = lastCell (.inr r.index) (cells (rs.map Packet.index) : List Addr) := by
          simp [cells]
        rw [ht, hσ, hlast]
        intro heq
        have hin : Sum.inr q.index ∈ (cells ((r :: rs).map Packet.index) : List Addr) := by
          rw [heq]
          exact List.getLast_mem _
        exact hmem (inr_mem_cells.mp hin)
      rw [scanForTriggerNode, hq, if_neg hnot, hnext]
      rw [ih (npkt + 1) (hσ.trans (List.append_cons pre q.index _))
        (fun p hp => htime p (List.mem_cons_of_mem q hp)) (Nat.lt_of_succ_lt_succ hfuel)]
      rw [List.findIdx?_cons (x := q)]
      by_cases hle : q.time.beg ≤ trgTime
      · simp [hle, nodeAt]
      · rw [if_neg hle, if_neg (by simpa using hle), Option.bind_map]
        refine congrArg Except.ok (congrArg _ (funext fun i => ?_))
        rw [Function.comp, nodeAt, nodeAt, List.getElem?_cons_succ, Nat.add_right_comm, Nat.add_assoc]

/-! ## One packet -/

/-- What is recorded for contributor `d` is what the packets `ps` of its list say. -/
structure Trig (m : Memory) (ev : Event) (d : Dest) (ps : List Packet) : Prop where
  time : ∀ p ∈ ps, (m.body p.index).tsRange = p.time
  node : ev.trgNode d = (recorded ev.trgTime ps).bind (nodeAt ps)
  npkt : ∀ i ∈ recorded ev.trgTime ps, ev.trgNpkt d = i % 2 ^ 16

/-- What a step leaves of the record of contributor `d`. -/
structure SameTrig (ev ev' : Event) (d : Dest) : Prop where
  trgTime : ev'.trgTime = ev.trgTime
  node : ev'.trgNode d = ev.trgNode d
  npkt : ev'.trgNpkt d = ev.trgNpkt d

theorem SameTrig.refl (ev : Event) (d : Dest) : SameTrig ev ev d := ⟨rfl, rfl, rfl⟩

theorem SameTrig.trans {ev ev' ev'' : Event} {d : Dest} (h : SameTrig ev ev' d)
    (h' : SameTrig ev' ev'' d) : SameTrig ev ev'' d :=
  ⟨h'.trgTime.trans h.trgTime, h'.node.trans h.node, h'.npkt.trans h.npkt⟩

namespace Trig

variable {m m' : Memory} {ev ev' : Event} {d dest : Dest} {ps : List Packet}

/-- Another step with the same record and times. -/
theorem congr (h : Trig m ev d ps) (hsame : SameTrig ev ev' d)
    (htime : ∀ p ∈ ps, (m'.body p.index).tsRange = (m.body p.index).tsRange) :
    Trig m' ev' d ps where
  time p hp := (htime p hp).trans (h.time p hp)
  node := by rw [hsame.node, hsame.trgTime, h.node]
  npkt i hi := by
    rw [hsame.trgTime] at hi
    rw [hsame.npkt, h.npkt i hi]

/-- Something is recorded when the rule says so. -/
theorem node_eq_none (h : Trig m ev d ps) :
    ev.trgNode d = none ↔ recorded ev.trgTime ps = none := by
  rw [h.node]
  cases hrec : recorded ev.trgTime ps with
  | none => simp
  | some i =>
      have hi := Nat.lt_of_lt_of_le (recorded_lt hrec) (length_begun_le _ _)
      simp [nodeAt, hi]

/-- A prepared contributor has nothing recorded. -/
theorem nil (h : ev.trgNode d = none) : Trig m ev d [] where
  time := nofun
  node := h
  npkt := nofun

/-- What is recorded when a packet is appended. -/
theorem snoc (h : Trig m ev d ps) {p : Packet} (hp : (m.body p.index).tsRange = p.time)
    (hnode : ev'.trgNode d = (recorded ev'.trgTime (ps ++ [p])).bind (nodeAt (ps ++ [p])))
    (hnpkt : ∀ i ∈ recorded ev'.trgTime (ps ++ [p]), ev'.trgNpkt d = i % 2 ^ 16) :
    Trig m ev' d (ps ++ [p]) := by
  refine ⟨fun q hq => ?_, hnode, hnpkt⟩
  rcases List.mem_append.mp hq with hq | hq
  · exact h.time q hq
  · rwa [List.mem_singleton.mp hq]

end Trig

theorem nodeAt_append {ps qs : List Packet} {i : Nat} (hi : i < ps.length) :
    nodeAt (ps ++ qs) i = nodeAt ps i := by
  rw [nodeAt, nodeAt, List.getElem?_append_left hi]

/-- Recording the trigger node after packet `p` was appended. -/
theorem Trig.findTrigger {m : Memory} {ev ev' : Event} {d : Dest} {ps : List Packet} {p : Packet}
    {live : Set Head} {σ : Head → List Nat} {fuel : Nat} (h : Trig m ev d ps)
    (hs : ListStore m.links live σ) (hl : .contrib ev.id d ∈ live)
    (ht : Tight m.links (.contrib ev.id d) (σ (.contrib ev.id d)))
    (hσ : σ (.contrib ev.id d) = (ps ++ [p]).map Packet.index)
    (hp : (m.body p.index).tsRange = p.time) (horder : InOrder Packet.time (ps ++ [p]))
    (hfuel : ps.length < fuel)
    (hrun : ev.findTrigger fuel m (.inr p.index) d (ps.length % 2 ^ 16) = .ok ev') :
    Trig m ev' d (ps ++ [p]) ∧ ∀ e ≠ d, SameTrig ev ev' e := by
  have hsnoc := recorded_snoc (t := ev.trgTime) horder
  unfold Event.findTrigger at hrun
  by_cases hnone : ev.trgNode d = none
  · have hrec := h.node_eq_none.mp hnone
    rw [hrec, Option.none_or] at hsnoc
    rw [if_pos hnone, show m.tsRange (.inr p.index) = p.time from hp] at hrun
    by_cases hlate : ev.trgTime < p.time.beg
    · -- the scan
      rw [if_pos hlate] at hsnoc hrun
      obtain ⟨q, qs, hqs⟩ := List.exists_cons_of_ne_nil (show ps ++ [p] ≠ [] by simp)
      have htimes : ∀ r ∈ q :: qs, (m.body r.index).tsRange = r.time := fun r hr => by
        rw [← hqs] at hr
        rcases List.mem_append.mp hr with hr | hr
        · exact h.time r hr
        · rwa [List.mem_singleton.mp hr]
      have hlen : qs.length < fuel := by
        have hcount := congrArg List.length hqs
        simp only [List.length_append, List.length_cons, List.length_nil] at hcount
        omega
      have hfirst : m.links.flnk (.inl (.contrib ev.id d)) = .inr q.index := by
        have hc := (hs.holds _ hl).chain
        rw [hσ, hqs] at hc
        exact hc.1
      have hpre : σ (.contrib ev.id d) = [] ++ (q :: qs).map Packet.index := by
        rw [hσ, hqs, List.nil_append]
      have hscan := scanForTriggerNode_eq hs hl ht ev.trgTime qs 0 hpre htimes hlen
      rw [← hqs] at hscan
      simp only [hfirst, hscan, bind, Except.bind] at hrun
      rw [← hsnoc] at hrun
      cases hfound : recorded ev.trgTime (ps ++ [p]) with
      | none =>
          obtain rfl : ev = ev' := by simpa [hfound] using hrun
          exact ⟨h.snoc hp (by rw [hfound, hnone]; rfl) (by rw [hfound]; nofun),
            fun e _ => SameTrig.refl ev e⟩
      | some i =>
          have hi : i < (ps ++ [p]).length :=
            Nat.lt_of_lt_of_le (recorded_lt hfound) (length_begun_le _ _)
          have hnode : nodeAt (ps ++ [p]) i = some (.inr (ps ++ [p])[i].index) := by
            rw [nodeAt, List.getElem?_eq_getElem hi, Option.map_some]
          rw [hfound, Option.bind_some, hnode] at hrun
          obtain rfl := Except.ok.inj hrun
          refine ⟨h.snoc hp ?_ ?_, fun e he => ⟨rfl, Function.update_of_ne he _ _,
            Function.update_of_ne he _ _⟩⟩
          · rw [hfound, Option.bind_some, hnode]
            exact Function.update_self _ _ _
          · intro j hj
            rw [hfound] at hj
            obtain rfl := Option.some.inj hj
            simp only [Function.update_self, Nat.zero_add]
    · rw [if_neg hlate] at hsnoc hrun
      by_cases hin : ev.trgTime ≤ p.time.fin
      · -- the packet itself
        rw [if_pos hin] at hsnoc hrun
        obtain rfl := Except.ok.inj hrun
        refine ⟨h.snoc hp ?_ ?_, fun e he => ⟨rfl, Function.update_of_ne he _ _,
          Function.update_of_ne he _ _⟩⟩
        · rw [hsnoc, Option.bind_some, nodeAt, List.getElem?_concat_length]
          exact Function.update_self _ _ _
        · intro j hj
          rw [hsnoc] at hj
          obtain rfl := Option.some.inj hj
          exact Function.update_self _ _ _
      · rw [if_neg hin] at hsnoc hrun
        obtain rfl := Except.ok.inj hrun
        exact ⟨h.snoc hp (by rw [hsnoc, hnone]; rfl) (by rw [hsnoc]; nofun),
          fun e _ => SameTrig.refl ev e⟩
  · -- the record stands
    rw [if_neg hnone] at hrun
    obtain rfl := Except.ok.inj hrun
    obtain ⟨i, hi⟩ := Option.ne_none_iff_exists'.mp fun hrec => hnone (h.node_eq_none.mpr hrec)
    have hlen := Nat.lt_of_lt_of_le (recorded_lt hi) (length_begun_le _ _)
    rw [hi, Option.some_or] at hsnoc
    refine ⟨h.snoc hp ?_ ?_, fun e _ => SameTrig.refl ev e⟩
    · rw [h.node, hi, hsnoc, Option.bind_some, Option.bind_some, nodeAt_append hlen]
    · rw [hsnoc, ← hi]
      exact h.npkt

/-- `evaluate` concerns the record of contributor `dest` only, and only where the packet is
appended: then the record is that of `findTrigger`. -/
theorem evaluate_record {fuel : Nat} {m m' : Memory} {ev ev' : Event} {node : Addr} {dest : Dest}
    {action : Nat} (hrun : ev.evaluate fuel m node dest = .ok (m', ev', action)) :
    (∀ e, SameTrig ev ev' e) ∧ m'.body = m.body
        ∧ ¬(ev.ctbs &&& ctbMask dest ≠ 0 ∧ (verdict ev.limits (m.tsRange node)).keeps = true)
      ∨ ev.ctbs &&& ctbMask dest ≠ 0 ∧ (verdict ev.limits (m.tsRange node)).keeps = true
        ∧ m' = m.insertTail (.contrib ev.id dest) node
        ∧ ∃ ev2, (ev.countPacket dest).findTrigger fuel m' node dest (ev.npkts dest) = .ok ev2
          ∧ ∀ e, SameTrig ev2 ev' e := by
  unfold Event.evaluate at hrun
  by_cases hclosed : ev.ctbs &&& ctbMask dest = 0
  · rw [if_pos hclosed] at hrun
    obtain ⟨rfl, rfl, -⟩ : m = m' ∧ ev = ev' ∧ _ := by simpa using hrun
    exact .inl ⟨fun e => SameTrig.refl ev e, rfl, fun h => h.1 hclosed⟩
  rw [if_neg hclosed] at hrun
  by_cases hearly : (m.tsRange node).fin < ev.limits.beg
  · rw [if_pos hearly] at hrun
    obtain ⟨rfl, rfl, -⟩ : m = m' ∧ ev = ev' ∧ _ := by simpa using hrun
    refine .inl ⟨fun e => SameTrig.refl ev e, rfl, fun h => ?_⟩
    exact absurd (keeps_verdict.mp h.2).1 (Nat.not_le.mpr hearly)
  rw [if_neg hearly] at hrun
  by_cases hin : (m.tsRange node).beg ≤ ev.limits.fin
  · rw [if_pos hin] at hrun
    refine .inr ⟨hclosed, keeps_verdict.mpr ⟨Nat.not_lt.mp hearly, hin⟩, ?_⟩
    cases hfind : (ev.countPacket dest).findTrigger fuel (m.insertTail (.contrib ev.id dest) node)
        node dest (ev.npkts dest) with
    | error e => simp [hfind, bind, Except.bind] at hrun
    | ok ev2 =>
        simp only [hfind, bind, Except.bind] at hrun
        -- completing the contributor leaves the record alone
        have hdone : ∀ e, SameTrig ev2 (ev2.complete dest) e := fun e => ⟨rfl, rfl, rfl⟩
        split_ifs at hrun
        · obtain ⟨rfl, rfl, -⟩ : _ = m' ∧ ev2.complete dest = ev' ∧ _ := by simpa using hrun
          exact ⟨rfl, ev2, hfind, hdone⟩
        · obtain ⟨rfl, rfl, -⟩ : _ = m' ∧ ev2.complete dest = ev' ∧ _ := by simpa using hrun
          exact ⟨rfl, ev2, hfind, hdone⟩
        · obtain ⟨rfl, rfl, -⟩ : _ = m' ∧ ev2 = ev' ∧ _ := by simpa using hrun
          exact ⟨rfl, ev2, hfind, fun e => SameTrig.refl ev2 e⟩
  · rw [if_neg hin, if_pos hclosed] at hrun
    have hlate : ¬(ev.ctbs &&& ctbMask dest ≠ 0
        ∧ (verdict ev.limits (m.tsRange node)).keeps = true) := fun h =>
      hin (keeps_verdict.mp h.2).2
    dsimp only at hrun
    split_ifs at hrun
    all_goals
      obtain ⟨rfl, rfl, -⟩ : m = m' ∧ ev.complete dest = ev' ∧ _ := by simpa using hrun
      exact .inl ⟨fun e => ⟨rfl, rfl, rfl⟩, rfl, hlate⟩

/-- The lists of the event hold packets, and what is recorded is what they say. -/
def Recorded (m : Memory) (ev : Event) (σ : Head → List Nat) (P : Set Dest)
    (lists : Dest → List Packet) : Prop :=
  ∀ d ∈ P, σ (.contrib ev.id d) = (lists d).map Packet.index ∧ Trig m ev d (lists d)

/-- The lists after packet `p` with verdict `v` was offered. -/
def offeredTo (lists : Dest → List Packet) (closed : Dest → Bool) (dest : Dest) (p : Packet)
    (v : Verdict) : Dest → List Packet :=
  if closed dest = false ∧ v.keeps = true then
    Function.update lists dest (lists dest ++ [p])
  else lists

/-- One packet offered to the event. -/
theorem Recorded.evaluate {live : Set Head} {m m' : Memory} {ev ev' : Event}
    {σ : Head → List Nat} {P : Set Dest} {closed : Dest → Bool} {dest : Dest} {p : Packet}
    {fuel action : Nat} {lists : Dest → List Packet} (h : Recorded m ev σ P lists)
    (hb : Building live m ev σ P closed) (hd : dest ∈ P) (hn : ∀ h ∈ live, p.index ∉ σ h)
    (hp : (m.body p.index).tsRange = p.time)
    (horder : InOrder Packet.time (lists dest ++ [p])) (hfuel : (lists dest).length < fuel)
    (hid : ev'.id = ev.id)
    (hrun : ev.evaluate fuel m (.inr p.index) dest = .ok (m', ev', action)) :
    Recorded m' ev' (offered ev.id σ closed dest p.index (p.verdict ev.limits)) P
      (offeredTo lists closed dest p (p.verdict ev.limits)) := by
  have hopen : ev.ctbs &&& ctbMask dest ≠ 0 ↔ closed dest = false := by
    rw [ne_eq, hb.ctbs_and, Bool.not_eq_true]
  have htime : m.tsRange (.inr p.index) = p.time := hp
  rw [offered, offeredTo]
  rcases evaluate_record hrun with ⟨hsame, hbody, hnot⟩ | ⟨hpend, hkeeps, hm', ev2, hfind, hsame⟩
  · rw [htime, hopen, ← Packet.verdict] at hnot
    rw [if_neg hnot, if_neg hnot]
    intro d hdP
    rw [hid]
    exact ⟨(h d hdP).1, (h d hdP).2.congr (hsame d) fun q _ => by rw [hbody]⟩
  · rw [htime] at hkeeps
    have hcond : closed dest = false ∧ (p.verdict ev.limits).keeps = true :=
      ⟨hopen.mp hpend, hkeeps⟩
    rw [if_pos hcond, if_pos hcond]
    obtain ⟨hσ, htrig⟩ := h dest hd
    have hb1 := hb.append hd hn
    rw [← hm'] at hb1
    have hcount : ∀ d, SameTrig ev (ev.countPacket dest) d := fun d => ⟨rfl, rfl, rfl⟩
    have hbody : m'.body = m.body := by rw [hm']; rfl
    have hlist : Function.update σ (.contrib ev.id dest) (σ (.contrib ev.id dest) ++ [p.index])
        (.contrib ev.id dest) = (lists dest ++ [p]).map Packet.index := by
      rw [Function.update_self, hσ, List.map_append, List.map_singleton]
    rw [hb.npkts dest hd, hσ, List.length_map] at hfind
    obtain ⟨hnew, hothers⟩ := (htrig.congr (hcount dest) fun q _ => by rw [hbody]).findTrigger
      hb1.store (hb1.mem dest hd) (hb1.tight dest hd) hlist (by rw [hbody, hp]) horder hfuel hfind
    intro d hdP
    rw [hid]
    rcases eq_or_ne d dest with rfl | hne
    · have hmine : Function.update lists d (lists d ++ [p]) d = lists d ++ [p] :=
        Function.update_self _ _ _
      rw [hmine]
      exact ⟨hlist, hnew.congr (hsame d) fun q _ => rfl⟩
    · rw [Function.update_of_ne (by simp [hne]), Function.update_of_ne hne]
      refine ⟨(h d hdP).1, (h d hdP).2.congr ?_ fun q _ => by rw [hbody]⟩
      exact ((hcount d).trans (hothers d hne)).trans (hsame d)

end ProtoDune.Daq
