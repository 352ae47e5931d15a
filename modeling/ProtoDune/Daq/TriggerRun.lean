import ProtoDune.Daq.TriggerNode

/-!
# The trigger node while an event is built

What is recorded for a contributor is what the packets on its list say, through the
scan of the latency lists and the packets that arrive later.

Main results:

* `seedAndDrain_trig` — after both latency lists were scanned.
* `evaluateAll_trig` — after the arrivals were evaluated.
* `build_trig` — after an event was built.
-/

namespace ProtoDune.Daq

open WindowSelect Locate LinkChain

/-- The packets each stream gives to the event. -/
def takenOf (w : Span Nat) (str : Dest → List Packet) (d : Dest) : List Packet :=
  selected (Packet.verdict w) (str d)

theorem offeredTo_open {lists : Dest → List Packet} {closed : Dest → Bool} {dest : Dest}
    (hopen : closed dest = false) (p : Packet) (v : Verdict) :
    offeredTo lists closed dest p v
      = Function.update lists dest (lists dest ++ if v.keeps then [p] else []) := by
  unfold offeredTo
  cases hk : v.keeps with
  | true => rw [if_pos ⟨hopen, rfl⟩, if_pos rfl]
  | false =>
      rw [if_neg (by simp), if_neg (by simp), List.append_nil]
      exact (Function.update_eq_self dest lists).symm

/-- Offering a packet to the event is feeding it to its stream. -/
theorem offeredTo_takenOf (w : Span Nat) (str : Dest → List Packet) (dest : Dest) (p : Packet) :
    offeredTo (takenOf w str) (closedOf w str) dest p (p.verdict w)
      = takenOf w (feed str [(dest, p)]) := by
  funext d
  unfold takenOf offeredTo closedOf
  rw [feed_singleton]
  by_cases hd : dest = d
  · subst hd
    rw [if_pos rfl, selected_snoc]
    cases closed (Packet.verdict w) (str dest) <;> cases (p.verdict w).keeps <;> simp
  · rw [if_neg hd]
    split
    · exact Function.update_of_ne (Ne.symm hd) _ _
    · rfl

/-- The event gets packets in the order of their stream. -/
theorem selected_sublist (v : Packet → Verdict) (ps : List Packet) :
    (selected v ps).Sublist ps :=
  List.filter_sublist.trans (prefix_through _ ps).sublist

/-! ## Scanning a latency list -/

section Seed

variable {live : Set Head} {P : Set Dest} {ictb : Dest} {fuel : Nat}

theorem offered_open {σ : Head → List Nat} {closed : Dest → Bool} {id n : Nat}
    (hopen : closed ictb = false) (v : Verdict) :
    offered id σ closed ictb n v
      = Function.update σ (.contrib id ictb)
          (σ (.contrib id ictb) ++ if v.keeps then [n] else []) := by
  unfold offered
  cases hk : v.keeps with
  | true => rw [if_pos ⟨hopen, rfl⟩, if_pos rfl]
  | false =>
      rw [if_neg (by simp), if_neg (by simp), List.append_nil]
      exact (Function.update_eq_self _ σ).symm

/-- One pass of the scan: packet `p` is popped off the latency list and offered. -/
theorem Recorded.scanned {m m1 m2 : Memory} {ev ev2 : Event} {σ : Head → List Nat}
    {closed : Dest → Bool} {lists : Dest → List Packet} {p : Packet} {xs : List Nat}
    {action : Nat} (hrec : Recorded m ev σ P lists) (hb : Building live m ev σ P closed)
    (hd : ictb ∈ P) (hl : Head.latency ictb ∈ live) (hopen : closed ictb = false)
    (hσ : σ (.latency ictb) = p.index :: xs) (hp : (m.body p.index).tsRange = p.time)
    (horder : InOrder Packet.time (lists ictb ++ [p])) (hfuel : (lists ictb).length < fuel)
    (hrm : m.removeHead (.latency ictb) = (m1, some (.inr p.index)))
    (heval : ev.evaluate fuel m1 (.inr p.index) ictb = .ok (m2, ev2, action))
    (hs : Scanned live P m ev σ closed ictb p.index xs m2 ev2) :
    Recorded m2 ev2
      (Function.update (Function.update σ (.latency ictb) xs) (.contrib ev.id ictb)
        (σ (.contrib ev.id ictb) ++ if (p.verdict ev.limits).keeps then [p.index] else [])) P
      (Function.update lists ictb
        (lists ictb ++ if (p.verdict ev.limits).keeps then [p] else [])) := by
  obtain ⟨hb1, -, -⟩ := hb.popLatency hl hσ
  have hm1 : (m.removeHead (.latency ictb)).1 = m1 := by rw [hrm]
  have hbody : m1.body = m.body := by rw [← hm1]; rfl
  rw [hm1] at hb1
  have hcontrib : ∀ d, Function.update σ (.latency ictb) xs (.contrib ev.id d)
      = σ (.contrib ev.id d) := fun d => Function.update_of_ne (by simp) _ _
  have hrec1 : Recorded m1 ev (Function.update σ (.latency ictb) xs) P lists := by
    intro d hdP
    rw [hcontrib]
    exact ⟨(hrec d hdP).1, (hrec d hdP).2.congr (SameTrig.refl ev d) fun q _ => by rw [hbody]⟩
  have hrec2 := hrec1.evaluate hb1 hd hs.fresh (by rw [hbody, hp]) horder hfuel hs.framed.id heval
  rwa [offeredTo_open hopen, offered_open hopen, hcontrib] at hrec2

/-- One latency list: the record follows the packets that are moved to the event. -/
theorem seedContributor_trig (hd : ictb ∈ P) (hl : Head.latency ictb ∈ live) (ps : List Packet) :
    ∀ {m m' : Memory} {ev ev' : Event} {σ : Head → List Nat} {closed : Dest → Bool} {k : Nat}
      {post : Bool} {lists : Dest → List Packet},
    Building live m ev σ P closed → Recorded m ev σ P lists → closed ictb = false →
    σ (.latency ictb) = ps.map Packet.index → (∀ p ∈ ps, (m.body p.index).tsRange = p.time) →
    InOrder Packet.time (lists ictb ++ ps) → (lists ictb).length + ps.length < fuel →
    Event.seedContributor fuel ictb k m ev = .ok (m', ev', post) →
    ∀ d ∈ P, Trig m' ev' d
      (Function.update lists ictb (lists ictb ++ selected (Packet.verdict ev.limits) ps) d) := by
  induction ps with
  | nil =>
      intro m m' ev ev' σ closed k post lists hb hrec _ hσ _ _ _ hrun d hdP
      cases k with
      | zero => cases hrun
      | succ k =>
          have hrm : m.removeHead (.latency ictb) = (m, none) := by
            simp [Memory.removeHead, hb.store.removeHead_nil hl hσ]
          rw [Event.seedContributor, hrm] at hrun
          obtain ⟨rfl, rfl, -⟩ : _ = m' ∧ ev = ev' ∧ _ := by simpa using hrun
          rw [selected_nil, List.append_nil, Function.update_eq_self]
          exact (hrec d hdP).2.congr (SameTrig.refl ev d) fun p _ => rfl
  | cons p ps ih =>
      intro m m' ev ev' σ closed k post lists hb hrec hopen hσ htime horder hfuel hrun
      cases k with
      | zero => cases hrun
      | succ k =>
          have hσ' : σ (.latency ictb) = p.index :: ps.map Packet.index := hσ
          have hp := htime p List.mem_cons_self
          have hv : packetVerdict m ev p.index = p.verdict ev.limits := by
            rw [packetVerdict, hp, Packet.verdict]
          rw [List.length_cons] at hfuel
          have hlen : (lists ictb).length < fuel := by omega
          have hroom : (σ (.contrib ev.id ictb)).length < fuel := by
            rwa [(hrec ictb hd).1, List.length_map]
          have hsnoc : InOrder Packet.time (lists ictb ++ [p]) :=
            horder.sublist ((List.singleton_sublist.mpr List.mem_cons_self).append_left _)
          obtain ⟨m1, m2, ev2, hrm, heval, hs⟩ := hb.scan hd hl hσ' hroom
          have hrec2 := hrec.scanned hb hd hl hopen hσ' hp hsnoc hlen hrm heval hs
          rw [Event.seedContributor, hrm] at hrun
          simp only [heval, bind, Except.bind, hv] at hrun
          rw [selected_cons]
          -- a packet that closes the contributor ends the scan
          have hstop : ∀ {m3 : Memory}, m3.body = m2.body →
              (p.verdict ev.limits).closes = true →
              ∀ d ∈ P, Trig m3 ev2 d (Function.update lists ictb (lists ictb ++
                ((if (p.verdict ev.limits).keeps then [p] else [])
                  ++ if (p.verdict ev.limits).closes then []
                    else selected (Packet.verdict ev.limits) ps)) d) := by
            intro m3 hbody hcl d hdP
            rw [if_pos hcl, List.append_nil]
            exact (hrec2 d hdP).2.congr (SameTrig.refl ev2 d) fun q _ => by rw [hbody]
          -- after another one it goes on
          have hnext : ∀ m3 : Memory, m3.links = m2.links → m3.body = m2.body →
              (p.verdict ev.limits).closes = false →
              Event.seedContributor fuel ictb k m3 ev2 = .ok (m', ev', post) →
              ∀ d ∈ P, Trig m' ev' d (Function.update lists ictb (lists ictb ++
                ((if (p.verdict ev.limits).keeps then [p] else [])
                  ++ if (p.verdict ev.limits).closes then []
                    else selected (Packet.verdict ev.limits) ps)) d) := by
            intro m3 hlinks hbody hgo hrun3
            have hb3 := (hs.goOn hopen (by rwa [hv])).congr m3 hlinks
            rw [hv] at hb3
            have hrec3 : Recorded m3 ev2 _ P _ := fun d hdP =>
              ⟨(hrec2 d hdP).1,
                (hrec2 d hdP).2.congr (SameTrig.refl ev2 d) fun q _ => by rw [hbody]⟩
            have h3 := ih hb3 hrec3 hopen (by simp) (fun q hq => ?_) ?_ ?_ hrun3
            · rw [Function.update_self, Function.update_idem, hs.framed.limits,
                List.append_assoc] at h3
              rw [hgo, if_neg Bool.false_ne_true]
              exact h3
            · rw [hbody, hs.framed.body]
              exact htime q (List.mem_cons_of_mem p hq)
            · rw [Function.update_self, List.append_assoc]
              refine horder.sublist (List.Sublist.append_left ?_ _)
              split
              · exact List.Sublist.refl _
              · exact List.sublist_cons_self p ps
            · rw [Function.update_self, List.length_append]
              have hone : (if (p.verdict ev.limits).keeps then [p] else []).length ≤ 1 := by
                split <;> simp
              omega
          cases hverdict : p.verdict ev.limits with
          | early =>
              have hact : actionOf closed ictb .early = ACTION_M_FREE := by simp [actionOf, hopen]
              rw [hverdict, hact, if_pos (by decide)] at hrun
              rw [hverdict] at hnext
              exact hnext ((m2.dmaRetIndex (.inr p.index)).addRemaining ictb 1) rfl rfl rfl hrun
          | inside =>
              have hact : actionOf closed ictb .inside = ACTION_M_NONE := by
                simp [actionOf, hopen]
              have hpend : ¬ ev2.ctbs &&& ctbMask ictb = 0 := by
                rw [hs.building.ctbs_and, hv, hverdict, closedAfter, Function.update_self, hopen]
                decide
              rw [hverdict, hact, if_neg (by decide), if_neg (by decide), if_neg (by decide),
                if_neg hpend] at hrun
              rw [hverdict] at hnext
              exact hnext (m2.addRemaining ictb 1) rfl rfl rfl hrun
          | last =>
              have hdone : ev2.ctbs &&& ctbMask ictb = 0 := by
                rw [hs.building.ctbs_and, hv, hverdict, closedAfter, Function.update_self]
                simp
              have hact : actionOf closed ictb .last &&& ACTION_M_FREE = 0 ∧
                  actionOf closed ictb .last &&& ACTION_M_ADDTOLATENCY = 0 := by
                unfold actionOf
                simp only [hopen, Bool.false_eq_true, if_false]
                split <;> decide
              rw [hverdict, hact.1, hact.2, if_neg (by simp), if_neg (by simp), if_pos hdone]
                at hrun
              rw [hverdict] at hstop
              split at hrun
              all_goals
                obtain ⟨rfl, rfl, -⟩ : _ = m' ∧ ev2 = ev' ∧ _ := by simpa using hrun
                exact hstop rfl rfl
          | late =>
              have hact : actionOf closed ictb .late &&& ACTION_M_FREE = 0 ∧
                  actionOf closed ictb .late &&& ACTION_M_ADDTOLATENCY ≠ 0 := by
                unfold actionOf
                simp only [hopen, Bool.false_eq_true, if_false]
                split <;> decide
              rw [hverdict, hact.1, if_neg (by simp), if_pos hact.2] at hrun
              rw [hverdict] at hstop
              obtain ⟨rfl, rfl, -⟩ : _ = m' ∧ ev2 = ev' ∧ _ := by simpa using hrun
              exact hstop rfl rfl

/-- The verdicts on buffers are those on the packets in them. -/
theorem packetVerdict_of_time {m : Memory} {ps : List Packet}
    (htime : ∀ p ∈ ps, (m.body p.index).tsRange = p.time) (ev : Event) :
    ∀ p ∈ ps, packetVerdict m ev p.index = p.verdict ev.limits := by
  intro p hp
  rw [packetVerdict, htime p hp, Packet.verdict]

/-- What scanning moves to contributor `ictb`. -/
theorem seeded_contrib (id : Nat) (σ : Head → List Nat) (sel rest : List Nat) (d : Dest) :
    seeded id ictb (Function.update σ (.contrib id ictb) []) sel rest (.contrib id d)
      = if d = ictb then sel else σ (.contrib id d) := by
  unfold seeded
  rw [Function.update_of_ne (by simp)]
  by_cases hd : d = ictb
  · subst hd
    rw [Function.update_self, Function.update_self, List.nil_append, if_pos rfl]
  · rw [Function.update_of_ne (by simp [hd]), Function.update_of_ne (by simp [hd]), if_neg hd]

/-- One pass of the loop of `seedAndDrain`: the contributor starts with nothing recorded. -/
theorem Recorded.prepareSeed {m : Memory} {ev : Event} {σ : Head → List Nat}
    {closed : Dest → Bool} {lists : Dest → List Packet} {ps : List Packet}
    (hrec : Recorded m ev σ P lists) (hb : Building live m ev σ P closed)
    (hopen : closed ictb = false) (hl : Head.latency ictb ∈ live)
    (hσ : σ (.latency ictb) = ps.map Packet.index)
    (htime : ∀ p ∈ ps, (m.body p.index).tsRange = p.time) (horder : InOrder Packet.time ps)
    (hfuel : ps.length < fuel) :
    ∃ m' ev' post, Event.seedContributor fuel ictb fuel (ev.prepare m ictb).1
        (ev.prepare m ictb).2 = .ok (m', ev', post) ∧
      Seeded (insert (.contrib ev.id ictb) live) (insert ictb P) m ev
        (Function.update σ (.contrib ev.id ictb) []) closed ictb (σ (.latency ictb)) m' ev' post ∧
      Recorded m' ev' (seeded ev.id ictb (Function.update σ (.contrib ev.id ictb) [])
          (selected (packetVerdict m ev) (σ (.latency ictb)))
          (leftover (packetVerdict m ev) (σ (.latency ictb)))) (insert ictb P)
        (Function.update lists ictb (selected (Packet.verdict ev.limits) ps)) := by
  obtain ⟨m', ev', post, hrun, hseed⟩ := hb.prepareSeed fuel ictb hopen hl
    (by rwa [hσ, List.length_map])
  refine ⟨m', ev', post, hrun, hseed, ?_⟩
  obtain ⟨hb1, hf1⟩ := hb.prepare ictb
  have hrec1 : Recorded (ev.prepare m ictb).1 (ev.prepare m ictb).2
      (Function.update σ (.contrib ev.id ictb) []) (insert ictb P)
      (Function.update lists ictb []) := by
    intro d hd
    rw [hf1.id]
    rcases eq_or_ne d ictb with rfl | hne
    · have hempty : Function.update lists d [] d = [] := Function.update_self _ _ _
      rw [Function.update_self, hempty]
      exact ⟨rfl, Trig.nil (Function.update_self _ _ _)⟩
    · rw [Function.update_of_ne (by simp [hne]), Function.update_of_ne hne]
      obtain ⟨hlist, htrig⟩ := hrec d (hd.resolve_left hne)
      refine ⟨hlist, htrig.congr ⟨rfl, ?_, rfl⟩ fun q _ => rfl⟩
      exact Function.update_of_ne hne _ _
  have htrig := seedContributor_trig (Set.mem_insert _ _) (Set.mem_insert_of_mem _ hl) ps hb1
    hrec1 hopen (by simpa using hσ) htime (by simpa using horder) (by simpa using hfuel) hrun
  rw [Function.update_self, Function.update_idem, List.nil_append, hf1.limits] at htrig
  intro d hd
  refine ⟨?_, htrig d hd⟩
  rw [hseed.framed.id, seeded_contrib, hσ, selected_map (packetVerdict_of_time htime ev)]
  rcases eq_or_ne d ictb with rfl | hne
  · rw [if_pos rfl, Function.update_self]
  · rw [if_neg hne, Function.update_of_ne hne]
    exact (hrec d (hd.resolve_left hne)).1

end Seed

/-- Both latency lists. -/
theorem seedAndDrain_trig {m m' : Memory} {ev ev' : Event} {lat : Dest → List Packet}
    {fuel action : Nat} (hlat : LatencyLists m lat) (horder : ∀ d, InOrder Packet.time (lat d))
    (hfuel : ∀ d, (lat d).length < fuel)
    (hrun : ev.seedAndDrain fuel m 3 = .ok (m', ev', action)) (d : Dest) :
    Trig m' ev' d (takenOf ev.limits lat d) := by
  obtain ⟨σ, hσ⟩ : ∃ σ : Head → List Nat, σ = latencyHeld lat := ⟨_, rfl⟩
  have hlatency : ∀ d, σ (.latency d) = (lat d).map Packet.index := fun d => by
    rw [hσ]
    rfl
  have hb0 : Building (Set.range Head.latency) m { ev with ctbs := 3, nctbs := 0 } σ ∅
      (fun _ => false) := ⟨hσ ▸ hlat.store, by simp, by simp, by simp, rfl, rfl⟩
  have hrec0 : Recorded m { ev with ctbs := 3, nctbs := 0 } σ ∅ fun _ => [] := fun d hd =>
    absurd hd (Set.notMem_empty d)
  -- the first contributor
  obtain ⟨m1, ev1, post1, hrun1, h1, hrec1⟩ := hrec0.prepareSeed hb0 rfl ⟨0, rfl⟩ (hlatency 0)
    (hlat.time 0) (horder 0) (hfuel 0)
  have hpost1 : post1 = false := by
    rw [h1.post_eq]
    simp [allClosed]
  have hlim : ev1.limits = ev.limits := h1.framed.limits
  -- the second one finds its own list as it was
  have hσ1 : seeded ev.id 0 (Function.update σ (.contrib ev.id 0) [])
      (selected (packetVerdict m { ev with ctbs := 3, nctbs := 0 }) (σ (.latency 0)))
      (leftover (packetVerdict m { ev with ctbs := 3, nctbs := 0 }) (σ (.latency 0)))
      (.latency 1) = (lat 1).map Packet.index := by
    simp [seeded, hlatency]
  obtain ⟨m2, ev2, post2, hrun2, -, hrec2⟩ := hrec1.prepareSeed h1.building (by simp)
    (Set.mem_insert_of_mem _ ⟨1, rfl⟩) hσ1
    (fun p hp => by rw [h1.framed.body, hlat.time 1 p hp]) (horder 1) (hfuel 1)
  obtain ⟨rfl, rfl⟩ : m2 = m' ∧ ev2 = ev' := by
    simp only [Event.seedAndDrain, Event.seedLoop, hrun1, hrun2, hpost1, bind, Except.bind,
      Bool.false_eq_true, if_false] at hrun
    cases post2 <;> simp_all
  have hlists : Function.update (Function.update (fun _ => []) 0
      (selected (Packet.verdict ev.limits) (lat 0))) 1 (selected (Packet.verdict ev.limits) (lat 1))
      = takenOf ev.limits lat := by
    funext e
    rcases dest_cases e with rfl | rfl <;> rfl
  have htrig := (hrec2 d (by rcases dest_cases d with rfl | rfl <;> simp)).2
  rw [hlim] at htrig
  exact hlists ▸ htrig

/-! ## Evaluating the arrivals -/

/-- One arrival. -/
theorem Tracks.evaluate_trig {live : Set Head} {m m' : Memory} {ev ev' : Event}
    {σ : Head → List Nat} {str : Dest → List Packet} {dest : Dest} {p : Packet}
    {fuel action : Nat} (ht : Tracks live m ev σ str)
    (htrig : ∀ d, Trig m ev d (takenOf ev.limits str d)) (hn : ∀ h ∈ live, p.index ∉ σ h)
    (horder : InOrder Packet.time (str dest ++ [p])) (hfuel : (str dest).length < fuel)
    (hid : ev'.id = ev.id)
    (hrun : ev.evaluate fuel (m.setTimeRange p.index p.time) (.inr p.index) dest
      = .ok (m', ev', action)) (d : Dest) :
    Trig m' ev' d (takenOf ev.limits (feed str [(dest, p)]) d) := by
  have hrec : Recorded (m.setTimeRange p.index p.time) ev σ Set.univ (takenOf ev.limits str) := by
    intro e _
    refine ⟨ht.contrib e, (htrig e).congr (SameTrig.refl ev e) fun q hq => ?_⟩
    -- the buffer that is written is not on the list
    have hmem : q.index ∈ σ (.contrib ev.id e) := by
      rw [ht.contrib]
      exact List.mem_map_of_mem hq
    have hne : q.index ≠ p.index := fun heq =>
      hn _ (ht.building.mem e (Set.mem_univ e)) (heq ▸ hmem)
    simp [Memory.setTimeRange, hne]
  have hp : ((m.setTimeRange p.index p.time).body p.index).tsRange = p.time := by
    simp [Memory.setTimeRange]
  have hsub := selected_sublist (Packet.verdict ev.limits) (str dest)
  have hrec' := hrec.evaluate (ht.building.congr (m.setTimeRange p.index p.time) rfl)
    (Set.mem_univ dest) hn hp (horder.sublist (hsub.append_right _))
    (Nat.lt_of_le_of_lt hsub.length_le hfuel) hid hrun
  rw [offeredTo_takenOf] at hrec'
  exact (hrec' d (Set.mem_univ d)).2

/-- The arrivals, until the event is posted. -/
theorem evaluateAll_trig {live : Set Head} {fuel : Nat} (arrivals : List (Dest × Packet)) :
    ∀ {m m' : Memory} {ev ev' : Event} {σ : Head → List Nat} {str : Dest → List Packet}
      {actions : List Nat} {posted : Bool},
    Tracks live m ev σ str → Fresh live ev.id ev.limits σ str arrivals →
    (∀ d, (str d).length + arrivals.length < fuel) →
    (∀ d, InOrder Packet.time (feed str arrivals d)) →
    (∀ d, Trig m ev d (takenOf ev.limits str d)) →
    ev.evaluateAll fuel m arrivals = .ok (m', ev', actions, posted) →
    ∀ d, Trig m' ev' d (takenOf ev.limits (feed str (arrivals.take actions.length)) d) := by
  induction arrivals with
  | nil =>
      intro m m' ev ev' σ str actions posted _ _ _ _ htrig hrun d
      obtain ⟨rfl, rfl, -⟩ : m = m' ∧ ev = ev' ∧ _ := by simpa [Event.evaluateAll] using hrun
      rw [List.take_nil, feed_nil]
      exact htrig d
  | cons a rest ih =>
      obtain ⟨dest, p⟩ := a
      intro m m' ev ev' σ str actions posted ht hfresh hfuel horder htrig hrun
      have hstr : (str dest).length < fuel := Nat.lt_of_le_of_lt (Nat.le_add_right _ _) (hfuel dest)
      have hn := ht.notMem hfresh
      obtain ⟨m1, ev1, σ1, hrun1, ht1, hid1, hlim1, -, hoth1⟩ := ht.evaluate hn (ht.length_lt hstr)
      have hfed : InOrder Packet.time (str dest ++ [p]) := by
        have hall := horder dest
        rw [← feed_cons, feed, feed_singleton, if_pos rfl] at hall
        exact hall.sublist (List.sublist_append_left _ _)
      have htrig1 := ht.evaluate_trig htrig hn hfed hstr hid1 hrun1
      rw [Event.evaluateAll] at hrun
      simp only [hrun1, bind, Except.bind] at hrun
      split at hrun
      · -- the event is posted
        obtain ⟨rfl, rfl, rfl, -⟩ : m1 = m' ∧ ev1 = ev' ∧ _ = actions ∧ _ := by simpa using hrun
        exact htrig1
      · split at hrun
        · cases hrun
        · next r hrun2 =>
            obtain ⟨m2, ev2, actions2, posted2⟩ := r
            obtain ⟨rfl, rfl, rfl, -⟩ : m2 = m' ∧ ev2 = ev' ∧ _ = actions ∧ _ := by simpa using hrun
            rw [← hlim1] at htrig1
            have hfresh1 := hfresh.tail hoth1
            rw [← hid1, ← hlim1] at hfresh1
            have h2 := ih ht1 hfresh1 (feed_length_lt hfuel)
              (fun d => by rw [feed_cons]; exact horder d) htrig1 hrun2
            rw [hlim1] at h2
            intro d
            rw [List.length_cons, List.take_succ_cons, ← feed_cons]
            exact h2 d

/-! ## The trigger time -/

theorem findTrigger_trgTime {fuel npkt : Nat} {m : Memory} {ev ev' : Event} {node : Addr}
    {dest : Dest} (hrun : ev.findTrigger fuel m node dest npkt = .ok ev') :
    ev'.trgTime = ev.trgTime := by
  unfold Event.findTrigger at hrun
  dsimp only at hrun
  split_ifs at hrun
  · cases hscan : scanForTriggerNode m (.contrib ev.id dest) ev.trgTime fuel
        (m.links.flnk (.inl (.contrib ev.id dest))) 0 with
    | error e => simp [hscan, bind, Except.bind] at hrun
    | ok found =>
        simp only [hscan, bind, Except.bind] at hrun
        cases found with
        | none =>
            obtain rfl := Except.ok.inj hrun
            rfl
        | some r =>
            obtain rfl := Except.ok.inj hrun
            rfl
  all_goals
    obtain rfl := Except.ok.inj hrun
    rfl

theorem evaluate_trgTime {fuel action : Nat} {m m' : Memory} {ev ev' : Event} {node : Addr}
    {dest : Dest} (hrun : ev.evaluate fuel m node dest = .ok (m', ev', action)) :
    ev'.trgTime = ev.trgTime := by
  rcases evaluate_record hrun with ⟨hsame, -⟩ | ⟨-, -, -, ev2, hfind, hsame⟩
  · exact (hsame dest).trgTime
  · have htime : ev2.trgTime = (ev.countPacket dest).trgTime := findTrigger_trgTime hfind
    exact (hsame dest).trgTime.trans htime

/-- What every evaluation of a packet keeps holds when the arrivals were evaluated. -/
theorem evaluateAll_keeps {fuel : Nat} {P : Memory → Event → Prop}
    (hstep : ∀ (m m' : Memory) (ev ev' : Event) (dest : Dest) (p : Packet) (action : Nat),
      P m ev →
      ev.evaluate fuel (m.setTimeRange p.index p.time) (.inr p.index) dest = .ok (m', ev', action) →
      P m' ev') (arrivals : List (Dest × Packet)) :
    ∀ {m m' : Memory} {ev ev' : Event} {actions : List Nat} {posted : Bool}, P m ev →
    ev.evaluateAll fuel m arrivals = .ok (m', ev', actions, posted) → P m' ev' := by
  induction arrivals with
  | nil =>
      intro m m' ev ev' actions posted hP hrun
      obtain ⟨rfl, rfl, -⟩ : m = m' ∧ ev = ev' ∧ _ := by simpa [Event.evaluateAll] using hrun
      exact hP
  | cons a rest ih =>
      obtain ⟨dest, p⟩ := a
      intro m m' ev ev' actions posted hP hrun
      rw [Event.evaluateAll] at hrun
      cases hrun1 : ev.evaluate fuel (m.setTimeRange p.index p.time) (.inr p.index) dest with
      | error e => simp [hrun1, bind, Except.bind] at hrun
      | ok r =>
          obtain ⟨m1, ev1, action⟩ := r
          have hP1 := hstep m m1 ev ev1 dest p action hP hrun1
          simp only [hrun1, bind, Except.bind] at hrun
          split at hrun
          · obtain ⟨rfl, rfl, -⟩ : m1 = m' ∧ ev1 = ev' ∧ _ := by simpa using hrun
            exact hP1
          · split at hrun
            · cases hrun
            · next r hrun2 =>
                obtain ⟨m2, ev2, actions2, posted2⟩ := r
                obtain ⟨rfl, rfl, -⟩ : m2 = m' ∧ ev2 = ev' ∧ _ := by simpa using hrun
                exact ih hP1 hrun2

theorem evaluateAll_trgTime {fuel : Nat} {m m' : Memory} {ev ev' : Event}
    {arrivals : List (Dest × Packet)} {actions : List Nat} {posted : Bool}
    (hrun : ev.evaluateAll fuel m arrivals = .ok (m', ev', actions, posted)) :
    ev'.trgTime = ev.trgTime := by
  refine evaluateAll_keeps (P := fun _ e => e.trgTime = ev.trgTime) ?_ arrivals rfl hrun
  intro m m' e e' dest p action htime hrun1
  exact (evaluate_trgTime hrun1).trans htime

/-! ## The whole event -/

/-- **The record of an event.** When the packets of each stream begin in order, what is
recorded for a contributor is what the packets on its list say. -/
theorem build_trig {fuel : Nat} {m m' : Memory} {ev ev' : Event} {lat : Dest → List Packet}
    {arrivals : List (Dest × Packet)} {actions : List Nat} {posted : Bool}
    (hlat : LatencyLists m lat) (hw : ev.limits.beg ≤ ev.limits.fin)
    (hfwd : ∀ d, Forward (feed lat arrivals d))
    (horder : ∀ d, InOrder Packet.time (feed lat arrivals d))
    (havail : Available ev.limits lat arrivals)
    (hfuel : ∀ d, (lat d).length + arrivals.length < fuel)
    (hrun : ev.build fuel m arrivals = .ok (m', ev', actions, posted)) :
    (∀ d, Trig m' ev' d (picked ev.limits (seen lat arrivals actions.length d)))
      ∧ ev'.trgTime = ev.trgTime := by
  have hseen := fun j d => (hfwd d).take j
  have htaken : ∀ d, takenOf ev.limits (seen lat arrivals actions.length) d
      = picked ev.limits (seen lat arrivals actions.length d) := fun d =>
    selected_verdict hw (hseen actions.length d)
  have hlat0 : ∀ d, Forward (lat d) := by
    intro d
    have h0 := hseen 0 d
    rwa [seen, List.take_zero, feed_nil] at h0
  have horder0 : ∀ d, InOrder Packet.time (lat d) := fun d =>
    (horder d).sublist (List.sublist_append_left _ _)
  have hlen : ∀ d, (lat d).length < fuel := fun d =>
    Nat.lt_of_le_of_lt (Nat.le_add_right _ _) (hfuel d)
  obtain ⟨m1, ev1, hrun1, hdr⟩ := seedAndDrain_spec ev fuel hlat.store (fun d => ⟨d, rfl⟩)
    (fun d => by rw [List.length_map]; exact hlen d)
  have htrig1 := seedAndDrain_trig hlat horder0 hlen hrun1
  obtain ⟨σ1, hscan⟩ := hlat.latencyScan hdr
  have hlim := hscan.framed.limits
  have hbuf := havail.buffered hw hseen
  rw [hlat.closed ev] at hrun1
  simp only [← htaken]
  unfold Event.build at hrun
  simp only [hrun1, bind, Except.bind] at hrun
  by_cases hall : allClosed (closedOf ev.limits lat) = true
  · -- posted without any arrival
    rw [if_pos hall, if_pos (by decide)] at hrun
    obtain ⟨rfl, rfl, rfl, -⟩ : m1 = m' ∧ ev1 = ev' ∧ [] = actions ∧ _ := by simpa using hrun
    have hnone : seen lat arrivals 0 = lat := feed_nil lat
    rw [List.length_nil, hnone]
    exact ⟨htrig1, hdr.framed.trgTime⟩
  · rw [if_neg hall, if_neg (by decide)] at hrun
    have h2 := evaluateAll_trig arrivals hscan.tracks (hscan.fresh hbuf) hfuel horder
      (fun d => by rw [hlim]; exact htrig1 d) hrun
    have htime := (evaluateAll_trgTime hrun).trans hdr.framed.trgTime
    rw [hlim] at h2
    exact ⟨h2, htime⟩

end ProtoDune.Daq
