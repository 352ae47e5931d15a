import ProtoDune.Daq.EventBuild

/-!
# Which packets an event gets

A whole event: `seedAndDrain` on the two latency lists, then `evaluate` on the
packets that arrive later, in any interleaving of the two destinations, until
the event is to be posted. `Event.build` is that run, `window_selection` says
what comes out of it.
-/

namespace ProtoDune.Daq

open WindowSelect

/-- A data packet: its DMA buffer and the times it spans. -/
structure Packet where
  index : Nat
  time : Span Nat

/-- Evaluate the packets that arrive until the event is to be posted; the
actions returned, and whether the last one posts. -/
def Event.evaluateAll (fuel : Nat) : Memory → Event → List (Dest × Packet) →
    Except Stop (Memory × Event × List Nat × Bool)
  | m, ev, [] => .ok (m, ev, [], false)
  | m, ev, (dest, p) :: rest => do
      let m := m.setTimeRange p.index p.time
      let (m, ev, action) ← ev.evaluate fuel m (.inr p.index) dest
      if action &&& ACTION_M_POST ≠ 0 then .ok (m, ev, [action], true)
      else
        let (m, ev, actions, posted) ← Event.evaluateAll fuel m ev rest
        .ok (m, ev, action :: actions, posted)

/-- Build one event from the latency lists and the packets that arrive. -/
def Event.build (fuel : Nat) (m : Memory) (ev : Event) (arrivals : List (Dest × Packet)) :
    Except Stop (Memory × Event × List Nat × Bool) := do
  let (m, ev, post) ← ev.seedAndDrain fuel m 3
  if post ≠ 0 then .ok (m, ev, [], true) else ev.evaluateAll fuel m arrivals

/-! ## The streams of the destinations -/

/-- The packets of one destination, in order of arrival. -/
def ofDest (d : Dest) (arrivals : List (Dest × Packet)) : List Packet :=
  (arrivals.filter fun a => a.1 = d).map Prod.snd

/-- The streams `str` with the arrivals appended. -/
def feed (str : Dest → List Packet) (arrivals : List (Dest × Packet)) (d : Dest) : List Packet :=
  str d ++ ofDest d arrivals

/-- The packets of destination `d` seen after `j` arrivals: those that were on
the latency list, then the arrivals. -/
def seen (lat : Dest → List Packet) (arrivals : List (Dest × Packet)) (j : Nat) (d : Dest) :
    List Packet :=
  feed lat (arrivals.take j) d

/-- A packet that completes its contributor has been seen: one in the window
that reaches its end, or one beyond it. -/
def Completed (w : Span Nat) (ps : List Packet) : Prop :=
  ∃ p ∈ ps, w.fin ≤ p.time.fin ∧ p.time.beg ≤ w.fin ∨ w.fin < p.time.beg

/-- The packets that meet the window, up to and including the first one that
ends at or after the window's end. -/
def picked (w : Span Nat) (ps : List Packet) : List Packet :=
  (through (fun p => decide (w.fin ≤ p.time.fin)) ps).filter
    fun p => decide (w.beg ≤ p.time.fin ∧ p.time.beg ≤ w.fin)

/-- The packets that ended before the window, among the same. -/
def tooEarly (w : Span Nat) (ps : List Packet) : List Packet :=
  (through (fun p => decide (w.fin ≤ p.time.fin)) ps).filter
    fun p => decide (p.time.fin < w.beg)

/-- The packets a scan of the latency list leaves on it. -/
def kept (w : Span Nat) (ps : List Packet) : List Packet :=
  leftover (fun p => verdict w p.time) ps

/-- The packets do not end before they begin. -/
def Forward (ps : List Packet) : Prop := ∀ p ∈ ps, p.time.beg ≤ p.time.fin

/-- The latency lists in memory hold the packets `lat`, each in its own buffer
with its times set. -/
structure LatencyLists (m : Memory) (lat : Dest → List Packet) : Prop where
  store : ListStore m.links (Set.range Head.latency) fun
    | .latency d => (lat d).map Packet.index
    | .contrib _ _ => []
  time : ∀ d, ∀ p ∈ lat d, (m.body p.index).tsRange = p.time

/-- The buffers on the latency lists; the lists of the events are empty. -/
def latencyHeld (lat : Dest → List Packet) : Head → List Nat
  | .latency d => (lat d).map Packet.index
  | .contrib _ _ => []

/-- No arriving packet uses a buffer that is still held: by the event, or by a
latency list. A buffer that was freed may come again. -/
def Available (w : Span Nat) (lat : Dest → List Packet) (arrivals : List (Dest × Packet)) :
    Prop :=
  ∀ j d p, arrivals[j]? = some (d, p) → ∀ d',
    p.index ∉ (picked w (seen lat arrivals j d')).map Packet.index ∧
    p.index ∉ (kept w (lat d')).map Packet.index

/-- What building an event comes to. -/
structure Selection (lat : Dest → List Packet) (arrivals : List (Dest × Packet)) (m : Memory)
    (ev : Event) (m' : Memory) (ev' : Event) (actions : List Nat) (posted : Bool) : Prop where
  /-- posted means that both destinations are completed after the last packet evaluated -/
  posted_iff : posted = true ↔
    ∀ d, Completed ev.limits (seen lat arrivals actions.length d)
  /-- and not before -/
  first : ∀ j < actions.length, ¬ ∀ d, Completed ev.limits (seen lat arrivals j d)
  /-- all arrivals are evaluated unless the event is posted -/
  exhausted : actions.length ≤ arrivals.length ∧
    (posted = false → actions.length = arrivals.length)
  /-- the list of each contributor, in memory -/
  list : ∀ d, Rep m'.links (.inl (.contrib ev.id d))
    (cells ((picked ev.limits (seen lat arrivals actions.length d)).map Packet.index))
  npkts : ∀ d, ev'.npkts d =
    (picked ev.limits (seen lat arrivals actions.length d)).length % 2 ^ 16
  /-- what was freed from the latency lists, and what stays on them -/
  returned : m'.returned = m.returned ++ (tooEarly ev.limits (lat 0)).map Packet.index ++
    (tooEarly ev.limits (lat 1)).map Packet.index
  latency : ∀ d, Holds m'.links (.inl (.latency d))
    (cells ((kept ev.limits (lat d)).map Packet.index))
  /-- the bits of each action: free, post, put on the latency list -/
  free : ∀ j action d p, actions[j]? = some action → arrivals[j]? = some (d, p) →
    (action &&& ACTION_M_FREE ≠ 0 ↔
      ¬ Completed ev.limits (seen lat arrivals j d) ∧ p.time.fin < ev.limits.beg)
  post : ∀ j action, actions[j]? = some action →
    (action &&& ACTION_M_POST ≠ 0 ↔ posted = true ∧ j + 1 = actions.length)
  addToLatency : ∀ j action d p, actions[j]? = some action → arrivals[j]? = some (d, p) →
    (action &&& ACTION_M_ADDTOLATENCY ≠ 0 ↔
      Completed ev.limits (seen lat arrivals j d) ∨ ev.limits.fin < p.time.beg)

/-! ## The bits of an action -/

/-- The event is posted with the packet that completes the last contributor. -/
theorem actionOf_post {closed : Dest → Bool} (h : allClosed closed = false) (d : Dest)
    (v : Verdict) :
    actionOf closed d v &&& ACTION_M_POST ≠ 0 ↔ allClosed (closedAfter closed d v) = true := by
  have hsame : closed d = true ∨ v.closes = false → closedAfter closed d v = closed := by
    intro hc
    have hor : (closed d || v.closes) = closed d := by
      rcases hc with hc | hc <;> simp [hc]
    rw [closedAfter, hor, Function.update_eq_self]
  cases hd : closed d with
  | true => simp [actionOf, hd, hsame (.inl hd), h]
  | false =>
      cases v with
      | early => simp [actionOf, hd, hsame (.inr rfl), h]
      | inside => simp [actionOf, hd, hsame (.inr rfl), h]
      | last =>
          simp only [actionOf, hd, Bool.false_eq_true, if_false]
          split <;> simp_all
      | late =>
          simp only [actionOf, hd, Bool.false_eq_true, if_false]
          split <;> simp_all

/-! ## Feeding packets one by one -/

theorem feed_nil (str : Dest → List Packet) : feed str [] = str := by
  funext d
  simp [feed, ofDest]

theorem feed_feed (str : Dest → List Packet) (as bs : List (Dest × Packet)) :
    feed (feed str as) bs = feed str (as ++ bs) := by
  funext d
  simp [feed, ofDest]

theorem feed_cons (str : Dest → List Packet) (dest : Dest) (p : Packet)
    (rest : List (Dest × Packet)) :
    feed (feed str [(dest, p)]) rest = feed str ((dest, p) :: rest) := feed_feed _ _ _

theorem feed_singleton (str : Dest → List Packet) (dest : Dest) (p : Packet) (d : Dest) :
    feed str [(dest, p)] d = if dest = d then str d ++ [p] else str d := by
  by_cases hd : dest = d <;> simp [feed, ofDest, hd]

/-- The verdict of a window on a packet. -/
def Packet.verdict (w : Span Nat) (p : Packet) : Verdict := WindowSelect.verdict w p.time

/-- Which streams are closed. -/
def closedOf (w : Span Nat) (str : Dest → List Packet) (d : Dest) : Bool :=
  closed (Packet.verdict w) (str d)

/-- The buffers each stream gives to the event. -/
def selectedOf (w : Span Nat) (str : Dest → List Packet) (d : Dest) : List Nat :=
  (selected (Packet.verdict w) (str d)).map Packet.index

theorem closedAfter_closedOf (w : Span Nat) (str : Dest → List Packet) (dest : Dest)
    (p : Packet) :
    closedAfter (closedOf w str) dest (p.verdict w) = closedOf w (feed str [(dest, p)]) := by
  funext d
  unfold closedAfter closedOf
  rw [feed_singleton]
  by_cases hd : dest = d
  · subst hd
    rw [Function.update_self, if_pos rfl, closed_snoc]
  · rw [Function.update_of_ne (Ne.symm hd), if_neg hd]

theorem selectedOf_feed (w : Span Nat) (str : Dest → List Packet) (dest : Dest) (p : Packet)
    (d : Dest) :
    selectedOf w (feed str [(dest, p)]) d = selectedOf w str d ++
      if dest = d ∧ closedOf w str dest = false ∧ (p.verdict w).keeps = true then [p.index]
      else [] := by
  unfold selectedOf closedOf
  rw [feed_singleton]
  by_cases hd : dest = d
  · subst hd
    rw [if_pos rfl, selected_snoc]
    cases closed (Packet.verdict w) (str dest) <;> cases (p.verdict w).keeps <;> simp
  · simp [hd]

/-! ## Evaluating the arrivals -/

/-- The event `ev` stands for the streams `str`, with the other lists at `σ`. -/
structure Tracks (live : Set Head) (m : Memory) (ev : Event) (σ : Head → List Nat)
    (str : Dest → List Packet) : Prop where
  building : Building live m ev σ Set.univ (closedOf ev.limits str)
  contrib : ∀ d, σ (.contrib ev.id d) = selectedOf ev.limits str d

/-- What evaluating `arrivals` comes to, from the streams `str`. -/
structure Evaluated (live : Set Head) (m : Memory) (ev : Event) (σ : Head → List Nat)
    (str : Dest → List Packet) (arrivals : List (Dest × Packet)) (m' : Memory) (ev' : Event)
    (σ' : Head → List Nat) (actions : List Nat) (posted : Bool) : Prop where
  tracks : Tracks live m' ev' σ' (feed str (arrivals.take actions.length))
  id : ev'.id = ev.id
  limits : ev'.limits = ev.limits
  returned : m'.returned = m.returned
  other : ∀ d, σ' (.latency d) = σ (.latency d)
  posted_eq : posted = allClosed (closedOf ev.limits (feed str (arrivals.take actions.length)))
  first : ∀ j < actions.length, allClosed (closedOf ev.limits (feed str (arrivals.take j))) = false
  exhausted : actions.length ≤ arrivals.length ∧
    (posted = false → actions.length = arrivals.length)
  action : ∀ j action d p, actions[j]? = some action → arrivals[j]? = some (d, p) →
    action = actionOf (closedOf ev.limits (feed str (arrivals.take j))) d (p.verdict ev.limits)

/-- The buffer of every arrival is on no list when it arrives. -/
def Fresh (live : Set Head) (id : Nat) (w : Span Nat) (σ : Head → List Nat)
    (str : Dest → List Packet) (arrivals : List (Dest × Packet)) : Prop :=
  ∀ j d p, arrivals[j]? = some (d, p) →
    (∀ d', p.index ∉ selectedOf w (feed str (arrivals.take j)) d') ∧
    ∀ h ∈ live, (∀ d', h ≠ .contrib id d') → p.index ∉ σ h

/-- The next arrival is in a buffer on no list. -/
theorem Tracks.notMem {live : Set Head} {m : Memory} {ev : Event} {σ : Head → List Nat}
    {str : Dest → List Packet} {dest : Dest} {p : Packet} {rest : List (Dest × Packet)}
    (ht : Tracks live m ev σ str)
    (hfresh : Fresh live ev.id ev.limits σ str ((dest, p) :: rest)) :
    ∀ h ∈ live, p.index ∉ σ h := by
  intro h hh
  obtain ⟨hsel, hother⟩ := hfresh 0 dest p rfl
  by_cases hc : ∃ d', h = .contrib ev.id d'
  · obtain ⟨d', rfl⟩ := hc
    rw [ht.contrib d']
    simpa [feed_nil] using hsel d'
  · exact hother h hh fun d' he => hc ⟨d', he⟩

/-- The later arrivals stay in available buffers. -/
theorem Fresh.tail {live : Set Head} {id : Nat} {w : Span Nat} {σ σ' : Head → List Nat}
    {str : Dest → List Packet} {dest : Dest} {p : Packet} {rest : List (Dest × Packet)}
    (hfresh : Fresh live id w σ str ((dest, p) :: rest))
    (hother : ∀ h, (∀ d', h ≠ .contrib id d') → σ' h = σ h) :
    Fresh live id w σ' (feed str [(dest, p)]) rest := by
  intro j d q hq
  obtain ⟨hsel, hout⟩ := hfresh (j + 1) d q hq
  rw [List.take_succ_cons, ← feed_cons] at hsel
  refine ⟨hsel, fun h hh hne => ?_⟩
  rw [hother h hne]
  exact hout h hh hne

theorem Tracks.length_lt {live : Set Head} {m : Memory} {ev : Event} {σ : Head → List Nat}
    {str : Dest → List Packet} {dest : Dest} {fuel : Nat} (ht : Tracks live m ev σ str)
    (hfuel : (str dest).length < fuel) : (σ (.contrib ev.id dest)).length < fuel := by
  rw [ht.contrib dest, selectedOf, List.length_map]
  exact Nat.lt_of_le_of_lt (selected_length_le _ _) hfuel

theorem feed_length_lt {str : Dest → List Packet} {dest : Dest} {p : Packet}
    {rest : List (Dest × Packet)} {fuel : Nat}
    (hfuel : ∀ d, (str d).length + ((dest, p) :: rest).length < fuel) :
    ∀ d, (feed str [(dest, p)] d).length + rest.length < fuel := by
  intro d
  have hd := hfuel d
  rw [List.length_cons] at hd
  rw [feed_singleton]
  split
  · rw [List.length_append, List.length_singleton]
    omega
  · omega

/-- Evaluating one arrival. -/
theorem Tracks.evaluate {live : Set Head} {m : Memory} {ev : Event} {σ : Head → List Nat}
    {str : Dest → List Packet} (ht : Tracks live m ev σ str) {dest : Dest} {p : Packet}
    {fuel : Nat} (hn : ∀ h ∈ live, p.index ∉ σ h)
    (hfuel : (σ (.contrib ev.id dest)).length < fuel) :
    ∃ m' ev' σ', ev.evaluate fuel (m.setTimeRange p.index p.time) (.inr p.index) dest =
        .ok (m', ev', actionOf (closedOf ev.limits str) dest (p.verdict ev.limits)) ∧
      Tracks live m' ev' σ' (feed str [(dest, p)]) ∧ ev'.id = ev.id ∧ ev'.limits = ev.limits ∧
      m'.returned = m.returned ∧
      ∀ h, (∀ d', h ≠ .contrib ev.id d') → σ' h = σ h := by
  have htime : verdict ev.limits ((m.setTimeRange p.index p.time).body p.index).tsRange =
      p.verdict ev.limits := by
    simp [Memory.setTimeRange, Packet.verdict]
  obtain ⟨m', ev', hrun, hb, hf, -, hret, -⟩ :=
    (ht.building.congr (m.setTimeRange p.index p.time) rfl).evaluate (Set.mem_univ dest)
      hn hfuel htime
  refine ⟨m', ev', offered ev.id σ (closedOf ev.limits str) dest p.index (p.verdict ev.limits),
    hrun, ⟨?_, ?_⟩, hf.id, hf.limits, hret, ?_⟩
  · rw [closedAfter_closedOf] at hb
    rwa [hf.limits]
  · intro d
    rw [hf.id, hf.limits, selectedOf_feed, ← ht.contrib d, offered]
    by_cases hd : dest = d
    · subst hd
      split <;> simp_all
    · have hne : Head.contrib ev.id d ≠ Head.contrib ev.id dest := by simp [Ne.symm hd]
      split <;> simp [hd, hne]
  · intro h hh
    rw [offered]
    split
    · exact Function.update_of_ne (hh dest) _ _
    · rfl

theorem evaluateAll_spec {live : Set Head} {fuel : Nat} (arrivals : List (Dest × Packet)) :
    ∀ {m : Memory} {ev : Event} {σ : Head → List Nat} {str : Dest → List Packet},
    Tracks live m ev σ str → allClosed (closedOf ev.limits str) = false →
    Fresh live ev.id ev.limits σ str arrivals →
    (∀ d, (str d).length + arrivals.length < fuel) →
    ∃ m' ev' actions posted σ', ev.evaluateAll fuel m arrivals = .ok (m', ev', actions, posted) ∧
      Evaluated live m ev σ str arrivals m' ev' σ' actions posted := by
  induction arrivals with
  | nil =>
      intro m ev σ str ht hopen _ _
      refine ⟨m, ev, [], false, σ, rfl, ?_, rfl, rfl, rfl, fun _ => rfl, ?_, ?_, ?_, ?_⟩
      · simpa [feed_nil] using ht
      · simpa [feed_nil] using hopen.symm
      · simp
      · simp
      · simp
  | cons a rest ih =>
      obtain ⟨dest, p⟩ := a
      intro m ev σ str ht hopen hfresh hfuel
      have hstr : (str dest).length < fuel := Nat.lt_of_le_of_lt (Nat.le_add_right _ _) (hfuel dest)
      obtain ⟨m1, ev1, σ1, hrun1, ht1, hid1, hlim1, hret1, hoth1⟩ :=
        ht.evaluate (ht.notMem hfresh) (ht.length_lt hstr)
      have hpost := actionOf_post hopen dest (p.verdict ev.limits)
      rw [closedAfter_closedOf] at hpost
      rw [Event.evaluateAll]
      simp only [hrun1, bind, Except.bind]
      by_cases hall : allClosed (closedOf ev.limits (feed str [(dest, p)])) = true
      · -- the packet completes the event
        rw [if_pos (hpost.mpr hall)]
        refine ⟨m1, ev1, _, true, σ1, rfl, ?_, hid1, hlim1, hret1, ?_, ?_, ?_, ?_, ?_⟩
        · simpa using ht1
        · intro d
          exact hoth1 _ (by simp)
        · simpa using hall.symm
        · intro j hj
          obtain rfl : j = 0 := by simpa using hj
          simpa [feed_nil] using hopen
        · simp
        · intro j action d q hj hq
          cases j with
          | zero =>
              simp only [List.getElem?_cons_zero, Option.some.injEq, Prod.mk.injEq] at hj hq
              obtain ⟨rfl, rfl⟩ := hq
              simp [feed_nil, ← hj]
          | succ j => simp at hj
      · -- the event stays open: go on with the rest
        rw [if_neg fun h => hall (hpost.mp h)]
        have hopen1 : allClosed (closedOf ev1.limits (feed str [(dest, p)])) = false := by
          rw [hlim1]
          simpa using hall
        have hfresh1 : Fresh live ev1.id ev1.limits σ1 (feed str [(dest, p)]) rest := by
          rw [hid1, hlim1]
          exact hfresh.tail hoth1
        obtain ⟨m2, ev2, actions, posted, σ2, hrun2, he⟩ :=
          ih ht1 hopen1 hfresh1 (feed_length_lt hfuel)
        rw [hrun2]
        obtain ⟨htr, hid2, hlim2, hret2, hoth2, hposted, hfirst, hexh, hact⟩ := he
        simp only [feed_cons, hlim1] at htr hposted hfirst hact
        refine ⟨m2, ev2, _, posted, σ2, rfl, htr, hid2.trans hid1, hlim2.trans hlim1,
          hret2.trans hret1, ?_, hposted, ?_, ?_, ?_⟩
        · intro d
          rw [hoth2, hoth1 _ (by simp)]
        · intro j hj
          cases j with
          | zero => simpa [feed_nil] using hopen
          | succ j => exact hfirst j (by simpa using hj)
        · simpa using hexh
        · intro j action d q hj hq
          cases j with
          | zero =>
              simp only [List.getElem?_cons_zero, Option.some.injEq, Prod.mk.injEq] at hj hq
              obtain ⟨rfl, rfl⟩ := hq
              simp [feed_nil, ← hj]
          | succ j => exact hact j action d q hj hq

/-! ## The whole event -/

section Literal

variable {w : Span Nat} {ps : List Packet}

theorem closedOf_iff (hw : w.beg ≤ w.fin) {str : Dest → List Packet} {d : Dest}
    (hf : Forward (str d)) : closedOf w str d = true ↔ Completed w (str d) :=
  closed_verdict hw hf

theorem allClosed_iff (hw : w.beg ≤ w.fin) {str : Dest → List Packet}
    (hf : ∀ d, Forward (str d)) :
    allClosed (closedOf w str) = true ↔ ∀ d, Completed w (str d) := by
  rw [allClosed, Bool.and_eq_true, closedOf_iff hw (hf 0), closedOf_iff hw (hf 1),
    Fin.forall_fin_two]

theorem selectedOf_eq (hw : w.beg ≤ w.fin) {str : Dest → List Packet} {d : Dest}
    (hf : Forward (str d)) : selectedOf w str d = (picked w (str d)).map Packet.index :=
  congrArg (List.map Packet.index) (selected_verdict hw hf)

end Literal

theorem Forward.take {lat : Dest → List Packet} {arrivals : List (Dest × Packet)} {d : Dest}
    (h : Forward (feed lat arrivals d)) (j : Nat) : Forward (seen lat arrivals j d) := by
  intro p hp
  refine h p ?_
  rw [seen, feed, List.mem_append] at hp
  rw [feed, List.mem_append]
  refine hp.imp_right ?_
  exact fun hp => (((List.take_sublist j arrivals).filter _).map _).subset hp

/-- The verdicts on the buffers of a latency list are those on its packets. -/
theorem LatencyLists.verdict {m : Memory} {lat : Dest → List Packet} (h : LatencyLists m lat)
    (ev : Event) (d : Dest) :
    ∀ p ∈ lat d, packetVerdict m ev p.index = p.verdict ev.limits := by
  intro p hp
  rw [packetVerdict, h.time d p hp, Packet.verdict]

/-- An event that is complete before any arrival. -/
theorem Tracks.posted {live : Set Head} {m : Memory} {ev : Event} {σ : Head → List Nat}
    {str : Dest → List Packet} (ht : Tracks live m ev σ str)
    (hall : allClosed (closedOf ev.limits str) = true) (arrivals : List (Dest × Packet)) :
    Evaluated live m ev σ str arrivals m ev σ [] true where
  tracks := by simpa [feed_nil] using ht
  id := rfl
  limits := rfl
  returned := rfl
  other := fun _ => rfl
  posted_eq := by simpa [feed_nil] using hall.symm
  first := by simp
  exhausted := by simp
  action := by simp

/-- The streams after the scan of the latency lists, in terms of packets. -/
structure Scan (m : Memory) (ev : Event) (lat : Dest → List Packet) (m' : Memory) (ev' : Event)
    (σ' : Head → List Nat) : Prop where
  tracks : Tracks (withContribs (Set.range Head.latency) ev.id) m' ev' σ' lat
  id : ev'.id = ev.id
  limits : ev'.limits = ev.limits
  returned : m'.returned = m.returned ++ (tooEarly ev.limits (lat 0)).map Packet.index ++
    (tooEarly ev.limits (lat 1)).map Packet.index
  latency : ∀ d, σ' (.latency d) = (kept ev.limits (lat d)).map Packet.index

/-- The streams of the latency lists are closed as their packets say. -/
theorem LatencyLists.closed {m : Memory} {lat : Dest → List Packet} (h : LatencyLists m lat)
    (ev : Event) :
    (fun d => WindowSelect.closed (packetVerdict m ev) ((lat d).map Packet.index)) =
      closedOf ev.limits lat :=
  funext fun d => closed_map (h.verdict ev d)

/-- The same for any window, also one whose end comes before its beginning. -/
structure LatencyScan (m : Memory) (ev : Event) (lat : Dest → List Packet) (m' : Memory)
    (ev' : Event) (σ' : Head → List Nat) : Prop where
  tracks : Tracks (withContribs (Set.range Head.latency) ev.id) m' ev' σ' lat
  framed : Framed m m' ev ev'
  returned : m'.returned = m.returned ++
    (dropped (Packet.verdict ev.limits) (lat 0)).map Packet.index ++
    (dropped (Packet.verdict ev.limits) (lat 1)).map Packet.index
  latency : ∀ d, σ' (.latency d) = (kept ev.limits (lat d)).map Packet.index

/-- Draining well-formed latency lists. -/
theorem LatencyLists.latencyScan {m m' : Memory} {ev ev' : Event} {lat : Dest → List Packet}
    (hlat : LatencyLists m lat)
    (hdr : Drained (Set.range Head.latency) m ev (fun
      | .latency d => (lat d).map Packet.index
      | .contrib _ _ => []) m' ev') :
    ∃ σ', LatencyScan m ev lat m' ev' σ' := by
  have hv := fun d => hlat.verdict ev d
  have hid := hdr.framed.id
  have hlim := hdr.framed.limits
  have hb := hdr.building
  obtain ⟨σ', hσ⟩ : ∃ σ', drained ev.id (fun
      | .latency d => (lat d).map Packet.index
      | .contrib _ _ => []) (packetVerdict m ev) = σ' := ⟨_, rfl⟩
  rw [hσ, hlat.closed ev] at hb
  refine ⟨σ', ⟨hlim ▸ hb, ?_⟩, hdr.framed, ?_, ?_⟩
  · intro d
    rw [hid, hlim, ← hσ, drained, if_pos rfl]
    exact selected_map (hv d)
  · rw [hdr.returned, dropped_map (hv 0), dropped_map (hv 1)]
  · intro d
    rw [← hσ]
    exact leftover_map (hv d)

theorem LatencyScan.scan {m m' : Memory} {ev ev' : Event} {lat : Dest → List Packet}
    {σ' : Head → List Nat} (h : LatencyScan m ev lat m' ev' σ')
    (hw : ev.limits.beg ≤ ev.limits.fin) (hfwd : ∀ d, Forward (lat d)) :
    Scan m ev lat m' ev' σ' := by
  refine ⟨h.tracks, h.framed.id, h.framed.limits, ?_, h.latency⟩
  rw [h.returned, tooEarly, tooEarly, ← dropped_verdict hw (hfwd 0),
    ← dropped_verdict hw (hfwd 1)]
  rfl

/-- `Available` for any window. -/
def Buffered (w : Span Nat) (lat : Dest → List Packet) (arrivals : List (Dest × Packet)) :
    Prop :=
  ∀ j d p, arrivals[j]? = some (d, p) → ∀ d',
    p.index ∉ selectedOf w (seen lat arrivals j) d' ∧
    p.index ∉ (kept w (lat d')).map Packet.index

theorem Available.buffered {w : Span Nat} {lat : Dest → List Packet}
    {arrivals : List (Dest × Packet)} (h : Available w lat arrivals) (hw : w.beg ≤ w.fin)
    (hseen : ∀ j d, Forward (seen lat arrivals j d)) : Buffered w lat arrivals := by
  intro j d p hp d'
  rw [selectedOf_eq hw (hseen j d')]
  exact h j d p hp d'

/-- After the scan the arriving packets are in buffers on no list. -/
theorem LatencyScan.fresh {m m' : Memory} {ev ev' : Event} {lat : Dest → List Packet}
    {σ' : Head → List Nat} {arrivals : List (Dest × Packet)}
    (h : LatencyScan m ev lat m' ev' σ') (hbuf : Buffered ev.limits lat arrivals) :
    Fresh (withContribs (Set.range Head.latency) ev.id) ev'.id ev'.limits σ' lat arrivals := by
  intro j d p hp
  constructor
  · intro d'
    rw [h.framed.limits]
    exact (hbuf j d p hp d').1
  · rintro list (rfl | rfl | ⟨d', rfl⟩) hne
    · exact absurd (by rw [h.framed.id]) (hne 1)
    · exact absurd (by rw [h.framed.id]) (hne 0)
    · rw [h.latency]
      exact (hbuf j d p hp d').2

namespace Evaluated

variable {live : Set Head} {m m' : Memory} {ev ev' : Event} {σ σ' : Head → List Nat}
  {lat : Dest → List Packet} {arrivals : List (Dest × Packet)} {actions : List Nat}
  {posted : Bool}

/-- An arrival is freed where its contributor is open and it ends before the
window. -/
theorem free (he : Evaluated live m ev σ lat arrivals m' ev' σ' actions posted)
    (hw : ev.limits.beg ≤ ev.limits.fin) (hseen : ∀ j d, Forward (seen lat arrivals j d))
    {j action : Nat} {d : Dest} {p : Packet} (hj : actions[j]? = some action)
    (hp : arrivals[j]? = some (d, p)) :
    action &&& ACTION_M_FREE ≠ 0 ↔
      ¬ Completed ev.limits (seen lat arrivals j d) ∧ p.time.fin < ev.limits.beg := by
  rw [he.action j action d p hj hp, actionOf_free, Packet.verdict, verdict_eq_early,
    ← closedOf_iff hw (hseen j d), Bool.not_eq_true]
  rfl

/-- An arrival goes to the latency list where its contributor is complete, or
it begins after the window. -/
theorem addToLatency (he : Evaluated live m ev σ lat arrivals m' ev' σ' actions posted)
    (hw : ev.limits.beg ≤ ev.limits.fin) (hfwd : ∀ d, Forward (feed lat arrivals d))
    {j action : Nat} {d : Dest} {p : Packet} (hj : actions[j]? = some action)
    (hp : arrivals[j]? = some (d, p)) :
    action &&& ACTION_M_ADDTOLATENCY ≠ 0 ↔
      Completed ev.limits (seen lat arrivals j d) ∨ ev.limits.fin < p.time.beg := by
  have hmem : p ∈ feed lat arrivals d := by
    refine List.mem_append_right _ (List.mem_map.mpr ⟨(d, p), ?_, rfl⟩)
    exact List.mem_filter.mpr ⟨List.mem_of_getElem? hp, by simp⟩
  rw [he.action j action d p hj hp, actionOf_addToLatency,
    ← closedOf_iff hw ((hfwd d).take j), Packet.verdict, verdict_eq_late hw (hfwd d p hmem)]
  rfl

/-- Only the last action of a posted event posts. -/
theorem post (he : Evaluated live m ev σ lat arrivals m' ev' σ' actions posted) {j action : Nat}
    (hj : actions[j]? = some action) :
    action &&& ACTION_M_POST ≠ 0 ↔ posted = true ∧ j + 1 = actions.length := by
  obtain ⟨hjlt, -⟩ := List.getElem?_eq_some_iff.mp hj
  have hjlt' : j < arrivals.length := Nat.lt_of_lt_of_le hjlt he.exhausted.1
  obtain ⟨⟨d, p⟩, hp⟩ : ∃ a, arrivals[j]? = some a :=
    ⟨_, List.getElem?_eq_getElem hjlt'⟩
  have htake : arrivals.take j ++ [(d, p)] = arrivals.take (j + 1) := by
    rw [List.take_add_one, hp]
    rfl
  rw [he.action j action d p hj hp, actionOf_post (he.first j hjlt), closedAfter_closedOf,
    feed_feed, htake]
  rcases eq_or_ne (j + 1) actions.length with heq | hne
  · rw [heq, ← he.posted_eq]
    simp
  · -- before the last action the event is open
    rw [he.first (j + 1) (by omega)]
    simp [hne]

end Evaluated

/-- The selection is what the scan and the evaluated arrivals come to. -/
theorem Scan.selection {m m1 m2 : Memory} {ev ev1 ev2 : Event} {lat : Dest → List Packet}
    {σ1 σ2 : Head → List Nat} {arrivals : List (Dest × Packet)} {actions : List Nat}
    {posted : Bool} (h : Scan m ev lat m1 ev1 σ1) (hw : ev.limits.beg ≤ ev.limits.fin)
    (hfwd : ∀ d, Forward (feed lat arrivals d))
    (he : Evaluated (withContribs (Set.range Head.latency) ev.id) m1 ev1 σ1 lat arrivals
      m2 ev2 σ2 actions posted) :
    Selection lat arrivals m ev m2 ev2 actions posted := by
  have hseen := fun j d => (hfwd d).take j
  have hw1 : ev1.limits.beg ≤ ev1.limits.fin := h.limits ▸ hw
  have hid := he.id.trans h.id
  have hlim := he.limits.trans h.limits
  have hb := he.tracks.building
  have hcontrib := he.tracks.contrib
  have hposted := he.posted_eq
  have hfirst := he.first
  have hfree := fun j action d p (hj : actions[j]? = some action)
    (hp : arrivals[j]? = some (d, p)) => he.free hw1 hseen hj hp
  have hlater := fun j action d p (hj : actions[j]? = some action)
    (hp : arrivals[j]? = some (d, p)) => he.addToLatency hw1 hfwd hj hp
  rw [hid] at hcontrib
  rw [hlim] at hb hcontrib
  rw [h.limits] at hposted hfirst hfree hlater
  constructor
  · rw [hposted]
    exact allClosed_iff hw (hseen actions.length)
  · intro j hj
    rw [← allClosed_iff hw (hseen j)]
    exact ne_true_of_eq_false (hfirst j hj)
  · exact he.exhausted
  · intro d
    have hr := hb.store.rep (hb.mem d trivial) (hb.tight d trivial)
    rw [hid, hcontrib d] at hr
    rw [← selectedOf_eq hw (hseen actions.length d)]
    exact hr
  · intro d
    have hn := hb.npkts d trivial
    rw [hid, hcontrib d] at hn
    rw [hn, ← List.length_map (f := Packet.index), ← selectedOf_eq hw (hseen actions.length d)]
    rfl
  · rw [he.returned, h.returned]
  · intro d
    have hl : Head.latency d ∈ withContribs (Set.range Head.latency) ev.id := .inr (.inr ⟨d, rfl⟩)
    have hh := hb.store.holds _ hl
    rwa [he.other, h.latency] at hh
  · exact hfree
  · exact fun j action hj => he.post hj
  · exact hlater

/-- Building an event is the scan of the latency lists, then the evaluation of the
arrivals. -/
theorem build_evaluated (fuel : Nat) (m : Memory) (ev : Event) (lat : Dest → List Packet)
    (arrivals : List (Dest × Packet)) (hlat : LatencyLists m lat)
    (hbuf : Buffered ev.limits lat arrivals)
    (hfuel : ∀ d, (lat d).length + arrivals.length < fuel) :
    ∃ m1 ev1 σ1 m' ev' σ' actions posted,
      ev.build fuel m arrivals = .ok (m', ev', actions, posted) ∧
      LatencyScan m ev lat m1 ev1 σ1 ∧
      Evaluated (withContribs (Set.range Head.latency) ev.id) m1 ev1 σ1 lat arrivals
        m' ev' σ' actions posted := by
  have hlen : ∀ d, ((lat d).map Packet.index).length < fuel := by
    intro d
    rw [List.length_map]
    exact Nat.lt_of_le_of_lt (Nat.le_add_right _ _) (hfuel d)
  obtain ⟨m1, ev1, hrun1, hdr⟩ := seedAndDrain_spec ev fuel hlat.store (fun d => ⟨d, rfl⟩) hlen
  obtain ⟨σ1, hscan⟩ := hlat.latencyScan hdr
  have hlim := hscan.framed.limits
  rw [hlat.closed ev] at hrun1
  unfold Event.build
  simp only [hrun1, bind, Except.bind]
  by_cases hall : allClosed (closedOf ev.limits lat) = true
  · -- the event is posted at once
    have he := hscan.tracks.posted (hlim ▸ hall) arrivals
    refine ⟨m1, ev1, σ1, m1, ev1, σ1, [], true, ?_, hscan, he⟩
    rw [if_pos hall]
    rfl
  · -- the arrivals are evaluated
    have hopen : allClosed (closedOf ev1.limits lat) = false := by
      rw [hlim]
      exact Bool.not_eq_true _ ▸ hall
    obtain ⟨m2, ev2, actions, posted, σ2, hrun2, he⟩ :=
      evaluateAll_spec arrivals hscan.tracks hopen (hscan.fresh hbuf) hfuel
    refine ⟨m1, ev1, σ1, m2, ev2, σ2, actions, posted, ?_, hscan, he⟩
    rw [if_neg hall]
    exact hrun2

/-- The same for a window that is not turned round. -/
theorem build_spec (fuel : Nat) (m : Memory) (ev : Event) (lat : Dest → List Packet)
    (arrivals : List (Dest × Packet)) (hlat : LatencyLists m lat)
    (hw : ev.limits.beg ≤ ev.limits.fin) (hfwd : ∀ d, Forward (feed lat arrivals d))
    (havail : Available ev.limits lat arrivals)
    (hfuel : ∀ d, (lat d).length + arrivals.length < fuel) :
    ∃ m1 ev1 σ1 m' ev' σ' actions posted,
      ev.build fuel m arrivals = .ok (m', ev', actions, posted) ∧ Scan m ev lat m1 ev1 σ1 ∧
      Evaluated (withContribs (Set.range Head.latency) ev.id) m1 ev1 σ1 lat arrivals
        m' ev' σ' actions posted := by
  have hseen := fun j d => (hfwd d).take j
  have hlat0 : ∀ d, Forward (lat d) := by
    intro d
    have h0 := hseen 0 d
    rwa [seen, List.take_zero, feed_nil] at h0
  obtain ⟨m1, ev1, σ1, m', ev', σ', actions, posted, hrun, hscan, he⟩ :=
    build_evaluated fuel m ev lat arrivals hlat (havail.buffered hw hseen) hfuel
  exact ⟨m1, ev1, σ1, m', ev', σ', actions, posted, hrun, hscan.scan hw hlat0, he⟩

/-- **Window selection.** For well-formed latency lists, any window, and any
interleaving of later packets in available buffers, building the event returns
and selects as `Selection` says. -/
theorem window_selection (fuel : Nat) (m : Memory) (ev : Event) (lat : Dest → List Packet)
    (arrivals : List (Dest × Packet)) (hlat : LatencyLists m lat)
    (hw : ev.limits.beg ≤ ev.limits.fin) (hfwd : ∀ d, Forward (feed lat arrivals d))
    (havail : Available ev.limits lat arrivals)
    (hfuel : ∀ d, (lat d).length + arrivals.length < fuel) :
    ∃ m' ev' actions posted, ev.build fuel m arrivals = .ok (m', ev', actions, posted) ∧
      Selection lat arrivals m ev m' ev' actions posted := by
  obtain ⟨m1, ev1, σ1, m2, ev2, σ2, actions, posted, hrun, hscan, he⟩ :=
    build_spec fuel m ev lat arrivals hlat hw hfwd havail hfuel
  exact ⟨m2, ev2, actions, posted, hrun, hscan.selection hw hfwd he⟩

/-- A memory with buffer 1, spanning times 0 to 10, on latency list 0. -/
def onePacket : Memory where
  links :=
    { flnk := fun
        | .inl (.latency 0) => .inr 1
        | .inr 1 => .inl (.latency 0)
        | a => a
      blnk := fun
        | .inl (.latency 0) => .inr 1
        | a => a }
  body := fun index => { tsRange := if index = 1 then ⟨0, 10⟩ else ⟨0, 0⟩, size := 0, status := 0 }
  remaining := fun
    | 0 => 8
    | 1 => 9
  returned := []

/-- An event with the window 5 to 20. -/
def windowEvent : Event where
  id := 0
  limits := ⟨5, 20⟩
  trgTime := 10
  trgSequence := 0
  trgNode := fun _ => none
  trgNpkt := fun _ => 0
  nctbs := 0
  ctbs := 0
  npkts := fun _ => 0

theorem window_selection_onePacket :
    ∃ m' ev' actions posted,
      windowEvent.build 9 onePacket [(1, ⟨2, 5, 25⟩), (0, ⟨3, 10, 30⟩)] =
        .ok (m', ev', actions, posted) ∧
      Selection (fun | 0 => [⟨1, 0, 10⟩] | 1 => []) [(1, ⟨2, 5, 25⟩), (0, ⟨3, 10, 30⟩)]
        onePacket windowEvent m' ev' actions posted := by
  refine window_selection 9 onePacket windowEvent (fun | 0 => [⟨1, 0, 10⟩] | 1 => [])
    [(1, ⟨2, 5, 25⟩), (0, ⟨3, 10, 30⟩)] ⟨⟨?_, ?_, ?_⟩, ?_⟩ (by decide) ?_ ?_ ?_
  · rintro _ ⟨d, rfl⟩
    rcases dest_cases d with rfl | rfl
    · exact ⟨⟨rfl, rfl⟩, by simp [cells]⟩
    · exact ⟨rfl, by simp [cells]⟩
  · rintro _ ⟨d, rfl⟩ _ ⟨d', rfl⟩ n hn hn'
    rcases dest_cases d with rfl | rfl <;> rcases dest_cases d' with rfl | rfl <;> simp_all
  · rintro _ ⟨d, rfl⟩
    rcases dest_cases d with rfl | rfl <;> exact .inl rfl
  · intro d p hp
    rcases dest_cases d with rfl | rfl
    · rw [List.mem_singleton.mp hp]
      rfl
    · simp at hp
  · intro d p hp
    rcases dest_cases d with rfl | rfl <;> simp [feed, ofDest] at hp <;>
      rcases hp with rfl | rfl <;> decide
  · intro j d p hp d'
    rcases j with _ | _ | j
    iterate 2
      · simp at hp
        obtain ⟨rfl, rfl⟩ := hp
        rcases dest_cases d' with rfl | rfl <;> decide
    · simp at hp
  · intro d
    rcases dest_cases d with rfl | rfl <;> decide

end ProtoDune.Daq
