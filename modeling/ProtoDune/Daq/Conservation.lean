import Mathlib.Data.List.Perm.Subperm
import ProtoDune.Daq.EventBuild
import ProtoDune.Daq.RxRun

/-!
# Conservation of the DMA buffers

Every buffer the DMA driver hands out is on exactly one list of the event
builder until it is given back. `Owned` is that invariant for a memory and a
set of live heads, with at most one buffer in hand; the lemmas below say that
the operations of the receive loop keep it.

Main results:

* `Owned.receive`, `Owned.free`, `Owned.replace`, `Owned.evaluate`,
  `Owned.drained` — the operations keep the invariant; `replace` needs a tight
  latency list.
-/

namespace ProtoDune.Daq

open WindowSelect

/-! ## The ledger -/

/-- The buffers `held` are those received once more often than returned; the
others were returned as often as received. -/
def Ledger (received returned : List Nat) (held : Nat → Prop) : Prop :=
  ∀ i, (held i → received.count i = returned.count i + 1) ∧
    (¬ held i → received.count i = returned.count i)

namespace Ledger

variable {received returned : List Nat} {held held' : Nat → Prop} {i : Nat}

theorem congr (h : Ledger received returned held) (heq : ∀ j, held' j ↔ held j) :
    Ledger received returned held' := by
  intro j
  rw [heq]
  exact h j

theorem receive (h : Ledger received returned held) (hi : ¬ held i)
    (heq : ∀ j, held' j ↔ held j ∨ j = i) : Ledger (received ++ [i]) returned held' := by
  intro j
  rw [heq, List.count_append, List.count_singleton]
  obtain ⟨h1, h0⟩ := h j
  by_cases hj : j = i
  · subst hj
    have := h0 hi
    simp [this]
  · have hij : (i == j) = false := by simpa using Ne.symm hj
    simpa [hj, hij] using And.intro h1 h0

/-- Giving back held buffers, each once. -/
theorem giveBack (h : Ledger received returned held) {back : List Nat} (hnd : back.Nodup)
    (hheld : ∀ j ∈ back, held j) (heq : ∀ j, held' j ↔ held j ∧ j ∉ back) :
    Ledger received (returned ++ back) held' := by
  intro j
  rw [heq, List.count_append]
  obtain ⟨h1, h0⟩ := h j
  by_cases hj : j ∈ back
  · rw [List.count_eq_one_of_mem hnd hj]
    exact ⟨fun hh => absurd hj hh.2, fun _ => h1 (hheld j hj)⟩
  · rw [List.count_eq_zero_of_not_mem hj]
    exact ⟨fun hh => h1 hh.1, fun hh => h0 fun hh' => hh ⟨hh', hj⟩⟩

end Ledger

/-! ## The invariant -/

/-- Buffer `i` is on a live list, or in hand. -/
def HeldBy (live : Set Head) (σ : Head → List Nat) (hand : Option Nat) (i : Nat) : Prop :=
  (∃ h ∈ live, i ∈ σ h) ∨ hand = some i

/-- The memory `m` holds the sequences `σ` at the live heads, and these and the
buffer in hand are the buffers the program owns. -/
structure Owned (bCount : Nat) (m : Memory) (live : Set Head) (σ : Head → List Nat)
    (received : List Nat) (hand : Option Nat) : Prop where
  store : ListStore m.links live σ
  latency : ∀ d, Head.latency d ∈ live
  ledger : Ledger received m.returned (HeldBy live σ hand)
  hand_fresh : ∀ i, hand = some i → ∀ h ∈ live, i ∉ σ h
  bound : ∀ i, HeldBy live σ hand i → i < bCount

/-- Each latency list has `m_remaining` places left. -/
structure Depths (m : Memory) (σ : Head → List Nat) : Prop where
  sum : ∀ d, m.remaining d + (σ (.latency d)).length = LatencyList.Depth
  remaining : ∀ d, 0 ≤ m.remaining d

/-- The sequences agree on the events. -/
def SameEvents (σ' σ : Head → List Nat) : Prop := ∀ e d, σ' (.contrib e d) = σ (.contrib e d)

namespace Owned

variable {bCount : Nat} {m : Memory} {live : Set Head} {σ : Head → List Nat}
  {received : List Nat} {hand : Option Nat} {i : Nat}

/-- No list is longer than there are buffers. -/
theorem length_le (hc : Owned bCount m live σ received hand) {h : Head} (hl : h ∈ live) :
    (σ h).length ≤ bCount := by
  have hsub : σ h ⊆ List.range bCount := fun i hi =>
    List.mem_range.mpr (hc.bound i (.inl ⟨h, hl, hi⟩))
  simpa using (List.Nodup.subperm (hc.store.nodup hl) hsub).length_le

/-- A buffer is handed out that the program does not own. -/
theorem receive (hc : Owned bCount m live σ received none)
    (hi : received.count i = m.returned.count i) (hlt : i < bCount) :
    Owned bCount m live σ (received ++ [i]) (some i) := by
  have hnot : ¬ HeldBy live σ none i := by
    intro hheld
    have := (hc.ledger i).1 hheld
    omega
  have heq : ∀ j, HeldBy live σ (some i) j ↔ HeldBy live σ none j ∨ j = i := by
    intro j
    simp [HeldBy, eq_comm]
  refine ⟨hc.store, hc.latency, hc.ledger.receive hnot heq, ?_, ?_⟩
  · intro j hj h hh hmem
    obtain rfl : i = j := Option.some.inj hj
    exact hnot (.inl ⟨h, hh, hmem⟩)
  · intro j hj
    rcases (heq j).mp hj with hj | rfl
    · exact hc.bound j hj
    · exact hlt

/-- Buffers are given back that are held, and the others stay. -/
theorem giveBack (hc : Owned bCount m live σ received hand) {m' : Memory} {live' : Set Head}
    {σ' : Head → List Nat} {hand' : Option Nat} {back : List Nat}
    (hs : ListStore m'.links live' σ') (hlat : ∀ d, Head.latency d ∈ live')
    (hret : m'.returned = m.returned ++ back) (hnd : back.Nodup)
    (hback : ∀ j ∈ back, HeldBy live σ hand j)
    (heq : ∀ j, HeldBy live' σ' hand' j ↔ HeldBy live σ hand j ∧ j ∉ back)
    (hfresh : ∀ j, hand' = some j → ∀ h ∈ live', j ∉ σ' h) :
    Owned bCount m' live' σ' received hand' := by
  refine ⟨hs, hlat, ?_, hfresh, ?_⟩
  · rw [hret]
    exact hc.ledger.giveBack hnd hback heq
  · intro j hj
    exact hc.bound j ((heq j).mp hj).1

/-- Buffers move between the lists and the hand. -/
theorem move (hc : Owned bCount m live σ received hand) {m' : Memory}
    {σ' : Head → List Nat} {hand' : Option Nat} (hs : ListStore m'.links live σ')
    (hret : m'.returned = m.returned)
    (heq : ∀ j, HeldBy live σ' hand' j ↔ HeldBy live σ hand j)
    (hfresh : ∀ j, hand' = some j → ∀ h ∈ live, j ∉ σ' h) :
    Owned bCount m' live σ' received hand' :=
  hc.giveBack hs hc.latency (by simp [hret]) List.nodup_nil (by simp)
    (by simpa using heq) hfresh

/-- The buffer in hand is given back. -/
theorem free (hc : Owned bCount m live σ received (some i)) :
    Owned bCount (m.free i) live σ received none := by
  refine hc.giveBack hc.store hc.latency rfl (List.nodup_singleton i)
    (by simp [HeldBy]) ?_ (by simp)
  intro j
  constructor
  · rintro (⟨h, hh, hj⟩ | hj)
    · refine ⟨.inl ⟨h, hh, hj⟩, ?_⟩
      rw [List.mem_singleton]
      rintro rfl
      exact hc.hand_fresh j rfl h hh hj
    · exact absurd hj (by simp)
  · rintro ⟨hj | hj, hne⟩
    · exact .inl hj
    · exact absurd (by simpa using hj.symm) hne

/-- The packet in hand joins a list. -/
theorem heldBy_append {h : Head} (hl : h ∈ live) (j : Nat) :
    HeldBy live (Function.update σ h (σ h ++ [i])) none j ↔ HeldBy live σ (some i) j := by
  constructor
  · rintro (⟨h', hh', hj⟩ | hj)
    · rcases eq_or_ne h' h with rfl | hne
      · rw [Function.update_self, List.mem_append, List.mem_singleton] at hj
        rcases hj with hj | rfl
        · exact .inl ⟨h', hh', hj⟩
        · exact .inr rfl
      · rw [Function.update_of_ne hne] at hj
        exact .inl ⟨h', hh', hj⟩
    · exact absurd hj (by simp)
  · rintro (⟨h', hh', hj⟩ | hj)
    · refine .inl ⟨h', hh', ?_⟩
      rcases eq_or_ne h' h with rfl | hne
      · rw [Function.update_self]
        exact List.mem_append_left _ hj
      · rwa [Function.update_of_ne hne]
    · obtain rfl : i = j := Option.some.inj hj
      refine .inl ⟨h, hl, ?_⟩
      rw [Function.update_self]
      exact List.mem_append_right _ (List.mem_singleton.mpr rfl)

/-- The packet in hand is appended to a tight latency list. -/
theorem push (hc : Owned bCount m live σ received (some i)) {d : Dest}
    (ht : Tight m.links (.latency d) (σ (.latency d))) :
    Owned bCount (m.insertTail (.latency d) (.inr i)) live
      (Function.update σ (.latency d) (σ (.latency d) ++ [i])) received none :=
  hc.move (hc.store.insertTail (hc.latency d) ht (hc.hand_fresh i rfl)).1 rfl
    (heldBy_append (hc.latency d)) (by simp)

/-- The first packet of a latency list is given back. -/
theorem pop (hc : Owned bCount m live σ received none) {d : Dest} {x : Nat} {xs : List Nat}
    (hσ : σ (.latency d) = x :: xs) :
    m.removeHead (.latency d) = ((m.removeHead (.latency d)).1, some (.inr x)) ∧
      Owned bCount ((m.removeHead (.latency d)).1.dmaRetIndex (.inr x)) live
        (Function.update σ (.latency d) xs) received none := by
  have hl := hc.latency d
  obtain ⟨hs, -, hret⟩ := hc.store.removeHead hl hσ
  have hnd := hc.store.nodup hl
  rw [hσ, List.nodup_cons] at hnd
  refine ⟨Prod.ext rfl hret, hc.giveBack hs hc.latency rfl
    (List.nodup_singleton x) ?_ ?_ (by simp)⟩
  · intro j hj
    rw [List.mem_singleton.mp hj]
    exact .inl ⟨_, hl, by rw [hσ]; exact List.mem_cons_self⟩
  · intro j
    rw [List.mem_singleton]
    constructor
    · rintro (⟨h, hh, hj⟩ | hj)
      · rcases eq_or_ne h (.latency d) with rfl | hne
        · rw [Function.update_self] at hj
          refine ⟨.inl ⟨_, hh, ?_⟩, fun hjx => hnd.1 (hjx ▸ hj)⟩
          rw [hσ]
          exact List.mem_cons_of_mem _ hj
        · rw [Function.update_of_ne hne] at hj
          refine ⟨.inl ⟨h, hh, hj⟩, ?_⟩
          rintro rfl
          exact hne (hc.store.disjoint h hh _ hl j hj (by rw [hσ]; exact List.mem_cons_self))
      · exact absurd hj (by simp)
    · rintro ⟨⟨h, hh, hj⟩ | hj, hjx⟩
      · refine .inl ⟨h, hh, ?_⟩
        rcases eq_or_ne h (.latency d) with rfl | hne
        · rw [hσ] at hj
          rw [Function.update_self]
          exact (List.mem_cons.mp hj).resolve_left hjx
        · rwa [Function.update_of_ne hne]
      · exact absurd hj (by simp)

/-- **Replacing.** The packet in hand goes to a latency list with a tight tail;
if the list is full its oldest packet is given back. -/
theorem replace (hc : Owned bCount m live σ received (some i)) (hdepth : Depths m σ) {d : Dest}
    (ht : Tight m.links (.latency d) (σ (.latency d))) :
    ∃ m' σ', LatencyList.replace m d (.inr i) = .ok m' ∧
      Owned bCount m' live σ' received none ∧ Depths m' σ' ∧ SameEvents σ' σ ∧
      ∀ e d', m'.links.blnk (.inl (.contrib e d')) = m.links.blnk (.inl (.contrib e d')) := by
  have hpush := hc.push ht
  have hblnk : ∀ e d', (m.insertTail (.latency d) (.inr i)).links.blnk (.inl (.contrib e d')) =
      m.links.blnk (.inl (.contrib e d')) := fun _ _ => Links.insertTail_blnk_of_ne (by simp)
  have hsum := hdepth.sum d
  unfold LatencyList.replace
  dsimp only
  by_cases hfull : m.remaining d ≤ 0
  · -- the list is full: its oldest packet leaves
    rw [if_pos (show (m.insertTail (.latency d) (.inr i)).remaining d ≤ 0 from hfull)]
    have hne : σ (.latency d) ≠ [] := by
      intro hnil
      rw [hnil, LatencyList.Depth] at hsum
      simp at hsum
      omega
    obtain ⟨x, xs, hσ⟩ := List.exists_cons_of_ne_nil hne
    obtain ⟨hrm, hpop⟩ := hpush.pop
      (by rw [Function.update_self, hσ]; rfl)
    rw [Function.update_idem] at hpop
    rw [hrm]
    refine ⟨_, _, rfl, hpop, ⟨?_, hdepth.remaining⟩, ?_, ?_⟩
    · intro d'
      show m.remaining d' + _ = _
      rcases eq_or_ne d' d with rfl | hne'
      · rw [hσ] at hsum
        rw [Function.update_self]
        simpa using hsum
      · rw [Function.update_of_ne (by simp [hne'])]
        exact hdepth.sum d'
    · intro e d'
      exact Function.update_of_ne (by simp) _ _
    · intro e d'
      rw [← hblnk e d']
      exact Links.removeHead_blnk_of_ne (by simp)
  · -- there is room
    rw [if_neg (show ¬ (m.insertTail (.latency d) (.inr i)).remaining d ≤ 0 from hfull)]
    refine ⟨_, _, rfl, hpush.move hpush.store rfl (fun _ => Iff.rfl) (by simp), ⟨?_, ?_⟩, ?_,
      hblnk⟩
    · intro d'
      have hsum' := hdepth.sum d'
      rcases eq_or_ne d' d with rfl | hne'
      · simp only [Memory.addRemaining, Memory.insertTail, Function.update_self,
          List.length_append, List.length_singleton]
        push_cast
        omega
      · rw [Function.update_of_ne (by simp [hne'])]
        simpa [Memory.addRemaining, Memory.insertTail, hne'] using hsum'
    · intro d'
      have hrem := hdepth.remaining d'
      rcases eq_or_ne d' d with rfl | hne'
      · simp only [Memory.addRemaining, Memory.insertTail, Function.update_self]
        omega
      · simpa [Memory.addRemaining, Memory.insertTail, hne'] using hrem
    · intro e d'
      exact Function.update_of_ne (by simp) _ _

/-- **One packet.** The packet in hand is evaluated: it joins the event, or
stays in hand. -/
theorem evaluate (hc : Owned bCount m live σ received (some i)) {ev : Event} {P : Set Dest}
    {closed : Dest → Bool} (hb : Building live m ev σ P closed) {d : Dest} (hd : d ∈ P)
    {v : Verdict} (hv : verdict ev.limits (m.body i).tsRange = v) :
    ∃ m' ev', ev.evaluate (bCount + 1) m (.inr i) d = .ok (m', ev', actionOf closed d v) ∧
      Building live m' ev' (offered ev.id σ closed d i v) P (closedAfter closed d v) ∧
      Owned bCount m' live (offered ev.id σ closed d i v) received
        (if closed d = false ∧ v.keeps = true then none else some i) ∧
      ev'.id = ev.id ∧ m'.remaining = m.remaining ∧
      ∀ ictb, m'.links.blnk (.inl (.latency ictb)) = m.links.blnk (.inl (.latency ictb)) := by
  have hlt := Nat.lt_succ_of_le (hc.length_le (hb.mem d hd))
  obtain ⟨m', ev', hrun, hb', hf, hrem, hret, hblnk⟩ :=
    hb.evaluate hd (hc.hand_fresh i rfl) hlt hv
  refine ⟨m', ev', hrun, hb', ?_, hf.id, hrem, hblnk⟩
  have hs := hb'.store
  unfold offered at hs ⊢
  by_cases hkeep : closed d = false ∧ v.keeps = true
  · rw [if_pos hkeep] at hs ⊢
    rw [if_pos hkeep]
    exact hc.move hs hret (heldBy_append (hb.mem d hd)) (by simp)
  · rw [if_neg hkeep] at hs ⊢
    rw [if_neg hkeep]
    exact hc.move hs hret (fun _ => Iff.rfl) hc.hand_fresh

/-- A dropped packet is on no list after `seedAndDrain`. -/
theorem notMem_drained (hc : Owned bCount m live σ received hand) (id : Nat)
    (v : Nat → Verdict) (d : Dest) (j : Nat) (hj : j ∈ dropped v (σ (.latency d))) :
    ∀ h ∈ withContribs live id, j ∉ drained id σ v h := by
  have hjd : j ∈ σ (.latency d) := mem_scan.mpr (.inr (.inl hj))
  have hnd := notMem_of_mem_dropped (hc.store.nodup (hc.latency d)) hj
  have honly : ∀ h ∈ live, j ∈ σ h → h = .latency d := fun h hh hjh =>
    hc.store.disjoint h hh _ (hc.latency d) j hjh hjd
  intro h hh hmem
  rcases drained_cases hh σ v with ⟨d', rfl, heq⟩ | ⟨d', rfl, heq⟩ | ⟨hlive, hlat, heq⟩
  all_goals rw [heq] at hmem
  · have hd' := honly _ (hc.latency d') (mem_scan.mpr (.inr (.inr hmem)))
    rw [hd'] at hmem
    exact hnd.2 hmem
  · have hd' := honly _ (hc.latency d') (mem_scan.mpr (.inl hmem))
    rw [hd'] at hmem
    exact hnd.1 hmem
  · exact hlat d (honly h hlive hmem)

/-- **Seed and drain.** The packets before the window are given back; the others
stay on the latency lists or join the new event. -/
theorem drained (hc : Owned bCount m live σ received hand) {ev ev' : Event} {m' : Memory}
    (hnew : ∀ d, Head.contrib ev.id d ∉ live) (hd : Drained live m ev σ m' ev') :
    Owned bCount m' (withContribs live ev.id) (drained ev.id σ (packetVerdict m ev)) received
      hand := by
  have hgone := hc.notMem_drained ev.id (packetVerdict m ev)
  have hdrop : ∀ d j, j ∈ dropped (packetVerdict m ev) (σ (.latency d)) →
      j ∈ σ (.latency d) := fun d j hj => mem_scan.mpr (.inr (.inl hj))
  have hne : ∀ h ∈ live, ∀ d, h ≠ .contrib ev.id d := fun h hh d heq => hnew d (heq ▸ hh)
  have hback : ∀ j, j ∈ dropped (packetVerdict m ev) (σ (.latency 0)) ++
      dropped (packetVerdict m ev) (σ (.latency 1)) ↔
      ∃ d, j ∈ dropped (packetVerdict m ev) (σ (.latency d)) := by
    intro j
    rw [List.mem_append, Fin.exists_fin_two]
  -- every list of the outcome is part of a list there was
  have hpart : ∀ h ∈ withContribs live ev.id, ∀ j,
      j ∈ Daq.drained ev.id σ (packetVerdict m ev) h → ∃ h' ∈ live, j ∈ σ h' := by
    intro h hh j hj
    rcases drained_cases hh σ (packetVerdict m ev) with ⟨d, rfl, heq⟩ | ⟨d, rfl, heq⟩ |
      ⟨hlive, -, heq⟩
    all_goals rw [heq] at hj
    · exact ⟨_, hc.latency d, mem_scan.mpr (.inr (.inr hj))⟩
    · exact ⟨_, hc.latency d, mem_scan.mpr (.inl hj)⟩
    · exact ⟨h, hlive, hj⟩
  have hfresh : ∀ j, hand = some j → ∀ h ∈ withContribs live ev.id,
      j ∉ Daq.drained ev.id σ (packetVerdict m ev) h := by
    intro j hj h hh hmem
    obtain ⟨h', hh', hmem'⟩ := hpart h hh j hmem
    exact hc.hand_fresh j hj h' hh' hmem'
  refine hc.giveBack hd.building.store
    (fun d => Set.mem_insert_of_mem _ (Set.mem_insert_of_mem _ (hc.latency d)))
    (by rw [hd.returned, List.append_assoc]) ?_ ?_ ?_ hfresh
  · rw [List.nodup_append]
    refine ⟨dropped_nodup (hc.store.nodup (hc.latency 0)),
      dropped_nodup (hc.store.nodup (hc.latency 1)), ?_⟩
    rintro j hj _ hj' rfl
    have hsame := hc.store.disjoint _ (hc.latency 0) _ (hc.latency 1) j (hdrop 0 j hj)
      (hdrop 1 j hj')
    exact absurd hsame (by simp)
  · intro j hj
    obtain ⟨d, hj⟩ := (hback j).mp hj
    exact .inl ⟨_, hc.latency d, hdrop d j hj⟩
  · intro j
    rw [hback]
    constructor
    · rintro (⟨h, hh, hj⟩ | hj)
      · exact ⟨.inl (hpart h hh j hj), fun ⟨d, hjd⟩ => hgone d j hjd h hh hj⟩
      · exact ⟨.inr hj, fun ⟨d, hjd⟩ => hc.hand_fresh j hj _ (hc.latency d) (hdrop d j hjd)⟩
    · rintro ⟨⟨h, hh, hj⟩ | hj, hjd⟩
      · cases h with
        | latency d =>
            rcases mem_scan (v := packetVerdict m ev).mp hj with hsel | hdr | hleft
            · refine .inl ⟨.contrib ev.id d, ?_, by simpa [Daq.drained] using hsel⟩
              rcases dest_cases d with rfl | rfl <;> simp [withContribs]
            · exact absurd ⟨d, hdr⟩ hjd
            · exact .inl ⟨.latency d, Set.mem_insert_of_mem _ (Set.mem_insert_of_mem _ hh), hleft⟩
        | contrib e d =>
            have he : e ≠ ev.id := fun heq => hne _ hh d (by rw [heq])
            refine .inl ⟨.contrib e d, Set.mem_insert_of_mem _ (Set.mem_insert_of_mem _ hh), ?_⟩
            rwa [Daq.drained, if_neg he]
      · exact .inr hj

end Owned

/-- The places freed by `seedAndDrain` are counted. -/
theorem Depths.drained {m m' : Memory} {σ : Head → List Nat} {live : Set Head}
    {ev ev' : Event} (hdepth : Depths m σ) (hd : Drained live m ev σ m' ev') :
    Depths m' (drained ev.id σ (packetVerdict m ev)) := by
  constructor
  all_goals
    intro d
    have hsum := hdepth.sum d
    have hrem := hdepth.remaining d
    have hle := leftover_length_le (v := packetVerdict m ev) (σ (.latency d))
    rw [hd.remaining]
  · show _ + ((leftover (packetVerdict m ev) (σ (.latency d))).length : Int) = _
    by_cases hcl : closed (packetVerdict m ev) (σ (.latency d)) = true
    · rw [if_pos hcl]
      omega
    · rw [if_neg hcl, leftover_of_not_closed (by simpa using hcl)]
      simp
  · by_cases hcl : closed (packetVerdict m ev) (σ (.latency d)) = true
    · rw [if_pos hcl]
      omega
    · rw [if_neg hcl]
      decide

end ProtoDune.Daq
