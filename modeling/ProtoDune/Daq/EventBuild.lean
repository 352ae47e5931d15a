import Mathlib.Tactic.Ring
import ProtoDune.Daq.Event

/-!
# Building one event

`Building` relates an event under construction to what it stands for: for each
contributor the sequence of packets on its list and whether it is closed.

Main results:

* `Building.evaluate` — one call of `evaluate` returns, answers `actionOf`, and
  leaves the event standing for the sequences with the packet offered.
* `Building.seedContributor` — the scan of a latency list moves `selected` to
  the event, frees `dropped` and leaves `leftover`.
* `seedAndDrain_spec` — both scans together.
-/

namespace ProtoDune.Daq

open WindowSelect

/-! ## The contributor mask -/

/-- The mask of the contributors that are not closed. -/
def pendingMask (closed : Dest → Bool) : BitVec 32 :=
  (if closed 0 then 0 else 1) ||| (if closed 1 then 0 else 2)

/-- How many contributors are closed. -/
def closedCount (closed : Dest → Bool) : Nat := (closed 0).toNat + (closed 1).toNat

/-- Both contributors are closed. -/
def allClosed (closed : Dest → Bool) : Bool := closed 0 && closed 1

theorem dest_cases : ∀ d : Dest, d = 0 ∨ d = 1 := by decide

theorem pendingMask_and_ctbMask (closed : Dest → Bool) (d : Dest) :
    pendingMask closed &&& ctbMask d = 0 ↔ closed d = true := by
  unfold pendingMask ctbMask
  rcases dest_cases d with rfl | rfl <;> cases h0 : closed 0 <;> cases h1 : closed 1 <;> simp

theorem pendingMask_and_not_ctbMask (closed : Dest → Bool) (d : Dest) :
    pendingMask closed &&& ~~~(ctbMask d) = pendingMask (Function.update closed d true) := by
  unfold pendingMask ctbMask
  rcases dest_cases d with rfl | rfl <;> cases h0 : closed 0 <;> cases h1 : closed 1 <;>
    simp [h0, h1, Function.update]

theorem pendingMask_eq_zero (closed : Dest → Bool) :
    pendingMask closed = 0 ↔ allClosed closed = true := by
  unfold pendingMask allClosed
  cases h0 : closed 0 <;> cases h1 : closed 1 <;> simp

theorem closedCount_update {closed : Dest → Bool} {d : Dest} (h : closed d = false) :
    closedCount (Function.update closed d true) = closedCount closed + 1 := by
  unfold closedCount
  rcases dest_cases d with rfl | rfl <;> simp [Function.update, h, Nat.add_comm]

theorem closedCount_le (closed : Dest → Bool) : closedCount closed ≤ 2 := by
  unfold closedCount
  cases closed 0 <;> cases closed 1 <;> decide

/-! ## Evaluating one packet -/

/-- The event `ev` of the memory `m` stands for the packet sequences `σ` and
the closed contributors `closed`; its contributors in `P` are prepared. -/
structure Building (live : Set Head) (m : Memory) (ev : Event) (σ : Head → List Nat)
    (P : Set Dest) (closed : Dest → Bool) : Prop where
  store : ListStore m.links live σ
  mem : ∀ d ∈ P, Head.contrib ev.id d ∈ live
  tight : ∀ d ∈ P, Tight m.links (Head.contrib ev.id d) (σ (.contrib ev.id d))
  npkts : ∀ d ∈ P, ev.npkts d = (σ (.contrib ev.id d)).length % 2 ^ 16
  ctbs : ev.ctbs = pendingMask closed
  nctbs : ev.nctbs = closedCount closed

/-- What building an event leaves alone: the frame buffers and the identity and
window of the event. -/
structure Framed (m m' : Memory) (ev ev' : Event) : Prop where
  body : m'.body = m.body
  id : ev'.id = ev.id
  limits : ev'.limits = ev.limits
  trgTime : ev'.trgTime = ev.trgTime

theorem Framed.refl (m : Memory) (ev : Event) : Framed m m ev ev := ⟨rfl, rfl, rfl, rfl⟩

theorem Framed.trans {m m' m'' : Memory} {ev ev' ev'' : Event} (h : Framed m m' ev ev')
    (h' : Framed m' m'' ev' ev'') : Framed m m'' ev ev'' :=
  ⟨h'.body.trans h.body, h'.id.trans h.id, h'.limits.trans h.limits,
    h'.trgTime.trans h.trgTime⟩

/-- The closed contributors after a packet with verdict `v`. -/
def closedAfter (closed : Dest → Bool) (dest : Dest) (v : Verdict) : Dest → Bool :=
  Function.update closed dest (closed dest || v.closes)

/-- The answer of `evaluate` on a packet with verdict `v`. -/
def actionOf (closed : Dest → Bool) (dest : Dest) (v : Verdict) : Nat :=
  if closed dest then ACTION_M_ADDTOLATENCY
  else match v with
    | .early => ACTION_M_FREE
    | .inside => ACTION_M_NONE
    | .last => if allClosed (closedAfter closed dest v) then ACTION_M_POST else ACTION_M_NONE
    | .late =>
        if allClosed (closedAfter closed dest v) then ACTION_M_ADDTOLATENCY ||| ACTION_M_POST
        else ACTION_M_ADDTOLATENCY

theorem actionOf_free (closed : Dest → Bool) (d : Dest) (v : Verdict) :
    actionOf closed d v &&& ACTION_M_FREE ≠ 0 ↔ closed d = false ∧ v = .early := by
  unfold actionOf
  cases closed d <;> cases v <;> simp only [Bool.false_eq_true, if_true, if_false] <;>
    (try split) <;> decide

theorem actionOf_addToLatency (closed : Dest → Bool) (d : Dest) (v : Verdict) :
    actionOf closed d v &&& ACTION_M_ADDTOLATENCY ≠ 0 ↔ closed d = true ∨ v = .late := by
  unfold actionOf
  cases closed d <;> cases v <;> simp only [Bool.false_eq_true, if_true, if_false] <;>
    (try split) <;> decide

/-- The sequences after a packet `n` with verdict `v`. -/
def offered (id : Nat) (σ : Head → List Nat) (closed : Dest → Bool) (dest : Dest) (n : Nat)
    (v : Verdict) : Head → List Nat :=
  if closed dest = false ∧ v.keeps = true then
    Function.update σ (.contrib id dest) (σ (.contrib id dest) ++ [n])
  else σ

/-- The scan for the trigger node returns: it meets the last node of the list. -/
theorem scanForTriggerNode_returns {m : Memory} {live : Set Head} {σ : Head → List Nat}
    {list : Head} (hs : ListStore m.links live σ) (hl : list ∈ live)
    (ht : Tight m.links list (σ list)) (trgTime : Nat) {pre ys : List Nat} {y : Nat}
    (hσ : σ list = pre ++ y :: ys) {fuel : Nat} (hfuel : ys.length < fuel) (npkt : Nat) :
    ∃ found, scanForTriggerNode m list trgTime fuel (.inr y) npkt = .ok found := by
  induction ys generalizing pre y fuel npkt with
  | nil =>
      obtain ⟨f, rfl⟩ := Nat.exists_eq_succ_of_ne_zero (Nat.ne_of_gt hfuel)
      have hlast : m.links.blnk (.inl list) = .inr y := by
        rw [ht, hσ]
        simp [cells]
      rw [scanForTriggerNode]
      split
      · exact ⟨_, rfl⟩
      · rw [hlast, if_pos rfl]
        exact ⟨_, rfl⟩
  | cons z zs ih =>
      obtain ⟨f, rfl⟩ := Nat.exists_eq_succ_of_ne_zero (Nat.ne_of_gt (Nat.zero_lt_of_lt hfuel))
      have hnext : m.links.flnk (.inr y) = .inr z := by
        have hc := (hs.holds list hl).chain
        rw [hσ, show (cells (pre ++ y :: z :: zs) : List Addr) =
          cells pre ++ .inr y :: .inr z :: cells zs by simp [cells]] at hc
        exact (LinkChain.chain_append.mp hc).2.1
      rw [scanForTriggerNode]
      split
      · exact ⟨_, rfl⟩
      · split
        · exact ⟨_, rfl⟩
        · rw [hnext]
          exact ih (hσ.trans (List.append_cons pre y _)) (Nat.lt_of_succ_lt_succ hfuel) _

namespace Building

variable {live : Set Head} {m : Memory} {ev : Event} {σ : Head → List Nat} {P : Set Dest}
  {closed : Dest → Bool} {dest : Dest} {n fuel : Nat}

/-- Recording the trigger node returns and touches nothing else. -/
theorem findTrigger (hb : Building live m ev σ P closed) (hd : dest ∈ P)
    (hne : σ (.contrib ev.id dest) ≠ []) (hfuel : (σ (.contrib ev.id dest)).length ≤ fuel)
    (node : Addr) (npkt : Nat) :
    ∃ ev', ev.findTrigger fuel m node dest npkt = .ok ev' ∧
      Building live m ev' σ P closed ∧ Framed m m ev ev' := by
  have hset : ∀ trgNode trgNpkt, Building live m { ev with trgNode, trgNpkt } σ P closed ∧
      Framed m m ev { ev with trgNode, trgNpkt } := fun _ _ =>
    ⟨⟨hb.store, hb.mem, hb.tight, hb.npkts, hb.ctbs, hb.nctbs⟩, ⟨rfl, rfl, rfl, rfl⟩⟩
  unfold Event.findTrigger
  split
  · dsimp only
    split
    · obtain ⟨y, ys, hσ⟩ := List.exists_cons_of_ne_nil hne
      have hfirst : m.links.flnk (.inl (.contrib ev.id dest)) = .inr y := by
        have hc := (hb.store.holds _ (hb.mem dest hd)).chain
        rw [hσ] at hc
        exact hc.1
      have hlen : ys.length < fuel := by
        rw [hσ, List.length_cons] at hfuel
        exact hfuel
      have hpre : σ (.contrib ev.id dest) = [] ++ y :: ys := hσ
      obtain ⟨found, hfound⟩ := scanForTriggerNode_returns hb.store (hb.mem dest hd)
        (hb.tight dest hd) ev.trgTime hpre hlen 0
      rw [hfirst, hfound]
      cases found with
      | none => exact ⟨ev, rfl, hb, Framed.refl m ev⟩
      | some r => exact ⟨_, rfl, hset _ _⟩
    · split
      · exact ⟨_, rfl, hset _ _⟩
      · exact ⟨ev, rfl, hb, Framed.refl m ev⟩
  · exact ⟨ev, rfl, hb, Framed.refl m ev⟩

/-- Appending a fresh packet to a contributor's list. -/
theorem append (hb : Building live m ev σ P closed) (hd : dest ∈ P)
    (hn : ∀ h ∈ live, n ∉ σ h) :
    Building live (m.insertTail (.contrib ev.id dest) (.inr n)) (ev.countPacket dest)
      (Function.update σ (.contrib ev.id dest) (σ (.contrib ev.id dest) ++ [n])) P closed := by
  obtain ⟨hs, ht⟩ := hb.store.insertTail (hb.mem dest hd) (hb.tight dest hd) hn
  refine ⟨hs, hb.mem, ?_, ?_, hb.ctbs, hb.nctbs⟩
  · intro d hdP
    rcases eq_or_ne d dest with rfl | hne
    · unfold Event.countPacket
      rw [Function.update_self]
      exact ht
    · have hhead : Head.contrib ev.id d ≠ Head.contrib ev.id dest := by simp [hne]
      have ht' := hb.tight d hdP
      unfold Event.countPacket
      rw [Function.update_of_ne hhead]
      unfold Tight at ht' ⊢
      rw [← ht']
      exact Links.insertTail_blnk_of_ne (by simp [hne])
  · intro d hdP
    unfold Event.countPacket
    rcases eq_or_ne d dest with rfl | hne
    · have hlen := hb.npkts d hdP
      simp only [Function.update_self, List.length_append, List.length_singleton]
      omega
    · have hhead : Head.contrib ev.id d ≠ Head.contrib ev.id dest := by simp [hne]
      simp only [Function.update_of_ne hne, Function.update_of_ne hhead]
      exact hb.npkts d hdP

/-- Closing a contributor that is open. -/
theorem complete (hb : Building live m ev σ P closed) (hopen : closed dest = false) :
    Building live m (ev.complete dest) σ P (Function.update closed dest true) where
  store := hb.store
  mem := hb.mem
  tight := hb.tight
  npkts := hb.npkts
  ctbs := by
    rw [← pendingMask_and_not_ctbMask, ← hb.ctbs]
    rfl
  nctbs := by
    rw [closedCount_update hopen, ← hb.nctbs]
    rfl

theorem ctbs_and (hb : Building live m ev σ P closed) (dest : Dest) :
    ev.ctbs &&& ctbMask dest = 0 ↔ closed dest = true := by
  rw [hb.ctbs]
  exact pendingMask_and_ctbMask closed dest

theorem ctbs_eq_zero (hb : Building live m ev σ P closed) :
    ev.ctbs = 0 ↔ allClosed closed = true := by
  rw [hb.ctbs]
  exact pendingMask_eq_zero closed

theorem nctbs_le (hb : Building live m ev σ P closed) : ev.nctbs ≤ 2 := by
  rw [hb.nctbs]
  exact closedCount_le closed

/-- The test that decides about posting. -/
theorem ite_ctbs (hb : Building live m ev σ P closed) {α : Type} (x y : α) :
    (if ev.ctbs = 0 then x else y) = if allClosed closed = true then x else y := by
  by_cases hall : allClosed closed = true
  · rw [if_pos hall, if_pos (hb.ctbs_eq_zero.mpr hall)]
  · rw [if_neg hall, if_neg fun h => hall (hb.ctbs_eq_zero.mp h)]

/-- **One packet.** `evaluate` returns, answers `actionOf` of the packet's
verdict, and offers the packet to the event. -/
theorem evaluate (hb : Building live m ev σ P closed) (hd : dest ∈ P)
    (hn : ∀ h ∈ live, n ∉ σ h) (hfuel : (σ (.contrib ev.id dest)).length < fuel) {v : Verdict}
    (hv : verdict ev.limits (m.body n).tsRange = v) :
    ∃ m' ev', ev.evaluate fuel m (.inr n) dest = .ok (m', ev', actionOf closed dest v) ∧
      Building live m' ev' (offered ev.id σ closed dest n v) P (closedAfter closed dest v) ∧
      Framed m m' ev ev' ∧ m'.remaining = m.remaining ∧ m'.returned = m.returned ∧
      ∀ ictb, m'.links.blnk (.inl (.latency ictb)) = m.links.blnk (.inl (.latency ictb)) := by
  unfold Event.evaluate
  by_cases hc : closed dest = true
  · -- the contributor is complete: nothing changes
    rw [if_pos ((hb.ctbs_and dest).mpr hc)]
    have hσ : offered ev.id σ closed dest n v = σ := by simp [offered, hc]
    have hcl : closedAfter closed dest v = closed := by
      rw [closedAfter, hc, Bool.true_or, ← hc, Function.update_eq_self]
    refine ⟨m, ev, by simp [actionOf, hc], ?_, Framed.refl m ev, rfl, rfl, fun _ => rfl⟩
    rwa [hσ, hcl]
  have hopen : closed dest = false := by simpa using hc
  have hpend : ¬ ev.ctbs &&& ctbMask dest = 0 := fun h => hc ((hb.ctbs_and dest).mp h)
  rw [if_neg hpend]
  unfold verdict at hv
  have htime : m.tsRange (.inr n) = (m.body n).tsRange := rfl
  rw [htime]
  by_cases hearly : (m.body n).tsRange.fin < ev.limits.beg
  · rw [if_pos hearly] at hv ⊢
    subst hv
    have hcl : closedAfter closed dest .early = closed := by simp [closedAfter]
    refine ⟨m, ev, by simp [actionOf, hopen], ?_, Framed.refl m ev, rfl, rfl, fun _ => rfl⟩
    rw [hcl]
    simpa [offered] using hb
  rw [if_neg hearly] at hv ⊢
  by_cases hin : (m.body n).tsRange.beg ≤ ev.limits.fin
  · -- the packet is in the window: append it and look for the trigger
    rw [if_pos hin] at hv ⊢
    have hkeeps : v.keeps = true := by
      subst hv
      split <;> rfl
    have hσ : offered ev.id σ closed dest n v =
        Function.update σ (.contrib ev.id dest) (σ (.contrib ev.id dest) ++ [n]) := by
      simp [offered, hopen, hkeeps]
    rw [hσ]
    have hb1 := hb.append hd hn
    have hlen : (Function.update σ (.contrib ev.id dest) (σ (.contrib ev.id dest) ++ [n])
        (.contrib ev.id dest)).length ≤ fuel := by
      simpa using Nat.succ_le_of_lt hfuel
    obtain ⟨ev2, htrg, hb2, hf2⟩ := hb1.findTrigger hd (by simp [Event.countPacket]) hlen
      (.inr n) (ev.npkts dest)
    have hf1 : Framed m (m.insertTail (.contrib ev.id dest) (.inr n)) ev
        (ev.countPacket dest) := ⟨rfl, rfl, rfl, rfl⟩
    have hframe := hf1.trans hf2
    have hblnk : ∀ ictb, (m.insertTail (.contrib ev.id dest) (.inr n)).links.blnk
        (.inl (.latency ictb)) = m.links.blnk (.inl (.latency ictb)) := fun ictb =>
      Links.insertTail_blnk_of_ne (by simp)
    simp only [htrg, bind, Except.bind]
    rw [show (m.insertTail (.contrib ev.id dest) (.inr n)).tsRange (.inr n) =
      (m.body n).tsRange from rfl, hframe.limits]
    by_cases hlast : ev.limits.fin ≤ (m.body n).tsRange.fin
    · rw [if_pos hlast] at hv ⊢
      subst hv
      have hcl : closedAfter closed dest .last = Function.update closed dest true := by
        simp [closedAfter]
      have hb3 := hb2.complete hopen
      rw [if_neg (Nat.not_lt.mpr hb3.nctbs_le), hb3.ite_ctbs, ← hcl]
      refine ⟨m.insertTail (.contrib ev.id dest) (.inr n), ev2.complete dest, ?_, hcl ▸ hb3,
        hframe.trans ⟨rfl, rfl, rfl, rfl⟩, rfl, rfl, hblnk⟩
      simp only [actionOf, hopen, Bool.false_eq_true, if_false]
      split <;> rfl
    · rw [if_neg hlast] at hv ⊢
      subst hv
      have hcl : closedAfter closed dest .inside = closed := by simp [closedAfter]
      refine ⟨m.insertTail (.contrib ev.id dest) (.inr n), ev2, by simp [actionOf, hopen], ?_,
        hframe, rfl, rfl, hblnk⟩
      rwa [hcl]
  · -- the packet begins after the window: the contributor is complete without it
    rw [if_neg hin] at hv ⊢
    subst hv
    have hcl : closedAfter closed dest .late = Function.update closed dest true := by
      simp [closedAfter]
    have hb3 := hb.complete hopen
    have hσ : offered ev.id σ closed dest n .late = σ := by simp [offered]
    rw [if_pos hpend, hσ, hb3.ite_ctbs, ← hcl]
    refine ⟨m, ev.complete dest, ?_, hcl ▸ hb3, ⟨rfl, rfl, rfl, rfl⟩, rfl, rfl, fun _ => rfl⟩
    simp only [actionOf, hopen, Bool.false_eq_true, if_false]
    split <;> rfl

/-! ## Scanning a latency list -/

/-- Changes to the other lists do not concern the event. -/
theorem transfer (hb : Building live m ev σ P closed) {m' : Memory} {σ' : Head → List Nat}
    (hs : ListStore m'.links live σ') (hσ : ∀ e d, σ' (.contrib e d) = σ (.contrib e d))
    (hblnk : ∀ e d, m'.links.blnk (.inl (.contrib e d)) = m.links.blnk (.inl (.contrib e d))) :
    Building live m' ev σ' P closed := by
  refine ⟨hs, hb.mem, ?_, ?_, hb.ctbs, hb.nctbs⟩
  · intro d hd
    have ht := hb.tight d hd
    unfold Tight at ht ⊢
    rwa [hσ, hblnk]
  · intro d hd
    rw [hσ]
    exact hb.npkts d hd

theorem congr (hb : Building live m ev σ P closed) (m' : Memory) (hlinks : m'.links = m.links) :
    Building live m' ev σ P closed :=
  hb.transfer (hlinks ▸ hb.store) (fun _ _ => rfl) (fun _ _ => by rw [hlinks])

/-- Popping a packet off a latency list. -/
theorem popLatency (hb : Building live m ev σ P closed) {ictb : Dest}
    (hl : Head.latency ictb ∈ live) {x : Nat} {xs : List Nat}
    (hσ : σ (.latency ictb) = x :: xs) :
    Building live (m.removeHead (.latency ictb)).1 ev
        (Function.update σ (.latency ictb) xs) P closed ∧
      Tight (m.removeHead (.latency ictb)).1.links (.latency ictb) xs ∧
      (m.removeHead (.latency ictb)).2 = some (.inr x) := by
  obtain ⟨hs, ht, hret⟩ := hb.store.removeHead hl hσ
  exact ⟨hb.transfer hs (fun _ _ => Function.update_of_ne (by simp) _ _)
    (fun _ _ => Links.removeHead_blnk_of_ne (by simp)), ht, hret⟩

/-- Putting a packet back at the head of a latency list. -/
theorem putBack (hb : Building live m ev σ P closed) {ictb : Dest}
    (hl : Head.latency ictb ∈ live) (ht : Tight m.links (.latency ictb) (σ (.latency ictb)))
    {x : Nat} (hn : ∀ h ∈ live, x ∉ σ h) :
    Building live (m.insertHead (.latency ictb) (.inr x)) ev
      (Function.update σ (.latency ictb) (x :: σ (.latency ictb))) P closed :=
  hb.transfer (hb.store.insertHead hl ht hn) (fun _ _ => Function.update_of_ne (by simp) _ _)
    (fun _ _ => rfl)

/-- A popped packet is on no list any more. -/
theorem popped_notMem (hb : Building live m ev σ P closed) {ictb : Dest}
    (hl : Head.latency ictb ∈ live) {x : Nat} {xs : List Nat}
    (hσ : σ (.latency ictb) = x :: xs) :
    ∀ h ∈ live, x ∉ Function.update σ (.latency ictb) xs h := by
  intro h hh hx
  have hnd := hb.store.nodup hl
  rw [hσ] at hnd
  rcases eq_or_ne h (.latency ictb) with rfl | hne
  · rw [Function.update_self] at hx
    exact (List.nodup_cons.mp hnd).1 hx
  · rw [Function.update_of_ne hne] at hx
    exact hne (hb.store.disjoint h hh _ hl x hx (by simp [hσ]))

end Building

/-- The sequences after `sel` is moved to the event and `rest` stays on the
latency list. -/
def seeded (id : Nat) (ictb : Dest) (σ : Head → List Nat) (sel rest : List Nat) :
    Head → List Nat :=
  Function.update (Function.update σ (.contrib id ictb) (σ (.contrib id ictb) ++ sel))
    (.latency ictb) rest

/-- Scanning on after popping `x`, with `kept` moved to the event. -/
theorem seeded_update (id : Nat) (ictb : Dest) (σ : Head → List Nat)
    (kept sel rest xs : List Nat) :
    seeded id ictb (Function.update (Function.update σ (.latency ictb) xs) (.contrib id ictb)
      (σ (.contrib id ictb) ++ kept)) sel rest = seeded id ictb σ (kept ++ sel) rest := by
  funext h
  unfold seeded
  by_cases h1 : h = .latency ictb
  · subst h1; simp
  · by_cases h2 : h = .contrib id ictb
    · subst h2; simp
    · simp [h1, h2]

/-- The verdict of the window of the event on a buffer. -/
def packetVerdict (m : Memory) (ev : Event) (n : Nat) : Verdict :=
  verdict ev.limits (m.body n).tsRange

theorem Framed.packetVerdict {m m' : Memory} {ev ev' : Event} (h : Framed m m' ev ev') :
    packetVerdict m' ev' = packetVerdict m ev := by
  funext n
  rw [Daq.packetVerdict, Daq.packetVerdict, h.body, h.limits]

/-- What scanning the latency list `L` of contributor `ictb` comes to: `m'`,
`ev'` and `post` are the outcome. -/
structure Seeded (live : Set Head) (P : Set Dest) (m : Memory) (ev : Event)
    (σ : Head → List Nat) (closed : Dest → Bool) (ictb : Dest) (L : List Nat)
    (m' : Memory) (ev' : Event) (post : Bool) : Prop where
  building : Building live m' ev'
    (seeded ev.id ictb σ (selected (packetVerdict m ev) L) (leftover (packetVerdict m ev) L)) P
    (Function.update closed ictb (WindowSelect.closed (packetVerdict m ev) L))
  framed : Framed m m' ev ev'
  returned : m'.returned = m.returned ++ dropped (packetVerdict m ev) L
  remaining : m'.remaining ictb =
    if WindowSelect.closed (packetVerdict m ev) L = true then
      m.remaining ictb + (L.length - (leftover (packetVerdict m ev) L).length)
    else LatencyList.Depth
  remaining_of_ne : ∀ d, d ≠ ictb → m'.remaining d = m.remaining d
  post_eq : post = allClosed
    (Function.update closed ictb (WindowSelect.closed (packetVerdict m ev) L))
  blnk : ∀ d, d ≠ ictb →
    m'.links.blnk (.inl (.latency d)) = m.links.blnk (.inl (.latency d))
  tight : Tight m'.links (.latency ictb) (leftover (packetVerdict m ev) L) ∨
    ∃ c, leftover (packetVerdict m ev) L = [c] ∧ packetVerdict m ev c = .late

/-- Scanning on after a packet that does not close the contributor. -/
theorem Seeded.cons {live : Set Head} {P : Set Dest} {m m' : Memory} {ev ev' : Event}
    {σ : Head → List Nat} {closed : Dest → Bool} {ictb : Dest} {x : Nat} {xs : List Nat}
    {post : Bool} (m3 : Memory) (ev3 : Event) (hf : Framed m m3 ev ev3)
    (hopen : (packetVerdict m ev x).closes = false)
    (hret : m3.returned = m.returned ++ if packetVerdict m ev x = .early then [x] else [])
    (hrem : m3.remaining = Function.update m.remaining ictb (m.remaining ictb + 1))
    (hblnk : ∀ d, d ≠ ictb →
      m3.links.blnk (.inl (.latency d)) = m.links.blnk (.inl (.latency d)))
    (h : Seeded live P m3 ev3
      (Function.update (Function.update σ (.latency ictb) xs) (.contrib ev.id ictb)
        (σ (.contrib ev.id ictb) ++ if (packetVerdict m ev x).keeps then [x] else []))
      closed ictb xs m' ev' post) :
    Seeded live P m ev σ closed ictb (x :: xs) m' ev' post := by
  have hb := h.building
  have hclosed := closed_cons (v := packetVerdict m ev) x xs
  have hsel := selected_cons (v := packetVerdict m ev) x xs
  have hdrop := dropped_cons (v := packetVerdict m ev) x xs
  have hleft : leftover (packetVerdict m ev) (x :: xs) = leftover (packetVerdict m ev) xs := by
    rw [leftover]
    cases hv : packetVerdict m ev x <;> simp_all
  rw [hopen, Bool.false_or] at hclosed
  simp only [hopen, Bool.false_eq_true, if_false] at hsel hdrop
  rw [hf.packetVerdict, hf.id, seeded_update, ← hsel, ← hleft, ← hclosed] at hb
  refine ⟨hb, hf.trans h.framed, ?_, ?_, ?_, ?_, ?_, ?_⟩
  · rw [h.returned, hret, hf.packetVerdict, hdrop, List.append_assoc]
  · rw [h.remaining, hf.packetVerdict, hclosed, hleft, hrem, Function.update_self,
      List.length_cons]
    push_cast
    split <;> ring
  · intro d hne
    rw [h.remaining_of_ne d hne, hrem, Function.update_of_ne hne]
  · rw [h.post_eq, hf.packetVerdict, hclosed]
  · intro d hne
    rw [h.blnk d hne, hblnk d hne]
  · have ht := h.tight
    rw [hf.packetVerdict, ← hleft] at ht
    exact ht

/-- One pass of the scan: `x` is popped off the latency list (`m1`) and offered
to the event (`m2`, `ev2`). -/
structure Scanned (live : Set Head) (P : Set Dest) (m : Memory) (ev : Event)
    (σ : Head → List Nat) (closed : Dest → Bool) (ictb : Dest) (x : Nat) (xs : List Nat)
    (m2 : Memory) (ev2 : Event) : Prop where
  building : Building live m2 ev2
    (offered ev.id (Function.update σ (.latency ictb) xs) closed ictb x (packetVerdict m ev x)) P
    (closedAfter closed ictb (packetVerdict m ev x))
  framed : Framed m m2 ev ev2
  remaining : m2.remaining = m.remaining
  returned : m2.returned = m.returned
  blnk : ∀ d, d ≠ ictb →
    m2.links.blnk (.inl (.latency d)) = m.links.blnk (.inl (.latency d))
  tight : Tight m2.links (.latency ictb) xs
  fresh : ∀ h ∈ live, x ∉ Function.update σ (.latency ictb) xs h

/-- The pass runs, and answers `actionOf` of the packet's verdict. -/
theorem Building.scan {live : Set Head} {P : Set Dest} {m : Memory} {ev : Event}
    {σ : Head → List Nat} {closed : Dest → Bool} {ictb : Dest} {x : Nat} {xs : List Nat}
    {fuel : Nat} (hb : Building live m ev σ P closed) (hd : ictb ∈ P)
    (hl : Head.latency ictb ∈ live) (hσ : σ (.latency ictb) = x :: xs)
    (hfuel : (σ (.contrib ev.id ictb)).length < fuel) :
    ∃ m1 m2 ev2, m.removeHead (.latency ictb) = (m1, some (.inr x)) ∧
      ev.evaluate fuel m1 (.inr x) ictb =
        .ok (m2, ev2, actionOf closed ictb (packetVerdict m ev x)) ∧
      Scanned live P m ev σ closed ictb x xs m2 ev2 := by
  obtain ⟨hb1, ht1, hret⟩ := hb.popLatency hl hσ
  have hrm : m.removeHead (.latency ictb) =
      ((m.removeHead (.latency ictb)).1, some (.inr x)) := Prod.ext rfl hret
  obtain ⟨m1, hm1⟩ : ∃ m1, (m.removeHead (.latency ictb)).1 = m1 := ⟨_, rfl⟩
  have hf1 : Framed m m1 ev ev := hm1 ▸ ⟨rfl, rfl, rfl, rfl⟩
  have hret1 : m1.returned = m.returned := hm1 ▸ rfl
  have hrem1 : m1.remaining = m.remaining := hm1 ▸ rfl
  have hblnk1 : ∀ d, d ≠ ictb →
      m1.links.blnk (.inl (.latency d)) = m.links.blnk (.inl (.latency d)) := by
    intro d hne
    rw [← hm1]
    exact Links.removeHead_blnk_of_ne (by simp [hne])
  rw [hm1] at hb1 ht1 hrm
  have hfresh := hb.popped_notMem hl hσ
  have hroom : (Function.update σ (.latency ictb) xs (.contrib ev.id ictb)).length < fuel := by
    rwa [Function.update_of_ne (by simp)]
  obtain ⟨m2, ev2, heval, hb2, hf2, hrem2, hret2, hblnk2⟩ :=
    hb1.evaluate hd hfresh hroom (congrFun hf1.packetVerdict x)
  refine ⟨m1, m2, ev2, hrm, heval, hb2, hf1.trans hf2, hrem2.trans hrem1, hret2.trans hret1, ?_,
    (hblnk2 ictb).trans ht1, hfresh⟩
  intro d hne
  exact (hblnk2 d).trans (hblnk1 d hne)

namespace Scanned

variable {live : Set Head} {P : Set Dest} {m m' m2 : Memory} {ev ev' ev2 : Event}
  {σ : Head → List Nat} {closed : Dest → Bool} {ictb : Dest} {x : Nat} {xs : List Nat}
  {post : Bool}

/-- Where the contributor stays open: the state after the pass. -/
theorem goOn (h : Scanned live P m ev σ closed ictb x xs m2 ev2) (hopen : closed ictb = false)
    (hv : (packetVerdict m ev x).closes = false) :
    Building live m2 ev2
      (Function.update (Function.update σ (.latency ictb) xs) (.contrib ev.id ictb)
        (σ (.contrib ev.id ictb) ++ if (packetVerdict m ev x).keeps then [x] else []))
      P closed := by
  have hb := h.building
  have hcl : closedAfter closed ictb (packetVerdict m ev x) = closed := by
    rw [closedAfter, hv, Bool.or_false, Function.update_eq_self]
  have hcontrib : Function.update σ (.latency ictb) xs (.contrib ev.id ictb) =
      σ (.contrib ev.id ictb) := Function.update_of_ne (by simp) _ _
  rw [hcl, offered, hcontrib] at hb
  cases hk : (packetVerdict m ev x).keeps with
  | true =>
      rw [if_pos ⟨hopen, hk⟩] at hb
      exact hb
  | false =>
      rw [if_neg (by simp [hk])] at hb
      rwa [if_neg (by simp), List.append_nil, ← hcontrib, Function.update_eq_self]

/-- A packet before the window is freed. -/
theorem early (h : Scanned live P m ev σ closed ictb x xs m2 ev2)
    (hv : packetVerdict m ev x = .early)
    (hrest : Seeded live P ((m2.dmaRetIndex (.inr x)).addRemaining ictb 1) ev2
      (Function.update (Function.update σ (.latency ictb) xs) (.contrib ev.id ictb)
        (σ (.contrib ev.id ictb) ++ if (packetVerdict m ev x).keeps then [x] else []))
      closed ictb xs m' ev' post) :
    Seeded live P m ev σ closed ictb (x :: xs) m' ev' post := by
  refine Seeded.cons ((m2.dmaRetIndex (.inr x)).addRemaining ictb 1) ev2
    ⟨h.framed.body, h.framed.id, h.framed.limits, h.framed.trgTime⟩ (by rw [hv]; rfl)
    ?_ ?_ h.blnk hrest
  · simp [Memory.addRemaining, Memory.dmaRetIndex, hv, h.returned]
  · simp [Memory.addRemaining, Memory.dmaRetIndex, h.remaining]

/-- A packet inside the window goes to the event. -/
theorem inside (h : Scanned live P m ev σ closed ictb x xs m2 ev2)
    (hv : packetVerdict m ev x = .inside)
    (hrest : Seeded live P (m2.addRemaining ictb 1) ev2
      (Function.update (Function.update σ (.latency ictb) xs) (.contrib ev.id ictb)
        (σ (.contrib ev.id ictb) ++ if (packetVerdict m ev x).keeps then [x] else []))
      closed ictb xs m' ev' post) :
    Seeded live P m ev σ closed ictb (x :: xs) m' ev' post := by
  refine Seeded.cons (m2.addRemaining ictb 1) ev2
    ⟨h.framed.body, h.framed.id, h.framed.limits, h.framed.trgTime⟩ (by rw [hv]; rfl)
    ?_ ?_ h.blnk hrest
  · simp [Memory.addRemaining, hv, h.returned]
  · simp [Memory.addRemaining, h.remaining]

/-- The packet that reaches the end of the window goes to the event and ends
the scan. -/
theorem last (h : Scanned live P m ev σ closed ictb x xs m2 ev2) (hopen : closed ictb = false)
    (hv : packetVerdict m ev x = .last) :
    Seeded live P m ev σ closed ictb (x :: xs) (m2.addRemaining ictb 1) ev2
      (allClosed (Function.update closed ictb true)) := by
  have hb := h.building
  have hcl : closedAfter closed ictb .last = Function.update closed ictb true := by
    simp [closedAfter]
  have hoff : offered ev.id (Function.update σ (.latency ictb) xs) closed ictb x .last =
      seeded ev.id ictb σ [x] xs := by
    rw [offered, if_pos (by simp [hopen]), seeded, Function.update_comm (by simp),
      Function.update_of_ne (by simp)]
  rw [hv, hcl, hoff] at hb
  refine ⟨?_, ⟨h.framed.body, h.framed.id, h.framed.limits, h.framed.trgTime⟩, ?_, ?_, ?_, ?_,
    h.blnk, ?_⟩
  · have hb3 := hb.congr (m2.addRemaining ictb 1) rfl
    simpa [selected_cons, closed_cons, leftover, hv] using hb3
  · simp [Memory.addRemaining, dropped_cons, hv, h.returned]
  · simp [Memory.addRemaining, closed_cons, leftover, hv, h.remaining]
  · intro d hne
    simp [Memory.addRemaining, hne, h.remaining]
  · simp [closed_cons, hv]
  · left
    rw [leftover, hv]
    exact h.tight

/-- A packet after the window goes back to the latency list and ends the
scan. -/
theorem late (h : Scanned live P m ev σ closed ictb x xs m2 ev2)
    (hl : Head.latency ictb ∈ live) (hv : packetVerdict m ev x = .late) :
    Seeded live P m ev σ closed ictb (x :: xs) (m2.insertHead (.latency ictb) (.inr x)) ev2
      (allClosed (Function.update closed ictb true)) := by
  have hb := h.building
  have hcl : closedAfter closed ictb .late = Function.update closed ictb true := by
    simp [closedAfter]
  have hoff : offered ev.id (Function.update σ (.latency ictb) xs) closed ictb x .late =
      Function.update σ (.latency ictb) xs := by
    simp [offered]
  have ht : Tight m2.links (.latency ictb)
      (Function.update σ (.latency ictb) xs (.latency ictb)) := by
    rw [Function.update_self]
    exact h.tight
  rw [hv, hcl, hoff] at hb
  have hb3 := hb.putBack hl ht h.fresh
  rw [Function.update_self, Function.update_idem] at hb3
  have hleft : leftover (packetVerdict m ev) (x :: xs) = x :: xs := by
    rw [leftover, hv]
  refine ⟨?_, ⟨h.framed.body, h.framed.id, h.framed.limits, h.framed.trgTime⟩, ?_, ?_, ?_, ?_,
    h.blnk, ?_⟩
  · simpa [selected_cons, closed_cons, hleft, hv, seeded] using hb3
  · simp [Memory.insertHead, dropped_cons, hv, h.returned]
  · simp [Memory.insertHead, closed_cons, hleft, hv, h.remaining]
  · intro d _
    simp [Memory.insertHead, h.remaining]
  · simp [closed_cons, hv]
  · rw [hleft]
    cases xs with
    | nil => exact .inr ⟨x, rfl, hv⟩
    | cons y ys =>
        -- with two packets or more the tail link of the list is its own again
        left
        have ht3 := hb3.store.tight_of_length_ne_one hl (by simp)
        rwa [Function.update_self] at ht3

end Scanned

/-- The scan of an empty latency list. -/
theorem Building.seedContributor_nil {live : Set Head} {P : Set Dest} {ictb : Dest} (fuel k : Nat)
    (hl : Head.latency ictb ∈ live) {m : Memory} {ev : Event} {σ : Head → List Nat}
    {closed : Dest → Bool} (hb : Building live m ev σ P closed) (hopen : closed ictb = false)
    (hσ : σ (.latency ictb) = []) :
    Event.seedContributor fuel ictb (k + 1) m ev =
        .ok (LatencyList.resetToEmpty m ictb, ev, false) ∧
      Seeded live P m ev σ closed ictb [] (LatencyList.resetToEmpty m ictb) ev false := by
  have hrm : m.removeHead (.latency ictb) = (m, none) := by
    simp [Memory.removeHead, hb.store.removeHead_nil hl hσ]
  have hseed : seeded ev.id ictb σ [] [] = σ := by
    funext h
    unfold seeded
    rw [List.append_nil, Function.update_eq_self, ← hσ, Function.update_eq_self]
  have hcl : Function.update closed ictb false = closed := by
    rw [← hopen, Function.update_eq_self]
  have hall : allClosed closed = false := by
    rcases dest_cases ictb with rfl | rfl <;> simp [allClosed, hopen]
  have htight : Tight m.links (.latency ictb) [] := by
    have ht := hb.store.tight_of_length_ne_one hl (by simp [hσ])
    rwa [hσ] at ht
  constructor
  · rw [Event.seedContributor, hrm]
  constructor
  · simp only [selected_nil, leftover, closed_nil, hseed, hcl]
    exact hb.congr _ rfl
  · exact ⟨rfl, rfl, rfl, rfl⟩
  · simp [LatencyList.resetToEmpty]
  · simp [LatencyList.resetToEmpty]
  · intro d hne
    simp [LatencyList.resetToEmpty, hne]
  · rw [closed_nil, hcl, hall]
  · intro d _
    rfl
  · exact .inl htight

/-- **One latency list.** The scan of a latency list returns, moves the
selected packets to the event, frees the dropped ones and leaves the rest. -/
theorem Building.seedContributor {live : Set Head} {P : Set Dest} {ictb : Dest} (fuel : Nat)
    (hd : ictb ∈ P) (hl : Head.latency ictb ∈ live) (L : List Nat) :
    ∀ (m : Memory) {ev : Event} {σ : Head → List Nat} {closed : Dest → Bool} {k : Nat},
    Building live m ev σ P closed → closed ictb = false → σ (.latency ictb) = L →
    L.length < k → (σ (.contrib ev.id ictb)).length + L.length < fuel →
    ∃ m' ev' post, Event.seedContributor fuel ictb k m ev = .ok (m', ev', post) ∧
      Seeded live P m ev σ closed ictb L m' ev' post := by
  induction L with
  | nil =>
      intro m ev σ closed k hb hopen hσ hk _
      obtain ⟨k, rfl⟩ := Nat.exists_eq_succ_of_ne_zero (Nat.ne_of_gt hk)
      exact ⟨_, _, _, hb.seedContributor_nil fuel k hl hopen hσ⟩
  | cons x xs ih =>
      intro m ev σ closed k hb hopen hσ hk hfuel
      obtain ⟨k, rfl⟩ := Nat.exists_eq_succ_of_ne_zero (Nat.ne_of_gt (Nat.zero_lt_of_lt hk))
      have hk' : xs.length < k := Nat.lt_of_succ_lt_succ hk
      rw [List.length_cons] at hfuel
      obtain ⟨m1, m2, ev2, hrm, heval, hs⟩ := hb.scan hd hl hσ (show _ < fuel by omega)
      rw [Event.seedContributor, hrm]
      simp only [heval, bind, Except.bind]
      cases hv : packetVerdict m ev x with
      | early =>
          have hgo := hs.goOn hopen (by rw [hv]; rfl)
          have hact : actionOf closed ictb .early = ACTION_M_FREE := by simp [actionOf, hopen]
          obtain ⟨m', ev', post, hrun, hseed⟩ :=
            ih ((m2.dmaRetIndex (.inr x)).addRemaining ictb 1) (hgo.congr _ rfl) hopen
              (by simp) hk' (by rw [hs.framed.id]; simp [hv]; omega)
          refine ⟨m', ev', post, ?_, hs.early hv hseed⟩
          rw [hact, if_pos (by decide)]
          exact hrun
      | inside =>
          have hgo := hs.goOn hopen (by rw [hv]; rfl)
          have hact : actionOf closed ictb .inside = ACTION_M_NONE := by simp [actionOf, hopen]
          have hpend : ¬ ev2.ctbs &&& ctbMask ictb = 0 := by
            rw [hgo.ctbs_and, hopen]
            simp
          obtain ⟨m', ev', post, hrun, hseed⟩ :=
            ih (m2.addRemaining ictb 1) (hgo.congr _ rfl) hopen (by simp) hk'
              (by rw [hs.framed.id]; simp [hv]; omega)
          refine ⟨m', ev', post, ?_, hs.inside hv hseed⟩
          rw [hact, if_neg (by decide), if_neg (by decide), if_neg (by decide), if_neg hpend]
          exact hrun
      | last =>
          have hcl : closedAfter closed ictb .last = Function.update closed ictb true := by
            simp [closedAfter]
          have hdone : ev2.ctbs &&& ctbMask ictb = 0 := by
            rw [hs.building.ctbs_and, hv, hcl, Function.update_self]
          refine ⟨m2.addRemaining ictb 1, ev2, _, ?_, hs.last hopen hv⟩
          simp only [actionOf, hopen, Bool.false_eq_true, if_false, hcl]
          cases allClosed (Function.update closed ictb true) <;> simp [hdone]
      | late =>
          have hcl : closedAfter closed ictb .late = Function.update closed ictb true := by
            simp [closedAfter]
          refine ⟨m2.insertHead (.latency ictb) (.inr x), ev2, _, ?_, hs.late hl hv⟩
          simp only [actionOf, hopen, Bool.false_eq_true, if_false, hcl]
          cases allClosed (Function.update closed ictb true) <;> rfl

/-! ## Both latency lists -/

/-- The heads of the event `id` join the live heads. -/
def withContribs (live : Set Head) (id : Nat) : Set Head :=
  insert (.contrib id 1) (insert (.contrib id 0) live)

/-- The sequences after both scans with the verdicts `v`. -/
def drained (id : Nat) (σ : Head → List Nat) (v : Nat → Verdict) : Head → List Nat
  | .latency d => leftover v (σ (.latency d))
  | .contrib e d => if e = id then selected v (σ (.latency d)) else σ (.contrib e d)

/-- The lists after both scans: the latency lists, the new event's, and the
others. -/
theorem drained_cases {live : Set Head} {id : Nat} {h : Head} (hh : h ∈ withContribs live id)
    (σ : Head → List Nat) (v : Nat → Verdict) :
    (∃ d, h = .latency d ∧ drained id σ v h = leftover v (σ (.latency d))) ∨
    (∃ d, h = .contrib id d ∧ drained id σ v h = selected v (σ (.latency d))) ∨
    (h ∈ live ∧ (∀ d, h ≠ .latency d) ∧ drained id σ v h = σ h) := by
  cases h with
  | latency d => exact .inl ⟨d, rfl, rfl⟩
  | contrib e d =>
      right
      by_cases he : e = id
      · subst he
        exact .inl ⟨d, rfl, if_pos rfl⟩
      · exact .inr ⟨by simpa [withContribs, he] using hh, by simp, if_neg he⟩

/-- What `seedAndDrain` comes to, for an event `ev` with its window set. -/
structure Drained (live : Set Head) (m : Memory) (ev : Event) (σ : Head → List Nat)
    (m' : Memory) (ev' : Event) : Prop where
  building : Building (withContribs live ev.id) m' ev' (drained ev.id σ (packetVerdict m ev))
    Set.univ (fun d => closed (packetVerdict m ev) (σ (.latency d)))
  framed : Framed m m' ev ev'
  returned : m'.returned = m.returned ++ dropped (packetVerdict m ev) (σ (.latency 0)) ++
    dropped (packetVerdict m ev) (σ (.latency 1))
  remaining : ∀ d, m'.remaining d =
    if closed (packetVerdict m ev) (σ (.latency d)) = true then
      m.remaining d + ((σ (.latency d)).length -
        (leftover (packetVerdict m ev) (σ (.latency d))).length)
    else LatencyList.Depth
  tight : ∀ d, Tight m'.links (.latency d) (leftover (packetVerdict m ev) (σ (.latency d))) ∨
    ∃ c, leftover (packetVerdict m ev) (σ (.latency d)) = [c] ∧ packetVerdict m ev c = .late

/-- `prepare` gives the event an empty list for one contributor. -/
theorem Building.prepare {live : Set Head} {m : Memory} {ev : Event} {σ : Head → List Nat}
    {P : Set Dest} {closed : Dest → Bool} (hb : Building live m ev σ P closed) (dest : Dest) :
    Building (insert (.contrib ev.id dest) live) (ev.prepare m dest).1 (ev.prepare m dest).2
        (Function.update σ (.contrib ev.id dest) []) (insert dest P) closed ∧
      Framed m (ev.prepare m dest).1 ev (ev.prepare m dest).2 := by
  have hstore := hb.store.init (.contrib ev.id dest)
  refine ⟨⟨hstore, ?_, ?_, ?_, hb.ctbs, hb.nctbs⟩, ⟨rfl, rfl, rfl, rfl⟩⟩
  · rintro d (rfl | hd)
    · exact Set.mem_insert _ _
    · exact Set.mem_insert_of_mem _ (hb.mem d hd)
  · intro d hd
    rcases eq_or_ne d dest with rfl | hne
    · exact hstore.tight_of_length_ne_one (Set.mem_insert _ _) (by simp [Event.prepare])
    · have ht := hb.tight d (hd.resolve_left hne)
      have hhead : Head.contrib ev.id d ≠ Head.contrib ev.id dest := by simp [hne]
      unfold Event.prepare
      rw [Function.update_of_ne hhead]
      unfold Tight at ht ⊢
      rw [← ht]
      exact Links.init_blnk_of_ne (by simp [hne])
  · intro d hd
    unfold Event.prepare
    rcases eq_or_ne d dest with rfl | hne
    · simp
    · have hhead : Head.contrib ev.id d ≠ Head.contrib ev.id dest := by simp [hne]
      simp only [Function.update_of_ne hne, Function.update_of_ne hhead]
      exact hb.npkts d (hd.resolve_left hne)

/-- One pass of the loop of `seedAndDrain`: prepare, then scan. -/
theorem Building.prepareSeed {live : Set Head} {m : Memory} {ev : Event} {σ : Head → List Nat}
    {P : Set Dest} {closed : Dest → Bool} (hb : Building live m ev σ P closed) (fuel : Nat)
    (ictb : Dest) (hopen : closed ictb = false) (hl : Head.latency ictb ∈ live)
    (hfuel : (σ (.latency ictb)).length < fuel) :
    ∃ m' ev' post, Event.seedContributor fuel ictb fuel (ev.prepare m ictb).1
        (ev.prepare m ictb).2 = .ok (m', ev', post) ∧
      Seeded (insert (.contrib ev.id ictb) live) (insert ictb P) m ev
        (Function.update σ (.contrib ev.id ictb) []) closed ictb (σ (.latency ictb))
        m' ev' post := by
  obtain ⟨hb1, hf1⟩ := hb.prepare ictb
  obtain ⟨m', ev', post, hrun, hseed⟩ := hb1.seedContributor fuel
    (Set.mem_insert _ _) (Set.mem_insert_of_mem _ hl) (σ (.latency ictb)) _ hopen (by simp) hfuel
    (by simpa [Event.prepare] using hfuel)
  have hv := hf1.packetVerdict
  have hblnk : ∀ d, (ev.prepare m ictb).1.links.blnk (.inl (.latency d)) =
      m.links.blnk (.inl (.latency d)) := fun d => Links.init_blnk_of_ne (by simp)
  refine ⟨m', ev', post, hrun, ?_⟩
  obtain ⟨hb2, hf2, hret, hrem, hremne, hpost, hb, ht⟩ := hseed
  rw [hv] at hb2 hret hrem hpost ht
  exact ⟨hb2, hf1.trans hf2, hret, hrem, hremne, hpost,
    fun d hne => (hb d hne).trans (hblnk d), ht⟩

/-- **Seed and drain.** With all contributors enabled `seedAndDrain` returns,
scans both latency lists, and asks for the event to be posted when both scans
closed their contributor. -/
theorem seedAndDrain_spec {live : Set Head} {m : Memory} {σ : Head → List Nat} (ev : Event)
    (fuel : Nat) (hs : ListStore m.links live σ) (hl : ∀ d, Head.latency d ∈ live)
    (hfuel : ∀ d, (σ (.latency d)).length < fuel) :
    ∃ m' ev', ev.seedAndDrain fuel m 3 = .ok (m', ev',
        if allClosed fun d => closed (packetVerdict m ev) (σ (.latency d)) then ACTION_M_POST
        else ACTION_M_NONE) ∧
      Drained live m ev σ m' ev' := by
  have hb0 : Building live m { ev with ctbs := 3, nctbs := 0 } σ ∅ (fun _ => false) :=
    ⟨hs, by simp, by simp, by simp, rfl, rfl⟩
  -- the first contributor: it cannot complete the event
  obtain ⟨m1, ev1, post1, hrun1, h1⟩ := hb0.prepareSeed fuel 0 rfl (hl 0) (hfuel 0)
  have hpost1 : post1 = false := by
    rw [h1.post_eq]
    simp [allClosed]
  have hf1 : Framed m m1 ev ev1 :=
    ⟨h1.framed.body, h1.framed.id, h1.framed.limits, h1.framed.trgTime⟩
  have hv0 : packetVerdict m { ev with ctbs := 3, nctbs := 0 } = packetVerdict m ev := rfl
  -- the second contributor finds its own list as it was
  obtain ⟨m2, ev2, post2, hrun2, h2⟩ := h1.building.prepareSeed fuel 1 (by simp)
    (Set.mem_insert_of_mem _ (hl 1)) (by simpa [seeded] using hfuel 1)
  have hL1 : seeded ev.id 0 (Function.update σ (.contrib ev.id 0) [])
      (selected (packetVerdict m ev) (σ (.latency 0)))
      (leftover (packetVerdict m ev) (σ (.latency 0))) (.latency 1) = σ (.latency 1) := by
    simp [seeded]
  have hclosed : Function.update (Function.update (fun _ : Dest => false) 0
      (closed (packetVerdict m ev) (σ (.latency 0)))) 1
      (closed (packetVerdict m ev) (σ (.latency 1))) =
      fun d => closed (packetVerdict m ev) (σ (.latency d)) := by
    funext d
    rcases dest_cases d with rfl | rfl <;> simp
  have hσ : seeded ev.id 1 (Function.update (seeded ev.id 0
      (Function.update σ (.contrib ev.id 0) []) (selected (packetVerdict m ev) (σ (.latency 0)))
      (leftover (packetVerdict m ev) (σ (.latency 0)))) (.contrib ev.id 1) [])
      (selected (packetVerdict m ev) (σ (.latency 1)))
      (leftover (packetVerdict m ev) (σ (.latency 1))) =
      drained ev.id σ (packetVerdict m ev) := by
    funext h
    cases h with
    | latency d => rcases dest_cases d with rfl | rfl <;> simp [seeded, drained]
    | contrib e d =>
        by_cases he : e = ev.id
        · subst he
          rcases dest_cases d with rfl | rfl <;> simp [seeded, drained]
        · simp [seeded, drained, he]
  have hP : insert (1 : Dest) (insert 0 ∅) = Set.univ := by
    ext d
    rcases dest_cases d with rfl | rfl <;> simp
  have hv1 := hf1.packetVerdict
  obtain ⟨hb2, hf2, hret2, hrem2, hremne2, hpost2, hblnk2, ht2⟩ := h2
  simp only [hv0, hL1, hv1, hf1.id, hclosed, hσ, hP] at hb2 hret2 hrem2 hpost2 ht2
  obtain ⟨-, -, hret1, hrem1, hremne1, -, -, ht1⟩ := h1
  simp only [hv0] at hret1 hrem1 ht1
  refine ⟨m2, ev2, ?_, hb2, hf1.trans hf2, ?_, ?_, ?_⟩
  · simp only [Event.seedAndDrain, Event.seedLoop, hrun1, hrun2, hpost1, hpost2, bind,
      Except.bind, Bool.false_eq_true, if_false]
    split <;> rfl
  · rw [hret2, hret1]
  · intro d
    rcases dest_cases d with rfl | rfl
    · rw [hremne2 0 (by decide), hrem1]
    · rw [hrem2, hremne1 1 (by decide)]
  · intro d
    rcases dest_cases d with rfl | rfl
    · have hb := hblnk2 0 (by decide)
      unfold Tight at ht1 ⊢
      rwa [hb]
    · exact ht2

end ProtoDune.Daq
