import Mathlib.Data.List.Perm.Subperm
import ProtoDune.Daq.EventBuild
import ProtoDune.Daq.Holders
import ProtoDune.Daq.ListEffect

/-!
# The ownership of buffers and events

What holds in every run of the two threads in which the receive thread stores
into no field that the transmit thread has yet to read after giving its buffer
or event back.

Main results:

* `ThreadInv.step` — a step keeps the invariant.
* `free_exact` — `Event::free` returns the buffers of its event, each once, and
  the statistics are those of the event that was sent.
* `free_follows_reused_link` — otherwise it may walk onto another list.
-/

namespace ProtoDune.Daq

open Access LinkChain

/-! ## What is claimed -/

/-- The call of `free` that the transmit thread is in. -/
def TxPc.freeing : TxPc → Option Job
  | .first job _ => some job
  | .test job _ _ _ => some job
  | .next job _ _ _ => some job
  | .prepare job _ _ => some job
  | _ => none

/-- Each loop of `free` has ended at the head of its list, each call has returned the buffers of its
event, in order and once, the call at hand has returned the first of them, and each sequence number
used is that of the event sent. The program has not left in `free`. -/
structure Threads.Exact (s : Threads) : Prop where
  walks : ∀ w ∈ s.history.walks, w.2 = .inl w.1
  frees : ∀ f ∈ s.history.frees, f.2 = f.1 ∧ f.1.Nodup
  updates : ∀ u ∈ s.history.updates, u.2 = u.1
  call : ∀ job, s.tx.pc.freeing = some job →
    s.tx.returned <+: job.bufs 0 ++ job.bufs 1 ∧ (job.bufs 0 ++ job.bufs 1).Nodup
  runs : s.tx.pc ≠ .exited

/-- The link field that the next access of the receive thread stores into. -/
def RxThread.storing (rx : RxThread) : Option LinkCell :=
  match rx.busy with
  | some (_, .store c _ _) => some c
  | _ => none

/-- The step stores neither into the `m_flnk` of a buffer that the transmit thread has returned and
is about to leave, nor into the `m_sequence` of an event that it has given back and is about to
record, and it does not come to a buffer whose index is above 900. -/
def Undisturbed (s : Threads) (a : ThreadStep) : Prop :=
  match s.tx.pc, a with
  | .next _ _ node _, .rx .access => s.rx.storing ≠ some (.flnk node)
  | .record job, .rx (.trigger _) => s.rx.event ≠ some job.event
  | .test _ _ (.inr index) _, .tx _ => index ≤ 900
  | _, _ => True

instance (s : Threads) (a : ThreadStep) : Decidable (Undisturbed s a) := by
  unfold Undisturbed
  split <;> infer_instance

/-! ## The invariant -/

/-- A list that the receive thread has, and may use. -/
def RxThread.ready (rx : RxThread) : Head → Prop
  | .latency _ => True
  | .contrib event dest => rx.event = some event ∧ rx.prepared dest = true

/-- A list of an event in `_txReqQueue`. -/
def queued (qs : List Nat) : Head → Prop
  | .latency _ => False
  | .contrib event _ => event ∈ qs

/-- A list of the event to be sent that `free` has not come to. -/
def TxPc.keeps : TxPc → Head → Prop
  | .send job, .contrib event _ => event = job.event
  | .first job idx, .contrib event dest => event = job.event ∧ idx ≤ dest
  | .test job idx _ _, .contrib event dest => event = job.event ∧ idx < dest
  | .next job idx _ _, .contrib event dest => event = job.event ∧ idx < dest
  | .prepare job idx _, .contrib event dest => event = job.event ∧ idx < dest
  | _, _ => False

/-- The event that the transmit thread has. -/
def TxPc.event : TxPc → Option Nat
  | .send job => some job.event
  | .first job _ => some job.event
  | .test job _ _ _ => some job.event
  | .next job _ _ _ => some job.event
  | .prepare job _ _ => some job.event
  | .deallocate job => some job.event
  | _ => none

def Threads.live (s : Threads) (qs : List Nat) (h : Head) : Prop :=
  s.rx.ready h ∨ queued qs h ∨ s.tx.pc.keeps h

/-- The memory when the list operation at hand has ended. -/
def Threads.settled (s : Threads) : LinkCell → Addr :=
  match s.rx.busy with
  | some (_, p) => (p.run s.links).2
  | none => s.links

/-- The node that the list operation at hand will give. -/
def Threads.coming (s : Threads) : List Addr :=
  match s.rx.busy with
  | some (op, p) => op.taken (p.run s.links).1
  | none => []

/-- What the receive thread holds. -/
def RxThread.holds (rx : RxThread) : Holder → Prop
  | .hand => True
  | .nowhere => True
  | .list h => rx.owns h = true
  | .driver => False
  | .walk => False

/-- The link fields that the receive thread may access. -/
def RxThread.cells (rx : RxThread) (own : Nat → Holder) : Set LinkCell :=
  { c | match c with
    | .flnk (.inl h) => rx.owns h = true
    | .blnk (.inl h) => rx.owns h = true
    | .flnk (.inr i) => rx.holds (own i)
    | .blnk (.inr _) => False }

/-- The links from `node` visit the buffers and arrive at the head `h`. -/
def Ahead (m : LinkCell → Addr) (h : Head) (node : Addr) : List Nat → Prop
  | [] => node = .inl h
  | x :: xs => node = .inr x ∧ Chain (fun p => m (.flnk p)) (.inr x) (cells xs) (.inl h)

/-- The buffers that `free` has returned when it comes to a list. -/
def Job.before (job : Job) (idx : Dest) : List Nat := if idx = 0 then [] else job.bufs 0

structure Job.Ok (sequence : Nat → BitVec 32) (job : Job) : Prop where
  nodup : (job.bufs 0 ++ job.bufs 1).Nodup
  sequence : sequence job.event = job.sequence

/-- The transmit thread at each place. -/
inductive TxInv (links : LinkCell → Addr) (sequence : Nat → BitVec 32) (own : Nat → Holder)
    (σ : Head → List Nat) (returned : List Nat) : TxPc → Prop
  | pop (hwalk : ∀ i, own i ≠ .walk) : TxInv links sequence own σ returned .pop
  | send {job} (hwalk : ∀ i, own i ≠ .walk) (hjob : job.Ok sequence)
      (hkept : ∀ d, σ (.contrib job.event d) = job.bufs d) :
      TxInv links sequence own σ returned (.send job)
  | first {job idx} (hwalk : ∀ i, own i ≠ .walk) (hjob : job.Ok sequence)
      (hkept : ∀ d, idx ≤ d → σ (.contrib job.event d) = job.bufs d)
      (hret : returned = job.before idx) : TxInv links sequence own σ returned (.first job idx)
  | test {job idx node count visited rest} (hwalk : ∀ i, own i = .walk ↔ i ∈ rest)
      (hjob : job.Ok sequence) (hkept : ∀ d, idx < d → σ (.contrib job.event d) = job.bufs d)
      (hbufs : job.bufs idx = visited ++ rest) (hret : returned = job.before idx ++ visited)
      (hchain : Ahead links (.contrib job.event idx) node rest)
      (hcount : count ≤ (visited.filter (· < 8)).length) :
      TxInv links sequence own σ returned (.test job idx node count)
  | next {job idx x count visited rest} (hwalk : ∀ i, own i = .walk ↔ i ∈ rest)
      (hjob : job.Ok sequence) (hkept : ∀ d, idx < d → σ (.contrib job.event d) = job.bufs d)
      (hbufs : job.bufs idx = visited ++ x :: rest)
      (hret : returned = job.before idx ++ (visited ++ [x]))
      (hchain : Chain (fun p => links (.flnk p)) (.inr x) (cells rest)
        (.inl (.contrib job.event idx)))
      (hcount : count ≤ ((visited ++ [x]).filter (· < 8)).length) :
      TxInv links sequence own σ returned (.next job idx (.inr x) count)
  | prepare {job idx rest} (hwalk : ∀ i, own i ≠ .walk) (hjob : job.Ok sequence)
      (hkept : ∀ d, idx < d → σ (.contrib job.event d) = job.bufs d)
      (hret : returned = job.before idx ++ job.bufs idx)
      (hrest : rest.Confined {.flnk (.inl (.contrib job.event idx)),
        .blnk (.inl (.contrib job.event idx))}) :
      TxInv links sequence own σ returned (.prepare job idx rest)
  | deallocate {job} (hwalk : ∀ i, own i ≠ .walk) (hjob : job.Ok sequence) :
      TxInv links sequence own σ returned (.deallocate job)
  | record {job} (hwalk : ∀ i, own i ≠ .walk) (hjob : job.Ok sequence) :
      TxInv links sequence own σ returned (.record job)

/-- What was recorded is as it should be. -/
structure History.Exact (hist : History) : Prop where
  walks : ∀ w ∈ hist.walks, w.2 = .inl w.1
  frees : ∀ f ∈ hist.frees, f.2 = f.1 ∧ f.1.Nodup
  updates : ∀ u ∈ hist.updates, u.2 = u.1

/-- The buffers are held as `own` says, the events are in one place each, the lists `σ` are those of
the memory, and the threads keep to what they hold. -/
structure ThreadInv (bCount : Nat) (s : Threads) (own : Nat → Holder) (σ : Head → List Nat)
    (ps qs : List Nat) : Prop where
  pool : s.pool.Holds ps
  queue : s.txReqQueue.Holds qs
  events : ∀ e, ps.count e + s.rx.event.toList.count e + qs.count e +
    s.tx.pc.event.toList.count e ≤ 1
  buffers : Buffers bCount s.driver (s.coming ++ s.rx.hand) (s.live qs) σ own
  lists : ∀ h, s.live qs h → ListAt (linksOf s.settled) h (σ h)
  within : ∀ op p, s.rx.busy = some (op, p) → p.Within (s.rx.cells own) s.links
  tx : TxInv s.links s.sequence own σ s.tx.returned s.tx.pc
  history : s.history.Exact

variable {garbage : Head → Nat} {bCount rxCount : Nat} {s t : Threads} {own own' : Nat → Holder}
  {σ σ' : Head → List Nat} {ps qs : List Nat} {links links' : LinkCell → Addr}
  {sequence sequence' : Nat → BitVec 32} {returned : List Nat} {pc : TxPc}

/-- The chain ahead depends on the links of its buffers. -/
theorem Ahead.congr {h : Head} {node : Addr} {xs : List Nat} (ha : Ahead links h node xs)
    (heq : ∀ i ∈ xs, links' (.flnk (.inr i)) = links (.flnk (.inr i))) :
    Ahead links' h node xs := by
  cases xs with
  | nil => exact ha
  | cons x xs =>
    refine ⟨ha.1, ha.2.congr ?_⟩
    intro y hy
    rcases List.mem_cons.mp hy with rfl | hy
    · exact heq x List.mem_cons_self
    · obtain ⟨i, hi, rfl⟩ := List.mem_map.mp hy
      exact heq i (List.mem_cons_of_mem x hi)

/-- The transmit thread depends on the buffers ahead of it, the lists it has not come to, the
sequence number of its event and the link that it is about to load. -/
theorem TxInv.congr (h : TxInv links sequence own σ returned pc)
    (hown : ∀ i, own' i = .walk ↔ own i = .walk) (hσ : ∀ l, pc.keeps l → σ' l = σ l)
    (hseq : ∀ job, pc = .record job ∨ pc.event = some job.event →
      sequence' job.event = sequence job.event)
    (hlinks : ∀ i, own i = .walk → links' (.flnk (.inr i)) = links (.flnk (.inr i)))
    (hnode : ∀ job idx node count, pc = .next job idx node count →
      links' (.flnk node) = links (.flnk node)) : TxInv links' sequence' own' σ' returned pc := by
  have hnone (hwalk : ∀ i, own i ≠ .walk) (i : Nat) : own' i ≠ .walk :=
    fun hi => hwalk i ((hown i).mp hi)
  cases h with
  | pop hwalk => exact .pop (hnone hwalk)
  | send hwalk hjob hkept =>
    exact .send (hnone hwalk) ⟨hjob.nodup, (hseq _ (.inr rfl)).trans hjob.sequence⟩
      fun d => (hσ (.contrib _ d) rfl).trans (hkept d)
  | first hwalk hjob hkept hret =>
    exact .first (hnone hwalk) ⟨hjob.nodup, (hseq _ (.inr rfl)).trans hjob.sequence⟩
      (fun d hd => (hσ (.contrib _ d) ⟨rfl, hd⟩).trans (hkept d hd)) hret
  | test hwalk hjob hkept hbufs hret hchain hcount =>
    refine .test (fun i => (hown i).trans (hwalk i))
      ⟨hjob.nodup, (hseq _ (.inr rfl)).trans hjob.sequence⟩
      (fun d hd => (hσ (.contrib _ d) ⟨rfl, hd⟩).trans (hkept d hd)) hbufs hret (hchain.congr ?_) hcount
    exact fun i hi => hlinks i ((hwalk i).mpr hi)
  | next hwalk hjob hkept hbufs hret hchain hcount =>
    refine .next (fun i => (hown i).trans (hwalk i))
      ⟨hjob.nodup, (hseq _ (.inr rfl)).trans hjob.sequence⟩
      (fun d hd => (hσ (.contrib _ d) ⟨rfl, hd⟩).trans (hkept d hd)) hbufs hret (hchain.congr ?_) hcount
    intro y hy
    rcases List.mem_cons.mp hy with rfl | hy
    · exact hnode _ _ _ _ rfl
    · obtain ⟨i, hi, rfl⟩ := List.mem_map.mp hy
      exact hlinks i ((hwalk i).mpr hi)
  | prepare hwalk hjob hkept hret hrest =>
    exact .prepare (hnone hwalk) ⟨hjob.nodup, (hseq _ (.inr rfl)).trans hjob.sequence⟩
      (fun d hd => (hσ (.contrib _ d) ⟨rfl, hd⟩).trans (hkept d hd)) hret hrest
  | deallocate hwalk hjob =>
    exact .deallocate (hnone hwalk) ⟨hjob.nodup, (hseq _ (.inr rfl)).trans hjob.sequence⟩
  | record hwalk hjob =>
    exact .record (hnone hwalk) ⟨hjob.nodup, (hseq _ (.inl rfl)).trans hjob.sequence⟩

theorem keeps_event {h : Head} (hk : pc.keeps h) :
    ∃ event dest, h = .contrib event dest ∧ pc.event = some event := by
  cases h with
  | latency d => cases pc <;> exact hk.elim
  | contrib event dest =>
    refine ⟨event, dest, rfl, ?_⟩
    cases pc with
    | send job => exact congrArg some (Eq.symm hk)
    | first job idx => exact congrArg some hk.1.symm
    | test job idx node count => exact congrArg some hk.1.symm
    | next job idx node count => exact congrArg some hk.1.symm
    | prepare job idx rest => exact congrArg some hk.1.symm
    | pop => exact hk.elim
    | deallocate job => exact hk.elim
    | record job => exact hk.elim
    | exited => exact hk.elim

theorem Threads.coming_nil (hidle : s.rx.busy = none) : s.coming = [] := by
  unfold Threads.coming
  rw [hidle]

theorem Threads.settled_eq (hidle : s.rx.busy = none) : s.settled = s.links := by
  unfold Threads.settled
  rw [hidle]

theorem Threads.coming_of_busy {op : ListOp Addr} {p : Accesses}
    (hbusy : s.rx.busy = some (op, p)) : s.coming = op.taken (p.run s.links).1 := by
  unfold Threads.coming
  rw [hbusy]

theorem Threads.settled_of_busy {op : ListOp Addr} {p : Accesses}
    (hbusy : s.rx.busy = some (op, p)) : s.settled = (p.run s.links).2 := by
  unfold Threads.settled
  rw [hbusy]

/-- A buffer ahead of the transmit thread is out of reach of the receive thread. -/
theorem walk_notMem_cells {rx : RxThread} {i : Nat} (hi : own i = .walk) :
    .flnk (.inr i) ∉ rx.cells own := by
  intro hmem
  change rx.holds (own i) at hmem
  rw [hi] at hmem
  exact hmem

theorem cells_move {rx : RxThread} {P : Head → Bool} {k : Holder}
    (hP : ∀ l, P l = true → rx.owns l = false) :
    rx.cells own ⊆ rx.cells fun i => Holder.move P k (own i) := by
  rintro (⟨l | i⟩ | ⟨l | i⟩) hc
  · exact hc
  · change rx.holds (own i) at hc
    change rx.holds (Holder.move P k (own i))
    cases hi : own i with
    | list l =>
      rw [hi] at hc
      have hl : P l = false := by
        rw [Bool.eq_false_iff]
        exact fun hl => Bool.noConfusion ((hP l hl).symm.trans hc)
      rw [Holder.move, hl]
      exact hc
    | hand => trivial
    | nowhere => trivial
    | driver =>
      rw [hi] at hc
      exact hc.elim
    | walk =>
      rw [hi] at hc
      exact hc.elim
  · exact hc
  · exact hc

theorem cells_update {rx : RxThread} {i : Nat} {k : Holder} (hi : own i = .walk) :
    rx.cells own ⊆ rx.cells (Function.update own i k) := by
  rintro (⟨l | j⟩ | ⟨l | j⟩) hc
  · exact hc
  · have hne : j ≠ i := by
      rintro rfl
      exact walk_notMem_cells hi hc
    change rx.holds (Function.update own i k j)
    rw [Function.update_of_ne hne]
    exact hc
  · exact hc
  · exact hc

theorem update_eq_walk {i : Nat} {k : Holder} (hi : own i ≠ .walk) (hk : k ≠ .walk) (j : Nat) :
    Function.update own i k j = .walk ↔ own j = .walk := by
  by_cases hj : j = i
  · rw [hj, Function.update_self]
    exact iff_of_false hk hi
  · rw [Function.update_of_ne hj]

namespace ThreadInv

variable (h : ThreadInv bCount s own σ ps qs)
include h

/-- The receive thread does not have the event of the transmit thread. -/
theorem rx_ne_tx {event : Nat} (htx : s.tx.pc.event = some event) : s.rx.event ≠ some event := by
  intro hrx
  have hcount := h.events event
  rw [htx, hrx] at hcount
  simp at hcount

theorem rx_ne_queued {event : Nat} (hq : event ∈ qs) : s.rx.event ≠ some event := by
  intro hrx
  have hcount := h.events event
  have hpos := List.count_pos_iff.mpr hq
  rw [hrx] at hcount
  simp at hcount
  omega

/-- Of the lists in use the receive thread owns those that it has. -/
theorem owns_of_live {l : Head} (hl : s.live qs l) : s.rx.owns l = true ↔ s.rx.ready l := by
  cases l with
  | latency d => exact ⟨fun _ => trivial, fun _ => rfl⟩
  | contrib event dest =>
    have howns : s.rx.owns (.contrib event dest) = true ↔ s.rx.event = some event := beq_iff_eq
    rw [howns]
    refine ⟨fun hrx => ?_, fun hready => hready.1⟩
    rcases hl with hready | hq | hk
    · exact hready
    · exact absurd hrx (h.rx_ne_queued hq)
    · obtain ⟨e, d, heq, htx⟩ := keeps_event hk
      obtain ⟨rfl, -⟩ := Head.contrib.inj heq
      exact absurd hrx (h.rx_ne_tx htx)

theorem not_owns_of_keeps {l : Head} (hk : s.tx.pc.keeps l) : s.rx.owns l = false := by
  obtain ⟨e, d, rfl, htx⟩ := keeps_event hk
  exact beq_eq_false_iff_ne.mpr (h.rx_ne_tx htx)

end ThreadInv

/-! ## The steps of the receive thread -/

namespace ThreadInv

variable {i event : Nat}

/-- `dmaReadIndex`. -/
theorem receive (h : ThreadInv bCount s own σ ps qs) (hidle : s.rx.busy = none) (hi : i ∈ s.driver) :
    ThreadInv bCount { s with
      driver := s.driver.erase i
      rx := { s.rx with hand := .inr i :: s.rx.hand } } (Function.update own i .hand) σ ps qs := by
  have hown : own i = .driver := (h.buffers.mem_driver i).mp hi
  have hbuf := h.buffers.receive hi
  rw [Threads.coming_nil hidle] at hbuf
  refine ⟨h.pool, h.queue, h.events, ?_, h.lists, ?_, ?_, h.history⟩
  · change Buffers bCount _ (s.coming ++ .inr i :: s.rx.hand) _ _ _
    rw [Threads.coming_nil hidle]
    exact hbuf
  · intro op p hbusy
    exact absurd (hidle.symm.trans hbusy) nofun
  · refine h.tx.congr (update_eq_walk ?_ nofun) (fun _ _ => rfl) (fun _ _ => rfl)
      (fun _ _ => rfl) fun _ _ _ _ _ => rfl
    rw [hown]
    exact nofun

/-- `dmaRetIndex` of a node in the hands. -/
theorem freeHand (h : ThreadInv bCount s own σ ps qs) (hidle : s.rx.busy = none)
    (hi : .inr i ∈ s.rx.hand) :
    ThreadInv bCount { s with
      driver := i :: s.driver
      rx := { s.rx with hand := s.rx.hand.erase (.inr i) } }
      (Function.update own i .driver) σ ps qs := by
  have hmem : .inr i ∈ s.coming ++ s.rx.hand := List.mem_append_right _ hi
  have hown : own i = .hand := by
    obtain ⟨j, hj, hhand⟩ := (h.buffers.mem_hand _).mp hmem
    rwa [Sum.inr.inj hj]
  have hbuf := h.buffers.giveBack_hand hmem
  rw [Threads.coming_nil hidle] at hbuf
  refine ⟨h.pool, h.queue, h.events, ?_, h.lists, ?_, ?_, h.history⟩
  · change Buffers bCount _ (s.coming ++ s.rx.hand.erase (.inr i)) _ _ _
    rw [Threads.coming_nil hidle]
    exact hbuf
  · intro op p hbusy
    exact absurd (hidle.symm.trans hbusy) nofun
  · refine h.tx.congr (update_eq_walk ?_ nofun) (fun _ _ => rfl) (fun _ _ => rfl)
      (fun _ _ => rfl) fun _ _ _ _ _ => rfl
    rw [hown]
    exact nofun

/-- The end of a list operation. -/
theorem return' (h : ThreadInv bCount s own σ ps qs) {op : ListOp Addr} {node : Option Addr}
    (hbusy : s.rx.busy = some (op, .done node)) :
    ThreadInv bCount { s with
      rx := { s.rx with hand := op.taken node ++ s.rx.hand, busy := none } } own σ ps qs := by
  have hcoming : s.coming = op.taken node := Threads.coming_of_busy hbusy
  have hsettled : s.settled = s.links := Threads.settled_of_busy hbusy
  have hbuf := h.buffers
  rw [hcoming] at hbuf
  have hlists := h.lists
  rw [hsettled] at hlists
  exact ⟨h.pool, h.queue, h.events, hbuf, hlists, fun _ _ hb => absurd hb nofun, h.tx, h.history⟩

/-- An access of a list operation. -/
theorem access (h : ThreadInv bCount s own σ ps qs) {op : ListOp Addr} {p : Accesses}
    (hbusy : s.rx.busy = some (op, p)) (hok : Undisturbed s (.rx .access)) :
    ThreadInv bCount { s with
      links := (p.step s.links).2
      rx := { s.rx with busy := some (op, (p.step s.links).1) } } own σ ps qs := by
  have hwithin := h.within op p hbusy
  have hcoming := Threads.coming_of_busy hbusy
  have hsettled := Threads.settled_of_busy hbusy
  refine ⟨h.pool, h.queue, h.events, ?_, ?_, ?_, ?_, h.history⟩
  · change Buffers bCount _ (op.taken ((p.step s.links).1.run (p.step s.links).2).1 ++ _) _ _ _
    rw [Prog.run_step, ← hcoming]
    exact h.buffers
  · intro l hl
    change ListAt (linksOf ((p.step s.links).1.run (p.step s.links).2).2) l (σ l)
    rw [Prog.run_step, ← hsettled]
    exact h.lists l hl
  · intro op' p' heq
    obtain ⟨rfl, rfl⟩ := Prod.mk.inj (Option.some.inj heq)
    exact hwithin.step
  · refine h.tx.congr (fun _ => Iff.rfl) (fun _ _ => rfl) (fun _ _ => rfl) ?_ ?_
    · intro j hj
      apply Prog.step_frame
      rintro v next rfl
      exact walk_notMem_cells hj hwithin.store_mem
    · intro job idx node count hpc
      apply Prog.step_frame
      rintro v next rfl
      have hne : s.rx.storing ≠ some (.flnk node) := by
        simpa only [Undisturbed, hpc] using hok
      exact hne (by rw [RxThread.storing, hbusy])

/-- A list that an operation is called on: of those of the event, it is prepared, or `init`
prepares it. -/
theorem ready_call {rx : RxThread} {op : ListOp Addr} {list : Head}
    (huses : rx.uses op list = true) :
    rx.owns list = true ∧ (op = .init ∨ rx.ready list) ∧
      ∀ (hand : List Addr) (busy : Option (ListOp Addr × Accesses)) (l : Head),
        RxThread.ready ⟨hand, rx.event, rx.prepare op list, busy⟩ l ↔ rx.ready l ∨ l = list := by
  have hsame (hready : rx.ready list) (l : Head) : rx.ready l ↔ rx.ready l ∨ l = list := by
    refine ⟨.inl, ?_⟩
    rintro (hl | rfl)
    · exact hl
    · exact hready
  cases list with
  | latency d =>
    have hprep : rx.prepare op (.latency d) = rx.prepared := by cases op <;> rfl
    rw [hprep]
    exact ⟨rfl, .inr trivial, fun _ _ => hsame trivial⟩
  | contrib event dest =>
    by_cases hinit : op = .init
    · subst hinit
      have hrx : rx.event = some event := beq_iff_eq.mp huses
      refine ⟨huses, .inl rfl, fun hand busy l => ?_⟩
      cases l with
      | latency d => exact ⟨fun _ => .inl trivial, fun _ => trivial⟩
      | contrib e d =>
        change rx.event = some e ∧ Function.update rx.prepared dest true d = true ↔
          (rx.event = some e ∧ rx.prepared d = true) ∨ Head.contrib e d = .contrib event dest
        by_cases hd : d = dest
        · subst hd
          rw [Function.update_self]
          constructor
          · rintro ⟨he, -⟩
            rw [Option.some.inj (hrx.symm.trans he)]
            exact .inr rfl
          · rintro (hl | heq)
            · exact ⟨hl.1, rfl⟩
            · rw [(Head.contrib.inj heq).1]
              exact ⟨hrx, rfl⟩
        · rw [Function.update_of_ne hd]
          simp [hd]
    · have hboth : rx.event = some event ∧ rx.prepared dest = true := by
        cases op with
        | init => exact absurd rfl hinit
        | insertTail node => simpa [RxThread.uses] using huses
        | insertHead node => simpa [RxThread.uses] using huses
        | removeHead => simpa [RxThread.uses] using huses
      have hprep : rx.prepare op (.contrib event dest) = rx.prepared := by
        cases op with
        | init => exact absurd rfl hinit
        | insertTail node => rfl
        | insertHead node => rfl
        | removeHead => rfl
      rw [hprep]
      exact ⟨beq_iff_eq.mpr hboth.1, .inr hboth, fun _ _ => hsame hboth⟩

/-- The call of a list operation: the buffers go where the operation will put them. -/
theorem call (h : ThreadInv bCount s own σ ps qs) (hidle : s.rx.busy = none) {op : ListOp Addr}
    {list : Head} {given : List Nat} (huses : s.rx.uses op list = true)
    (hgiven : op.given = given.map .inr) (hhand : ∀ i ∈ given, .inr i ∈ s.rx.hand) :
    ∃ own' σ', ThreadInv bCount { s with rx := { s.rx with
      hand := s.rx.hand.diff op.given
      prepared := s.rx.prepare op list
      busy := some (op, op.accesses (.inl list)) } } own' σ' ps qs := by
  obtain ⟨howns, hready, hready'⟩ := ready_call huses
  have hown (i : Nat) (hi : i ∈ given) : own i = .hand := by
    obtain ⟨j, hj, hj'⟩ := (h.buffers.mem_hand _).mp (List.mem_append_right s.coming (hhand i hi))
    rwa [Sum.inr.inj hj]
  obtain ⟨xs, hxs, hlist⟩ : ∃ xs, (∀ i, own i = .list list ↔ i ∈ xs) ∧
      (op = .init ∨ ListAt (linksOf s.links) list xs) := by
    by_cases hlive : s.live qs list
    · refine ⟨σ list, fun i => (h.buffers.lists list i).trans (and_iff_right hlive), .inr ?_⟩
      rw [← Threads.settled_eq hidle]
      exact h.lists list hlive
    · refine ⟨[], fun i => ?_, .inl (hready.resolve_right fun hr => hlive (.inl hr))⟩
      rw [h.buffers.lists]
      exact iff_of_false (fun hl => hlive hl.1) List.not_mem_nil
  have hfresh (i : Nat) (hi : i ∈ given) : i ∉ xs := by
    rw [← hxs, hown i hi]
    exact nofun
  obtain ⟨ys, popped, heff⟩ := listEffect hlist hgiven hfresh
  have hrun := run_accesses op (.inl list) s.links
  have hmoved (i : Nat) (hi : i ∈ ys) : own i = .list list ∨ i ∈ given :=
    (heff.mem_or i hi).imp_left (hxs i).mpr
  refine ⟨relist own list ys popped, Function.update σ list ys, h.pool, h.queue, h.events, ?_, ?_,
    ?_, ?_, h.history⟩
  · have hbuf := h.buffers
    rw [Threads.coming_nil hidle, List.nil_append] at hbuf
    have hcoming : op.taken ((op.accesses (.inl list)).run s.links).1 = popped.map .inr := by
      rw [← heff.taken, ← hrun]
    change Buffers bCount _ (op.taken ((op.accesses (.inl list)).run s.links).1 ++ _) _ _ _
    rw [hcoming, hgiven]
    refine hbuf.relist ?_ (fun i hi => ⟨hhand i hi, heff.given_mem i hi⟩) hmoved
      (fun i hi => ⟨(hxs i).mpr (heff.popped_mem i hi).1, (heff.popped_mem i hi).2⟩) heff.nodup
    intro l
    unfold Threads.live
    rw [hready']
    tauto
  · intro l hl
    have hsettled : linksOf ((op.accesses (.inl list)).run s.links).2 =
        (op.exec (.inl list) (linksOf s.links)).1 := congrArg Prod.fst hrun
    change ListAt (linksOf ((op.accesses (.inl list)).run s.links).2) l _
    rw [hsettled]
    by_cases hll : l = list
    · rw [hll, Function.update_self]
      exact heff.list
    · rw [Function.update_of_ne hll]
      have hold : s.live qs l := by
        have hl' : Threads.live _ qs l := hl
        unfold Threads.live at hl' ⊢
        rw [hready'] at hl'
        tauto
      have hlist := h.lists l hold
      rw [Threads.settled_eq hidle] at hlist
      have hhead : (.inl l : Addr) ≠ .inl list := fun heq => hll (Sum.inl.inj heq)
      have hflnk : ∀ y ∈ (.inl l : Addr) :: cells (σ l),
          (op.exec (.inl list) (linksOf s.links)).1.flnk y = (linksOf s.links).flnk y := by
        intro y hy
        rcases List.mem_cons.mp hy with rfl | hy
        · exact heff.flnk _ hhead fun _ hi => absurd hi nofun
        · obtain ⟨j, hj, rfl⟩ := List.mem_map.mp hy
          have hj' : own j = .list l := (h.buffers.lists l j).mpr ⟨hold, hj⟩
          refine heff.flnk _ nofun fun i hi => ?_
          rw [← Sum.inr.inj hi, ← hxs, hj']
          refine ⟨fun heq => hll (Holder.list.inj heq), fun hg => ?_⟩
          rw [hown j hg] at hj'
          exact Holder.noConfusion hj'
      refine ⟨hlist.holds.congr hflnk, ?_⟩
      have hblnk := heff.blnk (.inl l) hhead
      unfold Tight
      rw [hblnk]
      exact hlist.tail
  · intro op' p hbusy
    obtain ⟨rfl, rfl⟩ := Prod.mk.inj (Option.some.inj hbusy)
    refine heff.within _ howns howns ?_
    intro i hi
    change RxThread.holds _ (relist own list ys popped i)
    unfold relist
    split_ifs with hy hp hl
    · exact howns
    · trivial
    · trivial
    · rcases hi with hi | hi
      · exact absurd ((hxs i).mpr hi) hl
      · rw [hown i hi]
        trivial
  · refine h.tx.congr ?_ ?_ (fun _ _ => rfl) (fun _ _ => rfl) fun _ _ _ _ _ => rfl
    · intro i
      unfold relist
      split_ifs with hy hp hl
      · refine iff_of_false nofun fun hw => ?_
        rcases hmoved i hy with hl | hg
        · exact Holder.noConfusion (hw.symm.trans hl)
        · exact Holder.noConfusion (hw.symm.trans (hown i hg))
      · refine iff_of_false nofun fun hw => ?_
        exact Holder.noConfusion (hw.symm.trans ((hxs i).mpr (heff.popped_mem i hp).1))
      · exact iff_of_false nofun fun hw => Holder.noConfusion (hw.symm.trans hl)
      · exact Iff.rfl
    · intro l hk
      have hne : l ≠ list := by
        rintro rfl
        rw [h.not_owns_of_keeps hk] at howns
        exact Bool.noConfusion howns
      exact Function.update_of_ne hne ys σ

/-- `eventPool.allocate ()`. -/
theorem allocate (h : ThreadInv bCount s own σ ps qs) (hidle : s.rx.busy = none)
    (hnone : s.rx.event = none) {pool : CommQueue Nat} (hpop : s.pool.pop = (pool, some event)) :
    ∃ ps', ThreadInv bCount { s with
      pool
      rx := { s.rx with event := some event, prepared := fun _ => false } } own σ ps' qs := by
  cases ps with
  | nil =>
    rw [h.pool.pop_nil] at hpop
    exact absurd hpop (by simp)
  | cons e ps =>
    obtain ⟨q', hq', -, hholds⟩ := h.pool.pop_cons
    rw [hpop] at hq'
    obtain ⟨rfl, he⟩ := Prod.mk.inj hq'
    obtain rfl := Option.some.inj he
    have hlive (l : Head) : Threads.live { s with
        pool, rx := { s.rx with event := some event, prepared := fun _ => false } } qs l ↔
        s.live qs l := by
      apply or_congr_left
      cases l with
      | latency d => exact Iff.rfl
      | contrib e d => simp [RxThread.ready, hnone]
    refine ⟨ps, hholds, h.queue, ?_, h.buffers.congr hlive, fun l hl => h.lists l ((hlive l).mp hl),
      fun _ _ hb => absurd (hidle.symm.trans hb) nofun, h.tx, h.history⟩
    intro e
    have hcount := h.events e
    rw [hnone] at hcount
    simp only [List.count_cons, Option.toList_none, List.count_nil, Option.toList_some] at hcount ⊢
    omega

/-- `m_trigger.init`. -/
theorem trigger (h : ThreadInv bCount s own σ ps qs) (hrx : s.rx.event = some event)
    (sequence : BitVec 32) (hok : Undisturbed s (.rx (.trigger sequence))) :
    ThreadInv bCount { s with sequence := Function.update s.sequence event sequence } own σ ps qs := by
  refine ⟨h.pool, h.queue, h.events, h.buffers, h.lists, h.within, ?_, h.history⟩
  refine h.tx.congr (fun _ => Iff.rfl) (fun _ _ => rfl) ?_ (fun _ _ => rfl) fun _ _ _ _ _ => rfl
  intro job hjob
  apply Function.update_of_ne
  rintro rfl
  rcases hjob with hpc | hpc
  · have hne : s.rx.event ≠ some job.event := by
      simpa only [Undisturbed, hpc] using hok
    exact hne hrx
  · exact h.rx_ne_tx hpc hrx

/-- `_txReqQueue->push (event)`. -/
theorem post (h : ThreadInv bCount s own σ ps qs) (hidle : s.rx.busy = none)
    (hrx : s.rx.event = some event) (hprep : ∀ dest, s.rx.prepared dest = true) :
    ∃ own' qs', ThreadInv bCount { s with
      txReqQueue := (s.txReqQueue.push event).1
      rx := { s.rx with event := none } } own' σ ps qs' := by
  have hready (l : Head) : s.rx.ready l ↔ (∃ d, l = .latency d) ∨ ∃ d, l = .contrib event d := by
    cases l with
    | latency d => simp [RxThread.ready]
    | contrib e d =>
      simp only [RxThread.ready, hrx, hprep, and_true, Option.some.injEq, reduceCtorEq,
        exists_false, false_or, Head.contrib.injEq]
      constructor
      · rintro rfl
        exact ⟨d, rfl, rfl⟩
      · rintro ⟨_, he, -⟩
        exact he.symm
  rcases h.queue.push_cases (x := event) with ⟨-, q', hq', -, hholds⟩ | ⟨-, hq'⟩
  · have hlive (l : Head) : Threads.live { s with
        txReqQueue := (s.txReqQueue.push event).1, rx := { s.rx with event := none } }
        (qs ++ [event]) l ↔ s.live qs l := by
      unfold Threads.live
      rw [hready]
      cases l with
      | latency d => simp [RxThread.ready]
      | contrib e d =>
        simp [RxThread.ready, queued]
        tauto
    refine ⟨own, qs ++ [event], h.pool, ?_, ?_, h.buffers.congr hlive,
      fun l hl => h.lists l ((hlive l).mp hl),
      fun _ _ hb => absurd (hidle.symm.trans hb) (Option.some_ne_none _).symm,
      h.tx, h.history⟩
    · rw [hq']
      exact hholds
    · intro e
      have hcount := h.events e
      rw [hrx] at hcount
      simp only [List.count_append, Option.toList_none, List.count_nil,
    Option.toList_some] at hcount ⊢
      omega
  · -- the queue is full: nobody has the event any more
    have hlive (l : Head) : Threads.live { s with
        txReqQueue := (s.txReqQueue.push event).1, rx := { s.rx with event := none } } qs l ↔
        s.live qs l ∧ ofEvent event l = false := by
      unfold Threads.live
      rw [hready]
      cases l with
      | latency d => simp [RxThread.ready, ofEvent]
      | contrib e d =>
        have hq : e ∈ qs → e ≠ event := fun hq he => h.rx_ne_queued hq (he ▸ hrx)
        have hk : s.tx.pc.keeps (.contrib e d) → e ≠ event := by
          intro hk he
          obtain ⟨e', d', heq, htx⟩ := keeps_event hk
          rw [← (Head.contrib.inj heq).1, he] at htx
          exact h.rx_ne_tx htx hrx
        simp only [RxThread.ready, ofEvent, queued, reduceCtorEq, false_and, false_or,
          Head.contrib.injEq, exists_false, beq_eq_false_iff_ne]
        tauto
    have hbuf := h.buffers.move (ofEvent event) .nowhere [] (.inr ⟨.inr rfl, rfl⟩) hlive
    rw [List.append_nil] at hbuf
    refine ⟨fun i => Holder.move (ofEvent event) .nowhere (own i), qs, h.pool, ?_, ?_, hbuf,
      fun l hl => h.lists l ((hlive l).mp hl).1,
      fun _ _ hb => absurd (hidle.symm.trans hb) (Option.some_ne_none _).symm,
      ?_, h.history⟩
    · rw [hq']
      exact h.queue
    · intro e
      have hcount := h.events e
      simp only [Option.toList_none, List.count_nil] at hcount ⊢
      omega
    · refine h.tx.congr ?_ (fun _ _ => rfl) (fun _ _ => rfl) (fun _ _ => rfl) fun _ _ _ _ _ => rfl
      exact fun i => Holder.move_eq_of_ne (fun h => Holder.noConfusion h)
        fun l h => Holder.noConfusion h

end ThreadInv

/-! ## The steps of the transmit thread -/

namespace ThreadInv

variable {i event : Nat} {job : Job} {idx : Dest} {node : Addr} {count : Nat} {xs : List Nat}

/-- A list that the receive thread does not own is in memory as it will be. -/
theorem holds_links (h : ThreadInv bCount s own σ ps qs) {l : Head} (hl : s.live qs l)
    (howns : s.rx.owns l = false) : Holds (linksOf s.links) (.inl l) (cells (σ l)) := by
  refine (h.lists l hl).holds.congr ?_
  intro y hy
  have hout : .flnk y ∉ s.rx.cells own := by
    rcases List.mem_cons.mp hy with rfl | hy
    · intro hmem
      exact Bool.noConfusion (howns.symm.trans hmem)
    · obtain ⟨j, hj, rfl⟩ := List.mem_map.mp hy
      have hj' : own j = .list l := (h.buffers.lists l j).mpr ⟨hl, hj⟩
      intro hmem
      change s.rx.holds (own j) at hmem
      rw [hj'] at hmem
      exact Bool.noConfusion (howns.symm.trans hmem)
  change s.links (.flnk y) = s.settled (.flnk y)
  cases hbusy : s.rx.busy with
  | none => rw [Threads.settled_eq hbusy]
  | some call =>
    rw [Threads.settled_of_busy hbusy]
    exact ((h.within _ _ hbusy).run_frame hout).symm

theorem nodup_list (h : ThreadInv bCount s own σ ps qs) {l : Head} (hl : s.live qs l) :
    (σ l).Nodup :=
  List.Nodup.of_map _ (List.nodup_cons.mp (h.lists l hl).holds.nodup).2

theorem length_list_le (h : ThreadInv bCount s own σ ps qs) {l : Head} (hl : s.live qs l) :
    (σ l).length ≤ bCount := by
  have hsub : ∀ j ∈ σ l, j ∈ List.range bCount := by
    intro j hj
    have hj' : own j = .list l := (h.buffers.lists l j).mpr ⟨hl, hj⟩
    exact List.mem_range.mpr (h.buffers.range j (by rw [hj']; exact nofun))
  have hle := (List.subperm_of_subset (h.nodup_list hl) hsub).length_le
  rwa [List.length_range] at hle

/-- The buffers on a list of the transmit thread. -/
theorem buffersOn_eq (h : ThreadInv bCount s own σ ps qs) {l : Head} (hl : s.live qs l)
    (howns : s.rx.owns l = false) : buffersOn garbage bCount s.links l = σ l := by
  have hhold := h.holds_links hl howns
  have hlen : (cells (σ l) : List Addr).length < bCount + 1 := by
    rw [cells, List.length_map]
    exact Nat.lt_succ_of_le (h.length_list_le hl)
  have hwalk : walk (fun p => s.links (.flnk p)) (.inl l) (bCount + 1) (.inl l) = cells (σ l) :=
    hhold.chain.walk (List.nodup_cons.mp hhold.nodup).1 hlen
  rw [buffersOn, hwalk, cells, List.map_map]
  exact List.map_id _

/-- A step that moves the transmit thread alone. -/
theorem moveTx (h : ThreadInv bCount s own σ ps qs) {tx : TxThread} {history : History}
    (hlive : ∀ l, tx.pc.keeps l ↔ s.tx.pc.keeps l) (hevent : tx.pc.event = s.tx.pc.event)
    (htx : TxInv s.links s.sequence own σ tx.returned tx.pc) (hhist : history.Exact) :
    ThreadInv bCount { s with tx, history } own σ ps qs := by
  have hlive' (l : Head) : Threads.live { s with tx, history } qs l ↔ s.live qs l := by
    unfold Threads.live
    rw [hlive]
  refine ⟨h.pool, h.queue, ?_, h.buffers.congr hlive', fun l hl => h.lists l ((hlive' l).mp hl),
    h.within, htx, hhist⟩
  intro e
  rw [hevent]
  exact h.events e

/-- `_txReqQueue->pop`. -/
theorem pop (h : ThreadInv bCount s own σ ps qs) (hpc : s.tx.pc = .pop)
    {txReqQueue : CommQueue Nat} (hpop : s.txReqQueue.pop = (txReqQueue, some event)) :
    ∃ qs', ThreadInv bCount { s with
      txReqQueue
      tx := { s.tx with pc := .send ⟨event,
        fun dest => buffersOn garbage bCount s.links (.contrib event dest),
        s.sequence event, false⟩ } } own σ ps qs' := by
  cases qs with
  | nil =>
    rw [h.queue.pop_nil] at hpop
    exact absurd hpop (by simp)
  | cons e qs =>
    obtain ⟨q', hq', -, hholds⟩ := h.queue.pop_cons
    rw [hpop] at hq'
    obtain ⟨rfl, he⟩ := Prod.mk.inj hq'
    obtain rfl := Option.some.inj he
    have hlisted (d : Dest) : s.live (event :: qs) (.contrib event d) :=
      .inr (.inl List.mem_cons_self)
    have howns (d : Dest) : s.rx.owns (.contrib event d) = false :=
      beq_eq_false_iff_ne.mpr (h.rx_ne_queued List.mem_cons_self)
    have hbufs (d : Dest) : buffersOn garbage bCount s.links (.contrib event d) =
        σ (.contrib event d) := h.buffersOn_eq (hlisted d) (howns d)
    have hlive (l : Head) (job : Job) (hjob : job.event = event) : Threads.live { s with
        txReqQueue, tx := { s.tx with pc := .send job } } qs l ↔ s.live (event :: qs) l := by
      unfold Threads.live
      rw [hpc]
      cases l with
      | latency d => simp [queued, TxPc.keeps]
      | contrib e d =>
        simp only [queued, TxPc.keeps, List.mem_cons, hjob]
        tauto
    have htx := h.tx
    rw [hpc] at htx
    cases htx with
    | pop hwalk =>
      refine ⟨qs, h.pool, hholds, ?_, h.buffers.congr fun l => hlive l _ rfl,
        fun l hl => h.lists l ((hlive l _ rfl).mp hl), h.within, .send hwalk ⟨?_, rfl⟩ ?_, h.history⟩
      · intro e
        have hcount := h.events e
        rw [hpc] at hcount
        simp only [TxPc.event, Option.toList_none, Option.toList_some, List.count_nil,
          List.count_cons] at hcount ⊢
        omega
      · dsimp only
        rw [hbufs, hbufs]
        refine List.nodup_append.mpr ⟨h.nodup_list (hlisted 0), h.nodup_list (hlisted 1), ?_⟩
        rintro i hi j hj rfl
        have h₀ : own i = .list (.contrib event 0) := (h.buffers.lists _ i).mpr ⟨hlisted 0, hi⟩
        have h₁ : own i = .list (.contrib event 1) := (h.buffers.lists _ i).mpr ⟨hlisted 1, hj⟩
        exact absurd (h₀.symm.trans h₁) (by simp)
      · exact fun d => (hbufs d).symm

/-- The event is sent over TCP, or not at all. -/
theorem send (h : ThreadInv bCount s own σ ps qs) (hpc : s.tx.pc = .send job) (sent : Bool) :
    ThreadInv bCount { s with
      tx := { s.tx with pc := .first { job with sent } 0, returned := [] } } own σ ps qs := by
  have htx := h.tx
  rw [hpc] at htx
  cases htx with
  | send hwalk hjob hkept =>
    refine h.moveTx ?_ (by rw [hpc]; rfl)
      (.first hwalk ⟨hjob.nodup, hjob.sequence⟩ (fun d _ => hkept d) rfl) h.history
    intro l
    rw [hpc]
    cases l with
    | latency d => exact Iff.rfl
    | contrib e d => exact and_iff_left (Fin.zero_le d)

/-- The event is sent over RSSI: the driver returns its buffers. -/
theorem sendRssi (h : ThreadInv bCount s own σ ps qs) (hpc : s.tx.pc = .send job) (sent : Bool) :
    ∃ own', ThreadInv bCount { s with
      driver := s.driver ++ (job.bufs 0 ++ job.bufs 1)
      tx := { s.tx with pc := .deallocate { job with sent } } } own' σ ps qs := by
  have htx := h.tx
  rw [hpc] at htx
  cases htx with
  | send hwalk hjob hkept =>
    have hlisted (d : Dest) : s.live qs (.contrib job.event d) :=
      .inr (.inr (by rw [hpc]; exact rfl))
    have hlive (l : Head) : Threads.live { s with
        driver := s.driver ++ (job.bufs 0 ++ job.bufs 1)
        tx := { s.tx with pc := .deallocate { job with sent } } } qs l ↔
        s.live qs l ∧ ofEvent job.event l = false := by
      have htx : s.tx.pc.event = some job.event := by rw [hpc]; rfl
      unfold Threads.live
      rw [hpc]
      cases l with
      | latency d => simp [RxThread.ready, ofEvent]
      | contrib e d =>
        have hrx : s.rx.event = some e → e ≠ job.event := fun he heq => h.rx_ne_tx htx (heq ▸ he)
        have hq : e ∈ qs → e ≠ job.event := by
          intro hq heq
          have hcount := h.events e
          have hpos := List.count_pos_iff.mpr hq
          rw [htx, ← heq] at hcount
          simp at hcount
          omega
        simp only [RxThread.ready, ofEvent, queued, TxPc.keeps, beq_eq_false_iff_ne]
        tauto
    have hback (i : Nat) : i ∈ job.bufs 0 ++ job.bufs 1 ↔
        ∃ l, own i = .list l ∧ ofEvent job.event l = true := by
      rw [List.mem_append, ← hkept, ← hkept]
      constructor
      · rintro (hi | hi)
        · exact ⟨_, (h.buffers.lists _ i).mpr ⟨hlisted 0, hi⟩, beq_self_eq_true _⟩
        · exact ⟨_, (h.buffers.lists _ i).mpr ⟨hlisted 1, hi⟩, beq_self_eq_true _⟩
      · rintro ⟨l, hl, hevent⟩
        have hi := ((h.buffers.lists l i).mp hl).2
        cases l with
        | latency d => exact Bool.noConfusion hevent
        | contrib e d =>
          rw [beq_iff_eq.mp hevent] at hi
          rcases dest_cases d with rfl | rfl
          · exact .inl hi
          · exact .inr hi
    refine ⟨fun i => Holder.move (ofEvent job.event) .driver (own i), h.pool, h.queue, ?_,
      h.buffers.move _ _ _ (.inl ⟨rfl, hjob.nodup, hback⟩) hlive,
      fun l hl => h.lists l ((hlive l).mp hl).1, ?_, .deallocate ?_ ⟨hjob.nodup, hjob.sequence⟩,
      h.history⟩
    · intro e
      have hcount := h.events e
      rw [hpc] at hcount
      exact hcount
    · intro op p hbusy
      refine (h.within op p hbusy).mono (cells_move ?_)
      intro l hl
      cases l with
      | latency d => exact Bool.noConfusion hl
      | contrib e d =>
        have htx : s.tx.pc.event = some job.event := by rw [hpc]; rfl
        rw [beq_iff_eq.mp hl]
        exact beq_eq_false_iff_ne.mpr (h.rx_ne_tx htx)
    · intro i hi
      have hdriver : Holder.walk ≠ .driver := fun h => Holder.noConfusion h
      exact hwalk i ((Holder.move_eq_of_ne hdriver fun l h => Holder.noConfusion h).mp hi)

/-- The load of `m_list[idx].m_flnk`: the buffers of the list are ahead. -/
theorem first (h : ThreadInv bCount s own σ ps qs) (hpc : s.tx.pc = .first job idx) :
    ∃ own', ThreadInv bCount { s with
      tx := { s.tx with
        pc := .test job idx (s.links (.flnk (.inl (.contrib job.event idx)))) 0 } }
      own' σ ps qs := by
  have htx := h.tx
  rw [hpc] at htx
  cases htx with
  | first hwalk hjob hkept hret =>
    have hkeeps : s.tx.pc.keeps (.contrib job.event idx) := by
      rw [hpc]
      exact ⟨rfl, Nat.le_refl _⟩
    have hlisted : s.live qs (.contrib job.event idx) := .inr (.inr hkeeps)
    have hbufs : σ (.contrib job.event idx) = job.bufs idx := hkept idx (Nat.le_refl _)
    have hhold := h.holds_links hlisted (h.not_owns_of_keeps hkeeps)
    rw [hbufs] at hhold
    let P : Head → Bool := fun l => l == .contrib job.event idx
    have hP (l : Head) : P l = true ↔ l = .contrib job.event idx := beq_iff_eq
    have hlive (l : Head) : Threads.live { s with
        tx := { s.tx with
          pc := .test job idx (s.links (.flnk (.inl (.contrib job.event idx)))) 0 } } qs l ↔
        s.live qs l ∧ P l = false := by
      have hnot : P l = false ↔ l ≠ .contrib job.event idx := by
        rw [Bool.eq_false_iff, ne_eq, hP]
      have hready : s.rx.ready l → l ≠ .contrib job.event idx := by
        rintro hready rfl
        have howns := (h.owns_of_live hlisted).mpr hready
        exact Bool.noConfusion ((h.not_owns_of_keeps hkeeps).symm.trans howns)
      have hq : queued qs l → l ≠ .contrib job.event idx := by
        rintro hq rfl
        have hcount := h.events job.event
        have hpos : 0 < qs.count job.event := List.count_pos_iff.mpr hq
        rw [hpc] at hcount
        simp [TxPc.event] at hcount
        omega
      have hlater : TxPc.keeps (.test job idx (s.links (.flnk (.inl (.contrib job.event idx)))) 0)
          l ↔ s.tx.pc.keeps l ∧ l ≠ .contrib job.event idx := by
        rw [hpc]
        cases l with
        | latency d => exact ⟨False.elim, fun hk => hk.1.elim⟩
        | contrib e d =>
          simp only [TxPc.keeps, ne_eq, Head.contrib.injEq, not_and]
          constructor
          · rintro ⟨he, hlt⟩
            exact ⟨⟨he, Nat.le_of_lt hlt⟩, fun _ hd => absurd hd.symm (Fin.ne_of_lt hlt)⟩
          · rintro ⟨⟨he, hle⟩, hne⟩
            exact ⟨he, Nat.lt_of_le_of_ne hle fun hd => hne he (Fin.ext hd).symm⟩
      unfold Threads.live
      rw [hnot, hlater]
      tauto
    have hbuf := h.buffers.move P .walk [] (.inr ⟨.inl rfl, rfl⟩) hlive
    rw [List.append_nil] at hbuf
    refine ⟨_, h.pool, h.queue, ?_, hbuf, fun l hl => h.lists l ((hlive l).mp hl).1, ?_, ?_,
      h.history⟩
    · intro e
      have hcount := h.events e
      rw [hpc] at hcount
      exact hcount
    · intro op p hbusy
      refine (h.within op p hbusy).mono (cells_move fun l hl => ?_)
      rw [(hP l).mp hl]
      exact h.not_owns_of_keeps hkeeps
    · have hall : job.bufs idx = [] ++ job.bufs idx := rfl
      refine .test ?_ hjob (fun d hd => hkept d (Nat.le_of_lt hd)) hall
        (by rw [hret, List.append_nil]) ?_ (Nat.le_refl 0)
      · intro i
        rw [Holder.move_eq (k := .walk) nofun, ← hbufs]
        constructor
        · rintro (hi | ⟨l, hl, hPl⟩)
          · exact absurd hi (hwalk i)
          · rw [(hP l).mp hPl] at hl
            exact ((h.buffers.lists _ i).mp hl).2
        · exact fun hi => .inr ⟨_, (h.buffers.lists _ i).mpr ⟨hlisted, hi⟩, (hP _).mpr rfl⟩
      · have hchain := hhold.chain
        revert hchain
        cases job.bufs idx with
        | nil => exact id
        | cons x xs => exact id

theorem confined_init (l : Head) :
    (ListOp.init.accesses (.inl l)).Confined {.flnk (.inl l), .blnk (.inl l)} :=
  ⟨.inl rfl, .inl rfl, fun _ => ⟨.inr rfl, trivial⟩⟩

/-- The loop is left at the head of the list. -/
theorem leaveLoop (h : ThreadInv bCount s own σ ps qs) (hpc : s.tx.pc = .test job idx node count)
    (hnode : node = .inl (.contrib job.event idx)) :
    ThreadInv bCount (s.leaveLoop job idx node) own σ ps qs := by
  have htx := h.tx
  rw [hpc] at htx
  cases htx with
  | @test _ _ _ _ visited rest hwalk hjob hkept hbufs hret hchain hcount =>
    have hnil : rest = [] := by
      cases rest with
      | nil => rfl
      | cons x xs => exact absurd (hnode.symm.trans hchain.1) nofun
    subst hnil
    rw [List.append_nil] at hbufs
    refine h.moveTx (fun l => by rw [hpc]; cases l <;> rfl) (by rw [hpc]; rfl) ?_ ⟨?_, ?_, ?_⟩
    · exact .prepare (fun i hi => absurd ((hwalk i).mp hi) List.not_mem_nil) hjob hkept
        (by rw [hret, hbufs]) (confined_init _)
    · intro w hw
      rcases List.mem_append.mp hw with hw | hw
      · exact h.history.walks w hw
      · rw [List.mem_singleton.mp hw]
        exact hnode
    · exact h.history.frees
    · exact h.history.updates

/-- Of the buffers of an event at most eight have an index below 8. -/
theorem filter_length_le (hnd : xs.Nodup) : (xs.filter (· < 8)).length ≤ 8 := by
  have hsub : ∀ i ∈ xs.filter (· < 8), i ∈ List.range 8 := by
    intro i hi
    exact List.mem_range.mpr (of_decide_eq_true (List.mem_filter.mp hi).2)
  exact (List.subperm_of_subset (hnd.filter _) hsub).length_le

/-- `dmaRetIndex` of the next buffer: the loop neither ends the program nor is left. -/
theorem test (h : ThreadInv bCount s own σ ps qs) (garbage : Head → Nat) {transfer : Transfer}
    (hok : Undisturbed s (.tx transfer)) (hpc : s.tx.pc = .test job idx node count)
    (hnode : node ≠ .inl (.contrib job.event idx)) :
    let index := getIndex garbage node
    let count' := if index < 8 then count + 1 else count
    index ≤ 900 ∧ count' ≤ 40 ∧ ∃ own', ThreadInv bCount { s with
      driver := index :: s.driver
      tx := { s.tx with
        pc := .next job idx node count'
        returned := s.tx.returned ++ [index] } } own' σ ps qs := by
  have htx := h.tx
  rw [hpc] at htx
  cases htx with
  | @test _ _ _ _ visited rest hwalk hjob hkept hbufs hret hchain hcount =>
    cases rest with
    | nil => exact absurd hchain hnode
    | cons x rest =>
      obtain ⟨rfl, hchain⟩ := hchain
      have hx : own x = .walk := (hwalk x).mpr List.mem_cons_self
      have hnd : (job.bufs idx).Nodup := by
        rcases dest_cases idx with rfl | rfl
        · exact (List.nodup_append.mp hjob.nodup).1
        · exact (List.nodup_append.mp hjob.nodup).2.1
      rw [hbufs] at hnd
      have hle : ((visited ++ [x]).filter (· < 8)).length ≤ 8 := by
        apply filter_length_le
        rw [List.append_cons] at hnd
        exact (List.nodup_append.mp hnd).1
      have hcount' : (if x < 8 then count + 1 else count) ≤
          ((visited ++ [x]).filter (· < 8)).length := by
        rw [List.filter_append, List.length_append]
        split
        · rename_i hlt
          have hone : [x].filter (· < 8) = [x] := by simp [hlt]
          rw [hone]
          exact Nat.add_le_add_right hcount 1
        · exact hcount.trans (Nat.le_add_right _ _)
      have hindex : x ≤ 900 := by
        simpa only [Undisturbed, hpc] using hok
      refine ⟨hindex, hcount'.trans (hle.trans (by omega)), ?_⟩
      have hlive (l : Head) : Threads.live { s with
          driver := x :: s.driver
          tx := { s.tx with
            pc := .next job idx (.inr x) (if x < 8 then count + 1 else count)
            returned := s.tx.returned ++ [x] } } qs l ↔ s.live qs l := by
        unfold Threads.live
        rw [hpc]
        cases l <;> rfl
      refine ⟨Function.update own x .driver, h.pool, h.queue, ?_,
        (h.buffers.giveBack_walk hx).congr hlive, fun l hl => h.lists l ((hlive l).mp hl),
        fun op p hbusy => (h.within op p hbusy).mono (cells_update hx), ?_, h.history⟩
      · intro e
        have hcount := h.events e
        rw [hpc] at hcount
        exact hcount
      · have hnot : x ∉ rest := by
          have hcons := (List.nodup_append.mp hnd).2.1
          exact (List.nodup_cons.mp hcons).1
        refine .next ?_ hjob hkept hbufs ?_ hchain hcount'
        · intro i
          by_cases hi : i = x
          · rw [hi, Function.update_self]
            exact iff_of_false nofun hnot
          · rw [Function.update_of_ne hi, hwalk, List.mem_cons, or_iff_right hi]
        · change s.tx.returned ++ [x] = _
          rw [hret, List.append_assoc]

/-- The load of `node->m_flnk`. -/
theorem next (h : ThreadInv bCount s own σ ps qs) (hpc : s.tx.pc = .next job idx node count) :
    ThreadInv bCount { s with
      tx := { s.tx with pc := .test job idx (s.links (.flnk node)) count } } own σ ps qs := by
  have htx := h.tx
  rw [hpc] at htx
  cases htx with
  | @next _ _ x _ visited rest hwalk hjob hkept hbufs hret hchain hcount =>
    have hsplit : job.bufs idx = (visited ++ [x]) ++ rest := by rw [hbufs, List.append_cons]
    refine h.moveTx (fun l => by rw [hpc]; cases l <;> rfl) (by rw [hpc]; rfl)
      (.test hwalk hjob hkept hsplit hret ?_ hcount) h.history
    revert hchain
    cases rest with
    | nil => exact id
    | cons y rest => exact id

/-- A list does not see a store to the head of another. -/
theorem ListAt.store {m : LinkCell → Addr} {l list : Head} (hl : ListAt (linksOf m) l xs)
    (hne : l ≠ list) {c : LinkCell} (hc : c ∈ ({.flnk (.inl list), .blnk (.inl list)} : Set _))
    (v : Addr) : ListAt (linksOf (Function.update m c v)) l xs := by
  have hcell (y : Addr) (hy : y ≠ .inl list) : Function.update m c v (.flnk y) = m (.flnk y) ∧
      Function.update m c v (.blnk y) = m (.blnk y) := by
    have hmixed (p q : Addr) : LinkCell.flnk p ≠ .blnk q := nofun
    rcases hc with rfl | rfl
    · exact ⟨Function.update_of_ne (fun heq => hy (LinkCell.flnk.inj heq)) v m,
        Function.update_of_ne (hmixed (.inl list) y).symm v m⟩
    · exact ⟨Function.update_of_ne (hmixed y (.inl list)) v m,
        Function.update_of_ne (fun heq => hy (LinkCell.blnk.inj heq)) v m⟩
  have hhead : (.inl l : Addr) ≠ .inl list := fun heq => hne (Sum.inl.inj heq)
  refine ⟨hl.holds.congr ?_, ?_⟩
  · intro y hy
    rcases List.mem_cons.mp hy with rfl | hy
    · exact (hcell _ hhead).1
    · obtain ⟨i, -, rfl⟩ := List.mem_map.mp hy
      exact (hcell (.inr i) nofun).1
  · unfold Tight
    have hblnk : (linksOf (Function.update m c v)).blnk (.inl l) = (linksOf m).blnk (.inl l) :=
      (hcell _ hhead).2
    rw [hblnk]
    exact hl.tail

/-- A store of `prepare (idx)`: the list is on no thread's side. -/
theorem store (h : ThreadInv bCount s own σ ps qs) {rest : Accesses}
    (hpc : s.tx.pc = .prepare job idx rest) {c : LinkCell}
    (hc : c ∈ ({.flnk (.inl (.contrib job.event idx)), .blnk (.inl (.contrib job.event idx))} :
      Set LinkCell)) (v : Addr) :
    ThreadInv bCount { s with links := Function.update s.links c v } own σ ps qs := by
  have htx : s.tx.pc.event = some job.event := by rw [hpc]; rfl
  have hdead (l : Head) (hl : s.live qs l) : l ≠ .contrib job.event idx := by
    rintro rfl
    rcases hl with hready | hq | hk
    · exact h.rx_ne_tx htx hready.1
    · have hcount := h.events job.event
      have hpos : 0 < qs.count job.event := List.count_pos_iff.mpr hq
      rw [htx] at hcount
      simp at hcount
      omega
    · rw [hpc] at hk
      exact Nat.lt_irrefl _ hk.2
  have hout : c ∉ s.rx.cells own := by
    have howns : s.rx.owns (.contrib job.event idx) ≠ true :=
      fun ho => h.rx_ne_tx htx (beq_iff_eq.mp ho)
    rcases hc with rfl | rfl
    · exact howns
    · exact howns
  have hnode (i : Nat) : LinkCell.flnk (.inr i) ≠ c := by
    rcases hc with rfl | rfl <;> exact nofun
  have hcoming : Threads.coming { s with links := Function.update s.links c v } = s.coming := by
    unfold Threads.coming
    dsimp only
    cases hbusy : s.rx.busy with
    | none => rfl
    | some call =>
      dsimp only
      rw [(h.within _ _ hbusy).run_update hout]
  have hsettled : Threads.settled { s with links := Function.update s.links c v } =
      Function.update s.settled c v := by
    unfold Threads.settled
    dsimp only
    cases hbusy : s.rx.busy with
    | none => rfl
    | some call =>
      dsimp only
      rw [(h.within _ _ hbusy).run_update hout]
  refine ⟨h.pool, h.queue, h.events, ?_, ?_, fun op p hbusy => (h.within op p hbusy).update hout v,
    ?_, h.history⟩
  · rw [hcoming]
    exact h.buffers
  · intro l hl
    rw [hsettled]
    exact ListAt.store (h.lists l hl) (hdead l hl) hc v
  · refine h.tx.congr (fun _ => Iff.rfl) (fun _ _ => rfl) (fun _ _ => rfl) ?_ ?_
    · exact fun i _ => Function.update_of_ne (hnode i) v s.links
    · intro job' idx' node count hnext
      rw [hpc] at hnext
      exact absurd hnext nofun

/-- An access of `prepare (idx)`. -/
theorem prepareAccess (h : ThreadInv bCount s own σ ps qs) {rest : Accesses}
    (hpc : s.tx.pc = .prepare job idx rest) :
    ThreadInv bCount { s with
      links := (rest.step s.links).2
      tx := { s.tx with pc := .prepare job idx (rest.step s.links).1 } } own σ ps qs := by
  have htx := h.tx
  rw [hpc] at htx
  cases htx with
  | prepare hwalk hjob hkept hret hrest =>
    have hlinks : ThreadInv bCount { s with links := (rest.step s.links).2 } own σ ps qs := by
      cases rest with
      | done r => exact h
      | load c next => exact h
      | store c v next => exact h.store hpc hrest.1 v
    exact hlinks.moveTx (fun l => by rw [hpc]; cases l <;> rfl) (by rw [hpc]; rfl)
      (.prepare hwalk hjob hkept hret (hrest.step _)) h.history

/-- After `prepare (0)` comes the second list. -/
theorem prepared_zero (h : ThreadInv bCount s own σ ps qs) {r : Option Addr}
    (hpc : s.tx.pc = .prepare job 0 (.done r)) :
    ThreadInv bCount { s with tx := { s.tx with pc := .first job 1 } } own σ ps qs := by
  have htx := h.tx
  rw [hpc] at htx
  cases htx with
  | prepare hwalk hjob hkept hret hrest =>
    have hlater (d : Dest) : 1 ≤ d ↔ 0 < d := by
      rcases dest_cases d with rfl | rfl <;> decide
    refine h.moveTx ?_ (by rw [hpc]; rfl)
      (.first hwalk hjob (fun d hd => hkept d ((hlater d).mp hd)) hret) h.history
    intro l
    rw [hpc]
    cases l with
    | latency d => exact Iff.rfl
    | contrib e d => exact and_congr_right fun _ => hlater d

/-- After `prepare (1)` all buffers of the event are returned. -/
theorem prepared_one (h : ThreadInv bCount s own σ ps qs) {r : Option Addr}
    (hpc : s.tx.pc = .prepare job 1 (.done r)) :
    ThreadInv bCount { s with
      history := { s.history with
        frees := s.history.frees ++ [(job.bufs 0 ++ job.bufs 1, s.tx.returned)] }
      tx := { s.tx with pc := .deallocate job } } own σ ps qs := by
  have htx := h.tx
  rw [hpc] at htx
  cases htx with
  | prepare hwalk hjob hkept hret hrest =>
    refine h.moveTx ?_ (by rw [hpc]; rfl) (.deallocate hwalk hjob) ⟨h.history.walks, ?_,
      h.history.updates⟩
    · intro l
      rw [hpc]
      cases l with
      | latency d => exact Iff.rfl
      | contrib e d =>
        refine ⟨False.elim, fun hk => ?_⟩
        have hlt : (1 : Dest) < d := hk.2
        rcases dest_cases d with rfl | rfl <;> exact absurd hlt (by decide)
    · intro f hf
      rcases List.mem_append.mp hf with hf | hf
      · exact h.history.frees f hf
      · rw [List.mem_singleton.mp hf]
        exact ⟨hret, hjob.nodup⟩

/-- `m_pool->deallocate (this)`. -/
theorem deallocate (h : ThreadInv bCount s own σ ps qs) (hpc : s.tx.pc = .deallocate job) :
    ∃ ps', ThreadInv bCount { s with
      pool := (s.pool.push job.event).1
      tx := { s.tx with pc := if job.sent then .record job else .pop } } own σ ps' qs := by
  have hevent : (if job.sent then TxPc.record job else .pop).event = none := by
    split <;> rfl
  have hlive (l : Head) : Threads.live { s with
      pool := (s.pool.push job.event).1
      tx := { s.tx with pc := if job.sent then .record job else .pop } } qs l ↔ s.live qs l := by
    unfold Threads.live
    rw [hpc]
    cases l <;> cases hsent : job.sent <;> simp [TxPc.keeps]
  have htx : TxInv s.links s.sequence own σ s.tx.returned
      (if job.sent then .record job else .pop) := by
    have htx := h.tx
    rw [hpc] at htx
    cases htx with
    | deallocate hwalk hjob =>
      split
      · exact .record hwalk hjob
      · exact .pop hwalk
  obtain ⟨ps', hpool, hcount⟩ : ∃ ps', (s.pool.push job.event).1.Holds ps' ∧
      ∀ e, ps'.count e ≤ ps.count e + [job.event].count e := by
    rcases h.pool.push_cases (x := job.event) with ⟨-, q', hq', -, hholds⟩ | ⟨-, hq'⟩
    · rw [hq']
      exact ⟨ps ++ [job.event], hholds, fun e => (List.count_append ..).le⟩
    · rw [hq']
      exact ⟨ps, h.pool, fun e => Nat.le_add_right _ _⟩
  refine ⟨ps', hpool, h.queue, ?_, h.buffers.congr hlive, fun l hl => h.lists l ((hlive l).mp hl),
    h.within, htx, h.history⟩
  intro e
  have hevents := h.events e
  have hle := hcount e
  rw [hpc] at hevents
  dsimp only
  rw [hevent]
  simp only [TxPc.event, Option.toList_some, Option.toList_none, List.count_nil] at hevents ⊢
  omega

/-- The statistics of the event that was sent. -/
theorem record (h : ThreadInv bCount s own σ ps qs) (hpc : s.tx.pc = .record job) :
    ThreadInv bCount { s with
      history := { s.history with
        updates := s.history.updates ++ [(job.sequence, s.sequence job.event)] }
      tx := s.tx.record (s.sequence job.event) } own σ ps qs := by
  have htx := h.tx
  rw [hpc] at htx
  cases htx with
  | record hwalk hjob =>
    refine h.moveTx ?_ (by rw [hpc]; rfl) (.pop hwalk) ⟨h.history.walks, h.history.frees, ?_⟩
    · intro l
      rw [hpc]
      cases l <;> rfl
    · intro u hu
      rcases List.mem_append.mp hu with hu | hu
      · exact h.history.updates u hu
      · rw [List.mem_singleton.mp hu]
        exact hjob.sequence

end ThreadInv

/-! ## Every run -/

namespace ThreadInv

/-- At the start all buffers are with the driver. -/
theorem start (hb : 0 < bCount) (hr : 0 < rxCount) :
    ThreadInv bCount (Threads.start bCount rxCount)
      (fun i => if i < bCount then .driver else .nowhere) (fun _ => []) (List.range (bCount - 1)) [] := by
  have hready (l : Head) :
      Threads.live (Threads.start bCount rxCount) [] l ↔ ∃ d, l = .latency d := by
    cases l with
    | latency d => exact iff_of_true (.inl trivial) ⟨d, rfl⟩
    | contrib e d =>
      refine iff_of_false ?_ nofun
      rintro (hl | hl | hl)
      · exact absurd hl.1 nofun
      · exact List.not_mem_nil hl
      · exact hl
  refine ⟨(eventPool_holds hb).2, .new hr, ?_, ?_, ?_, nofun, .pop ?_, ⟨nofun, nofun, nofun⟩⟩
  · intro e
    have hle := List.nodup_iff_count_le_one.mp (List.nodup_range (n := bCount - 1)) e
    simpa [Threads.start, TxPc.event] using hle
  · refine ⟨?_, List.nodup_range, ?_, .nil, ?_, ?_⟩
    · intro i hi
      by_contra hge
      exact hi (if_neg hge)
    · intro i
      change i ∈ List.range bCount ↔ _
      rw [List.mem_range]
      split_ifs with hlt
      · exact iff_of_true hlt rfl
      · exact iff_of_false hlt nofun
    · intro a
      refine iff_of_false List.not_mem_nil ?_
      rintro ⟨i, -, hi⟩
      split_ifs at hi
    · intro l i
      refine iff_of_false ?_ fun hl => List.not_mem_nil hl.2
      intro hi
      split_ifs at hi
  · intro l hl
    exact ⟨⟨rfl, List.nodup_singleton _⟩, .inr rfl⟩
  · intro i hi
    split_ifs at hi

theorem rxStep (h : ThreadInv bCount s own σ ps qs) {act : RxAct} (hok : Undisturbed s (.rx act))
    (hstep : rxStep garbage s act = some t) :
    ∃ own' σ' ps' qs', ThreadInv bCount t own' σ' ps' qs' := by
  cases act with
  | receive i =>
    simp only [Daq.rxStep, Option.isNone_iff_eq_none, Option.ite_none_right_eq_some,
      Option.some.injEq] at hstep
    obtain ⟨⟨hidle, hi⟩, rfl⟩ := hstep
    exact ⟨_, _, _, _, h.receive hidle hi⟩
  | call list op =>
    simp only [Daq.rxStep, Option.isNone_iff_eq_none, Option.ite_none_right_eq_some,
      Option.some.injEq] at hstep
    obtain ⟨⟨hidle, huses, hnodes⟩, rfl⟩ := hstep
    have hbuffer (node : Addr) (hn : node ∈ op.given) : ∃ i, node = .inr i := by
      obtain ⟨i, rfl, -⟩ :=
        (h.buffers.mem_hand node).mp (List.mem_append_right s.coming (hnodes node hn))
      exact ⟨i, rfl⟩
    obtain ⟨given, hgiven⟩ : ∃ given : List Nat, op.given = given.map .inr := by
      cases op with
      | init => exact ⟨[], rfl⟩
      | insertTail node =>
        obtain ⟨i, rfl⟩ := hbuffer node List.mem_cons_self
        exact ⟨[i], rfl⟩
      | insertHead node =>
        obtain ⟨i, rfl⟩ := hbuffer node List.mem_cons_self
        exact ⟨[i], rfl⟩
      | removeHead => exact ⟨[], rfl⟩
    have hhand (i : Nat) (hi : i ∈ given) : .inr i ∈ s.rx.hand := by
      apply hnodes
      rw [hgiven]
      exact List.mem_map_of_mem hi
    obtain ⟨own', σ', h'⟩ := h.call hidle huses hgiven hhand
    exact ⟨own', σ', _, _, h'⟩
  | access =>
    simp only [Daq.rxStep] at hstep
    split at hstep
    · rename_i op p hbusy
      obtain rfl := Option.some.inj hstep
      exact ⟨_, _, _, _, h.access hbusy hok⟩
    · exact absurd hstep nofun
  | «return» =>
    simp only [Daq.rxStep] at hstep
    split at hstep
    · rename_i op node hbusy
      obtain rfl := Option.some.inj hstep
      exact ⟨_, _, _, _, h.return' hbusy⟩
    · exact absurd hstep nofun
  | free node =>
    simp only [Daq.rxStep, Option.isNone_iff_eq_none, Option.ite_none_right_eq_some,
      Option.some.injEq] at hstep
    obtain ⟨⟨hidle, hnode⟩, rfl⟩ := hstep
    obtain ⟨i, rfl, -⟩ := (h.buffers.mem_hand node).mp (List.mem_append_right s.coming hnode)
    exact ⟨_, _, _, _, h.freeHand hidle hnode⟩
  | allocate =>
    simp only [Daq.rxStep] at hstep
    split at hstep
    · rename_i pool event hidle hnone hpop
      obtain rfl := Option.some.inj hstep
      obtain ⟨ps', h'⟩ := h.allocate hidle hnone hpop
      exact ⟨_, _, ps', _, h'⟩
    · exact absurd hstep nofun
  | trigger sequence =>
    simp only [Daq.rxStep] at hstep
    split at hstep
    · rename_i event hrx
      obtain rfl := Option.some.inj hstep
      exact ⟨_, _, _, _, h.trigger hrx sequence hok⟩
    · exact absurd hstep nofun
  | post =>
    simp only [Daq.rxStep] at hstep
    split at hstep
    · rename_i event hrx
      simp only [Option.isNone_iff_eq_none, Option.ite_none_right_eq_some,
        Option.some.injEq] at hstep
      obtain ⟨⟨hidle, hprep⟩, rfl⟩ := hstep
      obtain ⟨own', qs', h'⟩ := h.post hidle hrx hprep
      exact ⟨own', _, _, qs', h'⟩
    · exact absurd hstep nofun

theorem txStep (h : ThreadInv bCount s own σ ps qs) {transfer : Transfer}
    (hok : Undisturbed s (.tx transfer)) (hstep : txStep garbage bCount transfer s = some t) :
    ∃ own' σ' ps' qs', ThreadInv bCount t own' σ' ps' qs' := by
  cases hpc : s.tx.pc with
  | pop =>
    simp only [Daq.txStep, hpc] at hstep
    split at hstep
    · rename_i txReqQueue event hpop
      obtain rfl := Option.some.inj hstep
      obtain ⟨qs', h'⟩ := h.pop hpc hpop
      exact ⟨_, _, _, qs', h'⟩
    · exact absurd hstep nofun
  | send job =>
    simp only [Daq.txStep, hpc] at hstep
    cases transfer with
    | blowOff =>
      obtain rfl := Option.some.inj hstep
      exact ⟨_, _, _, _, h.send hpc false⟩
    | tcp sent =>
      obtain rfl := Option.some.inj hstep
      exact ⟨_, _, _, _, h.send hpc sent⟩
    | rssi sent =>
      obtain rfl := Option.some.inj hstep
      obtain ⟨own', h'⟩ := h.sendRssi hpc sent
      exact ⟨own', _, _, _, h'⟩
  | first job idx =>
    simp only [Daq.txStep, hpc] at hstep
    obtain rfl := Option.some.inj hstep
    obtain ⟨own', h'⟩ := h.first hpc
    exact ⟨own', _, _, _, h'⟩
  | test job idx node count =>
    by_cases hnode : node = .inl (.contrib job.event idx)
    · simp only [Daq.txStep, hpc, if_pos hnode] at hstep
      obtain rfl := Option.some.inj hstep
      exact ⟨_, _, _, _, h.leaveLoop hpc hnode⟩
    · obtain ⟨hindex, hcount, own', h'⟩ := h.test garbage hok hpc hnode
      simp only [Daq.txStep, hpc, if_neg hnode, if_neg (Nat.not_lt.mpr hindex)] at hstep
      rw [if_neg (Nat.not_lt.mpr hcount)] at hstep
      obtain rfl := Option.some.inj hstep
      exact ⟨own', _, _, _, h'⟩
  | next job idx node count =>
    simp only [Daq.txStep, hpc] at hstep
    obtain rfl := Option.some.inj hstep
    exact ⟨_, _, _, _, h.next hpc⟩
  | prepare job idx rest =>
    have haccess := h.prepareAccess hpc
    cases rest with
    | done r =>
      rcases dest_cases idx with rfl | rfl
      · simp only [Daq.txStep, hpc, if_true] at hstep
        obtain rfl := Option.some.inj hstep
        exact ⟨_, _, _, _, h.prepared_zero hpc⟩
      · simp only [Daq.txStep, hpc] at hstep
        obtain rfl := Option.some.inj hstep
        exact ⟨_, _, _, _, h.prepared_one hpc⟩
    | load c next =>
      simp only [Daq.txStep, hpc] at hstep
      obtain rfl := Option.some.inj hstep
      exact ⟨_, _, _, _, haccess⟩
    | store c v next =>
      simp only [Daq.txStep, hpc] at hstep
      obtain rfl := Option.some.inj hstep
      exact ⟨_, _, _, _, haccess⟩
  | deallocate job =>
    simp only [Daq.txStep, hpc] at hstep
    obtain rfl := Option.some.inj hstep
    obtain ⟨ps', h'⟩ := h.deallocate hpc
    exact ⟨_, _, ps', _, h'⟩
  | record job =>
    simp only [Daq.txStep, hpc] at hstep
    obtain rfl := Option.some.inj hstep
    exact ⟨_, _, _, _, h.record hpc⟩
  | exited =>
    simp only [Daq.txStep, hpc] at hstep
    exact absurd hstep nofun

/-- A step of either thread keeps the invariant. -/
theorem step (h : ThreadInv bCount s own σ ps qs) {a : ThreadStep}
    (hok : Undisturbed s a) (hstep : s.step garbage bCount a = some t) :
    ∃ own' σ' ps' qs', ThreadInv bCount t own' σ' ps' qs' := by
  unfold Threads.step at hstep
  split at hstep
  · exact absurd hstep nofun
  · exact h.rxStep hok hstep
  · exact h.txStep hok hstep

theorem run (h : s.Run garbage bCount Undisturbed t)
    (hs : ThreadInv bCount s own σ ps qs) :
    ∃ own' σ' ps' qs', ThreadInv bCount t own' σ' ps' qs' := by
  induction h with
  | refl => exact ⟨own, σ, ps, qs, hs⟩
  | tail a _ hok hstep ih =>
    obtain ⟨own', σ', ps', qs', h'⟩ := ih
    exact h'.step hok hstep

/-- The transmit thread has done what it should. -/
theorem exact (h : ThreadInv bCount s own σ ps qs) : s.Exact := by
  refine ⟨h.history.walks, h.history.frees, h.history.updates, ?_, ?_⟩
  · intro job hjob
    have htx := h.tx
    -- the buffers of a list follow those returned before it
    have hbefore (idx : Dest) (xs : List Nat) (hxs : xs <+: job.bufs idx) :
        job.before idx ++ xs <+: job.bufs 0 ++ job.bufs 1 := by
      rcases dest_cases idx with rfl | rfl
      · exact hxs.trans (List.prefix_append _ _)
      · exact (List.prefix_append_right_inj _).mpr hxs
    cases hpc : s.tx.pc with
    | first job' idx =>
      rw [hpc] at htx hjob
      obtain rfl := Option.some.inj hjob
      cases htx with
      | first hwalk hok hkept hret =>
        rw [hret, ← List.append_nil (Job.before _ _)]
        exact ⟨hbefore idx [] List.nil_prefix, hok.nodup⟩
    | test job' idx node count =>
      rw [hpc] at htx hjob
      obtain rfl := Option.some.inj hjob
      cases htx with
      | test hwalk hok hkept hbufs hret hchain hcount =>
        rw [hret]
        exact ⟨hbefore idx _ ⟨_, hbufs.symm⟩, hok.nodup⟩
    | next job' idx node count =>
      rw [hpc] at htx hjob
      obtain rfl := Option.some.inj hjob
      cases htx with
      | next hwalk hok hkept hbufs hret hchain hcount =>
        rw [hret]
        rw [List.append_cons] at hbufs
        exact ⟨hbefore idx _ ⟨_, hbufs.symm⟩, hok.nodup⟩
    | prepare job' idx rest =>
      rw [hpc] at htx hjob
      obtain rfl := Option.some.inj hjob
      cases htx with
      | prepare hwalk hok hkept hret hrest =>
        rw [hret]
        exact ⟨hbefore idx _ (List.prefix_refl _), hok.nodup⟩
    | pop => rw [hpc] at hjob; exact absurd hjob nofun
    | send job' => rw [hpc] at hjob; exact absurd hjob nofun
    | deallocate job' => rw [hpc] at hjob; exact absurd hjob nofun
    | record job' => rw [hpc] at hjob; exact absurd hjob nofun
    | exited => rw [hpc] at hjob; exact absurd hjob nofun
  · intro hexit
    have htx := h.tx
    rw [hexit] at htx
    cases htx

end ThreadInv

/-- In every run whose steps leave alone what the transmit thread has yet to read, `Event::free`
returns what it should and the statistics are those of the event sent. -/
theorem free_exact (hb : 0 < bCount) (hr : 0 < rxCount)
    (h : (Threads.start bCount rxCount).Run garbage bCount Undisturbed t) : t.Exact := by
  obtain ⟨own, σ, ps, qs, hinv⟩ := ThreadInv.run h (.start hb hr)
  exact hinv.exact

/-- A step that meets `ok`. -/
def Threads.stepIf (garbage : Head → Nat) (bCount : Nat) (ok : Threads → ThreadStep → Prop)
    [∀ s a, Decidable (ok s a)] (s : Threads) (a : ThreadStep) : Option Threads :=
  if ok s a then s.step garbage bCount a else none

/-- A run takes the given steps. -/
theorem Threads.Run.foldlM {ok : Threads → ThreadStep → Prop} [∀ s a, Decidable (ok s a)]
    (h : s.Run garbage bCount ok t) {steps : List ThreadStep} {u : Threads}
    (hu : steps.foldlM (Threads.stepIf garbage bCount ok) t = some u) :
    s.Run garbage bCount ok u := by
  induction steps generalizing t with
  | nil =>
    obtain rfl := Option.some.inj hu
    exact h
  | cons a steps ih =>
    rw [List.foldlM_cons] at hu
    obtain ⟨v, hv, hu⟩ := Option.bind_eq_some_iff.mp hu
    rw [Threads.stepIf, Option.ite_none_right_eq_some] at hv
    exact ih (h.tail a hv.1 hv.2) hu

/-- A call of a list operation with its accesses. -/
def ThreadStep.whole (list : Head) (op : ListOp Addr) (accesses : Nat) : List ThreadStep :=
  .rx (.call list op) :: List.replicate accesses (.rx .access) ++ [.rx .return]

/-- An event with buffer 0 is posted, taken and its buffer returned. -/
def oneEvent : List ThreadStep :=
  [.rx (.receive 0), .rx .allocate] ++
    ThreadStep.whole (.contrib 0 0) .init 3 ++ ThreadStep.whole (.contrib 0 1) .init 3 ++
    ThreadStep.whole (.contrib 0 0) (.insertTail (.inr 0)) 4 ++
    [.rx (.trigger 1), .rx .post, .tx (.tcp true), .tx (.tcp true), .tx (.tcp true), .tx (.tcp true)]

/-- The next packet comes into the same buffer, and waits until `free` has left it. -/
def patient : List ThreadStep :=
  oneEvent ++ [.rx (.receive 0)] ++ List.replicate 14 (.tx (.tcp true))

theorem free_exact_oneEvent : ∃ t : Threads,
    (Threads.start 3 3).Run (fun _ => 0) 3 Undisturbed t ∧
      t.history.updates = [(1, 1)] ∧ t.rx.hand = [.inr 0] ∧ t.Exact := by
  have hend : (patient.foldlM (Threads.stepIf (fun _ => 0) 3 Undisturbed) (Threads.start 3 3)).map
      (fun t => (t.history.updates, t.rx.hand)) = some ([(1, 1)], [.inr 0]) := by decide +kernel
  obtain ⟨t, ht, hout⟩ := Option.map_eq_some_iff.mp hend
  obtain ⟨hupdates, hhand⟩ := Prod.mk.inj hout
  have hrun := Threads.Run.refl.foldlM ht
  exact ⟨t, hrun, hupdates, hhand, free_exact (by decide) (by decide) hrun⟩

/-- Before `free` loads its `m_flnk`, buffer 0 comes onto a latency list in front of buffer 1. -/
def reusedLink : List ThreadStep :=
  oneEvent ++
    [.rx (.receive 0)] ++ ThreadStep.whole (.latency 0) (.insertTail (.inr 0)) 4 ++
    [.rx (.receive 1)] ++ ThreadStep.whole (.latency 0) (.insertTail (.inr 1)) 4 ++
    [.tx (.tcp true), .tx (.tcp true)]

/-- `free` then returns buffer 1, which is not of the event. -/
theorem free_follows_reused_link : ¬ ∀ t : Threads,
    (Threads.start 3 3).Run (fun _ => 0) 3 (fun _ _ => True) t → t.Exact := by
  intro hall
  have hend : (reusedLink.foldlM (Threads.stepIf (fun _ => 0) 3 fun _ _ => True)
      (Threads.start 3 3)).map
      (fun t => (t.tx.returned, t.tx.pc.freeing.map fun job => job.bufs 0 ++ job.bufs 1)) =
      some ([0, 1], some [0]) := by decide +kernel
  obtain ⟨t, ht, hout⟩ := Option.map_eq_some_iff.mp hend
  obtain ⟨hreturned, hfreeing⟩ := Prod.mk.inj hout
  obtain ⟨job, hjob, hbufs⟩ := Option.map_eq_some_iff.mp hfreeing
  have hprefix := ((hall t (Threads.Run.refl.foldlM ht)).call job hjob).1
  rw [hreturned, hbufs] at hprefix
  exact absurd hprefix.length_le (by decide)

end ProtoDune.Daq
