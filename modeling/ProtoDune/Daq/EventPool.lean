import Mathlib.Data.List.Nodup
import Mathlib.Data.List.Perm.Basic
import Mathlib.Data.List.Range
import ProtoDune.Daq.CommQueue

/-!
# The event descriptors

`EventPool` owns `nevents` event descriptors. The receive thread takes one from
the pool, builds an event in it and queues it on `_txReqQueue`; the transmit
thread takes it from there and gives it back to the pool. The results of the
pushes are not looked at.

Main results:

* `pool_never_conserves` — the ring of the pool holds one descriptor fewer than
  it is given, so that the last descriptor is nowhere, in every state.
* `pool_conserves_rest` — the other descriptors are conserved, provided that
  the request queue is as large as the pool.
* `request_queue_loses` — with a smaller request queue there is a run which
  loses another descriptor.
-/

namespace ProtoDune.Daq

/-- `EventPool::EventPool`: the descriptors are named by their index. -/
def eventPool (nevents : Nat) : CommQueue Nat :=
  (List.range nevents).foldl (fun pool idx => (pool.push idx).1) (CommQueue.new nevents)

/-- The places a descriptor can be in. -/
structure Descriptors where
  pool : CommQueue Nat
  txReqQueue : CommQueue Nat
  /-- `event` of `rxRun` -/
  rxEvent : Option Nat
  /-- `event` of `txRun` -/
  txEvent : Option Nat

/-- The steps of the two threads. -/
inductive PoolStep where
  | allocate
  | post
  | pop
  | free
deriving DecidableEq

namespace Descriptors

/-- The state in which the threads start. -/
def start (nevents rxCount : Nat) : Descriptors where
  pool := eventPool nevents
  txReqQueue := .new rxCount
  rxEvent := none
  txEvent := none

/-- One step, `none` where the thread is not at it. -/
def step (s : Descriptors) : PoolStep → Option Descriptors
  | .allocate =>
      match s.rxEvent, s.pool.pop with
      | none, (pool, some e) => some { s with pool, rxEvent := some e }
      -- the program exits when the pool is empty
      | _, _ => none
  | .post =>
      match s.rxEvent with
      | some e => some { s with txReqQueue := (s.txReqQueue.push e).1, rxEvent := none }
      | none => none
  | .pop =>
      match s.txEvent with
      | none =>
          let (txReqQueue, txEvent) := s.txReqQueue.pop
          some { s with txReqQueue, txEvent }
      | some _ => none
  | .free =>
      match s.txEvent with
      | some e => some { s with pool := (s.pool.push e).1, txEvent := none }
      | none => none

/-- The states of the runs from `s`. -/
inductive Run (s : Descriptors) : Descriptors → Prop where
  | refl : Run s s
  | tail {t u : Descriptors} (a : PoolStep) : Run s t → t.step a = some u → Run s u

/-- The descriptors in the four places, with repetition. -/
def places (s : Descriptors) : List Nat :=
  s.pool.contents ++ s.rxEvent.toList ++ s.txReqQueue.contents ++ s.txEvent.toList

/-- Each of the first `n` descriptors is in exactly one place. -/
def Conserves (n : Nat) (s : Descriptors) : Prop := ∀ d < n, s.places.count d = 1

instance (n : Nat) (s : Descriptors) : Decidable (s.Conserves n) :=
  inferInstanceAs (Decidable (∀ d < n, s.places.count d = 1))

end Descriptors

/-! ## The constructor -/

variable {nevents rxCount : Nat}

/-- While there is room the constructor fills the pool. -/
theorem eventPool_push (k : Nat) (hk : k < nevents) :
    let q := (List.range k).foldl (fun pool idx => (pool.push idx).1) (CommQueue.new nevents)
    q.size = nevents ∧ q.Holds (List.range k) := by
  induction k with
  | zero => exact ⟨rfl, .new hk⟩
  | succ k ih =>
    obtain ⟨hsize, hq⟩ := ih (by omega)
    obtain ⟨q', hpush, hsize', hq'⟩ := hq.push (x := k) (by rw [hsize, List.length_range]; omega)
    rw [List.range_succ, List.foldl_append]
    simp only [List.foldl_cons, List.foldl_nil, hpush]
    exact ⟨hsize'.trans hsize, hq'⟩

/-- The pool misses the last descriptor: its push finds the ring full. -/
theorem eventPool_holds (hn : 0 < nevents) :
    (eventPool nevents).size = nevents ∧ (eventPool nevents).Holds (List.range (nevents - 1)) := by
  obtain ⟨n, rfl⟩ : ∃ n, nevents = n + 1 := ⟨nevents - 1, by omega⟩
  obtain ⟨hsize, hq⟩ := eventPool_push n (Nat.lt_succ_self n)
  have hpush := hq.push_full (x := n) (by rw [hsize, List.length_range])
  unfold eventPool
  rw [List.range_succ, List.foldl_append]
  simp only [List.foldl_cons, List.foldl_nil, hpush]
  exact ⟨hsize, hq⟩

/-! ## The last descriptor -/

/-- No slot of the queue was ever written with `d`. -/
def CommQueue.Misses (q : CommQueue Nat) (d : Nat) : Prop := ∀ i, q.data i ≠ some d

namespace CommQueue.Misses

variable {q : CommQueue Nat} {d e : Nat}

theorem push (h : q.Misses d) (he : e ≠ d) : (q.push e).1.Misses d := by
  unfold CommQueue.push
  dsimp only
  split
  · exact h
  · intro i
    show Function.update q.data q.write (some e) i ≠ some d
    by_cases hi : i = q.write
    · rw [hi, Function.update_self]
      simpa using he
    · rw [Function.update_of_ne hi]
      exact h i

theorem pop (h : q.Misses d) : q.pop.1.Misses d ∧ q.pop.2 ≠ some d := by
  unfold CommQueue.pop
  split
  · exact ⟨h, nofun⟩
  · exact ⟨h, h q.read⟩

theorem not_mem_contents (h : q.Misses d) : d ∉ q.contents := by
  intro hd
  obtain ⟨i, -, hi⟩ := List.mem_filterMap.mp hd
  exact h _ hi

end CommQueue.Misses

/-- The last descriptor is never written into the pool. -/
theorem eventPool_misses (hn : 0 < nevents) : (eventPool nevents).Misses (nevents - 1) := by
  obtain ⟨n, rfl⟩ : ∃ n, nevents = n + 1 := ⟨nevents - 1, by omega⟩
  have hfill : ∀ k ≤ n, ((List.range k).foldl (fun pool idx => (pool.push idx).1)
      (CommQueue.new (n + 1))).Misses n := by
    intro k
    induction k with
    | zero => exact fun _ _ => nofun
    | succ k ih =>
      intro hk
      rw [List.range_succ, List.foldl_append]
      exact (ih (by omega)).push (by omega)
  obtain ⟨hsize, hq⟩ := eventPool_push n (Nat.lt_succ_self n)
  have hpush := hq.push_full (x := n) (by rw [hsize, List.length_range])
  unfold eventPool
  rw [List.range_succ, List.foldl_append]
  simp only [List.foldl_cons, List.foldl_nil, hpush]
  exact hfill n (Nat.le_refl n)

namespace Descriptors

variable {s t : Descriptors} {a : PoolStep} {d : Nat}

/-- What a step does. -/
theorem step_cases (h : s.step a = some t) :
    (∃ e pool, s.rxEvent = none ∧ s.pool.pop = (pool, some e) ∧
      t = { s with pool, rxEvent := some e }) ∨
    (∃ e, s.rxEvent = some e ∧
      t = { s with txReqQueue := (s.txReqQueue.push e).1, rxEvent := none }) ∨
    (s.txEvent = none ∧
      t = { s with txReqQueue := s.txReqQueue.pop.1, txEvent := s.txReqQueue.pop.2 }) ∨
    (∃ e, s.txEvent = some e ∧ t = { s with pool := (s.pool.push e).1, txEvent := none }) := by
  cases a with
  | allocate =>
    simp only [step] at h
    split at h
    · rename_i pool e hrx hpop
      exact .inl ⟨e, pool, hrx, hpop, (Option.some.inj h).symm⟩
    · cases h
  | post =>
    simp only [step] at h
    split at h
    · rename_i e hrx
      exact .inr (.inl ⟨e, hrx, (Option.some.inj h).symm⟩)
    · cases h
  | pop =>
    simp only [step] at h
    split at h
    · rename_i htx
      exact .inr (.inr (.inl ⟨htx, (Option.some.inj h).symm⟩))
    · cases h
  | free =>
    simp only [step] at h
    split at h
    · rename_i e htx
      exact .inr (.inr (.inr ⟨e, htx, (Option.some.inj h).symm⟩))
    · cases h

/-- Descriptor `d` is in no place, nor was it ever in a queue. -/
structure Lost (s : Descriptors) (d : Nat) : Prop where
  pool : s.pool.Misses d
  txReqQueue : s.txReqQueue.Misses d
  rxEvent : s.rxEvent ≠ some d
  txEvent : s.txEvent ≠ some d

theorem Lost.step (h : s.Lost d) (hst : s.step a = some t) : t.Lost d := by
  rcases step_cases hst with ⟨e, pool, -, hpop, rfl⟩ | ⟨e, hrx, rfl⟩ | ⟨-, rfl⟩ | ⟨e, htx, rfl⟩
  · have hmiss := h.pool.pop
    rw [hpop] at hmiss
    exact ⟨hmiss.1, h.txReqQueue, hmiss.2, h.txEvent⟩
  · have he : e ≠ d := fun heq => h.rxEvent (by rw [hrx, heq])
    exact ⟨h.pool, h.txReqQueue.push he, nofun, h.txEvent⟩
  · exact ⟨h.pool, h.txReqQueue.pop.1, h.rxEvent, h.txReqQueue.pop.2⟩
  · have he : e ≠ d := fun heq => h.txEvent (by rw [htx, heq])
    exact ⟨h.pool.push he, h.txReqQueue, h.rxEvent, nofun⟩

theorem Lost.run (h : s.Lost d) (hrun : Run s t) : t.Lost d := by
  induction hrun with
  | refl => exact h
  | tail a _ hst ih => exact ih.step hst

theorem start_lost (hn : 0 < nevents) : (start nevents rxCount).Lost (nevents - 1) :=
  ⟨eventPool_misses hn, fun _ => nofun, nofun, nofun⟩

theorem Lost.not_mem_places (h : s.Lost d) : d ∉ s.places := by
  unfold places
  have hrx := h.rxEvent
  have htx := h.txEvent
  simp [h.pool.not_mem_contents, h.txReqQueue.not_mem_contents, Option.mem_toList, hrx, htx]

end Descriptors

open Descriptors in
/-- **The pool loses a descriptor.** Whatever the sizes of the pool and of the
request queue, no state of any run has all the descriptors of the pool. -/
theorem pool_never_conserves (nevents rxCount : Nat) (hn : 0 < nevents) (s : Descriptors)
    (hrun : Run (start nevents rxCount) s) : ¬ s.Conserves nevents := by
  intro h
  have hlost := (start_lost hn).run hrun
  have hcount := h (nevents - 1) (by omega)
  rw [List.count_eq_zero_of_not_mem hlost.not_mem_places] at hcount
  exact absurd hcount nofun

open Descriptors in
theorem pool_never_conserves_four :
    ∃ s, Run (start 4 8) s ∧ s.txEvent = some 0 ∧ ¬ s.Conserves 4 := by
  refine ⟨(((start 4 8).step .allocate >>= (step · .post)) >>= (step · .pop)).get (by decide),
    ?run, by decide, pool_never_conserves 4 8 (by decide) _ ?run⟩
  exact ((Run.refl.tail .allocate rfl).tail .post rfl).tail .pop rfl

open Descriptors in
/-- A pool of four holds three descriptors when the threads start. -/
theorem pool_of_four_loses : ¬ ∀ s, Run (start 4 8) s → s.Conserves 4 :=
  fun h => absurd (h _ .refl) (by decide)

/-! ## The other descriptors -/

namespace Descriptors

variable {s t : Descriptors} {a : PoolStep}

/-- The queues store `ps` and `qs`, and all descriptors but the last are in one place. -/
structure Accounted (nevents rxCount : Nat) (s : Descriptors) (ps qs : List Nat) : Prop where
  pool_size : s.pool.size = nevents
  pool : s.pool.Holds ps
  req_size : s.txReqQueue.size = rxCount
  req : s.txReqQueue.Holds qs
  perm : (ps ++ s.rxEvent.toList ++ qs ++ s.txEvent.toList).Perm (List.range (nevents - 1))

namespace Accounted

variable {ps qs : List Nat} {e : Nat}

theorem length_eq (h : Accounted nevents rxCount s ps qs) :
    ps.length + s.rxEvent.toList.length + qs.length + s.txEvent.toList.length = nevents - 1 := by
  have := h.perm.length_eq
  simp only [List.length_append, List.length_range] at this
  exact this

theorem post_room (h : Accounted nevents rxCount s ps qs) (hreq : nevents ≤ rxCount)
    (hrx : s.rxEvent = some e) : qs.length + 1 < s.txReqQueue.size := by
  have hlen := h.length_eq
  have hlt := h.pool.length_lt
  rw [hrx] at hlen
  simp only [Option.toList_some, List.length_singleton] at hlen
  rw [h.pool_size] at hlt
  rw [h.req_size]
  omega

theorem free_room (h : Accounted nevents rxCount s ps qs) (htx : s.txEvent = some e) :
    ps.length + 1 < s.pool.size := by
  have hlen := h.length_eq
  have hlt := h.pool.length_lt
  rw [htx] at hlen
  simp only [Option.toList_some, List.length_singleton] at hlen
  rw [h.pool_size] at hlt ⊢
  omega

theorem step (h : Accounted nevents rxCount s ps qs) (hreq : nevents ≤ rxCount)
    (hst : s.step a = some t) : ∃ ps' qs', Accounted nevents rxCount t ps' qs' := by
  have hperm := h.perm
  rcases step_cases hst with ⟨e, pool, hrx, hpop, rfl⟩ | ⟨e, hrx, rfl⟩ | ⟨htx, rfl⟩ |
    ⟨e, htx, rfl⟩
  · cases ps with
    | nil =>
      rw [h.pool.pop_nil] at hpop
      cases hpop
    | cons p ps =>
      obtain ⟨q', hq', hsize, hholds⟩ := h.pool.pop_cons
      rw [hpop] at hq'
      obtain ⟨rfl, hp⟩ := Prod.mk.inj hq'
      obtain rfl := Option.some.inj hp
      refine ⟨ps, qs, hsize.trans h.pool_size, hholds, h.req_size, h.req, ?_⟩
      rw [hrx] at hperm
      refine List.Perm.trans ?_ hperm
      simp only [Option.toList_none, Option.toList_some, List.append_nil, List.append_assoc,
        List.cons_append]
      exact List.perm_middle
  · obtain ⟨q', hq', hsize, hholds⟩ := h.req.push (x := e) (h.post_room hreq hrx)
    refine ⟨ps, qs ++ [e], h.pool_size, h.pool, ?_, ?_, ?_⟩
    · exact (congrArg (fun p => p.1.size) hq').trans (hsize.trans h.req_size)
    · exact (congrArg Prod.fst hq') ▸ hholds
    · rw [hrx] at hperm
      refine List.Perm.trans ?_ hperm
      simp only [Option.toList_none, Option.toList_some, List.append_nil, List.append_assoc,
        List.singleton_append]
      exact List.Perm.append_left ps List.perm_middle
  · cases qs with
    | nil =>
      have hq' := h.req.pop_nil
      exact ⟨ps, [], h.pool_size, h.pool, by rw [hq']; exact h.req_size,
        by rw [hq']; exact h.req, by rw [hq']; rwa [htx] at hperm⟩
    | cons q qs =>
      obtain ⟨q', hq', hsize, hholds⟩ := h.req.pop_cons
      refine ⟨ps, qs, h.pool_size, h.pool, ?_, ?_, ?_⟩
      · rw [hq']
        exact hsize.trans h.req_size
      · rw [hq']
        exact hholds
      · rw [hq']
        rw [htx] at hperm
        refine List.Perm.trans ?_ hperm
        simp only [Option.toList_none, Option.toList_some, List.append_nil, List.append_assoc]
        exact ((List.perm_append_singleton q qs).append_left _).append_left ps
  · obtain ⟨q', hq', hsize, hholds⟩ := h.pool.push (x := e) (h.free_room htx)
    refine ⟨ps ++ [e], qs, ?_, ?_, h.req_size, h.req, ?_⟩
    · exact (congrArg (fun p => p.1.size) hq').trans (hsize.trans h.pool_size)
    · exact (congrArg Prod.fst hq') ▸ hholds
    · rw [htx] at hperm
      refine List.Perm.trans ?_ hperm
      simp only [Option.toList_none, Option.toList_some, List.append_nil, List.append_assoc,
        List.singleton_append]
      refine List.Perm.append_left ps ?_
      rw [← List.append_assoc]
      exact (List.perm_append_singleton e _).symm

theorem run (h : Accounted nevents rxCount s ps qs) (hreq : nevents ≤ rxCount)
    (hrun : Run s t) : ∃ ps' qs', Accounted nevents rxCount t ps' qs' := by
  induction hrun with
  | refl => exact ⟨ps, qs, h⟩
  | tail a _ hst ih =>
    obtain ⟨ps', qs', h'⟩ := ih
    exact h'.step hreq hst

end Accounted

theorem start_accounted (hn : 0 < nevents) (hreq : 0 < rxCount) :
    Accounted nevents rxCount (start nevents rxCount) (List.range (nevents - 1)) [] := by
  obtain ⟨hsize, hq⟩ := eventPool_holds hn
  refine ⟨hsize, hq, rfl, .new hreq, ?_⟩
  simp [start]

end Descriptors

open Descriptors in
/-- **The other descriptors are conserved** when the request queue has room for
them, and no push of the two threads fails. -/
theorem pool_conserves_rest (nevents rxCount : Nat) (hn : 0 < nevents) (hreq : nevents ≤ rxCount)
    (s : Descriptors) (hrun : Run (start nevents rxCount) s) :
    s.Conserves (nevents - 1) ∧
    (∀ e, s.rxEvent = some e → (s.txReqQueue.push e).2 = true) ∧
    (∀ e, s.txEvent = some e → (s.pool.push e).2 = true) := by
  obtain ⟨ps, qs, h⟩ := (start_accounted hn (by omega)).run hreq hrun
  refine ⟨?_, ?_, ?_⟩
  · intro d hd
    unfold places
    rw [h.pool.contents_eq, h.req.contents_eq, h.perm.count_eq]
    exact List.count_eq_one_of_mem List.nodup_range (List.mem_range.mpr hd)
  · intro e hrx
    obtain ⟨q', hq', -⟩ := h.req.push (x := e) (h.post_room hreq hrx)
    rw [hq']
  · intro e htx
    obtain ⟨q', hq', -⟩ := h.pool.push (x := e) (h.free_room htx)
    rw [hq']

/-! ## A short request queue -/

namespace Descriptors

variable {k : Nat}

/-- The state after `k` events were built and queued, with nothing transmitted. -/
structure Queued (nevents rxCount k : Nat) (s : Descriptors) : Prop where
  pool : s.pool.Holds (List.range' k (nevents - 1 - k))
  req_size : s.txReqQueue.size = rxCount
  req : s.txReqQueue.Holds (List.range k)
  rxEvent : s.rxEvent = none
  txEvent : s.txEvent = none

/-- The next event is taken from the pool and posted. -/
theorem Queued.post {s : Descriptors} (h : Queued nevents rxCount k s) (hk : k + 1 < nevents) :
    ∃ t pool, Run s t ∧ pool.Holds (List.range' (k + 1) (nevents - 1 - (k + 1))) ∧
      t = { s with pool, txReqQueue := (s.txReqQueue.push k).1, rxEvent := none } := by
  have hpool := h.pool
  have hsplit : List.range' k (nevents - 1 - k) =
      k :: List.range' (k + 1) (nevents - 1 - (k + 1)) := by
    rw [show nevents - 1 - k = nevents - 1 - (k + 1) + 1 by omega, List.range'_succ]
  rw [hsplit] at hpool
  obtain ⟨pool, hpop, -, hholds⟩ := hpool.pop_cons
  have halloc : s.step .allocate = some { s with pool, rxEvent := some k } := by
    simp only [step, h.rxEvent, hpop]
  exact ⟨_, pool, (Run.refl.tail .allocate halloc).tail .post rfl, hholds, rfl⟩

theorem Run.trans {s t u : Descriptors} (h : Run s t) (h' : Run t u) : Run s u := by
  induction h' with
  | refl => exact h
  | tail a _ hst ih => exact ih.tail a hst

theorem exists_queued (hn : 0 < nevents) (hreq : 0 < rxCount) (hk : k < nevents)
    (hk' : k < rxCount) : ∃ s, Run (start nevents rxCount) s ∧ Queued nevents rxCount k s := by
  induction k with
  | zero =>
    have hpool := (eventPool_holds hn).2
    rw [List.range_eq_range'] at hpool
    exact ⟨_, .refl, hpool, rfl, .new hreq, rfl, rfl⟩
  | succ k ih =>
    obtain ⟨s, hrun, h⟩ := ih (by omega) (by omega)
    obtain ⟨t, pool, hst, hpool, rfl⟩ := h.post hk
    obtain ⟨q', hq', hsize, hholds⟩ := h.req.push (x := k) (by
      rw [h.req_size, List.length_range]; omega)
    rw [← List.range_succ] at hholds
    refine ⟨_, hrun.trans hst, hpool, ?_, ?_, rfl, h.txEvent⟩
    · exact (congrArg (fun p => p.1.size) hq').trans (hsize.trans h.req_size)
    · exact (congrArg Prod.fst hq') ▸ hholds

end Descriptors

open Descriptors in
/-- **A short request queue loses descriptors.** With fewer slots than the pool
has events, an event is posted into a full queue. -/
theorem request_queue_loses (nevents rxCount : Nat) (hreq : 0 < rxCount)
    (hshort : rxCount < nevents) :
    ∃ s, Run (start nevents rxCount) s ∧ ¬ s.Conserves (nevents - 1) := by
  have hk : rxCount - 1 < nevents := by omega
  obtain ⟨s, hrun, h⟩ := exists_queued (by omega) hreq hk (Nat.sub_lt hreq Nat.one_pos)
  obtain ⟨t, pool, hst, hpool, rfl⟩ := h.post (by omega)
  have hfull := h.req.push_full (x := rxCount - 1) (by
    rw [h.req_size, List.length_range]; omega)
  refine ⟨_, hrun.trans hst, fun hcons => ?_⟩
  have hcount := hcons (rxCount - 1) (by omega)
  have hnot : rxCount - 1 ∉ Descriptors.places
      { s with pool, txReqQueue := (s.txReqQueue.push (rxCount - 1)).1, rxEvent := none } := by
    unfold places
    simp only [hfull]
    rw [hpool.contents_eq, h.req.contents_eq, h.txEvent]
    intro hmem
    simp only [List.mem_append, List.mem_range'_1, List.mem_range, Option.toList_none,
      List.not_mem_nil, or_false] at hmem
    omega
  rw [List.count_eq_zero_of_not_mem hnot] at hcount
  exact absurd hcount nofun

end ProtoDune.Daq
