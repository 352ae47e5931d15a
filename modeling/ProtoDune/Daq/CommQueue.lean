import ProtoDune.Lib.Ring

/-!
# `CommQueue`

The circular queue of `generic/CommQueue.cpp`. Every call runs under the mutex
of the queue, so a call is one atomic step; the waiting a call may do before it
looks at the positions changes nothing.
-/

namespace ProtoDune.Daq

structure CommQueue (α : Type*) where
  size : Nat
  read : Nat
  write : Nat
  count : Nat
  data : Nat → Option α

namespace CommQueue

variable {α : Type*} {q : CommQueue α} {xs : List α} {x : α}

/-- The constructor. The memory of the slots is not initialised. -/
def new (size : Nat) : CommQueue α where
  size
  read := 0
  write := 0
  count := 0
  data := fun _ => none

/-- `push`, with its result. A full queue is left as it is. -/
def push (q : CommQueue α) (ptr : α) : CommQueue α × Bool :=
  let next := (q.write + 1) % q.size
  if next = q.read then (q, false)
  else
    ({ q with
      data := Function.update q.data q.write (some ptr)
      write := next
      count := q.count + 1 }, true)

/-- `pop`: a null pointer if the queue is empty. -/
def pop (q : CommQueue α) : CommQueue α × Option α :=
  if q.read = q.write then (q, none)
  else
    let next := (q.read + 1) % q.size
    ({ q with read := next, count := q.count - 1 }, q.data q.read)

/-- The elements between the read and the write position, first to be popped first. -/
def contents (q : CommQueue α) : List α :=
  (List.range ((q.write + q.size - q.read) % q.size)).filterMap fun i =>
    q.data ((q.read + i) % q.size)

/-- The queue stores the elements `xs`, first to be popped first. -/
structure Holds (q : CommQueue α) (xs : List α) : Prop where
  ring : Ring.Holds q.size q.read q.write q.data xs
  count_eq : q.count = xs.length

namespace Holds

theorem new {size : Nat} (h : 0 < size) : (CommQueue.new size : CommQueue α).Holds [] :=
  ⟨.empty h, rfl⟩

theorem length_lt (h : q.Holds xs) : xs.length < q.size := h.ring.room

theorem contents_eq (h : q.Holds xs) : q.contents = xs := by
  have hr := h.ring.read_lt
  have hroom := h.ring.room
  have hlen : (q.write + q.size - q.read) % q.size = xs.length := by
    rw [h.ring.write_eq, Ring.slot_eq hr (by omega)]
    split
    · rw [Nat.mod_eq_sub_mod (by omega), Nat.mod_eq_of_lt (by omega)]
      omega
    · rw [Nat.mod_eq_of_lt (by omega)]
      omega
  have hmap : (List.range xs.length).map (fun i => q.data ((q.read + i) % q.size)) =
      xs.map some := by
    refine List.ext_getElem (by simp) fun i hi _ => ?_
    rw [List.length_map, List.length_range] at hi
    simp [h.ring.slots i hi]
  unfold contents
  rw [hlen]
  calc (List.range xs.length).filterMap (fun i => q.data ((q.read + i) % q.size))
      = ((List.range xs.length).map fun i => q.data ((q.read + i) % q.size)).filterMap id := by
        rw [List.filterMap_map]
        rfl
    _ = xs := by rw [hmap, List.filterMap_map]; exact List.filterMap_some

theorem push_full (h : q.Holds xs) (hfull : xs.length + 1 = q.size) :
    q.push x = (q, false) := by
  unfold CommQueue.push
  exact if_pos (h.ring.next_eq_read_iff.mpr hfull)

theorem push (h : q.Holds xs) (hroom : xs.length + 1 < q.size) :
    ∃ q', q.push x = (q', true) ∧ q'.size = q.size ∧ q'.Holds (xs ++ [x]) := by
  have hne : (q.write + 1) % q.size ≠ q.read := fun heq => by
    have := h.ring.next_eq_read_iff.mp heq
    omega
  unfold CommQueue.push
  refine ⟨_, if_neg hne, rfl, h.ring.push hroom, ?_⟩
  simp [h.count_eq]

/-- Whatever the outcome of a push, its element or nothing was appended. -/
theorem push_cases (h : q.Holds xs) :
    (xs.length + 1 < q.size ∧
      ∃ q', q.push x = (q', true) ∧ q'.size = q.size ∧ q'.Holds (xs ++ [x])) ∨
    (xs.length + 1 = q.size ∧ q.push x = (q, false)) := by
  rcases Nat.lt_or_ge (xs.length + 1) q.size with hlt | hge
  · exact .inl ⟨hlt, h.push hlt⟩
  · have hfull : xs.length + 1 = q.size := by
      have := h.length_lt
      omega
    exact .inr ⟨hfull, h.push_full hfull⟩

theorem pop_nil (h : q.Holds []) : q.pop = (q, none) := by
  unfold CommQueue.pop
  exact if_pos (h.ring.read_eq_write_iff.mpr rfl)

theorem pop_cons (h : q.Holds (x :: xs)) :
    ∃ q', q.pop = (q', some x) ∧ q'.size = q.size ∧ q'.Holds xs := by
  have hne : q.read ≠ q.write := fun heq => by
    simpa using h.ring.read_eq_write_iff.mp heq
  unfold CommQueue.pop
  refine ⟨{ q with read := (q.read + 1) % q.size, count := q.count - 1 }, ?_, rfl,
    h.ring.pop, ?_⟩
  · rw [if_neg hne, h.ring.first]
  · simp [h.count_eq]

end Holds

end CommQueue

end ProtoDune.Daq
