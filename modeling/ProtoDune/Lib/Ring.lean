import Mathlib.Data.List.Basic
import Mathlib.Logic.Function.Basic

/-!
# Circular queues

A ring of `n` slots with a read and a write position stores a list of fewer
than `n` elements: one slot stays free, so that the two positions are equal
only when the ring is empty. `Ring.Holds` says that a ring stores a list.

Main results:

* `Holds.next_eq_read_iff` — the ring is full when it stores `n - 1` elements.
* `Holds.read_eq_write_iff` — the positions meet only on the empty ring.
* `Holds.push`, `Holds.pop` — writing at the write position appends, and
  advancing the read position removes the first element.
-/

namespace Ring

variable {α : Type*} {n r w i j : Nat} {data : Nat → Option α} {xs : List α} {x : α}

/-- The slot `i` places after `r`. -/
theorem slot_eq (hr : r < n) (hi : i ≤ n) :
    (r + i) % n = if r + i < n then r + i else r + i - n := by
  split
  · rename_i h
    exact Nat.mod_eq_of_lt h
  · rename_i h
    rw [Nat.mod_eq_sub_mod (by omega)]
    exact Nat.mod_eq_of_lt (by omega)

theorem slot_injective (hr : r < n) (hi : i < n) (hj : j < n)
    (h : (r + i) % n = (r + j) % n) : i = j := by
  rw [slot_eq hr (by omega), slot_eq hr (by omega)] at h
  split at h <;> split at h <;> omega

/-- The `n` slots from `r` in cyclic order up to `w` hold the list `xs`. -/
structure Holds (n r w : Nat) (data : Nat → Option α) (xs : List α) : Prop where
  read_lt : r < n
  room : xs.length < n
  write_eq : w = (r + xs.length) % n
  slots : ∀ i (h : i < xs.length), data ((r + i) % n) = some xs[i]

namespace Holds

theorem empty (hn : 0 < n) : Holds n 0 0 data [] :=
  ⟨hn, hn, by simp, fun _ h => absurd h (Nat.not_lt_zero _)⟩

theorem next_eq (h : Holds n r w data xs) : (w + 1) % n = (r + (xs.length + 1)) % n := by
  rw [h.write_eq, Nat.mod_add_mod, Nat.add_assoc]

theorem next_eq_read_iff (h : Holds n r w data xs) :
    (w + 1) % n = r ↔ xs.length + 1 = n := by
  have hr := h.read_lt
  have hroom := h.room
  rw [h.next_eq, slot_eq hr (by omega)]
  split <;> omega

theorem read_eq_write_iff (h : Holds n r w data xs) : r = w ↔ xs = [] := by
  have hr := h.read_lt
  have hroom := h.room
  rw [h.write_eq, slot_eq hr (by omega), ← List.length_eq_zero_iff]
  split <;> omega

theorem push (h : Holds n r w data xs) (hroom : xs.length + 1 < n) :
    Holds n r ((w + 1) % n) (Function.update data w (some x)) (xs ++ [x]) := by
  refine ⟨h.read_lt, by simpa using hroom, by rw [h.next_eq]; simp, ?_⟩
  intro i hi
  rw [List.length_append, List.length_singleton] at hi
  rcases Nat.lt_or_ge i xs.length with hlt | hge
  · have hne : (r + i) % n ≠ w := by
      intro heq
      rw [h.write_eq] at heq
      have := slot_injective h.read_lt (by omega) h.room heq
      omega
    rw [Function.update_of_ne hne, h.slots i hlt, List.getElem_append_left hlt]
  · obtain rfl : i = xs.length := by omega
    rw [← h.write_eq, Function.update_self]
    simp

theorem first (h : Holds n r w data (x :: xs)) : data r = some x := by
  have := h.slots 0 (by simp)
  simpa [Nat.mod_eq_of_lt h.read_lt] using this

theorem pop (h : Holds n r w data (x :: xs)) : Holds n ((r + 1) % n) w data xs := by
  have hroom := h.room
  rw [List.length_cons] at hroom
  have hshift : ∀ i, ((r + 1) % n + i) % n = (r + (i + 1)) % n := by
    intro i
    rw [Nat.mod_add_mod]
    congr 1
    omega
  refine ⟨Nat.mod_lt _ (by omega), by omega, ?_, ?_⟩
  · rw [h.write_eq, hshift, List.length_cons]
  · intro i hi
    rw [hshift, h.slots (i + 1) (by simpa using hi)]
    simp

end Holds

end Ring
