import Mathlib.Data.List.Nodup
import Mathlib.Logic.Function.Basic
import Mathlib.Logic.Function.Iterate

/-!
# Link chains

A memory of forward links is a function `next : α → α` from addresses to
addresses. `Chain next a xs b` says that following the links from `a` visits
exactly the cells `xs`, in order, and then arrives at `b`. A circular list
whose head doubles as its own end marker is `Chain next l xs l`.

Main results:

* `chain_append` — a chain splits at any of its cells.
* `Chain.congr` — only the links stored at the start and at the visited cells
  matter (the frame rule).
* `Chain.update_last` — rewriting the link of the last cell moves the end
  point and nothing else.
* `Chain.unique` — the visited cells are determined by the end points.
* `Chain.iterate_iff` — the cells of a circular list are those that can be reached.
* `Chain.walk` — a walk with enough fuel reads the chain back.
-/

namespace LinkChain

variable {α : Type*}

/-- Following `next` from `a` visits the cells `xs` and then arrives at `b`. -/
def Chain (next : α → α) : α → List α → α → Prop
  | a, [], b => next a = b
  | a, x :: xs, b => next a = x ∧ Chain next x xs b

instance [DecidableEq α] (next : α → α) : ∀ (a : α) (xs : List α) (b : α),
    Decidable (Chain next a xs b)
  | a, [], b => inferInstanceAs (Decidable (next a = b))
  | a, x :: xs, b =>
      have : Decidable (Chain next x xs b) := instDecidableChainOfDecidableEq next x xs b
      inferInstanceAs (Decidable (next a = x ∧ Chain next x xs b))

@[simp] theorem chain_nil {next : α → α} {a b : α} :
    Chain next a [] b ↔ next a = b := Iff.rfl

@[simp] theorem chain_cons {next : α → α} {a x b : α} {xs : List α} :
    Chain next a (x :: xs) b ↔ next a = x ∧ Chain next x xs b := Iff.rfl

/-- The cell a chain visits last, the start when it visits none. -/
def lastCell (a : α) (xs : List α) : α := (a :: xs).getLast (List.cons_ne_nil a xs)

@[simp] theorem lastCell_nil (a : α) : lastCell a [] = a := rfl

@[simp] theorem lastCell_cons (a x : α) (xs : List α) :
    lastCell a (x :: xs) = lastCell x xs := by
  simp [lastCell]

@[simp] theorem lastCell_append_singleton (a x : α) (xs : List α) :
    lastCell a (xs ++ [x]) = x := by
  simp [lastCell]

@[simp] theorem lastCell_append_cons (a x : α) (xs ys : List α) :
    lastCell a (xs ++ x :: ys) = lastCell x ys := by
  simp [lastCell]

/-- The last cell is the start or a visited cell. -/
theorem lastCell_mem (a : α) (xs : List α) : lastCell a xs ∈ a :: xs :=
  List.getLast_mem _

/-- A chain splits at any of its cells. -/
theorem chain_append {next : α → α} {a x b : α} {xs ys : List α} :
    Chain next a (xs ++ x :: ys) b ↔ Chain next a xs x ∧ Chain next x ys b := by
  induction xs generalizing a with
  | nil => simp
  | cons y xs ih => simp [ih, and_assoc]

/-- Frame rule: a chain depends on the links of its start and visited cells. -/
theorem Chain.congr {next next' : α → α} {a b : α} {xs : List α}
    (hc : Chain next a xs b) (heq : ∀ y ∈ a :: xs, next' y = next y) :
    Chain next' a xs b := by
  induction xs generalizing a with
  | nil => exact (heq a List.mem_cons_self).trans hc
  | cons x xs ih =>
      refine ⟨(heq a List.mem_cons_self).trans hc.1, ih hc.2 ?_⟩
      intro y hy
      exact heq y (List.mem_cons_of_mem _ hy)

/-- Writing the link of a cell off the chain leaves the chain as it is. -/
theorem Chain.update_of_notMem [DecidableEq α] {next : α → α} {a b c d : α} {xs : List α}
    (hc : Chain next a xs b) (hnm : c ∉ a :: xs) :
    Chain (Function.update next c d) a xs b := by
  refine hc.congr ?_
  intro y hy
  refine Function.update_of_ne ?_ _ _
  rintro rfl
  exact hnm hy

/-- Writing the link of the last cell moves the end point of the chain. -/
theorem Chain.update_last [DecidableEq α] {next : α → α} {a b c : α} {xs : List α}
    (hc : Chain next a xs b) (hnd : (a :: xs).Nodup) :
    Chain (Function.update next (lastCell a xs) c) a xs c := by
  induction xs generalizing a with
  | nil => simp
  | cons x xs ih =>
      rw [List.nodup_cons] at hnd
      rw [lastCell_cons]
      have hne : a ≠ lastCell x xs := fun h => hnd.1 (h ▸ lastCell_mem x xs)
      refine ⟨?_, ih hc.2 hnd.2⟩
      rw [Function.update_of_ne hne]
      exact hc.1

/-- The end points determine the visited cells. -/
theorem Chain.unique {next : α → α} {a b : α} {xs ys : List α}
    (hx : Chain next a xs b) (hy : Chain next a ys b) (hbx : b ∉ xs) (hby : b ∉ ys) :
    xs = ys := by
  induction xs generalizing a ys with
  | nil =>
      cases ys with
      | nil => rfl
      | cons y ys =>
          have hyb : b = y := hx.symm.trans hy.1
          exact absurd (by simp [hyb]) hby
  | cons x xs ih =>
      cases ys with
      | nil =>
          have hxb : b = x := hy.symm.trans hx.1
          exact absurd (by simp [hxb]) hbx
      | cons y ys =>
          obtain rfl : x = y := hx.1.symm.trans hy.1
          simp only [List.mem_cons, not_or] at hbx hby
          rw [ih hx.2 hy.2 hbx.2 hby.2]

/-- The visited cells determine the end point. -/
theorem Chain.end_unique {next : α → α} {a b c : α} {xs : List α}
    (hb : Chain next a xs b) (hc : Chain next a xs c) : b = c := by
  induction xs generalizing a with
  | nil => exact hb.symm.trans hc
  | cons x xs ih => exact ih hb.2 hc.2

/-- Two chains from one start end at the same cell, if neither runs over the end of the
other. -/
theorem Chain.end_unique_of_notMem {next : α → α} {a b c : α} {xs ys : List α}
    (hx : Chain next a xs b) (hy : Chain next a ys c) (hb : b ∉ ys) (hc : c ∉ xs) : b = c := by
  induction xs generalizing a ys with
  | nil =>
      cases ys with
      | nil => exact hx.symm.trans hy
      | cons y ys =>
          have hyb : b = y := hx.symm.trans hy.1
          exact absurd (by simp [hyb]) hb
  | cons x xs ih =>
      cases ys with
      | nil =>
          have hxc : c = x := hy.symm.trans hx.1
          exact absurd (by simp [hxc]) hc
      | cons y ys =>
          obtain rfl : x = y := hx.1.symm.trans hy.1
          simp only [List.mem_cons, not_or] at hb hc
          exact ih hx.2 hy.2 hb.2 hc.2

/-- The links of a chain stay on it until its end. -/
theorem Chain.next_mem {next : α → α} {a b y : α} {xs : List α} (hc : Chain next a xs b)
    (hy : y ∈ a :: xs) : next y = b ∨ next y ∈ xs := by
  induction xs generalizing a with
  | nil =>
      rw [List.mem_singleton.mp hy]
      exact .inl hc
  | cons x xs ih =>
      rcases List.mem_cons.mp hy with rfl | hy
      · exact .inr (hc.1 ▸ List.mem_cons_self)
      · exact (ih hc.2 hy).imp_right (List.mem_cons_of_mem _)

/-- The cells of a chain are reached from its start. -/
theorem Chain.exists_iterate {next : α → α} {a b y : α} {xs : List α} (hc : Chain next a xs b)
    (hy : y ∈ a :: xs) : ∃ k, next^[k] a = y := by
  induction xs generalizing a with
  | nil => exact ⟨0, (List.mem_singleton.mp hy).symm⟩
  | cons x xs ih =>
      rcases List.mem_cons.mp hy with rfl | hy
      · exact ⟨0, rfl⟩
      · obtain ⟨k, hk⟩ := ih hc.2 hy
        exact ⟨k + 1, by rw [Function.iterate_succ_apply, hc.1, hk]⟩

/-- Following the links of a circular list one meets its start and its cells,
and nothing else. -/
theorem Chain.iterate_iff {next : α → α} {a y : α} {xs : List α} (hc : Chain next a xs a) :
    (∃ k, next^[k] a = y) ↔ y ∈ a :: xs := by
  refine ⟨?_, hc.exists_iterate⟩
  rintro ⟨k, rfl⟩
  induction k with
  | zero => exact List.mem_cons_self
  | succ k ih =>
      rw [Function.iterate_succ_apply', List.mem_cons]
      exact hc.next_mem ih

/-- The cells met from `a` before `stop`, for at most `fuel` links. -/
def walk [DecidableEq α] (next : α → α) (stop : α) : Nat → α → List α
  | 0, _ => []
  | fuel + 1, a => if next a = stop then [] else next a :: walk next stop fuel (next a)

/-- With fuel for one link more than the chain has cells the walk reads it back. -/
theorem Chain.walk [DecidableEq α] {next : α → α} {a b : α} {xs : List α}
    (hc : Chain next a xs b) (hb : b ∉ xs) :
    ∀ {fuel}, xs.length < fuel → LinkChain.walk next b fuel a = xs := by
  induction xs generalizing a with
  | nil =>
      intro fuel hlt
      obtain ⟨f, rfl⟩ := Nat.exists_eq_succ_of_ne_zero (Nat.ne_of_gt hlt)
      exact if_pos hc
  | cons x xs ih =>
      intro fuel hlt
      obtain ⟨f, rfl⟩ := Nat.exists_eq_succ_of_ne_zero (Nat.ne_of_gt (Nat.zero_lt_of_lt hlt))
      simp only [List.mem_cons, not_or] at hb
      have hne : ¬ next a = b := by
        rw [hc.1]
        exact fun h => hb.1 h.symm
      rw [LinkChain.walk, if_neg hne, hc.1, ih hc.2 hb.2 (Nat.lt_of_succ_lt_succ hlt)]

end LinkChain
