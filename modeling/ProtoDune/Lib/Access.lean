import Mathlib.Data.Set.Basic
import Mathlib.Logic.Function.Basic

/-!
# Programs of atomic accesses

A memory is a function from cells to values, and a `Prog` loads and stores one
cell at a time, so that another thread may come in between. A program that
keeps to the cells it owns does not see what is stored elsewhere.

Main results:

* `Prog.run_step` — an access leaves the end of the program as it is.
* `Prog.Within.update`, `Prog.Within.run_update` — a store to a cell that the
  program does not own commutes with it.
* `Prog.Within.run_frame` — the program leaves the other cells alone.
-/

namespace Access

/-- Accesses to a memory `C → V`, one after the other, with a result. -/
inductive Prog (C V R : Type*) where
  | done (r : R)
  | load (c : C) (next : V → Prog C V R)
  | store (c : C) (v : V) (next : Prog C V R)

namespace Prog

variable {C V R : Type*} [DecidableEq C] {S S' : Set C} {p : Prog C V R} {m : C → V} {c : C} {v : V}

/-- The next access. -/
def step : Prog C V R → (C → V) → Prog C V R × (C → V)
  | done r, m => (done r, m)
  | load c next, m => (next (m c), m)
  | store c v next, m => (next, Function.update m c v)

/-- The whole program with nothing in between. -/
def run : Prog C V R → (C → V) → R × (C → V)
  | done r, m => (r, m)
  | load c next, m => (next (m c)).run m
  | store c v next, m => next.run (Function.update m c v)

/-- Run alone from `m`, the program keeps to the cells in `S`. -/
def Within (S : Set C) : Prog C V R → (C → V) → Prop
  | done _, _ => True
  | load c next, m => c ∈ S ∧ (next (m c)).Within S m
  | store c v next, m => c ∈ S ∧ next.Within S (Function.update m c v)

/-- The program keeps to the cells in `S`, whatever it loads. -/
def Confined (S : Set C) : Prog C V R → Prop
  | done _ => True
  | load c next => c ∈ S ∧ ∀ v, (next v).Confined S
  | store c _ next => c ∈ S ∧ next.Confined S

@[simp] theorem run_done (r : R) (m : C → V) : (done r : Prog C V R).run m = (r, m) := rfl

@[simp] theorem run_load (next : V → Prog C V R) (m : C → V) :
    (load c next).run m = (next (m c)).run m := rfl

@[simp] theorem run_store (next : Prog C V R) (m : C → V) :
    (store c v next).run m = next.run (Function.update m c v) := rfl

@[simp] theorem run_step (p : Prog C V R) (m : C → V) :
    (p.step m).1.run (p.step m).2 = p.run m := by
  cases p <;> rfl

/-- An access changes no cell but the one that a store names. -/
theorem step_frame (h : ∀ v next, p ≠ store c v next) : (p.step m).2 c = m c := by
  cases p with
  | done r => rfl
  | load d next => rfl
  | store d v next =>
      have hne : c ≠ d := fun heq => h v next (by rw [heq])
      exact Function.update_of_ne hne v m

namespace Confined

theorem step (h : p.Confined S) (m : C → V) : (p.step m).1.Confined S := by
  cases p with
  | done r => trivial
  | load d next => exact h.2 (m d)
  | store d v next => exact h.2

theorem step_frame (h : p.Confined S) (hc : c ∉ S) (m : C → V) : (p.step m).2 c = m c := by
  apply Prog.step_frame
  rintro v next rfl
  exact hc h.1

end Confined

namespace Within

theorem step (h : p.Within S m) : (p.step m).1.Within S (p.step m).2 := by
  cases p with
  | done r => trivial
  | load d next => exact h.2
  | store d v next => exact h.2

theorem store_mem {next : Prog C V R} (h : (Prog.store c v next).Within S m) : c ∈ S := h.1

theorem mono (h : p.Within S m) (hsub : S ⊆ S') : p.Within S' m := by
  induction p generalizing m with
  | done r => trivial
  | load d next ih => exact ⟨hsub h.1, ih _ h.2⟩
  | store d w next ih => exact ⟨hsub h.1, ih h.2⟩

/-- A store elsewhere does not matter to the program. -/
theorem update (h : p.Within S m) (hc : c ∉ S) (v : V) :
    p.Within S (Function.update m c v) := by
  induction p generalizing m with
  | done r => trivial
  | load d next ih =>
      have hne : d ≠ c := fun heq => hc (heq ▸ h.1)
      refine ⟨h.1, ?_⟩
      rw [Function.update_of_ne hne]
      exact ih _ h.2
  | store d w next ih =>
      have hne : d ≠ c := fun heq => hc (heq ▸ h.1)
      refine ⟨h.1, ?_⟩
      rw [Function.update_comm hne.symm]
      exact ih h.2

/-- A store elsewhere may as well come after the program. -/
theorem run_update (h : p.Within S m) (hc : c ∉ S) (v : V) :
    p.run (Function.update m c v) = ((p.run m).1, Function.update (p.run m).2 c v) := by
  induction p generalizing m with
  | done r => rfl
  | load d next ih =>
      have hne : d ≠ c := fun heq => hc (heq ▸ h.1)
      rw [run_load, run_load, Function.update_of_ne hne]
      exact ih _ h.2
  | store d w next ih =>
      have hne : d ≠ c := fun heq => hc (heq ▸ h.1)
      rw [run_store, run_store, Function.update_comm hne.symm]
      exact ih h.2

/-- The cells that the program does not own keep their values. -/
theorem run_frame (h : p.Within S m) (hc : c ∉ S) : (p.run m).2 c = m c := by
  induction p generalizing m with
  | done r => rfl
  | load d next ih => exact ih _ h.2
  | store d w next ih =>
      have hne : c ≠ d := fun heq => hc (heq ▸ h.1)
      rw [run_store, ih h.2]
      exact Function.update_of_ne hne w m

end Within

end Prog

end Access
