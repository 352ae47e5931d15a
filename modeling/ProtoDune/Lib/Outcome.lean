import Mathlib.Logic.Basic

/-!
# Outcomes of fallible programs

`Ensures P E r`: the program with the outcome `r` either returns a value
satisfying `P` or fails with an error satisfying `E`. The rules follow the
program: `pure`, `throw`, sequencing and weakening.
-/

namespace Outcome

variable {ε α β : Type*} {P P' : α → Prop} {Q : β → Prop} {E E' : ε → Prop} {r : Except ε α}

def Ensures (P : α → Prop) (E : ε → Prop) : Except ε α → Prop
  | .ok a => P a
  | .error e => E e

namespace Ensures

theorem ok {a : α} (h : P a) : Ensures P E (.ok a) := h

theorem error {e : ε} (h : E e) : Ensures P E (.error e) := h

theorem mono (h : Ensures P E r) (hP : ∀ a, P a → P' a) : Ensures P' E r := by
  cases r with
  | ok a => exact hP a h
  | error e => exact h

theorem weaken (h : Ensures P E r) (hP : ∀ a, P a → P' a) (hE : ∀ e, E e → E' e) :
    Ensures P' E' r := by
  cases r with
  | ok a => exact hP a h
  | error e => exact hE e h

/-- Nothing asked. -/
theorem trivial (r : Except ε α) : Ensures (fun _ => True) (fun _ => True) r := by
  cases r with
  | ok a => exact True.intro
  | error e => exact True.intro

theorem and (h : Ensures P E r) (h' : Ensures P' E' r) :
    Ensures (fun a => P a ∧ P' a) (fun e => E e ∧ E' e) r := by
  cases r with
  | ok a => exact ⟨h, h'⟩
  | error e => exact ⟨h, h'⟩

/-- Sequencing: the rest of the program starts from a value satisfying `P`. -/
theorem bind {f : α → Except ε β} (h : Ensures P E r) (hf : ∀ a, P a → Ensures Q E (f a)) :
    Ensures Q E (r.bind f) := by
  cases r with
  | ok a => exact hf a h
  | error e => exact h

theorem of_ok {a : α} (h : Ensures P E r) (hr : r = .ok a) : P a := by
  subst hr
  exact h

theorem of_error {e : ε} (h : Ensures P E r) (hr : r = .error e) : E e := by
  subst hr
  exact h

end Ensures

end Outcome
