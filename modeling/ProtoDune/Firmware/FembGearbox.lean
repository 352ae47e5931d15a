import Mathlib.Data.Fin.VecNotation
import Mathlib.Data.List.Induction
import Mathlib.Data.List.OfFn

/-!
# `FEMB_Gearbox`

The gearbox turns cycles of two, three or no words into two words a cycle. Its
shift register holds five, six or seven words, and its source has to leave out
a cycle when it is in the deepest state.

Main results:

* `clock_content` — a clock cycle takes two words from the bottom and puts the
  accepted ones on top.
* `run_content` — in every run the accepted words come out in order, after what
  the register held.
* `clock_slipped` — an error pulse says that other words than the valid ones were
  accepted.
-/

namespace ProtoDune.Firmware.FEMB_Gearbox

/-- `shift_register_state_t`. -/
inductive State where
  | SR_STATE_5
  | SR_STATE_6
  | SR_STATE_7
deriving DecidableEq

variable {α : Type*}

/-- The ports `data_in`, as an array of words, and `data_in_valid`. -/
structure Inputs (α : Type*) where
  words_in : Fin 3 → α
  data_in_valid : BitVec 3

structure Regs (α : Type*) where
  sr_state : State
  word_sr : Fin 8 → α
  slip_state_error_5 : Bool
  slip_state_error_6 : Bool
  slip_state_error_7 : Bool
  empty_word_request : Bool
  data_out : α × α

/-- The registers that `reset` sets; `data_out` keeps its value. -/
def reset (DEFAULT_WORDS : α) (g : Regs α) : Regs α :=
  { g with
    sr_state := .SR_STATE_6
    word_sr := fun _ => DEFAULT_WORDS
    slip_state_error_5 := false
    slip_state_error_6 := false
    slip_state_error_7 := false
    empty_word_request := false }

/-- The case on `sr_state`. -/
def shift_register_state_machine (i : Inputs α) (g : Regs α) : Regs α :=
  let sr := g.word_sr
  let w := i.words_in
  match g.sr_state with
  | .SR_STATE_6 =>
      if i.data_in_valid = 0b111 then
        { g with
          word_sr := ![sr 2, sr 3, sr 4, sr 5, w 0, w 1, w 2, sr 7], sr_state := .SR_STATE_7 }
      else
        { g with
          slip_state_error_6 := i.data_in_valid != 0b011
          word_sr := ![sr 2, sr 3, sr 4, sr 5, w 0, w 1, sr 6, sr 7] }
  | .SR_STATE_7 =>
      if i.data_in_valid = 0b000 then
        { g with
          word_sr := ![sr 2, sr 3, sr 4, sr 5, sr 6, sr 5, sr 6, sr 7], sr_state := .SR_STATE_5 }
      else
        { g with
          slip_state_error_7 := i.data_in_valid != 0b011
          word_sr := ![sr 2, sr 3, sr 4, sr 5, sr 6, w 0, w 1, sr 7] }
  | .SR_STATE_5 =>
      if i.data_in_valid = 0b111 then
        { g with
          word_sr := ![sr 2, sr 3, sr 4, w 0, w 1, w 2, sr 6, sr 7], sr_state := .SR_STATE_6 }
      else
        { g with
          slip_state_error_5 := i.data_in_valid != 0b011
          word_sr := ![sr 2, sr 3, sr 4, w 0, w 1, sr 5, sr 6, sr 7] }

/-- A clock edge of the two processes. -/
def clock (g : Regs α) (i : Inputs α) : Regs α :=
  let g' : Regs α :=
    { g with
      slip_state_error_5 := false, slip_state_error_6 := false, slip_state_error_7 := false
      empty_word_request := g.sr_state == .SR_STATE_7
      data_out := (g.word_sr 0, g.word_sr 1) }
  shift_register_state_machine i g'

/-! ## The words in the register -/

/-- How many words the register holds. -/
def State.depth : State → Nat
  | .SR_STATE_5 => 5
  | .SR_STATE_6 => 6
  | .SR_STATE_7 => 7

/-- How many words are accepted. -/
def State.takes : State → BitVec 3 → Nat
  | .SR_STATE_7, v => if v = 0b000 then 0 else 2
  | _, v => if v = 0b111 then 3 else 2

/-- The next state. -/
def State.next : State → BitVec 3 → State
  | .SR_STATE_5, v => if v = 0b111 then .SR_STATE_6 else .SR_STATE_5
  | .SR_STATE_6, v => if v = 0b111 then .SR_STATE_7 else .SR_STATE_6
  | .SR_STATE_7, v => if v = 0b000 then .SR_STATE_5 else .SR_STATE_7

/-- How many words the flags mark as valid, where they may be used. -/
def valid (v : BitVec 3) : Option Nat :=
  if v = 0b000 then some 0 else if v = 0b011 then some 2 else if v = 0b111 then some 3 else none

def Inputs.words (i : Inputs α) : List α := List.ofFn i.words_in

/-- The words that are accepted. -/
def accepted (q : State) (i : Inputs α) : List α := i.words.take (q.takes i.data_in_valid)

/-- The words in the register, from the bottom. -/
def Regs.content (g : Regs α) : List α := (List.ofFn g.word_sr).take g.sr_state.depth

/-- The words that leave in a cycle. -/
def Regs.out (g : Regs α) : List α := [g.data_out.1, g.data_out.2]

/-- An error pulse. -/
def Regs.slipped (g : Regs α) : Bool :=
  g.slip_state_error_5 || g.slip_state_error_6 || g.slip_state_error_7

variable {g : Regs α} {i : Inputs α}

@[simp] theorem length_words (i : Inputs α) : i.words.length = 3 := List.length_ofFn

theorem clock_state (g : Regs α) (i : Inputs α) :
    (clock g i).sr_state = g.sr_state.next i.data_in_valid := by
  cases hq : g.sr_state <;>
    simp only [clock, shift_register_state_machine, hq, State.next] <;>
    split <;> simp [*]

theorem clock_request (g : Regs α) (i : Inputs α) :
    (clock g i).empty_word_request = (g.sr_state == .SR_STATE_7) := by
  cases hq : g.sr_state <;>
    simp only [clock, shift_register_state_machine, hq] <;>
    split <;> rfl

/-- One clock cycle: two words leave from the bottom, and the accepted ones come on top. -/
theorem clock_content (g : Regs α) (i : Inputs α) :
    (clock g i).out ++ (clock g i).content = g.content ++ accepted g.sr_state i := by
  cases hq : g.sr_state <;>
    simp only [clock, shift_register_state_machine, hq, Regs.out, Regs.content, accepted,
      State.takes, Inputs.words] <;>
    split <;> simp [List.ofFn_succ, State.depth]

theorem valid_ne (v : BitVec 3) : (v != 0b011) = (valid v != some 2) := by
  revert v
  decide

/-- The error pulse of a cycle: the flags mark other words than those that are accepted. -/
theorem clock_slipped (g : Regs α) (i : Inputs α) :
    (clock g i).slipped =
      (valid i.data_in_valid != some (g.sr_state.takes i.data_in_valid)) := by
  cases hq : g.sr_state <;>
    simp only [clock, shift_register_state_machine, hq, Regs.slipped, State.takes] <;>
    split
  case SR_STATE_5.isTrue h => rw [h]; rfl
  case SR_STATE_6.isTrue h => rw [h]; rfl
  case SR_STATE_7.isTrue h => rw [h]; rfl
  all_goals simp [← valid_ne]

/-! ## Runs -/

/-- The registers, the words that left, and those that were accepted. -/
structure Monitor (α : Type*) where
  g : Regs α
  out : List α
  accepted : List α

def tick (m : Monitor α) (i : Inputs α) : Monitor α :=
  let g := clock m.g i
  ⟨g, m.out ++ g.out, m.accepted ++ accepted m.g.sr_state i⟩

/-- The clock cycles since the registers were `g`. -/
def run (g : Regs α) (is : List (Inputs α)) : Monitor α := is.foldl tick ⟨g, [], []⟩

theorem run_append_singleton (g : Regs α) (is : List (Inputs α)) (i : Inputs α) :
    run g (is ++ [i]) = tick (run g is) i := by
  simp [run]

/-- Two words leave in each cycle. -/
theorem length_run_out (g : Regs α) (is : List (Inputs α)) :
    (run g is).out.length = 2 * is.length := by
  induction is using List.reverseRecOn with
  | nil => rfl
  | append_singleton is i ih =>
    rw [run_append_singleton]
    simp [tick, Regs.out, ih]
    omega

theorem length_content (g : Regs α) : g.content.length = g.sr_state.depth := by
  cases hq : g.sr_state <;> simp [Regs.content, hq, State.depth]

/-- The words that the flags mark as valid. -/
def Inputs.flagged (i : Inputs α) : List α := i.words.take ((valid i.data_in_valid).getD 0)

/-- Without an error pulse the words that are accepted are the valid ones. -/
theorem accepted_of_not_slipped (h : (clock g i).slipped = false) :
    accepted g.sr_state i = i.flagged := by
  rw [clock_slipped, bne_eq_false_iff_eq] at h
  rw [accepted, Inputs.flagged, h, Option.getD_some]

/-- What leaves in a run, and what stays. -/
theorem run_out (g : Regs α) (is : List (Inputs α)) :
    (run g is).out ++ (run g is).g.content = g.content ++ (run g is).accepted := by
  induction is using List.reverseRecOn with
  | nil => simp [run]
  | append_singleton is i ih =>
    rw [run_append_singleton]
    simp only [tick, List.append_assoc, clock_content]
    rw [← List.append_assoc, ih, List.append_assoc]

/-- What is accepted in a run without error pulses. -/
theorem run_accepted (g : Regs α) (is : List (Inputs α))
    (h : ∀ pre i, pre ++ [i] <+: is → (clock (run g pre).g i).slipped = false) :
    (run g is).accepted = is.flatMap Inputs.flagged := by
  induction is using List.reverseRecOn with
  | nil => rfl
  | append_singleton is i ih =>
    have hpre : (run g is).accepted = is.flatMap Inputs.flagged := by
      apply ih
      intro pre j hj
      exact h pre j (hj.trans (List.prefix_append is [i]))
    have hlast := accepted_of_not_slipped (h is i (List.prefix_refl _))
    rw [run_append_singleton]
    simp [tick, hpre, hlast]

/-- In every run, whatever the flags say, two words leave in each cycle: what the register held
and then the accepted words, in their order, with the last five to seven still in it. As long as
there is no error pulse these are the words that the flags mark as valid. -/
theorem run_content (g : Regs α) (is : List (Inputs α)) :
    (run g is).out ++ (run g is).g.content = g.content ++ (run g is).accepted ∧
      (run g is).out.length = 2 * is.length ∧
      (run g is).g.content.length = (run g is).g.sr_state.depth ∧
      ((∀ pre i, pre ++ [i] <+: is → (clock (run g pre).g i).slipped = false) →
        (run g is).accepted = is.flatMap Inputs.flagged) :=
  ⟨run_out g is, length_run_out g is, length_content _, run_accepted g is⟩

end ProtoDune.Firmware.FEMB_Gearbox
