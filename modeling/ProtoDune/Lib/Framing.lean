import Mathlib.Data.List.Induction

/-!
# Cutting a stream into frames

Some words of a stream are marked as the last of a frame. `frames` cuts a
stream after each of them; what follows the last mark is a frame that is still
open.

Main results:

* `frames_append_last`, `frames_append_inner` — the frames of a stream as it grows.
* `frames_rest_last`, `isFrame_of_mem_frames` — a mark stands at the end of
  each complete frame and nowhere else.
* `frames_flatten` — putting frames together and cutting again gives them back.
-/

namespace Framing

variable {α : Type*} {last : α → Bool} {l f rest : List α} {fs : List (List α)} {a : α}

structure Frames (α : Type*) where
  complete : List (List α)
  rest : List α
deriving DecidableEq

/-- A word arrives. -/
def Frames.push (last : α → Bool) (F : Frames α) (a : α) : Frames α :=
  if last a then ⟨F.complete ++ [F.rest ++ [a]], []⟩ else ⟨F.complete, F.rest ++ [a]⟩

/-- The complete frames of a stream, and its open frame. -/
def frames (last : α → Bool) (l : List α) : Frames α := l.foldl (Frames.push last) ⟨[], []⟩

/-- A mark at the end, and nowhere else. -/
def IsFrame (last : α → Bool) (f : List α) : Prop :=
  ∃ init a, f = init ++ [a] ∧ last a = true ∧ ∀ b ∈ init, last b = false

@[simp] theorem frames_nil : frames last [] = ⟨[], []⟩ := rfl

theorem frames_append_singleton :
    frames last (l ++ [a]) = (frames last l).push last a := by
  unfold frames
  rw [List.foldl_append, List.foldl_cons, List.foldl_nil]

theorem frames_append_last (h : last a = true) :
    frames last (l ++ [a]) = ⟨(frames last l).complete ++ [(frames last l).rest ++ [a]], []⟩ := by
  rw [frames_append_singleton, Frames.push, if_pos h]

theorem frames_append_inner (h : last a = false) :
    frames last (l ++ [a]) = ⟨(frames last l).complete, (frames last l).rest ++ [a]⟩ := by
  rw [frames_append_singleton, Frames.push, if_neg (by simp [h])]

theorem frames_rest_last (l : List α) : ∀ a ∈ (frames last l).rest, last a = false := by
  induction l using List.reverseRecOn with
  | nil => exact fun _ h => absurd h List.not_mem_nil
  | append_singleton l b ih =>
    rw [frames_append_singleton, Frames.push]
    split
    · exact fun _ h => absurd h List.not_mem_nil
    · rename_i hb
      intro a ha
      rcases List.mem_append.mp ha with ha | ha
      · exact ih a ha
      · rw [List.mem_singleton.mp ha]
        simpa using hb

theorem isFrame_of_mem_frames (l : List α) : ∀ f ∈ (frames last l).complete, IsFrame last f := by
  induction l using List.reverseRecOn with
  | nil => exact fun _ h => absurd h List.not_mem_nil
  | append_singleton l b ih =>
    rw [frames_append_singleton, Frames.push]
    split
    · rename_i hb
      intro f hf
      rcases List.mem_append.mp hf with hf | hf
      · exact ih f hf
      · rw [List.mem_singleton.mp hf]
        exact ⟨_, b, rfl, hb, frames_rest_last l⟩
    · exact ih

/-- The words of an open frame. -/
theorem foldl_push_rest {F : Frames α} (hr : ∀ a ∈ rest, last a = false) :
    rest.foldl (Frames.push last) F = ⟨F.complete, F.rest ++ rest⟩ := by
  induction rest generalizing F with
  | nil => rw [List.append_nil]; rfl
  | cons a rest ih =>
    have ha : last a = false := hr a List.mem_cons_self
    rw [List.foldl_cons, ih fun b hb => hr b (List.mem_cons_of_mem a hb), Frames.push,
      if_neg (by simp [ha]), List.append_assoc, List.singleton_append]

/-- The words of a frame. -/
theorem foldl_push_frame {F : Frames α} (hf : IsFrame last f) :
    f.foldl (Frames.push last) F = ⟨F.complete ++ [F.rest ++ f], []⟩ := by
  obtain ⟨init, a, rfl, ha, hinit⟩ := hf
  rw [List.foldl_append, foldl_push_rest hinit, List.foldl_cons, List.foldl_nil, Frames.push,
    if_pos ha, List.append_assoc]

theorem frames_flatten (hf : ∀ f ∈ fs, IsFrame last f) (hr : ∀ a ∈ rest, last a = false) :
    frames last (fs.flatten ++ rest) = ⟨fs, rest⟩ := by
  have hfold : ∀ F : Frames α, F.rest = [] →
      fs.flatten.foldl (Frames.push last) F = ⟨F.complete ++ fs, []⟩ := by
    induction fs with
    | nil =>
      intro F hF
      rw [List.append_nil, ← hF]
      rfl
    | cons f fs ih =>
      intro F hF
      rw [List.flatten_cons, List.foldl_append, foldl_push_frame (hf f List.mem_cons_self), hF,
        ih (fun g hg => hf g (List.mem_cons_of_mem f hg)) _ rfl]
      simp
  unfold frames
  rw [List.foldl_append, hfold _ rfl, foldl_push_rest hr]
  simp

end Framing
