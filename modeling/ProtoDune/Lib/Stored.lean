import Mathlib.Data.List.Basic
import Mathlib.Logic.Function.Basic

/-!
# Lists in a buffer

`StoredAt buf p l` says that the elements of `l` lie in the buffer from index `p` on.

Main results:

* `StoredAt.append` — two lists, one behind the other.
* `StoredAt.push`, `StoredAt.set` — storing an element at the end, or over one.
-/

namespace Stored

variable {α : Type*}

/-- The buffer has the list from index `p` on. -/
def StoredAt (buf : Nat → α) (p : Nat) (l : List α) : Prop :=
  ∀ i x, l[i]? = some x → buf (p + i) = x

variable {buf : Nat → α} {p : Nat} {l l' : List α}

theorem StoredAt.nil (buf : Nat → α) (p : Nat) : StoredAt buf p [] := by
  intro i x h
  cases h

theorem StoredAt.append : StoredAt buf p (l ++ l') ↔
    StoredAt buf p l ∧ StoredAt buf (p + l.length) l' := by
  constructor
  · intro h
    refine ⟨fun i x hx => h i x ?_, fun i x hx => ?_⟩
    · rw [List.getElem?_append_left (List.getElem?_eq_some_iff.mp hx).1]
      exact hx
    · rw [Nat.add_assoc]
      refine h (l.length + i) x ?_
      rw [List.getElem?_append_right (Nat.le_add_right _ _), Nat.add_sub_cancel_left]
      exact hx
  · rintro ⟨h, h'⟩ i x hx
    rcases Nat.lt_or_ge i l.length with hi | hi
    · rw [List.getElem?_append_left hi] at hx
      exact h i x hx
    · rw [List.getElem?_append_right hi] at hx
      have hat := h' (i - l.length) x hx
      rwa [Nat.add_assoc, Nat.add_sub_cancel' hi] at hat

theorem StoredAt.singleton {x : α} : StoredAt buf p [x] ↔ buf p = x := by
  constructor
  · intro h
    exact h 0 x rfl
  · rintro rfl i y hy
    cases i with
    | zero => exact Option.some.inj hy
    | succ i => cases hy

theorem StoredAt.congr {buf' : Nat → α} {p' : Nat} (h : StoredAt buf p l)
    (heq : ∀ i < l.length, buf' (p' + i) = buf (p + i)) : StoredAt buf' p' l := by
  intro i x hx
  rw [heq i (List.getElem?_eq_some_iff.mp hx).1]
  exact h i x hx

/-- Storing behind the list. -/
theorem StoredAt.push (h : StoredAt buf p l) (x : α) :
    StoredAt (Function.update buf (p + l.length) x) p (l ++ [x]) := by
  refine StoredAt.append.mpr ⟨h.congr fun i hi => ?_, StoredAt.singleton.mpr ?_⟩
  · exact Function.update_of_ne (by omega) ..
  · exact Function.update_self ..

/-- Storing over an element. -/
theorem StoredAt.set (h : StoredAt buf p l) (i : Nat) (x : α) :
    StoredAt (Function.update buf (p + i) x) p (l.set i x) := by
  intro j y hy
  rw [List.getElem?_set] at hy
  split at hy
  · rename_i hij
    subst hij
    split at hy
    · rw [Function.update_self]
      exact Option.some.inj hy
    · cases hy
  · rename_i hij
    rw [Function.update_of_ne (by omega)]
    exact h j y hy

/-- Reading the list. -/
theorem StoredAt.map_range' (h : StoredAt buf p l) : (List.range' p l.length).map buf = l := by
  refine List.ext_getElem? fun i => ?_
  rw [List.getElem?_map]
  rcases Nat.lt_or_ge i l.length with hi | hi
  · rw [List.getElem?_range' hi, List.getElem?_eq_getElem hi, Option.map_some, Nat.one_mul]
    exact congrArg some (h i _ (List.getElem?_eq_getElem hi))
  · rw [List.getElem?_eq_none (by simpa using hi), List.getElem?_eq_none hi]
    rfl

/-- Reading up to an element that ends the list. -/
theorem storedAt_of_takeWhile {f : α → Bool}
    (h : ((List.range' p (l.length + 1)).map buf).takeWhile f = l) :
    StoredAt buf p l ∧ f (buf (p + l.length)) = false := by
  have hsplit := List.takeWhile_append_dropWhile (p := f) (l := (List.range' p (l.length + 1)).map buf)
  rw [h] at hsplit
  have hlen := congrArg List.length hsplit
  rw [List.length_append, List.length_map, List.length_range'] at hlen
  have hat : ∀ i x, (l ++ ((List.range' p (l.length + 1)).map buf).dropWhile f)[i]? = some x →
      buf (p + i) = x := by
    intro i x hx
    rw [hsplit, List.getElem?_map, Option.map_eq_some_iff] at hx
    obtain ⟨k, hk, rfl⟩ := hx
    obtain ⟨hi, rfl⟩ := List.getElem?_eq_some_iff.mp hk
    rw [List.getElem_range', Nat.one_mul]
  obtain ⟨hl, hrest⟩ := StoredAt.append.mp hat
  refine ⟨hl, ?_⟩
  have hpos : 0 < (((List.range' p (l.length + 1)).map buf).dropWhile f).length := by omega
  have hne := List.length_pos_iff.mp hpos
  have hhead := List.head_dropWhile_not f hne
  have hfirst := hrest 0 _ (List.getElem?_eq_getElem hpos)
  rw [Nat.add_zero] at hfirst
  rw [hfirst, ← List.head_eq_getElem hne]
  exact hhead

/-- A list, with anything behind it. -/
def withRest (l : List α) (rest : Nat → α) (i : Nat) : α :=
  if h : i < l.length then l[i] else rest (i - l.length)

theorem storedAt_withRest (l : List α) (rest : Nat → α) : StoredAt (withRest l rest) 0 l := by
  intro i x hx
  obtain ⟨hi, rfl⟩ := List.getElem?_eq_some_iff.mp hx
  rw [Nat.zero_add, withRest, dif_pos hi]

theorem withRest_length (l : List α) (rest : Nat → α) : withRest l rest l.length = rest 0 := by
  rw [withRest, dif_neg (Nat.lt_irrefl _), Nat.sub_self]

end Stored
