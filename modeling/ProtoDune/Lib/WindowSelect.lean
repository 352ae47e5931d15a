import Mathlib.Data.List.Basic
import Mathlib.Order.Defs.LinearOrder
import Mathlib.Order.Lattice

/-!
# Selecting a time window from a stream

A stream is a list of items that each span an interval of a linearly ordered
time. Against a closed window an item gets a `Verdict`: it ended before the
window opened, lies inside, reaches the window's end, or begins after it. The
last two close the stream: nothing after them is looked at.

`selected`, `dropped` and `leftover` say what a left-to-right scan that stops
at the closing item keeps, discards and does not consume. The `_cons` lemmas
serve a scan that consumes a list from the front, the `_snoc` lemmas one that
is fed item by item.
-/

namespace WindowSelect

variable {T α : Type*} [LinearOrder T]

/-- A closed interval of time. -/
structure Span (T : Type*) where
  beg : T
  fin : T
deriving DecidableEq

/-- How an item lies with respect to a window. -/
inductive Verdict where
  /-- it ended before the window opened -/
  | early
  /-- it is in the window and ends before the window does -/
  | inside
  /-- it is in the window and reaches the window's end -/
  | last
  /-- it begins after the window's end -/
  | late
deriving DecidableEq

/-- The verdict of the window `w` on an item spanning `s`. -/
def verdict (w s : Span T) : Verdict :=
  if s.fin < w.beg then .early
  else if s.beg ≤ w.fin then
    if w.fin ≤ s.fin then .last else .inside
  else .late

/-- The item belongs to the window. -/
def Verdict.keeps : Verdict → Bool
  | .inside | .last => true
  | .early | .late => false

/-- The item closes the stream. -/
def Verdict.closes : Verdict → Bool
  | .last | .late => true
  | .early | .inside => false

@[simp] theorem Verdict.keeps_early : Verdict.early.keeps = false := rfl
@[simp] theorem Verdict.keeps_inside : Verdict.inside.keeps = true := rfl
@[simp] theorem Verdict.keeps_last : Verdict.last.keeps = true := rfl
@[simp] theorem Verdict.keeps_late : Verdict.late.keeps = false := rfl
@[simp] theorem Verdict.closes_early : Verdict.early.closes = false := rfl
@[simp] theorem Verdict.closes_inside : Verdict.inside.closes = false := rfl
@[simp] theorem Verdict.closes_last : Verdict.last.closes = true := rfl
@[simp] theorem Verdict.closes_late : Verdict.late.closes = true := rfl

/-- An item belongs to the window iff the two intervals meet. -/
theorem keeps_verdict {w s : Span T} :
    (verdict w s).keeps = true ↔ w.beg ≤ s.fin ∧ s.beg ≤ w.fin := by
  unfold verdict
  split
  · next h => simp [not_le.mpr h]
  · next h =>
      split
      · next hb => split <;> simp [not_lt.mp h, hb]
      · next hb => simp [hb]

/-- For a window and an item that are not turned round, the stream closes with
the first item that ends at or after the window's end. -/
theorem closes_verdict {w s : Span T} (hw : w.beg ≤ w.fin) (hs : s.beg ≤ s.fin) :
    (verdict w s).closes = true ↔ w.fin ≤ s.fin := by
  unfold verdict
  split
  · next h => simp [lt_of_lt_of_le h hw]
  · split
    · split <;> simp_all
    · next hb => simp [le_trans (le_of_lt (not_le.mp hb)) hs]

theorem verdict_eq_early {w s : Span T} : verdict w s = .early ↔ s.fin < w.beg := by
  unfold verdict
  split
  · next h => simp [h]
  · next h => split <;> [split; skip] <;> simp [h]

theorem verdict_eq_late {w s : Span T} (hw : w.beg ≤ w.fin) (hs : s.beg ≤ s.fin) :
    verdict w s = .late ↔ w.fin < s.beg := by
  unfold verdict
  split
  · next h =>
      have hlt : s.beg < w.fin := lt_of_le_of_lt hs (lt_of_lt_of_le h hw)
      simp [not_lt.mpr (le_of_lt hlt)]
  · split
    · next hb => split <;> simp [not_lt.mpr hb]
    · next hb => simp [not_le.mp hb]

/-! ## Scans -/

/-- The items up to and including the first that satisfies `p`. -/
def through (p : α → Bool) : List α → List α
  | [] => []
  | x :: xs => if p x then [x] else x :: through p xs

/-- Some item closed the stream. -/
def closed (v : α → Verdict) (xs : List α) : Bool := xs.any fun x => (v x).closes

/-- The items kept by a scan that stops at the closing item. -/
def selected (v : α → Verdict) (xs : List α) : List α :=
  (through (fun x => (v x).closes) xs).filter fun x => (v x).keeps

/-- The items discarded by that scan. -/
def dropped (v : α → Verdict) (xs : List α) : List α :=
  (through (fun x => (v x).closes) xs).filter fun x => v x = .early

/-- The items not consumed by that scan: those after the closing item, and the
closing item too when it lies beyond the window. -/
def leftover (v : α → Verdict) : List α → List α
  | [] => []
  | x :: xs =>
      match v x with
      | .last => xs
      | .late => x :: xs
      | .early | .inside => leftover v xs

variable {v : α → Verdict}

theorem through_length_le (p : α → Bool) (xs : List α) : (through p xs).length ≤ xs.length := by
  induction xs with
  | nil => exact Nat.le_refl 0
  | cons x xs ih =>
      rw [through]
      split <;> simp [ih]

theorem prefix_through (p : α → Bool) (xs : List α) : through p xs <+: xs := by
  induction xs with
  | nil => exact List.prefix_refl []
  | cons x xs ih =>
      rw [through]
      split
      · exact List.prefix_append [x] xs
      · exact (List.prefix_cons_inj x).mpr ih

/-- What follows an item that satisfies `p` is not looked at. -/
theorem through_append {p : α → Bool} {xs : List α} (h : ∃ x ∈ xs, p x = true) (ys : List α) :
    through p (xs ++ ys) = through p xs := by
  induction xs with
  | nil =>
      obtain ⟨x, hx, -⟩ := h
      cases hx
  | cons x xs ih =>
      rw [List.cons_append, through, through]
      cases hpx : p x with
      | true => rfl
      | false =>
          obtain ⟨y, hy, hpy⟩ := h
          rcases List.mem_cons.mp hy with rfl | hy
          · rw [hpx] at hpy
            cases hpy
          · rw [ih ⟨y, hy, hpy⟩]

theorem closed_append (v : α → Verdict) (xs ys : List α) :
    closed v (xs ++ ys) = (closed v xs || closed v ys) := by
  simp [closed]

/-- What follows the closing item is not selected. -/
theorem selected_append {v : α → Verdict} {xs : List α} (h : closed v xs = true) (ys : List α) :
    selected v (xs ++ ys) = selected v xs := by
  rw [closed, List.any_eq_true] at h
  rw [selected, selected, through_append h]

/-- Nothing but the last item can end a list that is read to its end. -/
theorem through_eq_self_iff (p : α → Bool) (xs : List α) :
    through p xs = xs ↔ ∀ x ∈ xs.dropLast, p x = false := by
  induction xs with
  | nil => simp [through]
  | cons x xs ih =>
      cases xs with
      | nil => simp [through]
      | cons y ys =>
          rw [through, List.dropLast_cons_cons]
          cases hx : p x with
          | true => simp [hx]
          | false => simpa [hx] using ih

theorem selected_length_le (v : α → Verdict) (xs : List α) :
    (selected v xs).length ≤ xs.length :=
  Nat.le_trans (List.length_filter_le _ _) (through_length_le _ xs)

@[simp] theorem closed_nil : closed v [] = false := rfl

@[simp] theorem selected_nil : selected v [] = [] := rfl

@[simp] theorem dropped_nil : dropped v [] = [] := rfl

theorem closed_cons (x : α) (xs : List α) :
    closed v (x :: xs) = ((v x).closes || closed v xs) := by
  simp [closed]

theorem selected_cons (x : α) (xs : List α) :
    selected v (x :: xs) =
      (if (v x).keeps then [x] else []) ++ (if (v x).closes then [] else selected v xs) := by
  rw [selected, through]
  cases hv : v x <;> simp [selected, hv]

theorem dropped_cons (x : α) (xs : List α) :
    dropped v (x :: xs) =
      (if v x = .early then [x] else []) ++ (if (v x).closes then [] else dropped v xs) := by
  rw [dropped, through]
  cases hv : v x <;> simp [dropped, hv]

/-- Feeding one more item. -/
theorem closed_snoc (xs : List α) (x : α) :
    closed v (xs ++ [x]) = (closed v xs || (v x).closes) := by
  simp [closed]

theorem selected_snoc (xs : List α) (x : α) :
    selected v (xs ++ [x]) =
      selected v xs ++ (if closed v xs then [] else if (v x).keeps then [x] else []) := by
  induction xs with
  | nil => cases hv : v x <;> simp [selected_cons, hv]
  | cons y ys ih =>
      rw [List.cons_append, selected_cons, selected_cons, closed_cons, ih]
      cases (v y).closes <;> simp

/-- Nothing is left over by a scan that was not closed. -/
theorem leftover_of_not_closed {xs : List α} (h : closed v xs = false) :
    leftover v xs = [] := by
  induction xs with
  | nil => rfl
  | cons x xs ih =>
      rw [closed_cons, Bool.or_eq_false_iff] at h
      cases hv : v x <;> simp_all [leftover]

/-- A scan loses nothing and keeps nothing twice. -/
theorem scan_perm (xs : List α) :
    (selected v xs ++ dropped v xs ++ leftover v xs).Perm xs := by
  induction xs with
  | nil => simp [leftover]
  | cons x xs ih =>
      rw [selected_cons, dropped_cons]
      cases hv : v x with
      | early =>
          simpa [leftover, hv] using
            (List.perm_middle.append_right _).trans (ih.cons x)
      | inside => simpa [leftover, hv] using ih.cons x
      | last => simp [leftover, hv]
      | late => simp [leftover, hv]

theorem mem_scan {xs : List α} {x : α} :
    x ∈ xs ↔ x ∈ selected v xs ∨ x ∈ dropped v xs ∨ x ∈ leftover v xs := by
  rw [← (scan_perm (v := v) xs).mem_iff, List.append_assoc, List.mem_append, List.mem_append]

/-- What a scan of distinct items discards it neither keeps nor leaves. -/
theorem notMem_of_mem_dropped {xs : List α} (hnd : xs.Nodup) {x : α} (hx : x ∈ dropped v xs) :
    x ∉ selected v xs ∧ x ∉ leftover v xs := by
  rw [← (scan_perm (v := v) xs).nodup_iff, List.append_assoc, List.nodup_append] at hnd
  obtain ⟨-, hrest, hsel⟩ := hnd
  refine ⟨fun hs => hsel x hs x (List.mem_append_left _ hx) rfl, fun hl => ?_⟩
  exact (List.nodup_append.mp hrest).2.2 x hx x hl rfl

theorem dropped_nodup {xs : List α} (hnd : xs.Nodup) : (dropped v xs).Nodup := by
  rw [← (scan_perm (v := v) xs).nodup_iff, List.append_assoc, List.nodup_append] at hnd
  exact (List.nodup_append.mp hnd.2.1).1

theorem leftover_length_le (xs : List α) : (leftover v xs).length ≤ xs.length := by
  have hlen := (scan_perm (v := v) xs).length_eq
  simp only [List.length_append] at hlen
  omega

/-! ## Scans of other descriptions of the same items -/

section Map

variable {β : Type*} {u : β → Verdict} {f : β → α} {ys : List β}

theorem closed_map (h : ∀ y ∈ ys, v (f y) = u y) : closed v (ys.map f) = closed u ys := by
  induction ys with
  | nil => rfl
  | cons y ys ih =>
      rw [List.map_cons, closed_cons, closed_cons, h y List.mem_cons_self,
        ih fun z hz => h z (List.mem_cons_of_mem _ hz)]

theorem selected_map (h : ∀ y ∈ ys, v (f y) = u y) :
    selected v (ys.map f) = (selected u ys).map f := by
  induction ys with
  | nil => rfl
  | cons y ys ih =>
      rw [List.map_cons, selected_cons, selected_cons, h y List.mem_cons_self,
        ih fun z hz => h z (List.mem_cons_of_mem _ hz)]
      cases u y <;> simp

theorem dropped_map (h : ∀ y ∈ ys, v (f y) = u y) :
    dropped v (ys.map f) = (dropped u ys).map f := by
  induction ys with
  | nil => rfl
  | cons y ys ih =>
      rw [List.map_cons, dropped_cons, dropped_cons, h y List.mem_cons_self,
        ih fun z hz => h z (List.mem_cons_of_mem _ hz)]
      cases u y <;> simp

theorem leftover_map (h : ∀ y ∈ ys, v (f y) = u y) :
    leftover v (ys.map f) = (leftover u ys).map f := by
  induction ys with
  | nil => rfl
  | cons y ys ih =>
      rw [List.map_cons, leftover, leftover, h y List.mem_cons_self,
        ih fun z hz => h z (List.mem_cons_of_mem _ hz)]
      cases u y <;> rfl

end Map

/-! ## Scans of intervals -/

section Interval

variable {w : Span T} {span : α → Span T} {xs : List α}

/-- For intervals that are not turned round the stream is closed by an item
that reaches the end of the window or begins after it. -/
theorem closed_verdict (hw : w.beg ≤ w.fin) (hs : ∀ x ∈ xs, (span x).beg ≤ (span x).fin) :
    closed (fun x => verdict w (span x)) xs = true ↔
      ∃ x ∈ xs, w.fin ≤ (span x).fin ∧ (span x).beg ≤ w.fin ∨ w.fin < (span x).beg := by
  rw [closed, List.any_eq_true]
  constructor
  · rintro ⟨x, hx, hcl⟩
    have hfin := (closes_verdict hw (hs x hx)).mp hcl
    rcases le_or_gt (span x).beg w.fin with hle | hgt
    · exact ⟨x, hx, .inl ⟨hfin, hle⟩⟩
    · exact ⟨x, hx, .inr hgt⟩
  · rintro ⟨x, hx, h⟩
    refine ⟨x, hx, (closes_verdict hw (hs x hx)).mpr ?_⟩
    rcases h with ⟨hfin, -⟩ | hgt
    · exact hfin
    · exact le_trans (le_of_lt hgt) (hs x hx)

/-- The closing item is the first that ends at or after the window's end. -/
theorem through_verdict (hw : w.beg ≤ w.fin) (hs : ∀ x ∈ xs, (span x).beg ≤ (span x).fin) :
    through (fun x => (verdict w (span x)).closes) xs =
      through (fun x => decide (w.fin ≤ (span x).fin)) xs := by
  induction xs with
  | nil => rfl
  | cons x xs ih =>
      have hx : (verdict w (span x)).closes = decide (w.fin ≤ (span x).fin) := by
        rw [Bool.eq_iff_iff, closes_verdict hw (hs x List.mem_cons_self), decide_eq_true_iff]
      rw [through, through, hx, ih fun y hy => hs y (List.mem_cons_of_mem _ hy)]

theorem selected_verdict (hw : w.beg ≤ w.fin) (hs : ∀ x ∈ xs, (span x).beg ≤ (span x).fin) :
    selected (fun x => verdict w (span x)) xs =
      (through (fun x => decide (w.fin ≤ (span x).fin)) xs).filter
        fun x => decide (w.beg ≤ (span x).fin ∧ (span x).beg ≤ w.fin) := by
  rw [selected, through_verdict hw hs]
  congr 1
  funext x
  rw [Bool.eq_iff_iff, keeps_verdict, decide_eq_true_iff]

theorem dropped_verdict (hw : w.beg ≤ w.fin) (hs : ∀ x ∈ xs, (span x).beg ≤ (span x).fin) :
    dropped (fun x => verdict w (span x)) xs =
      (through (fun x => decide (w.fin ≤ (span x).fin)) xs).filter
        fun x => decide ((span x).fin < w.beg) := by
  rw [dropped, through_verdict hw hs]
  congr 1
  funext x
  rw [Bool.eq_iff_iff, decide_eq_true_iff, decide_eq_true_iff, verdict_eq_early]

end Interval

end WindowSelect
