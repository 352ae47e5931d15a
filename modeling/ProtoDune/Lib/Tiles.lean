import Mathlib.Data.List.Chain
import ProtoDune.Lib.WindowSelect

/-!
# Contiguous spans

Spans of a linearly ordered time, each ending where the next begins. A point
after the beginning of the first and up to the end of the last is in one of
them, when a span is taken without its beginning and with its end.
-/

namespace Tiles

open WindowSelect (Span)

variable {T : Type*} [LinearOrder T]

/-- Each span ends where the next begins. -/
structure Contiguous (spans : List (Span T)) : Prop where
  joined : spans.IsChain fun a b => a.fin = b.beg
  ordered : ∀ a ∈ spans, a.beg ≤ a.fin

/-- The end of the last span. -/
def finish (s : Span T) (ss : List (Span T)) : T := ((s :: ss).getLast (List.cons_ne_nil s ss)).fin

namespace Contiguous

variable {s s' a b : Span T} {ss : List (Span T)} {x : T}

theorem tail (h : Contiguous (s :: ss)) : Contiguous ss :=
  ⟨h.joined.tail, fun a ha => h.ordered a (List.mem_cons_of_mem _ ha)⟩

theorem next (h : Contiguous (s :: s' :: ss)) : s.fin = s'.beg :=
  (List.isChain_cons_cons.mp h.joined).1

theorem head_le (h : Contiguous (s :: ss)) : s.beg ≤ s.fin := h.ordered s List.mem_cons_self

/-- Nothing begins before the first span does. -/
theorem beg_le (h : Contiguous (s :: ss)) (ha : a ∈ s :: ss) : s.beg ≤ a.beg := by
  induction ss generalizing s with
  | nil =>
    rw [List.mem_singleton.mp ha]
  | cons s' ss ih =>
    rcases List.mem_cons.mp ha with rfl | ha
    · exact le_refl _
    · calc s.beg ≤ s.fin := h.head_le
        _ = s'.beg := h.next
        _ ≤ a.beg := ih h.tail ha

/-- Nothing ends after the last span does. -/
theorem fin_le (h : Contiguous (s :: ss)) (ha : a ∈ s :: ss) : a.fin ≤ finish s ss := by
  induction ss generalizing s a with
  | nil =>
    rw [List.mem_singleton.mp ha]
    exact le_refl _
  | cons s' ss ih =>
    rcases List.mem_cons.mp ha with rfl | ha
    · calc a.fin = s'.beg := h.next
        _ ≤ s'.fin := h.tail.head_le
        _ ≤ finish s' ss := ih h.tail List.mem_cons_self
    · exact ih h.tail ha

/-- A span ends before the later ones begin. -/
theorem pairwise {spans : List (Span T)} (h : Contiguous spans) :
    spans.Pairwise fun a b => a.fin ≤ b.beg := by
  induction spans with
  | nil => exact List.Pairwise.nil
  | cons s ss ih =>
    refine List.pairwise_cons.mpr ⟨?_, ih h.tail⟩
    intro a ha
    cases ss with
    | nil => cases ha
    | cons s' ss =>
      rw [h.next]
      exact h.tail.beg_le ha

/-- **The spans cover** what lies between their ends. -/
theorem exists_mem (h : Contiguous (s :: ss)) (hlo : s.beg < x) (hhi : x ≤ finish s ss) :
    ∃ a ∈ s :: ss, a.beg < x ∧ x ≤ a.fin := by
  induction ss generalizing s with
  | nil => exact ⟨s, List.mem_cons_self, hlo, hhi⟩
  | cons s' ss ih =>
    rcases le_or_gt x s.fin with hle | hgt
    · exact ⟨s, List.mem_cons_self, hlo, hle⟩
    · obtain ⟨a, ha, hbeg, hfin⟩ := ih h.tail (h.next ▸ hgt) hhi
      exact ⟨a, List.mem_cons_of_mem _ ha, hbeg, hfin⟩

end Contiguous

end Tiles
