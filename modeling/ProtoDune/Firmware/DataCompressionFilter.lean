import Mathlib.Data.List.Forall2
import ProtoDune.Firmware.AxiStream
import ProtoDune.Lib.Framing

/-!
# `DuneDataCompressionFilter`

The stream filter cannot hold its source off: a word that arrives while the
output register is occupied is refused. The frame is then ended at once, with
EOFE set on its last word, and its remaining words are blown off.

Main results:

* `filter_stream_safe` — in a run in which no refusal touches the end of a
  frame, each frame comes out, in order, unchanged if none of its words was
  refused, and as a terminated proper prefix otherwise.
* `filter_swallows` — when the last word of a frame is refused, the next frame
  is swallowed with it.
-/

namespace ProtoDune.Firmware.DuneDataCompressionFilter

open Framing

variable {Data : Type*} {w : Nat}

inductive StateType where
  | MOVE_S
  | BLOWOFF_S
deriving DecidableEq

structure RegType (Data : Type*) (w : Nat) where
  mAxisMaster : AxiStreamMaster Data (BitVec w)
  state : StateType

/-- `REG_INIT_C`. -/
def REG_INIT_C [Inhabited Data] : RegType Data w where
  mAxisMaster := { tData := default, tLast := false, tUser := 0, tValid := false }
  state := .MOVE_S

-- the position in `tUser` of the EOFE bit of a word, which depends on its `tKeep`
variable (eofeBit : Data → Nat)

/-- `ssiSetUserEofe (.., '1')`. -/
def ssiSetUserEofe (m : AxiWord Data (BitVec w)) : AxiWord Data (BitVec w) :=
  { m with tUser := m.tUser ||| BitVec.twoPow w (eofeBit m.tData) }

/-- The last word of a frame that is cut off. -/
def terminate (m : AxiWord Data (BitVec w)) : AxiWord Data (BitVec w) :=
  { ssiSetUserEofe eofeBit m with tLast := true }

/-- The process `comb`: the next value of the registers. -/
def comb [Inhabited Data] (axisRst : Bool) (sAxisMaster : AxiStreamMaster Data (BitVec w))
    (tReady : Bool) (r : RegType Data w) : RegType Data w :=
  -- reset the strobes
  let v := if tReady then
      { r with mAxisMaster :=
        { r.mAxisMaster with tValid := false, tLast := false, tUser := 0 } }
    else r
  let v := match r.state with
    | .MOVE_S =>
        if sAxisMaster.tValid then
          if v.mAxisMaster.tValid = false then { v with mAxisMaster := sAxisMaster }
          else
            { mAxisMaster := { terminate eofeBit v.mAxisMaster.toAxiWord with tValid := true }
              state := .BLOWOFF_S }
        else v
    | .BLOWOFF_S =>
        if sAxisMaster.tValid ∧ sAxisMaster.tLast ∧ v.mAxisMaster.tValid = false then
          { v with state := .MOVE_S }
        else v
  if axisRst then REG_INIT_C else v

/-! ## Runs -/

/-- The inputs in one clock cycle. -/
structure Cycle (Data : Type*) (w : Nat) where
  sAxisMaster : AxiStreamMaster Data (BitVec w)
  tReady : Bool

/-- A word that arrived, and whether the output register was occupied. -/
structure Arrival (Data : Type*) (w : Nat) where
  word : AxiWord Data (BitVec w)
  refused : Bool
deriving DecidableEq

/-- The registers, the words that arrived and the words that were transferred. -/
structure Monitor (Data : Type*) (w : Nat) where
  r : RegType Data w
  arrived : List (Arrival Data w)
  delivered : List (AxiWord Data (BitVec w))

/-- A word arrives while the one before it waits in the output register. -/
def Refused (r : RegType Data w) (c : Cycle Data w) : Bool :=
  c.sAxisMaster.tValid && r.mAxisMaster.tValid && !c.tReady

/-- The word in the output register. -/
def pending (r : RegType Data w) : List (AxiWord Data (BitVec w)) :=
  if r.mAxisMaster.tValid then [r.mAxisMaster.toAxiWord] else []

/-- One clock cycle. -/
def tick [Inhabited Data] (m : Monitor Data w) (c : Cycle Data w) : Monitor Data w where
  r := comb eofeBit false c.sAxisMaster c.tReady m.r
  arrived := m.arrived ++
    if c.sAxisMaster.tValid then [⟨c.sAxisMaster.toAxiWord, Refused m.r c⟩] else []
  delivered := m.delivered ++ if c.tReady then pending m.r else []

/-- The cycles since the reset. -/
def run [Inhabited Data] (cs : List (Cycle Data w)) : Monitor Data w :=
  cs.foldl (tick eofeBit) ⟨REG_INIT_C, [], []⟩

/-- The output so far, with the word that waits in the register. -/
def Monitor.output (m : Monitor Data w) : List (AxiWord Data (BitVec w)) :=
  m.delivered ++ pending m.r

/-! ## What the filter is for -/

/-- A frame none of whose words was refused is copied. -/
def Copied (I : List (Arrival Data w)) (O : List (AxiWord Data (BitVec w))) : Prop :=
  (∀ a ∈ I, a.refused = false) ∧ O = I.map Arrival.word

/-- A frame is cut before the first word that was refused. -/
def Truncated (I : List (Arrival Data w)) (O : List (AxiWord Data (BitVec w))) : Prop :=
  ∃ kept p b dropped, I = kept ++ p :: b :: dropped ∧
    (∀ a ∈ kept, a.refused = false) ∧ p.refused = false ∧ b.refused = true ∧
    O = kept.map Arrival.word ++ [terminate eofeBit p.word]

def Passed (I : List (Arrival Data w)) (O : List (AxiWord Data (BitVec w))) : Prop :=
  Copied I O ∨ Truncated eofeBit I O

/-- The frames of the output are those of the input, in order, each copied or
truncated. The open frame of the input is treated likewise; when truncated, it is
already complete on the output. -/
def StreamSafe (arrived : List (Arrival Data w)) (output : List (AxiWord Data (BitVec w))) :
    Prop :=
  let F := frames (·.word.tLast) arrived
  let G := frames (·.tLast) output
  (Copied F.rest G.rest ∧ List.Forall₂ (Passed eofeBit) F.complete G.complete) ∨
  (∃ O, Truncated eofeBit F.rest O ∧ G.rest = [] ∧
    List.Forall₂ (Passed eofeBit) (F.complete ++ [F.rest]) G.complete)

/-! ## Clear cycles -/

/-- A word that is refused does not end its frame, and neither does the word
that waits in the register, unless the filter has ended the frame itself. -/
def Clear (r : RegType Data w) (c : Cycle Data w) : Prop :=
  Refused r c = true → c.sAxisMaster.tLast = false ∧
    (r.state = .MOVE_S → r.mAxisMaster.tLast = false)

instance (r : RegType Data w) (c : Cycle Data w) : Decidable (Clear r c) :=
  inferInstanceAs (Decidable (_ → _ ∧ _))

/-- All cycles of a run are clear. -/
def ClearRun [Inhabited Data] : Monitor Data w → List (Cycle Data w) → Prop
  | _, [] => True
  | m, c :: cs => Clear m.r c ∧ ClearRun (tick eofeBit m c) cs

instance [Inhabited Data] : ∀ (m : Monitor Data w) (cs : List (Cycle Data w)),
    Decidable (ClearRun eofeBit m cs)
  | _, [] => isTrue trivial
  | m, c :: cs =>
      have : Decidable (ClearRun eofeBit (tick eofeBit m c) cs) := instDecidableClearRun _ cs
      inferInstanceAs (Decidable (Clear m.r c ∧ ClearRun eofeBit (tick eofeBit m c) cs))

/-! ## The step -/

variable {eofeBit} {m : Monitor Data w} {c : Cycle Data w}

section Step

variable [Inhabited Data]

theorem tick_idle (hv : c.sAxisMaster.tValid = false) :
    (tick eofeBit m c).arrived = m.arrived ∧ (tick eofeBit m c).output = m.output ∧
    (tick eofeBit m c).r.state = m.r.state ∧
    ((tick eofeBit m c).r.mAxisMaster.tValid = true → (tick eofeBit m c).r = m.r) := by
  unfold tick comb Monitor.output pending
  cases hr : c.tReady <;> cases hs : m.r.state <;> simp [hv, hs]

theorem tick_forward (hs : m.r.state = .MOVE_S) (hv : c.sAxisMaster.tValid = true)
    (href : Refused m.r c = false) :
    (tick eofeBit m c).arrived = m.arrived ++ [⟨c.sAxisMaster.toAxiWord, false⟩] ∧
    (tick eofeBit m c).output = m.output ++ [c.sAxisMaster.toAxiWord] ∧
    (tick eofeBit m c).r = ⟨c.sAxisMaster, .MOVE_S⟩ := by
  have hroom : m.r.mAxisMaster.tValid = true → c.tReady = true := by
    intro hm
    simpa [Refused, hv, hm] using href
  unfold tick comb Monitor.output pending
  cases hr : c.tReady <;> cases hm : m.r.mAxisMaster.tValid <;>
    simp_all

theorem tick_cut (hs : m.r.state = .MOVE_S) (href : Refused m.r c = true) :
    (tick eofeBit m c).arrived = m.arrived ++ [⟨c.sAxisMaster.toAxiWord, true⟩] ∧
    m.output = m.delivered ++ [m.r.mAxisMaster.toAxiWord] ∧
    (tick eofeBit m c).output = m.delivered ++ [terminate eofeBit m.r.mAxisMaster.toAxiWord] ∧
    (tick eofeBit m c).r.state = .BLOWOFF_S := by
  have hcase := href
  simp only [Refused, Bool.and_eq_true, Bool.not_eq_true'] at hcase
  obtain ⟨⟨hv, hm⟩, hr⟩ := hcase
  unfold tick comb Monitor.output pending
  simp [hv, hm, hr, hs, href]

theorem tick_drop (hs : m.r.state = .BLOWOFF_S) (hv : c.sAxisMaster.tValid = true) :
    (tick eofeBit m c).arrived = m.arrived ++ [⟨c.sAxisMaster.toAxiWord, Refused m.r c⟩] ∧
    (tick eofeBit m c).output = m.output ∧
    (tick eofeBit m c).r.state =
      (if c.sAxisMaster.tLast ∧ Refused m.r c = false then .MOVE_S else .BLOWOFF_S) ∧
    ((tick eofeBit m c).r.state = .MOVE_S → (tick eofeBit m c).r.mAxisMaster.tValid = false) := by
  unfold tick comb Monitor.output pending Refused
  cases hr : c.tReady <;> cases hm : m.r.mAxisMaster.tValid <;>
    cases hl : c.sAxisMaster.tLast <;> simp [hv, hs, hm]

end Step

/-! ## The invariant -/

/-- The frames of the words that arrived. -/
def inFrames (m : Monitor Data w) : Frames (Arrival Data w) :=
  frames (·.word.tLast) m.arrived

/-- In `MOVE_S`: the complete frames went to `Os`, the open frame is on the output. -/
structure Moving (m : Monitor Data w) (Os : List (List (AxiWord Data (BitVec w)))) : Prop where
  state : m.r.state = .MOVE_S
  output : m.output = Os.flatten ++ (inFrames m).rest.map Arrival.word
  accepted : ∀ a ∈ (inFrames m).rest, a.refused = false
  between : (inFrames m).rest = [] → m.r.mAxisMaster.tValid = true →
    m.r.mAxisMaster.tLast = true

/-- In `BLOWOFF_S`: the open frame was cut to `O`. -/
structure BlowingOff (eofeBit : Data → Nat) (m : Monitor Data w)
    (Os : List (List (AxiWord Data (BitVec w)))) (O : List (AxiWord Data (BitVec w))) : Prop where
  state : m.r.state = .BLOWOFF_S
  output : m.output = Os.flatten ++ O
  cut : Truncated eofeBit (inFrames m).rest O

def Inv (eofeBit : Data → Nat) (m : Monitor Data w) : Prop :=
  ∃ Os, List.Forall₂ (Passed eofeBit) (inFrames m).complete Os ∧
    (Moving m Os ∨ ∃ O, BlowingOff eofeBit m Os O)

theorem Truncated.snoc {I : List (Arrival Data w)} {O : List (AxiWord Data (BitVec w))}
    (h : Truncated eofeBit I O) (b : Arrival Data w) : Truncated eofeBit (I ++ [b]) O := by
  obtain ⟨kept, p, r, dropped, rfl, hkept, hp, hr, hO⟩ := h
  exact ⟨kept, p, r, dropped ++ [b], by simp, hkept, hp, hr, hO⟩

theorem inFrames_last {b : Arrival Data w} {m' : Monitor Data w}
    (h : m'.arrived = m.arrived ++ [b]) (hl : b.word.tLast = true) :
    inFrames m' = ⟨(inFrames m).complete ++ [(inFrames m).rest ++ [b]], []⟩ := by
  unfold inFrames
  rw [h]
  exact frames_append_last hl

theorem inFrames_inner {b : Arrival Data w} {m' : Monitor Data w}
    (h : m'.arrived = m.arrived ++ [b]) (hl : b.word.tLast = false) :
    inFrames m' = ⟨(inFrames m).complete, (inFrames m).rest ++ [b]⟩ := by
  unfold inFrames
  rw [h]
  exact frames_append_inner hl

section Preserved

variable [Inhabited Data]

/-- A word is forwarded. -/
theorem Moving.forward {Os : List (List (AxiWord Data (BitVec w)))} (h : Moving m Os)
    (hpass : List.Forall₂ (Passed eofeBit) (inFrames m).complete Os)
    (hv : c.sAxisMaster.tValid = true) (href : Refused m.r c = false) :
    Inv eofeBit (tick eofeBit m c) := by
  obtain ⟨harr, hout, hr⟩ := tick_forward h.state hv href
  rw [h.output, List.append_assoc] at hout
  have hacc : ∀ a ∈ (inFrames m).rest ++ [⟨c.sAxisMaster.toAxiWord, false⟩],
      a.refused = false := by
    intro a ha
    rcases List.mem_append.mp ha with ha | ha
    · exact h.accepted a ha
    · rw [List.mem_singleton.mp ha]
  cases hl : c.sAxisMaster.tLast with
  | true =>
    have hF := inFrames_last harr hl
    refine ⟨Os ++ [(inFrames m).rest.map Arrival.word ++ [c.sAxisMaster.toAxiWord]],
      ?_, .inl ⟨by rw [hr], ?_, ?_, ?_⟩⟩
    · rw [hF]
      exact List.rel_append hpass (.cons (.inl ⟨hacc, by simp⟩) .nil)
    · rw [hout, hF]
      simp
    · rw [hF]
      exact fun _ ha => absurd ha List.not_mem_nil
    · intro _ _
      rw [hr]
      exact hl
  | false =>
    have hF := inFrames_inner harr hl
    refine ⟨Os, by rw [hF]; exact hpass, .inl ⟨by rw [hr], ?_, ?_, ?_⟩⟩
    · rw [hout, hF]
      simp
    · rw [hF]
      exact hacc
    · rw [hF]
      intro hnil
      simp at hnil

/-- A word is refused: the frame is cut. -/
theorem Moving.cut {Os : List (List (AxiWord Data (BitVec w)))} (h : Moving m Os)
    (hpass : List.Forall₂ (Passed eofeBit) (inFrames m).complete Os) (hclear : Clear m.r c)
    (href : Refused m.r c = true) : Inv eofeBit (tick eofeBit m c) := by
  obtain ⟨harr, hold, hout, hstate⟩ := tick_cut h.state href
  obtain ⟨hl, hwait⟩ := hclear href
  have hF := inFrames_inner harr hl
  -- the waiting word belongs to the open frame
  have hne : (inFrames m).rest ≠ [] := by
    intro hnil
    have hv : m.r.mAxisMaster.tValid = true := by
      simp only [Refused, Bool.and_eq_true] at href
      exact href.1.2
    have := h.between hnil hv
    rw [hwait h.state] at this
    exact absurd this nofun
  obtain ⟨kept, p, hrest⟩ : ∃ kept p, (inFrames m).rest = kept ++ [p] :=
    ⟨_, _, (List.dropLast_concat_getLast hne).symm⟩
  have hsplit : m.delivered ++ [m.r.mAxisMaster.toAxiWord] =
      (Os.flatten ++ kept.map Arrival.word) ++ [p.word] := by
    rw [← hold, h.output, hrest]
    simp
  obtain ⟨hdel, hword⟩ := List.append_inj' hsplit rfl
  have hword : m.r.mAxisMaster.toAxiWord = p.word := List.singleton_inj.mp hword
  refine ⟨Os, by rw [hF]; exact hpass, .inr ⟨kept.map Arrival.word ++
    [terminate eofeBit p.word], hstate, ?_, ?_⟩⟩
  · rw [hout, hdel, hword, List.append_assoc]
  · rw [hF]
    refine ⟨kept, p, ⟨c.sAxisMaster.toAxiWord, true⟩, [], by rw [hrest]; simp, ?_, ?_, rfl, rfl⟩
    · exact fun a ha => h.accepted a (by rw [hrest]; exact List.mem_append_left _ ha)
    · exact h.accepted p (by rw [hrest]; simp)

/-- A word is blown off. -/
theorem BlowingOff.drop {Os : List (List (AxiWord Data (BitVec w)))}
    {O : List (AxiWord Data (BitVec w))} (h : BlowingOff eofeBit m Os O)
    (hpass : List.Forall₂ (Passed eofeBit) (inFrames m).complete Os) (hclear : Clear m.r c)
    (hv : c.sAxisMaster.tValid = true) : Inv eofeBit (tick eofeBit m c) := by
  obtain ⟨harr, hout, hstate, hempty⟩ := tick_drop h.state hv
  rw [h.output] at hout
  cases hl : c.sAxisMaster.tLast with
  | true =>
    -- the end of the frame is seen, as the register is free
    have href : Refused m.r c = false := by
      cases href : Refused m.r c with
      | true => rw [(hclear href).1] at hl; cases hl
      | false => rfl
    have hF := inFrames_last harr hl
    rw [if_pos ⟨hl, href⟩] at hstate
    refine ⟨Os ++ [O], ?_, .inl ⟨hstate, ?_, ?_, ?_⟩⟩
    · rw [hF]
      exact List.rel_append hpass (.cons (.inr (h.cut.snoc _)) .nil)
    · rw [hout, hF]
      simp
    · rw [hF]
      exact fun _ ha => absurd ha List.not_mem_nil
    · intro _ hv'
      rw [hempty hstate] at hv'
      cases hv'
  | false =>
    have hF := inFrames_inner harr hl
    rw [if_neg (by simp [hl])] at hstate
    refine ⟨Os, by rw [hF]; exact hpass, .inr ⟨O, hstate, hout, ?_⟩⟩
    rw [hF]
    exact h.cut.snoc _

theorem Inv.tick (h : Inv eofeBit m) (hclear : Clear m.r c) : Inv eofeBit (tick eofeBit m c) := by
  obtain ⟨Os, hpass, hcase⟩ := h
  cases hv : c.sAxisMaster.tValid with
  | false =>
    obtain ⟨harr, hout, hstate, hreg⟩ := tick_idle (m := m) hv
    have hF : inFrames (DuneDataCompressionFilter.tick eofeBit m c) = inFrames m := by
      unfold inFrames
      rw [harr]
    refine ⟨Os, by rw [hF]; exact hpass, ?_⟩
    rcases hcase with hmove | ⟨O, hblow⟩
    · refine .inl ⟨hstate.trans hmove.state, by rw [hout, hF, hmove.output],
        by rw [hF]; exact hmove.accepted, ?_⟩
      rw [hF]
      intro hnil hv'
      have hsame := hreg hv'
      rw [hsame] at hv' ⊢
      exact hmove.between hnil hv'
    · exact .inr ⟨O, hstate.trans hblow.state, by rw [hout, hblow.output],
        by rw [hF]; exact hblow.cut⟩
  | true =>
    rcases hcase with hmove | ⟨O, hblow⟩
    · cases href : Refused m.r c with
      | false => exact hmove.forward hpass hv href
      | true => exact hmove.cut hpass hclear href
    · exact hblow.drop hpass hclear hv

theorem Inv.run {cs : List (Cycle Data w)} (h : Inv eofeBit m) (hclear : ClearRun eofeBit m cs) :
    Inv eofeBit (cs.foldl (DuneDataCompressionFilter.tick eofeBit) m) := by
  induction cs generalizing m with
  | nil => exact h
  | cons c cs ih => exact ih (h.tick hclear.1) hclear.2

end Preserved

/-! ## The invariant gives the property -/

theorem Truncated.isFrame {I : List (Arrival Data w)} {O : List (AxiWord Data (BitVec w))}
    (h : Truncated eofeBit I O) (hI : ∀ a ∈ I.dropLast, a.word.tLast = false) :
    IsFrame (·.tLast) O := by
  obtain ⟨kept, p, b, dropped, rfl, -, -, -, rfl⟩ := h
  refine ⟨_, _, rfl, rfl, ?_⟩
  intro x hx
  obtain ⟨a, ha, rfl⟩ := List.mem_map.mp hx
  refine hI a ?_
  rw [List.dropLast_append_of_ne_nil (by simp)]
  exact List.mem_append_left _ ha

theorem Passed.isFrame {I : List (Arrival Data w)} {O : List (AxiWord Data (BitVec w))}
    (h : Passed eofeBit I O) (hI : IsFrame (·.word.tLast) I) : IsFrame (·.tLast) O := by
  obtain ⟨init, l, rfl, hl, hinit⟩ := hI
  rcases h with ⟨-, rfl⟩ | hcut
  · refine ⟨init.map Arrival.word, l.word, by simp, hl, ?_⟩
    intro x hx
    obtain ⟨a, ha, rfl⟩ := List.mem_map.mp hx
    exact hinit a ha
  · exact hcut.isFrame (by simpa using hinit)

theorem isFrame_of_forall₂ {Is : List (List (Arrival Data w))}
    {Os : List (List (AxiWord Data (BitVec w)))} (h : List.Forall₂ (Passed eofeBit) Is Os)
    (hI : ∀ I ∈ Is, IsFrame (·.word.tLast) I) : ∀ O ∈ Os, IsFrame (·.tLast) O := by
  induction h with
  | nil => exact fun _ h => absurd h List.not_mem_nil
  | cons hIO _ ih =>
    intro O hO
    rcases List.mem_cons.mp hO with rfl | hO
    · exact hIO.isFrame (hI _ List.mem_cons_self)
    · exact ih (fun I h => hI I (List.mem_cons_of_mem _ h)) O hO

theorem Inv.streamSafe (h : Inv eofeBit m) : StreamSafe eofeBit m.arrived m.output := by
  obtain ⟨Os, hpass, hcase⟩ := h
  have hOs := isFrame_of_forall₂ hpass (isFrame_of_mem_frames m.arrived)
  rcases hcase with hmove | ⟨O, hblow⟩
  · left
    have hG : frames (·.tLast) m.output = ⟨Os, (inFrames m).rest.map Arrival.word⟩ := by
      rw [hmove.output]
      refine frames_flatten hOs fun x hx => ?_
      obtain ⟨a, ha, rfl⟩ := List.mem_map.mp hx
      exact frames_rest_last m.arrived a ha
    rw [hG]
    exact ⟨⟨hmove.accepted, rfl⟩, hpass⟩
  · right
    have hO : IsFrame (·.tLast) O := hblow.cut.isFrame fun a ha =>
      frames_rest_last m.arrived a (List.dropLast_subset _ ha)
    have hG : frames (·.tLast) m.output = ⟨Os ++ [O], []⟩ := by
      have hout : m.output = (Os ++ [O]).flatten ++ [] := by
        rw [hblow.output]
        simp
      rw [hout]
      refine frames_flatten ?_ fun _ h => absurd h List.not_mem_nil
      intro f hf
      rcases List.mem_append.mp hf with hf | hf
      · exact hOs f hf
      · rw [List.mem_singleton.mp hf]
        exact hO
    rw [hG]
    exact ⟨O, hblow.cut, rfl, List.rel_append hpass (.cons (.inr hblow.cut) .nil)⟩

/-- **Stream safety.** While all cycles are clear, every frame that arrives comes
out once and in its turn: unchanged if none of its words was refused, and cut
before the first refused word otherwise. -/
theorem filter_stream_safe [Inhabited Data] (eofeBit : Data → Nat) (cs : List (Cycle Data w))
    (h : ClearRun eofeBit ⟨REG_INIT_C, [], []⟩ cs) :
    StreamSafe eofeBit (run eofeBit cs).arrived (run eofeBit cs).output := by
  have hstart : Inv eofeBit (⟨REG_INIT_C, [], []⟩ : Monitor Data w) :=
    ⟨[], .nil, .inl ⟨rfl, rfl, fun _ ha => absurd ha List.not_mem_nil, fun _ hv => by cases hv⟩⟩
  exact (hstart.run h).streamSafe

/-- A cycle in which `d` arrives. -/
def feed (d : BitVec 64) (tLast tReady : Bool) : Cycle (BitVec 64) 32 :=
  ⟨⟨⟨d, tLast, 0⟩, true⟩, tReady⟩

/-- A cycle in which nothing arrives. -/
def rest (tReady : Bool) : Cycle (BitVec 64) 32 := ⟨⟨⟨0, false, 0⟩, false⟩, tReady⟩

/-- The second word of three is refused, and the next frame passes. -/
theorem filter_stream_safe_cut :
    let cs := [feed 1 false true, feed 2 false false, rest true, feed 3 true true,
      feed 4 true true, rest true]
    StreamSafe (fun _ => 28) (run (fun _ => 28) cs).arrived (run (fun _ => 28) cs).output :=
  filter_stream_safe (fun _ => 28) _ (by decide)

/-- The last word of a frame is refused, and the next frame does not come out. -/
theorem filter_swallows :
    ¬ ∀ cs : List (Cycle (BitVec 64) 32),
      StreamSafe (fun _ => 28) (run (fun _ => 28) cs).arrived (run (fun _ => 28) cs).output := by
  intro h
  have hsafe := h [feed 1 false true, feed 2 true false, rest true, feed 3 true true, rest true]
  rcases hsafe with ⟨-, hframes⟩ | ⟨O, ⟨kept, p, b, dropped, hrest, -⟩, -⟩
  · have hlen := hframes.length_eq
    exact absurd hlen (by decide)
  · have hlen := congrArg List.length hrest
    have hnil : (frames (fun a : Arrival (BitVec 64) 32 => a.word.tLast) (run (fun _ => 28)
      [feed 1 false true, feed 2 true false, rest true, feed 3 true true, rest true]).arrived).rest
        = [] := by decide
    rw [hnil] at hlen
    simp at hlen

end ProtoDune.Firmware.DuneDataCompressionFilter
