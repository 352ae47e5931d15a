import Mathlib.Data.List.Induction

/-!
# The line to the WIB receiver

Symbols of 16 bits with their K flags, and the order in which a frame goes over
the line: 120 words, the first one marked, and the two halves of the CRC.

Main results:

* `wordSymbols_append` — the symbols of a frame as it grows.
* `OnLine.of_append` — what follows the line protocol has followed it all along.
-/

namespace ProtoDune.Firmware

def K28_5_C : BitVec 8 := 0xBC
def K28_1_C : BitVec 8 := 0x3C
def K28_2_C : BitVec 8 := 0x5C

/-- What is on the line in a clock cycle. -/
structure LineSymbol where
  data : BitVec 16
  dataK : BitVec 2
deriving DecidableEq

/-- `K28_2_C & K28_1_C`, both bytes marked. -/
def idle : LineSymbol := ⟨K28_2_C ++ K28_1_C, 0b11⟩

/-- `EthernetCRCD16B`: the state after `init`, after a word, and the output. -/
structure CrcEngine (σ : Type*) where
  seed : σ
  next : σ → BitVec 16 → σ
  crc : σ → BitVec 32

variable {σ : Type*} (e : CrcEngine σ)

/-- A clock edge with the ports `init`, `ce` and `d`. -/
def CrcEngine.clock (init ce : Bool) (d : BitVec 16) (s : σ) : σ :=
  if init then e.seed else if ce then e.next s d else s

@[simp] theorem CrcEngine.clock_init (ce : Bool) (d : BitVec 16) (s : σ) :
    e.clock true ce d s = e.seed := rfl

@[simp] theorem CrcEngine.clock_ce (d : BitVec 16) (s : σ) :
    e.clock false true d s = e.next s d := rfl

@[simp] theorem CrcEngine.clock_hold (d : BitVec 16) (s : σ) : e.clock false false d s = s := rfl

/-- The CRC of the words. -/
def CrcEngine.checksum (ws : List (BitVec 16)) : BitVec 32 := e.crc (ws.foldl e.next e.seed)

/-! ## Frames on the line -/

/-- The words of a WIB frame. -/
def wibWords : Nat := 120

/-- The symbols of the words: the first one has its low byte marked. -/
def wordSymbols : List (BitVec 16) → List LineSymbol
  | [] => []
  | w :: ws => ⟨w, 0b01⟩ :: ws.map fun w => ⟨w, 0b00⟩

/-- The symbols of a CRC, low half first. -/
def crcSymbols (crc : BitVec 32) : List LineSymbol :=
  [⟨crc.extractLsb' 0 16, 0b00⟩, ⟨crc.extractLsb' 16 16, 0b00⟩]

/-- The symbols of a frame. -/
def frameSymbols (ws : List (BitVec 16)) : List LineSymbol :=
  wordSymbols ws ++ crcSymbols (e.checksum ws)

@[simp] theorem length_wordSymbols (ws : List (BitVec 16)) :
    (wordSymbols ws).length = ws.length := by
  cases ws with
  | nil => rfl
  | cons w ws => simp [wordSymbols]

theorem wordSymbols_append {ws : List (BitVec 16)} (hne : ws ≠ []) (vs : List (BitVec 16)) :
    wordSymbols (ws ++ vs) = wordSymbols ws ++ vs.map fun w => ⟨w, 0b00⟩ := by
  cases ws with
  | nil => exact absurd rfl hne
  | cons w ws => simp [wordSymbols]

theorem map_data_wordSymbols (ws : List (BitVec 16)) :
    (wordSymbols ws).map LineSymbol.data = ws := by
  cases ws with
  | nil => rfl
  | cons w ws => simp [wordSymbols, Function.comp_def]

/-! ## The line protocol -/

/-- What a line that follows the protocol carries at the moment. -/
inductive LineState where
  | gap
  | words (ws : List (BitVec 16))
  | crcLo (ws : List (BitVec 16))
  | crcHi (ws : List (BitVec 16))

/-- The symbols `S` follow the protocol: frames that have ended, each with the idle symbol
after it, and the state of the line. -/
inductive OnLine : List LineSymbol → List (List (BitVec 16)) → LineState → Prop
  | nil : OnLine [] [] .gap
  | idle {S fs} (h : OnLine S fs .gap) : OnLine (S ++ [idle]) fs .gap
  | first {S fs} (w : BitVec 16) (h : OnLine S fs .gap) (hw : w.extractLsb' 0 8 = K28_5_C) :
      OnLine (S ++ [⟨w, 0b01⟩]) fs (.words [w])
  | word {S fs ws} (w : BitVec 16) (h : OnLine S fs (.words ws)) (hlen : ws.length < wibWords) :
      OnLine (S ++ [⟨w, 0b00⟩]) fs (.words (ws ++ [w]))
  | crcLo {S fs ws} (h : OnLine S fs (.words ws)) (hlen : ws.length = wibWords) :
      OnLine (S ++ [⟨(e.checksum ws).extractLsb' 0 16, 0b00⟩]) fs (.crcLo ws)
  | crcHi {S fs ws} (h : OnLine S fs (.crcLo ws)) :
      OnLine (S ++ [⟨(e.checksum ws).extractLsb' 16 16, 0b00⟩]) fs (.crcHi ws)
  | last {S fs ws} (h : OnLine S fs (.crcHi ws)) : OnLine (S ++ [idle]) (fs ++ [ws]) .gap

variable {e} {S T : List LineSymbol} {fs : List (List (BitVec 16))} {o : LineState}

/-- Whether the line may idle. -/
def LineState.Closed : LineState → Prop
  | .gap => True
  | .crcHi _ => True
  | _ => False

/-- An idle symbol between frames. -/
theorem OnLine.pause (h : OnLine e S fs o) (ho : o.Closed) :
    ∃ fs, OnLine e (S ++ [ProtoDune.Firmware.idle]) fs .gap := by
  cases o with
  | gap => exact ⟨fs, h.idle⟩
  | crcHi ws => exact ⟨fs ++ [ws], h.last⟩
  | words ws => exact ho.elim
  | crcLo ws => exact ho.elim

/-- How long the frame on the line may be. -/
def LineState.Sized : LineState → Prop
  | .gap => True
  | .words ws => 0 < ws.length ∧ ws.length ≤ wibWords
  | .crcLo ws => ws.length = wibWords
  | .crcHi ws => ws.length = wibWords

theorem OnLine.sized (h : OnLine e S fs o) : o.Sized := by
  induction h with
  | nil => trivial
  | idle h => trivial
  | first w h hw => exact ⟨Nat.one_pos, Nat.succ_le_of_lt (Nat.zero_lt_succ _)⟩
  | word w h hlen ih =>
      rw [LineState.Sized, List.length_append, List.length_singleton]
      exact ⟨Nat.succ_pos _, hlen⟩
  | crcLo h hlen => exact hlen
  | crcHi h ih => exact ih
  | last h => trivial

theorem OnLine.length_of_mem (h : OnLine e S fs o) : ∀ ws ∈ fs, ws.length = wibWords := by
  induction h with
  | nil => exact fun _ h => absurd h List.not_mem_nil
  | last h ih =>
      intro ws hws
      rcases List.mem_append.mp hws with hmem | hmem
      · exact ih ws hmem
      · rw [List.mem_singleton.mp hmem]
        exact h.sized
  | idle _ ih => exact ih
  | first _ _ _ ih => exact ih
  | word _ _ _ ih => exact ih
  | crcLo _ _ ih => exact ih
  | crcHi _ ih => exact ih

theorem OnLine.of_append_singleton {s : LineSymbol} (h : OnLine e (S ++ [s]) fs o) :
    ∃ fs o, OnLine e S fs o := by
  generalize hT : S ++ [s] = T at h
  cases h with
  | nil => exact absurd hT (by simp)
  | idle h => exact ⟨_, _, (List.append_inj' hT rfl).1 ▸ h⟩
  | first w h _ => exact ⟨_, _, (List.append_inj' hT rfl).1 ▸ h⟩
  | word w h _ => exact ⟨_, _, (List.append_inj' hT rfl).1 ▸ h⟩
  | crcLo h _ => exact ⟨_, _, (List.append_inj' hT rfl).1 ▸ h⟩
  | crcHi h => exact ⟨_, _, (List.append_inj' hT rfl).1 ▸ h⟩
  | last h => exact ⟨_, _, (List.append_inj' hT rfl).1 ▸ h⟩

/-- What follows the protocol has followed it all along. -/
theorem OnLine.of_append (h : OnLine e (S ++ T) fs o) : ∃ fs o, OnLine e S fs o := by
  induction T using List.reverseRecOn generalizing fs o with
  | nil => exact ⟨fs, o, by rwa [List.append_nil] at h⟩
  | append_singleton T s ih =>
      rw [← List.append_assoc] at h
      obtain ⟨fs', o', h'⟩ := h.of_append_singleton
      exact ih h'

/-- A line that follows the protocol has sent its frames one after the other. -/
theorem OnLine.of_append_prefix (h : OnLine e (S ++ T) fs o) :
    ∃ fs' o', OnLine e S fs' o' ∧ fs' <+: fs := by
  induction T using List.reverseRecOn generalizing fs o with
  | nil => exact ⟨fs, o, by rwa [List.append_nil] at h, List.prefix_refl _⟩
  | append_singleton T s ih =>
      rw [← List.append_assoc] at h
      have hlast : ∃ fs' o', OnLine e (S ++ T) fs' o' ∧ fs' <+: fs := by
        generalize hU : S ++ T ++ [s] = U at h
        cases h with
        | nil => exact absurd hU (by simp)
        | idle h => exact ⟨_, _, (List.append_inj' hU rfl).1 ▸ h, List.prefix_refl _⟩
        | first w h _ => exact ⟨_, _, (List.append_inj' hU rfl).1 ▸ h, List.prefix_refl _⟩
        | word w h _ => exact ⟨_, _, (List.append_inj' hU rfl).1 ▸ h, List.prefix_refl _⟩
        | crcLo h _ => exact ⟨_, _, (List.append_inj' hU rfl).1 ▸ h, List.prefix_refl _⟩
        | crcHi h => exact ⟨_, _, (List.append_inj' hU rfl).1 ▸ h, List.prefix_refl _⟩
        | last h => exact ⟨_, _, (List.append_inj' hU rfl).1 ▸ h, List.prefix_append _ _⟩
      obtain ⟨fs', o', h', hpre⟩ := hlast
      obtain ⟨fs'', o'', h'', hpre'⟩ := ih h'
      exact ⟨fs'', o'', h'', hpre'.trans hpre⟩

/-- Before the last few words of a frame the line has sent the same frames. -/
theorem OnLine.of_append_words {ws : List (BitVec 16)} (h : OnLine e (S ++ T) fs (.words ws))
    (hlen : T.length < ws.length) : ∃ ws', OnLine e S fs (.words ws') := by
  induction T using List.reverseRecOn generalizing ws with
  | nil => exact ⟨ws, by rwa [List.append_nil] at h⟩
  | append_singleton T s ih =>
      rw [← List.append_assoc] at h
      rw [List.length_append, List.length_singleton] at hlen
      generalize hU : S ++ T ++ [s] = U at h
      cases h with
      | first w h _ => simp at hlen
      | word w h _ =>
          rw [List.length_append, List.length_singleton] at hlen
          exact ih ((List.append_inj' hU rfl).1 ▸ h) (by omega)

end ProtoDune.Firmware
