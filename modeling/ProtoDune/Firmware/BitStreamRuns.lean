import ProtoDune.Firmware.BitStream64

/-!
# `BitStream64.h`: sequences of inserts

Any fields of at most 64 bits are inserted into a new stream, which is then
transferred or flushed. What the `OStream` holds is compared with the fields one
after the other.

Main results:

* `inserts_spec` — where the inserts are defined, they append the fields.
* `stream_exact_iff` — the stream is exact where no whole word meets a word boundary.
-/

namespace ProtoDune.Firmware

open BitString

/-- The arguments of an `insert`: at most 64 bits, none of them above the field. -/
structure Field where
  bits : Nat
  nbits : Nat
  lt : bits < 2 ^ nbits
  le : nbits ≤ 64

/-- The fields one after the other. -/
def concat (fields : List Field) : List Bool := fields.flatMap fun f => toBits f.nbits f.bits

/-- The sum of the widths. -/
def bitCount (fields : List Field) : Nat := (fields.map Field.nbits).sum

/-- None of the fields that follow `pos` bits is a whole word at a word boundary. -/
def OffBoundary (pos : Nat) : List Field → Prop
  | [] => True
  | f :: fields => (f.nbits = 64 → pos % 64 ≠ 0) ∧ OffBoundary (pos + f.nbits) fields

namespace BitStream64

/-- The constructor. -/
def new : BitStream64 := ⟨0, 0⟩

def inserts (bs : BitStream64) (os : OStream) : List Field → Option (BitStream64 × OStream)
  | [] => some (bs, os)
  | f :: fields => do
      let (bs, os) ← bs.insert os f.bits f.nbits
      inserts bs os fields

/-- `flush`: write the partial word, its bits first. -/
def flush (bs : BitStream64) (os : OStream) : Option OStream := do
  let os ←
    if bs.bidx ≠ 0 then do
      let cur ← shl64 bs.cur (64 - bs.bidx)
      os.write cur bs.widx
    else some os
  some { os with cidx := bs.idx, ccur := 0 }

end BitStream64

/-- The end of a stream. -/
inductive Ending where
  | transfer
  | flush
deriving DecidableEq

namespace Ending

def apply (e : Ending) (bs : BitStream64) (os : OStream) : Option OStream :=
  match e with
  | .transfer => some (bs.transfer os)
  | .flush => bs.flush os

/-- The bits of the stream: the full words and the low bits of the staging word, or the first bits
of all words. -/
def bits (e : Ending) (os : OStream) : List Bool :=
  match e with
  | .transfer => contents os.buf os.ccur os.cidx
  | .flush => (words os.buf ((os.cidx + 63) / 64)).take os.cidx

/-- The words that are written fit the buffer. -/
def Fits (e : Ending) (count : Nat) : Prop :=
  match e with
  | .transfer => count / 64 ≤ 256
  | .flush => (count + 63) / 64 ≤ 256

end Ending

theorem length_concat (fields : List Field) : (concat fields).length = bitCount fields := by
  induction fields with
  | nil => rfl
  | cons f fields ih =>
    rw [concat, List.flatMap_cons, List.length_append, length_toBits, bitCount, List.map_cons,
      List.sum_cons]
    exact congrArg _ ih

/-! ## The inserts -/

namespace BitStream64

variable {bs : BitStream64} {os : OStream} {fields : List Field}

/-- Where no whole word meets a word boundary and the buffer has room, the fields are appended. -/
theorem inserts_spec (os : OStream) (hoff : OffBoundary bs.idx fields)
    (hroom : (bs.idx + bitCount fields) / 64 ≤ 256) :
    ∃ bs' os', bs.inserts os fields = some (bs', os') ∧
      bs'.contents os' = bs.contents os ++ concat fields := by
  induction fields generalizing bs os with
  | nil => exact ⟨bs, os, rfl, (List.append_nil _).symm⟩
  | cons f fields ih =>
    have hcount : bitCount (f :: fields) = f.nbits + bitCount fields := rfl
    obtain ⟨bs₁, os₁, hinsert, hcontents⟩ := bs.insert_spec os f.lt f.le hoff.1 (by omega)
    have hidx : bs₁.idx = bs.idx + f.nbits := by
      rw [← bs₁.length_contents os₁, hcontents, List.length_append, length_contents, length_toBits]
    obtain ⟨bs', os', hrest, hcontents'⟩ := ih os₁ (by rw [hidx]; exact hoff.2)
      (by rw [hidx]; omega)
    refine ⟨bs', os', ?_, ?_⟩
    · rw [inserts, hinsert]
      exact hrest
    · rw [hcontents', hcontents, List.append_assoc]
      rfl

/-- The inserts are defined there only. -/
theorem inserts_defined {bs' : BitStream64} {os' : OStream} (hidx : bs.idx / 64 ≤ 256)
    (h : bs.inserts os fields = some (bs', os')) :
    OffBoundary bs.idx fields ∧ (bs.idx + bitCount fields) / 64 ≤ 256 := by
  induction fields generalizing bs os with
  | nil => exact ⟨trivial, hidx⟩
  | cons f fields ih =>
    have hcount : bitCount (f :: fields) = f.nbits + bitCount fields := rfl
    rw [inserts] at h
    obtain ⟨⟨bs₁, os₁⟩, hinsert, hrest⟩ := Option.bind_eq_some_iff.mp h
    have hdefined : bs.insert os f.bits f.nbits ≠ none := by
      rw [hinsert]
      exact nofun
    rw [ne_eq, insert_eq_none bs os f.le, not_or] at hdefined
    obtain ⟨hword, hfull⟩ := hdefined
    have hword' : f.nbits = 64 → bs.idx % 64 ≠ 0 := fun hn hzero => hword ⟨hn, hzero⟩
    have hroom : (bs.idx + f.nbits) / 64 ≤ 256 := by
      have hle := f.le
      unfold bidx widx at hfull
      omega
    obtain ⟨bs₂, os₂, hinsert', hcontents⟩ := bs.insert_spec os f.lt f.le hword' hroom
    obtain ⟨rfl, rfl⟩ := Prod.mk.inj (Option.some.inj (hinsert.symm.trans hinsert'))
    have hnext : bs₁.idx = bs.idx + f.nbits := by
      rw [← bs₁.length_contents os₁, hcontents, List.length_append, length_contents, length_toBits]
    obtain ⟨hoff, hcount'⟩ := ih (by rw [hnext]; exact hroom) hrest
    rw [hnext] at hoff hcount'
    exact ⟨⟨hword', hoff⟩, by omega⟩

/-- A flush writes the partial word where there is room for it. -/
theorem flush_spec (os : OStream) (hroom : (bs.idx + 63) / 64 ≤ 256) :
    ∃ os', bs.flush os = some os' ∧ os'.cidx = bs.idx ∧
      Ending.flush.bits os' = bs.contents os := by
  by_cases hpart : bs.bidx = 0
  · refine ⟨{ os with cidx := bs.idx, ccur := 0 }, ?_, rfl, ?_⟩
    · unfold flush
      rw [if_neg (not_not.mpr hpart)]
      rfl
    · unfold bidx at hpart
      have hwords : (bs.idx + 63) / 64 = bs.idx / 64 := by omega
      unfold Ending.bits contents Firmware.contents
      dsimp only
      rw [hwords, hpart, toBits_zero, List.append_nil, List.take_of_length_le]
      rw [length_words]
      omega
  · have hlt : 64 - bs.bidx < 64 := by omega
    have hb : bs.bidx < 64 := Nat.mod_lt _ (by decide)
    have hwidx : bs.widx < 256 := by
      unfold bidx at hpart
      unfold widx
      omega
    refine ⟨{ os with
      buf := Function.update os.buf bs.widx (bs.cur <<< (64 - bs.bidx) % 2 ^ 64)
      cidx := bs.idx
      ccur := 0 }, ?_, rfl, ?_⟩
    · unfold flush shl64
      rw [if_pos hpart, if_pos hlt]
      simp only [Option.bind_eq_bind, Option.bind_some]
      rw [OStream.write_of_lt hwidx]
      rfl
    · have hwords : (bs.idx + 63) / 64 = bs.widx + 1 := by
        unfold bidx at hpart
        unfold widx
        omega
      have hword : toBits 64 (bs.cur <<< (64 - bs.bidx) % 2 ^ 64) =
          toBits bs.bidx bs.cur ++ toBits (64 - bs.bidx) 0 := by
        have hshift := toBits_shift_mod_or (Nat.two_pow_pos (64 - bs.bidx)) (w := 64)
          (m := bs.bidx) (by omega) bs.cur
        rwa [Nat.add_sub_cancel' (Nat.le_of_lt hb), Nat.or_zero] at hshift
      have htake : bs.idx = (words os.buf bs.widx ++ toBits bs.bidx bs.cur).length := by
        rw [List.length_append, length_words, length_toBits]
        unfold widx bidx
        omega
      unfold Ending.bits contents Firmware.contents
      dsimp only
      rw [hwords, words, words_update, Function.update_self, hword, ← List.append_assoc]
      nth_rewrite 1 [htake]
      exact List.take_left' rfl

/-- A flush is defined there only. -/
theorem flush_defined {os' : OStream} (h : bs.flush os = some os') (hidx : bs.idx / 64 ≤ 256) :
    (bs.idx + 63) / 64 ≤ 256 := by
  by_contra hroom
  have hpart : bs.bidx ≠ 0 := by
    unfold bidx
    omega
  have hlt : 64 - bs.bidx < 64 := by omega
  have hwidx : ¬ bs.widx < 256 := by
    unfold widx
    omega
  unfold flush shl64 OStream.write at h
  rw [if_pos hpart, if_pos hlt] at h
  simp only [Option.bind_eq_bind, Option.bind_some, if_neg hwidx] at h
  exact absurd h nofun

end BitStream64

/-! ## Whole streams -/

/-- The stream of the fields is defined, and holds them. -/
def StreamExact (e : Ending) (os : OStream) (fields : List Field) : Prop :=
  ∃ bs₁ os₁ os', BitStream64.new.inserts os fields = some (bs₁, os₁) ∧
    bs₁.idx = bitCount fields ∧ e.apply bs₁ os₁ = some os' ∧ os'.cidx = bs₁.idx ∧
    e.bits os' = concat fields

/-- **The stream is exact** where no field of 64 bits comes at a word boundary, as long as the words
fit the buffer. -/
theorem stream_exact_iff (e : Ending) (os : OStream) (fields : List Field) :
    StreamExact e os fields ↔ OffBoundary 0 fields ∧ e.Fits (bitCount fields) := by
  have hnil : BitStream64.new.contents os = [] := rfl
  constructor
  · rintro ⟨bs₁, os₁, os', hinserts, hidx, happly, -⟩
    have hzero : BitStream64.new.idx / 64 ≤ 256 := Nat.zero_le 256
    obtain ⟨hoff, hroom⟩ := BitStream64.inserts_defined hzero hinserts
    rw [show BitStream64.new.idx = 0 from rfl, Nat.zero_add] at hroom
    refine ⟨hoff, ?_⟩
    cases e with
    | transfer => exact hroom
    | flush =>
      have hfits := BitStream64.flush_defined happly (by rw [hidx]; exact hroom)
      rw [hidx] at hfits
      exact hfits
  · rintro ⟨hoff, hfits⟩
    have hroom : (BitStream64.new.idx + bitCount fields) / 64 ≤ 256 := by
      rw [show BitStream64.new.idx = 0 from rfl, Nat.zero_add]
      cases e with
      | transfer => exact hfits
      | flush => exact Nat.le_trans (Nat.div_le_div_right (Nat.le_add_right _ 63)) hfits
    obtain ⟨bs₁, os₁, hinserts, hcontents⟩ := BitStream64.inserts_spec os hoff hroom
    rw [hnil, List.nil_append] at hcontents
    have hidx : bs₁.idx = bitCount fields := by
      rw [← bs₁.length_contents os₁, hcontents, length_concat]
    cases e with
    | transfer => exact ⟨bs₁, os₁, _, hinserts, hidx, rfl, rfl, hcontents⟩
    | flush =>
      obtain ⟨os', hflush, hcidx, hbits⟩ := BitStream64.flush_spec os₁ (by rw [hidx]; exact hfits)
      exact ⟨bs₁, os₁, os', hinserts, hidx, hflush, hcidx, hbits.trans hcontents⟩

/-- A whole word into a new stream: the staging word would be shifted by 64. -/
theorem whole_word_undefined : ¬ ∀ (e : Ending) (os : OStream) (fields : List Field),
    e.Fits (bitCount fields) → StreamExact e os fields := by
  intro hall
  obtain ⟨bs₁, os₁, os', hinserts, -⟩ := hall .transfer ⟨0, 0, fun _ => 0⟩
    [⟨1, 64, Nat.one_lt_two_pow (by decide), Nat.le_refl 64⟩] (show 64 / 64 ≤ 256 by decide)
  exact absurd hinserts nofun

end ProtoDune.Firmware
