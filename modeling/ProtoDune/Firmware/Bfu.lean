import ProtoDune.Firmware.ApdDecode
import ProtoDune.Firmware.BitStreamRuns

/-!
# `BFU.h`: reading bit fields

A `BFU` holds the word of the current position. A read takes the field from this
word and, where it goes beyond, from the next one.

Main results:

* `wordR_spec` — one read, within a word, up to its end or across.
* `Reads.extract` — a read takes the first of the bits before the reader.
* `reader_undoes_writer` — fields that were inserted are read back.
-/

namespace ProtoDune.Firmware

open BitString

/-- An array of 64-bit words. -/
structure WordArray where
  size : Nat
  word : Memory
  word_lt : ∀ i, word i < 2 ^ 64

/-- `wrds[i]`, undefined beyond the array. -/
def WordArray.get (wrds : WordArray) (i : Nat) : Option Nat :=
  if i < wrds.size then some (wrds.word i) else none

/-- `BFU`: the current word, and a field or a position. -/
structure Bfu where
  cur : Nat
  val : Nat
deriving DecidableEq

/-- `bfu_bit` and `bfu_lshift`. -/
def bfuBit (position : Nat) : Nat := position &&& 0x3f

/-- `bfu_index`. -/
def bfuIndex (position : Nat) : Nat := position >>> 6

/-- `((1 << (width-1)) << 1) - 1`, in 32 bits. -/
def fieldMask (width : Nat) : Nat :=
  ((1 <<< (width - 1) % 2 ^ 32) <<< 1 % 2 ^ 32 + 2 ^ 32 - 1) % 2 ^ 32

/-- `BFU__wordR`; the mask is defined for 1 to 32 bits. -/
def wordR (wrds : WordArray) (cur position width : Nat) : Option Bfu :=
  if width = 0 ∨ 32 < width then none
  else
    let rposition := bfuBit position
    let msk := fieldMask width
    if rposition + width < 64 then
      let rshift := 64 - (rposition + width)
      some ⟨cur, cur >>> rshift &&& msk⟩
    else if rposition + width = 64 then do
      let val := cur &&& msk
      let cur ← wrds.get (bfuIndex position + 1)
      some ⟨cur, val⟩
    else do
      -- the bits in the next word
      let rshift := rposition + width - 64
      let tmp := (cur &&& msk >>> rshift) <<< rshift % 2 ^ 32
      let cur ← wrds.get (bfuIndex position + 1)
      some ⟨cur, (tmp ||| cur >>> (64 - rshift)) % 2 ^ 32⟩

/-- `_bfu_extractR`: the field, and the context and the position after it. -/
def extractR (wrds : WordArray) (bfu : Bfu) (position width : Nat) : Option (Nat × Bfu × Nat) := do
  let bfu ← wordR wrds bfu.cur position width
  some (bfu.val, bfu, (position + width) % 2 ^ 32)

/-- Reads of the given widths, one after the other. -/
def extracts (wrds : WordArray) (bfu : Bfu) (position : Nat) :
    List Nat → Option (List Nat × Bfu × Nat)
  | [] => some ([], bfu, position)
  | width :: widths => do
      let (val, bfu, position) ← extractR wrds bfu position width
      let (vals, bfu, position) ← extracts wrds bfu position widths
      some (val :: vals, bfu, position)

/-! ## The bits of an array -/

/-- The bits from `pos` on, most significant first. -/
def bitsAt (mem : Memory) (pos width : Nat) : List Bool :=
  (List.range width).map fun i => bitAt mem (pos + i)

theorem length_bitsAt (mem : Memory) (pos width : Nat) : (bitsAt mem pos width).length = width := by
  rw [bitsAt, List.length_map, List.length_range]

theorem bitsAt_add (mem : Memory) (pos m n : Nat) :
    bitsAt mem pos (m + n) = bitsAt mem pos m ++ bitsAt mem (pos + m) n := by
  unfold bitsAt
  rw [List.range_add, List.map_append, List.map_map]
  congr 1
  refine List.map_congr_left fun i _ => ?_
  rw [Function.comp_apply, Nat.add_assoc]

theorem holds_iff {mem : Memory} {pos : Nat} {bits : List Bool} :
    Holds mem pos bits ↔ bitsAt mem pos bits.length = bits := by
  constructor
  · intro h
    refine List.ext_getElem (length_bitsAt _ _ _) fun i _ hi => ?_
    rw [← h i hi]
    simp [bitsAt]
  · intro h i hi
    have hget : (bitsAt mem pos bits.length)[i]? = bits[i]? := by rw [h]
    have hbit : (bitsAt mem pos bits.length)[i]? = some (bitAt mem (pos + i)) := by
      simp [bitsAt, hi]
    rw [hbit, List.getElem?_eq_getElem hi] at hget
    exact Option.some.inj hget

theorem Holds.append {mem : Memory} {pos : Nat} {xs ys : List Bool} :
    Holds mem pos (xs ++ ys) ↔ Holds mem pos xs ∧ Holds mem (pos + xs.length) ys := by
  rw [holds_iff, holds_iff, holds_iff, List.length_append, bitsAt_add]
  constructor
  · exact fun h => List.append_inj h (length_bitsAt _ _ _)
  · rintro ⟨hxs, hys⟩
    rw [hxs, hys]

/-- The bits of a field, from the top one on. -/
theorem toBits_eq_map (n x : Nat) :
    toBits n x = (List.range n).map fun i => x.testBit (n - 1 - i) := by
  induction n with
  | zero => rfl
  | succ n ih =>
    rw [toBits_succ, ih, List.range_succ_eq_map, List.map_cons, List.map_map]
    congr 1
    refine List.map_congr_left fun i _ => ?_
    rw [Function.comp_apply]
    congr 1
    omega

/-- Within a word. -/
theorem bitsAt_word (mem : Memory) {pos width : Nat} (h : pos % 64 + width ≤ 64) :
    bitsAt mem pos width = toBits width (mem (pos / 64) >>> (64 - (pos % 64 + width))) := by
  rw [toBits_eq_map]
  refine List.map_congr_left fun i hi => ?_
  have hi' := List.mem_range.mp hi
  have hindex : (pos + i) / 64 = pos / 64 := by omega
  have hbit : 63 - (pos + i) % 64 = 64 - (pos % 64 + width) + (width - 1 - i) := by omega
  rw [bitAt, hindex, hbit, Nat.testBit_shiftRight]

/-- An array of the given bits, and zeros behind them. -/
def WordArray.ofBits (bits : List Bool) : WordArray where
  size := bits.length / 64 + 1
  word i := BitString.ofBits ((List.range 64).map fun j => bits.getD (64 * i + j) false)
  word_lt i := Nat.lt_of_lt_of_eq (ofBits_lt _) (by rw [List.length_map, List.length_range])

theorem WordArray.holds_ofBits (bits : List Bool) : Holds (WordArray.ofBits bits).word 0 bits := by
  have hword (i : Nat) : toBits 64 ((WordArray.ofBits bits).word i) =
      (List.range 64).map fun j => bits.getD (64 * i + j) false := by
    have h := toBits_ofBits ((List.range 64).map fun j => bits.getD (64 * i + j) false)
    rw [List.length_map, List.length_range] at h
    exact h
  intro k hk
  have hmod : k % 64 < 64 := Nat.mod_lt _ (Nat.zero_lt_succ 63)
  have hbit := congrArg (fun l => l[k % 64]?) (hword (k / 64))
  rw [toBits_eq_map, List.getElem?_map, List.getElem?_map, List.getElem?_range hmod,
    Option.map_some, Option.map_some, Nat.div_add_mod] at hbit
  rw [Nat.zero_add, bitAt]
  simpa [hk] using hbit

/-! ## One read -/

theorem fieldMask_eq {width : Nat} (h : 1 ≤ width) (hle : width ≤ 32) :
    fieldMask width = 2 ^ width - 1 := by
  obtain ⟨w, rfl⟩ : ∃ w, width = w + 1 := ⟨width - 1, by omega⟩
  have hpow : 2 ^ w ≤ 2 ^ 31 := Nat.pow_le_pow_right (by decide) (by omega)
  have hpos := Nat.two_pow_pos w
  have hsmall : 2 ^ w % 2 ^ 32 = 2 ^ w := Nat.mod_eq_of_lt (by omega)
  unfold fieldMask
  rw [Nat.add_sub_cancel, Nat.one_shiftLeft, hsmall, Nat.shiftLeft_eq, Nat.pow_succ]
  omega

/-- **One read** gives the field and leaves the word of the next position. -/
theorem wordR_spec (wrds : WordArray) {pos width : Nat} (hwidth : 1 ≤ width) (hle : width ≤ 32)
    (hsize : (pos + width) / 64 < wrds.size) :
    wordR wrds (wrds.word (pos / 64)) pos width =
      some ⟨wrds.word ((pos + width) / 64), ofBits (bitsAt wrds.word pos width)⟩ := by
  have hbit : bfuBit pos = pos % 64 := Nat.and_two_pow_sub_one_eq_mod pos 6
  have hindex : bfuIndex pos = pos / 64 := Nat.shiftRight_eq_div_pow pos 6
  unfold wordR
  rw [if_neg (by omega), hbit, hindex, fieldMask_eq hwidth hle]
  dsimp only
  by_cases hlt : pos % 64 + width < 64
  · have hnext : (pos + width) / 64 = pos / 64 := by omega
    rw [if_pos hlt, bitsAt_word _ (Nat.le_of_lt hlt), ofBits_toBits, hnext,
      Nat.and_two_pow_sub_one_eq_mod]
  · by_cases heq : pos % 64 + width = 64
    · have hnext : (pos + width) / 64 = pos / 64 + 1 := by omega
      rw [if_neg hlt, if_pos heq, bitsAt_word _ (Nat.le_of_eq heq), ofBits_toBits, heq,
        Nat.sub_self, Nat.shiftRight_zero, ← hnext, WordArray.get, if_pos hsize,
        Nat.and_two_pow_sub_one_eq_mod]
      rfl
    · obtain ⟨b, hb⟩ : ∃ b, pos % 64 + width = 64 + b := ⟨pos % 64 + width - 64, by omega⟩
      obtain ⟨a, ha⟩ : ∃ a, width = a + b := ⟨64 - pos % 64, by omega⟩
      have hnext : (pos + width) / 64 = pos / 64 + 1 := by omega
      have hb' : pos % 64 + width - 64 = b := by omega
      have hstart : (pos + a) % 64 = 0 := by omega
      have hword : (pos + a) / 64 = pos / 64 + 1 := by omega
      have hmask : (2 ^ width - 1) >>> b = 2 ^ a - 1 := by
        refine Nat.eq_of_testBit_eq fun i => ?_
        rw [Nat.testBit_shiftRight, Nat.testBit_two_pow_sub_one, Nat.testBit_two_pow_sub_one]
        exact decide_eq_decide.mpr (by omega)
      have hnextBits : wrds.word ((pos + width) / 64) >>> (64 - b) < 2 ^ b := by
        rw [Nat.shiftRight_eq_div_pow]
        refine Nat.div_lt_of_lt_mul ?_
        rw [← Nat.pow_add, Nat.sub_add_cancel (by omega)]
        exact wrds.word_lt _
      have hposb := Nat.two_pow_pos b
      have hlow : wrds.word (pos / 64) % 2 ^ a < 2 ^ a := Nat.mod_lt _ (Nat.two_pow_pos a)
      have htmp : wrds.word (pos / 64) % 2 ^ a * 2 ^ b + 2 ^ b ≤ 2 ^ 32 := calc
        _ = (wrds.word (pos / 64) % 2 ^ a + 1) * 2 ^ b := by ring
        _ ≤ 2 ^ a * 2 ^ b := Nat.mul_le_mul_right _ hlow
        _ = 2 ^ (a + b) := (Nat.pow_add 2 a b).symm
        _ ≤ 2 ^ 32 := Nat.pow_le_pow_right (by decide) (by omega)
      -- the last bits of this word, then the first of the next
      have hfirst : bitsAt wrds.word pos a = toBits a (wrds.word (pos / 64)) := by
        rw [bitsAt_word _ (by omega), show 64 - (pos % 64 + a) = 0 by omega, Nat.shiftRight_zero]
      have hsecond : bitsAt wrds.word (pos + a) b =
          toBits b (wrds.word ((pos + width) / 64) >>> (64 - b)) := by
        rw [bitsAt_word _ (by omega), hword, hnext, hstart, Nat.zero_add]
      have hfield : ofBits (bitsAt wrds.word pos width) = wrds.word (pos / 64) % 2 ^ a * 2 ^ b +
          wrds.word ((pos + width) / 64) >>> (64 - b) := by
        rw [show bitsAt wrds.word pos width = bitsAt wrds.word pos (a + b) by rw [ha], bitsAt_add,
          ofBits_append, hfirst, hsecond, ofBits_toBits, ofBits_toBits, length_toBits,
          Nat.mod_eq_of_lt hnextBits]
      rw [if_neg hlt, if_neg heq, hb', ← hnext, WordArray.get, if_pos hsize, hmask, hfield,
        Nat.and_two_pow_sub_one_eq_mod, Nat.shiftLeft_eq, Nat.mod_eq_of_lt (by omega)]
      simp only [Option.bind_eq_bind, Option.bind_some]
      rw [Nat.mul_comm _ (2 ^ b), ← Nat.two_pow_add_eq_or_of_lt hnextBits, Nat.mod_eq_of_lt]
      rw [Nat.mul_comm]
      omega

/-- A read takes the field and goes on behind it. -/
theorem extractR_spec (wrds : WordArray) {bfu : Bfu} {pos width : Nat} (hwidth : 1 ≤ width)
    (hle : width ≤ 32) (hsize : (pos + width) / 64 < wrds.size)
    (hcur : bfu.cur = wrds.word (pos / 64)) :
    ∃ bfu', extractR wrds bfu pos width =
        some (ofBits (bitsAt wrds.word pos width), bfu', (pos + width) % 2 ^ 32) ∧
      bfu'.cur = wrds.word ((pos + width) / 64) := by
  refine ⟨⟨wrds.word ((pos + width) / 64), ofBits (bitsAt wrds.word pos width)⟩, ?_, rfl⟩
  rw [extractR, hcur, wordR_spec wrds hwidth hle hsize]
  rfl

/-! ## Reading back what was inserted -/

/-- The words of the buffer of a stream. -/
def OStream.toArray (os : OStream) : WordArray where
  size := 256
  word i := os.buf i % 2 ^ 64
  word_lt _ := Nat.mod_lt _ (Nat.two_pow_pos 64)

/-- The words of a buffer, bit by bit. -/
theorem words_eq_bitsAt (buf : Nat → Nat) (n : Nat) :
    words buf n = bitsAt (fun i => buf i % 2 ^ 64) 0 (64 * n) := by
  induction n with
  | zero => rfl
  | succ n ih =>
    have hword : bitsAt (fun i => buf i % 2 ^ 64) (0 + 64 * n) 64 = toBits 64 (buf n) := by
      have hindex : (0 + 64 * n) / 64 = n := by omega
      have hzero : 64 - ((0 + 64 * n) % 64 + 64) = 0 := by omega
      rw [bitsAt_word _ (by omega), hindex, hzero, Nat.shiftRight_zero, toBits_mod (Nat.le_refl 64)]
    rw [words, ih, Nat.mul_succ, bitsAt_add, hword]

theorem bitsAt_take (mem : Memory) (pos : Nat) {m n : Nat} (hle : m ≤ n) :
    (bitsAt mem pos n).take m = bitsAt mem pos m := by
  obtain ⟨k, rfl⟩ := Nat.exists_eq_add_of_le hle
  rw [bitsAt_add]
  exact List.take_left' (length_bitsAt mem pos m)

/-- A reader at `pos`, with `bits` before it, and a word behind them. -/
structure Reads (wrds : WordArray) (bfu : Bfu) (pos : Nat) (bits : List Bool) : Prop where
  cur : bfu.cur = wrds.word (pos / 64)
  holds : Holds wrds.word pos bits
  inside : (pos + bits.length) / 64 < wrds.size
  small : pos + bits.length < 2 ^ 32

theorem reads_ofBits {bits : List Bool} (h : bits.length < 2 ^ 32) :
    Reads (.ofBits bits) ⟨(WordArray.ofBits bits).word (0 / 64), 0⟩ 0 bits where
  cur := rfl
  holds := WordArray.holds_ofBits bits
  inside := by
    rw [Nat.zero_add]
    exact Nat.lt_succ_self _
  small := by rwa [Nat.zero_add]

/-- A read takes the first field. -/
theorem Reads.extract {wrds : WordArray} {bfu : Bfu} {pos width val : Nat} {bits : List Bool}
    (h : Reads wrds bfu pos (toBits width val ++ bits)) (hwidth : 1 ≤ width) (hle : width ≤ 32)
    (hval : val < 2 ^ width) :
    ∃ bfu', extractR wrds bfu pos width = some (val, bfu', pos + width) ∧
      Reads wrds bfu' (pos + width) bits := by
  have hholds := h.holds
  have hinside := h.inside
  have hsmall := h.small
  rw [Holds.append, length_toBits] at hholds
  rw [List.length_append, length_toBits, ← Nat.add_assoc] at hinside hsmall
  have hnext : (pos + width) / 64 < wrds.size :=
    Nat.lt_of_le_of_lt (Nat.div_le_div_right (Nat.le_add_right _ _)) hinside
  obtain ⟨bfu', hread, hcur⟩ := extractR_spec wrds hwidth hle hnext h.cur
  have hfield : bitsAt wrds.word pos width = toBits width val := by
    have hbits := holds_iff.mp hholds.1
    rwa [length_toBits] at hbits
  rw [hfield, ofBits_toBits, Nat.mod_eq_of_lt hval, Nat.mod_eq_of_lt (by omega)] at hread
  exact ⟨bfu', hread, hcur, hholds.2, hinside, hsmall⟩

/-- Reads follow the fields that an array holds. -/
theorem Reads.extracts {wrds : WordArray} {bfu : Bfu} {pos : Nat} {fields : List Field}
    (hwidths : ∀ f ∈ fields, 1 ≤ f.nbits ∧ f.nbits ≤ 32)
    (h : Reads wrds bfu pos (concat fields)) :
    ∃ bfu', extracts wrds bfu pos (fields.map Field.nbits) =
      some (fields.map Field.bits, bfu', pos + bitCount fields) := by
  induction fields generalizing bfu pos with
  | nil => exact ⟨bfu, rfl⟩
  | cons f fields ih =>
    obtain ⟨hwidth, hle⟩ := hwidths f List.mem_cons_self
    obtain ⟨bfu₁, hread, hnext⟩ := h.extract hwidth hle f.lt
    obtain ⟨bfu', hrest⟩ := ih (fun g hg => hwidths g (List.mem_cons_of_mem f hg)) hnext
    have hcount : bitCount (f :: fields) = f.nbits + bitCount fields := rfl
    refine ⟨bfu', ?_⟩
    rw [hcount, ← Nat.add_assoc, List.map_cons, Firmware.extracts, hread]
    simp only [Option.bind_eq_bind, Option.bind_some]
    rw [hrest]
    rfl

/-- No field of at most 32 bits fills a word. -/
theorem offBoundary_of_narrow {fields : List Field}
    (hwidths : ∀ f ∈ fields, 1 ≤ f.nbits ∧ f.nbits ≤ 32) (pos : Nat) : OffBoundary pos fields := by
  induction fields generalizing pos with
  | nil => trivial
  | cons f fields ih =>
    have hle := (hwidths f List.mem_cons_self).2
    exact ⟨fun h64 => by omega, ih (fun g hg => hwidths g (List.mem_cons_of_mem f hg)) _⟩

/-- What a flush leaves, bit by bit. -/
theorem holds_of_flush {os : OStream} {bits : List Bool} (hcidx : os.cidx = bits.length)
    (hbits : Ending.flush.bits os = bits) : Holds os.toArray.word 0 bits := by
  have htake : (words os.buf ((os.cidx + 63) / 64)).take os.cidx = bits := hbits
  rw [words_eq_bitsAt, bitsAt_take _ _ (by omega), hcidx] at htake
  exact holds_iff.mpr htake

/-- **The reader undoes the writer.** A read gives the field at its position and leaves the word of
the next one; so fields that were inserted and flushed are read back with the same widths. The last
read looks at the word behind the fields, which has to be in the array. -/
theorem reader_undoes_writer :
    (∀ (wrds : WordArray) (bfu : Bfu) (pos width : Nat), 1 ≤ width → width ≤ 32 →
      (pos + width) / 64 < wrds.size → bfu.cur = wrds.word (pos / 64) →
      ∃ bfu', extractR wrds bfu pos width =
          some (ofBits (bitsAt wrds.word pos width), bfu', (pos + width) % 2 ^ 32) ∧
        bfu'.cur = wrds.word ((pos + width) / 64)) ∧
    ∀ (os : OStream) (fields : List Field), (∀ f ∈ fields, 1 ≤ f.nbits ∧ f.nbits ≤ 32) →
      bitCount fields / 64 < os.toArray.size →
      ∃ bs₁ os₁ os' bfu', BitStream64.new.inserts os fields = some (bs₁, os₁) ∧
        bs₁.flush os₁ = some os' ∧
        extracts os'.toArray ⟨os'.toArray.word 0, 0⟩ 0 (fields.map Field.nbits) =
          some (fields.map Field.bits, bfu', bitCount fields) := by
  refine ⟨fun wrds bfu pos width hwidth hle hsize hcur =>
    extractR_spec wrds hwidth hle hsize hcur, ?_⟩
  intro os fields hwidths hroom
  change bitCount fields / 64 < 256 at hroom
  have hoff : OffBoundary BitStream64.new.idx fields := offBoundary_of_narrow hwidths _
  have hfits : (BitStream64.new.idx + bitCount fields) / 64 ≤ 256 := by
    rw [show BitStream64.new.idx = 0 from rfl, Nat.zero_add]
    exact Nat.le_of_lt hroom
  obtain ⟨bs₁, os₁, hinserts, hcontents⟩ := BitStream64.inserts_spec os hoff hfits
  have hidx : bs₁.idx = bitCount fields := by
    rw [← bs₁.length_contents os₁, hcontents, List.length_append, length_concat]
    exact Nat.zero_add _
  obtain ⟨os', hflush, hcidx, hbits⟩ := BitStream64.flush_spec os₁ (by rw [hidx]; omega)
  have hholds : Holds os'.toArray.word 0 (concat fields) := by
    apply holds_of_flush
    · rw [hcidx, hidx, length_concat]
    · rw [hbits, hcontents]
      rfl
  have hreads : Reads os'.toArray ⟨os'.toArray.word 0, 0⟩ 0 (concat fields) := by
    refine ⟨rfl, hholds, ?_, ?_⟩ <;> rw [length_concat, Nat.zero_add]
    · exact hroom
    · omega
  obtain ⟨bfu', hread⟩ := hreads.extracts hwidths
  rw [Nat.zero_add] at hread
  exact ⟨bs₁, os₁, os', bfu', hinserts, hflush, hread⟩

/-- A field across a word boundary, and two fields in a fresh stream. -/
theorem reader_undoes_writer_straddling :
    (∃ bfu', extractR ⟨2, fun _ => 0x0123456789abcdef, fun _ => by decide⟩
        ⟨0x0123456789abcdef, 0⟩ 60 8 = some (0xf0, bfu', 68) ∧
      bfu'.cur = 0x0123456789abcdef) ∧
    ∃ bs₁ os₁ os' bfu', BitStream64.new.inserts ⟨0, 0, fun _ => 0⟩
        [⟨0xabcdef, 24, by decide, by decide⟩, ⟨7, 3, by decide, by decide⟩] = some (bs₁, os₁) ∧
      bs₁.flush os₁ = some os' ∧
      extracts os'.toArray ⟨os'.toArray.word 0, 0⟩ 0 [24, 3] =
        some ([0xabcdef, 7], bfu', 27) := by
  constructor
  · exact reader_undoes_writer.1 ⟨2, fun _ => 0x0123456789abcdef, fun _ => by decide⟩
      ⟨0x0123456789abcdef, 0⟩ 60 8 (by decide) (by decide) (by decide) rfl
  · exact reader_undoes_writer.2 ⟨0, 0, fun _ => 0⟩
      [⟨0xabcdef, 24, by decide, by decide⟩, ⟨7, 3, by decide, by decide⟩] (by simp) (by decide)

end ProtoDune.Firmware
