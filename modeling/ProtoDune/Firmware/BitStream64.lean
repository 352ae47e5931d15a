import ProtoDune.Lib.Bits

/-!
# `BitStream64.h`: the output bit streams

A `BitStream64` collects bits in a 64-bit word and writes full words to its
`OStream`. `contents` is the bit string they stand for together.

The bits of a partial word are its low ones; above them the word holds leftover
bits, which later inserts shift out.

Main results:

* `BitStream64.insert_spec` — an insert appends the field.
* `BitStream64.insert_eq_none` — when an insert is undefined.
-/

namespace ProtoDune.Firmware

open BitString

/-- An `OStream` that is not a FIFO. -/
structure OStream where
  ccur : Nat
  cidx : Nat
  /-- `m_buf`, 256 words -/
  buf : Nat → Nat

/-- The staging word and the number of bits inserted so far. -/
structure BitStream64 where
  cur : Nat
  idx : Nat

/-- `OStream::write`; undefined beyond the buffer. -/
def OStream.write (os : OStream) (data idx : Nat) : Option OStream :=
  if idx < 256 then some { os with buf := Function.update os.buf idx data } else none

theorem OStream.write_of_lt {os : OStream} {data idx : Nat} (h : idx < 256) :
    os.write data idx = some { os with buf := Function.update os.buf idx data } := if_pos h

/-- `x << n` of a `uint64_t`; undefined for a shift by the width. -/
def shl64 (x n : Nat) : Option Nat := if n < 64 then some (x <<< n % 2 ^ 64) else none

namespace BitStream64

/-- `bidx`: the number of bits in the staging word. -/
def bidx (bs : BitStream64) : Nat := bs.idx % 64

/-- `widx`: the number of words written. -/
def widx (bs : BitStream64) : Nat := bs.idx / 64

/-- `insert`: append the `nbits` bits `bits`. -/
def insert (bs : BitStream64) (os : OStream) (bits nbits : Nat) :
    Option (BitStream64 × OStream) := do
  let left := 64 - bs.bidx
  let shift := if left < nbits then left else nbits
  let cur ← shl64 bs.cur shift
  let cur := cur ||| (if left < nbits then bits >>> (nbits - left) else bits)
  let idx := (bs.idx + nbits) % 2 ^ 32
  if left ≤ nbits then do
    let os ← os.write cur bs.widx
    -- the bits already written are shifted out by later inserts
    some ({ cur := bits, idx }, os)
  else
    some ({ cur, idx }, os)

/-- `transfer`: leave the partial word with the stream. -/
def transfer (bs : BitStream64) (os : OStream) : OStream :=
  { os with ccur := bs.cur, cidx := bs.idx }

end BitStream64

/-- The bits of the first `n` words of a buffer. -/
def words (buf : Nat → Nat) : Nat → List Bool
  | 0 => []
  | n + 1 => words buf n ++ toBits 64 (buf n)

theorem length_words (buf : Nat → Nat) (n : Nat) : (words buf n).length = 64 * n := by
  induction n with
  | zero => rfl
  | succ n ih => rw [words, List.length_append, ih, length_toBits]; omega

/-- The first words depend on these only. -/
theorem words_congr {buf buf' : Nat → Nat} {n : Nat} (h : ∀ i < n, buf' i = buf i) :
    words buf' n = words buf n := by
  induction n with
  | zero => rfl
  | succ n ih =>
      rw [words, words, h n (Nat.lt_succ_self n), ih fun i hi => h i (Nat.lt_succ_of_lt hi)]

/-- Writing the next word leaves the words before it. -/
theorem words_update (buf : Nat → Nat) (n data : Nat) :
    words (Function.update buf n data) n = words buf n :=
  words_congr fun _ hi => Function.update_of_ne (Nat.ne_of_lt hi) _ _

/-- The bit string of a stream with `idx` bits, the partial word being `cur`. -/
def contents (buf : Nat → Nat) (cur idx : Nat) : List Bool :=
  words buf (idx / 64) ++ toBits (idx % 64) cur

theorem length_contents (buf : Nat → Nat) (cur idx : Nat) :
    (contents buf cur idx).length = idx := by
  rw [contents, List.length_append, length_words, length_toBits]
  omega

namespace BitStream64

/-- The bits inserted so far. -/
def contents (bs : BitStream64) (os : OStream) : List Bool :=
  Firmware.contents os.buf bs.cur bs.idx

theorem length_contents (bs : BitStream64) (os : OStream) :
    (bs.contents os).length = bs.idx :=
  Firmware.length_contents ..

/-- When an insert is undefined: the staging word would be shifted by its width, or written beyond
the buffer. -/
theorem insert_eq_none (bs : BitStream64) (os : OStream) {bits nbits : Nat} (hn : nbits ≤ 64) :
    bs.insert os bits nbits = none ↔
      (nbits = 64 ∧ bs.bidx = 0) ∨ (64 - bs.bidx ≤ nbits ∧ 256 ≤ bs.widx) := by
  have hb : bs.bidx < 64 := Nat.mod_lt _ (by decide)
  unfold insert
  dsimp only
  by_cases hword : nbits = 64 ∧ bs.bidx = 0
  · obtain ⟨rfl, hzero⟩ := hword
    have hshift : shl64 bs.cur 64 = none := if_neg (Nat.lt_irrefl 64)
    simp [hzero, hshift]
  · have hshift : (if 64 - bs.bidx < nbits then 64 - bs.bidx else nbits) < 64 := by
      split <;> omega
    rw [shl64, if_pos hshift]
    simp only [Option.bind_eq_bind, Option.bind_some, hword, false_or]
    by_cases hfull : 64 - bs.bidx ≤ nbits
    · rw [if_pos hfull]
      by_cases hroom : bs.widx < 256
      · rw [OStream.write_of_lt hroom]
        simp [hroom]
      · rw [OStream.write, if_neg hroom]
        simp [hfull, Nat.not_lt.mp hroom]
    · rw [if_neg hfull]
      simp [hfull]

/-- **Insert.** A field that fits the buffer and is not a whole word at a word
boundary is appended. -/
theorem insert_spec (bs : BitStream64) (os : OStream) {bits nbits : Nat}
    (hbits : bits < 2 ^ nbits) (hn : nbits ≤ 64) (hword : nbits = 64 → bs.bidx ≠ 0)
    (hroom : (bs.idx + nbits) / 64 ≤ 256) :
    ∃ bs' os', bs.insert os bits nbits = some (bs', os') ∧
      bs'.contents os' = bs.contents os ++ toBits nbits bits := by
  have hidx : (bs.idx + nbits) % 2 ^ 32 = bs.idx + nbits :=
    Nat.mod_eq_of_lt (by omega)
  have hb : bs.bidx < 64 := Nat.mod_lt _ (by decide)
  unfold insert shl64
  dsimp only
  rw [hidx]
  by_cases hfull : 64 - bs.bidx ≤ nbits
  · -- the word is completed, and the rest of the field starts the next one
    obtain ⟨extra, rfl⟩ : ∃ extra, nbits = 64 - bs.bidx + extra :=
      ⟨_, (Nat.add_sub_cancel' hfull).symm⟩
    have hwidx : bs.widx < 256 := by
      unfold widx
      unfold bidx at hb hroom
      omega
    have hshift : (if 64 - bs.bidx < 64 - bs.bidx + extra then 64 - bs.bidx
        else 64 - bs.bidx + extra) = 64 - bs.bidx := by
      split <;> omega
    have hfield : (if 64 - bs.bidx < 64 - bs.bidx + extra then
        bits >>> (64 - bs.bidx + extra - (64 - bs.bidx)) else bits) = bits >>> extra := by
      rw [Nat.add_sub_cancel_left]
      split
      · rfl
      · rw [show extra = 0 by omega, Nat.shiftRight_zero]
    have hhigh : bits >>> extra < 2 ^ (64 - bs.bidx) := by
      rw [Nat.shiftRight_eq_div_pow, Nat.div_lt_iff_lt_mul (Nat.two_pow_pos _), ← Nat.pow_add]
      exact hbits
    have hword := toBits_shift_mod_or hhigh (w := 64) (m := bs.bidx) (by omega) bs.cur
    rw [Nat.add_sub_cancel' (Nat.le_of_lt hb)] at hword
    rw [hshift, hfield, if_pos (by omega)]
    simp only [Option.bind_eq_bind, Option.bind_some]
    rw [if_pos hfull, OStream.write_of_lt hwidx]
    refine ⟨_, _, rfl, ?_⟩
    have hdiv : (bs.idx + (64 - bs.bidx + extra)) / 64 = bs.idx / 64 + 1 := by
      unfold bidx at *
      omega
    have hmod : (bs.idx + (64 - bs.bidx + extra)) % 64 = extra := by
      unfold bidx at *
      omega
    unfold contents Firmware.contents
    dsimp only
    rw [hdiv, hmod, words, widx, words_update, Function.update_self, hword, toBits_append]
    simp [bidx]
  · -- the field fits the word
    have hdiv : (bs.idx + nbits) / 64 = bs.idx / 64 := by
      unfold bidx at *
      omega
    have hmod : (bs.idx + nbits) % 64 = bs.bidx + nbits := by
      unfold bidx at *
      omega
    have hleft : ¬ 64 - bs.bidx < nbits := fun h => hfull (Nat.le_of_lt h)
    rw [if_neg hleft, if_neg hleft, if_pos (by omega)]
    simp only [Option.bind_eq_bind, Option.bind_some]
    rw [if_neg hfull]
    refine ⟨_, _, rfl, ?_⟩
    unfold contents Firmware.contents
    rw [hdiv, hmod, toBits_shift_mod_or hbits (by omega), List.append_assoc]
    rfl

/-- The same with room to spare. -/
theorem insert_contents (bs : BitStream64) (os : OStream) {bits nbits : Nat}
    (hbits : bits < 2 ^ nbits) (hn : nbits ≤ 64) (hword : nbits = 64 → bs.bidx ≠ 0)
    (hroom : bs.idx + nbits < 2 ^ 14) :
    ∃ bs' os', bs.insert os bits nbits = some (bs', os') ∧
      bs'.contents os' = bs.contents os ++ toBits nbits bits :=
  bs.insert_spec os hbits hn hword (by omega)

end BitStream64

end ProtoDune.Firmware
