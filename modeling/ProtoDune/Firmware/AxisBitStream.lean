import ProtoDune.Firmware.Axis

/-!
# `AxisBitStream.h`: bits into the output stream

An `AxisBitStream` collects bits in a 64-bit word and commits full words to the
output stream. As in `BitStream64`, the bits of a partial word are its low ones
and what is left above them is shifted out later.

`Carries` says which bit string the committed words and the partial word spell.

Main results:

* `Carries.insert` — an insert appends the field.
* `Carries.flush` — a flush pads the bit string to a word.
-/

namespace ProtoDune.Firmware

open BitString

/-- The staging word, and the index of the next bit, a `uint32_t`. -/
structure AxisBitStream where
  cur : Nat
  idx : Nat

namespace AxisBitStream

/-- `bidx`: the number of bits in the staging word. -/
def bidx (bs : AxisBitStream) : Nat := bs.idx % 64

/-- `widx`. -/
def widx (bs : AxisBitStream) : Nat := bs.idx / 64

/-- `write`. -/
def write (bs : AxisBitStream) (axis : List AxisOut) (w64 : Nat) : List AxisOut :=
  (commit axis bs.widx true (BitVec.ofNat 64 w64) 0 false).1

/-- `insert`: append the `nbits` low bits of `bits`, at most 64. -/
def insert (bs : AxisBitStream) (axis : List AxisOut) (bits nbits : Nat) :
    AxisBitStream × List AxisOut :=
  let left := 64 - bs.bidx
  -- `overrun > 0` is `left < nbits`
  let shift := if left < nbits then left else nbits
  let bits := if nbits ≠ 64 then bits &&& (1 <<< nbits - 1) else bits
  let cur :=
    if shift = 64 then bits
    else bs.cur <<< shift % 2 ^ 64 ||| (if left < nbits then bits >>> (nbits - left) else bits)
  let idx := (bs.idx + nbits) % 2 ^ 32
  if left ≤ nbits then ({ cur := bits, idx }, bs.write axis cur)
  else ({ cur, idx }, axis)

/-- `flush`. -/
def flush (bs : AxisBitStream) (axis : List AxisOut) : AxisBitStream × List AxisOut :=
  if bs.bidx ≠ 0 then
    let cur := bs.cur <<< (64 - bs.bidx) % 2 ^ 64
    ({ bs with cur }, bs.write axis cur)
  else (bs, axis)

end AxisBitStream

/-- A word of the payload, as `commit` makes it. -/
def payloadWord (w : BitVec 64) : AxisOut := ⟨w, 0xff, 0, false⟩

/-- The bits of some words, most significant first. -/
def wordBits (ws : List (BitVec 64)) : List Bool := ws.flatMap fun w => toBits 64 w.toNat

theorem length_wordBits (ws : List (BitVec 64)) : (wordBits ws).length = 64 * ws.length := by
  induction ws with
  | nil => rfl
  | cons w ws ih =>
      rw [wordBits, List.flatMap_cons, List.length_append, length_toBits]
      change 64 + (wordBits ws).length = _
      rw [ih, List.length_cons]
      omega

theorem wordBits_concat (ws : List (BitVec 64)) (cur : Nat) :
    wordBits (ws ++ [BitVec.ofNat 64 cur]) = wordBits ws ++ toBits 64 cur := by
  rw [wordBits, List.flatMap_append, List.flatMap_singleton, BitVec.toNat_ofNat,
    toBits_mod (Nat.le_refl 64)]
  rfl

/-- Since the stream was `axis₀` and the bit index `start`, the bit string
`bits` went into the stream and the partial word. -/
structure Carries (axis₀ : List AxisOut) (start : Nat) (bs : AxisBitStream) (axis : List AxisOut)
    (bits : List Bool) : Prop where
  data : ∃ ws : List (BitVec 64), axis = axis₀ ++ ws.map payloadWord ∧
    wordBits ws ++ toBits bs.bidx bs.cur = bits
  idx_eq : bs.idx = (start + bits.length) % 2 ^ 32

namespace Carries

variable {axis₀ axis : List AxisOut} {start : Nat} {bs : AxisBitStream} {bits : List Bool}

theorem nil (axis₀ : List AxisOut) {start : Nat} (hword : 64 ∣ start) (hlt : start < 2 ^ 32)
    (cur : Nat) : Carries axis₀ start ⟨cur, start⟩ axis₀ [] := by
  have hzero : start % 64 = 0 := Nat.mod_eq_zero_of_dvd hword
  refine ⟨⟨[], by simp, ?_⟩, (Nat.mod_eq_of_lt hlt).symm⟩
  show [] ++ toBits (start % 64) cur = []
  rw [hzero, toBits_zero, List.append_nil]

/-- Committing the staging word. -/
theorem write_eq (bs : AxisBitStream) (ws : List (BitVec 64)) (cur : Nat) :
    bs.write (axis₀ ++ ws.map payloadWord) cur =
      axis₀ ++ (ws ++ [BitVec.ofNat 64 cur]).map payloadWord := by
  unfold AxisBitStream.write commit
  rw [if_pos rfl, List.map_append, ← List.append_assoc]
  rfl

/-- **Insert.** The field is appended. -/
theorem insert (h : Carries axis₀ start bs axis bits) {x n : Nat} (hn : n ≤ 64)
    (hx : x < 2 ^ 64) :
    Carries axis₀ start (bs.insert axis x n).1 (bs.insert axis x n).2 (bits ++ toBits n x) := by
  obtain ⟨⟨ws, rfl, hbits⟩, hidx⟩ := h
  have hb : bs.bidx < 64 := Nat.mod_lt _ (by decide)
  have hidx' : ∀ y, (bs.idx + n) % 2 ^ 32 = (start + (bits ++ toBits n y).length) % 2 ^ 32 := by
    intro y
    rw [List.length_append, length_toBits]
    omega
  have hbidx : (bs.idx + n) % 2 ^ 32 % 64 = (bs.bidx + n) % 64 := by
    unfold AxisBitStream.bidx
    omega
  -- the field, without what is above it
  have hfield : ∃ y, (if n ≠ 64 then x &&& (1 <<< n - 1) else x) = y ∧ y < 2 ^ n ∧
      toBits n y = toBits n x := by
    by_cases h64 : n = 64
    · subst h64
      exact ⟨x, if_neg (not_not.mpr rfl), hx, rfl⟩
    · refine ⟨x % 2 ^ n, ?_, Nat.mod_lt _ (Nat.two_pow_pos n), toBits_mod (Nat.le_refl n) x⟩
      rw [if_pos h64, Nat.one_shiftLeft, Nat.and_two_pow_sub_one_eq_mod]
  obtain ⟨y, hy, hlt, hyx⟩ := hfield
  unfold AxisBitStream.insert
  dsimp only
  rw [hy, ← hyx]
  by_cases hfull : 64 - bs.bidx ≤ n
  · -- the word is completed, and the rest of the field starts the next one
    obtain ⟨extra, rfl⟩ : ∃ extra, n = 64 - bs.bidx + extra := ⟨_, (Nat.add_sub_cancel' hfull).symm⟩
    have hshift : (if 64 - bs.bidx < 64 - bs.bidx + extra then 64 - bs.bidx
        else 64 - bs.bidx + extra) = 64 - bs.bidx := by
      split <;> omega
    have hpart : (if 64 - bs.bidx < 64 - bs.bidx + extra then
        y >>> (64 - bs.bidx + extra - (64 - bs.bidx)) else y) = y >>> extra := by
      rw [Nat.add_sub_cancel_left]
      split
      · rfl
      · rw [show extra = 0 by omega, Nat.shiftRight_zero]
    have hhigh : y >>> extra < 2 ^ (64 - bs.bidx) := by
      rw [Nat.shiftRight_eq_div_pow, Nat.div_lt_iff_lt_mul (Nat.two_pow_pos _), ← Nat.pow_add]
      exact hlt
    have hword : toBits 64 (if 64 - bs.bidx = 64 then y
        else bs.cur <<< (64 - bs.bidx) % 2 ^ 64 ||| y >>> extra) =
        toBits bs.bidx bs.cur ++ toBits (64 - bs.bidx) (y >>> extra) := by
      by_cases hzero : bs.bidx = 0
      · rw [hzero, if_pos (by omega), show extra = 0 by omega, toBits_zero, List.nil_append,
          Nat.shiftRight_zero]
      · have hjoin := toBits_shift_mod_or hhigh (show bs.bidx + (64 - bs.bidx) ≤ 64 by omega) bs.cur
        rw [Nat.add_sub_cancel' (Nat.le_of_lt hb)] at hjoin
        rw [if_neg (by omega), hjoin]
    rw [hshift, hpart, if_pos hfull]
    refine ⟨⟨ws ++ [BitVec.ofNat 64 _], write_eq bs ws _, ?_⟩, hidx' y⟩
    rw [wordBits_concat, hword]
    show _ ++ toBits ((bs.idx + _) % 2 ^ 32 % 64) y = _
    rw [hbidx, show (bs.bidx + (64 - bs.bidx + extra)) % 64 = extra by omega, toBits_append,
      ← hbits]
    simp only [List.append_assoc]
  · -- the field fits the word
    have hleft : ¬ 64 - bs.bidx < n := fun h => hfull (Nat.le_of_lt h)
    rw [if_neg hleft, if_neg hleft, if_neg hfull, if_neg (show n ≠ 64 by omega)]
    refine ⟨⟨ws, rfl, ?_⟩, hidx' y⟩
    show _ ++ toBits ((bs.idx + n) % 2 ^ 32 % 64) _ = _
    rw [hbidx, show (bs.bidx + n) % 64 = bs.bidx + n by omega,
      toBits_shift_mod_or hlt (by omega), ← hbits, List.append_assoc]

/-- **Flush.** The bit string is padded to a word, once. -/
theorem flush (h : Carries axis₀ start bs axis bits) :
    ∃ ws : List (BitVec 64), (bs.flush axis).2 = axis₀ ++ ws.map payloadWord ∧
      wordBits ws = bits ++ List.replicate ((64 - bits.length % 64) % 64) false ∧
      (bs.flush axis).1.idx = bs.idx := by
  obtain ⟨⟨ws, rfl, hbits⟩, hidx⟩ := h
  have hb : bs.bidx < 64 := Nat.mod_lt _ (by decide)
  have hbidx : bits.length % 64 = bs.bidx := by
    rw [← hbits, List.length_append, length_wordBits, length_toBits]
    omega
  unfold AxisBitStream.flush
  rw [hbidx]
  by_cases hzero : bs.bidx = 0
  · rw [if_neg (not_not.mpr hzero), hzero]
    refine ⟨ws, rfl, ?_, rfl⟩
    rw [hzero, toBits_zero, List.append_nil] at hbits
    rw [← hbits]
    exact (List.append_nil _).symm
  · rw [if_pos hzero]
    refine ⟨ws ++ [BitVec.ofNat 64 _], write_eq bs ws _, ?_, rfl⟩
    have hjoin := toBits_shift_mod_or (Nat.two_pow_pos (64 - bs.bidx))
      (show bs.bidx + (64 - bs.bidx) ≤ 64 by omega) bs.cur
    rw [Nat.add_sub_cancel' (Nat.le_of_lt hb), Nat.or_zero] at hjoin
    have hpad : toBits (64 - bs.bidx) 0 = List.replicate (64 - bs.bidx) false :=
      toBits_eq_replicate fun i _ => Nat.zero_testBit i
    rw [wordBits_concat, hjoin, hpad, Nat.mod_eq_of_lt (show 64 - bs.bidx < 64 by omega), ← hbits,
      List.append_assoc]

end Carries

end ProtoDune.Firmware
