import ProtoDune.Firmware.AxisBitStream
import ProtoDune.Firmware.HeaderRecord

/-!
# `PacketWrite.h` and `DuneDataCompressionCore_test.cpp`: the table of contents

`write_toc` puts the offsets of the channels behind the compressed data, two to a word, and a
trailer behind them. `toc_decode` finds the trailer from the end of the packet, and the offsets
from the trailer.

Main results:

* `writeToc_eq` — the words of the table.
* `tocDecode_spec` — the decoder finds the counts and all offsets.
-/

namespace ProtoDune.Firmware

open Stored BitFields

/-! ## The writer -/

/-- Two offsets in a word. -/
def tocWord (offsets : Nat → Nat) (ichan : Nat) : BitVec 64 :=
  BitVec.ofNat 64 (offsets ichan) ||| BitVec.ofNat 64 (offsets (ichan + 1)) <<< 32

/-- `WRITE_TOC_LOOP`, with `k` iterations to go. -/
def tocLoop (offsets : Nat → Nat) : Nat → Nat → List AxisOut × Nat → List AxisOut × Nat
  | 0, _, out => out
  | k + 1, ichan, out =>
      tocLoop offsets k (ichan + 2) (commit out.1 out.2 true (tocWord offsets ichan) 0 false)

/-- The trailer: the counts less 1, the length in words, `TocRecType` and `HeaderFmt`. -/
def tocTrailer (nchans nsamples : Nat) : BitVec 64 :=
  BitVec.ofNat 64 (nchans - 1) <<< 40 ||| BitVec.ofNat 64 (nsamples - 1) <<< 28 ||| 0#64 <<< 24 |||
    BitVec.ofNat 64 ((nchans + 2) / 2 + 1) <<< 8 ||| 2#64 <<< 4 ||| 3#64 <<< 0

/-- `write_toc`; the loop runs as long as `ichan <= nchans`. -/
def writeToc (axis : List AxisOut) (odx nchans nsamples : Nat) (offsets : Nat → Nat) :
    List AxisOut × Nat :=
  let out := tocLoop offsets (nchans / 2 + 1) 0 (axis, odx)
  commit out.1 out.2 true (tocTrailer nchans nsamples) 0 false

/-! ## The decoder -/

/-- `Toc`; the offsets are read through the pointer `m_offsets`. -/
structure Toc where
  n64 : Nat
  nsamples : Nat
  nchannels : Nat
  offsets : Nat → Nat

/-- `ptr[i]` of a `uint32_t` pointer to the word `p`. -/
def offsetAt (buf : Nat → BitVec 64) (p i : Nat) : Nat :=
  ((buf (p + i / 2)).extractLsb' (32 * (i % 2)) 32).toNat

/-- `toc_decode`. -/
def tocDecode (buf : Nat → BitVec 64) (nbuf : Nat) : Toc :=
  let tlrPtr := nbuf - 1 - 2
  let tlr := buf tlrPtr
  let n64 := (tlr >>> 8 &&& 0xffff).toNat
  { n64
    nsamples := (tlr >>> 28 &&& 0xfff).toNat + 1
    nchannels := (tlr >>> 40 &&& 0xfff).toNat + 1
    offsets := offsetAt buf (tlrPtr + 1 - n64) }

/-! ## The words of the table -/

/-- The words of the table: the offsets and the trailer. -/
def tocWords (nchans nsamples : Nat) (offsets : Nat → Nat) : List (BitVec 64) :=
  (List.range (nchans / 2 + 1)).map (fun i => tocWord offsets (2 * i)) ++
    [tocTrailer nchans nsamples]

theorem length_tocWords (nchans nsamples : Nat) (offsets : Nat → Nat) :
    (tocWords nchans nsamples offsets).length = nchans / 2 + 2 := by
  rw [tocWords, List.length_append, List.length_map, List.length_range, List.length_singleton]

theorem tocLoop_eq (offsets : Nat → Nat) (k i : Nat) (out : List AxisOut × Nat) :
    tocLoop offsets k (2 * i) out =
      (out.1 ++ ((List.range' i k).map fun j => tocWord offsets (2 * j)).map payloadWord,
        out.2 + k) := by
  induction k generalizing i out with
  | zero =>
    rw [tocLoop, List.range'_zero, List.map_nil, List.map_nil, List.append_nil, Nat.add_zero]
  | succ k ih =>
    have hnext : 2 * i + 2 = 2 * (i + 1) := by omega
    rw [tocLoop, hnext, ih, List.range'_succ, List.map_cons, List.map_cons]
    refine Prod.ext ?_ ?_
    · simp [commit, payloadWord]
    · simp [commit]
      omega

/-- The words that `write_toc` commits. -/
theorem writeToc_eq (axis : List AxisOut) (odx nchans nsamples : Nat) (offsets : Nat → Nat) :
    writeToc axis odx nchans nsamples offsets =
      (axis ++ (tocWords nchans nsamples offsets).map payloadWord, odx + (nchans / 2 + 2)) := by
  unfold writeToc
  dsimp only
  have hloop := tocLoop_eq offsets (nchans / 2 + 1) 0 (axis, odx)
  rw [Nat.mul_zero] at hloop
  rw [hloop, ← List.range_eq_range']
  refine Prod.ext ?_ ?_
  · simp [commit, tocWords, payloadWord]
  · exact Nat.add_assoc ..

/-! ## What is read back -/

/-- The fields of the trailer. -/
theorem tocTrailer_fields {nchans nsamples : Nat} (hchans : nchans - 1 < 2 ^ 12)
    (hsamples : nsamples - 1 < 2 ^ 12) :
    (tocTrailer nchans nsamples).extractLsb' 40 12 = BitVec.ofNat 12 (nchans - 1) ∧
      (tocTrailer nchans nsamples).extractLsb' 28 12 = BitVec.ofNat 12 (nsamples - 1) ∧
      (tocTrailer nchans nsamples).extractLsb' 8 16 =
        BitVec.ofNat 16 ((nchans + 2) / 2 + 1) := by
  have hc : BitVec.ofNat 64 (nchans - 1) = (BitVec.ofNat 12 (nchans - 1)).setWidth 64 :=
    (BitVec.setWidth_ofNat_of_le_of_lt (by omega) hchans).symm
  have hs : BitVec.ofNat 64 (nsamples - 1) = (BitVec.ofNat 12 (nsamples - 1)).setWidth 64 :=
    (BitVec.setWidth_ofNat_of_le_of_lt (by omega) hsamples).symm
  have hn : BitVec.ofNat 64 ((nchans + 2) / 2 + 1) =
      (BitVec.ofNat 16 ((nchans + 2) / 2 + 1)).setWidth 64 :=
    (BitVec.setWidth_ofNat_of_le_of_lt (by omega) (by omega)).symm
  have hlayout : (0#64 : BitVec 64) = (0#4).setWidth 64 := rfl
  have htype : (2#64 : BitVec 64) = (2#4).setWidth 64 := rfl
  have hfmt : (3#64 : BitVec 64) = (3#4).setWidth 64 := rfl
  rw [tocTrailer, hc, hs, hn, hlayout, htype, hfmt]
  simp only [BitVec.extractLsb'_or]
  refine ⟨?_, ?_, ?_⟩
  · rw [extractLsb'_shiftLeft_self _ (by omega), extractLsb'_shiftLeft_disjoint _ (by omega),
      extractLsb'_shiftLeft_disjoint _ (by omega), extractLsb'_shiftLeft_disjoint _ (by omega),
      extractLsb'_shiftLeft_disjoint _ (by omega), extractLsb'_shiftLeft_disjoint _ (by omega)]
    simp only [BitVec.ofNat_eq_ofNat, BitVec.or_zero]
  · rw [extractLsb'_shiftLeft_disjoint (BitVec.ofNat 12 (nchans - 1)) (by omega),
      extractLsb'_shiftLeft_self _ (by omega), extractLsb'_shiftLeft_disjoint _ (by omega),
      extractLsb'_shiftLeft_disjoint _ (by omega), extractLsb'_shiftLeft_disjoint _ (by omega),
      extractLsb'_shiftLeft_disjoint _ (by omega)]
    simp only [BitVec.ofNat_eq_ofNat, BitVec.or_zero, BitVec.zero_or]
  · rw [extractLsb'_shiftLeft_disjoint (BitVec.ofNat 12 (nchans - 1)) (by omega),
      extractLsb'_shiftLeft_disjoint (BitVec.ofNat 12 (nsamples - 1)) (by omega),
      extractLsb'_shiftLeft_disjoint (0#4) (by omega), extractLsb'_shiftLeft_self _ (by omega),
      extractLsb'_shiftLeft_disjoint _ (by omega), extractLsb'_shiftLeft_disjoint _ (by omega)]
    simp only [BitVec.ofNat_eq_ofNat, BitVec.or_zero, BitVec.zero_or]

/-- The two offsets of a word. -/
theorem tocWord_halves {offsets : Nat → Nat} {i : Nat} (hlo : offsets i < 2 ^ 32)
    (hhi : offsets (i + 1) < 2 ^ 32) :
    ((tocWord offsets i).extractLsb' 0 32).toNat = offsets i ∧
      ((tocWord offsets i).extractLsb' 32 32).toNat = offsets (i + 1) := by
  have hl : BitVec.ofNat 64 (offsets i) = (BitVec.ofNat 32 (offsets i)).setWidth 64 <<< 0 := by
    rw [BitVec.shiftLeft_zero]
    exact (BitVec.setWidth_ofNat_of_le_of_lt (by omega) hlo).symm
  have hh : BitVec.ofNat 64 (offsets (i + 1)) =
      (BitVec.ofNat 32 (offsets (i + 1))).setWidth 64 :=
    (BitVec.setWidth_ofNat_of_le_of_lt (by omega) hhi).symm
  rw [tocWord, hl, hh]
  simp only [BitVec.extractLsb'_or]
  constructor
  · rw [extractLsb'_shiftLeft_self _ (by omega), extractLsb'_shiftLeft_disjoint _ (by omega),
      BitVec.ofNat_eq_ofNat, BitVec.or_zero, BitVec.toNat_ofNat, Nat.mod_eq_of_lt hlo]
  · rw [extractLsb'_shiftLeft_disjoint _ (by omega), extractLsb'_shiftLeft_self _ (by omega),
      BitVec.ofNat_eq_ofNat, BitVec.zero_or, BitVec.toNat_ofNat, Nat.mod_eq_of_lt hhi]

/-- **The table** is read back, when two more words end the packet. -/
theorem tocDecode_spec {buf : Nat → BitVec 64} {p nchans nsamples : Nat} {offsets : Nat → Nat}
    (hchans : 1 ≤ nchans ∧ nchans ≤ 2 ^ 12) (hsamples : 1 ≤ nsamples ∧ nsamples ≤ 2 ^ 12)
    (hlt : ∀ i ≤ nchans + 1, offsets i < 2 ^ 32)
    (hstored : StoredAt buf p (tocWords nchans nsamples offsets)) :
    (tocDecode buf (p + (nchans / 2 + 2) + 2)).nchannels = nchans ∧
      (tocDecode buf (p + (nchans / 2 + 2) + 2)).nsamples = nsamples ∧
      (tocDecode buf (p + (nchans / 2 + 2) + 2)).n64 = nchans / 2 + 2 ∧
      ∀ i ≤ nchans, (tocDecode buf (p + (nchans / 2 + 2) + 2)).offsets i = offsets i := by
  have hptr : p + (nchans / 2 + 2) + 2 - 1 - 2 = p + (nchans / 2 + 1) := by omega
  obtain ⟨hwords, htrailer⟩ := StoredAt.append.mp hstored
  rw [List.length_map, List.length_range] at htrailer
  have htlr := StoredAt.singleton.mp htrailer
  have hchanField : nchans - 1 < 2 ^ 12 := by omega
  have hsampleField : nsamples - 1 < 2 ^ 12 := by omega
  obtain ⟨hc, hs, hn⟩ := tocTrailer_fields hchanField hsampleField
  have hn64 : (buf (p + (nchans / 2 + 1)) >>> 8 &&& 0xffff).toNat = nchans / 2 + 2 := by
    have hslice := toNat_shiftRight_and_mask (s := 8) (l := 16) (buf (p + (nchans / 2 + 1)))
      (by omega)
    rw [htlr, hn, BitVec.toNat_ofNat] at hslice
    rw [htlr]
    refine hslice.trans ?_
    omega
  have hcount (s k : Nat) (hk : 1 ≤ k ∧ k ≤ 2 ^ 12)
      (hfield : (buf (p + (nchans / 2 + 1))).extractLsb' s 12 = BitVec.ofNat 12 (k - 1)) :
      (buf (p + (nchans / 2 + 1)) >>> s &&& 0xfff).toNat + 1 = k := by
    have hslice := toNat_shiftRight_and_mask (s := s) (l := 12) (buf (p + (nchans / 2 + 1)))
      (by omega)
    rw [hfield, BitVec.toNat_ofNat] at hslice
    have hmod : (k - 1) % 2 ^ 12 + 1 = k := by omega
    exact (congrArg (· + 1) hslice).trans hmod
  unfold tocDecode
  dsimp only
  rw [hptr]
  refine ⟨hcount 40 nchans hchans (by rw [htlr, hc]),
    hcount 28 nsamples hsamples (by rw [htlr, hs]), hn64, fun i hi => ?_⟩
  have hbase : p + (nchans / 2 + 1) + 1 - (nchans / 2 + 2) = p := by omega
  rw [hn64, hbase, offsetAt]
  have hat : buf (p + i / 2) = tocWord offsets (2 * (i / 2)) := by
    refine hwords (i / 2) _ ?_
    rw [List.getElem?_map, List.getElem?_range (by omega)]
    rfl
  obtain ⟨hlo, hhi⟩ := tocWord_halves (i := 2 * (i / 2)) (hlt _ (by omega)) (hlt _ (by omega))
  rw [hat]
  rcases Nat.mod_two_eq_zero_or_one i with heven | hodd
  · rw [heven, Nat.mul_zero, hlo]
    congr 1
    omega
  · rw [hodd, Nat.mul_one, hhi]
    congr 1
    omega

end ProtoDune.Firmware
