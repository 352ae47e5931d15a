import ProtoDune.Firmware.Bfu
import ProtoDune.Firmware.Histogram

/-!
# `Histogram-Decode.cpp`: the histogram read back

The test programs of the host have a copy of it. The width of the field of a bin
is computed anew from the counts read so far, as `encode` computes it from those
written.

Main results:

* `decodeLoop_spec` — the fields of the bins are read with the widths they were written with.
* `hist_codec` — what `encode` writes is read back, to the bit, and gives its table.
-/

namespace ProtoDune.Firmware

open BitString

/-- `__builtin_clz`, which gives `undef` for 0. -/
def builtinClz (undef : Nat) (x : Int) : Nat :=
  if x = 0 then undef else countLeadingZeros 32 (x % 2 ^ 32).toNat

/-- What `hist_decode` leaves: its output arguments and the position it returns. -/
structure HistDecoded where
  bins : Nat → Nat
  nrbins : Nat
  first : Nat
  novrflw : Nat
  bfu : Bfu
  position : Nat

/-- `left ? _bfu_extractR (..) : 0`. -/
def extractCnts (wrds : WordArray) (bfu : Bfu) (position : Nat) (left : Int) (nbits : Nat) :
    Option (Nat × Bfu × Nat) :=
  if left ≠ 0 then extractR wrds bfu position nbits else some (0, bfu, position)

/-- `bins[ibin] = cnts`, of `NBins` entries of 16 bits. -/
def storeBin (bins : Nat → Nat) (ibin cnts : Nat) : Option (Nat → Nat) :=
  if ibin < NBins then some (Function.update bins ibin (cnts % 2 ^ 16)) else none

/-- The loop of `hist_decode`: `k` bins are still to come. -/
def decodeLoop (undef : Nat) (wrds : WordArray) (mbits : Nat) :
    Nat → Nat → Int → Nat → (Nat → Nat) → Bfu → Nat → Option ((Nat → Nat) × Bfu × Nat)
  | 0, _, _, _, bins, bfu, position => some (bins, bfu, position)
  | k + 1, ibin, left, nbits, bins, bfu, position => do
      let (cnts, bfu, position) ← extractCnts wrds bfu position left nbits
      let bins ← storeBin bins ibin cnts
      let left := left - cnts
      let nbits := 32 - builtinClz undef left
      let nbits := if mbits < nbits then mbits else nbits
      decodeLoop undef wrds mbits k (ibin + 1) left nbits bins bfu position

/-- `hist_decode`: the position is that in the context. -/
def histDecode (undef : Nat) (wrds : WordArray) (bins : Nat → Nat) (bfu : Bfu) :
    Option HistDecoded := do
  let position := bfu.val
  let (_, bfu, position) ← extractR wrds bfu position 4
  let (nbins, bfu, position) ← extractR wrds bfu position 8
  let nbins := nbins + 1
  let (mbits, bfu, position) ← extractR wrds bfu position 4
  let (first, bfu, position) ← extractR wrds bfu position 12
  let (novrflw, bfu, position) ← extractR wrds bfu position 4
  let (bins, bfu, position) ← decodeLoop undef wrds mbits nbins 0 1023 mbits bins bfu position
  some ⟨bins, nbins, first, novrflw, bfu, position⟩

/-- The loop of `hist_integrate`: the table and the total after `k` bins. -/
def integrateLoop (bins : Nat → Nat) (table : Nat → Nat) : Nat → (Nat → Nat) × Nat
  | 0 => (table, 0)
  | idx + 1 =>
      let (table, total) := integrateLoop bins table idx
      (Function.update table (idx + 1) total, (total + bins idx) % 2 ^ 16)

/-- `hist_integrate`: the number of bins, and the counts before each. -/
def histIntegrate (table bins : Nat → Nat) (nbins : Nat) : Nat → Nat :=
  let (table, total) := integrateLoop bins (Function.update table 0 (nbins % 2 ^ 16)) nbins
  Function.update table (nbins + 1) total

/-! ## The table -/

theorem integrateLoop_spec {bins : Nat → Nat} {n : Nat} (hn : total bins n < 2 ^ 16)
    (table : Nat → Nat) :
    (integrateLoop bins table n).2 = total bins n ∧
      (integrateLoop bins table n).1 0 = table 0 ∧
      ∀ j < n, (integrateLoop bins table n).1 (j + 1) = total bins j := by
  induction n with
  | zero => exact ⟨rfl, rfl, fun j hj => absurd hj (Nat.not_lt_zero j)⟩
  | succ n ih =>
    rw [total_succ] at hn
    obtain ⟨htotal, hzero, hbefore⟩ := ih (by omega)
    refine ⟨?_, ?_, ?_⟩
    · show ((integrateLoop bins table n).2 + bins n) % 2 ^ 16 = _
      rw [htotal, total_succ, Nat.mod_eq_of_lt hn]
    · show Function.update (integrateLoop bins table n).1 (n + 1) (integrateLoop bins table n).2 0 =
        table 0
      rw [Function.update_of_ne (Nat.succ_ne_zero n).symm, hzero]
    · intro j hj
      show Function.update (integrateLoop bins table n).1 (n + 1) (integrateLoop bins table n).2
        (j + 1) = total bins j
      rcases Nat.lt_succ_iff_lt_or_eq.mp hj with hlt | rfl
      · rw [Function.update_of_ne (by omega), hbefore j hlt]
      · rw [Function.update_self, htotal]

/-- **The table** gives the number of bins and the counts before each. -/
theorem histIntegrate_spec {bins : Nat → Nat} {n : Nat} (hn : total bins n < 2 ^ 16)
    (hbins : n < 2 ^ 16) (table : Nat → Nat) :
    histIntegrate table bins n 0 = n ∧
      ∀ j ≤ n, histIntegrate table bins n (j + 1) = total bins j := by
  obtain ⟨htotal, hzero, hbefore⟩ :=
    integrateLoop_spec hn (Function.update table 0 (n % 2 ^ 16))
  constructor
  · show Function.update (integrateLoop bins _ n).1 (n + 1) _ 0 = n
    rw [Function.update_of_ne (Nat.succ_ne_zero n).symm, hzero, Function.update_self,
      Nat.mod_eq_of_lt hbins]
  · intro j hj
    show Function.update (integrateLoop bins _ n).1 (n + 1) _ (j + 1) = _
    rcases Nat.lt_or_eq_of_le hj with hlt | rfl
    · rw [Function.update_of_ne (by omega), hbefore j hlt]
    · rw [Function.update_self, htotal]

/-! ## The bins -/

/-- The width computed from the counts left is that of the field. -/
theorem width_eq {undef mbits : Nat} {c : Nat → Nat} {b : Nat} (hlt : total c b < 1023) :
    (if mbits < 32 - builtinClz undef (1023 - total c b) then mbits
      else 32 - builtinClz undef (1023 - total c b)) = fieldWidth c mbits b := by
  have hcast : ((1023 - (total c b : Int)) % 2 ^ 32).toNat = 1023 - total c b := by omega
  have hne : (1023 - (total c b : Int)) ≠ 0 := by omega
  rw [builtinClz, if_neg hne, hcast, sub_countLeadingZeros (by omega), fieldWidth, Nat.min_def]
  split <;> split <;> omega

/-- The fields of the bins are read with their widths. -/
theorem decodeLoop_spec {undef mbits : Nat} {wrds : WordArray} {c : Nat → Nat}
    (hc : ∀ b < NBins, c b < 2 ^ mbits) (hm : 1 ≤ mbits) (htotal : total c NBins = 1023) (k : Nat) :
    ∀ {ibin nbits : Nat} (bins : Nat → Nat) {bfu : Bfu} {position : Nat} {rest : List Bool},
    ibin + k = NBins → (total c ibin < 1023 → nbits = fieldWidth c mbits ibin) →
    Reads wrds bfu position (fields c mbits k ibin ++ rest) →
    ∃ bins' bfu', decodeLoop undef wrds mbits k ibin (1023 - total c ibin) nbits bins bfu position =
        some (bins', bfu', position + (fields c mbits k ibin).length) ∧
      Reads wrds bfu' (position + (fields c mbits k ibin).length) rest ∧
      (∀ b, ibin ≤ b → b < NBins → bins' b = c b) ∧ ∀ b < ibin, bins' b = bins b := by
  induction k with
  | zero =>
    intro ibin nbits bins bfu position rest hk _ hreads
    exact ⟨bins, bfu, rfl, hreads, fun b hle hlt => by omega, fun b _ => rfl⟩
  | succ k ih =>
    intro ibin nbits bins bfu position rest hk hnbits hreads
    have hlt : ibin < NBins := by omega
    have hsucc := total_mono c (show ibin + 1 ≤ NBins by omega)
    have hadd := total_succ c ibin
    rw [fields, List.append_assoc] at hreads
    -- without counts left the field is empty
    have hread : ∃ bfu₁, extractCnts wrds bfu position (1023 - total c ibin) nbits =
          some (c ibin, bfu₁, position + fieldWidth c mbits ibin) ∧
        Reads wrds bfu₁ (position + fieldWidth c mbits ibin)
          (fields c mbits k (ibin + 1) ++ rest) := by
      by_cases hleft : total c ibin < 1023
      · have hsize : 0 < Nat.size (1023 - total c ibin) := Nat.size_pos.mpr (by omega)
        have hsize10 : Nat.size (1023 - total c ibin) ≤ 10 := Nat.size_le.mpr (by omega)
        have hpos : 1 ≤ fieldWidth c mbits ibin := le_min hm hsize
        have hle : fieldWidth c mbits ibin ≤ 32 :=
          Nat.le_trans (Nat.min_le_right _ _) (Nat.le_trans hsize10 (by decide))
        rw [extractCnts, if_pos (by omega), hnbits hleft]
        exact hreads.extract hpos hle (lt_fieldWidth (hc ibin hlt) (by omega))
      · have hwidth : fieldWidth c mbits ibin = 0 := by
          rw [fieldWidth, show 1023 - total c ibin = 0 by omega]
          exact Nat.min_zero mbits
        rw [hwidth] at hreads ⊢
        rw [extractCnts, if_neg (by omega), show c ibin = 0 by omega]
        exact ⟨bfu, rfl, hreads⟩
    obtain ⟨bfu₁, hfield, hreads₁⟩ := hread
    have hleft : (1023 : Int) - total c ibin - c ibin = 1023 - total c (ibin + 1) := by omega
    have hcnts : c ibin % 2 ^ 16 = c ibin := Nat.mod_eq_of_lt (by omega)
    obtain ⟨bins', bfu', hrun, hreads', hbins, hkeep⟩ :=
      ih (Function.update bins ibin (c ibin)) (show ibin + 1 + k = NBins by omega)
        (fun h => width_eq h) hreads₁
    refine ⟨bins', bfu', ?_, ?_, ?_, ?_⟩
    · rw [decodeLoop, hfield]
      simp only [Option.bind_eq_bind, Option.bind_some]
      rw [storeBin, if_pos hlt, Option.bind_some, hleft, hcnts, hrun, fields, List.length_append,
        length_toBits, Nat.add_assoc]
    · rw [fields, List.length_append, length_toBits, ← Nat.add_assoc]
      exact hreads'
    · intro b hle hb
      rcases Nat.eq_or_lt_of_le hle with rfl | hgt
      · rw [hkeep ibin (Nat.lt_succ_self ibin), Function.update_self]
      · exact hbins b hgt hb
    · intro b hb
      rw [hkeep b (by omega), Function.update_of_ne (by omega)]

/-! ## The histogram -/

/-- The five fields of the header. -/
theorem toBits_header (h : Histogram) {mbits : Nat} (hm : mbits < 2 ^ 4) (hn : h.nobits < 2 ^ 4)
    (first : AdcIn) : toBits 32 (h.header mbits first) =
      toBits 4 0 ++ (toBits 8 (NBins - 1) ++ (toBits 4 mbits ++
        (toBits 12 first.toNat ++ toBits 4 h.nobits))) := by
  have hnested : 0 <<< 28 ||| (NBins - 1) <<< 20 ||| mbits <<< 16 ||| first.toNat <<< 4 |||
      h.nobits = (((0 <<< 8 ||| (NBins - 1)) <<< 4 ||| mbits) <<< 12 ||| first.toNat) <<< 4 |||
        h.nobits := by
    simp only [Nat.shiftLeft_or_distrib, ← Nat.shiftLeft_add]
  rw [Histogram.header, toBits_mod (Nat.le_refl 32), hnested,
    toBits_shift_or hn 28, toBits_shift_or first.isLt 16, toBits_shift_or hm 12,
    toBits_shift_or (show NBins - 1 < 2 ^ 8 by decide) 4]
  simp only [List.append_assoc]

/-- `hist_decode` reads the header and the bins, and stops behind them. -/
theorem histDecode_spec (undef : Nat) {h : Histogram} {mbits : Nat} {first : AdcIn} {c : Nat → Nat}
    {wrds : WordArray} {bfu : Bfu} {rest : List Bool} (hc : ∀ b < NBins, c b < 2 ^ mbits)
    (htotal : total c NBins = 1023) (hm : 1 ≤ mbits) (hm10 : mbits ≤ 10)
    (hn : h.nobits < 2 ^ 4) (bins : Nat → Nat)
    (hreads : Reads wrds bfu bfu.val
      (toBits 32 (h.header mbits first) ++ fields c mbits NBins 0 ++ rest)) :
    ∃ r, histDecode undef wrds bins bfu = some r ∧ r.nrbins = NBins ∧ r.first = first.toNat ∧
      r.novrflw = h.nobits ∧ (∀ b < NBins, r.bins b = c b) ∧
      r.position = bfu.val + (32 + (fields c mbits NBins 0).length) ∧
      Reads wrds r.bfu r.position rest := by
  have hm4 : mbits < 2 ^ 4 := Nat.lt_of_le_of_lt hm10 (by decide)
  rw [toBits_header h hm4 hn first] at hreads
  simp only [List.append_assoc] at hreads
  obtain ⟨bfu₁, hformat, hreads⟩ := hreads.extract (by decide) (by decide) (by decide)
  obtain ⟨bfu₂, hnbins, hreads⟩ := hreads.extract (by decide) (by decide) (by decide)
  obtain ⟨bfu₃, hmbits, hreads⟩ := hreads.extract (by decide) (by decide) hm4
  obtain ⟨bfu₄, hfirst, hreads⟩ := hreads.extract (by decide) (by decide) first.isLt
  obtain ⟨bfu₅, hnovr, hreads⟩ := hreads.extract (by decide) (by decide) hn
  have hwidth : mbits = fieldWidth c mbits 0 := by
    have hsize : 10 ≤ Nat.size (1023 - total c 0) := Nat.lt_size.mpr (show 2 ^ 9 ≤ 1023 by decide)
    exact (Nat.min_eq_left (Nat.le_trans hm10 hsize)).symm
  obtain ⟨bins', bfu', hrun, hreads', hbins, -⟩ := decodeLoop_spec hc hm htotal NBins bins
    (Nat.zero_add NBins) (fun _ => hwidth) hreads
  refine ⟨⟨bins', NBins, first.toNat, h.nobits, bfu', _⟩, ?_, rfl, rfl, rfl,
    fun b hb => hbins b (Nat.zero_le b) hb, ?_, hreads'⟩
  · unfold histDecode
    simp only [Option.bind_eq_bind]
    rw [hformat, Option.bind_some, hnbins, Option.bind_some, hmbits, Option.bind_some, hfirst,
      Option.bind_some, hnovr, Option.bind_some]
    rw [show NBins - 1 + 1 = NBins from rfl, show (1023 : Int) = 1023 - total c 0 from rfl, hrun]
    rfl
  · show bfu.val + 4 + 8 + 4 + 12 + 4 + (fields c mbits NBins 0).length = _
    omega

/-- The largest count of a packet takes 1 to 10 bits. -/
theorem countBits_bounds {syms : List Symbol} (hlen : syms.length = 1023) :
    1 ≤ countBits syms ∧ countBits syms ≤ 10 ∧
      ∀ b < NBins, multiplicity syms b < 2 ^ countBits syms := by
  have hlt : ∀ b < NBins, multiplicity syms b < 2 ^ countBits syms := fun b hb =>
    Nat.lt_of_le_of_lt (Finset.le_sup (f := multiplicity syms) (Finset.mem_range.mpr hb))
      (Nat.lt_size_self _)
  refine ⟨?_, ?_, hlt⟩
  · -- with no bits there would be no counts
    refine Nat.one_le_iff_ne_zero.mpr fun hzero => ?_
    rw [hzero] at hlt
    have hnone : total (multiplicity syms) NBins = 0 := by
      rw [total_congr fun b hb => Nat.lt_one_iff.mp (hlt b hb)]
      decide
    rw [total_multiplicity, hlen] at hnone
    exact absurd hnone (by decide)
  · refine Nat.size_le.mpr (Nat.lt_of_le_of_lt (Finset.sup_le fun b _ => multiplicity_le syms b) ?_)
    rw [hlen]
    decide

/-- **The histogram** of a packet, with any number of overflow bits, is read back from where it was
written; the reader stops behind it, and the table of the bins read is the table of `encode`. -/
theorem hist_codec (stale staleOut : Histogram) (syms : List Symbol) (hlen : syms.length = 1023)
    (nobits : Nat) (hnobits : nobits < 2 ^ 4) (first : AdcIn) (os : OStream) (bs : BitStream64)
    (table : Nat → Nat) (hroom : bs.idx + 352 < 2 ^ 14) (h : Histogram)
    (hpacket : h = (stale.clear.bumps staleOut.clear syms).1 ∨
      h = (stale.clear.bumps staleOut.clear syms).2) :
    ∃ os' bs' table' written,
      Histogram.encode { h with nobits } os bs table first = some (os', bs', table') ∧
      bs'.contents os' = bs.contents os ++ written ∧
      ∀ undef wrds bfu bins rest, Reads wrds bfu bfu.val (written ++ rest) →
        ∃ r, histDecode undef wrds bins bfu = some r ∧
          r.nrbins = NBins ∧ r.first = first.toNat ∧ r.novrflw = nobits ∧
          (∀ b < NBins, r.bins b = h.counts b) ∧
          r.position = bfu.val + written.length ∧ Reads wrds r.bfu r.position rest ∧
          ∀ entries, histIntegrate entries r.bins r.nrbins 0 = NBins ∧
            ∀ j ≤ NBins, histIntegrate entries r.bins r.nrbins (j + 1) = table' j := by
  have hr : Represents h syms := by
    obtain ⟨hr, hs⟩ := (represents_clear stale).bumps (sameContents_clear stale staleOut) syms
      (Nat.le_of_eq hlen)
    rcases hpacket with rfl | rfl
    · exact hr
    · exact hs.represents hr
  obtain ⟨hm, hm10, hlt⟩ := countBits_bounds hlen
  have htotal : total (multiplicity syms) NBins = 1023 := by rw [total_multiplicity, hlen]
  obtain ⟨os', bs', table', hrun, -, hcont, htable⟩ :=
    Histogram.encode_spec (h := { h with nobits }) hr.counts hr.maxcnt (Nat.le_of_eq hlen) first os
      bs table hroom
  refine ⟨os', bs', table', _, hrun, hcont, ?_⟩
  intro undef wrds bfu bins rest hreads
  obtain ⟨r, hdecode, hnr, hfirst, hnovr, hbins, hpos, hrest⟩ :=
    histDecode_spec undef hlt htotal hm hm10 hnobits bins hreads
  have htotals : ∀ j ≤ NBins, total r.bins j = total (multiplicity syms) j := fun j hj =>
    total_congr fun i hi => hbins i (by omega)
  refine ⟨r, hdecode, hnr, hfirst, hnovr, ?_, ?_, hrest, ?_⟩
  · intro b hb
    rw [hbins b hb, hr.counts b hb]
  · rw [hpos, List.length_append, length_toBits]
  · intro entries
    rw [hnr]
    have hsmall : total r.bins NBins < 2 ^ 16 := by
      rw [htotals NBins (Nat.le_refl NBins), htotal]
      decide
    obtain ⟨hzero, hsums⟩ := histIntegrate_spec hsmall (by decide) entries
    refine ⟨hzero, fun j hj => ?_⟩
    rw [hsums j hj, htotals j hj, htable j hj]

/-- A packet of one symbol, behind the one of before. -/
theorem hist_codec_oneSymbol :
    ∃ os' bs' table' written,
      Histogram.encode { (leftBehind.clear.bumps leftBehind.clear (List.replicate 1023 3)).1 with
        nobits := 5 } ⟨0, 0, fun _ => 0⟩ ⟨0, 0⟩ (fun _ => 0) 0x123 = some (os', bs', table') ∧
      bs'.contents os' = BitStream64.contents ⟨0, 0⟩ ⟨0, 0, fun _ => 0⟩ ++ written ∧
      ∀ undef wrds bfu bins rest, Reads wrds bfu bfu.val (written ++ rest) →
        ∃ r, histDecode undef wrds bins bfu = some r ∧
          r.nrbins = NBins ∧ r.first = 0x123 ∧ r.novrflw = 5 ∧
          (∀ b < NBins, r.bins b =
            (leftBehind.clear.bumps leftBehind.clear (List.replicate 1023 3)).1.counts b) ∧
          r.position = bfu.val + written.length ∧ Reads wrds r.bfu r.position rest ∧
          ∀ entries, histIntegrate entries r.bins r.nrbins 0 = NBins ∧
            ∀ j ≤ NBins, histIntegrate entries r.bins r.nrbins (j + 1) = table' j :=
  hist_codec leftBehind leftBehind (List.replicate 1023 3) List.length_replicate 5 (by decide) 0x123
    ⟨0, 0, fun _ => 0⟩ ⟨0, 0⟩ (fun _ => 0) (by decide) _ (.inl rfl)

end ProtoDune.Firmware
