import Mathlib.Data.Finset.Lattice.Fold
import Mathlib.Data.Finset.Range
import Mathlib.Order.Lattice.Nat
import ProtoDune.Firmware.BitStream64

/-!
# `DuneDataCompressionHistogram.h`: the histogram of one channel

The histogram counts symbols in 32 bins, the overflowing ones in bin 0. It is
cleared by clearing the mask of its occupied bins only, so that the bins keep
the counts of the packet before.

`Represents h syms` says what the fields of `h` mean: the counts of the
occupied bins are the multiplicities in `syms`, and the others summarise them.

Main results:

* `Represents.bump` — one `bump` adds a symbol, to the output histogram too.
* `Histogram.encode_congr` — `encode` reads the logical contents only.
* `histogram_bump_invariant` — the two together, over a packet.
-/

namespace ProtoDune.Firmware

open BitString

/-- `AdcIn_t`, 12 bits. -/
abbrev AdcIn := BitVec 12

/-- `Histogram::Symbol_t`, 13 bits. -/
abbrev Symbol := BitVec 13

/-- `Histogram::NBins`. -/
def NBins : Nat := 32

/-- The fields of the class. `m_bins` has `NBins + 1` entries of 10 bits. -/
structure Histogram where
  omask : BitVec 32
  maxcnt : Nat
  lastgt0 : Nat
  lastgt1 : Nat
  lastgt2 : Nat
  min : Nat
  max : Nat
  nobits : Nat
  bins : Nat → Nat

namespace Histogram

/-- `clear`: the bins themselves stay. -/
def clear (h : Histogram) : Histogram :=
  { h with omask := 0, maxcnt := 0, lastgt0 := 0, lastgt1 := 0, lastgt2 := 0
           min := 1 <<< (13 - 1), max := 0, nobits := 0 }

/-- `symbol`: the difference is doubled in 13 bits. -/
def symbol (cur prv : AdcIn) : Symbol :=
  let diff := ((prv.setWidth 13 - cur.setWidth 13) <<< 1 ||| 1#13).toInt
  if diff < 0 then BitVec.ofInt 13 (-diff + 1) else BitVec.ofInt 13 diff

/-- `idx`: the bin of a symbol and, when it overflows, by how much; `ovr` is
left alone otherwise. -/
def idx (symbol : Symbol) (ovr : Nat) : Nat × Nat :=
  let diff : Int := symbol.toNat - NBins
  if 0 ≤ diff then (0, diff.toNat) else (symbol.toNat, ovr)

/-- `bump`: count `sym`, and bring the fields of `hist` up to date. -/
def bump (h hist : Histogram) (sym : Symbol) : Histogram × Histogram :=
  let ovr : Int := sym.toNat - 33 + 1
  let max := if 0 ≤ ovr ∧ h.max < ovr then ovr.toNat else h.max
  let min := if 0 ≤ ovr ∧ ovr < h.min then ovr.toNat else h.min
  let nobits := if 0 ≤ ovr then 13 - countLeadingZeros 13 max else h.nobits
  let bin := if 0 ≤ ovr then 0 else sym.toNat
  -- what a bin holds before it is occupied is left over from another packet
  let cnts := if h.omask.getLsbD bin then h.bins bin else 0
  let omask := if h.omask.getLsbD bin then h.omask else h.omask ||| 1#32 <<< bin
  let lastgt0 := if 0 ≤ cnts ∧ h.lastgt0 < bin then bin else h.lastgt0
  let lastgt1 := if 1 ≤ cnts ∧ h.lastgt1 < bin then bin else h.lastgt1
  let lastgt2 := if 3 ≤ cnts ∧ h.lastgt2 < bin then bin else h.lastgt2
  let cnts := (cnts + 1) % 2 ^ 10
  let maxcnt := if h.maxcnt ≤ cnts then cnts else h.maxcnt
  let fields := { h with omask, maxcnt, lastgt0, lastgt1, lastgt2, min, max, nobits }
  ({ fields with bins := Function.update h.bins bin cnts },
    { fields with bins := Function.update hist.bins bin cnts })

/-- `bump` for each symbol of a packet. -/
def bumps (h hist : Histogram) (syms : List Symbol) : Histogram × Histogram :=
  syms.foldl (fun hs sym => hs.1.bump hs.2 sym) (h, hist)

/-- The loop of `encode`: `k` bins are still to come after `bits`, the field of
the bin before `ibin`. -/
def encodeLoop (h : Histogram) (mbits : Nat) : Nat → Nat → Nat → Nat → Nat → BitStream64 →
    OStream → (Nat → Nat) → Option (BitStream64 × OStream × (Nat → Nat))
  | k, ibin, total, bits, nbits, bs, os, table => do
      let left := (1024 - 1 - total) % 2 ^ 10
      let table := Function.update table ibin total
      let (bs, os) ← bs.insert os bits nbits
      match k with
      | 0 => some (bs, os, table)
      | k + 1 =>
          let nbits := 10 - countLeadingZeros 10 left
          let cnts := if h.omask.getLsbD ibin then h.bins ibin else 0
          let nbits := if mbits ≤ nbits then mbits else nbits
          encodeLoop h mbits k (ibin + 1) ((total + cnts) % 2 ^ 10) cnts nbits bs os table

/-- The header of the encoded histogram, 32 bits. -/
def header (h : Histogram) (mbits : Nat) (first : AdcIn) : Nat :=
  (0 <<< 28 ||| (NBins - 1) <<< 20 ||| mbits <<< 16 ||| first.toNat <<< 4 ||| h.nobits) % 2 ^ 32

/-- `encode`: write the histogram to the stream, and its cumulative counts to
the table. -/
def encode (h : Histogram) (os : OStream) (bs : BitStream64) (table : Nat → Nat) (first : AdcIn) :
    Option (OStream × BitStream64 × (Nat → Nat)) := do
  let mbits := 10 - countLeadingZeros 10 h.maxcnt
  let (bs, os, table) ← h.encodeLoop mbits NBins 0 0 (h.header mbits first) 32 bs os table
  some (bs.transfer os, bs, table)

end Histogram

/-! ## What a histogram stands for -/

/-- The bin of a symbol. -/
def binOf (sym : Symbol) : Nat := (Histogram.idx sym 0).1

/-- By how much a symbol overflows the bins. -/
def overflow (sym : Symbol) : Option Nat :=
  if NBins ≤ sym.toNat then some (sym.toNat - NBins) else none

/-- How often the bin `b` is hit. -/
def multiplicity (syms : List Symbol) (b : Nat) : Nat := (syms.map binOf).count b

/-- The last bin hit at least `k` times, 0 if there is none. -/
def lastReaching (k : Nat) (syms : List Symbol) : Nat :=
  ((Finset.range NBins).filter fun b => k ≤ multiplicity syms b).sup id

/-- The largest overflow, 0 if there is none. -/
def maxOverflow (syms : List Symbol) : Nat := (syms.filterMap overflow).foldr max 0

/-- The count of a bin, as the occupied mask says. -/
def Histogram.counts (h : Histogram) (b : Nat) : Nat :=
  if h.omask.getLsbD b then h.bins b else 0

/-- The fields of `h` describe the symbols `syms`. -/
structure Represents (h : Histogram) (syms : List Symbol) : Prop where
  counts : ∀ b < NBins, h.counts b = multiplicity syms b
  maxcnt : h.maxcnt = (Finset.range NBins).sup (multiplicity syms)
  lastgt0 : h.lastgt0 = lastReaching 1 syms
  lastgt1 : h.lastgt1 = lastReaching 2 syms
  lastgt2 : h.lastgt2 = lastReaching 4 syms
  max : h.max = maxOverflow syms
  nobits : h.nobits = Nat.size (maxOverflow syms)

theorem binOf_lt (sym : Symbol) : binOf sym < NBins := by
  unfold binOf Histogram.idx NBins
  dsimp only
  split <;> omega

theorem multiplicity_snoc (syms : List Symbol) (sym : Symbol) (b : Nat) :
    multiplicity (syms ++ [sym]) b = multiplicity syms b + if b = binOf sym then 1 else 0 := by
  rw [multiplicity, List.map_append, List.count_append, List.map_singleton, List.count_singleton]
  by_cases h : b = binOf sym
  · subst h
    simp [multiplicity]
  · have hne : (binOf sym == b) = false := by simpa using Ne.symm h
    simp [multiplicity, h, hne]

theorem multiplicity_le (syms : List Symbol) (b : Nat) : multiplicity syms b ≤ syms.length := by
  unfold multiplicity
  simpa using List.count_le_length (l := syms.map binOf) (a := b)

/-- One more hit raises the largest multiplicity to that of its bin at least. -/
theorem sup_multiplicity_snoc (syms : List Symbol) (sym : Symbol) :
    (Finset.range NBins).sup (multiplicity (syms ++ [sym])) =
      max ((Finset.range NBins).sup (multiplicity syms)) (multiplicity syms (binOf sym) + 1) := by
  apply le_antisymm
  · refine Finset.sup_le fun b hb => ?_
    rw [multiplicity_snoc]
    split
    · next h => rw [h]; exact le_max_right _ _
    · exact le_max_of_le_left (Finset.le_sup (f := multiplicity syms) hb)
  · refine max_le (Finset.sup_mono_fun fun b _ => ?_) ?_
    · rw [multiplicity_snoc]
      exact Nat.le_add_right _ _
    · have hmem : binOf sym ∈ Finset.range NBins := Finset.mem_range.mpr (binOf_lt sym)
      have hle := Finset.le_sup (f := multiplicity (syms ++ [sym])) hmem
      rwa [multiplicity_snoc, if_pos rfl] at hle

/-- One more hit moves the last bin reaching `k` only to its own bin. -/
theorem lastReaching_snoc (k : Nat) (syms : List Symbol) (sym : Symbol) :
    lastReaching k (syms ++ [sym]) =
      if k ≤ multiplicity syms (binOf sym) + 1 then max (binOf sym) (lastReaching k syms)
      else lastReaching k syms := by
  have hmem : binOf sym ∈ Finset.range NBins := Finset.mem_range.mpr (binOf_lt sym)
  unfold lastReaching
  split
  · next h =>
      have hset : (Finset.range NBins).filter (fun b => k ≤ multiplicity (syms ++ [sym]) b) =
          insert (binOf sym) ((Finset.range NBins).filter fun b => k ≤ multiplicity syms b) := by
        ext b
        rw [Finset.mem_insert, Finset.mem_filter, Finset.mem_filter, multiplicity_snoc]
        by_cases hb : b = binOf sym
        · simp [hb, h, hmem]
        · simp [hb]
      rw [hset, Finset.sup_insert]
      rfl
  · next h =>
      congr 1
      ext b
      rw [Finset.mem_filter, Finset.mem_filter, multiplicity_snoc]
      refine and_congr_right fun _ => ?_
      split
      · next hb => rw [hb]; omega
      · exact Iff.rfl

theorem maxOverflow_snoc (syms : List Symbol) (sym : Symbol) :
    maxOverflow (syms ++ [sym]) = max (maxOverflow syms) ((overflow sym).getD 0) := by
  have hfold : ∀ (xs : List Nat) (a : Nat), (xs ++ [a]).foldr max 0 = max (xs.foldr max 0) a := by
    intro xs a
    induction xs with
    | nil => simp
    | cons x xs ih => simp only [List.cons_append, List.foldr_cons, ih, Nat.max_assoc]
  unfold maxOverflow
  rw [List.filterMap_append]
  cases h : overflow sym with
  | none => simp [h]
  | some a => simp [h, hfold]

theorem maxOverflow_lt (syms : List Symbol) : maxOverflow syms < 2 ^ 13 := by
  induction syms using List.reverseRecOn with
  | nil => decide
  | append_singleton syms sym ih =>
      rw [maxOverflow_snoc]
      refine Nat.max_lt.mpr ⟨ih, ?_⟩
      unfold overflow
      have hlt := sym.isLt
      split
      · simp only [Option.getD_some]
        omega
      · simp

/-! ## One step -/

/-- The two histograms have the same fields and the same occupied bins. -/
structure SameContents (h hist : Histogram) : Prop where
  omask : hist.omask = h.omask
  maxcnt : hist.maxcnt = h.maxcnt
  lastgt0 : hist.lastgt0 = h.lastgt0
  lastgt1 : hist.lastgt1 = h.lastgt1
  lastgt2 : hist.lastgt2 = h.lastgt2
  min : hist.min = h.min
  max : hist.max = h.max
  nobits : hist.nobits = h.nobits
  bins : ∀ b, h.omask.getLsbD b = true → hist.bins b = h.bins b

theorem SameContents.counts {h hist : Histogram} (hs : SameContents h hist) :
    hist.counts = h.counts := by
  funext b
  unfold Histogram.counts
  rw [hs.omask]
  split
  · next hb => exact hs.bins b hb
  · rfl

theorem SameContents.represents {h hist : Histogram} (hs : SameContents h hist)
    {syms : List Symbol} (hr : Represents h syms) : Represents hist syms where
  counts b hb := by rw [hs.counts, hr.counts b hb]
  maxcnt := hs.maxcnt.trans hr.maxcnt
  lastgt0 := hs.lastgt0.trans hr.lastgt0
  lastgt1 := hs.lastgt1.trans hr.lastgt1
  lastgt2 := hs.lastgt2.trans hr.lastgt2
  max := hs.max.trans hr.max
  nobits := hs.nobits.trans hr.nobits

/-- The bin that `bump` counts in. -/
theorem bin_eq (sym : Symbol) :
    (if (0 : Int) ≤ (sym.toNat : Int) - 33 + 1 then 0 else sym.toNat) = binOf sym := by
  unfold binOf Histogram.idx NBins
  dsimp only
  split <;> split <;> omega

/-- The mask after occupying a bin. -/
theorem getLsbD_occupy (omask : BitVec 32) {bin : Nat} (hbin : bin < NBins) (b : Nat) :
    (if omask.getLsbD bin then omask else omask ||| 1#32 <<< bin).getLsbD b =
      (omask.getLsbD b || decide (b = bin)) := by
  have hlt : bin < 32 := hbin
  by_cases hb : b = bin
  · subst hb
    split
    · next h => simp [h]
    · simp [hlt]
  · split
    · simp [hb]
    · simp only [BitVec.getLsbD_or, BitVec.getLsbD_shiftLeft, BitVec.getLsbD_one, hb, decide_false,
        Bool.or_false]
      have hnot : ¬ (b < 32 ∧ bin ≤ b ∧ b - bin = 0) := by omega
      simp
      omega

namespace Histogram

/-! The fields after a `bump`. -/

theorem bump_omask (h hist : Histogram) (sym : Symbol) :
    (h.bump hist sym).1.omask = if h.omask.getLsbD (binOf sym) then h.omask
      else h.omask ||| 1#32 <<< binOf sym := by
  rw [← bin_eq]
  rfl

theorem bump_bins (h hist : Histogram) (sym : Symbol) :
    (h.bump hist sym).1.bins =
      Function.update h.bins (binOf sym) ((h.counts (binOf sym) + 1) % 2 ^ 10) := by
  rw [← bin_eq]
  rfl

theorem bump_out_bins (h hist : Histogram) (sym : Symbol) :
    (h.bump hist sym).2.bins =
      Function.update hist.bins (binOf sym) ((h.counts (binOf sym) + 1) % 2 ^ 10) := by
  rw [← bin_eq]
  rfl

theorem bump_maxcnt (h hist : Histogram) (sym : Symbol) :
    (h.bump hist sym).1.maxcnt = h.maxcnt ⊔ (h.counts (binOf sym) + 1) % 2 ^ 10 := by
  rw [max_def, ← bin_eq]
  rfl

/-- The last bins reaching a count are kept alike. -/
theorem ite_last (k cnts last bin : Nat) :
    (if k ≤ cnts ∧ last < bin then bin else last) =
      if k + 1 ≤ cnts + 1 then bin ⊔ last else last := by
  split <;> split <;> omega

theorem bump_lastgt0 (h hist : Histogram) (sym : Symbol) :
    (h.bump hist sym).1.lastgt0 =
      if 1 ≤ h.counts (binOf sym) + 1 then binOf sym ⊔ h.lastgt0 else h.lastgt0 := by
  rw [← ite_last 0, ← bin_eq]
  rfl

theorem bump_lastgt1 (h hist : Histogram) (sym : Symbol) :
    (h.bump hist sym).1.lastgt1 =
      if 2 ≤ h.counts (binOf sym) + 1 then binOf sym ⊔ h.lastgt1 else h.lastgt1 := by
  rw [← ite_last 1, ← bin_eq]
  rfl

theorem bump_lastgt2 (h hist : Histogram) (sym : Symbol) :
    (h.bump hist sym).1.lastgt2 =
      if 4 ≤ h.counts (binOf sym) + 1 then binOf sym ⊔ h.lastgt2 else h.lastgt2 := by
  rw [← ite_last 3, ← bin_eq]
  rfl

theorem bump_max (h hist : Histogram) (sym : Symbol) :
    (h.bump hist sym).1.max = h.max ⊔ (overflow sym).getD 0 := by
  have hover : (overflow sym).getD 0 = if (0 : Int) ≤ (sym.toNat : Int) - 33 + 1 then
      ((sym.toNat : Int) - 33 + 1).toNat else 0 := by
    unfold overflow NBins
    split <;> split <;> first | rfl | (simp only [Option.getD_some]; omega) | omega
  rw [hover]
  unfold bump
  dsimp only
  split <;> split <;> omega

theorem bump_nobits (h hist : Histogram) (sym : Symbol) :
    (h.bump hist sym).1.nobits = if (overflow sym).isSome then
      13 - countLeadingZeros 13 (h.bump hist sym).1.max else h.nobits := by
  have hover : (overflow sym).isSome = true ↔ (0 : Int) ≤ (sym.toNat : Int) - 33 + 1 := by
    unfold overflow NBins
    split <;> simp <;> omega
  simp only [hover]
  rfl

/-- The logical counts after a `bump`. -/
theorem counts_bump (h hist : Histogram) (sym : Symbol) (b : Nat) :
    (h.bump hist sym).1.counts b =
      if b = binOf sym then (h.counts b + 1) % 2 ^ 10 else h.counts b := by
  rw [counts, bump_omask, bump_bins, getLsbD_occupy _ (binOf_lt sym)]
  by_cases heq : b = binOf sym
  · subst heq
    simp
  · simp [heq, counts]

end Histogram

/-- The output histogram gets every field, and the one bin that changed. -/
theorem SameContents.bump {h hist : Histogram} (hs : SameContents h hist) (sym : Symbol) :
    SameContents (h.bump hist sym).1 (h.bump hist sym).2 := by
  refine ⟨rfl, rfl, rfl, rfl, rfl, rfl, rfl, rfl, ?_⟩
  intro b hb
  rw [Histogram.bump_omask, getLsbD_occupy _ (binOf_lt sym)] at hb
  rw [Histogram.bump_bins, Histogram.bump_out_bins]
  by_cases heq : b = binOf sym
  · rw [heq, Function.update_self, Function.update_self]
  · rw [Function.update_of_ne heq, Function.update_of_ne heq]
    exact hs.bins b (by simpa [heq] using hb)

/-- **One bump** counts one more symbol. -/
theorem Represents.bump {h : Histogram} {syms : List Symbol} (hr : Represents h syms)
    (hlen : syms.length < 1023) (hist : Histogram) (sym : Symbol) :
    Represents (h.bump hist sym).1 (syms ++ [sym]) := by
  have hcnt := hr.counts (binOf sym) (binOf_lt sym)
  have hle := multiplicity_le syms (binOf sym)
  have hmod : (multiplicity syms (binOf sym) + 1) % 2 ^ 10 = multiplicity syms (binOf sym) + 1 :=
    Nat.mod_eq_of_lt (by omega)
  have hmax : (h.bump hist sym).1.max = maxOverflow (syms ++ [sym]) := by
    rw [Histogram.bump_max, maxOverflow_snoc, hr.max]
  refine ⟨?_, ?_, ?_, ?_, ?_, hmax, ?_⟩
  · intro b hb
    rw [Histogram.counts_bump, multiplicity_snoc]
    split
    · next heq => rw [heq, hcnt, hmod]
    · rw [hr.counts b hb, Nat.add_zero]
  · rw [Histogram.bump_maxcnt, hcnt, hmod, hr.maxcnt, sup_multiplicity_snoc]
  · rw [Histogram.bump_lastgt0, hcnt, hr.lastgt0, lastReaching_snoc]
  · rw [Histogram.bump_lastgt1, hcnt, hr.lastgt1, lastReaching_snoc]
  · rw [Histogram.bump_lastgt2, hcnt, hr.lastgt2, lastReaching_snoc]
  · rw [Histogram.bump_nobits, hmax, sub_countLeadingZeros (maxOverflow_lt _), hr.nobits,
      maxOverflow_snoc]
    -- without overflow the largest one stays
    cases overflow sym <;> simp

/-! ## A packet -/

theorem represents_clear (h : Histogram) : Represents h.clear [] := by
  have hnone : ∀ k, lastReaching (k + 1) [] = 0 := by
    intro k
    simp [lastReaching, multiplicity]
  refine ⟨?_, ?_, (hnone 0).symm, (hnone 1).symm, (hnone 3).symm, rfl, rfl⟩
  · intro b _
    simp [Histogram.counts, Histogram.clear, multiplicity]
  · exact le_antisymm (Nat.zero_le _) (Finset.sup_le fun b _ => Nat.le_refl 0)

/-- A cleared pair of histograms has the same contents. -/
theorem sameContents_clear (h hist : Histogram) : SameContents h.clear hist.clear := by
  refine ⟨rfl, rfl, rfl, rfl, rfl, rfl, rfl, rfl, ?_⟩
  intro b hb
  simp [Histogram.clear] at hb

/-- **Many bumps** count their symbols, in both histograms. -/
theorem Represents.bumps {h hist : Histogram} {syms : List Symbol} (hr : Represents h syms)
    (hs : SameContents h hist) (more : List Symbol) (hlen : (syms ++ more).length ≤ 1023) :
    Represents (h.bumps hist more).1 (syms ++ more) ∧
      SameContents (h.bumps hist more).1 (h.bumps hist more).2 := by
  induction more generalizing h hist syms with
  | nil =>
      rw [List.append_nil]
      exact ⟨hr, hs⟩
  | cons sym more ih =>
      have hlt : syms.length < 1023 := by
        simp only [List.length_append, List.length_cons] at hlen
        omega
      have hstep := ih (hr.bump hlt hist sym) (hs.bump sym) (by simpa using hlen)
      rw [List.append_assoc] at hstep
      exact hstep

/-! ## The encoded histogram -/

/-- The counts of the bins before `b`. -/
def total (c : Nat → Nat) (b : Nat) : Nat := ((List.range b).map c).sum

theorem total_succ (c : Nat → Nat) (b : Nat) : total c (b + 1) = total c b + c b := by
  simp [total, List.range_succ]

/-- The number of bits of the field of bin `b`. -/
def fieldWidth (c : Nat → Nat) (mbits b : Nat) : Nat := min mbits (Nat.size (1023 - total c b))

/-- The fields of `k` bins from `b` on. -/
def fields (c : Nat → Nat) (mbits : Nat) : Nat → Nat → List Bool
  | 0, _ => []
  | k + 1, b => toBits (fieldWidth c mbits b) (c b) ++ fields c mbits k (b + 1)

theorem total_mono (c : Nat → Nat) {a b : Nat} (h : a ≤ b) : total c a ≤ total c b := by
  induction h with
  | refl => exact Nat.le_refl _
  | step _ ih => rw [total_succ]; exact Nat.le_trans ih (Nat.le_add_right _ _)

/-- A count fits its field. -/
theorem lt_fieldWidth {c : Nat → Nat} {mbits b : Nat} (hc : c b < 2 ^ mbits)
    (htotal : total c (b + 1) ≤ 1023) : c b < 2 ^ fieldWidth c mbits b := by
  rw [total_succ] at htotal
  unfold fieldWidth
  rcases Nat.le_total mbits (Nat.size (1023 - total c b)) with hle | hle
  · rwa [Nat.min_eq_left hle]
  · rw [Nat.min_eq_right hle]
    exact Nat.lt_of_le_of_lt (by omega) (Nat.lt_size_self _)

/-- **The loop of `encode`** writes the pending field and those of the bins to
come, and the cumulative counts. -/
theorem Histogram.encodeLoop_spec {h : Histogram} {mbits : Nat}
    (hc : ∀ b < NBins, h.counts b < 2 ^ mbits)
    (htotal : total h.counts NBins ≤ 1023) (k : Nat) :
    ∀ ibin bits nbits bs os table, ibin + k = NBins → bits < 2 ^ nbits → nbits ≤ 32 →
    bs.idx + nbits + 10 * k < 2 ^ 14 →
    ∃ bs' os' table', h.encodeLoop mbits k ibin (total h.counts ibin) bits nbits bs os table =
        some (bs', os', table') ∧
      bs'.contents os' = bs.contents os ++ toBits nbits bits ++ fields h.counts mbits k ibin ∧
      (∀ j, ibin ≤ j → j ≤ NBins → table' j = total h.counts j) ∧
      ∀ j < ibin, table' j = table j := by
  induction k with
  | zero =>
      intro ibin bits nbits bs os table hk hbits hn hroom
      obtain ⟨bs', os', hins, hcont⟩ := bs.insert_contents os hbits (by omega) (by omega)
        (by omega)
      refine ⟨bs', os', Function.update table ibin (total h.counts ibin), ?_, ?_, ?_, ?_⟩
      · rw [encodeLoop]
        simp [hins]
      · rw [hcont, fields, List.append_nil]
      · intro j hle hge
        obtain rfl : j = ibin := by omega
        rw [Function.update_self]
      · intro j hlt
        rw [Function.update_of_ne (by omega)]
  | succ k ih =>
      intro ibin bits nbits bs os table hk hbits hn hroom
      obtain ⟨bs1, os1, hins, hcont⟩ := bs.insert_contents os hbits (by omega) (by omega)
        (by omega)
      have hidx : bs1.idx = bs.idx + nbits := by
        rw [← bs1.length_contents os1, hcont, List.length_append, bs.length_contents,
          length_toBits]
      have hlt : ibin < NBins := by omega
      have hsucc := total_mono h.counts (show ibin + 1 ≤ NBins by omega)
      have hadd := total_succ h.counts ibin
      have hmod : (total h.counts ibin + h.counts ibin) % 2 ^ 10 = total h.counts (ibin + 1) := by
        rw [hadd]
        exact Nat.mod_eq_of_lt (by omega)
      have hleft : (1024 - 1 - total h.counts ibin) % 2 ^ 10 = 1023 - total h.counts ibin :=
        Nat.mod_eq_of_lt (by omega)
      have hwidth : (if mbits ≤ 10 - countLeadingZeros 10 (1023 - total h.counts ibin) then mbits
          else 10 - countLeadingZeros 10 (1023 - total h.counts ibin)) =
          fieldWidth h.counts mbits ibin := by
        rw [sub_countLeadingZeros (by omega), fieldWidth, Nat.min_def]
      have hw10 : fieldWidth h.counts mbits ibin ≤ 10 :=
        Nat.le_trans (Nat.min_le_right _ _) (Nat.size_le.mpr (by omega))
      obtain ⟨bs', os', table', hrun, hcont', htable, hkeep⟩ :=
        ih (ibin + 1) _ _ bs1 os1 (Function.update table ibin (total h.counts ibin)) (by omega)
          (lt_fieldWidth (hc ibin hlt) (by omega)) (by omega) (by omega)
      refine ⟨bs', os', table', ?_, ?_, ?_, ?_⟩
      · rw [encodeLoop]
        simp only [hins, hleft, Option.bind_eq_bind, Option.bind_some]
        rw [hwidth, ← hrun, ← hmod]
        rfl
      · rw [hcont', hcont, fields, List.append_assoc]
      · intro j hle hge
        rcases Nat.eq_or_lt_of_le hle with rfl | hlt'
        · rw [hkeep ibin (by omega), Function.update_self]
        · exact htable j hlt' hge
      · intro j hlt'
        rw [hkeep j (by omega), Function.update_of_ne (by omega)]

theorem total_congr {c c' : Nat → Nat} {b : Nat} (h : ∀ i < b, c' i = c i) :
    total c' b = total c b := by
  induction b with
  | zero => rfl
  | succ b ih =>
      rw [total_succ, total_succ, h b (Nat.lt_succ_self b),
        ih fun i hi => h i (Nat.lt_succ_of_lt hi)]

theorem total_multiplicity_snoc (syms : List Symbol) (sym : Symbol) (b : Nat) :
    total (multiplicity (syms ++ [sym])) b =
      total (multiplicity syms) b + if binOf sym < b then 1 else 0 := by
  induction b with
  | zero => simp [total]
  | succ b ih =>
      rw [total_succ, total_succ, ih, multiplicity_snoc]
      by_cases heq : b = binOf sym
      · simp [heq]
        omega
      · rw [if_neg heq]
        split <;> split <;> omega

/-- Every symbol is counted in one bin. -/
theorem total_multiplicity (syms : List Symbol) :
    total (multiplicity syms) NBins = syms.length := by
  induction syms using List.reverseRecOn with
  | nil => decide
  | append_singleton syms sym ih =>
      rw [total_multiplicity_snoc, ih, if_pos (binOf_lt sym), List.length_append,
        List.length_singleton]

/-- The fields depend on the counts of their bins. -/
theorem fields_congr {c c' : Nat → Nat} (hc : ∀ i < NBins, c' i = c i) (mbits k : Nat) :
    ∀ {b}, b + k = NBins → fields c' mbits k b = fields c mbits k b := by
  induction k with
  | zero =>
      intro b _
      rfl
  | succ k ih =>
      intro b hb
      have htotal : total c' b = total c b := total_congr fun i hi => hc i (by omega)
      rw [fields, fields, fieldWidth, fieldWidth, htotal, hc b (by omega), ih (by omega)]

/-- The number of bits of the largest count. -/
def countBits (syms : List Symbol) : Nat :=
  Nat.size ((Finset.range NBins).sup (multiplicity syms))

/-- The encoded histogram of the symbols `syms` of a packet that begins with
`first`: format 0, the number of bins, the sizes of the largest count and of
the largest overflow, and the counts. -/
def encodedHistogram (syms : List Symbol) (first : AdcIn) : List Bool :=
  toBits 32 ((NBins - 1) <<< 20 ||| countBits syms <<< 16 ||| first.toNat <<< 4 |||
    Nat.size (maxOverflow syms)) ++ fields (multiplicity syms) (countBits syms) NBins 0

/-- The header is that of `encode`. -/
theorem encodedHistogram_eq {h : Histogram} {syms : List Symbol}
    (hn : h.nobits = Nat.size (maxOverflow syms)) (first : AdcIn) :
    encodedHistogram syms first = toBits 32 (h.header (countBits syms) first) ++
      fields (multiplicity syms) (countBits syms) NBins 0 := by
  rw [encodedHistogram, Histogram.header, toBits_mod (Nat.le_refl 32), hn, Nat.zero_shiftLeft,
    Nat.zero_or]

/-- `encode` writes the header, whatever number of overflow bits it gives, and the counts. -/
theorem Histogram.encode_spec {h : Histogram} {syms : List Symbol}
    (hcnts : ∀ b < NBins, h.counts b = multiplicity syms b)
    (hmax : h.maxcnt = (Finset.range NBins).sup (multiplicity syms)) (hlen : syms.length ≤ 1023)
    (first : AdcIn) (os : OStream) (bs : BitStream64) (table : Nat → Nat)
    (hroom : bs.idx + 352 < 2 ^ 14) :
    ∃ os' bs' table', h.encode os bs table first = some (os', bs', table') ∧
      (∃ os1, os' = bs'.transfer os1) ∧
      bs'.contents os' = bs.contents os ++ (toBits 32 (h.header (countBits syms) first) ++
        fields (multiplicity syms) (countBits syms) NBins 0) ∧
      ∀ j ≤ NBins, table' j = total (multiplicity syms) j := by
  have hsup : (Finset.range NBins).sup (multiplicity syms) ≤ 1023 :=
    Finset.sup_le fun b _ => Nat.le_trans (multiplicity_le syms b) hlen
  have hmbits : 10 - countLeadingZeros 10 h.maxcnt = countBits syms := by
    rw [hmax, sub_countLeadingZeros (by omega), countBits]
  have hcounts : ∀ b < NBins, h.counts b < 2 ^ countBits syms := by
    intro b hb
    rw [hcnts b hb]
    exact Nat.lt_of_le_of_lt (Finset.le_sup (f := multiplicity syms) (Finset.mem_range.mpr hb))
      (Nat.lt_size_self _)
  have htotal : total h.counts NBins ≤ 1023 := by
    rw [total_congr hcnts, total_multiplicity]
    exact hlen
  obtain ⟨bs', os', table', hrun, hcont, htable, -⟩ :=
    Histogram.encodeLoop_spec hcounts htotal NBins 0 (h.header (countBits syms) first) 32 bs os
      table
      (Nat.zero_add _) (Nat.mod_lt _ (by decide)) (Nat.le_refl _) (by simpa [NBins] using hroom)
  refine ⟨bs'.transfer os', bs', table', ?_, ⟨os', rfl⟩, ?_, ?_⟩
  · unfold Histogram.encode
    dsimp only
    have hrun' : h.encodeLoop (countBits syms) NBins 0 0 (h.header (countBits syms) first) 32 bs os
        table = some (bs', os', table') := hrun
    rw [hmbits, hrun']
    rfl
  · show bs'.contents os' = _
    rw [hcont, List.append_assoc, fields_congr hcnts _ _ (Nat.zero_add _)]
  · intro j hj
    rw [htable j (Nat.zero_le j) hj]
    exact total_congr fun i hi => hcnts i (by omega)

/-- **The encoded histogram** is determined by the symbols. -/
theorem Represents.encode {h : Histogram} {syms : List Symbol} (hr : Represents h syms)
    (hlen : syms.length ≤ 1023) (first : AdcIn) (os : OStream) (bs : BitStream64)
    (table : Nat → Nat) (hroom : bs.idx + 352 < 2 ^ 14) :
    ∃ os' bs' table', h.encode os bs table first = some (os', bs', table') ∧
      (∃ os1, os' = bs'.transfer os1) ∧
      bs'.contents os' = bs.contents os ++ encodedHistogram syms first ∧
      ∀ j ≤ NBins, table' j = total (multiplicity syms) j := by
  rw [encodedHistogram_eq hr.nobits]
  exact Histogram.encode_spec hr.counts hr.maxcnt hlen first os bs table hroom

/-- The loop of `encode` reads the counts only. -/
theorem Histogram.encodeLoop_congr {h h' : Histogram} (hc : ∀ b < NBins, h'.counts b = h.counts b)
    (mbits k : Nat) : ∀ {ibin total bits nbits bs os table}, ibin + k = NBins →
    h'.encodeLoop mbits k ibin total bits nbits bs os table =
      h.encodeLoop mbits k ibin total bits nbits bs os table := by
  induction k with
  | zero =>
      intro ibin total bits nbits bs os table _
      rfl
  | succ k ih =>
      intro ibin total bits nbits bs os table hk
      have hbin := hc ibin (by omega)
      unfold Histogram.counts at hbin
      rw [encodeLoop, encodeLoop, hbin]
      congr 1
      funext r
      exact ih (by omega)

/-- `encode` reads the logical contents only. -/
theorem Represents.encode_congr {h h' : Histogram} {syms : List Symbol} (hr : Represents h syms)
    (hr' : Represents h' syms) (os : OStream) (bs : BitStream64) (table : Nat → Nat)
    (first : AdcIn) : h'.encode os bs table first = h.encode os bs table first := by
  have hc : ∀ b < NBins, h'.counts b = h.counts b := fun b hb => by
    rw [hr'.counts b hb, hr.counts b hb]
  unfold Histogram.encode Histogram.header
  rw [hr'.maxcnt, hr.maxcnt, hr'.nobits, hr.nobits]
  dsimp only
  rw [Histogram.encodeLoop_congr hc _ _ (Nat.zero_add _)]

/-- **A packet.** Whatever an earlier packet left in the two histograms, after
`clear` and the `bump`s of a packet both describe its symbols, and they encode
as these determine, without a trace of what was left. -/
theorem histogram_bump_invariant (stale staleOut : Histogram) (syms : List Symbol)
    (hlen : syms.length ≤ 1023) :
    let hs := stale.clear.bumps staleOut.clear syms
    Represents hs.1 syms ∧ Represents hs.2 syms ∧
      (∀ h, h = hs.1 ∨ h = hs.2 → ∀ os bs table first, bs.idx = 0 →
        ∃ os' bs' table', h.encode os bs table first = some (os', bs', table') ∧
          bs'.contents os' = encodedHistogram syms first ∧
          ∀ j ≤ NBins, table' j = total (multiplicity syms) j) ∧
      ∀ (stale' staleOut' : Histogram) os bs table first,
        let hs' := stale'.clear.bumps staleOut'.clear syms
        hs'.1.encode os bs table first = hs.1.encode os bs table first ∧
          hs'.2.encode os bs table first = hs.2.encode os bs table first ∧
          hs.2.encode os bs table first = hs.1.encode os bs table first := by
  have hpacket : ∀ a b : Histogram, Represents (a.clear.bumps b.clear syms).1 syms ∧
      Represents (a.clear.bumps b.clear syms).2 syms := by
    intro a b
    obtain ⟨hr, hs⟩ := (represents_clear a).bumps (sameContents_clear a b) syms hlen
    exact ⟨hr, hs.represents hr⟩
  obtain ⟨h1, h2⟩ := hpacket stale staleOut
  refine ⟨h1, h2, ?_, ?_⟩
  · intro h hh os bs table first hidx
    have hr : Represents h syms := by
      rcases hh with rfl | rfl
      · exact h1
      · exact h2
    obtain ⟨os', bs', table', hrun, -, hcont, htable⟩ := hr.encode hlen first os bs table
      (by omega)
    refine ⟨os', bs', table', hrun, ?_, htable⟩
    have hnil : bs.contents os = [] := by
      rw [← List.length_eq_zero_iff, bs.length_contents, hidx]
    rw [hcont, hnil, List.nil_append]
  · intro stale' staleOut' os bs table first
    obtain ⟨h1', h2'⟩ := hpacket stale' staleOut'
    exact ⟨h1.encode_congr h1' os bs table first, h2.encode_congr h2' os bs table first,
      h1.encode_congr h2 os bs table first⟩

/-- What a packet of equal samples leaves. -/
def leftBehind : Histogram := ⟨2, 1023, 1, 1, 1, 4096, 0, 0, fun _ => 1023⟩

theorem histogram_bump_invariant_two :
    Represents (leftBehind.clear.bumps leftBehind.clear [3, 40]).1 [3, 40] ∧
      Represents (leftBehind.clear.bumps leftBehind.clear [3, 40]).2 [3, 40] :=
  have h := histogram_bump_invariant leftBehind leftBehind [3, 40] (by decide)
  ⟨h.1, h.2.1⟩

end ProtoDune.Firmware
