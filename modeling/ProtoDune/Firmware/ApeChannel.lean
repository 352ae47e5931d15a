import ProtoDune.Firmware.BitStreamRuns
import ProtoDune.Firmware.PendingBits

/-!
# `AP-Encode.h`: a channel

`APE_encode` writes two streams: the histogram with the overflows behind it, and
the code of the symbols. A call of `compose` that is given more than 64 bits fails
its assertion, and a whole word is not inserted at a word boundary.

Main results:

* `ApeLoop.run_spec` — the loop appends the overflows and the code, where the inserts allow it.
* `apeEncode_spec` — what a waveform leaves in the two streams.
* `inserts_writes` — the words of the buffer that a run of inserts changes.
* `channel_fits` — the two buffers have room for every waveform.
-/

namespace ProtoDune.Firmware

open BitString ArithCoder

/-- `APE_etxOut`. -/
structure EtxOut where
  ha : OStream
  ba : OStream

/-- The variables of the loop of `APE_encode`. -/
structure ApeLoop where
  etx : Etx
  prv : AdcIn
  ha : BitStream64
  ba : BitStream64
  out : EtxOut

/-- The insert of what `compose` gives, after its assertion. -/
def insertComposed (ba : BitStream64) (os : OStream) :
    Option (Nat × Nat) → Option (BitStream64 × OStream)
  | none => some (ba, os)
  | some (ebits, nebits) => if nebits ≤ 64 then ba.insert os ebits nebits else none

/-- The insert of an overflow. -/
def insertOverflow (ha : BitStream64) (os : OStream) (idx ovr nobits : Nat) :
    Option (BitStream64 × OStream) :=
  if idx = 0 then ha.insert os ovr nobits else some (ha, os)

/-- One pass of the loop; without overflow `ovr` is not set. -/
def ApeLoop.step (table : Nat → Nat) (nobits : Nat) (s : ApeLoop) (cur : AdcIn) :
    Option ApeLoop := do
  let (idx, ovr) := Histogram.idx (Histogram.symbol cur s.prv) 0
  let (ha, oha) ← insertOverflow s.ha s.out.ha idx ovr nobits
  let (etx, e) := encodeSym table s.etx idx
  let (ba, oba) ← insertComposed s.ba s.out.ba e
  some ⟨etx, cur, ha, ba, ⟨oha, oba⟩⟩

/-- The loop and `APE_finish`. -/
def ApeLoop.run (table : Nat → Nat) (nobits : Nat) : ApeLoop → List AdcIn → Option EtxOut
  | s, [] => do
      let (ba, oba) ← insertComposed s.ba s.out.ba (some (apeFinish s.etx))
      some ⟨s.ha.transfer s.out.ha, ba.transfer oba⟩
  | s, cur :: rest => do
      let s ← s.step table nobits cur
      run table nobits s rest

/-- `APE_encode`; whatever the streams and the table hold before. -/
def Waveform.apeEncode (w : Waveform) (hist : Histogram) (out : EtxOut) (table : Nat → Nat) :
    Option EtxOut := do
  let (oha, ha, table) ← hist.encode out.ha .new table w.first
  ApeLoop.run table hist.nobits ⟨apeStart, w.first, ha, .new, ⟨oha, out.ba⟩⟩ w.rest

/-! ## The inserts -/

/-- An insert that is not undefined behind `pos` bits. -/
def Insertable (pos nbits : Nat) : Prop := nbits ≤ 64 ∧ (nbits = 64 → pos % 64 ≠ 0)

instance (pos nbits : Nat) : Decidable (Insertable pos nbits) :=
  inferInstanceAs (Decidable (_ ∧ _))

/-- All inserts of these sizes, one after the other. -/
def AllInsertable (pos : Nat) : List Nat → Prop
  | [] => True
  | nbits :: sizes => Insertable pos nbits ∧ AllInsertable (pos + nbits) sizes

/-- What a pass gives to the insert fits its bits. -/
theorem encodeSym_lt {T : Nat → Nat} {etx : Etx} {i : Nat} {e : Nat × Nat}
    (he : (encodeSym T etx i).2 = some e) : e.1 < 2 ^ e.2 := by
  unfold encodeSym at he
  dsimp only at he
  generalize hcv : APECv.scale etx.cv (T i) (T (i + 1)) = cv at he
  split at he
  case isTrue hne =>
    obtain rfl := Option.some.inj he
    have hle : nsame cv ≤ 12 := countLeadingZeros_le _ _
    have hlo : cv.lo < 2 ^ 12 := by
      rw [← hcv]
      exact Nat.mod_lt _ (Nat.two_pow_pos 12)
    obtain ⟨m, hm⟩ := Nat.exists_eq_succ_of_ne_zero hne
    have hbits : cv.lo >>> (12 - nsame cv) < 2 ^ (m + 1) := by
      rw [Nat.shiftRight_eq_div_pow]
      refine Nat.div_lt_of_lt_mul ?_
      rw [← Nat.pow_add, ← Nat.succ_eq_add_one, ← hm, Nat.sub_add_cancel hle]
      exact hlo
    dsimp only
    rw [hm] at hbits ⊢
    exact compose_lt hbits etx.tofollow
  case isFalse => cases he

theorem apeFinish_lt (etx : Etx) : (apeFinish etx).1 < 2 ^ (apeFinish etx).2 := by
  have hbit : (etx.cv.lo >>> (cvNBits - 2)) % 2 < 2 ^ (0 + 1) := Nat.mod_lt _ (Nat.zero_lt_succ 1)
  exact compose_lt hbit (etx.tofollow + 1)

/-- An insert of what `compose` gives appends it. -/
theorem insertComposed_spec (ba : BitStream64) (os : OStream) {e : Option (Nat × Nat)}
    (he : ∀ x, e = some x → x.1 < 2 ^ x.2) (hins : Insertable ba.idx (insertion e).length)
    (hroom : (ba.idx + (insertion e).length) / 64 ≤ 256) :
    ∃ ba' os', insertComposed ba os e = some (ba', os') ∧
      ba'.contents os' = ba.contents os ++ insertion e := by
  cases e with
  | none => exact ⟨ba, os, rfl, (List.append_nil _).symm⟩
  | some x =>
    have hlen : (insertion (some x)).length = x.2 := length_toBits x.2 x.1
    rw [hlen] at hins hroom
    obtain ⟨ba', os', hrun, hcontents⟩ := ba.insert_spec os (he x rfl) hins.1 hins.2 hroom
    refine ⟨ba', os', ?_, hcontents⟩
    rw [← hrun]
    exact if_pos hins.1

/-- Elsewhere it is undefined. -/
theorem insertComposed_eq_none (ba : BitStream64) (os : OStream) {e : Option (Nat × Nat)}
    (hins : ¬ Insertable ba.idx (insertion e).length) : insertComposed ba os e = none := by
  cases e with
  | none => exact absurd ⟨Nat.zero_le 64, nofun⟩ hins
  | some x =>
    have hlen : (insertion (some x)).length = x.2 := length_toBits x.2 x.1
    rw [hlen] at hins
    show (if x.2 ≤ 64 then ba.insert os x.1 x.2 else none) = none
    split
    case isTrue hle =>
      rw [Insertable, not_and, Classical.not_imp, not_not] at hins
      exact (BitStream64.insert_eq_none ba os hle).mpr (.inl (hins hle))
    case isFalse => rfl

/-! ## The loop -/

/-- The overflows of some symbols, of `nobits` bits each. -/
def overflowBits (nobits : Nat) (syms : List Symbol) : List Bool :=
  (syms.filterMap overflow).flatMap (toBits nobits)

theorem overflowBits_append (nobits : Nat) (xs ys : List Symbol) :
    overflowBits nobits (xs ++ ys) = overflowBits nobits xs ++ overflowBits nobits ys := by
  rw [overflowBits, List.filterMap_append, List.flatMap_append]
  rfl

/-- The index of a symbol, and by how much it overflows. -/
theorem idx_eq (sym : Symbol) : Histogram.idx sym 0 = (binOf sym, (overflow sym).getD 0) := by
  unfold binOf overflow Histogram.idx
  dsimp only
  by_cases h : NBins ≤ sym.toNat
  · rw [if_pos (by omega), if_pos h]
    exact congrArg _ (by show _ = sym.toNat - NBins; omega)
  · rw [if_neg (by omega), if_neg h]
    rfl

/-- The difference that a symbol keeps, modulo 4096. -/
def difference (cur prv : AdcIn) : Nat := (prv.toNat + 4096 - cur.toNat) % 4096

/-- The symbol is odd for the differences up to 2047, and even for the negative ones. -/
theorem toNat_symbol (cur prv : AdcIn) : (Histogram.symbol cur prv).toNat =
    if difference cur prv < 2048 then 2 * difference cur prv + 1
    else 2 * (4096 - difference cur prv) := by
  have hcur := cur.isLt
  have hprv := prv.isLt
  have hmod : difference cur prv < 4096 := Nat.mod_lt _ (Nat.zero_lt_succ 4095)
  have hdiff : ((prv.setWidth 13 - cur.setWidth 13) <<< 1 ||| 1#13).toNat =
      2 * difference cur prv + 1 := by
    have hor :=
      Nat.two_pow_add_eq_or_of_lt (Nat.one_lt_two_pow Nat.one_ne_zero) (difference cur prv)
    rw [Nat.pow_one] at hor
    rw [hor, BitVec.toNat_or, BitVec.toNat_shiftLeft, BitVec.toNat_sub, BitVec.toNat_setWidth,
      BitVec.toNat_setWidth, Nat.shiftLeft_eq, difference]
    congr 1
    omega
  have hint : ((prv.setWidth 13 - cur.setWidth 13) <<< 1 ||| 1#13).toInt =
      if difference cur prv < 2048 then (2 * difference cur prv + 1 : Int)
      else 2 * difference cur prv + 1 - 8192 := by
    rw [BitVec.toInt_eq_toNat_cond, hdiff]
    split <;> split <;> omega
  unfold Histogram.symbol
  dsimp only
  rw [hint]
  by_cases h : difference cur prv < 2048
  · have hpos : ¬ (2 * difference cur prv + 1 : Int) < 0 := by omega
    rw [if_pos h, if_pos h, if_neg hpos, BitVec.toNat_ofInt]
    omega
  · have hneg : (2 * difference cur prv + 1 - 8192 : Int) < 0 := by omega
    rw [if_neg h, if_neg h, if_pos hneg, BitVec.toNat_ofInt]
    omega

/-- Bin 0 is that of the overflows. -/
theorem binOf_symbol_eq_zero (cur prv : AdcIn) :
    binOf (Histogram.symbol cur prv) = 0 ↔ (overflow (Histogram.symbol cur prv)).isSome := by
  have hpos : 0 < (Histogram.symbol cur prv).toNat := by
    rw [toNat_symbol]
    have hmod : difference cur prv < 4096 := Nat.mod_lt _ (Nat.zero_lt_succ 4095)
    split <;> omega
  generalize Histogram.symbol cur prv = sym at hpos
  unfold binOf overflow Histogram.idx NBins
  dsimp only
  split <;> split <;> simp <;> omega

theorem insertion_length (e : Option (Nat × Nat)) :
    (insertion e).length = (e.map Prod.snd).getD 0 := by
  cases e with
  | none => rfl
  | some x => exact length_toBits x.2 x.1

/-- The sizes of a pass and of those to come. -/
theorem allInsertable_append (pos : Nat) (e : Option (Nat × Nat)) (sizes : List Nat) :
    AllInsertable pos ((e.map Prod.snd).toList ++ sizes) ↔
      Insertable pos (insertion e).length ∧ AllInsertable (pos + (insertion e).length) sizes := by
  rw [insertion_length]
  cases e with
  | none => exact ⟨fun h => ⟨⟨Nat.zero_le 64, nofun⟩, h⟩, fun h => h.2⟩
  | some x => exact Iff.rfl

theorem sum_append_sizes (e : Option (Nat × Nat)) (sizes : List Nat) :
    ((e.map Prod.snd).toList ++ sizes).sum = (insertion e).length + sizes.sum := by
  rw [insertion_length, List.sum_append]
  cases e <;> rfl

/-- A pass depends on two entries of the table. -/
theorem encodeSym_congr {T table : Nat → Nat} {i : Nat} (hi : table i = T i)
    (hi' : table (i + 1) = T (i + 1)) (etx : Etx) : encodeSym table etx i = encodeSym T etx i := by
  unfold encodeSym
  rw [hi, hi']

/-- The code depends on the entries of its symbols. -/
theorem apeEncode_congr {T table : Nat → Nat} {is : List Nat}
    (h : ∀ i ∈ is, table i = T i ∧ table (i + 1) = T (i + 1)) :
    apeEncode table is = apeEncode T is := by
  have hsyms (etx : Etx) : encodeSyms table etx is = encodeSyms T etx is := by
    induction is generalizing etx with
    | nil => rfl
    | cons i is ih =>
      obtain ⟨hi, hi'⟩ := h i List.mem_cons_self
      rw [encodeSyms, encodeSyms, encodeSym_congr hi hi' etx]
      dsimp only
      rw [ih fun j hj => h j (List.mem_cons_of_mem i hj)]
  unfold apeEncode
  rw [hsyms]

/-- An overflow is appended to its stream. -/
theorem insertOverflow_spec (ha : BitStream64) (os : OStream) {nobits : Nat} {cur prv : AdcIn}
    (hovr : (overflow (Histogram.symbol cur prv)).getD 0 < 2 ^ nobits) (hn : nobits ≤ 13)
    (hroom : ha.idx + nobits < 2 ^ 14) :
    ∃ ha' os', insertOverflow ha os (binOf (Histogram.symbol cur prv))
        ((overflow (Histogram.symbol cur prv)).getD 0) nobits = some (ha', os') ∧
      ha'.contents os' = ha.contents os ++ overflowBits nobits [Histogram.symbol cur prv] ∧
      ha'.idx ≤ ha.idx + nobits := by
  have hzero := binOf_symbol_eq_zero cur prv
  unfold insertOverflow overflowBits
  rw [List.filterMap_cons, List.filterMap_nil]
  cases hov : overflow (Histogram.symbol cur prv) with
  | none =>
    rw [hov] at hzero
    rw [if_neg (by rw [hzero]; exact Bool.false_ne_true)]
    exact ⟨ha, os, rfl, (List.append_nil _).symm, Nat.le_add_right _ _⟩
  | some ovr =>
    rw [hov] at hzero hovr
    obtain ⟨ha', os', hrun, hcontents⟩ := ha.insert_spec os hovr (by omega) (by omega) (by omega)
    have hidx : ha'.idx = ha.idx + nobits := by
      rw [← ha'.length_contents os', hcontents, List.length_append, ha.length_contents,
        length_toBits]
    rw [if_pos (hzero.mpr rfl)]
    refine ⟨ha', os', hrun, ?_, hidx.le⟩
    rw [hcontents, List.flatMap_cons, List.flatMap_nil, List.append_nil]
    rfl

namespace ApeLoop

variable {T table : Nat → Nat} {nobits : Nat}

/-- **The loop** appends the overflows to the one stream and the code to the other. -/
theorem run_spec (htable : ∀ j ≤ NBins, table j = T j) (hn : nobits ≤ 13) {rest : List AdcIn}
    (s : ApeLoop)
    (hovr : ∀ sym ∈ symbolsFrom s.prv rest, (overflow sym).getD 0 < 2 ^ nobits)
    (hroomH : s.ha.idx + nobits * rest.length < 2 ^ 14)
    (hroomB : s.ba.idx + (composeSizes T s.etx ((symbolsFrom s.prv rest).map binOf)).sum < 2 ^ 14)
    (hins : AllInsertable s.ba.idx (composeSizes T s.etx ((symbolsFrom s.prv rest).map binOf))) :
    ∃ out, s.run table nobits rest = some out ∧
      Ending.transfer.bits out.ha =
        s.ha.contents s.out.ha ++ overflowBits nobits (symbolsFrom s.prv rest) ∧
      Ending.transfer.bits out.ba = s.ba.contents s.out.ba ++
        ((encodeSyms T s.etx ((symbolsFrom s.prv rest).map binOf)).2 ++
          insertion
            (some (apeFinish (encodeSyms T s.etx ((symbolsFrom s.prv rest).map binOf)).1))) := by
  induction rest generalizing s with
  | nil =>
    have hlen : (insertion (some (apeFinish s.etx))).length = (apeFinish s.etx).2 :=
      length_toBits _ _
    change s.ba.idx + ((apeFinish s.etx).2 + 0) < 2 ^ 14 at hroomB
    obtain ⟨ba, oba, hrun, hcontents⟩ := insertComposed_spec s.ba s.out.ba
      (fun x hx => by rw [← Option.some.inj hx]; exact apeFinish_lt s.etx)
      (by rw [hlen]; exact hins.1) (by rw [hlen]; omega)
    refine ⟨⟨s.ha.transfer s.out.ha, ba.transfer oba⟩, ?_, ?_, hcontents⟩
    · rw [run, hrun]
      rfl
    · exact (List.append_nil _).symm
  | cons cur rest ih =>
    have hi : binOf (Histogram.symbol cur s.prv) < NBins := binOf_lt _
    have hsym := encodeSym_congr (htable _ (Nat.le_of_lt hi)) (htable _ hi) s.etx
    rw [symbolsFrom, List.map_cons, composeSizes] at hroomB hins
    rw [symbolsFrom] at hovr
    dsimp only at hroomB hins
    rw [sum_append_sizes] at hroomB
    rw [allInsertable_append] at hins
    rw [List.length_cons, Nat.mul_succ] at hroomH
    obtain ⟨ha, oha, hha, hhaContents, hhaIdx⟩ := insertOverflow_spec s.ha s.out.ha
      (hovr _ List.mem_cons_self) hn (by omega)
    obtain ⟨ba, oba, hba, hbaContents⟩ := insertComposed_spec s.ba s.out.ba
      (fun x hx => encodeSym_lt hx) hins.1 (by omega)
    have hbaIdx : ba.idx = s.ba.idx +
        (insertion (encodeSym T s.etx (binOf (Histogram.symbol cur s.prv))).2).length := by
      rw [← ba.length_contents oba, hbaContents, List.length_append, s.ba.length_contents]
    have hstep : s.step table nobits cur =
        some ⟨(encodeSym T s.etx (binOf (Histogram.symbol cur s.prv))).1, cur, ha, ba,
          ⟨oha, oba⟩⟩ := by
      unfold step
      rw [idx_eq]
      dsimp only
      rw [hha, hsym, Option.bind_eq_bind, Option.bind_some]
      dsimp only
      rw [hba]
      rfl
    obtain ⟨out, hrun, hhaBits, hbaBits⟩ := ih
      ⟨(encodeSym T s.etx (binOf (Histogram.symbol cur s.prv))).1, cur, ha, ba, ⟨oha, oba⟩⟩
      (fun sym hsym => hovr sym (List.mem_cons_of_mem _ hsym)) (by dsimp only; omega)
      (by dsimp only; rw [hbaIdx]; omega) (by rw [← hbaIdx] at hins; exact hins.2)
    refine ⟨out, ?_, ?_, ?_⟩
    · rw [run, hstep]
      exact hrun
    · rw [hhaBits]
      dsimp only
      rw [hhaContents, List.append_assoc, symbolsFrom, ← overflowBits_append]
      rfl
    · rw [hbaBits]
      dsimp only
      rw [hbaContents, symbolsFrom, List.map_cons, encodeSyms]
      dsimp only
      simp only [List.append_assoc]

/-- Where an insert is not allowed, the whole is undefined. -/
theorem run_eq_none (htable : ∀ j ≤ NBins, table j = T j) {rest : List AdcIn} (s : ApeLoop)
    (hroomB : s.ba.idx + (composeSizes T s.etx ((symbolsFrom s.prv rest).map binOf)).sum < 2 ^ 14)
    (hins : ¬ AllInsertable s.ba.idx (composeSizes T s.etx ((symbolsFrom s.prv rest).map binOf))) :
    s.run table nobits rest = none := by
  induction rest generalizing s with
  | nil =>
    have hlen : (insertion (some (apeFinish s.etx))).length = (apeFinish s.etx).2 :=
      length_toBits _ _
    have hlast : ¬ Insertable s.ba.idx (insertion (some (apeFinish s.etx))).length := by
      rw [hlen]
      exact fun h => hins ⟨h, trivial⟩
    rw [run, insertComposed_eq_none s.ba s.out.ba hlast]
    rfl
  | cons cur rest ih =>
    have hi : binOf (Histogram.symbol cur s.prv) < NBins := binOf_lt _
    have hsym := encodeSym_congr (htable _ (Nat.le_of_lt hi)) (htable _ hi) s.etx
    rw [symbolsFrom, List.map_cons, composeSizes] at hroomB hins
    dsimp only at hroomB hins
    rw [sum_append_sizes] at hroomB
    rw [allInsertable_append, not_and] at hins
    unfold run step
    rw [idx_eq]
    dsimp only
    cases insertOverflow s.ha s.out.ha (binOf (Histogram.symbol cur s.prv))
        ((overflow (Histogram.symbol cur s.prv)).getD 0) nobits with
    | none => rfl
    | some r =>
      simp only [Option.bind_eq_bind, Option.bind_some]
      rw [hsym]
      by_cases hnow : Insertable s.ba.idx
          (insertion (encodeSym T s.etx (binOf (Histogram.symbol cur s.prv))).2).length
      · obtain ⟨ba, oba, hba, hbaContents⟩ := insertComposed_spec s.ba s.out.ba
          (fun x hx => encodeSym_lt hx) hnow (by omega)
        have hbaIdx : ba.idx = s.ba.idx +
            (insertion (encodeSym T s.etx (binOf (Histogram.symbol cur s.prv))).2).length := by
          rw [← ba.length_contents oba, hbaContents, List.length_append, s.ba.length_contents]
        rw [hba]
        refine ih ⟨(encodeSym T s.etx (binOf (Histogram.symbol cur s.prv))).1, cur, r.1, ba,
          ⟨r.2, oba⟩⟩ (by dsimp only; rw [hbaIdx]; omega) ?_
        have hlater := hins hnow
        rwa [← hbaIdx] at hlater
      · rw [insertComposed_eq_none s.ba s.out.ba hnow]
        rfl

end ApeLoop

/-! ## A waveform -/

/-- The inserts into the code stream: each expansion gives a bit, and the end two. -/
theorem sum_composeSizes_le {T : Nat → Nat} {n : Nat} (hT : Cumulative T n) {is : List Nat}
    (his : ∀ i ∈ is, Occupied T n i) {etx : Etx} {bits : List Bool} {c : CodeEnds}
    (hcv : etx.cv.Normal quarter) (h : ArithCoder.Tracks quarter ⟨bits, etx.tofollow⟩ etx.cv c) :
    bits.length + (composeSizes T etx is).sum ≤ c.doublings + 12 * is.length + 2 := by
  induction is generalizing etx bits c with
  | nil =>
    have hdoublings : c.doublings = bits.length + etx.tofollow := h.doublings
    show bits.length + (1 + (etx.tofollow + 1) + 0) ≤ c.doublings + 0 + 2
    omega
  | cons i is ih =>
    have hi := his i List.mem_cons_self
    obtain ⟨hcv', h'⟩ := encodeSym_tracks hT hcv hi h
    have hrest := ih (fun j hj => his j (List.mem_cons_of_mem i hj)) hcv' h'
    have hstep : (c.step normNBits T i).doublings ≤ c.doublings + 12 :=
      CodeEnds.step_doublings_le normNBits T c i
    rw [List.length_append] at hrest
    rw [composeSizes]
    dsimp only
    rw [sum_append_sizes, List.length_cons]
    omega

/-- The inserts are allowed where what is settled can be inserted. -/
theorem allInsertable_iff {T : Nat → Nat} {n : Nat} (hT : Cumulative T n) {is : List Nat}
    (his : ∀ i ∈ is, Occupied T n i) {etx : Etx} {bits : List Bool} {c : CodeEnds}
    (hcv : etx.cv.Normal quarter) (h : ArithCoder.Tracks quarter ⟨bits, etx.tofollow⟩ etx.cv c) :
    AllInsertable bits.length (composeSizes T etx is) ↔
      CodeEnds.SettlesWith normNBits T Insertable c is := by
  have hsettled : c.settled normNBits = bits.length := h.settled_eq hcv
  induction is generalizing etx bits c with
  | nil =>
    have hdoublings : c.doublings = bits.length + etx.tofollow := h.doublings
    have hlast : c.doublings + 2 - c.settled normNBits = 1 + (etx.tofollow + 1) := by omega
    rw [CodeEnds.SettlesWith, hlast, hsettled]
    exact and_iff_left trivial
  | cons i is ih =>
    have hi := his i List.mem_cons_self
    obtain ⟨hcv', h'⟩ := encodeSym_tracks hT hcv hi h
    have hrest := ih (fun j hj => his j (List.mem_cons_of_mem i hj)) hcv' h' (h'.settled_eq hcv')
    have hstep := settled_step hT hcv hi h
    rw [← insertion_length] at hstep
    rw [List.length_append] at hrest
    rw [composeSizes, CodeEnds.SettlesWith, hstep, Nat.add_sub_cancel_left, hsettled]
    exact (allInsertable_append _ _ _).trans (and_congr_right fun _ => hrest)

theorem le_maxOverflow {syms : List Symbol} {sym : Symbol} (h : sym ∈ syms) :
    (overflow sym).getD 0 ≤ maxOverflow syms := by
  induction syms with
  | nil => cases h
  | cons x syms ih =>
    unfold maxOverflow at ih ⊢
    rw [List.filterMap_cons]
    rcases List.mem_cons.mp h with rfl | hmem
    · cases overflow sym with
      | none => exact Nat.zero_le _
      | some ovr => exact Nat.le_max_left _ _
    · cases overflow x with
      | none => exact ih hmem
      | some ovr => exact Nat.le_trans (ih hmem) (Nat.le_max_right _ _)

namespace Waveform

/-- The sizes of the inserts into the code stream. -/
def baSizes (w : Waveform) : List Nat := Firmware.composeSizes w.table apeStart w.idxs

/-- The number of bits of an overflow. -/
def nobits (w : Waveform) : Nat := Nat.size (maxOverflow w.symbols)

theorem nobits_le (w : Waveform) : w.nobits ≤ 13 := Nat.size_le.mpr (maxOverflow_lt _)

theorem sum_baSizes_le (w : Waveform) : w.baSizes.sum ≤ 12 * 1023 + 2 := by
  have hle := sum_composeSizes_le (cumulative_total w.length_symbols.le) w.occupied apeStart_normal
    (.start normNBits)
  have hlen : w.idxs.length = 1023 := by rw [idxs, List.length_map, w.length_symbols]
  rw [hlen] at hle
  exact le_trans (Nat.le_add_left _ 0) hle

/-- The histogram takes at most 32 bits and 10 a bin. -/
theorem length_encodedHistogram_le (w : Waveform) :
    (encodedHistogram w.symbols w.first).length ≤ 352 := by
  have hfields (c : Nat → Nat) (mbits k : Nat) : ∀ b, (fields c mbits k b).length ≤ 10 * k := by
    induction k with
    | zero => exact fun b => Nat.le_refl 0
    | succ k ih =>
      intro b
      have hwidth : fieldWidth c mbits b ≤ 10 :=
        Nat.le_trans (Nat.min_le_right _ _) (Nat.size_le.mpr (by omega))
      have hrest := ih (b + 1)
      rw [fields, List.length_append, length_toBits]
      omega
  have hlen := hfields (multiplicity w.symbols) (countBits w.symbols) NBins 0
  rw [encodedHistogram, List.length_append, length_toBits]
  change _ ≤ 10 * 32 at hlen
  omega

theorem represents_histogram (w : Waveform) (stale staleOut : Histogram) :
    Represents (w.histogram stale staleOut) w.symbols := by
  obtain ⟨hr, hs⟩ := (represents_clear stale).bumps (sameContents_clear stale staleOut) w.symbols
    w.length_symbols.le
  exact hs.represents hr

/-- What `APE_encode` starts its loop with. -/
theorem exists_encode (w : Waveform) (stale staleOut : Histogram) (os : OStream)
    (table : Nat → Nat) :
    ∃ oha ha table', (w.histogram stale staleOut).encode os .new table w.first =
        some (oha, ha, table') ∧
      ha.contents oha = encodedHistogram w.symbols w.first ∧ ha.idx ≤ 352 ∧
      (w.histogram stale staleOut).nobits = w.nobits ∧ ∀ j ≤ NBins, table' j = w.table j := by
  have hlen : w.symbols.length ≤ 1023 := w.length_symbols.le
  have hout := w.represents_histogram stale staleOut
  obtain ⟨oha, ha, table', hencode, -, hcontents, htable⟩ :=
    hout.encode hlen w.first os .new table (by decide)
  have hnil : BitStream64.new.contents os = [] := rfl
  rw [hnil, List.nil_append] at hcontents
  refine ⟨oha, ha, table', hencode, hcontents, ?_, hout.nobits, htable⟩
  rw [← ha.length_contents oha, hcontents]
  exact w.length_encodedHistogram_le

/-- **A waveform** leaves its histogram, its overflows and its code, where the inserts allow it. -/
theorem apeEncode_spec (w : Waveform) (stale staleOut : Histogram) (out : EtxOut)
    (table : Nat → Nat) (hins : AllInsertable 0 w.baSizes) :
    ∃ out', w.apeEncode (w.histogram stale staleOut) out table = some out' ∧
      Ending.transfer.bits out'.ha =
        encodedHistogram w.symbols w.first ++ overflowBits w.nobits w.symbols ∧
      Ending.transfer.bits out'.ba = Firmware.apeEncode w.table w.idxs := by
  obtain ⟨oha, ha, table', hencode, hcontents, hidx, hnobits, htable⟩ :=
    w.exists_encode stale staleOut out.ha table
  have hn := w.nobits_le
  have hsum := w.sum_baSizes_le
  have hovr : ∀ sym ∈ symbolsFrom w.first w.rest, (overflow sym).getD 0 < 2 ^ w.nobits :=
    fun sym hsym => Nat.lt_of_le_of_lt (le_maxOverflow hsym) (Nat.lt_size_self _)
  obtain ⟨out', hrun, hha, hba⟩ := ApeLoop.run_spec htable hn
    ⟨apeStart, w.first, ha, .new, ⟨oha, out.ba⟩⟩ hovr
    (by rw [w.length_rest]; dsimp only; omega)
    (by change 0 + w.baSizes.sum < 2 ^ 14; omega) hins
  refine ⟨out', ?_, ?_, ?_⟩
  · rw [apeEncode, hencode, hnobits]
    exact hrun
  · rw [hha, ← hcontents]
    rfl
  · rw [hba]
    unfold Firmware.apeEncode
    dsimp only
    exact List.nil_append _

/-- Elsewhere `APE_encode` is undefined. -/
theorem apeEncode_eq_none (w : Waveform) (stale staleOut : Histogram) (out : EtxOut)
    (table : Nat → Nat) (hins : ¬ AllInsertable 0 w.baSizes) :
    w.apeEncode (w.histogram stale staleOut) out table = none := by
  obtain ⟨oha, ha, table', hencode, -, -, -, htable⟩ :=
    w.exists_encode stale staleOut out.ha table
  have hsum := w.sum_baSizes_le
  rw [apeEncode, hencode]
  exact ApeLoop.run_eq_none htable ⟨apeStart, w.first, ha, .new, ⟨oha, out.ba⟩⟩
    (by change 0 + w.baSizes.sum < 2 ^ 14; omega) hins

/-- What each symbol settles of the code can be inserted behind what is settled before. -/
def Streamable (w : Waveform) : Prop :=
  CodeEnds.SettlesWith normNBits w.table Insertable (.start normNBits) w.idxs

theorem streamable_iff (w : Waveform) : AllInsertable 0 w.baSizes ↔ w.Streamable :=
  allInsertable_iff (cumulative_total w.length_symbols.le) w.occupied apeStart_normal
    (.start normNBits)

/-- The sizes of the inserts into the stream of the histogram: its header and bins, and the
overflows. -/
def haSizes (w : Waveform) : List Nat :=
  32 :: (List.range NBins).map (fieldWidth (multiplicity w.symbols) (countBits w.symbols)) ++
    (w.symbols.filterMap overflow).map fun _ => w.nobits

end Waveform

/-! ## Waveforms of one bin -/

theorem allInsertable_of_small {sizes : List Nat} (h : ∀ n ∈ sizes, n < 64) (pos : Nat) :
    AllInsertable pos sizes := by
  induction sizes generalizing pos with
  | nil => trivial
  | cons n sizes ih =>
    have hn := h n List.mem_cons_self
    exact ⟨⟨Nat.le_of_lt hn, fun h64 => by omega⟩,
      ih (fun m hm => h m (List.mem_cons_of_mem n hm)) _⟩

/-- With the lower limit at 0 nothing becomes pending. -/
theorem mpending_of_lo {cv : Interval} (h : cv.lo = 0) : mpending cv = 0 := by
  have hsame : nreduce cv = nsame cv := by
    refine countLeadingZeros_congr fun i hi => ?_
    cases i with
    | zero => rw [testBit_pending_zero]
    | succ i =>
      rw [testBit_pending_succ cv hi, h, Nat.zero_testBit]
      simp
  have hle : nsame cv ≤ 12 := countLeadingZeros_le _ _
  rw [mpending, hsame]
  omega

/-- The symbols of the first occupied bin leave the lower limit at 0. -/
theorem encodeSym_of_lo {T : Nat → Nat} {etx : Etx} {i : Nat} (hT : T i = 0) (hlo : etx.cv.lo = 0)
    (hfollow : etx.tofollow = 0) :
    (encodeSym T etx i).1.cv.lo = 0 ∧ (encodeSym T etx i).1.tofollow = 0 ∧
      ∀ e, (encodeSym T etx i).2 = some e → e.2 < 64 := by
  have hscale : (APECv.scale etx.cv (T i) (T (i + 1))).lo = 0 := by
    show APECv.scaleLo etx.cv.lo _ (T i) = 0
    rw [APECv.scaleLo, hlo, hT, Nat.mul_zero, Nat.zero_shiftLeft]
    rfl
  have hreduce : (reduce (APECv.scale etx.cv (T i) (T (i + 1)))).lo = 0 := by
    show APECv.reduceLo _ _ = 0
    rw [APECv.reduceLo_eq, hscale, Nat.zero_mul]
    rfl
  have hpending := mpending_of_lo hscale
  have hle : nsame (APECv.scale etx.cv (T i) (T (i + 1))) ≤ 12 := countLeadingZeros_le _ _
  unfold encodeSym
  dsimp only
  rw [hpending, hfollow]
  split
  · refine ⟨hreduce, rfl, fun e he => ?_⟩
    rw [← Option.some.inj he]
    show nsame _ + 0 < 64
    omega
  · exact ⟨hreduce, rfl, nofun⟩

/-- A waveform with all symbols in one bin has a code that can be inserted. -/
theorem Waveform.allInsertable_of_one (w : Waveform) {b : Nat} (h : ∀ i ∈ w.idxs, i = b) :
    AllInsertable 0 w.baSizes := by
  have hnone : ∀ j ≤ b, w.table j = 0 := by
    intro j hj
    induction j with
    | zero => rfl
    | succ j ih =>
      have hcount : multiplicity w.symbols j = 0 :=
        List.count_eq_zero.mpr fun hmem => absurd (h j hmem) (by omega)
      rw [Waveform.table, total_succ, hcount, Nat.add_zero]
      exact ih (by omega)
  refine allInsertable_of_small ?_ 0
  have hsizes (is : List Nat) (his : ∀ i ∈ is, i = b) : ∀ etx : Etx, etx.cv.lo = 0 →
      etx.tofollow = 0 → ∀ n ∈ Firmware.composeSizes w.table etx is, n < 64 := by
    induction is with
    | nil =>
      intro etx _ hfollow n hn
      rw [List.mem_singleton.mp hn]
      show 1 + (etx.tofollow + 1) < 64
      omega
    | cons i is ih =>
      intro etx hlo hfollow n hn
      obtain rfl := his i List.mem_cons_self
      obtain ⟨hlo', hfollow', hsize⟩ := encodeSym_of_lo (hnone i (Nat.le_refl i)) hlo hfollow
      rw [Firmware.composeSizes, List.mem_append] at hn
      rcases hn with hnow | hlater
      · rw [Option.mem_toList, Option.map_eq_some_iff] at hnow
        obtain ⟨e, he, rfl⟩ := hnow
        exact hsize e he
      · exact ih (fun j hj => his j (List.mem_cons_of_mem _ hj)) _ hlo' hfollow' n hlater
  exact hsizes w.idxs h apeStart rfl rfl

/-- `n` samples behind `prv`, each by `d` above the one before. -/
def rampFrom (d : AdcIn) : Nat → AdcIn → List AdcIn
  | 0, _ => []
  | n + 1, prv => (prv + d) :: rampFrom d n (prv + d)

theorem length_rampFrom (d : AdcIn) (n : Nat) (prv : AdcIn) : (rampFrom d n prv).length = n := by
  induction n generalizing prv with
  | zero => rfl
  | succ n ih => rw [rampFrom, List.length_cons, ih]

/-- The waveform that rises by `d` from sample to sample, modulo 4096. -/
def Waveform.ramp (d : AdcIn) : Waveform := ⟨0, rampFrom d 1023 0, length_rampFrom d 1023 0⟩

theorem symbol_add (prv d : AdcIn) : Histogram.symbol (prv + d) prv = Histogram.symbol d 0 := by
  refine BitVec.eq_of_toNat_eq ?_
  have hdiff : difference (prv + d) prv = difference d 0 := by
    have hprv := prv.isLt
    have hd := d.isLt
    have hzero : (0 : AdcIn).toNat = 0 := rfl
    unfold difference
    rw [BitVec.toNat_add, hzero]
    omega
  rw [toNat_symbol, toNat_symbol, hdiff]

theorem Waveform.symbols_ramp (d : AdcIn) :
    (Waveform.ramp d).symbols = List.replicate 1023 (Histogram.symbol d 0) := by
  have hfrom (n : Nat) (prv : AdcIn) :
      symbolsFrom prv (rampFrom d n prv) = List.replicate n (Histogram.symbol d 0) := by
    induction n generalizing prv with
    | zero => rfl
    | succ n ih => rw [rampFrom, symbolsFrom, symbol_add, ih, List.replicate_succ]
  exact hfrom 1023 0

/-- A ramp is encoded. -/
theorem Waveform.allInsertable_ramp (d : AdcIn) : AllInsertable 0 (Waveform.ramp d).baSizes := by
  refine Waveform.allInsertable_of_one _ (b := binOf (Histogram.symbol d 0)) fun i hi => ?_
  obtain ⟨sym, hsym, rfl⟩ := List.mem_map.mp hi
  rw [symbols_ramp] at hsym
  rw [List.eq_of_mem_replicate hsym]

/-! ## The room in the buffers -/

/-- The words that inserts of these sizes write, behind `pos` bits. -/
def wordWrites (pos : Nat) : List Nat → List Nat
  | [] => []
  | nbits :: sizes =>
      (if 64 ≤ pos % 64 + nbits then [pos / 64] else []) ++ wordWrites (pos + nbits) sizes

/-- An insert writes the word of its position, if it fills it, and no other. -/
theorem BitStream64.insert_writes {bs bs' : BitStream64} {os os' : OStream} {bits nbits : Nat}
    (h : bs.insert os bits nbits = some (bs', os')) :
    bs'.idx = (bs.idx + nbits) % 2 ^ 32 ∧
      ∀ i, os'.buf i ≠ os.buf i → i ∈ wordWrites bs.idx [nbits] := by
  unfold insert at h
  dsimp only at h
  obtain ⟨cur, -, hrest⟩ := Option.bind_eq_some_iff.mp h
  split at hrest
  case isTrue hfull =>
    obtain ⟨os₁, hwrite, hsome⟩ := Option.bind_eq_some_iff.mp hrest
    obtain ⟨rfl, rfl⟩ := Prod.mk.inj (Option.some.inj hsome)
    refine ⟨rfl, fun i hi => ?_⟩
    unfold OStream.write at hwrite
    split at hwrite
    case isTrue =>
      obtain rfl := Option.some.inj hwrite
      have hword : i = bs.widx := by
        by_contra hne
        exact hi (Function.update_of_ne hne _ _)
      have hcount : 64 ≤ bs.idx % 64 + nbits := by
        unfold bidx at hfull
        omega
      rw [wordWrites, if_pos hcount]
      exact List.mem_append_left _ (List.mem_singleton.mpr hword)
    case isFalse => cases hwrite
  case isFalse =>
    obtain ⟨rfl, rfl⟩ := Prod.mk.inj (Option.some.inj hrest)
    exact ⟨rfl, fun i hi => absurd rfl hi⟩

/-- A run of inserts changes no other word of the buffer. -/
theorem BitStream64.inserts_writes {bs bs' : BitStream64} {os os' : OStream} {fields : List Field}
    (h : bs.inserts os fields = some (bs', os')) (hlen : bs.idx + bitCount fields < 2 ^ 32) :
    ∀ i, os'.buf i ≠ os.buf i → i ∈ wordWrites bs.idx (fields.map Field.nbits) := by
  induction fields generalizing bs os with
  | nil =>
    obtain ⟨rfl, rfl⟩ := Prod.mk.inj (Option.some.inj h)
    exact fun i hi => absurd rfl hi
  | cons f fields ih =>
    have hcount : bitCount (f :: fields) = f.nbits + bitCount fields := rfl
    obtain ⟨⟨bs₁, os₁⟩, hinsert, hrest⟩ := Option.bind_eq_some_iff.mp h
    obtain ⟨hidx, hword⟩ := insert_writes hinsert
    rw [Nat.mod_eq_of_lt (by omega)] at hidx
    intro i hi
    rw [List.map_cons, wordWrites, List.mem_append]
    by_cases hfirst : os₁.buf i = os.buf i
    · rw [← hidx]
      exact .inr (ih hrest (by omega) i (hfirst ▸ hi))
    · have hnow := hword i hfirst
      rw [wordWrites, wordWrites, List.append_nil] at hnow
      exact .inl hnow

/-- No word behind the bits is written. -/
theorem wordWrites_le {pos : Nat} {sizes : List Nat} {i : Nat} (h : i ∈ wordWrites pos sizes) :
    i < (pos + sizes.sum) / 64 := by
  induction sizes generalizing pos with
  | nil => cases h
  | cons nbits sizes ih =>
    rw [wordWrites, List.mem_append] at h
    rw [List.sum_cons, ← Nat.add_assoc]
    rcases h with hnow | hlater
    · split at hnow
      case isTrue hfull =>
        obtain rfl := List.mem_singleton.mp hnow
        omega
      case isFalse => cases hnow
    · exact ih hlater

theorem sum_composeSizes (T : Nat → Nat) (etx : Etx) (is : List Nat) :
    (composeSizes T etx is).sum = ((encodeSyms T etx is).2 ++
      insertion (some (apeFinish (encodeSyms T etx is).1))).length := by
  induction is generalizing etx with
  | nil =>
    show (apeFinish etx).2 + 0 = (insertion (some (apeFinish etx))).length
    rw [Nat.add_zero]
    exact (length_toBits _ _).symm
  | cons i is ih =>
    rw [composeSizes, encodeSyms]
    dsimp only
    rw [sum_append_sizes, ih, List.append_assoc]
    exact List.length_append.symm

namespace Waveform

theorem sum_baSizes (w : Waveform) :
    w.baSizes.sum = (Firmware.apeEncode w.table w.idxs).length := by
  rw [baSizes, sum_composeSizes]
  rfl

theorem sum_haSizes (w : Waveform) : w.haSizes.sum =
    (encodedHistogram w.symbols w.first ++ overflowBits w.nobits w.symbols).length := by
  have hfields (c : Nat → Nat) (mbits k : Nat) : ∀ b,
      (fields c mbits k b).length =
        ((List.range k).map fun i => fieldWidth c mbits (b + i)).sum := by
    induction k with
    | zero => exact fun b => rfl
    | succ k ih =>
      intro b
      rw [fields, List.length_append, length_toBits, ih, List.range_succ_eq_map, List.map_cons,
        List.map_map, List.sum_cons]
      congr 2
      refine List.map_congr_left fun i _ => ?_
      rw [Function.comp_apply, Nat.succ_eq_add_one, Nat.add_assoc, Nat.add_comm 1]
  have hoverflow (xs : List Nat) :
      (xs.flatMap (toBits w.nobits)).length = (xs.map fun _ => w.nobits).sum := by
    rw [List.length_flatMap]
    simp only [length_toBits]
  rw [haSizes, List.cons_append, List.sum_cons, List.sum_append, List.length_append,
    encodedHistogram, List.length_append, length_toBits, hfields, overflowBits, hoverflow,
    Nat.add_assoc]
  simp only [Nat.zero_add]

/-- The overflows take at most 13 bits each. -/
theorem sum_haSizes_le (w : Waveform) : w.haSizes.sum ≤ 352 + 13 * 1023 := by
  have hhist := w.length_encodedHistogram_le
  have hle : (w.symbols.filterMap overflow).length ≤ 1023 := by
    rw [← w.length_symbols]
    exact List.length_filterMap_le _ _
  have hmul : w.nobits * (w.symbols.filterMap overflow).length ≤ 13 * 1023 :=
    Nat.mul_le_mul w.nobits_le hle
  have hoverflow : (overflowBits w.nobits w.symbols).length =
      w.nobits * (w.symbols.filterMap overflow).length := by
    rw [overflowBits, List.length_flatMap]
    simp only [length_toBits, List.map_const', List.sum_replicate_nat, Nat.mul_comm]
  rw [sum_haSizes, List.length_append, hoverflow]
  omega

/-- **The buffers** have room for every waveform: fewer than 256 words are written to each stream,
so all words written are inside. `APE_encode` is undefined for another reason only, and gives the
sizes with the streams. -/
theorem channel_fits (w : Waveform) (stale staleOut : Histogram) (out : EtxOut)
    (table : Nat → Nat) :
    w.haSizes.sum < 64 * 256 ∧ w.baSizes.sum < 64 * 256 ∧
      (∀ i ∈ wordWrites 0 w.haSizes, i < 256) ∧ (∀ i ∈ wordWrites 0 w.baSizes, i < 256) ∧
      (w.apeEncode (w.histogram stale staleOut) out table = none ↔ ¬ AllInsertable 0 w.baSizes) ∧
      ∀ out', w.apeEncode (w.histogram stale staleOut) out table = some out' →
        out'.ha.cidx = w.haSizes.sum ∧ out'.ba.cidx = w.baSizes.sum := by
  have hha := w.sum_haSizes_le
  have hba := w.sum_baSizes_le
  refine ⟨by omega, by omega, ?_, ?_, ?_, ?_⟩
  · intro i hi
    have hlt := wordWrites_le hi
    omega
  · intro i hi
    have hlt := wordWrites_le hi
    omega
  · constructor
    · intro hnone hins
      obtain ⟨out', hrun, -⟩ := w.apeEncode_spec stale staleOut out table hins
      rw [hnone] at hrun
      cases hrun
    · exact w.apeEncode_eq_none stale staleOut out table
  · intro out' hrun
    have hins : AllInsertable 0 w.baSizes := by
      by_contra hnot
      rw [w.apeEncode_eq_none stale staleOut out table hnot] at hrun
      cases hrun
    obtain ⟨out₁, hrun₁, hhaBits, hbaBits⟩ := w.apeEncode_spec stale staleOut out table hins
    obtain rfl := Option.some.inj (hrun.symm.trans hrun₁)
    rw [sum_haSizes, sum_baSizes, ← hhaBits, ← hbaBits]
    exact ⟨(length_contents _ _ _).symm, (length_contents _ _ _).symm⟩

end Waveform

end ProtoDune.Firmware
