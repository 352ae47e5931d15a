import ProtoDune.Firmware.ChannelDecode

/-!
# `AP-Encode.h` and its decoder: a channel comes back

The symbol of a difference is taken modulo 4096, and `restore` gives the difference
between -2047 and 2048 with that symbol. So a channel comes back where no sample is further from
the one before.

Main results:

* `restoreFrom_symbols` — when the samples are restored from the symbols.
* `lossless_iff` — when a channel is decoded as it was encoded.
-/

namespace ProtoDune.Firmware

open BitString ArithCoder

/-! ## The samples -/

/-- The differences with a symbol of their own. -/
def SmallStep (prv cur : AdcIn) : Prop :=
  (cur.toNat : Int) - prv.toNat ≤ 2048 ∧ (prv.toNat : Int) - cur.toNat ≤ 2047

/-- The sample that a symbol restores. -/
theorem restore_symbol (prv cur : AdcIn) :
    (prv.toNat : Int) + restore (Histogram.symbol cur prv).toNat =
      if difference cur prv < 2048 then (prv.toNat : Int) - difference cur prv
      else prv.toNat + (4096 - difference cur prv) := by
  have hmod : difference cur prv < 4096 := Nat.mod_lt _ (Nat.zero_lt_succ 4095)
  rw [toNat_symbol, restore]
  simp only [Nat.shiftRight_eq_div_pow, Nat.pow_one]
  split
  · rw [if_pos (by omega)]
    omega
  · rw [if_neg (by omega)]
    omega

theorem restore_symbol_eq_iff (prv cur : AdcIn) :
    (((prv.toNat : Int) + restore (Histogram.symbol cur prv).toNat) % 2 ^ 16).toNat = cur.toNat ↔
      SmallStep prv cur := by
  have hprv := prv.isLt
  have hcur := cur.isLt
  rw [restore_symbol, SmallStep, difference]
  split
  · omega
  · omega

/-- After a small step the decoder is at the sample. -/
theorem restore_symbol_of_small {prv cur : AdcIn} (h : SmallStep prv cur) :
    (prv.toNat : Int) + restore (Histogram.symbol cur prv).toNat = cur.toNat := by
  obtain ⟨hup, hdown⟩ := h
  have hprv := prv.isLt
  have hcur := cur.isLt
  rw [restore_symbol, difference]
  split
  · omega
  · omega

/-- The samples behind the first are restored if and only if all steps are small. -/
theorem restoreFrom_symbols (prv : AdcIn) (rest : List AdcIn) :
    restoreFrom prv.toNat ((symbolsFrom prv rest).map BitVec.toNat) = rest.map BitVec.toNat ↔
      (prv :: rest).IsChain SmallStep := by
  induction rest generalizing prv with
  | nil => exact iff_of_true rfl (List.IsChain.singleton prv)
  | cons cur rest ih =>
    rw [symbolsFrom, List.map_cons, restoreFrom, List.map_cons, List.cons.injEq,
      restore_symbol_eq_iff, List.isChain_cons_cons]
    refine and_congr_right fun hsmall => ?_
    rw [restore_symbol_of_small hsmall]
    exact ih cur

/-! ## The streams -/

/-- The two streams of a channel, decoded with the table of the decoded histogram: `hist_decode`,
`hist_integrate`, and the loop of `decode_data` without its comparison. -/
def decodeStreams (undef : Nat) (bins table : Nat → Nat) (arrays : CheckArrays) (etx : EtxOut) :
    Option (List Nat) := do
  let hbuf ← copy arrays.hbuf etx.ha
  let ebuf ← copy arrays.ebuf etx.ba
  let r ← histDecode undef hbuf bins ⟨hbuf.word 0, 0⟩
  let table := histIntegrate table r.bins r.nrbins
  let dtx := apdStart ebuf.word 0 0
  let (syms, _) ← symLoop (nextSym true ebuf.word table hbuf r.nrbins r.novrflw) 1023
    ⟨dtx, r.bfu, r.position⟩
  some (r.first :: restoreFrom r.first syms)

namespace Waveform

/-- The samples of a channel. -/
def samples (w : Waveform) : List AdcIn := w.first :: w.rest

/-- No sample is far from the one before. -/
def SmallSteps (w : Waveform) : Prop := w.samples.IsChain SmallStep

theorem restored_eq_iff (w : Waveform) :
    w.restored = w.samples.map BitVec.toNat ↔ w.SmallSteps := by
  rw [restored, samples, List.map_cons, List.cons.injEq]
  exact (and_iff_right rfl).trans (restoreFrom_symbols w.first w.rest)

theorem decodeStreams_spec (w : Waveform) (undef : Nat) (bins table : Nat → Nat)
    (arrays : CheckArrays) {out : EtxOut}
    (hha : Ending.transfer.bits out.ha =
      encodedHistogram w.symbols w.first ++ overflowBits w.nobits w.symbols)
    (hba : Ending.transfer.bits out.ba = Firmware.apeEncode w.table w.idxs) :
    decodeStreams undef bins table arrays out = some w.restored := by
  obtain ⟨hbuf, ebuf, hcopyH, hcopyB, hreads, hholds⟩ := w.copies_spec arrays hha hba
  obtain ⟨r, hrun, hnr, hfirst, hnovr, hbins, -, hreads'⟩ :=
    @histDecode_eq w undef bins hbuf ⟨hbuf.word 0, 0⟩ _ hreads
  obtain ⟨hzero, htable⟩ := w.histIntegrate_eq hbins table
  obtain ⟨dtx, hdecodes, -⟩ := w.apdDecodes_eq hzero (Nat.le_refl NBins) htable
    (fun i hi => (w.occupied i hi).1) ebuf.word 0 hholds
  rw [← w.length_symbols] at hdecodes
  rw [← List.append_nil (overflowBits w.nobits w.symbols)] at hreads'
  obtain ⟨bfu, hloop⟩ := symLoop_spec true w.nobits_le
    (fun sym hsym => Nat.lt_of_le_of_lt (le_maxOverflow hsym) (Nat.lt_size_self _))
    (counted_symbolsFrom w.first w.rest) (.inr (.inl rfl)) hdecodes hreads'
  rw [w.length_symbols] at hloop
  rw [decodeStreams, hcopyH, Option.bind_eq_bind, Option.bind_some, hcopyB, Option.bind_some, hrun,
    Option.bind_eq_bind, Option.bind_some]
  dsimp only
  rw [hnr, hnovr, hfirst, hloop]
  rfl

end Waveform

/-- A channel is encoded, and both decoders give the samples: that with the decoded histogram, and
`encode_check`, which finds no difference. -/
def LosslessChannel (w : Waveform) (hist : Histogram) (out : EtxOut) (apeTable : Nat → Nat)
    (undef : Nat) (bins table : Nat → Nat) (arrays : CheckArrays) : Prop :=
  ∃ out', w.apeEncode hist out apeTable = some out' ∧
    decodeStreams undef bins table arrays out' = some (w.samples.map BitVec.toNat) ∧
    encodeCheck undef bins table arrays out' hist w.first w.rest =
      some (w.samples.map BitVec.toNat, false)

/-- A channel that comes back could be encoded and restored. -/
theorem LosslessChannel.restored {w : Waveform} {stale staleOut : Histogram} {out : EtxOut}
    {apeTable : Nat → Nat} {undef : Nat} {bins table : Nat → Nat} {arrays : CheckArrays}
    (h : LosslessChannel w (w.histogram stale staleOut) out apeTable undef bins table arrays) :
    w.restored = w.samples.map BitVec.toNat ∧ AllInsertable 0 w.baSizes := by
  obtain ⟨out', hout, hdecode, -⟩ := h
  have hins : AllInsertable 0 w.baSizes := by
    by_contra hnot
    rw [w.apeEncode_eq_none stale staleOut out apeTable hnot] at hout
    cases hout
  obtain ⟨out₁, hrun, hha, hba⟩ := w.apeEncode_spec stale staleOut out apeTable hins
  obtain rfl := Option.some.inj (hout.symm.trans hrun)
  rw [w.decodeStreams_spec undef bins table arrays hha hba] at hdecode
  exact ⟨Option.some.inj hdecode, hins⟩

/-- **A channel comes back** if and only if no sample is far from the one before and no symbol
settles too many bits of the code. -/
theorem lossless_iff (w : Waveform) (stale staleOut : Histogram) (out : EtxOut)
    (apeTable : Nat → Nat) (undef : Nat) (bins table : Nat → Nat) (arrays : CheckArrays) :
    LosslessChannel w (w.histogram stale staleOut) out apeTable undef bins table arrays ↔
      w.SmallSteps ∧ w.Streamable := by
  rw [← w.streamable_iff, ← w.restored_eq_iff]
  refine ⟨LosslessChannel.restored, ?_⟩
  rintro ⟨hrestored, hins⟩
  obtain ⟨out', hrun, hha, hba⟩ := w.apeEncode_spec stale staleOut out apeTable hins
  refine ⟨out', hrun, ?_, ?_⟩
  · rw [w.decodeStreams_spec undef bins table arrays hha hba, hrestored]
  · obtain ⟨next, s, s', hloop, hcheck⟩ := w.encodeCheck_spec undef bins table arrays
      (w.represents_histogram stale staleOut) hha hba
    rw [← w.length_rest] at hloop
    rw [hcheck]
    refine dataLoop_same _ hloop ?_
    have hfirst : ((w.first.toNat : Int) % 2 ^ 16).toNat = w.first.toNat := by
      have hlt := w.first.isLt
      omega
    rw [hfirst]
    exact hrestored

theorem Waveform.smallStep_of_ramp {d : AdcIn} (h : (Waveform.ramp d).SmallSteps) :
    SmallStep 0 (0 + d) :=
  (List.isChain_cons_cons.mp
    (show ((0 : AdcIn) :: rampFrom d (1022 + 1) 0).IsChain SmallStep from h)).1

/-- A channel that goes from 0 to 4095 has the symbol of a step down by 1. -/
theorem full_scale_step_lost :
    ¬ ∀ (w : Waveform) (stale staleOut : Histogram) (out : EtxOut) (apeTable : Nat → Nat)
      (undef : Nat) (bins table : Nat → Nat) (arrays : CheckArrays),
      LosslessChannel w (w.histogram stale staleOut) out apeTable undef bins table arrays := by
  intro h
  have hlossless := h (Waveform.ramp 4095) leftBehind leftBehind
    ⟨⟨0, 0, fun _ => 0⟩, ⟨0, 0, fun _ => 0⟩⟩ (fun _ => 0) 0 (fun _ => 0) (fun _ => 0) .blank
  have hsmall := (Waveform.restored_eq_iff _).mp hlossless.restored.1
  exact absurd (Waveform.smallStep_of_ramp hsmall).1 (by decide)

end ProtoDune.Firmware
