import ProtoDune.Firmware.ChannelDecode
import ProtoDune.Firmware.PacketWrite

/-!
# `PacketWrite.h`: the streams of a channel as they are packed

The words of the streams of `APE_encode` are `uint64_t`, and their indices stay in
the buffers. So `pack` appends their bits, and a channel fills a part of the packet that
the host can decode, from any position.

Main results:

* `Waveform.apeEncode_packable` — what `APE_encode` leaves can be packed.
* `Waveform.chanDecode_total` — the host decodes a channel and goes on behind it.
-/

namespace ProtoDune.Firmware

open BitString ArithCoder

/-- The streams of a channel, as `writeN` takes them. -/
def EtxOut.packed (out : EtxOut) : ApeEtxOut := ⟨out.ha, out.ba⟩

/-- The staging word and the words of the buffer are `uint64_t`. -/
structure InWords (bs : BitStream64) (os : OStream) : Prop where
  cur_lt : bs.cur < 2 ^ 64
  buf_lt : ∀ i, os.buf i < 2 ^ 64

/-- The words of two buffers, before they are written. -/
structure EtxOut.InWords (out : EtxOut) : Prop where
  ha : ∀ i, out.ha.buf i < 2 ^ 64
  ba : ∀ i, out.ba.buf i < 2 ^ 64

/-! ## The words of a stream -/

section

variable {bs bs' : BitStream64} {os os' : OStream}

theorem shl64_lt {x n y : Nat} (h : shl64 x n = some y) : y < 2 ^ 64 := by
  unfold shl64 at h
  split at h
  · rw [← Option.some.inj h]
    exact Nat.mod_lt _ (Nat.two_pow_pos 64)
  · cases h

/-- An insert keeps to the words. -/
theorem InWords.insert (h : InWords bs os) {bits nbits : Nat} (hbits : bits < 2 ^ 64)
    (hrun : bs.insert os bits nbits = some (bs', os')) : InWords bs' os' := by
  unfold BitStream64.insert at hrun
  dsimp only at hrun
  obtain ⟨cur, hcur, hrest⟩ := Option.bind_eq_some_iff.mp hrun
  have hpart : (if 64 - bs.bidx < nbits then bits >>> (nbits - (64 - bs.bidx)) else bits) <
      2 ^ 64 := by
    split
    · exact Nat.lt_of_le_of_lt (Nat.shiftRight_le _ _) hbits
    · exact hbits
  have hor := Nat.or_lt_two_pow (shl64_lt hcur) hpart
  split at hrest
  · obtain ⟨os₁, hwrite, hsome⟩ := Option.bind_eq_some_iff.mp hrest
    obtain ⟨rfl, rfl⟩ := Prod.mk.inj (Option.some.inj hsome)
    refine ⟨hbits, fun i => ?_⟩
    unfold OStream.write at hwrite
    split at hwrite
    · obtain rfl := Option.some.inj hwrite
      by_cases hi : i = bs.widx
      · rw [hi]
        exact lt_of_eq_of_lt (Function.update_self ..) hor
      · exact lt_of_eq_of_lt (Function.update_of_ne hi ..) (h.buf_lt i)
    · cases hwrite
  · obtain ⟨rfl, rfl⟩ := Prod.mk.inj (Option.some.inj hrest)
    exact ⟨hor, h.buf_lt⟩

theorem InWords.insertComposed (h : InWords bs os) {e : Option (Nat × Nat)}
    (he : ∀ x, e = some x → x.1 < 2 ^ x.2)
    (hrun : insertComposed bs os e = some (bs', os')) : InWords bs' os' := by
  cases e with
  | none =>
    obtain ⟨rfl, rfl⟩ := Prod.mk.inj (Option.some.inj hrun)
    exact h
  | some x =>
    change (if x.2 ≤ 64 then bs.insert os x.1 x.2 else none) = _ at hrun
    split at hrun
    case isTrue hle =>
      exact h.insert (Nat.lt_of_lt_of_le (he x rfl) (Nat.pow_le_pow_right Nat.two_pos hle)) hrun
    case isFalse => cases hrun

theorem InWords.insertOverflow (h : InWords bs os) {sym : Symbol} {nobits : Nat}
    (hrun : insertOverflow bs os (Histogram.idx sym 0).1 (Histogram.idx sym 0).2 nobits =
      some (bs', os')) : InWords bs' os' := by
  have hovr : (Histogram.idx sym 0).2 < 2 ^ 64 := by
    have hlt := sym.isLt
    unfold Histogram.idx
    dsimp only
    split <;> omega
  unfold Firmware.insertOverflow at hrun
  split at hrun
  · exact h.insert hovr hrun
  · obtain ⟨rfl, rfl⟩ := Prod.mk.inj (Option.some.inj hrun)
    exact h

/-- The loop over the bins, whose counts are words. -/
theorem InWords.encodeLoop {hist : Histogram} (hcounts : ∀ b, hist.counts b < 2 ^ 64)
    {mbits k : Nat} : ∀ {ibin total bits nbits : Nat} {bs : BitStream64} {os : OStream}
      {table table' : Nat → Nat}, InWords bs os → bits < 2 ^ 64 →
      hist.encodeLoop mbits k ibin total bits nbits bs os table = some (bs', os', table') →
      InWords bs' os' := by
  induction k with
  | zero =>
    intro ibin total bits nbits bs os table table' h hbits hrun
    rw [Histogram.encodeLoop] at hrun
    obtain ⟨⟨bs₁, os₁⟩, hinsert, hrest⟩ := Option.bind_eq_some_iff.mp hrun
    change some (bs₁, os₁, Function.update table ibin total) = some (bs', os', table') at hrest
    obtain ⟨rfl, htail⟩ := Prod.mk.inj (Option.some.inj hrest)
    obtain ⟨rfl, -⟩ := Prod.mk.inj htail
    exact h.insert hbits hinsert
  | succ k ih =>
    intro ibin total bits nbits bs os table table' h hbits hrun
    rw [Histogram.encodeLoop] at hrun
    obtain ⟨⟨bs₁, os₁⟩, hinsert, hrest⟩ := Option.bind_eq_some_iff.mp hrun
    exact ih (h.insert hbits hinsert) (hcounts ibin) hrest

end

/-- The counts of a histogram that describes the symbols of a packet. -/
theorem Represents.counts_lt {hist : Histogram} {syms : List Symbol} (hr : Represents hist syms)
    (hlen : syms.length ≤ 1023) (b : Nat) : hist.counts b < 2 ^ 64 := by
  by_cases hb : b < NBins
  · have hle := multiplicity_le syms b
    rw [hr.counts b hb]
    omega
  · have hbit : hist.omask.getLsbD b = false := BitVec.getLsbD_of_ge _ _ (Nat.le_of_not_lt hb)
    rw [Histogram.counts, hbit]
    exact Nat.two_pow_pos 64

/-- `encode` keeps to the words. -/
theorem Represents.encode_inWords {hist : Histogram} {syms : List Symbol}
    (hr : Represents hist syms) (hlen : syms.length ≤ 1023) {os os' : OStream}
    {bs bs' : BitStream64} {table table' : Nat → Nat} {first : AdcIn} (h : InWords bs os)
    (hrun : hist.encode os bs table first = some (os', bs', table')) : InWords bs' os' := by
  unfold Histogram.encode at hrun
  dsimp only at hrun
  obtain ⟨⟨bs₁, os₁, table₁⟩, hloop, hsome⟩ := Option.bind_eq_some_iff.mp hrun
  obtain ⟨rfl, htail⟩ := Prod.mk.inj (Option.some.inj hsome)
  obtain ⟨rfl, -⟩ := Prod.mk.inj htail
  have hheader : hist.header (10 - countLeadingZeros 10 hist.maxcnt) first < 2 ^ 64 :=
    Nat.lt_trans (Nat.mod_lt _ (Nat.two_pow_pos 32))
      (Nat.pow_lt_pow_right Nat.one_lt_two (by omega))
  have hwords := InWords.encodeLoop (hr.counts_lt hlen) h hheader hloop
  exact ⟨hwords.cur_lt, hwords.buf_lt⟩

/-! ## The loop of `APE_encode` -/

/-- Both streams keep to the words. -/
structure ApeLoop.InWords (s : ApeLoop) : Prop where
  ha : Firmware.InWords s.ha s.out.ha
  ba : Firmware.InWords s.ba s.out.ba

theorem ApeLoop.InWords.step {s s' : ApeLoop} (h : s.InWords) {table : Nat → Nat} {nobits : Nat}
    {cur : AdcIn} (hrun : s.step table nobits cur = some s') : s'.InWords := by
  unfold ApeLoop.step at hrun
  dsimp only at hrun
  obtain ⟨⟨ha, oha⟩, hoverflow, hrest⟩ := Option.bind_eq_some_iff.mp hrun
  obtain ⟨⟨ba, oba⟩, hcomposed, hsome⟩ := Option.bind_eq_some_iff.mp hrest
  obtain rfl := Option.some.inj hsome
  exact ⟨h.ha.insertOverflow hoverflow, h.ba.insertComposed (fun x hx => encodeSym_lt hx) hcomposed⟩

/-- The streams that the loop leaves. -/
theorem ApeLoop.InWords.run {table : Nat → Nat} {nobits : Nat} {out : EtxOut} {rest : List AdcIn} :
    ∀ {s : ApeLoop}, s.InWords → s.run table nobits rest = some out →
      (∀ i, out.ha.buf i < 2 ^ 64) ∧ out.ha.ccur < 2 ^ 64 ∧
        (∀ i, out.ba.buf i < 2 ^ 64) ∧ out.ba.ccur < 2 ^ 64 := by
  induction rest with
  | nil =>
    intro s h hrun
    rw [ApeLoop.run] at hrun
    obtain ⟨⟨ba, oba⟩, hcomposed, hsome⟩ := Option.bind_eq_some_iff.mp hrun
    obtain rfl := Option.some.inj hsome
    have hba := h.ba.insertComposed
      (fun x hx => by rw [← Option.some.inj hx]; exact apeFinish_lt s.etx) hcomposed
    exact ⟨h.ha.buf_lt, h.ha.cur_lt, hba.buf_lt, hba.cur_lt⟩
  | cons cur rest ih =>
    intro s h hrun
    rw [ApeLoop.run] at hrun
    obtain ⟨s', hstep, hrest⟩ := Option.bind_eq_some_iff.mp hrun
    exact ih (h.step hstep) hrest

namespace Waveform

/-- The bit string of a channel: its histogram and overflows, then its code. -/
def channelBits (w : Waveform) : List Bool :=
  (encodedHistogram w.symbols w.first ++ overflowBits w.nobits w.symbols) ++
    Firmware.apeEncode w.table w.idxs

theorem length_channelBits (w : Waveform) :
    w.channelBits.length = w.haSizes.sum + w.baSizes.sum := by
  rw [channelBits, List.length_append, sum_haSizes, sum_baSizes]

/-- **The streams of `APE_encode`** can be packed, and spell the channel. -/
theorem apeEncode_packable (w : Waveform) (stale staleOut : Histogram) {out : EtxOut}
    (hout : out.InWords) (table : Nat → Nat) (hstream : w.Streamable) :
    ∃ out', w.apeEncode (w.histogram stale staleOut) out table = some out' ∧
      out'.packed.Filled ∧ out'.packed.bits = w.channelBits := by
  obtain ⟨out', hrun, hha, hba⟩ :=
    w.apeEncode_spec stale staleOut out table (w.streamable_iff.mpr hstream)
  have hidxH : out'.ha.cidx = w.haSizes.sum := by
    rw [sum_haSizes, ← hha]
    exact (length_contents _ _ _).symm
  have hidxB : out'.ba.cidx = w.baSizes.sum := by
    rw [sum_baSizes, ← hba]
    exact (length_contents _ _ _).symm
  have hleH := w.sum_haSizes_le
  have hleB := w.sum_baSizes_le
  have hwords := hrun
  unfold apeEncode at hwords
  obtain ⟨⟨oha, ha, table'⟩, hencode, hloop⟩ := Option.bind_eq_some_iff.mp hwords
  have hnew : Firmware.InWords .new out.ha := ⟨Nat.two_pow_pos 64, hout.ha⟩
  have hhist := (w.represents_histogram stale staleOut).encode_inWords w.length_symbols.le hnew
    hencode
  have hstart : ApeLoop.InWords ⟨apeStart, w.first, ha, .new, ⟨oha, out.ba⟩⟩ :=
    ⟨hhist, ⟨Nat.two_pow_pos 64, hout.ba⟩⟩
  obtain ⟨hbufH, hcurH, hbufB, hcurB⟩ := hstart.run hloop
  refine ⟨out', hrun, ⟨⟨hbufH, hcurH, ?_⟩, ⟨hbufB, hcurB, ?_⟩⟩, ?_⟩
  · show out'.ha.cidx / 64 ≤ 256
    omega
  · show out'.ba.cidx / 64 ≤ 256
    omega
  · rw [channelBits, ← hha, ← hba]
    rfl

/-- Elsewhere it is undefined. -/
theorem apeEncode_eq_none_of_not (w : Waveform) (stale staleOut : Histogram) (out : EtxOut)
    (table : Nat → Nat) (hstream : ¬ w.Streamable) :
    w.apeEncode (w.histogram stale staleOut) out table = none :=
  w.apeEncode_eq_none stale staleOut out table fun h => hstream (w.streamable_iff.mp h)

/-- Where the host goes on behind the symbols. -/
theorem symDecode_totbits (w : Waveform) {table : Nat → Nat} (hzero : table 0 = NBins)
    (htable : ∀ j ≤ NBins, table (j + 1) = w.table j) (sym : Nat) {bfu : Bfu} {buf : WordArray}
    {pos : Nat} (hreads : Reads buf bfu pos (overflowBits w.nobits w.symbols ++
      Firmware.apeEncode w.table w.idxs)) (hovr : w.OverflowsReadable) {r : ChanDecoded}
    (hrun : symDecode table sym bfu buf pos w.nobits = some r) :
    r.totbits = pos + (overflowBits w.nobits w.symbols ++
      Firmware.apeEncode w.table w.idxs).length := by
  obtain ⟨r', hr', -, hsympos⟩ := (w.symDecode_eq hzero htable sym hreads).1 hovr
  obtain rfl := Option.some.inj (hrun.symm.trans hr')
  unfold symDecode at hrun
  dsimp only at hrun
  obtain ⟨⟨syms, s⟩, hloop, hsome⟩ := Option.bind_eq_some_iff.mp hrun
  obtain rfl := Option.some.inj hsome
  dsimp only at hsympos hloop ⊢
  obtain ⟨dtx, hdecodes, hfinish⟩ := w.apdDecodes_eq hzero (Nat.le_refl NBins) htable
    (fun i hi => (w.occupied i hi).1) buf.word _ (Holds.append.mp hreads.holds).2
  rw [← w.length_symbols] at hdecodes
  obtain ⟨bfu', hloop'⟩ := symLoop_spec false w.nobits_le
    (fun sym hsym => Nat.lt_of_le_of_lt (le_maxOverflow hsym) (Nat.lt_size_self _))
    (counted_symbolsFrom w.first w.rest) ((w.overflowsReadable_iff.mp hovr).imp_right .inr)
    hdecodes hreads
  rw [hzero, hsympos] at hloop
  rw [w.length_symbols] at hloop'
  obtain ⟨-, rfl⟩ := Prod.mk.inj (Option.some.inj (hloop.symm.trans hloop'))
  rw [hfinish, List.length_append]
  push_cast
  omega

/-- **The host** decodes a channel, wherever it starts in the packet, and goes on at its end. -/
theorem chanDecode_total (w : Waveform) (hovr : w.OverflowsReadable) (undef : Nat)
    (bins table : Nat → Nat) {buf : WordArray} {pos : Nat}
    (hreads : Reads buf ⟨buf.word (pos / 64), pos⟩ pos w.channelBits) :
    ∃ r, chanDecode undef bins table buf pos = some r ∧ r.samples = w.restored ∧
      r.totbits = pos + w.channelBits.length := by
  obtain ⟨r, hrun, hsyms, -⟩ := (w.chanDecode_eq undef bins table hreads).1 hovr
  refine ⟨r, hrun, ?_, ?_⟩
  · rw [ChanDecoded.samples, hsyms, restored]
  · have hget : buf.get (bfuIndex pos) = some (buf.word (pos / 64)) := by
      have hindex : bfuIndex pos = pos / 64 := Nat.shiftRight_eq_div_pow pos 6
      have hinside := hreads.inside
      rw [WordArray.get, hindex, if_pos (by omega)]
    rw [channelBits, List.append_assoc] at hreads ⊢
    obtain ⟨h, hhist, hnr, -, hnovr, hbins, hpos, hreads'⟩ :=
      @histDecode_eq w undef bins buf ⟨buf.word (pos / 64), pos⟩ _ hreads
    obtain ⟨hzero, htable⟩ := w.histIntegrate_eq hbins table
    rw [chanDecode, hget, Option.bind_eq_bind, Option.bind_some, hhist, Option.bind_eq_bind,
      Option.bind_some] at hrun
    dsimp only at hrun
    rw [hnr, hnovr] at hrun
    rw [w.symDecode_totbits hzero htable h.first hreads' hovr hrun, hpos, List.length_append,
      List.length_append, List.length_append]
    push_cast
    omega

/-- Where its overflows have no bits, it is undefined. -/
theorem chanDecode_eq_none (w : Waveform) (hovr : ¬ w.OverflowsReadable) (undef : Nat)
    (bins table : Nat → Nat) {buf : WordArray} {pos : Nat}
    (hreads : Reads buf ⟨buf.word (pos / 64), pos⟩ pos w.channelBits) :
    chanDecode undef bins table buf pos = none :=
  (w.chanDecode_eq undef bins table hreads).2 hovr

end Waveform

end ProtoDune.Firmware
