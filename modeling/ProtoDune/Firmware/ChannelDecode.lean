import ProtoDune.Firmware.ApeChannel
import ProtoDune.Firmware.HistogramDecode

/-!
# `PacketWrite.h` and the host: decoding a channel

`decode_data` checks the two streams of a channel in place: it copies them and
restores the samples. The host decodes the channel from a packet, in which the
second stream follows the first. Both read the overflows as they come; only
`decode_data` leaves a field without bits alone.

Main results:

* `symLoop_spec` — the symbols are decoded, with their overflows.
* `decodeData_spec` — `decode_data` restores the samples.
* `host_agrees_iff` — when the host decodes what the firmware encoded.
-/

namespace ProtoDune.Firmware

open BitString ArithCoder

/-- `restore`: the difference of a symbol. -/
def restore (sym : Nat) : Int := if sym % 2 = 1 then -((sym >>> 1 : Nat) : Int) else (sym >>> 1 : Nat)

/-- The samples behind `prv`, in 16 bits. -/
def restoreFrom (prv : Int) : List Nat → List Nat
  | [] => []
  | sym :: syms => ((prv + restore sym) % 2 ^ 16).toNat :: restoreFrom (prv + restore sym) syms

/-! ## The symbols -/

/-- Where the decoding of a channel stands: in the code and in the overflows. -/
structure SymState where
  dtx : Dtx
  bfu : Bfu
  position : Nat

/-- The field of an overflow; `guarded` as in `decode_data`, where one without bits is not read. -/
def extractOverflow (guarded : Bool) (wrds : WordArray) (bfu : Bfu) (position novrflw : Nat) :
    Option (Nat × Bfu × Nat) :=
  if guarded = true ∧ novrflw = 0 then some (0, bfu, position)
  else extractR wrds bfu position novrflw

/-- The next symbol. -/
def nextSym (guarded : Bool) (mem : Memory) (table : Nat → Nat) (wrds : WordArray)
    (nbins novrflw : Nat) (s : SymState) : Option (Nat × SymState) := do
  let (sym, dtx) ← apdDecode mem table s.dtx
  if sym = 0 then do
    let (ovr, bfu, position) ← extractOverflow guarded wrds s.bfu s.position novrflw
    some ((nbins + ovr) % 2 ^ 16, ⟨dtx, bfu, position⟩)
  else some (sym, { s with dtx })

/-- `n` symbols. -/
def symLoop (next : SymState → Option (Nat × SymState)) :
    Nat → SymState → Option (List Nat × SymState)
  | 0, s => some ([], s)
  | n + 1, s => do
      let (sym, s) ← next s
      let (syms, s) ← symLoop next n s
      some (sym :: syms, s)

/-! ## The host -/

/-- What `sym_decode` leaves, and where it starts the symbols. -/
structure ChanDecoded where
  syms : List Nat
  sympos : Nat
  totbits : Int

/-- `sym_decode`; the symbols come behind the overflows. -/
def symDecode (table : Nat → Nat) (sym : Nat) (bfu : Bfu) (buf : WordArray) (ovrpos novrflw : Nat) :
    Option ChanDecoded := do
  let nbins := table 0
  let novr := table 2
  let nobits := novrflw * novr
  let sympos := ovrpos + nobits
  let dtx := apdStart buf.word 0 sympos
  let (syms, s) ← symLoop (nextSym false buf.word table buf nbins novrflw) 1023 ⟨dtx, bfu, ovrpos⟩
  some ⟨sym :: syms, sympos, apdFinish s.dtx + s.position⟩

/-- `chan_decode`; its arrays are not initialised. -/
def chanDecode (undef : Nat) (bins table : Nat → Nat) (buf : WordArray) (position : Nat) :
    Option ChanDecoded := do
  let cur ← buf.get (bfuIndex position)
  let r ← histDecode undef buf bins ⟨cur, position⟩
  let table := histIntegrate table r.bins r.nrbins
  symDecode table r.first r.bfu buf r.position r.novrflw

/-- The samples of a decoded channel. -/
def ChanDecoded.samples (r : ChanDecoded) : List Nat :=
  match r.syms with
  | [] => []
  | sym :: syms => sym :: restoreFrom sym syms

/-! ## The firmware -/

/-- The loop that `decode_data` integrates the histogram with, after `n` passes. -/
def tableLoop (hist : Histogram) (table : Nat → Nat) : Nat → (Nat → Nat) × Nat
  | 0 => (table, 0)
  | n + 1 =>
      let (table, total) := tableLoop hist table n
      (Function.update table (n + 1) (total % 2 ^ 16), total + hist.counts n)

/-- The table of `decode_data`: the bins up to the last occupied one. -/
def dataTable (hist : Histogram) (table : Nat → Nat) : Nat → Nat :=
  let cnt := hist.lastgt0 + 1
  (tableLoop hist (Function.update table 0 cnt) (cnt + 1)).1

/-- `Nerrs++ > 20` gives up. -/
def countErrors (nerrs dadc adc : Nat) : Option Nat :=
  if dadc ≠ adc then if 20 < nerrs then none else some (nerrs + 1) else some nerrs

/-- The loop of `decode_data`: the samples, and whether any differs. -/
def dataLoop (next : SymState → Option (Nat × SymState)) (prv : Int) (nerrs : Nat) (s : SymState)
    (adc : AdcIn) (adcs : List AdcIn) : Option (List Nat × Bool) :=
  let dadc := (prv % 2 ^ 16).toNat
  match countErrors nerrs dadc adc.toNat with
  | none => some ([dadc], true)
  | some nerrs =>
      match adcs with
      | [] => some ([dadc], decide (nerrs ≠ 0))
      | adc :: adcs => do
          let (sym, s) ← next s
          let (dadcs, failed) ← dataLoop next (prv + restore sym) nerrs s adc adcs
          some (dadc :: dadcs, failed)

/-- `decode_data`. -/
def decodeData (undef : Nat) (bins table : Nat → Nat) (ebuf obuf : WordArray) (obfu : Bfu)
    (hist : Histogram) (adc : AdcIn) (adcs : List AdcIn) : Option (List Nat × Bool) := do
  let table := dataTable hist table
  let r ← histDecode undef obuf bins obfu
  let dtx := apdStart ebuf.word 0 0
  dataLoop (nextSym true ebuf.word table obuf r.nrbins r.novrflw) r.first 0
    ⟨dtx, r.bfu, r.position⟩ adc adcs

/-- `copy`: the full words and the partial one, its bits first. -/
def copy (buf : WordArray) (os : OStream) : Option WordArray :=
  if (os.cidx + 63) / 64 ≤ buf.size then
    let left := os.cidx % 64
    some {
      size := buf.size
      word := fun i =>
        (if i < os.cidx / 64 then os.buf i
        else if i = os.cidx / 64 ∧ left ≠ 0 then os.ccur <<< (64 - left)
        else buf.word i) % 2 ^ 64
      word_lt := fun _ => Nat.mod_lt _ (Nat.two_pow_pos 64) }
  else none

/-! ## Symbols and overflows -/

/-- The symbols of a bin each. -/
theorem toNat_of_overflow_none {sym : Symbol} (h : overflow sym = none) :
    binOf sym = sym.toNat := by
  unfold overflow at h
  split at h
  case isTrue => cases h
  case isFalse hlt =>
    unfold NBins at hlt
    unfold binOf Histogram.idx NBins
    dsimp only
    rw [if_neg (by omega)]

/-- The others are their overflow above the bins. -/
theorem toNat_of_overflow_some {sym : Symbol} {ovr : Nat} (h : overflow sym = some ovr) :
    sym.toNat = NBins + ovr := by
  unfold overflow at h
  split at h
  case isTrue hle =>
    rw [← Option.some.inj h]
    omega
  case isFalse => cases h

/-- `binOf` tells the overflows. -/
def Counted (syms : List Symbol) : Prop := ∀ sym ∈ syms, binOf sym = 0 ↔ (overflow sym).isSome

theorem counted_symbolsFrom (prv : AdcIn) (rest : List AdcIn) : Counted (symbolsFrom prv rest) := by
  induction rest generalizing prv with
  | nil => exact fun sym hsym => nomatch hsym
  | cons cur rest ih =>
    intro sym hsym
    rcases List.mem_cons.mp hsym with rfl | hmem
    · exact binOf_symbol_eq_zero cur prv
    · exact ih cur sym hmem

section

variable {guarded : Bool} {mem : Memory} {table : Nat → Nat} {wrds : WordArray} {nobits : Nat}

/-- The next symbol, with its overflow. -/
theorem nextSym_spec {sym : Symbol} {dtx dtx' : Dtx} {bfu : Bfu} {pos : Nat} {rest : List Bool}
    (hn : nobits ≤ 13) (hovr : (overflow sym).getD 0 < 2 ^ nobits)
    (hzero : binOf sym = 0 ↔ (overflow sym).isSome)
    (hguard : nobits ≠ 0 ∨ guarded = true ∨ overflow sym = none)
    (hdecode : apdDecode mem table dtx = some (binOf sym, dtx'))
    (hreads : Reads wrds bfu pos (overflowBits nobits [sym] ++ rest)) :
    ∃ bfu', nextSym guarded mem table wrds NBins nobits ⟨dtx, bfu, pos⟩ =
        some (sym.toNat, ⟨dtx', bfu', pos + (overflowBits nobits [sym]).length⟩) ∧
      Reads wrds bfu' (pos + (overflowBits nobits [sym]).length) rest := by
  unfold nextSym
  dsimp only
  rw [hdecode, Option.bind_eq_bind, Option.bind_some]
  dsimp only
  cases hov : overflow sym with
  | none =>
    have hbits : overflowBits nobits [sym] = [] := by
      rw [overflowBits, List.filterMap_cons_none hov]
      rfl
    rw [hbits] at hreads ⊢
    rw [hov] at hzero
    rw [if_neg (by rw [hzero]; exact Bool.false_ne_true), toNat_of_overflow_none hov]
    exact ⟨bfu, rfl, hreads⟩
  | some ovr =>
    have hbits : overflowBits nobits [sym] = toBits nobits ovr := by
      rw [overflowBits, List.filterMap_cons_some hov]
      exact List.append_nil _
    have hsym : (NBins + ovr) % 2 ^ 16 = sym.toNat := by
      have hlt := sym.isLt
      rw [← toNat_of_overflow_some hov]
      exact Nat.mod_eq_of_lt (by omega)
    rw [hbits] at hreads ⊢
    rw [hov] at hzero hovr hguard
    rw [if_pos (hzero.mpr rfl)]
    by_cases hnone : nobits = 0
    · subst hnone
      obtain rfl : ovr = 0 := Nat.lt_one_iff.mp hovr
      have hg : guarded = true := by
        rcases hguard with h | h | h
        · exact absurd rfl h
        · exact h
        · cases h
      refine ⟨bfu, ?_, hreads⟩
      rw [extractOverflow, if_pos ⟨hg, rfl⟩, ← hsym]
      rfl
    · obtain ⟨bfu', hread, hreads'⟩ := hreads.extract (by omega) (by omega) hovr
      refine ⟨bfu', ?_, by rwa [length_toBits]⟩
      rw [extractOverflow, if_neg (fun h => hnone h.2), hread, Option.bind_eq_bind,
        Option.bind_some, length_toBits]
      dsimp only
      rw [hsym]

/-- The first of some calls of `apd_decode`. -/
theorem apdDecodes_cons {n i : Nat} {is : List Nat} {dtx dtx' : Dtx}
    (h : apdDecodes mem table (n + 1) dtx = some (i :: is, dtx')) :
    ∃ dtx₁, apdDecode mem table dtx = some (i, dtx₁) ∧
      apdDecodes mem table n dtx₁ = some (is, dtx') := by
  rw [apdDecodes] at h
  obtain ⟨⟨j, dtx₁⟩, hdecode, hrest⟩ := Option.bind_eq_some_iff.mp h
  obtain ⟨⟨js, dtx₂⟩, hdecodes, hsome⟩ := Option.bind_eq_some_iff.mp hrest
  obtain ⟨hlist, rfl⟩ := Prod.mk.inj (Option.some.inj hsome)
  obtain ⟨rfl, rfl⟩ := List.cons.inj hlist
  exact ⟨dtx₁, hdecode, hdecodes⟩

/-- **The symbols** are decoded, with their overflows. -/
theorem symLoop_spec (guarded : Bool) {syms : List Symbol} {dtx dtx' : Dtx} {bfu : Bfu} {pos : Nat}
    {rest : List Bool} (hn : nobits ≤ 13) (hovr : ∀ sym ∈ syms, (overflow sym).getD 0 < 2 ^ nobits)
    (hzero : Counted syms)
    (hguard : nobits ≠ 0 ∨ guarded = true ∨ ∀ sym ∈ syms, overflow sym = none)
    (hdecodes : apdDecodes mem table syms.length dtx = some (syms.map binOf, dtx'))
    (hreads : Reads wrds bfu pos (overflowBits nobits syms ++ rest)) :
    ∃ bfu', symLoop (nextSym guarded mem table wrds NBins nobits) syms.length ⟨dtx, bfu, pos⟩ =
      some (syms.map BitVec.toNat, ⟨dtx', bfu', pos + (overflowBits nobits syms).length⟩) := by
  induction syms generalizing dtx bfu pos with
  | nil =>
    obtain ⟨-, rfl⟩ := Prod.mk.inj (Option.some.inj hdecodes)
    exact ⟨bfu, rfl⟩
  | cons sym syms ih =>
    have hsplit : overflowBits nobits (sym :: syms) =
        overflowBits nobits [sym] ++ overflowBits nobits syms :=
      overflowBits_append nobits [sym] syms
    obtain ⟨dtx₁, hdecode, hdecodes₁⟩ := apdDecodes_cons hdecodes
    rw [hsplit, List.append_assoc] at hreads
    obtain ⟨bfu₁, hnext, hreads₁⟩ := nextSym_spec hn (hovr sym List.mem_cons_self)
      (hzero sym List.mem_cons_self)
      (hguard.imp_right (Or.imp_right fun h => h sym List.mem_cons_self)) hdecode hreads
    obtain ⟨bfu', hrest⟩ := ih (fun x hx => hovr x (List.mem_cons_of_mem sym hx))
      (fun x hx => hzero x (List.mem_cons_of_mem sym hx))
      (hguard.imp_right (Or.imp_right fun h x hx => h x (List.mem_cons_of_mem sym hx)))
      hdecodes₁ hreads₁
    refine ⟨bfu', ?_⟩
    rw [List.length_cons, symLoop, hnext, Option.bind_eq_bind, Option.bind_some]
    dsimp only
    rw [hrest, hsplit, List.length_append, ← Nat.add_assoc]
    rfl

/-- Without a guard, an overflow without bits is undefined. -/
theorem symLoop_eq_none (wrds : WordArray) (bfu : Bfu) (pos : Nat) {syms : List Symbol}
    {dtx dtx' : Dtx} (hzero : Counted syms) (hsome : ∃ sym ∈ syms, (overflow sym).isSome)
    (hdecodes : apdDecodes mem table syms.length dtx = some (syms.map binOf, dtx')) :
    symLoop (nextSym false mem table wrds NBins 0) syms.length ⟨dtx, bfu, pos⟩ = none := by
  induction syms generalizing dtx with
  | nil =>
    obtain ⟨sym, hsym, -⟩ := hsome
    cases hsym
  | cons sym syms ih =>
    obtain ⟨dtx₁, hdecode, hdecodes₁⟩ := apdDecodes_cons hdecodes
    have hnow := hzero sym List.mem_cons_self
    -- `BFU__wordR` is not defined for a width of 0
    have hnext : nextSym false mem table wrds NBins 0 ⟨dtx, bfu, pos⟩ =
        if binOf sym = 0 then none else some (binOf sym, ⟨dtx₁, bfu, pos⟩) := by
      unfold nextSym
      dsimp only
      rw [hdecode, Option.bind_eq_bind, Option.bind_some]
      dsimp only
      split <;> rfl
    rw [List.length_cons, symLoop, hnext]
    cases hov : overflow sym with
    | none =>
      have hlater : ∃ x ∈ syms, (overflow x).isSome := by
        obtain ⟨x, hx, hxs⟩ := hsome
        rcases List.mem_cons.mp hx with rfl | hmem
        · rw [hov] at hxs
          exact absurd hxs Bool.false_ne_true
        · exact ⟨x, hmem, hxs⟩
      rw [hov] at hnow
      rw [if_neg (by rw [hnow]; exact Bool.false_ne_true), Option.bind_eq_bind, Option.bind_some]
      dsimp only
      rw [ih (fun x hx => hzero x (List.mem_cons_of_mem sym hx)) hlater hdecodes₁]
      rfl
    | some ovr =>
      rw [hov] at hnow
      rw [if_pos (hnow.mpr rfl)]
      rfl

end

/-! ## The code -/

/-- The decoder gives back the symbols of a code that starts at bit `pos` of memory. -/
theorem apdDecodes_at {T : Nat → Nat} {bins : Nat} (hT : Cumulative T bins) {is : List Nat}
    (his : ∀ i ∈ is, Occupied T bins i) (mem : Memory) {pos : Nat}
    (hmem : Holds mem pos (apeEncode T is)) :
    ∃ dtx, apdDecodes mem (apdTable bins T) is.length (apdStart mem 0 pos) = some (is, dtx) ∧
      apdFinish dtx = (apeEncode T is).length := by
  obtain ⟨ss, K, hss, hK, hS⟩ := apeEncode_eq hT his
  have hstart : 8 * 0 + pos = pos := by omega
  obtain ⟨hin, hlen⟩ := hss.flush_contains hK hS hmem
  rw [← hstart] at hin
  obtain ⟨dtx, hdecodes, htracks⟩ := apdDecodes_encodes hT hss his
    (apdStart_tracks mem (Nat.zero_mod 8) pos) apeStart_normal hin
  refine ⟨dtx, hdecodes, ?_⟩
  rw [apdFinish_eq htracks.toReadUpTo, hlen]
  omega

namespace Waveform

/-- The code of a waveform is decoded with any table that agrees with its own on its bins. -/
theorem apdDecodes_eq (w : Waveform) {table : Nat → Nat} {bins : Nat} (hbins : table 0 = bins)
    (hle : bins ≤ NBins) (htable : ∀ j ≤ bins, table (j + 1) = w.table j)
    (hidxs : ∀ i ∈ w.idxs, i < bins) (mem : Memory) (pos : Nat)
    (hmem : Holds mem pos (Firmware.apeEncode w.table w.idxs)) :
    ∃ dtx, apdDecodes mem table 1023 (apdStart mem 0 pos) = some (w.symbols.map binOf, dtx) ∧
      apdFinish dtx = (Firmware.apeEncode w.table w.idxs).length := by
  have hwhole := cumulative_total w.length_symbols.le
  have hshift : table = apdTable bins fun j => table (j + 1) := by
    funext k
    cases k with
    | zero => exact hbins
    | succ k => rfl
  have hcumulative : Cumulative (fun j => table (j + 1)) bins := by
    refine ⟨(htable 0 (Nat.zero_le bins)).trans hwhole.zero, ?_, ?_⟩
    · intro i hi
      rw [htable i (Nat.le_of_lt hi), htable (i + 1) hi]
      exact hwhole.step i (Nat.lt_of_lt_of_le hi hle)
    · rw [htable bins (Nat.le_refl bins)]
      exact Nat.le_trans (hwhole.mono hle (Nat.le_refl NBins)) hwhole.top
  have hentries : ∀ i ∈ w.idxs, table (i + 1) = w.table i ∧ table (i + 1 + 1) = w.table (i + 1) :=
    fun i hi => ⟨htable i (Nat.le_of_lt (hidxs i hi)), htable (i + 1) (hidxs i hi)⟩
  have hoccupied : ∀ i ∈ w.idxs, Occupied (fun j => table (j + 1)) bins i := by
    intro i hi
    obtain ⟨h, h'⟩ := hentries i hi
    refine ⟨hidxs i hi, ?_⟩
    dsimp only
    rw [h, h']
    exact (w.occupied i hi).2
  have hcode : Firmware.apeEncode (fun j => table (j + 1)) w.idxs =
      Firmware.apeEncode w.table w.idxs := apeEncode_congr hentries
  rw [← hcode] at hmem ⊢
  obtain ⟨dtx, hdecodes, hfinish⟩ := apdDecodes_at hcumulative hoccupied mem hmem
  have hlen : w.idxs.length = 1023 := by rw [idxs, List.length_map, w.length_symbols]
  rw [← hshift, hlen] at hdecodes
  exact ⟨dtx, hdecodes, hfinish⟩

/-- The histogram of a waveform is read back. -/
theorem histDecode_eq (w : Waveform) (undef : Nat) (bins : Nat → Nat) {wrds : WordArray}
    {bfu : Bfu} {rest : List Bool}
    (hreads : Reads wrds bfu bfu.val (encodedHistogram w.symbols w.first ++ rest)) :
    ∃ r, histDecode undef wrds bins bfu = some r ∧ r.nrbins = NBins ∧ r.first = w.first.toNat ∧
      r.novrflw = w.nobits ∧ (∀ b < NBins, r.bins b = multiplicity w.symbols b) ∧
      r.position = bfu.val + (encodedHistogram w.symbols w.first).length ∧
      Reads wrds r.bfu r.position rest := by
  obtain ⟨hm, hm10, hlt⟩ := countBits_bounds w.length_symbols
  have htotal : total (multiplicity w.symbols) NBins = 1023 := by
    rw [total_multiplicity, w.length_symbols]
  have hn : w.nobits < 2 ^ 4 := Nat.lt_of_le_of_lt w.nobits_le (by decide)
  have hencoded : encodedHistogram w.symbols w.first = _ :=
    encodedHistogram_eq (h := ⟨0, 0, 0, 0, 0, 0, 0, w.nobits, fun _ => 0⟩) rfl w.first
  rw [hencoded] at hreads
  obtain ⟨r, hrun, hnr, hfirst, hnovr, hbins, hpos, hrest⟩ :=
    histDecode_spec undef hlt htotal hm hm10 hn bins hreads
  refine ⟨r, hrun, hnr, hfirst, hnovr, hbins, ?_, hrest⟩
  rw [hpos, hencoded, List.length_append, length_toBits]

/-- The table of the decoded histogram is that of the encoder. -/
theorem histIntegrate_eq (w : Waveform) {bins : Nat → Nat}
    (hbins : ∀ b < NBins, bins b = multiplicity w.symbols b) (table : Nat → Nat) :
    histIntegrate table bins NBins 0 = NBins ∧
      ∀ j ≤ NBins, histIntegrate table bins NBins (j + 1) = w.table j := by
  have htotals : ∀ j ≤ NBins, total bins j = w.table j := fun j hj =>
    total_congr fun i hi => hbins i (by omega)
  have hsmall : total bins NBins < 2 ^ 16 := by
    rw [htotals NBins (Nat.le_refl NBins), Waveform.table, total_multiplicity, w.length_symbols]
    decide
  obtain ⟨hzero, hsums⟩ := histIntegrate_spec hsmall (by decide) table
  exact ⟨hzero, fun j hj => (hsums j hj).trans (htotals j hj)⟩

end Waveform

/-- The table of `decode_data`. -/
theorem tableLoop_spec {hist : Histogram} {n : Nat} (hsmall : ∀ j < n, total hist.counts j < 2 ^ 16)
    (table : Nat → Nat) :
    (tableLoop hist table n).2 = total hist.counts n ∧ (tableLoop hist table n).1 0 = table 0 ∧
      ∀ j < n, (tableLoop hist table n).1 (j + 1) = total hist.counts j := by
  induction n with
  | zero => exact ⟨rfl, rfl, fun j hj => absurd hj (Nat.not_lt_zero j)⟩
  | succ n ih =>
    obtain ⟨htotal, hzero, hbefore⟩ := ih fun j hj => hsmall j (Nat.lt_succ_of_lt hj)
    have htable : (tableLoop hist table (n + 1)).1 =
        Function.update (tableLoop hist table n).1 (n + 1) (total hist.counts n) := by
      show Function.update (tableLoop hist table n).1 (n + 1)
        ((tableLoop hist table n).2 % 2 ^ 16) = _
      rw [htotal, Nat.mod_eq_of_lt (hsmall n (Nat.lt_succ_self n))]
    rw [htable]
    refine ⟨?_, ?_, ?_⟩
    · show (tableLoop hist table n).2 + hist.counts n = _
      rw [htotal, total_succ]
    · rw [Function.update_of_ne (Nat.succ_ne_zero n).symm, hzero]
    · intro j hj
      rcases Nat.lt_succ_iff_lt_or_eq.mp hj with hlt | rfl
      · rw [Function.update_of_ne (by omega), hbefore j hlt]
      · rw [Function.update_self]

/-- An occupied bin is not behind the last one. -/
theorem le_lastReaching {syms : List Symbol} {i : Nat} (hi : i ∈ syms.map binOf) :
    i ≤ lastReaching 1 syms := by
  have hlt : i < NBins := by
    obtain ⟨sym, -, rfl⟩ := List.mem_map.mp hi
    exact binOf_lt sym
  have hmem : i ∈ (Finset.range NBins).filter fun b => 1 ≤ multiplicity syms b :=
    Finset.mem_filter.mpr ⟨Finset.mem_range.mpr hlt, List.count_pos_iff.mpr hi⟩
  exact Finset.le_sup (f := id) hmem

theorem lastReaching_lt (k : Nat) (syms : List Symbol) : lastReaching k syms < NBins := by
  refine (Finset.sup_lt_iff (show ⊥ < NBins by decide)).mpr fun b hb => ?_
  exact Finset.mem_range.mp (Finset.mem_filter.mp hb).1

/-- The table of `decode_data` is that of the encoder up to the last occupied bin. -/
theorem Waveform.dataTable_eq (w : Waveform) {hist : Histogram} (hr : Represents hist w.symbols)
    (table : Nat → Nat) :
    dataTable hist table 0 = lastReaching 1 w.symbols + 1 ∧
      ∀ j ≤ lastReaching 1 w.symbols + 1, dataTable hist table (j + 1) = w.table j := by
  have hlast := lastReaching_lt 1 w.symbols
  have htotals : ∀ j ≤ NBins, total hist.counts j = w.table j := fun j hj =>
    total_congr fun i hi => hr.counts i (by omega)
  have hsmall : ∀ j < lastReaching 1 w.symbols + 1 + 1, total hist.counts j < 2 ^ 16 := by
    intro j hj
    have hT := cumulative_total w.length_symbols.le
    have hle := Nat.le_trans (hT.mono (show j ≤ NBins by omega) (Nat.le_refl NBins)) hT.top
    rw [htotals j (by omega), Waveform.table]
    omega
  obtain ⟨-, hzero, hsums⟩ := tableLoop_spec hsmall (Function.update table 0 (hist.lastgt0 + 1))
  unfold dataTable
  rw [hr.lastgt0] at hzero hsums ⊢
  refine ⟨?_, ?_⟩
  · rw [hzero, Function.update_self]
  · intro j hj
    rw [hsums j (by omega), htotals j (by omega)]

/-! ## The samples of `decode_data` -/

theorem symLoop_succ {next : SymState → Option (Nat × SymState)} {n : Nat} {s s' : SymState}
    {syms : List Nat} (h : symLoop next (n + 1) s = some (syms, s')) :
    ∃ sym s₁ rest, next s = some (sym, s₁) ∧ symLoop next n s₁ = some (rest, s') ∧
      syms = sym :: rest := by
  rw [symLoop] at h
  obtain ⟨⟨sym, s₁⟩, hnext, hrest⟩ := Option.bind_eq_some_iff.mp h
  obtain ⟨⟨rest, s₂⟩, hloop, hsome⟩ := Option.bind_eq_some_iff.mp hrest
  obtain ⟨hlist, rfl⟩ := Prod.mk.inj (Option.some.inj hsome)
  exact ⟨sym, s₁, rest, hnext, hloop, hlist.symm⟩

/-- `decode_data` restores the samples until it gives up. -/
theorem dataLoop_spec {next : SymState → Option (Nat × SymState)} {s s' : SymState}
    {syms : List Nat} (prv : Int) (nerrs : Nat) (adc : AdcIn) {adcs : List AdcIn}
    (h : symLoop next adcs.length s = some (syms, s')) :
    ∃ dadcs failed, dataLoop next prv nerrs s adc adcs = some (dadcs, failed) ∧
      dadcs <+: (prv % 2 ^ 16).toNat :: restoreFrom prv syms ∧
      (failed = false → dadcs = (prv % 2 ^ 16).toNat :: restoreFrom prv syms) := by
  induction adcs generalizing s syms prv nerrs adc with
  | nil =>
    obtain ⟨rfl, -⟩ := Prod.mk.inj (Option.some.inj h)
    unfold dataLoop
    dsimp only
    cases countErrors nerrs (prv % 2 ^ 16).toNat adc.toNat with
    | none => exact ⟨_, _, rfl, List.prefix_refl _, fun _ => rfl⟩
    | some nerrs => exact ⟨_, _, rfl, List.prefix_refl _, fun _ => rfl⟩
  | cons adc' adcs ih =>
    obtain ⟨sym, s₁, rest, hnext, hloop, rfl⟩ := symLoop_succ h
    unfold dataLoop
    dsimp only
    cases countErrors nerrs (prv % 2 ^ 16).toNat adc.toNat with
    | none =>
      refine ⟨_, _, rfl, ?_, fun hfalse => Bool.noConfusion hfalse⟩
      exact List.prefix_append [(prv % 2 ^ 16).toNat] _
    | some nerrs =>
      obtain ⟨dadcs, failed, hrun, hprefix, hall⟩ := ih (prv + restore sym) nerrs adc' hloop
      refine ⟨(prv % 2 ^ 16).toNat :: dadcs, failed, ?_, ?_, ?_⟩
      · dsimp only
        rw [hnext, Option.bind_eq_bind, Option.bind_some]
        dsimp only
        rw [hrun]
        rfl
      · exact List.cons_prefix_cons.mpr ⟨rfl, hprefix⟩
      · intro hfalse
        rw [hall hfalse]
        rfl

/-- It does not give up where the samples are those it is given. -/
theorem dataLoop_same {next : SymState → Option (Nat × SymState)} {s s' : SymState}
    {syms : List Nat} (prv : Int) {adc : AdcIn} {adcs : List AdcIn}
    (h : symLoop next adcs.length s = some (syms, s'))
    (hsame : (prv % 2 ^ 16).toNat :: restoreFrom prv syms = (adc :: adcs).map BitVec.toNat) :
    dataLoop next prv 0 s adc adcs = some ((adc :: adcs).map BitVec.toNat, false) := by
  induction adcs generalizing s syms prv adc with
  | nil =>
    obtain ⟨rfl, -⟩ := Prod.mk.inj (Option.some.inj h)
    obtain ⟨hadc, -⟩ := List.cons.inj hsame
    unfold dataLoop countErrors
    rw [hadc]
    simp
  | cons adc' adcs ih =>
    obtain ⟨sym, s₁, rest, hnext, hloop, rfl⟩ := symLoop_succ h
    obtain ⟨hadc, hrest⟩ := List.cons.inj hsame
    have hrun := ih (prv + restore sym) hloop hrest
    have hcount : countErrors 0 (prv % 2 ^ 16).toNat adc.toNat = some 0 := by
      unfold countErrors
      rw [hadc, if_neg (not_not.mpr rfl)]
    unfold dataLoop
    dsimp only
    rw [hcount]
    dsimp only
    rw [hnext, Option.bind_eq_bind, Option.bind_some]
    dsimp only
    rw [hrun, hadc]
    rfl

/-! ## The copied streams -/

/-- `copy` gives the bits of a stream to a buffer that is large enough. -/
theorem copy_spec (buf : WordArray) (os : OStream) (hroom : (os.cidx + 63) / 64 ≤ buf.size) :
    ∃ wrds, copy buf os = some wrds ∧ wrds.size = buf.size ∧
      Holds wrds.word 0 (Ending.transfer.bits os) := by
  refine ⟨_, if_pos hroom, rfl, ?_⟩
  dsimp only
  generalize hb : (fun i => if i < os.cidx / 64 then os.buf i
    else if i = os.cidx / 64 ∧ os.cidx % 64 ≠ 0 then os.ccur <<< (64 - os.cidx % 64)
    else buf.word i) = b
  have hword : (fun i => (if i < os.cidx / 64 then os.buf i
      else if i = os.cidx / 64 ∧ os.cidx % 64 ≠ 0 then os.ccur <<< (64 - os.cidx % 64)
      else buf.word i) % 2 ^ 64) = fun i => b i % 2 ^ 64 := by
    rw [← hb]
  have hfull : words os.buf (os.cidx / 64) = words b (os.cidx / 64) := by
    rw [← hb]
    exact words_congr fun i hi => (if_pos hi).symm
  rw [hword]
  show Holds _ 0 (words os.buf (os.cidx / 64) ++ toBits (os.cidx % 64) os.ccur)
  rw [Holds.append, hfull, length_words, Nat.zero_add]
  constructor
  · rw [holds_iff, length_words, words_eq_bitsAt]
  · have hleft : os.cidx % 64 < 64 := Nat.mod_lt _ (Nat.zero_lt_succ 63)
    by_cases hpart : os.cidx % 64 = 0
    · rw [hpart, toBits_zero]
      exact fun i hi => absurd hi (Nat.not_lt_zero i)
    · -- the bits of the partial word come first in the last one
      have hlast : b (os.cidx / 64) = os.ccur <<< (64 - os.cidx % 64) := by
        rw [← hb]
        dsimp only
        rw [if_neg (Nat.lt_irrefl _), if_pos ⟨rfl, hpart⟩]
      have hshift := toBits_shift_mod_or (Nat.two_pow_pos (64 - os.cidx % 64)) (w := 64)
        (m := os.cidx % 64) (by omega) os.ccur
      rw [Nat.or_zero, toBits_append] at hshift
      have hfirst := (List.append_inj hshift (by rw [length_toBits, length_toBits])).1
      rw [holds_iff, length_toBits, bitsAt_word _ (by omega), Nat.mul_mod_right, Nat.zero_add,
        Nat.mul_div_cancel_left _ (Nat.zero_lt_succ 63), hlast, hfirst]

/-- The static arrays of `encode_check`. -/
structure CheckArrays where
  hbuf : WordArray
  ebuf : WordArray
  size_hbuf : hbuf.size = 256
  size_ebuf : ebuf.size = 271

/-- `encode_check`: the two streams are copied and decoded. -/
def encodeCheck (undef : Nat) (bins table : Nat → Nat) (arrays : CheckArrays) (etx : EtxOut)
    (hist : Histogram) (adc : AdcIn) (adcs : List AdcIn) : Option (List Nat × Bool) := do
  let hbuf ← copy arrays.hbuf etx.ha
  let ebuf ← copy arrays.ebuf etx.ba
  decodeData undef bins table ebuf hbuf ⟨hbuf.word 0, 0⟩ hist adc adcs

namespace Waveform

/-- The samples that the symbols restore. -/
def restored (w : Waveform) : List Nat :=
  w.first.toNat :: restoreFrom w.first.toNat (w.symbols.map BitVec.toNat)

/-- **`decode_data`** takes the symbols from the two streams. -/
theorem decodeData_spec (w : Waveform) (undef : Nat) (bins table : Nat → Nat) {hist : Histogram}
    (hr : Represents hist w.symbols) {ebuf obuf : WordArray} (obfu : Bfu)
    (hpos : obfu.val = 0)
    (hreads : Reads obuf obfu 0 (encodedHistogram w.symbols w.first ++
      overflowBits w.nobits w.symbols))
    (hcode : Holds ebuf.word 0 (Firmware.apeEncode w.table w.idxs)) :
    ∃ next s s', symLoop next 1023 s = some (w.symbols.map BitVec.toNat, s') ∧
      ∀ adc adcs, decodeData undef bins table ebuf obuf obfu hist adc adcs =
        dataLoop next w.first.toNat 0 s adc adcs := by
  rw [← hpos] at hreads
  obtain ⟨r, hrun, hnr, hfirst, hnovr, -, -, hreads'⟩ := w.histDecode_eq undef bins hreads
  obtain ⟨hzero, htable⟩ := w.dataTable_eq hr table
  have hlast := lastReaching_lt 1 w.symbols
  obtain ⟨dtx, hdecodes, -⟩ := w.apdDecodes_eq hzero hlast htable
    (fun i hi => Nat.lt_succ_of_le (le_lastReaching hi)) ebuf.word 0 hcode
  rw [← w.length_symbols] at hdecodes ⊢
  rw [← List.append_nil (overflowBits w.nobits w.symbols)] at hreads'
  obtain ⟨bfu, hloop⟩ := symLoop_spec true w.nobits_le
    (fun sym hsym => Nat.lt_of_le_of_lt (le_maxOverflow hsym) (Nat.lt_size_self _))
    (counted_symbolsFrom w.first w.rest) (.inr (.inl rfl)) hdecodes hreads'
  refine ⟨_, _, _, hloop, fun adc adcs => ?_⟩
  rw [decodeData, hrun, Option.bind_eq_bind, Option.bind_some, hnr, hfirst, hnovr]

/-- The copies of the two streams of `APE_encode`. -/
theorem copies_spec (w : Waveform) (arrays : CheckArrays) {out : EtxOut}
    (hha : Ending.transfer.bits out.ha =
      encodedHistogram w.symbols w.first ++ overflowBits w.nobits w.symbols)
    (hba : Ending.transfer.bits out.ba = Firmware.apeEncode w.table w.idxs) :
    ∃ hbuf ebuf, copy arrays.hbuf out.ha = some hbuf ∧ copy arrays.ebuf out.ba = some ebuf ∧
      Reads hbuf ⟨hbuf.word 0, 0⟩ 0
        (encodedHistogram w.symbols w.first ++ overflowBits w.nobits w.symbols) ∧
      Holds ebuf.word 0 (Firmware.apeEncode w.table w.idxs) := by
  have hlenH : out.ha.cidx = w.haSizes.sum := by
    rw [sum_haSizes, ← hha]
    exact (length_contents _ _ _).symm
  have hlenB : out.ba.cidx = w.baSizes.sum := by
    rw [sum_baSizes, ← hba]
    exact (length_contents _ _ _).symm
  have hleH := w.sum_haSizes_le
  have hleB := w.sum_baSizes_le
  have hsizeH := arrays.size_hbuf
  have hsizeB := arrays.size_ebuf
  obtain ⟨hbuf, hcopyH, hsize, hholdsH⟩ := copy_spec arrays.hbuf out.ha (by omega)
  obtain ⟨ebuf, hcopyB, -, hholdsB⟩ := copy_spec arrays.ebuf out.ba (by omega)
  have hbits : (Ending.transfer.bits out.ha).length = out.ha.cidx := length_contents _ _ _
  rw [hha] at hholdsH hbits
  rw [hba] at hholdsB
  refine ⟨hbuf, ebuf, hcopyH, hcopyB, ⟨rfl, hholdsH, ?_, ?_⟩, hholdsB⟩
  · rw [hbits]
    omega
  · rw [hbits]
    omega

/-- `encode_check` takes the symbols from the streams of `APE_encode`. -/
theorem encodeCheck_spec (w : Waveform) (undef : Nat) (bins table : Nat → Nat)
    (arrays : CheckArrays) {hist : Histogram} (hr : Represents hist w.symbols) {out : EtxOut}
    (hha : Ending.transfer.bits out.ha =
      encodedHistogram w.symbols w.first ++ overflowBits w.nobits w.symbols)
    (hba : Ending.transfer.bits out.ba = Firmware.apeEncode w.table w.idxs) :
    ∃ next s s', symLoop next 1023 s = some (w.symbols.map BitVec.toNat, s') ∧
      ∀ adc adcs, encodeCheck undef bins table arrays out hist adc adcs =
        dataLoop next w.first.toNat 0 s adc adcs := by
  obtain ⟨hbuf, ebuf, hcopyH, hcopyB, hreads, hholds⟩ := w.copies_spec arrays hha hba
  obtain ⟨next, s, s', hloop, hrun⟩ :=
    w.decodeData_spec undef bins table hr ⟨hbuf.word 0, 0⟩ rfl hreads hholds
  refine ⟨next, s, s', hloop, fun adc adcs => ?_⟩
  rw [encodeCheck, hcopyH, Option.bind_eq_bind, Option.bind_some, hcopyB, Option.bind_some, hrun]

end Waveform

/-! ## The host and the firmware -/

theorem overflow_eq_none {sym : Symbol} : overflow sym = none ↔ sym.toNat < NBins := by
  unfold overflow
  split
  case isTrue h => exact ⟨nofun, fun hlt => absurd h (Nat.not_le.mpr hlt)⟩
  case isFalse h => exact ⟨fun _ => Nat.not_le.mp h, fun _ => rfl⟩

theorem maxOverflow_eq_zero {syms : List Symbol} :
    maxOverflow syms = 0 ↔ ∀ sym ∈ syms, sym.toNat ≤ NBins := by
  have hovr (sym : Symbol) : (overflow sym).getD 0 = 0 ↔ sym.toNat ≤ NBins := by
    unfold overflow
    split
    case isTrue h => exact Nat.sub_eq_zero_iff_le
    case isFalse h => exact iff_of_true rfl (by omega)
  constructor
  · intro h sym hsym
    have hle := le_maxOverflow hsym
    rw [← hovr]
    omega
  · intro h
    induction syms with
    | nil => rfl
    | cons sym syms ih =>
      have hzero := (hovr sym).mpr (h sym List.mem_cons_self)
      have hrest := ih fun x hx => h x (List.mem_cons_of_mem sym hx)
      unfold maxOverflow at hrest ⊢
      rw [List.filterMap_cons]
      cases hov : overflow sym with
      | none => exact hrest
      | some ovr =>
        rw [hov] at hzero
        obtain rfl : ovr = 0 := hzero
        exact (Nat.zero_max _).trans hrest

/-- Bin 0 counts the overflows. -/
theorem multiplicity_zero {syms : List Symbol} (h : Counted syms) :
    multiplicity syms 0 = (syms.filterMap overflow).length := by
  induction syms with
  | nil => rfl
  | cons sym syms ih =>
    have hrest := ih fun x hx => h x (List.mem_cons_of_mem sym hx)
    have hsym := h sym List.mem_cons_self
    rw [multiplicity, List.map_cons, List.count_cons, List.filterMap_cons]
    rw [multiplicity] at hrest
    cases hov : overflow sym with
    | none =>
      rw [hov] at hsym
      rw [if_neg (by rw [beq_iff_eq, hsym]; exact Bool.false_ne_true), hrest]
      rfl
    | some ovr =>
      rw [hov] at hsym
      rw [if_pos (beq_iff_eq.mpr (hsym.mpr rfl)), hrest]
      rfl

namespace Waveform

/-- No overflow, or one that is not 0: the overflows have bits. -/
def OverflowsReadable (w : Waveform) : Prop :=
  (∀ sym ∈ w.symbols, sym.toNat < NBins) ∨ ∃ sym ∈ w.symbols, NBins < sym.toNat

theorem overflowsReadable_iff (w : Waveform) :
    w.OverflowsReadable ↔ w.nobits ≠ 0 ∨ ∀ sym ∈ w.symbols, overflow sym = none := by
  have hnobits : w.nobits ≠ 0 ↔ ∃ sym ∈ w.symbols, NBins < sym.toNat := by
    rw [nobits, Ne, Nat.size_eq_zero, maxOverflow_eq_zero]
    push Not
    rfl
  rw [OverflowsReadable, hnobits, or_comm]
  simp only [overflow_eq_none]

/-- The host takes the symbols behind the overflows. -/
theorem symDecode_eq (w : Waveform) {table : Nat → Nat} (hzero : table 0 = NBins)
    (htable : ∀ j ≤ NBins, table (j + 1) = w.table j) (sym : Nat) {bfu : Bfu} {buf : WordArray}
    {pos : Nat} (hreads : Reads buf bfu pos (overflowBits w.nobits w.symbols ++
      Firmware.apeEncode w.table w.idxs)) :
    (w.OverflowsReadable → ∃ r, symDecode table sym bfu buf pos w.nobits = some r ∧
      r.syms = sym :: w.symbols.map BitVec.toNat ∧
      r.sympos = pos + (overflowBits w.nobits w.symbols).length) ∧
    (¬ w.OverflowsReadable → symDecode table sym bfu buf pos w.nobits = none) := by
  have hcounted : Counted w.symbols := counted_symbolsFrom w.first w.rest
  have hnovr : table 2 = (w.symbols.filterMap overflow).length := by
    rw [htable 1 (by decide), ← multiplicity_zero hcounted, Waveform.table, total_succ]
    exact Nat.zero_add _
  have hsympos : w.nobits * table 2 = (overflowBits w.nobits w.symbols).length := by
    rw [hnovr, overflowBits, List.length_flatMap]
    simp only [length_toBits, List.map_const', List.sum_replicate_nat, Nat.mul_comm]
  obtain ⟨dtx, hdecodes, -⟩ := w.apdDecodes_eq hzero (Nat.le_refl NBins) htable
    (fun i hi => (w.occupied i hi).1) buf.word _ (Holds.append.mp hreads.holds).2
  unfold symDecode
  dsimp only
  rw [hzero, hsympos]
  rw [overflowsReadable_iff]
  rw [← w.length_symbols] at hdecodes ⊢
  constructor
  · intro h
    obtain ⟨bfu', hloop⟩ := symLoop_spec false w.nobits_le
      (fun sym hsym => Nat.lt_of_le_of_lt (le_maxOverflow hsym) (Nat.lt_size_self _))
      hcounted (h.imp_right .inr) hdecodes hreads
    rw [hloop]
    exact ⟨_, rfl, rfl, rfl⟩
  · intro h
    rw [not_or, not_not] at h
    obtain ⟨hnone, hsome⟩ := h
    rw [hnone] at hdecodes
    have hloop := symLoop_eq_none buf bfu pos hcounted
      (by simpa [Option.isSome_iff_ne_none] using hsome) hdecodes
    rw [hnone, hloop]
    rfl

/-- The host decodes a channel where its overflows have bits, and not elsewhere. -/
theorem chanDecode_eq (w : Waveform) (undef : Nat) (bins table : Nat → Nat) {buf : WordArray}
    {pos : Nat} (hreads : Reads buf ⟨buf.word (pos / 64), pos⟩ pos
      ((encodedHistogram w.symbols w.first ++ overflowBits w.nobits w.symbols) ++
        Firmware.apeEncode w.table w.idxs)) :
    (w.OverflowsReadable → ∃ r, chanDecode undef bins table buf pos = some r ∧
      r.syms = w.first.toNat :: w.symbols.map BitVec.toNat ∧
      r.sympos = pos +
        (encodedHistogram w.symbols w.first ++ overflowBits w.nobits w.symbols).length) ∧
    (¬ w.OverflowsReadable → chanDecode undef bins table buf pos = none) := by
  have hinside := hreads.inside
  rw [List.append_assoc] at hreads
  obtain ⟨r, hrun, hnr, hfirst, hnovr, hbins, hpos, hreads'⟩ :=
    @histDecode_eq w undef bins buf ⟨buf.word (pos / 64), pos⟩ _ hreads
  obtain ⟨hzero, htable⟩ := w.histIntegrate_eq hbins table
  obtain ⟨hsome, hnone⟩ := w.symDecode_eq hzero htable w.first.toNat hreads'
  have hget : buf.get (bfuIndex pos) = some (buf.word (pos / 64)) := by
    have hindex : bfuIndex pos = pos / 64 := Nat.shiftRight_eq_div_pow pos 6
    rw [WordArray.get, hindex, if_pos (by omega)]
  have hchan : chanDecode undef bins table buf pos =
      symDecode (histIntegrate table r.bins NBins) w.first.toNat r.bfu buf r.position w.nobits := by
    rw [chanDecode, hget, Option.bind_eq_bind, Option.bind_some, hrun, ← hnr, ← hfirst, ← hnovr]
    rfl
  rw [hchan]
  refine ⟨fun h => ?_, hnone⟩
  obtain ⟨d, hd, hsyms, hsympos⟩ := hsome h
  refine ⟨d, hd, hsyms, ?_⟩
  rw [hsympos, hpos, List.length_append, Nat.add_assoc]

end Waveform

/-- The host decodes a channel, starts its symbols behind the overflows, and restores the samples
that `encode_check` takes from the same streams until it gives up. -/
def HostAgrees (undef : Nat) (bins table : Nat → Nat) (arrays : CheckArrays) (hist : Histogram)
    (out : EtxOut) (buf : WordArray) (position : Nat) : Prop :=
  ∃ r, chanDecode undef bins table buf position = some r ∧ r.syms.length = 1024 ∧
    r.sympos = position + (Ending.transfer.bits out.ha).length ∧
    ∀ (adc : AdcIn) (adcs : List AdcIn), adcs.length = 1023 →
      ∃ dadcs failed, encodeCheck undef bins table arrays out hist adc adcs = some (dadcs, failed) ∧
        dadcs <+: r.samples ∧ (failed = false → dadcs = r.samples)

/-- **The host agrees** with the firmware where a channel has no overflow, or one that is not 0.
Elsewhere it reads fields without bits, which is undefined. -/
theorem host_agrees_iff (w : Waveform) (stale staleOut : Histogram) (out out' : EtxOut)
    (apeTable : Nat → Nat)
    (hout : w.apeEncode (w.histogram stale staleOut) out apeTable = some out')
    (undef : Nat) (bins table : Nat → Nat) (arrays : CheckArrays) (buf : WordArray)
    (position : Nat)
    (hreads : Reads buf ⟨buf.word (position / 64), position⟩ position
      (Ending.transfer.bits out'.ha ++ Ending.transfer.bits out'.ba)) :
    HostAgrees undef bins table arrays (w.histogram stale staleOut) out' buf position ↔
      w.OverflowsReadable := by
  have hins : AllInsertable 0 w.baSizes := by
    by_contra hnot
    rw [w.apeEncode_eq_none stale staleOut out apeTable hnot] at hout
    cases hout
  obtain ⟨out₁, hrun, hha, hba⟩ := w.apeEncode_spec stale staleOut out apeTable hins
  obtain rfl := Option.some.inj (hout.symm.trans hrun)
  rw [hha, hba] at hreads
  obtain ⟨hsome, hnone⟩ := w.chanDecode_eq undef bins table hreads
  constructor
  · rintro ⟨r, hr, -⟩
    by_contra h
    rw [hnone h] at hr
    cases hr
  · intro h
    obtain ⟨r, hr, hsyms, hsympos⟩ := hsome h
    have hfirst : ((w.first.toNat : Int) % 2 ^ 16).toNat = w.first.toNat := by
      have hlt := w.first.isLt
      omega
    have hsamples : r.samples =
        ((w.first.toNat : Int) % 2 ^ 16).toNat :: restoreFrom w.first.toNat
          (w.symbols.map BitVec.toNat) := by
      rw [ChanDecoded.samples, hsyms, hfirst]
    refine ⟨r, hr, ?_, ?_, ?_⟩
    · rw [hsyms, List.length_cons, List.length_map, w.length_symbols]
    · rw [hsympos, hha]
    · intro adc adcs hlen
      obtain ⟨next, s, s', hloop, hcheck⟩ := w.encodeCheck_spec undef bins table arrays
        (w.represents_histogram stale staleOut) hha hba
      rw [← hlen] at hloop
      rw [hcheck, hsamples]
      exact dataLoop_spec _ 0 adc hloop

/-- Where nothing was written before. -/
def CheckArrays.blank : CheckArrays where
  hbuf := ⟨256, fun _ => 0, fun _ => Nat.two_pow_pos 64⟩
  ebuf := ⟨271, fun _ => 0, fun _ => Nat.two_pow_pos 64⟩
  size_hbuf := rfl
  size_ebuf := rfl

/-- The two streams of a ramp, one behind the other. -/
theorem exists_ramp (d : AdcIn) :
    ∃ out' buf, (Waveform.ramp d).apeEncode ((Waveform.ramp d).histogram leftBehind leftBehind)
        ⟨⟨0, 0, fun _ => 0⟩, ⟨0, 0, fun _ => 0⟩⟩ (fun _ => 0) = some out' ∧
      Reads buf ⟨buf.word (0 / 64), 0⟩ 0
        (Ending.transfer.bits out'.ha ++ Ending.transfer.bits out'.ba) ∧
      (¬ (Waveform.ramp d).OverflowsReadable →
        chanDecode 0 (fun _ => 0) (fun _ => 0) buf 0 = none) := by
  obtain ⟨out', hrun, hha, hba⟩ := (Waveform.ramp d).apeEncode_spec leftBehind leftBehind
    ⟨⟨0, 0, fun _ => 0⟩, ⟨0, 0, fun _ => 0⟩⟩ (fun _ => 0) (Waveform.allInsertable_ramp d)
  have hsmall : (Ending.transfer.bits out'.ha ++ Ending.transfer.bits out'.ba).length < 2 ^ 32 := by
    have hleH := (Waveform.ramp d).sum_haSizes_le
    have hleB := (Waveform.ramp d).sum_baSizes_le
    rw [Waveform.sum_haSizes, ← hha] at hleH
    rw [Waveform.sum_baSizes, ← hba] at hleB
    rw [List.length_append]
    omega
  have hreads := reads_ofBits hsmall
  refine ⟨out', _, hrun, hreads, ?_⟩
  rw [hha, hba] at hreads ⊢
  exact ((Waveform.ramp d).chanDecode_eq 0 (fun _ => 0) (fun _ => 0) hreads).2

/-- A channel that rises by 17 overflows at every step, by more than 0. -/
theorem host_agrees_steep :
    ∃ out' buf, (Waveform.ramp 17).apeEncode ((Waveform.ramp 17).histogram leftBehind leftBehind)
        ⟨⟨0, 0, fun _ => 0⟩, ⟨0, 0, fun _ => 0⟩⟩ (fun _ => 0) = some out' ∧
      (∀ sym ∈ (Waveform.ramp 17).symbols, overflow sym = some 2) ∧
      HostAgrees 0 (fun _ => 0) (fun _ => 0) .blank
        ((Waveform.ramp 17).histogram leftBehind leftBehind) out' buf 0 := by
  obtain ⟨out', buf, hrun, hreads, -⟩ := exists_ramp 17
  refine ⟨out', buf, hrun, fun sym hsym => ?_,
    (host_agrees_iff (Waveform.ramp 17) leftBehind leftBehind _ out' _ hrun 0 _ _ .blank buf 0
      hreads).mpr (.inr ⟨Histogram.symbol 17 0, ?_, by decide⟩)⟩
  · rw [Waveform.symbols_ramp] at hsym
    rw [List.eq_of_mem_replicate hsym]
    decide
  · rw [Waveform.symbols_ramp]
    exact List.mem_replicate.mpr ⟨Nat.succ_ne_zero 1022, rfl⟩

/-- A channel that rises by 16 has overflows of 0 only: the host reads them as fields of 0 bits. -/
theorem host_undefined_on_ramp : ¬ ∀ (w : Waveform) (stale staleOut : Histogram) (out out' : EtxOut)
    (apeTable : Nat → Nat),
    w.apeEncode (w.histogram stale staleOut) out apeTable = some out' →
    ∀ (undef : Nat) (bins table : Nat → Nat) (arrays : CheckArrays) (buf : WordArray)
      (position : Nat), Reads buf ⟨buf.word (position / 64), position⟩ position
        (Ending.transfer.bits out'.ha ++ Ending.transfer.bits out'.ba) →
      HostAgrees undef bins table arrays (w.histogram stale staleOut) out' buf position := by
  intro hall
  obtain ⟨out', buf, hrun, hreads, hnone⟩ := exists_ramp 16
  obtain ⟨r, hr, -⟩ := hall _ leftBehind leftBehind _ out' _ hrun 0 (fun _ => 0) (fun _ => 0) .blank
    buf 0 hreads
  have hsyms : ∀ sym ∈ (Waveform.ramp 16).symbols, sym.toNat = NBins := by
    intro sym hsym
    rw [Waveform.symbols_ramp] at hsym
    rw [List.eq_of_mem_replicate hsym]
    decide
  rw [hnone] at hr
  · cases hr
  · rintro (hlt | ⟨sym, hsym, hlt⟩)
    · have hmem : Histogram.symbol 16 0 ∈ (Waveform.ramp 16).symbols := by
        rw [Waveform.symbols_ramp]
        exact List.mem_replicate.mpr ⟨Nat.succ_ne_zero 1022, rfl⟩
      exact absurd (hlt _ hmem) (by rw [hsyms _ hmem]; exact Nat.lt_irrefl _)
    · rw [hsyms sym hsym] at hlt
      exact absurd hlt (Nat.lt_irrefl _)

end ProtoDune.Firmware
