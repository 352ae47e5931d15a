import ProtoDune.Firmware.ApeEncode
import ProtoDune.Firmware.Histogram
import ProtoDune.Lib.CodeEnds

/-!
# `AP-Encode.h`: the pending bits of a waveform

`compose` packs the bits of a symbol and all pending bits into 64. A symbol is
encoded with the table of its own waveform, so it may well leave the ends of the
code interval on the two sides of a point for a long time.

Main results:

* `composeSizes_le_iff` — what `compose` is given is what the symbol settles.
* `pending_fits_iff` — all calls fit exactly where no symbol settles too much.
* `drift_overflows` — the drift of a waveform that makes 96 bits pending.
-/

namespace ProtoDune.Firmware

open BitString ArithCoder

/-! ## The calls of `compose` -/

/-- `npending + nbits` at each call of `compose`, in the loop of `APE_encode` from a context on and
in `APE_finish`. -/
def composeSizes (table : Nat → Nat) (etx : Etx) : List Nat → List Nat
  | [] => [(apeFinish etx).2]
  | idx :: idxs =>
      let (etx', e) := encodeSym table etx idx
      (e.map Prod.snd).toList ++ composeSizes table etx' idxs

/-- The samples of a channel in a packet: `PACKET_K_NSAMPLES` of them. -/
structure Waveform where
  first : AdcIn
  rest : List AdcIn
  length_rest : rest.length = 1023

/-- The symbols of the samples after `prv`. -/
def symbolsFrom (prv : AdcIn) : List AdcIn → List Symbol
  | [] => []
  | cur :: rest => Histogram.symbol cur prv :: symbolsFrom cur rest

namespace Waveform

def symbols (w : Waveform) : List Symbol := symbolsFrom w.first w.rest

/-- The bins of the symbols, as `APE_encode` looks them up. -/
def idxs (w : Waveform) : List Nat := w.symbols.map binOf

/-- The histogram that the processing of the frames leaves for the packet. -/
def histogram (w : Waveform) (stale staleOut : Histogram) : Histogram :=
  (stale.clear.bumps staleOut.clear w.symbols).2

/-- The calls of `compose` in `APE_encode`, with the table that `Histogram::encode` writes. -/
def composeSizes (w : Waveform) (hist : Histogram) (os : OStream) (table : Nat → Nat) :
    Option (List Nat) := do
  let (_, _, table) ← hist.encode os ⟨0, 0⟩ table w.first
  some (Firmware.composeSizes table apeStart w.idxs)

/-- The cumulative counts of the symbols. -/
def table (w : Waveform) : Nat → Nat := total (multiplicity w.symbols)

/-- No symbol of the waveform settles more than `limit` bits of its code. -/
def SettlesAtMost (w : Waveform) (limit : Nat) : Prop :=
  CodeEnds.SettlesAtMost normNBits w.table limit (.start normNBits) w.idxs

end Waveform

theorem length_symbolsFrom (prv : AdcIn) (rest : List AdcIn) :
    (symbolsFrom prv rest).length = rest.length := by
  induction rest generalizing prv with
  | nil => rfl
  | cons cur rest ih => rw [symbolsFrom, List.length_cons, ih, List.length_cons]

theorem Waveform.length_symbols (w : Waveform) : w.symbols.length = 1023 :=
  (length_symbolsFrom w.first w.rest).trans w.length_rest

/-! ## The table -/

/-- The table of any symbols that fit a packet. -/
theorem cumulative_total {syms : List Symbol} (hlen : syms.length ≤ 1023) :
    Cumulative (total (multiplicity syms)) NBins where
  zero := rfl
  step i _ := total_mono _ (Nat.le_succ i)
  top := (total_multiplicity syms).le.trans hlen

/-- The bin of each symbol is occupied. -/
theorem occupied_of_mem {syms : List Symbol} {i : Nat} (hi : i ∈ syms.map binOf) :
    Occupied (total (multiplicity syms)) NBins i := by
  obtain ⟨sym, -, rfl⟩ := List.mem_map.mp hi
  refine ⟨binOf_lt sym, ?_⟩
  rw [total_succ]
  exact Nat.lt_add_of_pos_right (List.count_pos_iff.mpr hi)

/-- The calls depend on the table up to `NBins`. -/
theorem composeSizes_congr {T T' : Nat → Nat} (hT : ∀ j ≤ NBins, T' j = T j) {is : List Nat}
    (his : ∀ i ∈ is, i < NBins) (etx : Etx) : composeSizes T' etx is = composeSizes T etx is := by
  induction is generalizing etx with
  | nil => rfl
  | cons i is ih =>
    have hi := his i List.mem_cons_self
    have hsym : encodeSym T' etx i = encodeSym T etx i := by
      unfold encodeSym
      rw [hT i (Nat.le_of_lt hi), hT (i + 1) hi]
    rw [composeSizes, composeSizes, hsym]
    exact congrArg _ (ih (fun j hj => his j (List.mem_cons_of_mem i hj)) _)

/-! ## What a call is given -/

section

variable {T : Nat → Nat} {n : Nat} {bits : List Bool} {etx : Etx} {c : CodeEnds} {i : Nat}

/-- A pass takes the whole ends along. -/
theorem encodeSym_tracks (hT : Cumulative T n) (hcv : etx.cv.Normal quarter) (hi : Occupied T n i)
    (h : ArithCoder.Tracks quarter ⟨bits, etx.tofollow⟩ etx.cv c) :
    (encodeSym T etx i).1.cv.Normal quarter ∧
      ArithCoder.Tracks quarter
        ⟨bits ++ insertion (encodeSym T etx i).2, (encodeSym T etx i).1.tofollow⟩
        (encodeSym T etx i).1.cv (c.step normNBits T i) := by
  obtain ⟨ss, hss, hemit⟩ := encodeSym_expands hT hcv hi
  have hcode := hT.codable hi
  refine ⟨hss.normal (Interval.narrow_valid hcv hcode.1 hcode.2), ?_⟩
  rw [← hemit bits]
  exact h.step hcv hcode hss

/-- The bits settled by a symbol are those given to `compose`, if it is called. -/
theorem settled_step (hT : Cumulative T n) (hcv : etx.cv.Normal quarter) (hi : Occupied T n i)
    (h : ArithCoder.Tracks quarter ⟨bits, etx.tofollow⟩ etx.cv c) :
    (c.step normNBits T i).settled normNBits =
      c.settled normNBits + ((encodeSym T etx i).2.map Prod.snd).getD 0 := by
  obtain ⟨hcv', h'⟩ := encodeSym_tracks hT hcv hi h
  rw [h'.settled_eq hcv', h.settled_eq hcv, List.length_append]
  cases (encodeSym T etx i).2 with
  | none => rfl
  | some e => exact congrArg _ (length_toBits e.2 e.1)

/-- All calls fit exactly where each symbol, and the end, settles at most 64 bits. -/
theorem composeSizes_le_iff (hT : Cumulative T n) {is : List Nat} (his : ∀ i ∈ is, Occupied T n i)
    (hcv : etx.cv.Normal quarter) (h : ArithCoder.Tracks quarter ⟨bits, etx.tofollow⟩ etx.cv c)
    (limit : Nat) :
    (∀ size ∈ composeSizes T etx is, size ≤ limit) ↔
      CodeEnds.SettlesAtMost normNBits T limit c is := by
  induction is generalizing etx bits c with
  | nil =>
    have hdoublings : c.doublings = bits.length + etx.tofollow := h.doublings
    have hsize : (apeFinish etx).2 = 1 + (etx.tofollow + 1) := rfl
    rw [composeSizes, List.forall_mem_singleton, CodeEnds.SettlesAtMost, h.settled_eq hcv,
      hdoublings, hsize]
    dsimp only
    omega
  | cons i is ih =>
    have hi := his i List.mem_cons_self
    obtain ⟨hcv', h'⟩ := encodeSym_tracks hT hcv hi h
    have hrest := ih (fun j hj => his j (List.mem_cons_of_mem i hj)) hcv' h'
    rw [composeSizes, CodeEnds.SettlesAtMost, ← hrest, settled_step hT hcv hi h,
      List.forall_mem_append]
    refine and_congr_left fun _ => ?_
    cases (encodeSym T etx i).2 with
    | none => simp
    | some e => simp

end

namespace Waveform

theorem occupied (w : Waveform) : ∀ i ∈ w.idxs, Occupied w.table NBins i :=
  fun _ hi => occupied_of_mem hi

/-- The table is that of the symbols, whatever an earlier packet left behind. -/
theorem composeSizes_eq (w : Waveform) (stale staleOut : Histogram) (os : OStream)
    (table : Nat → Nat) : w.composeSizes (w.histogram stale staleOut) os table =
      some (Firmware.composeSizes w.table apeStart w.idxs) := by
  have hlen : w.symbols.length ≤ 1023 := w.length_symbols.le
  obtain ⟨hr, hs⟩ :=
    (represents_clear stale).bumps (sameContents_clear stale staleOut) w.symbols hlen
  obtain ⟨os', bs', table', hencode, -, -, htable⟩ :=
    (hs.represents hr).encode hlen w.first os ⟨0, 0⟩ table (by decide)
  unfold Waveform.composeSizes Waveform.histogram
  rw [hencode]
  exact congrArg some (composeSizes_congr htable (fun i hi => (w.occupied i hi).1) apeStart)

end Waveform

/-- **The pending bits.** Whatever an earlier packet left behind, all calls of `compose` for a
waveform fit 64 bits exactly where no symbol settles more bits of its code. -/
theorem pending_fits_iff (w : Waveform) (stale staleOut : Histogram) (os : OStream)
    (table : Nat → Nat) :
    ∃ sizes, w.composeSizes (w.histogram stale staleOut) os table = some sizes ∧
      ((∀ size ∈ sizes, size ≤ 64) ↔ w.SettlesAtMost 64) :=
  ⟨_, w.composeSizes_eq stale staleOut os table,
    composeSizes_le_iff (cumulative_total w.length_symbols.le) w.occupied apeStart_normal
      (.start normNBits) 64⟩

/-! ## A waveform that does not fit -/

/-- A slow drift: 16 steps up, 504 equal samples, 503 steps down. -/
def drift : Waveform where
  first := 1000
  rest := (List.range 16).map (fun i => BitVec.ofNat 12 (1001 + i)) ++ List.replicate 504 1016 ++
    (List.range 503).map fun i => BitVec.ofNat 12 (1015 - i)
  length_rest := by
    rw [List.length_append, List.length_append, List.length_map, List.length_map, List.length_range,
      List.length_range, List.length_replicate]

theorem drift_symbols : drift.symbols =
    List.replicate 16 2 ++ List.replicate 504 1 ++ List.replicate 503 3 := by decide +kernel

/-- The slice of a step up lies around the middle. -/
def driftTable (j : Nat) : Nat := [0, 0, 504, 520].getD j 1023

theorem drift_table {j : Nat} (hj : j ≤ NBins) : drift.table j = driftTable j := by
  have hcount (b : Nat) : multiplicity drift.symbols b =
      (if 2 = b then 16 else 0) + (if 1 = b then 504 else 0) + (if 3 = b then 503 else 0) := by
    have hbins : drift.symbols.map binOf =
        List.replicate 16 2 ++ List.replicate 504 1 ++ List.replicate 503 3 := by
      rw [drift_symbols, List.map_append, List.map_append, List.map_replicate, List.map_replicate,
        List.map_replicate]
      rfl
    rw [multiplicity, hbins, List.count_append, List.count_append, List.count_replicate,
      List.count_replicate, List.count_replicate]
    simp only [beq_iff_eq]
  have htable : drift.table j = total (fun b => (if 2 = b then 16 else 0) +
      (if 1 = b then 504 else 0) + (if 3 = b then 503 else 0)) j :=
    total_congr fun i _ => hcount i
  rw [htable]
  change j ≤ 32 at hj
  interval_cases j <;> rfl

/-- A call that comes after some symbols. -/
theorem mem_composeSizes {T : Nat → Nat} {etx : Etx} {is js : List Nat} {i : Nat} {e : Nat × Nat}
    (he : (encodeSym T (encodeSyms T etx is).1 i).2 = some e) :
    e.2 ∈ composeSizes T etx (is ++ i :: js) := by
  induction is generalizing etx with
  | nil =>
    have he' : (encodeSym T etx i).2 = some e := he
    rw [List.nil_append, composeSizes]
    dsimp only
    rw [he']
    exact List.mem_cons_self
  | cons k is ih =>
    rw [List.cons_append, composeSizes]
    exact List.mem_append_right _ (ih he)

/-- The 16 steps up leave 96 bits pending. -/
theorem drift_overflows : ¬ ∀ (w : Waveform) (stale staleOut : Histogram) (os : OStream)
    (table : Nat → Nat) (sizes : List Nat),
    w.composeSizes (w.histogram stale staleOut) os table = some sizes →
      ∀ size ∈ sizes, size ≤ 64 := by
  intro hall
  have hlast : (encodeSym driftTable (encodeSyms driftTable apeStart (List.replicate 16 2)).1 1).2 =
      some (2 ^ 96 - 1, 97) := by decide +kernel
  have hidxs : drift.idxs = List.replicate 16 2 ++ 1 ::
      (List.replicate 503 1 ++ List.replicate 503 3) := by
    rw [Waveform.idxs, drift_symbols, List.map_append, List.map_append, List.map_replicate,
      List.map_replicate, List.map_replicate, List.append_assoc]
    rfl
  have hsizes : composeSizes drift.table apeStart drift.idxs =
      composeSizes driftTable apeStart drift.idxs :=
    composeSizes_congr (fun j hj => drift_table hj) (fun i hi => (drift.occupied i hi).1) apeStart
  have hmem : 97 ∈ composeSizes driftTable apeStart drift.idxs := by
    rw [hidxs]
    exact mem_composeSizes hlast
  rw [← hsizes] at hmem
  have hle := hall drift ⟨0, 0, 0, 0, 0, 0, 0, 0, fun _ => 0⟩ ⟨0, 0, 0, 0, 0, 0, 0, 0, fun _ => 0⟩
    ⟨0, 0, fun _ => 0⟩ (fun _ => 0) _ (drift.composeSizes_eq _ _ _ _) 97 hmem
  exact absurd hle (by decide)

end ProtoDune.Firmware
