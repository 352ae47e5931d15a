import ProtoDune.Firmware.AxisBitStream
import ProtoDune.Firmware.BitStream64

/-!
# `PacketWrite.h`: packing the compressed channels

Each channel is encoded into two streams, the histogram with the overflows and
the encoded symbols. The channels of the four serial groups are interleaved and
packed one after the other.

Main results:

* `pack_carries` — `pack` appends the bits of one stream.
* `writeChannel_packed`, `writeN_packed` — one channel, and four of them.
* `write_adcs_packs` — all channels, their offsets and the padding.
-/

namespace ProtoDune.Firmware

open BitString

/-- `MODULE_K_NSERIAL`. -/
abbrev NSERIAL : Nat := 32

/-- `MODULE_K_NPARALLEL`. -/
abbrev NPARALLEL : Nat := 4

/-- `MODULE_K_NCHANNELS`. -/
abbrev NCHANS : Nat := NSERIAL * NPARALLEL

/-- `OStream::read`; undefined beyond the buffer. -/
def OStream.read (os : OStream) (idx : Nat) : Option Nat :=
  if idx < 256 then some (os.buf idx) else none

/-- `APE_etxOut`. -/
structure ApeEtxOut where
  ha : OStream
  ba : OStream

/-- One pass of the loop of `pack`: a whole word. -/
def packWord (ostream : OStream) (out : AxisBitStream × List AxisOut) (idx : Nat) :
    Option (AxisBitStream × List AxisOut) := do
  let data ← ostream.read idx
  return out.1.insert out.2 data 64

/-- `pack`. -/
def pack (bAxis : AxisBitStream) (mAxis : List AxisOut) (ostream : OStream) :
    Option (AxisBitStream × List AxisOut) := do
  let bleft := ostream.cidx % 2 ^ 32
  let cnt := bleft / 64
  let (bAxis, mAxis) ← (List.range cnt).foldlM (packWord ostream) (bAxis, mAxis)
  let nbits := bleft % 64
  if nbits ≠ 0 then return bAxis.insert mAxis ostream.ccur nbits else return (bAxis, mAxis)

/-- The static `bAxis` of `writeN`, the output stream and the offsets. -/
structure PackState where
  bAxis : AxisBitStream
  mAxis : List AxisOut
  offsets : Nat → Nat

/-- One pass of the loop of `writeN`; `offsets` starts at channel `ichan`. -/
def writeChannel (etx : Nat → ApeEtxOut) (ichan : Nat) (s : PackState) (idx : Nat) :
    Option PackState := do
  let offsets := Function.update s.offsets (ichan + idx) s.bAxis.idx
  let (bAxis, mAxis) ← pack s.bAxis s.mAxis (etx idx).ha
  let (bAxis, mAxis) ← pack bAxis mAxis (etx idx).ba
  return { bAxis, mAxis, offsets }

/-- `writeN`. -/
def writeN (tAxis : AxisBitStream) (s : PackState) (etx : Nat → ApeEtxOut)
    (nstreams ichan : Nat) : Option PackState := do
  let s := if ichan = 0 then { s with bAxis := { idx := tAxis.idx, cur := 0 } } else s
  let s ← (List.range nstreams).foldlM (writeChannel etx ichan) s
  if ichan = 124 then
    let (bAxis, mAxis) := s.bAxis.flush s.mAxis
    return { bAxis, mAxis, offsets := Function.update s.offsets (ichan + nstreams) bAxis.idx }
  else return s

/-- `write_adcs`, with the streams that `encode4` makes of group `g`, element
`isg`; the state is the static one of `writeN`. -/
def writeAdcs (tAxis : AxisBitStream) (s : PackState) (encode4 : Nat → Nat → ApeEtxOut) :
    Option PackState :=
  (List.range NSERIAL).foldlM
    (fun s isg => writeN tAxis s (fun g => encode4 g isg) NPARALLEL (isg * 4)) s

/-! ## One stream -/

/-- A stream as `transfer` leaves it: `uint64_t` words, all in the buffer. -/
structure OStream.Filled (os : OStream) : Prop where
  buf_lt : ∀ i, os.buf i < 2 ^ 64
  ccur_lt : os.ccur < 2 ^ 64
  cidx_le : os.cidx / 64 ≤ 256

/-- The bit string of a stream. -/
def OStream.bits (os : OStream) : List Bool := contents os.buf os.ccur os.cidx

/-- The bit string of a channel. -/
def ApeEtxOut.bits (etx : ApeEtxOut) : List Bool := etx.ha.bits ++ etx.ba.bits

/-- Both streams of a channel are filled. -/
structure ApeEtxOut.Filled (etx : ApeEtxOut) : Prop where
  ha : etx.ha.Filled
  ba : etx.ba.Filled

theorem OStream.length_bits_lt {os : OStream} (h : os.Filled) : os.bits.length < 2 ^ 15 := by
  have hle := h.cidx_le
  rw [OStream.bits, length_contents]
  omega

section Pack

variable {axis₀ : List AxisOut} {start : Nat}

/-- The loop of `pack` appends whole words. -/
theorem packWords_carries {bAxis : AxisBitStream} {mAxis : List AxisOut} {bits : List Bool}
    (h : Carries axis₀ start bAxis mAxis bits) {os : OStream} (hos : os.Filled) {cnt : Nat}
    (hcnt : cnt ≤ os.cidx / 64) :
    ∃ bAxis' mAxis',
      (List.range cnt).foldlM (packWord os) (bAxis, mAxis) = some (bAxis', mAxis') ∧
        Carries axis₀ start bAxis' mAxis' (bits ++ words os.buf cnt) := by
  have hle := hos.cidx_le
  induction cnt with
  | zero => exact ⟨bAxis, mAxis, rfl, by rw [words, List.append_nil]; exact h⟩
  | succ cnt ih =>
      obtain ⟨bAxis', mAxis', hrun, hcarries⟩ := ih (by omega)
      have hread : os.read cnt = some (os.buf cnt) := if_pos (by omega)
      have hnext := hcarries.insert (Nat.le_refl 64) (hos.buf_lt cnt)
      refine ⟨(bAxis'.insert mAxis' (os.buf cnt) 64).1, (bAxis'.insert mAxis' (os.buf cnt) 64).2,
        ?_, ?_⟩
      · rw [List.range_succ, List.foldlM_append, hrun]
        simp only [List.foldlM_cons, List.foldlM_nil, packWord, hread, Option.bind_eq_bind,
          Option.bind_some, Option.pure_def]
      · rw [words, ← List.append_assoc]
        exact hnext

/-- **Pack.** The bits of the stream are appended. -/
theorem pack_carries {bAxis : AxisBitStream} {mAxis : List AxisOut} {bits : List Bool}
    (h : Carries axis₀ start bAxis mAxis bits) {os : OStream} (hos : os.Filled) :
    ∃ bAxis' mAxis', pack bAxis mAxis os = some (bAxis', mAxis') ∧
      Carries axis₀ start bAxis' mAxis' (bits ++ os.bits) := by
  have hle := hos.cidx_le
  have hcidx : os.cidx % 2 ^ 32 = os.cidx := Nat.mod_eq_of_lt (by omega)
  obtain ⟨bAxis', mAxis', hrun, hcarries⟩ := packWords_carries h hos (Nat.le_refl _)
  unfold pack
  dsimp only
  rw [hcidx, hrun, Option.bind_eq_bind, Option.bind_some]
  by_cases hzero : os.cidx % 64 = 0
  · refine ⟨bAxis', mAxis', if_neg (not_not.mpr hzero), ?_⟩
    rw [OStream.bits, contents, hzero, toBits_zero, List.append_nil]
    exact hcarries
  · refine ⟨_, _, if_pos hzero, ?_⟩
    rw [OStream.bits, contents, ← List.append_assoc]
    exact hcarries.insert (Nat.le_of_lt (Nat.mod_lt _ (by decide))) hos.ccur_lt

end Pack

/-! ## All channels -/

/-- The bit string of the channels before `n`: channel `c` is element `c / 4` of
group `c % 4`. -/
def channelBits (encode4 : Nat → Nat → ApeEtxOut) : Nat → List Bool
  | 0 => []
  | n + 1 => channelBits encode4 n ++ (encode4 (n % 4) (n / 4)).bits

/-- The channels before `n` were written, and their offsets noted. -/
structure Packed (axis₀ : List AxisOut) (start : Nat) (encode4 : Nat → Nat → ApeEtxOut)
    (n : Nat) (s : PackState) : Prop where
  carries : Carries axis₀ start s.bAxis s.mAxis (channelBits encode4 n)
  offsets_eq : ∀ c < n, s.offsets c = (start + (channelBits encode4 c).length) % 2 ^ 32

section Channels

variable {axis₀ : List AxisOut} {start : Nat} {encode4 : Nat → Nat → ApeEtxOut}

theorem writeChannel_packed {isg g : Nat} (hg : g < 4) {s : PackState}
    (h : Packed axis₀ start encode4 (isg * 4 + g) s) (hfilled : (encode4 g isg).Filled) :
    ∃ s', writeChannel (fun g => encode4 g isg) (isg * 4) s g = some s' ∧
      Packed axis₀ start encode4 (isg * 4 + g + 1) s' := by
  obtain ⟨bAxis₁, mAxis₁, hrun₁, hcarries₁⟩ := pack_carries h.carries hfilled.ha
  obtain ⟨bAxis₂, mAxis₂, hrun₂, hcarries₂⟩ := pack_carries hcarries₁ hfilled.ba
  refine ⟨⟨bAxis₂, mAxis₂, Function.update s.offsets (isg * 4 + g) s.bAxis.idx⟩, ?_, ?_, ?_⟩
  · unfold writeChannel
    rw [hrun₁, Option.bind_eq_bind, Option.bind_some]
    dsimp only
    rw [hrun₂]
    rfl
  · rw [channelBits, show (isg * 4 + g) % 4 = g by omega, show (isg * 4 + g) / 4 = isg by omega,
      ApeEtxOut.bits, ← List.append_assoc]
    exact hcarries₂
  · intro c hc
    show Function.update s.offsets (isg * 4 + g) s.bAxis.idx c = _
    rcases Nat.lt_or_eq_of_le (Nat.le_of_lt_succ hc) with hlt | rfl
    · rw [Function.update_of_ne (Nat.ne_of_lt hlt), h.offsets_eq c hlt]
    · rw [Function.update_self, h.carries.idx_eq]

theorem writeChannels_packed {isg n : Nat} (hn : n ≤ 4) {s : PackState}
    (h : Packed axis₀ start encode4 (isg * 4) s) (hfilled : ∀ g < 4, (encode4 g isg).Filled) :
    ∃ s', (List.range n).foldlM (writeChannel (fun g => encode4 g isg) (isg * 4)) s = some s' ∧
      Packed axis₀ start encode4 (isg * 4 + n) s' := by
  induction n with
  | zero => exact ⟨s, rfl, h⟩
  | succ n ih =>
      obtain ⟨s', hrun, hpacked⟩ := ih (by omega)
      obtain ⟨s'', hrun', hpacked'⟩ := writeChannel_packed hn hpacked (hfilled n hn)
      refine ⟨s'', ?_, hpacked'⟩
      rw [List.range_succ, List.foldlM_append, hrun]
      simp only [List.foldlM_cons, List.foldlM_nil, Option.bind_eq_bind, Option.bind_some, hrun',
        Option.pure_def]

/-- The state a call of `writeN` starts from: the static stream is set up at
the first channel. -/
def startState (tAxis : AxisBitStream) (isg : Nat) (s : PackState) : PackState :=
  if isg * 4 = 0 then { s with bAxis := { idx := tAxis.idx, cur := 0 } } else s

/-- A call of `writeN` that is not the last packs four channels. -/
theorem writeN_packed {tAxis : AxisBitStream} {isg : Nat} (hisg : isg < 31) {s : PackState}
    (h : Packed axis₀ start encode4 (isg * 4) (startState tAxis isg s))
    (hfilled : ∀ g < 4, (encode4 g isg).Filled) :
    ∃ s', writeN tAxis s (fun g => encode4 g isg) NPARALLEL (isg * 4) = some s' ∧
      Packed axis₀ start encode4 ((isg + 1) * 4) s' := by
  obtain ⟨s', hrun, hpacked⟩ := writeChannels_packed (Nat.le_refl 4) h hfilled
  refine ⟨s', ?_, by rw [Nat.add_mul]; exact hpacked⟩
  unfold writeN
  dsimp only
  change Option.bind ((List.range 4).foldlM (writeChannel (fun g => encode4 g isg) (isg * 4))
    (startState tAxis isg s)) _ = _
  rw [hrun, Option.bind_some, if_neg (by omega)]
  rfl

/-- The last call flushes the residual bits. -/
theorem writeN_last {tAxis : AxisBitStream} {s : PackState}
    (h : Packed axis₀ start encode4 124 s) (hfilled : ∀ g < 4, (encode4 g 31).Filled) :
    ∃ (s' : PackState) (ws : List (BitVec 64)),
      writeN tAxis s (fun g => encode4 g 31) NPARALLEL 124 = some s' ∧
      s'.mAxis = axis₀ ++ ws.map payloadWord ∧
      wordBits ws = channelBits encode4 NCHANS ++
        List.replicate ((64 - (channelBits encode4 NCHANS).length % 64) % 64) false ∧
      ∀ c ≤ NCHANS, s'.offsets c = (start + (channelBits encode4 c).length) % 2 ^ 32 := by
  obtain ⟨s', hrun, hpacked⟩ := writeChannels_packed (Nat.le_refl 4) h hfilled
  obtain ⟨ws, hws, hbits, hidx⟩ := hpacked.carries.flush
  refine ⟨⟨(s'.bAxis.flush s'.mAxis).1, (s'.bAxis.flush s'.mAxis).2,
    Function.update s'.offsets NCHANS (s'.bAxis.flush s'.mAxis).1.idx⟩, ws, ?_, hws, hbits, ?_⟩
  · unfold writeN
    dsimp only
    rw [if_neg (by decide)]
    change Option.bind ((List.range 4).foldlM (writeChannel (fun g => encode4 g 31) (31 * 4)) s)
      _ = _
    rw [hrun, Option.bind_some, if_pos rfl]
    rfl
  · intro c hc
    show Function.update s'.offsets NCHANS _ c = _
    rcases Nat.lt_or_eq_of_le hc with hlt | rfl
    · rw [Function.update_of_ne (Nat.ne_of_lt hlt), hpacked.offsets_eq c hlt]
    · rw [Function.update_self, hidx, hpacked.carries.idx_eq]
      rfl

/-- The calls of `writeN` before the last. -/
theorem writeAdcs_packed {tAxis : AxisBitStream} (hword : 64 ∣ tAxis.idx)
    (hlt : tAxis.idx < 2 ^ 32) (hfilled : ∀ g < 4, ∀ isg < 32, (encode4 g isg).Filled)
    (s : PackState) {n : Nat} (hn : n ≤ 31) :
    ∃ s', (List.range n).foldlM
        (fun s isg => writeN tAxis s (fun g => encode4 g isg) NPARALLEL (isg * 4)) s = some s' ∧
      Packed s.mAxis tAxis.idx encode4 (n * 4) (startState tAxis n s') := by
  induction n with
  | zero =>
      refine ⟨s, rfl, Carries.nil s.mAxis hword hlt 0, fun c hc => ?_⟩
      exact absurd hc (Nat.not_lt_zero c)
  | succ n ih =>
      obtain ⟨s', hrun, hpacked⟩ := ih (by omega)
      obtain ⟨s'', hrun', hpacked'⟩ :=
        writeN_packed hn hpacked fun g hg => hfilled g hg n (by omega)
      have hstart : startState tAxis (n + 1) s'' = s'' := if_neg (by omega)
      refine ⟨s'', ?_, by rw [hstart]; exact hpacked'⟩
      rw [List.range_succ, List.foldlM_append, hrun]
      simp only [List.foldlM_cons, List.foldlM_nil, Option.bind_eq_bind, Option.bind_some, hrun',
        Option.pure_def]

theorem length_channelBits_lt {n : Nat} (hn : n ≤ NCHANS)
    (hfilled : ∀ g < 4, ∀ isg < 32, (encode4 g isg).Filled) :
    (channelBits encode4 n).length ≤ n * 2 ^ 16 := by
  induction n with
  | zero => exact Nat.le_refl 0
  | succ n ih =>
      have hle : n + 1 ≤ 128 := hn
      have hn' := hfilled (n % 4) (by omega) (n / 4) (by omega)
      have hha := OStream.length_bits_lt hn'.ha
      have hba := OStream.length_bits_lt hn'.ba
      have hle' := ih (Nat.le_of_succ_le hn)
      rw [channelBits, List.length_append, ApeEtxOut.bits, List.length_append]
      omega

end Channels

/-- **The packed channels.** After the header of `odx` words, the words put out
spell the channels in order, then zeros up to a word; `offsets c` is where
channel `c` starts and `offsets NCHANS` where the last one ends. The offsets are
`uint32_t`, so they are exact unless the header fills a quarter of a gigabyte. -/
theorem write_adcs_packs (encode4 : Nat → Nat → ApeEtxOut)
    (hfilled : ∀ g < 4, ∀ isg < 32, (encode4 g isg).Filled) (odx : Nat) (s : PackState) :
    ∃ (s' : PackState) (ws : List (BitVec 64)),
      writeAdcs ⟨0, odx <<< 6 % 2 ^ 32⟩ s encode4 = some s' ∧
      s'.mAxis = s.mAxis ++ ws.map payloadWord ∧
      wordBits ws = channelBits encode4 NCHANS ++
        List.replicate ((64 - (channelBits encode4 NCHANS).length % 64) % 64) false ∧
      ws.length = ((channelBits encode4 NCHANS).length + 63) / 64 ∧
      ∀ c ≤ NCHANS,
        s'.offsets c = (64 * odx + (channelBits encode4 c).length) % 2 ^ 32 ∧
        (odx < 2 ^ 25 → s'.offsets c = 64 * odx + (channelBits encode4 c).length) := by
  have hshift : odx <<< 6 = 64 * odx := by
    rw [Nat.shiftLeft_eq]
    omega
  have hword : 64 ∣ (⟨0, odx <<< 6 % 2 ^ 32⟩ : AxisBitStream).idx := by
    show 64 ∣ odx <<< 6 % 2 ^ 32
    omega
  obtain ⟨s₁, hrun₁, hpacked₁⟩ :=
    writeAdcs_packed hword (Nat.mod_lt _ (by decide)) hfilled s (Nat.le_refl 31)
  obtain ⟨s₂, ws, hrun₂, hws, hbits, hoffsets⟩ :=
    writeN_last hpacked₁ fun g hg => hfilled g hg 31 (by decide)
  refine ⟨s₂, ws, ?_, hws, hbits, ?_, fun c hc => ?_⟩
  · unfold writeAdcs
    rw [show NSERIAL = 31 + 1 from rfl, List.range_succ, List.foldlM_append, hrun₁]
    simp only [List.foldlM_cons, List.foldlM_nil, Option.bind_eq_bind, Option.bind_some]
    change Option.bind (writeN _ s₁ (fun g => encode4 g 31) NPARALLEL 124) _ = _
    rw [show writeN _ s₁ (fun g => encode4 g 31) NPARALLEL 124 = some s₂ from hrun₂]
    rfl
  · have hlen := congrArg List.length hbits
    rw [length_wordBits, List.length_append, List.length_replicate] at hlen
    omega
  · have hmod : s₂.offsets c = (64 * odx + (channelBits encode4 c).length) % 2 ^ 32 := by
      rw [hoffsets c hc, hshift, Nat.mod_add_mod]
    refine ⟨hmod, fun hodx => ?_⟩
    have hlen := length_channelBits_lt hc hfilled
    have hle : c ≤ 128 := hc
    rw [hmod]
    omega

/-- One word and three bits, twice. -/
def shortChannel : ApeEtxOut := ⟨⟨5, 67, fun _ => 7⟩, ⟨5, 67, fun _ => 7⟩⟩

theorem shortChannel_filled : shortChannel.Filled :=
  have hword : 7 < 2 ^ 64 := by decide
  ⟨⟨fun _ => hword, by decide, by decide⟩, ⟨fun _ => hword, by decide, by decide⟩⟩

theorem write_adcs_packs_short :
    ∃ (s' : PackState) (ws : List (BitVec 64)),
      writeAdcs ⟨0, 7 <<< 6 % 2 ^ 32⟩ ⟨⟨0, 0⟩, [], fun _ => 0⟩ (fun _ _ => shortChannel) = some s' ∧
      s'.mAxis = [] ++ ws.map payloadWord ∧
      wordBits ws = channelBits (fun _ _ => shortChannel) NCHANS ++
        List.replicate ((64 - (channelBits (fun _ _ => shortChannel) NCHANS).length % 64) % 64)
          false ∧
      ws.length = ((channelBits (fun _ _ => shortChannel) NCHANS).length + 63) / 64 ∧
      ∀ c ≤ NCHANS,
        s'.offsets c =
          (64 * 7 + (channelBits (fun _ _ => shortChannel) c).length) % 2 ^ 32 ∧
        (7 < 2 ^ 25 →
          s'.offsets c = 64 * 7 + (channelBits (fun _ _ => shortChannel) c).length) :=
  write_adcs_packs (fun _ _ => shortChannel) (fun _ _ _ _ => shortChannel_filled) 7
    ⟨⟨0, 0⟩, [], fun _ => 0⟩

end ProtoDune.Firmware
