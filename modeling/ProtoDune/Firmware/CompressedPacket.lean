import ProtoDune.Firmware.EncodedChannel
import ProtoDune.Firmware.PacketToc

/-!
# `PacketWrite.h`: a compressed packet

`write_packet` commits the header record, the compressed channels, the table of contents and the
two words that end every packet. The channels are encoded four at a time, right before they are
packed.

Main results:

* `CompressionContext.writeAdcs_spec` — the compressed channels.
* `writePacket_spec` — the words of a packet, and the monitor.
* `encode_of_writePacket` — where a packet is defined, every channel was encoded.
-/

namespace ProtoDune.Firmware

open BitString

/-- `CompressionContext`. -/
structure CompressionContext where
  adcs : Groups (Nat → AdcIn)
  hists : Groups Histogram

/-- `PACKET_K_NSAMPLES`. -/
abbrev NSAMPLES : Nat := 1024

/-- The samples of a channel, from their array. -/
def Waveform.ofAdcs (adcs : Nat → AdcIn) : Waveform where
  first := adcs 0
  rest := (List.range 1023).map fun i => adcs (i + 1)
  length_rest := by rw [List.length_map, List.length_range]

/-- What the local arrays of one channel hold before it is encoded: the container of the streams,
whose words are `uint64_t`, and the table. -/
structure EncodeBuffers where
  etxOut : EtxOut
  inWords : etxOut.InWords
  table : Nat → Nat

/-- `encode`: `APE_encode` of one channel. -/
def encode (buffers : EncodeBuffers) (hist : Histogram) (adcs : Nat → AdcIn) :
    Option ApeEtxOut := do
  let out ← (Waveform.ofAdcs adcs).apeEncode hist buffers.etxOut buffers.table
  return out.packed

/-- The `Container` of four streams. -/
def container (etx0 etx1 etx2 etx3 : ApeEtxOut) : Nat → ApeEtxOut
  | 0 => etx0
  | 1 => etx1
  | 2 => etx2
  | _ => etx3

namespace CompressionContext

/-- `encode4`. -/
def encode4 (ctx : CompressionContext) (buffers : Nat → EncodeBuffers) (isg : Nat) :
    Option (Nat → ApeEtxOut) := do
  let etx0 ← encode (buffers 0) (ctx.hists.sg0 isg) (ctx.adcs.sg0 isg)
  let etx1 ← encode (buffers 1) (ctx.hists.sg1 isg) (ctx.adcs.sg1 isg)
  let etx2 ← encode (buffers 2) (ctx.hists.sg2 isg) (ctx.adcs.sg2 isg)
  let etx3 ← encode (buffers 3) (ctx.hists.sg3 isg) (ctx.adcs.sg3 isg)
  return container etx0 etx1 etx2 etx3

/-- `write_adcs4`. -/
def writeAdcs4 (ctx : CompressionContext) (buffers : Nat → EncodeBuffers) (tAxis : AxisBitStream)
    (s : PackState) (isg : Nat) : Option PackState := do
  let etx ← ctx.encode4 buffers isg
  writeN tAxis s etx NPARALLEL (isg * 4)

/-- `write_adcs`. -/
def writeAdcs (ctx : CompressionContext) (buffers : Nat → Nat → EncodeBuffers)
    (tAxis : AxisBitStream) (s : PackState) : Option PackState :=
  (List.range NSERIAL).foldlM (fun s isg => ctx.writeAdcs4 (buffers isg) tAxis s isg) s

end CompressionContext

/-- The static variables of `write_packet`, and that of `writeN`. -/
structure PacketWriter where
  first : Bool
  lclMonitor : MonitorWrite
  maxBytes : Nat
  bAxis : AxisBitStream

/-- The local arrays of `write_packet`. -/
structure WriteBuffers where
  offsets : Nat → Nat
  encode : Nat → Nat → EncodeBuffers

/-- `write_packet`; the last component is what `monitorWrite` is set to. -/
def writePacket (buffers : WriteBuffers) (s : PacketWriter) (mAxis : List AxisOut)
    (pktCtx : PacketContext) (excsBuf : Nat → BitVec 64) (cmpCtx : CompressionContext) :
    Option (PacketWriter × List AxisOut × MonitorWrite) := do
  let lclMonitor := if s.first then ⟨0, 0, 0, 0⟩ else s.lclMonitor
  let status := pktCtx.status
  let (mAxis, odx) := pktCtx.commit excsBuf mAxis 0 true true status
  let bdx := odx <<< 6 % 2 ^ 32
  let packed ← cmpCtx.writeAdcs buffers.encode ⟨0, bdx⟩ ⟨s.bAxis, mAxis, buffers.offsets⟩
  let offsets := Function.update packed.offsets (NCHANS + 1) 0
  let odx := ((offsets NCHANS + 63) % 2 ^ 32) >>> 6
  let (mAxis, odx) := writeToc packed.mAxis odx NCHANS NSAMPLES offsets
  let (mAxis, odx) := epilogue mAxis odx .COMPRESSED status
  let nbytes := odx <<< 3 % 2 ^ 32
  let maxBytes := if s.maxBytes < nbytes then nbytes else s.maxBytes
  let lclMonitor :=
    { nbytes := (lclMonitor.nbytes + nbytes) % 2 ^ 32
      npackets := (lclMonitor.npackets + 1) % 2 ^ 32
      ndropped := maxBytes
      npromoted := nbytes }
  some (⟨false, lclMonitor, maxBytes, packed.bAxis⟩, mAxis, lclMonitor)

/-! ## Four channels -/

section Channels

variable {ctx : CompressionContext}

/-- Four channels and their arrays. -/
theorem Groups.channel_four {α : Type*} (x : Groups α) (isg : Nat) :
    x.channel (isg * 4 + 0) = x.sg0 isg ∧ x.channel (isg * 4 + 1) = x.sg1 isg ∧
      x.channel (isg * 4 + 2) = x.sg2 isg ∧ x.channel (isg * 4 + 3) = x.sg3 isg := by
  have hdiv {g : Nat} (hg : g < 4) : (isg * 4 + g) / 4 = isg := by omega
  have hmod {g : Nat} (hg : g < 4) : (isg * 4 + g) % 4 = g := by omega
  unfold Groups.channel
  rw [hdiv (show 0 < 4 by omega), hmod (show 0 < 4 by omega), hdiv (show 1 < 4 by omega),
    hmod (show 1 < 4 by omega), hdiv (show 2 < 4 by omega), hmod (show 2 < 4 by omega),
    hdiv (show 3 < 4 by omega), hmod (show 3 < 4 by omega)]
  exact ⟨rfl, rfl, rfl, rfl⟩

/-- `encode4` encodes each of its channels. -/
theorem encode_of_encode4 {buffers : Nat → EncodeBuffers} {isg : Nat} {etx : Nat → ApeEtxOut}
    (h : ctx.encode4 buffers isg = some etx) {g : Nat} (hg : g < 4) :
    encode (buffers g) (ctx.hists.channel (isg * 4 + g)) (ctx.adcs.channel (isg * 4 + g)) =
      some (etx g) := by
  obtain ⟨ha0, ha1, ha2, ha3⟩ := ctx.adcs.channel_four isg
  obtain ⟨hh0, hh1, hh2, hh3⟩ := ctx.hists.channel_four isg
  unfold CompressionContext.encode4 at h
  obtain ⟨etx0, h0, h⟩ := Option.bind_eq_some_iff.mp h
  obtain ⟨etx1, h1, h⟩ := Option.bind_eq_some_iff.mp h
  obtain ⟨etx2, h2, h⟩ := Option.bind_eq_some_iff.mp h
  obtain ⟨etx3, h3, h⟩ := Option.bind_eq_some_iff.mp h
  obtain rfl := Option.some.inj h
  have hcases : g = 0 ∨ g = 1 ∨ g = 2 ∨ g = 3 := by omega
  rcases hcases with rfl | rfl | rfl | rfl
  · rw [ha0, hh0]
    exact h0
  · rw [ha1, hh1]
    exact h1
  · rw [ha2, hh2]
    exact h2
  · rw [ha3, hh3]
    exact h3

theorem encode4_eq_some {buffers : Nat → EncodeBuffers} {isg : Nat} {etx : Nat → ApeEtxOut}
    (h : ∀ g < 4, encode (buffers g) (ctx.hists.channel (isg * 4 + g))
      (ctx.adcs.channel (isg * 4 + g)) = some (etx g)) :
    ctx.encode4 buffers isg = some (container (etx 0) (etx 1) (etx 2) (etx 3)) := by
  obtain ⟨ha0, ha1, ha2, ha3⟩ := ctx.adcs.channel_four isg
  obtain ⟨hh0, hh1, hh2, hh3⟩ := ctx.hists.channel_four isg
  have h0 := h 0 (by omega)
  have h1 := h 1 (by omega)
  have h2 := h 2 (by omega)
  have h3 := h 3 (by omega)
  rw [ha0, hh0] at h0
  rw [ha1, hh1] at h1
  rw [ha2, hh2] at h2
  rw [ha3, hh3] at h3
  unfold CompressionContext.encode4
  rw [h0, Option.bind_eq_bind, Option.bind_some, h1, Option.bind_some, h2, Option.bind_some, h3,
    Option.bind_some]
  rfl

theorem container_eq (etx : Nat → ApeEtxOut) :
    ∀ g < 4, container (etx 0) (etx 1) (etx 2) (etx 3) g = etx g := by
  intro g hg
  have hcases : g = 0 ∨ g = 1 ∨ g = 2 ∨ g = 3 := by omega
  rcases hcases with rfl | rfl | rfl | rfl <;> rfl

/-- `writeN` takes the streams of four channels only. -/
theorem writeN_congr {etx etx' : Nat → ApeEtxOut} (h : ∀ g < 4, etx' g = etx g)
    (tAxis : AxisBitStream) (s : PackState) (ichan : Nat) :
    writeN tAxis s etx' NPARALLEL ichan = writeN tAxis s etx NPARALLEL ichan := by
  have hchannel (s : PackState) {g : Nat} (hg : g < 4) :
      writeChannel etx' ichan s g = writeChannel etx ichan s g := by
    unfold writeChannel
    rw [h g hg]
  have hrange : List.range NPARALLEL = [0, 1, 2, 3] := rfl
  have hloop (s : PackState) : (List.range NPARALLEL).foldlM (writeChannel etx' ichan) s =
      (List.range NPARALLEL).foldlM (writeChannel etx ichan) s := by
    rw [hrange]
    simp only [List.foldlM_cons, List.foldlM_nil, hchannel _ (show 0 < 4 by omega),
      hchannel _ (show 1 < 4 by omega), hchannel _ (show 2 < 4 by omega),
      hchannel _ (show 3 < 4 by omega)]
  unfold writeN
  dsimp only
  simp only [hloop]

end Channels

/-! ## All channels -/

/-- The bit strings of the channels before `n`, one behind the other. -/
def packedBits (bits : Nat → List Bool) : Nat → List Bool
  | 0 => []
  | n + 1 => packedBits bits n ++ bits n

theorem packedBits_congr {bits bits' : Nat → List Bool} {n : Nat} (h : ∀ c < n, bits' c = bits c) :
    packedBits bits' n = packedBits bits n := by
  induction n with
  | zero => rfl
  | succ n ih =>
    rw [packedBits, packedBits, h n (Nat.lt_succ_self n),
      ih fun c hc => h c (Nat.lt_succ_of_lt hc)]

theorem channelBits_eq (etx : Nat → ApeEtxOut) (n : Nat) :
    channelBits (fun g isg => etx (isg * 4 + g)) n = packedBits (fun c => (etx c).bits) n := by
  induction n with
  | zero => rfl
  | succ n ih =>
    have hchannel : n / 4 * 4 + n % 4 = n := by omega
    rw [channelBits, packedBits, ih, hchannel]

section Adcs

variable {ctx : CompressionContext} {buffers : Nat → Nat → EncodeBuffers} {etx : Nat → ApeEtxOut}

/-- The streams that the channels are encoded to. -/
def Encodes4 (ctx : CompressionContext) (buffers : Nat → Nat → EncodeBuffers)
    (etx : Nat → ApeEtxOut) : Prop :=
  ∀ c < NCHANS, encode (buffers (c / 4) (c % 4)) (ctx.hists.channel c) (ctx.adcs.channel c) =
    some (etx c)

/-- Four channels are encoded and packed. -/
theorem Encodes4.writeAdcs4_eq (h : Encodes4 ctx buffers etx) (tAxis : AxisBitStream)
    (s : PackState) {isg : Nat} (hisg : isg < 32) :
    ctx.writeAdcs4 (buffers isg) tAxis s isg =
      writeN tAxis s (fun g => etx (isg * 4 + g)) NPARALLEL (isg * 4) := by
  have hfour : ∀ g < 4, encode (buffers isg g) (ctx.hists.channel (isg * 4 + g))
      (ctx.adcs.channel (isg * 4 + g)) = some (etx (isg * 4 + g)) := by
    intro g hg
    have hlt : isg * 4 + g < NCHANS := by
      show isg * 4 + g < 128
      omega
    have hdiv : (isg * 4 + g) / 4 = isg := by omega
    have hmod : (isg * 4 + g) % 4 = g := by omega
    have hchannel := h (isg * 4 + g) hlt
    rwa [hdiv, hmod] at hchannel
  have hencode : ctx.encode4 (buffers isg) isg = some (container (etx (isg * 4 + 0))
      (etx (isg * 4 + 1)) (etx (isg * 4 + 2)) (etx (isg * 4 + 3))) := encode4_eq_some hfour
  rw [CompressionContext.writeAdcs4, hencode, Option.bind_eq_bind, Option.bind_some]
  exact writeN_congr (container_eq fun g => etx (isg * 4 + g)) tAxis s _

/-- The passes before the last. -/
theorem Encodes4.writeAdcs_packed (h : Encodes4 ctx buffers etx)
    (hfilled : ∀ c < NCHANS, (etx c).Filled) {tAxis : AxisBitStream} (hword : 64 ∣ tAxis.idx)
    (hlt : tAxis.idx < 2 ^ 32) (s : PackState) {n : Nat} (hn : n ≤ 31) :
    ∃ s', (List.range n).foldlM (fun s isg => ctx.writeAdcs4 (buffers isg) tAxis s isg) s =
        some s' ∧
      Packed s.mAxis tAxis.idx (fun g isg => etx (isg * 4 + g)) (n * 4)
        (startState tAxis n s') := by
  induction n with
  | zero =>
    refine ⟨s, rfl, Carries.nil s.mAxis hword hlt 0, fun c hc => ?_⟩
    exact absurd hc (Nat.not_lt_zero c)
  | succ n ih =>
    obtain ⟨s', hrun, hpacked⟩ := ih (by omega)
    obtain ⟨s'', hrun', hpacked'⟩ := writeN_packed hn hpacked fun g hg =>
      hfilled (n * 4 + g) (by show n * 4 + g < 128; omega)
    have hstart : startState tAxis (n + 1) s'' = s'' := if_neg (by omega)
    refine ⟨s'', ?_, by rw [hstart]; exact hpacked'⟩
    rw [List.range_succ, List.foldlM_append, hrun]
    simp only [List.foldlM_cons, List.foldlM_nil, Option.bind_eq_bind, Option.bind_some,
      h.writeAdcs4_eq tAxis s' (show n < 32 by omega), hrun', Option.pure_def]

/-- **The compressed channels**, behind a header of `odx` words. -/
theorem CompressionContext.writeAdcs_spec (h : Encodes4 ctx buffers etx)
    (hfilled : ∀ c < NCHANS, (etx c).Filled) (odx : Nat) (s : PackState) :
    ∃ (s' : PackState) (ws : List (BitVec 64)),
      ctx.writeAdcs buffers ⟨0, odx <<< 6 % 2 ^ 32⟩ s = some s' ∧
      s'.mAxis = s.mAxis ++ ws.map payloadWord ∧
      wordBits ws = packedBits (fun c => (etx c).bits) NCHANS ++ List.replicate
        ((64 - (packedBits (fun c => (etx c).bits) NCHANS).length % 64) % 64) false ∧
      ∀ c ≤ NCHANS,
        s'.offsets c = (64 * odx + (packedBits (fun c => (etx c).bits) c).length) % 2 ^ 32 := by
  have hshift : odx <<< 6 = 64 * odx := by
    rw [Nat.shiftLeft_eq]
    omega
  have hword : 64 ∣ (⟨0, odx <<< 6 % 2 ^ 32⟩ : AxisBitStream).idx := by
    show 64 ∣ odx <<< 6 % 2 ^ 32
    omega
  obtain ⟨s₁, hrun₁, hpacked₁⟩ :=
    h.writeAdcs_packed hfilled hword (Nat.mod_lt _ (by decide)) s (Nat.le_refl 31)
  obtain ⟨s₂, ws, hrun₂, hws, hbits, hoffsets⟩ := writeN_last hpacked₁ fun g hg =>
    hfilled (31 * 4 + g) (by show 31 * 4 + g < 128; omega)
  rw [channelBits_eq] at hbits
  refine ⟨s₂, ws, ?_, hws, hbits, fun c hc => ?_⟩
  · unfold writeAdcs
    rw [show NSERIAL = 31 + 1 from rfl, List.range_succ, List.foldlM_append, hrun₁]
    simp only [List.foldlM_cons, List.foldlM_nil, Option.bind_eq_bind, Option.bind_some,
      h.writeAdcs4_eq _ s₁ (show 31 < 32 by omega)]
    change Option.bind (writeN _ s₁ (fun g => etx (31 * 4 + g)) NPARALLEL 124) _ = _
    rw [show writeN _ s₁ (fun g => etx (31 * 4 + g)) NPARALLEL 124 = some s₂ from hrun₂]
    rfl
  · rw [hoffsets c hc, channelBits_eq, hshift, Nat.mod_add_mod]

/-- A pass of a loop that is defined is defined. -/
theorem exists_of_foldlM_range {σ : Type} {f : σ → Nat → Option σ} {n : Nat} {s s' : σ}
    (h : (List.range n).foldlM f s = some s') {i : Nat} (hi : i < n) :
    ∃ s₁ s₂, f s₁ i = some s₂ := by
  induction n generalizing s' with
  | zero => exact absurd hi (Nat.not_lt_zero i)
  | succ n ih =>
    rw [List.range_succ, List.foldlM_append] at h
    obtain ⟨s₁, hbefore, hlast⟩ := Option.bind_eq_some_iff.mp h
    rcases Nat.lt_succ_iff_lt_or_eq.mp hi with hlt | rfl
    · exact ih hbefore hlt
    · rw [List.foldlM_cons] at hlast
      obtain ⟨s₂, hpass, -⟩ := Option.bind_eq_some_iff.mp hlast
      exact ⟨s₁, s₂, hpass⟩

/-- If the channels are written, each was encoded. -/
theorem CompressionContext.encode_of_writeAdcs {tAxis : AxisBitStream} {s s' : PackState}
    (h : ctx.writeAdcs buffers tAxis s = some s') {c : Nat} (hc : c < NCHANS) :
    ∃ out, encode (buffers (c / 4) (c % 4)) (ctx.hists.channel c) (ctx.adcs.channel c) =
      some out := by
  have hlt : c < 128 := hc
  obtain ⟨s₁, s₂, hpass⟩ := exists_of_foldlM_range h (show c / 4 < NSERIAL by
    show c / 4 < 32
    omega)
  obtain ⟨etx, hencode, -⟩ := Option.bind_eq_some_iff.mp hpass
  have hchannel : c / 4 * 4 + c % 4 = c := by omega
  have hsome := encode_of_encode4 hencode (Nat.mod_lt c (by omega))
  rw [hchannel] at hsome
  exact ⟨_, hsome⟩

end Adcs

/-! ## A packet -/

/-- The words of the header record. -/
def headerWords (pktCtx : PacketContext) (excsBuf : Nat → BitVec 64) : List (BitVec 64) :=
  recHeader pktCtx.status pktCtx.chdx pktCtx.cedx :: ((List.range pktCtx.chdx).map pktCtx.hdrsBuf ++
    (List.range ((pktCtx.cedx + 3) / 4)).map excsBuf)

/-- `commit` puts out the header record. -/
theorem PacketContext.commit_eq (pktCtx : PacketContext) (excsBuf : Nat → BitVec 64)
    (axis : List AxisOut) (odx : Nat) :
    pktCtx.commit excsBuf axis odx true true pktCtx.status =
      (axis ++ sofFirst (headerWords pktCtx excsBuf),
        odx + (headerWords pktCtx excsBuf).length) := by
  have hcount : (pktCtx.cedx + 3) >>> 2 = (pktCtx.cedx + 3) / 4 := Nat.shiftRight_eq_div_pow _ 2
  unfold PacketContext.commit
  dsimp only
  rw [hcount, commitWords_eq, commitWords_eq]
  refine Prod.ext ?_ ?_
  · simp [Firmware.commit, headerWords, sofFirst, Function.comp_def]
  · simp only [Firmware.commit, if_true, headerWords, List.length_cons, List.length_append,
      List.length_map, List.length_range]
    omega

/-- The words of a compressed packet: the header record, the compressed channels, the table of
contents, and the end. -/
def compressedWords (header ws : List (BitVec 64)) (offsets : Nat → Nat) (status : BitVec 32) :
    List AxisOut :=
  sofFirst header ++ (ws ++ tocWords NCHANS NSAMPLES offsets).map payloadWord ++
    epilogueWords .COMPRESSED status (header.length + ws.length + 66)

theorem length_compressedWords (header ws : List (BitVec 64)) (offsets : Nat → Nat)
    (status : BitVec 32) :
    (compressedWords header ws offsets status).length = header.length + ws.length + 68 := by
  rw [compressedWords, List.length_append, List.length_append, length_sofFirst, List.length_map,
    List.length_append, length_tocWords]
  show _ + (_ + (128 / 2 + 2)) + 2 = _
  omega

/-- The monitor after a packet of `nbytes` bytes. -/
def MonitorWrite.addPacket (m : MonitorWrite) (maxBytes nbytes : Nat) : MonitorWrite where
  nbytes := (m.nbytes + nbytes) % 2 ^ 32
  npackets := (m.npackets + 1) % 2 ^ 32
  ndropped := max maxBytes nbytes
  npromoted := nbytes

/-- The monitor before a packet: it is cleared by the first call. -/
def PacketWriter.monitor (s : PacketWriter) : MonitorWrite :=
  if s.first then ⟨0, 0, 0, 0⟩ else s.lclMonitor

/-- The words `ws` spell the channels, and the offsets say where each starts, behind a header of
`n` words. -/
structure Spells (bits : Nat → List Bool) (n : Nat) (ws : List (BitVec 64)) (offsets : Nat → Nat) :
    Prop where
  spelled : wordBits ws = packedBits bits NCHANS ++
    List.replicate ((64 - (packedBits bits NCHANS).length % 64) % 64) false
  starts : ∀ c ≤ NCHANS, offsets c = 64 * n + (packedBits bits c).length
  last : offsets (NCHANS + 1) = 0

section Packet

variable {ctx : CompressionContext} {buffers : WriteBuffers} {etx : Nat → ApeEtxOut}

theorem length_packedBits_le {n : Nat} (hn : n ≤ NCHANS)
    (hfilled : ∀ c < NCHANS, (etx c).Filled) :
    (packedBits (fun c => (etx c).bits) n).length ≤ n * 2 ^ 16 := by
  rw [← channelBits_eq]
  refine length_channelBits_lt hn fun g hg isg hisg => hfilled _ ?_
  show isg * 4 + g < 128
  omega

/-- What `write_packet` puts out behind the compressed channels, with `k` words before. -/
theorem writePacket_of_writeAdcs {s : PacketWriter} {mAxis : List AxisOut} {pktCtx : PacketContext}
    {excsBuf : Nat → BitVec 64} {packed : PackState} {k : Nat}
    (hrun : ctx.writeAdcs buffers.encode
      ⟨0, (headerWords pktCtx excsBuf).length <<< 6 % 2 ^ 32⟩
      ⟨s.bAxis, mAxis ++ sofFirst (headerWords pktCtx excsBuf), buffers.offsets⟩ = some packed)
    (hk : ((packed.offsets NCHANS + 63) % 2 ^ 32) >>> 6 = k) (hsmall : k < 2 ^ 28) :
    writePacket buffers s mAxis pktCtx excsBuf ctx =
      some (⟨false, s.monitor.addPacket s.maxBytes (8 * (k + 68)), max s.maxBytes (8 * (k + 68)),
          packed.bAxis⟩,
        packed.mAxis ++ (tocWords NCHANS NSAMPLES
          (Function.update packed.offsets (NCHANS + 1) 0)).map payloadWord ++
            epilogueWords .COMPRESSED pktCtx.status (k + 66),
        s.monitor.addPacket s.maxBytes (8 * (k + 68))) := by
  have hnext : Function.update packed.offsets (NCHANS + 1) 0 NCHANS = packed.offsets NCHANS :=
    Function.update_of_ne (Nat.ne_of_lt (Nat.lt_succ_self NCHANS)) _ _
  have hbytes : (k + 66 + 2) <<< 3 % 2 ^ 32 = 8 * (k + 68) := by
    rw [Nat.shiftLeft_eq]
    omega
  have hmax (a b : Nat) : (if a < b then b else a) = max a b := by
    split <;> omega
  have htoc : k + (NCHANS / 2 + 2) = k + 66 := rfl
  unfold writePacket
  dsimp only
  rw [PacketContext.commit_eq, Nat.zero_add, hrun, Option.bind_eq_bind, Option.bind_some, hnext, hk,
    writeToc_eq]
  dsimp only
  rw [epilogue_eq, hmax, htoc, hbytes]
  rfl

/-- **A packet** is written behind what the stream has, and the monitor counts its bytes. -/
theorem writePacket_spec (h : Encodes4 ctx buffers.encode etx)
    (hfilled : ∀ c < NCHANS, (etx c).Filled) (s : PacketWriter) (mAxis : List AxisOut)
    (pktCtx : PacketContext) (excsBuf : Nat → BitVec 64)
    (hsmall : (headerWords pktCtx excsBuf).length < 2 ^ 25) :
    ∃ s' ws offsets, Spells (fun c => (etx c).bits) (headerWords pktCtx excsBuf).length ws offsets ∧
      writePacket buffers s mAxis pktCtx excsBuf ctx =
        some (s', mAxis ++ compressedWords (headerWords pktCtx excsBuf) ws offsets pktCtx.status,
          s'.lclMonitor) ∧
      s'.first = false ∧
      s'.maxBytes = max s.maxBytes
        (8 * (compressedWords (headerWords pktCtx excsBuf) ws offsets pktCtx.status).length) ∧
      s'.lclMonitor = s.monitor.addPacket s.maxBytes
        (8 * (compressedWords (headerWords pktCtx excsBuf) ws offsets pktCtx.status).length) := by
  obtain ⟨packed, ws, hrun, haxis, hbits, hoffsets⟩ :=
    CompressionContext.writeAdcs_spec h hfilled (headerWords pktCtx excsBuf).length
      ⟨s.bAxis, mAxis ++ sofFirst (headerWords pktCtx excsBuf), buffers.offsets⟩
  have hlen := congrArg List.length hbits
  rw [length_wordBits, List.length_append, List.length_replicate] at hlen
  have hbound : (packedBits (fun c => (etx c).bits) NCHANS).length ≤ 2 ^ 23 :=
    length_packedBits_le (Nat.le_refl NCHANS) hfilled
  have hexact : ∀ c ≤ NCHANS, packed.offsets c = 64 * (headerWords pktCtx excsBuf).length +
      (packedBits (fun c => (etx c).bits) c).length := by
    intro c hc
    have hle := length_packedBits_le hc hfilled
    have hc' : c ≤ 128 := hc
    rw [hoffsets c hc, Nat.mod_eq_of_lt (by omega)]
  have hk : ((packed.offsets NCHANS + 63) % 2 ^ 32) >>> 6 =
      (headerWords pktCtx excsBuf).length + ws.length := by
    rw [hexact NCHANS (Nat.le_refl NCHANS), Nat.mod_eq_of_lt (by omega),
      Nat.shiftRight_eq_div_pow]
    generalize (packedBits (fun c => (etx c).bits) NCHANS).length = k at hlen
    omega
  have hspells : Spells (fun c => (etx c).bits) (headerWords pktCtx excsBuf).length ws
      (Function.update packed.offsets (NCHANS + 1) 0) := by
    refine ⟨hbits, fun c hc => ?_, Function.update_self ..⟩
    have hne : c ≠ NCHANS + 1 := by omega
    rw [Function.update_of_ne hne, hexact c hc]
  have hwrite := writePacket_of_writeAdcs hrun hk (by omega)
  rw [haxis, ← length_compressedWords (headerWords pktCtx excsBuf) ws
    (Function.update packed.offsets (NCHANS + 1) 0) pktCtx.status] at hwrite
  have hwords (n : Nat) : (mAxis ++ sofFirst (headerWords pktCtx excsBuf) ++ ws.map payloadWord) ++
      (tocWords NCHANS NSAMPLES (Function.update packed.offsets (NCHANS + 1) 0)).map payloadWord ++
        epilogueWords .COMPRESSED pktCtx.status n =
      mAxis ++ (sofFirst (headerWords pktCtx excsBuf) ++ (ws ++ tocWords NCHANS NSAMPLES
        (Function.update packed.offsets (NCHANS + 1) 0)).map payloadWord ++
          epilogueWords .COMPRESSED pktCtx.status n) := by
    rw [List.map_append]
    simp only [List.append_assoc]
  rw [hwords] at hwrite
  exact ⟨_, ws, _, hspells, hwrite, rfl, rfl, rfl⟩

/-- Where a channel cannot be encoded, the packet is undefined. -/
theorem encode_of_writePacket {s s' : PacketWriter} {mAxis mAxis' : List AxisOut}
    {pktCtx : PacketContext} {excsBuf : Nat → BitVec 64} {m : MonitorWrite}
    (h : writePacket buffers s mAxis pktCtx excsBuf ctx = some (s', mAxis', m)) {c : Nat}
    (hc : c < NCHANS) :
    ∃ out, encode (buffers.encode (c / 4) (c % 4)) (ctx.hists.channel c) (ctx.adcs.channel c) =
      some out := by
  unfold writePacket at h
  dsimp only at h
  obtain ⟨packed, hadcs, -⟩ := Option.bind_eq_some_iff.mp h
  exact CompressionContext.encode_of_writeAdcs hadcs hc

end Packet

end ProtoDune.Firmware
