import ProtoDune.Firmware.Lossless
import ProtoDune.Firmware.PacketAcquire
import ProtoDune.Firmware.PacketDecode
import ProtoDune.Firmware.WibAdcs
import ProtoDune.Lib.Framing

/-!
# `DuneDataCompressionCore.cpp`: the module, from frames to packets

`handle_packet` acquires 1024 frames and writes one packet. Its local variables hold anything
before, and the static ones what the packets before have left.

Main results:

* `handlePacket_spec` — a packet has the headers, the status and the channels of its frames.
* `core_run` — the packets and the write monitor of any run.
* `core_recovered_iff` — when the host finds all samples of a run.
* `quiet_recovered_iff` — for samples that change slowly.
-/

namespace ProtoDune.Firmware

open BitString

/-! ## The module -/

/-- The static variables: those of `ReadFrame::read`, `process_frame` and `write_packet`. -/
structure CoreState where
  ctx : ReadContext
  hdrLcl : HeaderContextLcl
  histsLcl : Nat → Histogram
  prv : Nat → AdcIn
  writer : PacketWriter

/-- What the local variables of `handle_packet` hold before: the frames, the contexts, and the
buffers of `write_packet`. -/
structure PacketLocals where
  frames : Nat → FrameBuffers
  pktCtx : PacketContext
  excsBuf : Nat → BitVec 64
  cmpCtx : CompressionContext
  write : WriteBuffers

/-- The streams, and the write monitor. -/
structure Ports where
  sAxis : List AxisIn
  mAxis : List AxisOut
  monitorWrite : MonitorWrite

/-- `handle_packet`. -/
def handlePacket (locals : PacketLocals) (s : CoreState) (ports : Ports) :
    Option (CoreState × Ports) := do
  let (acq, sAxis) ← acquirePacket locals.frames
    ⟨s.ctx, s.hdrLcl, locals.pktCtx, ⟨locals.cmpCtx.adcs, locals.cmpCtx.hists, s.histsLcl, s.prv⟩⟩
    ports.sAxis
  let (writer, mAxis, monitorWrite) ← writePacket locals.write s.writer ports.mAxis acq.pktCtx
    locals.excsBuf ⟨acq.channels.adcs, acq.channels.hists⟩
  some (⟨acq.ctx, acq.hdrLcl, acq.channels.histsLcl, acq.channels.prv, writer⟩,
    ⟨sAxis, mAxis, monitorWrite⟩)

/-- `DuneDataCompressionCore`, called `n` times. -/
def handlePackets : Nat → (Nat → PacketLocals) → CoreState → Ports → Option (CoreState × Ports)
  | 0, _, s, ports => some (s, ports)
  | n + 1, locals, s, ports => do
      let (s, ports) ← handlePacket (locals 0) s ports
      handlePackets n (fun p => locals (p + 1)) s ports

/-- The words of the frames of `n` packets. -/
def packetStream (rest : List AxisIn) : Nat → (Nat → Nat → Nat → AxisIn) → List AxisIn
  | 0, _ => rest
  | n + 1, src => frameStream (src 0) (packetStream rest n fun p => src (p + 1)) 1024 0

/-- The context before a packet: that of the packets before it. -/
def coreCtx (ctx : ReadContext) : (Nat → Nat → Nat → AxisIn) → Nat → ReadContext
  | _, 0 => ctx
  | src, p + 1 => coreCtx (ctxAt ctx (src 0) 1024) (fun q => src (q + 1)) p

/-! ## The words of a packet -/

/-- The status of a packet is that of its frames. -/
def HasStatus (ctx : ReadContext) (src : Nat → Nat → AxisIn) (status : BitVec 32) : Prop :=
  ∀ b, status.getLsbD b = true ↔
    b < 5 ∧ RaisedBy ctx src 0 b ∨ ∃ i, 0 < i ∧ i < 1024 ∧ RaisedBy ctx src i b

/-- The bit strings of the channels. -/
def packetBits (src : Nat → Nat → AxisIn) (c : Nat) : List Bool := (packetWave src c).channelBits

/-- The context of the headers of a packet. -/
def headerContext (src : Nat → Nat → AxisIn) (status : BitVec 32) : PacketContext where
  chdx := 7
  cedx := 0
  status := status
  hdrsBuf j :=
    if j = 2 then (src 1023 1).data else (src 0 ([0, 1, 1, 2, 3, 16, 17].getD j 0)).data

/-- The words of the header record of a packet. -/
def headerOf (src : Nat → Nat → AxisIn) (status : BitVec 32) : List (BitVec 64) :=
  headerWords (headerContext src status) fun _ => 0

/-- The offsets of a packet. -/
def offsetsOf (src : Nat → Nat → AxisIn) (c : Nat) : Nat :=
  if c ≤ NCHANS then 64 * 8 + (packedBits (packetBits src) c).length else 0

/-- The words of the packet for the frames `src`: the context is that before the first one. -/
def IsPacket (ctx : ReadContext) (src : Nat → Nat → AxisIn) (words : List AxisOut) : Prop :=
  ∃ status ws, HasStatus ctx src status ∧ Spells (packetBits src) 8 ws (offsetsOf src) ∧
    words = compressedWords (headerOf src status) ws (offsetsOf src) status

/-- The length of the packet in words. -/
def packetLength (src : Nat → Nat → AxisIn) : Nat :=
  76 + ((packedBits (packetBits src) NCHANS).length + 63) / 64

section Words

variable {ctx : ReadContext} {src : Nat → Nat → AxisIn} {words words' : List AxisOut}

theorem length_headerOf (src : Nat → Nat → AxisIn) (status : BitVec 32) :
    (headerOf src status).length = 8 := by
  have hcedx : (headerContext src status).cedx = 0 := rfl
  have hchdx : (headerContext src status).chdx = 7 := rfl
  rw [headerOf, length_headerWords, hcedx, hchdx]

theorem KeepsHeaders.headerWords_eq {pktCtx : PacketContext} (h : KeepsHeaders src 1023 pktCtx)
    (excsBuf : Nat → BitVec 64) :
    headerWords pktCtx excsBuf = headerOf src pktCtx.status := by
  have hhdrs : (List.range 7).map pktCtx.hdrsBuf =
      (List.range 7).map (headerContext src pktCtx.status).hdrsBuf := by
    refine List.map_congr_left fun j hj => ?_
    have hlt := List.mem_range.mp hj
    by_cases hj2 : j = 2
    · rw [hj2, h.last]
      rfl
    · rw [h.first j hlt hj2]
      exact (if_neg hj2).symm
  have hcedx : (headerContext src pktCtx.status).cedx = 0 := rfl
  have hnone : (0 + 3) / 4 = 0 := rfl
  unfold headerOf headerWords
  rw [h.chdx, h.cedx, hhdrs, hcedx, hnone]
  rfl

/-- The table of contents has the offsets of the channels, and 0 behind them. -/
theorem tocWords_congr {offsets offsets' : Nat → Nat}
    (h : ∀ c ≤ NCHANS + 1, offsets' c = offsets c) :
    tocWords NCHANS NSAMPLES offsets' = tocWords NCHANS NSAMPLES offsets := by
  unfold tocWords
  congr 1
  refine List.map_congr_left fun i hi => ?_
  have hlt : i < 128 / 2 + 1 := List.mem_range.mp hi
  have hle : 2 * i + 1 ≤ NCHANS + 1 := by
    show 2 * i + 1 ≤ 128 + 1
    omega
  unfold tocWord
  rw [h (2 * i) (by omega), h (2 * i + 1) hle]

theorem Spells.offsets_eq {ws : List (BitVec 64)} {offsets : Nat → Nat}
    (h : Spells (packetBits src) 8 ws offsets) :
    ∀ c ≤ NCHANS + 1, offsets c = offsetsOf src c := by
  intro c hc
  unfold offsetsOf
  rcases Nat.le_succ_iff.mp hc with hle | rfl
  · rw [if_pos hle, h.starts c hle]
  · rw [if_neg (Nat.not_succ_le_self NCHANS), h.last]

theorem Spells.congr {bits bits' : Nat → List Bool} {n : Nat} {ws : List (BitVec 64)}
    {offsets : Nat → Nat} (h : Spells bits n ws offsets) (hbits : ∀ c < NCHANS, bits' c = bits c) :
    Spells bits' n ws offsets := by
  refine ⟨?_, fun c hc => ?_, h.last⟩
  · rw [packedBits_congr hbits, h.spelled]
  · rw [packedBits_congr fun i hi => hbits i (Nat.lt_of_lt_of_le hi hc), h.starts c hc]

theorem Spells.canonical {ws : List (BitVec 64)} {offsets : Nat → Nat}
    (h : Spells (packetBits src) 8 ws offsets) : Spells (packetBits src) 8 ws (offsetsOf src) :=
  ⟨h.spelled, fun c hc => (h.offsets_eq c (Nat.le_succ_of_le hc)).symm.trans (h.starts c hc),
    (h.offsets_eq _ (Nat.le_refl _)).symm.trans h.last⟩

theorem Spells.length_eq {bits : Nat → List Bool} {n : Nat} {ws : List (BitVec 64)}
    {offsets : Nat → Nat} (h : Spells bits n ws offsets) :
    ws.length = ((packedBits bits NCHANS).length + 63) / 64 := by
  have hlen := congrArg List.length h.spelled
  rw [length_wordBits, List.length_append, List.length_replicate] at hlen
  generalize (packedBits bits NCHANS).length = k at hlen ⊢
  omega

theorem IsPacket.length_eq (h : IsPacket ctx src words) : words.length = packetLength src := by
  obtain ⟨status, ws, -, hspells, rfl⟩ := h
  rw [length_compressedWords, length_headerOf, hspells.length_eq, packetLength]
  omega

theorem last_sofFirst (ws : List (BitVec 64)) : ∀ w ∈ sofFirst ws, w.last = false := by
  intro w hw
  cases ws with
  | nil => exact absurd hw List.not_mem_nil
  | cons first ws =>
    rcases List.mem_cons.mp hw with rfl | hrest
    · rfl
    · obtain ⟨x, -, rfl⟩ := List.mem_map.mp hrest
      rfl

/-- A packet ends where its last word is marked, and nowhere else. -/
theorem IsPacket.isFrame (h : IsPacket ctx src words) : Framing.IsFrame AxisOut.last words := by
  obtain ⟨status, ws, -, -, rfl⟩ := h
  unfold compressedWords epilogueWords
  rw [← List.singleton_append, ← List.append_assoc]
  refine ⟨_, _, rfl, rfl, fun w hw => ?_⟩
  rcases List.mem_append.mp hw with hbefore | hid
  · rcases List.mem_append.mp hbefore with hheader | hpayload
    · exact last_sofFirst _ w hheader
    · obtain ⟨x, -, rfl⟩ := List.mem_map.mp hpayload
      rfl
  · rw [List.mem_singleton.mp hid]

/-- The words are determined by their bits. -/
theorem wordBits_injective : Function.Injective wordBits := by
  intro ws
  induction ws with
  | nil =>
    intro ws' h
    have hlen := congrArg List.length h
    rw [length_wordBits, length_wordBits, List.length_nil] at hlen
    exact (List.eq_nil_of_length_eq_zero (by omega)).symm
  | cons w ws ih =>
    intro ws' h
    cases ws' with
    | nil =>
      have hlen := congrArg List.length h
      rw [length_wordBits, length_wordBits, List.length_cons, List.length_nil] at hlen
      omega
    | cons w' ws' =>
      change toBits 64 w.toNat ++ wordBits ws = toBits 64 w'.toNat ++ wordBits ws' at h
      obtain ⟨hw, hws⟩ := List.append_inj h (by rw [length_toBits, length_toBits])
      have hbits := congrArg ofBits hw
      rw [ofBits_toBits, ofBits_toBits, Nat.mod_eq_of_lt w.isLt, Nat.mod_eq_of_lt w'.isLt] at hbits
      rw [BitVec.eq_of_toNat_eq hbits, ih hws]

/-- **The words** of a packet are determined by its frames, and the context before them. -/
theorem IsPacket.unique (h : IsPacket ctx src words) (h' : IsPacket ctx src words') :
    words' = words := by
  obtain ⟨status, ws, hstatus, hspells, rfl⟩ := h
  obtain ⟨status', ws', hstatus', hspells', rfl⟩ := h'
  have hsame : status' = status := by
    refine BitVec.eq_of_getLsbD_eq fun b hb => ?_
    rw [Bool.eq_iff_iff, hstatus b, hstatus' b]
  have hws : ws' = ws := wordBits_injective (hspells'.spelled.trans hspells.spelled.symm)
  rw [hsame, hws]

end Words

/-! ## What the host finds -/

/-- The host finds the status, the headers and the samples of the frames. -/
structure Recovered (ctx : ReadContext) (src : Nat → Nat → AxisIn) (d : PacketDecoded) : Prop where
  nchannels : d.toc.nchannels = NCHANS
  nsamples : d.toc.nsamples = NSAMPLES
  status : HasStatus ctx src d.headers.status
  headers : d.headers.headers = ![(src 0 0).data, (src 0 1).data, (src 0 2).data, (src 0 3).data,
    (src 0 16).data, (src 0 17).data]
  samples : d.channels.map ChanDecoded.samples = (List.range NCHANS).map fun c =>
    (List.range NSAMPLES).map fun i => (sampleAt src c i).toNat

/-- The frames of a packet that comes back. -/
structure Recoverable (src : Nat → Nat → AxisIn) : Prop where
  streamable : ∀ c < NCHANS, (packetWave src c).Streamable
  readable : ∀ c < NCHANS, (packetWave src c).OverflowsReadable
  small : ∀ c < NCHANS, (packetWave src c).SmallSteps
  fits : packetLength src ≤ hostBufSize

section Host

variable {ctx : ReadContext} {src : Nat → Nat → AxisIn} {words : List AxisOut}

theorem samples_packetWave (src : Nat → Nat → AxisIn) (c : Nat) :
    (packetWave src c).samples = (List.range NSAMPLES).map (sampleAt src c) := by
  have hrange : NSAMPLES = 1023 + 1 := rfl
  have hsucc : sampleAt src c ∘ Nat.succ = fun i => sampleAt src c (i + 1) := rfl
  rw [hrange, List.range_succ_eq_map, List.map_cons, List.map_map, hsucc, packetWave,
    Waveform.samples, Waveform.ofAdcs]

/-- **The host** finds the samples of a packet exactly where it fits the buffer, the overflows of
its channels have bits, and no step is large. -/
theorem IsPacket.recovered_iff (h : IsPacket ctx src words) (locals : Nat → ChanLocals)
    (stale : Nat → BitVec 64) :
    (∃ d, decode locals stale words = some (.ok d) ∧ Recovered ctx src d) ↔
      packetLength src ≤ hostBufSize ∧ (∀ c < NCHANS, (packetWave src c).OverflowsReadable) ∧
        ∀ c < NCHANS, (packetWave src c).SmallSteps := by
  have hlength := h.length_eq
  obtain ⟨status, ws, hstatus, hspells, rfl⟩ := h
  by_cases hfits : packetLength src ≤ hostBufSize
  case neg =>
    refine iff_of_false ?_ fun h => hfits h.1
    rintro ⟨d, hd, -⟩
    unfold decode at hd
    dsimp only at hd
    rw [List.length_map, hlength, if_neg hfits] at hd
    cases hd
  case pos =>
    have hchdx : 7 ≤ (headerContext src status).chdx := Nat.le_refl 7
    have hcedx : (headerContext src status).cedx < 2 ^ 8 := Nat.two_pow_pos 8
    have hlen : (headerOf src status).length < 2 ^ 16 :=
      lt_of_eq_of_lt (length_headerOf src status) (by decide)
    rw [← length_headerOf src status] at hspells
    have hhost := decode_compressedWords locals stale hchdx hcedx hlen hspells
      (le_of_eq_of_le hlength hfits)
    by_cases hread : ∀ c < NCHANS, (packetWave src c).OverflowsReadable
    case neg =>
      refine iff_of_false ?_ fun h => hread h.2.1
      rintro ⟨d, hd, -⟩
      exact absurd ((hhost.2 hread).symm.trans hd) (by simp)
    case pos =>
      obtain ⟨d, hd, hto⟩ := hhost.1 hread
      rw [and_iff_right hfits, and_iff_right hread]
      constructor
      · rintro ⟨d', hd', hrec⟩ c hc
        obtain rfl : d = d' := by
          simpa using hd.symm.trans hd'
        have hboth := hto.channels.symm.trans hrec.samples
        have hc' := List.map_inj_left.mp hboth c (List.mem_range.mpr hc)
        rw [← (packetWave src c).restored_eq_iff, hc', samples_packetWave, List.map_map]
        rfl
      · intro hsmall
        refine ⟨d, hd, hto.nchannels, hto.nsamples, hto.status ▸ hstatus, hto.headers, ?_⟩
        rw [hto.channels]
        refine List.map_congr_left fun c hc => ?_
        rw [((packetWave src c).restored_eq_iff).mpr (hsmall c (List.mem_range.mp hc)),
          samples_packetWave, List.map_map]
        rfl

end Host

/-! ## One call -/

section Call

variable {src : Nat → Nat → AxisIn}

/-- The channels of a packet are encoded where all of them can be. -/
theorem exists_encodes4 (ctx : CompressionContext) {lcl : Nat → Histogram}
    {out : Nat → Histogram} (buffers : Nat → Nat → EncodeBuffers)
    (hchan : ∀ c < 128, Waveform.ofAdcs (ctx.adcs.channel c) = packetWave src c ∧
      ctx.hists.channel c = (packetWave src c).histogram (lcl c) (out c))
    (hstream : ∀ c < NCHANS, (packetWave src c).Streamable) :
    ∃ etx, Encodes4 ctx buffers etx ∧ (∀ c < NCHANS, (etx c).Filled) ∧
      ∀ c < NCHANS, (etx c).bits = packetBits src c := by
  have hone : ∀ c, ∃ etx : ApeEtxOut, c < NCHANS →
      encode (buffers (c / 4) (c % 4)) (ctx.hists.channel c) (ctx.adcs.channel c) = some etx ∧
        etx.Filled ∧ etx.bits = packetBits src c := by
    intro c
    by_cases hc : c < NCHANS
    · obtain ⟨hwave, hhist⟩ := hchan c hc
      obtain ⟨out', hrun, hfilled, hbits⟩ := (packetWave src c).apeEncode_packable (lcl c) (out c)
        (buffers (c / 4) (c % 4)).inWords (buffers (c / 4) (c % 4)).table (hstream c hc)
      refine ⟨out'.packed, fun _ => ⟨?_, hfilled, hbits⟩⟩
      rw [encode, hwave, hhist, hrun]
      rfl
    · exact ⟨⟨⟨0, 0, fun _ => 0⟩, ⟨0, 0, fun _ => 0⟩⟩, fun h => absurd h hc⟩
  choose etx hetx using hone
  exact ⟨etx, fun c hc => (hetx c hc).1, fun c hc => (hetx c hc).2.1, fun c hc => (hetx c hc).2.2⟩

/-- What a call leaves, apart from the stream. -/
structure AfterPacket (src : Nat → Nat → AxisIn) (s s' : CoreState) : Prop where
  ctx : s'.ctx = ctxAt s.ctx src 1024
  first : s'.writer.first = false
  maxBytes : s'.writer.maxBytes = max s.writer.maxBytes (8 * packetLength src)
  monitor : s'.writer.lclMonitor =
    s.writer.monitor.addPacket s.writer.maxBytes (8 * packetLength src)

/-- **One call**: a packet is put out, whatever the local and static variables hold, if all
channels can be encoded. -/
theorem handlePacket_spec (locals : PacketLocals) (s : CoreState) (rest : List AxisIn)
    (mAxis : List AxisOut) (m : MonitorWrite)
    (hstream : ∀ c < NCHANS, (packetWave src c).Streamable) :
    ∃ s' words, handlePacket locals s ⟨frameStream src rest 1024 0, mAxis, m⟩ =
        some (s', ⟨rest, mAxis ++ words, s'.writer.lclMonitor⟩) ∧
      IsPacket s.ctx src words ∧ AfterPacket src s s' := by
  obtain ⟨acq, hacq, hctx, hkeeps, hchan⟩ := acquirePacket_channels locals.frames
    ⟨s.ctx, s.hdrLcl, locals.pktCtx, ⟨locals.cmpCtx.adcs, locals.cmpCtx.hists, s.histsLcl, s.prv⟩⟩
    src rest
  obtain ⟨acq', hacq', hstatus⟩ := acquirePacket_spec locals.frames
    ⟨s.ctx, s.hdrLcl, locals.pktCtx, ⟨locals.cmpCtx.adcs, locals.cmpCtx.hists, s.histsLcl, s.prv⟩⟩
    src rest
  obtain rfl : acq = acq' := (Prod.mk.inj (Option.some.inj (hacq.symm.trans hacq'))).1
  obtain ⟨etx, hencodes, hfilled, hbits⟩ := exists_encodes4
    ⟨acq.channels.adcs, acq.channels.hists⟩ locals.write.encode hchan hstream
  have hheader := hkeeps.headerWords_eq locals.excsBuf
  obtain ⟨writer, ws, offsets, hspells, hwrite, hfirst, hmax, hmonitor⟩ := writePacket_spec hencodes
    hfilled s.writer mAxis acq.pktCtx locals.excsBuf (by rw [hheader, length_headerOf]; decide)
  rw [hheader] at hspells hwrite hmax hmonitor
  rw [length_headerOf] at hspells
  have hspells' : Spells (packetBits src) 8 ws offsets :=
    hspells.congr fun c hc => (hbits c hc).symm
  have hpacket : IsPacket s.ctx src
      (compressedWords (headerOf src acq.pktCtx.status) ws offsets acq.pktCtx.status) := by
    refine ⟨acq.pktCtx.status, ws, hstatus, hspells'.canonical, ?_⟩
    unfold compressedWords
    rw [tocWords_congr fun c hc => (hspells'.offsets_eq c hc).symm]
  rw [hpacket.length_eq] at hmax hmonitor
  refine ⟨⟨acq.ctx, acq.hdrLcl, acq.channels.histsLcl, acq.channels.prv, writer⟩, _, ?_, hpacket,
    hctx, hfirst, hmax, hmonitor⟩
  unfold handlePacket
  dsimp only
  rw [hacq, Option.bind_eq_bind, Option.bind_some]
  dsimp only
  rw [hwrite]
  rfl

/-- A call is undefined where a channel cannot be encoded. -/
theorem handlePacket_eq_none (locals : PacketLocals) (s : CoreState) (rest : List AxisIn)
    (mAxis : List AxisOut) (m : MonitorWrite)
    (hstream : ¬ ∀ c < NCHANS, (packetWave src c).Streamable) :
    handlePacket locals s ⟨frameStream src rest 1024 0, mAxis, m⟩ = none := by
  obtain ⟨acq, hacq, -, -, hchan⟩ := acquirePacket_channels locals.frames
    ⟨s.ctx, s.hdrLcl, locals.pktCtx, ⟨locals.cmpCtx.adcs, locals.cmpCtx.hists, s.histsLcl, s.prv⟩⟩
    src rest
  push Not at hstream
  obtain ⟨c, hc, hnot⟩ := hstream
  unfold handlePacket
  dsimp only
  rw [hacq, Option.bind_eq_bind, Option.bind_some]
  dsimp only
  cases hwrite : writePacket locals.write s.writer mAxis acq.pktCtx locals.excsBuf
      ⟨acq.channels.adcs, acq.channels.hists⟩ with
  | none => rfl
  | some r =>
    obtain ⟨out, hencode⟩ := encode_of_writePacket hwrite hc
    obtain ⟨hwave, hhist⟩ := hchan c hc
    dsimp only at hencode
    rw [encode, hwave, hhist, (packetWave src c).apeEncode_eq_none_of_not _ _ _ _ hnot] at hencode
    cases hencode

end Call

/-! ## A run -/

section Run

/-- The bytes of a packet. -/
def packetBytes (src : Nat → Nat → Nat → AxisIn) (p : Nat) : Nat := 8 * packetLength (src p)

/-- The bytes of the first `n` packets. -/
def totalBytes : Nat → (Nat → Nat → Nat → AxisIn) → Nat
  | 0, _ => 0
  | n + 1, src => packetBytes src 0 + totalBytes n fun p => src (p + 1)

/-- The largest of `m` and the first `n` packets. -/
def largestBytes : Nat → (Nat → Nat → Nat → AxisIn) → Nat → Nat
  | 0, _, m => m
  | n + 1, src, m => largestBytes n (fun p => src (p + 1)) (max m (packetBytes src 0))

/-- The write monitor after `n + 1` packets. -/
def MonitorWrite.addPackets (m : MonitorWrite) (maxBytes n : Nat)
    (src : Nat → Nat → Nat → AxisIn) : MonitorWrite where
  nbytes := (m.nbytes + totalBytes (n + 1) src) % 2 ^ 32
  npackets := (m.npackets + (n + 1)) % 2 ^ 32
  ndropped := largestBytes (n + 1) src maxBytes
  npromoted := packetBytes src n

/-- All channels of `n` packets can be encoded. -/
def AllStreamable (n : Nat) (src : Nat → Nat → Nat → AxisIn) : Prop :=
  ∀ p < n, ∀ c < NCHANS, (packetWave (src p) c).Streamable

theorem AllStreamable.tail {n : Nat} {src : Nat → Nat → Nat → AxisIn}
    (h : AllStreamable (n + 1) src) : AllStreamable n fun p => src (p + 1) :=
  fun p hp => h (p + 1) (Nat.succ_lt_succ hp)

/-- One packet more, in front. -/
theorem MonitorWrite.addPacket_addPackets (m : MonitorWrite) (maxBytes n : Nat)
    (src : Nat → Nat → Nat → AxisIn) :
    (m.addPacket maxBytes (packetBytes src 0)).addPackets (max maxBytes (packetBytes src 0)) n
      (fun p => src (p + 1)) = m.addPackets maxBytes (n + 1) src := by
  have hbytes : totalBytes (n + 1 + 1) src =
      packetBytes src 0 + totalBytes (n + 1) fun p => src (p + 1) := rfl
  unfold addPackets addPacket
  rw [hbytes]
  dsimp only
  rw [MonitorWrite.mk.injEq]
  exact ⟨by omega, rfl, rfl, by omega⟩

/-- The packets of a run, behind the words that the stream has before. -/
theorem handlePackets_spec {n : Nat} (rest : List AxisIn) :
    ∀ (locals : Nat → PacketLocals) {src : Nat → Nat → Nat → AxisIn} (s : CoreState)
      (mAxis : List AxisOut) (m : MonitorWrite), AllStreamable n src →
    ∃ (s' : CoreState) (packets : List (List AxisOut)),
      handlePackets n locals s ⟨packetStream rest n src, mAxis, m⟩ =
        some (s', ⟨rest, mAxis ++ packets.flatten,
          if n = 0 then m else s'.writer.lclMonitor⟩) ∧
      packets.length = n ∧
      (∀ p w, packets[p]? = some w → IsPacket (coreCtx s.ctx src p) (src p) w) ∧
      s'.writer.lclMonitor = if n = 0 then s.writer.lclMonitor else
        s.writer.monitor.addPackets s.writer.maxBytes (n - 1) src := by
  induction n with
  | zero =>
    intro locals src s mAxis m _
    refine ⟨s, [], ?_, rfl, fun p w h => ?_, (if_pos rfl).symm⟩
    · rw [List.flatten_nil, List.append_nil, if_pos rfl]
      rfl
    · cases h
  | succ n ih =>
    intro locals src s mAxis m h
    obtain ⟨s₁, words, hcall, hpacket, hafter⟩ := handlePacket_spec (locals 0) s
      (packetStream rest n fun p => src (p + 1)) mAxis m (h 0 (Nat.succ_pos n))
    obtain ⟨s₂, packets, hrun, hlen, hpackets, hmonitor⟩ := ih (fun p => locals (p + 1)) s₁
      (mAxis ++ words) s₁.writer.lclMonitor h.tail
    have hfirst : s₁.writer.monitor = s₁.writer.lclMonitor := by
      rw [PacketWriter.monitor, hafter.first]
      rfl
    refine ⟨s₂, words :: packets, ?_, ?_, fun p w hw => ?_, ?_⟩
    · have hport : (if n = 0 then s₁.writer.lclMonitor else s₂.writer.lclMonitor) =
          s₂.writer.lclMonitor := by
        split
        · rename_i hzero
          rw [hmonitor, if_pos hzero]
        · rfl
      rw [handlePackets, packetStream, hcall, Option.bind_eq_bind, Option.bind_some]
      dsimp only
      rw [hrun, hport, if_neg (Nat.succ_ne_zero n), List.flatten_cons, List.append_assoc]
    · rw [List.length_cons, hlen]
    · cases p with
      | zero =>
        obtain rfl := Option.some.inj hw
        exact hpacket
      | succ p =>
        have hat := hpackets p w hw
        rwa [hafter.ctx] at hat
    · rw [hmonitor, if_neg (Nat.succ_ne_zero n), Nat.add_sub_cancel]
      cases n with
      | zero =>
        rw [if_pos rfl, hafter.monitor]
        rfl
      | succ n =>
        rw [if_neg (Nat.succ_ne_zero n), hfirst, hafter.monitor, hafter.maxBytes,
          Nat.add_sub_cancel]
        exact MonitorWrite.addPacket_addPackets ..

/-- The stream of a run, cut at its marks, is the packets. -/
theorem frames_packets {ctx : ReadContext} {src : Nat → Nat → Nat → AxisIn}
    {packets : List (List AxisOut)}
    (h : ∀ p w, packets[p]? = some w → IsPacket (coreCtx ctx src p) (src p) w) :
    Framing.frames AxisOut.last packets.flatten = ⟨packets, []⟩ := by
  have hframe : ∀ w ∈ packets, Framing.IsFrame AxisOut.last w := by
    intro w hw
    obtain ⟨p, hp⟩ := List.mem_iff_getElem?.mp hw
    exact (h p w hp).isFrame
  have hnone : ∀ w ∈ ([] : List AxisOut), w.last = false :=
    fun w hw => absurd hw List.not_mem_nil
  have hcut := Framing.frames_flatten hframe hnone
  rwa [List.append_nil] at hcut

/-- A run is undefined where a channel cannot be encoded. -/
theorem handlePackets_eq_none {n : Nat} (rest : List AxisIn) :
    ∀ (locals : Nat → PacketLocals) {src : Nat → Nat → Nat → AxisIn} (s : CoreState)
      (mAxis : List AxisOut) (m : MonitorWrite), ¬ AllStreamable n src →
    handlePackets n locals s ⟨packetStream rest n src, mAxis, m⟩ = none := by
  induction n with
  | zero =>
    intro locals src s mAxis m h
    exact absurd (fun p hp => absurd hp (Nat.not_lt_zero p)) h
  | succ n ih =>
    intro locals src s mAxis m h
    rw [handlePackets, packetStream]
    by_cases hfirst : ∀ c < NCHANS, (packetWave (src 0) c).Streamable
    · obtain ⟨s₁, words, hcall, -, -⟩ := handlePacket_spec (locals 0) s
        (packetStream rest n fun p => src (p + 1)) mAxis m hfirst
      rw [hcall, Option.bind_eq_bind, Option.bind_some]
      refine ih _ _ _ _ fun htail => h fun p hp => ?_
      cases p with
      | zero => exact hfirst
      | succ p => exact htail p (Nat.lt_of_succ_lt_succ hp)
    · rw [handlePacket_eq_none (locals 0) s _ mAxis m hfirst]
      rfl

/-- **A run** of `n + 1` packets is defined exactly where all channels can be encoded. Then the
stream has one packet for every 1024 frames, and the write monitor counts them. -/
theorem core_run (n : Nat) (locals : Nat → PacketLocals) (src : Nat → Nat → Nat → AxisIn)
    (rest : List AxisIn) (s : CoreState) (mAxis : List AxisOut) (m : MonitorWrite) :
    (AllStreamable (n + 1) src → ∃ (s' : CoreState) (packets : List (List AxisOut)),
      handlePackets (n + 1) locals s ⟨packetStream rest (n + 1) src, mAxis, m⟩ =
        some (s', ⟨rest, mAxis ++ packets.flatten,
          s.writer.monitor.addPackets s.writer.maxBytes n src⟩) ∧
      packets.length = n + 1 ∧ (∀ w ∈ packets, Framing.IsFrame AxisOut.last w) ∧
      ∀ p w, packets[p]? = some w → w.length = packetLength (src p) ∧
        IsPacket (coreCtx s.ctx src p) (src p) w) ∧
    (¬ AllStreamable (n + 1) src →
      handlePackets (n + 1) locals s ⟨packetStream rest (n + 1) src, mAxis, m⟩ = none) := by
  refine ⟨fun h => ?_, handlePackets_eq_none rest locals s mAxis m⟩
  obtain ⟨s', packets, hrun, hlen, hpackets, hmonitor⟩ :=
    handlePackets_spec rest locals s mAxis m h
  rw [if_neg (Nat.succ_ne_zero n), Nat.add_sub_cancel] at hmonitor
  rw [if_neg (Nat.succ_ne_zero n), hmonitor] at hrun
  refine ⟨s', packets, hrun, hlen, fun w hw => ?_, fun p w hw =>
    ⟨(hpackets p w hw).length_eq, hpackets p w hw⟩⟩
  obtain ⟨p, hp⟩ := List.mem_iff_getElem?.mp hw
  exact (hpackets p w hp).isFrame

/-- The host's own variables, for one packet. -/
structure HostLocals where
  channels : Nat → ChanLocals
  stale : Nat → BitVec 64

/-- The run is defined, and the host, which cuts the stream at the marks, finds the status, the
headers and the samples of every packet. -/
def RunRecovered (n : Nat) (locals : Nat → PacketLocals) (host : Nat → HostLocals)
    (src : Nat → Nat → Nat → AxisIn) (rest : List AxisIn) (s : CoreState) (m : MonitorWrite) :
    Prop :=
  ∃ s' ports, handlePackets n locals s ⟨packetStream rest n src, [], m⟩ = some (s', ports) ∧
    ports.sAxis = rest ∧ (Framing.frames AxisOut.last ports.mAxis).rest = [] ∧
    (Framing.frames AxisOut.last ports.mAxis).complete.length = n ∧
    ∀ p w, (Framing.frames AxisOut.last ports.mAxis).complete[p]? = some w →
      ∃ d, decode (host p).channels (host p).stale w = some (.ok d) ∧
        Recovered (coreCtx s.ctx src p) (src p) d

/-- The host recovers the packets one by one. -/
theorem runRecovered_iff (n : Nat) (locals : Nat → PacketLocals) (host : Nat → HostLocals)
    (src : Nat → Nat → Nat → AxisIn) (rest : List AxisIn) (s : CoreState) (m : MonitorWrite) :
    RunRecovered n locals host src rest s m ↔ ∀ p < n, Recoverable (src p) := by
  by_cases hall : AllStreamable n src
  case neg =>
    refine iff_of_false ?_ fun h => hall fun p hp => (h p hp).streamable
    rintro ⟨s', ports, hrun, -⟩
    rw [handlePackets_eq_none rest locals s [] m hall] at hrun
    cases hrun
  case pos =>
    obtain ⟨s', packets, hrun, hlen, hpackets, -⟩ := handlePackets_spec rest locals s [] m hall
    have hframes : Framing.frames AxisOut.last ([] ++ packets.flatten) = ⟨packets, []⟩ :=
      frames_packets hpackets
    constructor
    · rintro ⟨s'', ports, hrun', -, -, -, hhost⟩ p hp
      obtain ⟨-, rfl⟩ := Prod.mk.inj (Option.some.inj (hrun.symm.trans hrun'))
      dsimp only at hhost
      rw [hframes] at hhost
      have hat := List.getElem?_eq_getElem (l := packets) (i := p) (by omega)
      obtain ⟨hfits, hread, hsmall⟩ :=
        ((hpackets p _ hat).recovered_iff (host p).channels (host p).stale).mp (hhost p _ hat)
      exact ⟨hall p hp, hread, hsmall, hfits⟩
    · intro h
      refine ⟨s', _, hrun, rfl, ?_, ?_, fun p w hw => ?_⟩
      · dsimp only
        rw [hframes]
      · dsimp only
        rw [hframes, hlen]
      · dsimp only at hw
        rw [hframes] at hw
        have hp : p < n := by
          rw [← hlen]
          exact (List.getElem?_eq_some_iff.mp hw).1
        exact ((hpackets p w hw).recovered_iff (host p).channels (host p).stale).mpr
          ⟨(h p hp).fits, (h p hp).readable, (h p hp).small⟩

/-- **A run comes back** if and only if every packet does, whatever the variables hold before. -/
theorem core_recovered_iff (n : Nat) (locals : Nat → PacketLocals) (host : Nat → HostLocals)
    (src : Nat → Nat → Nat → AxisIn) (rest : List AxisIn) (s : CoreState) (m : MonitorWrite) :
    RunRecovered n locals host src rest s m ↔ ∀ p < n, Recoverable (src p) :=
  runRecovered_iff n locals host src rest s m

/-- **Nothing stale** gets out: what is put out does not depend on what the local arrays, the
histograms, the samples and the headers of the packets before have left. -/
theorem core_stale_free (n : Nat) (locals locals' : Nat → PacketLocals)
    (src : Nat → Nat → Nat → AxisIn) (rest : List AxisIn) (s : CoreState)
    (hdrLcl : HeaderContextLcl) (histsLcl : Nat → Histogram) (prv : Nat → AdcIn)
    (bAxis : AxisBitStream) (mAxis : List AxisOut) (m : MonitorWrite) :
    (handlePackets n locals' ⟨s.ctx, hdrLcl, histsLcl, prv, { s.writer with bAxis }⟩
        ⟨packetStream rest n src, mAxis, m⟩).map Prod.snd =
      (handlePackets n locals s ⟨packetStream rest n src, mAxis, m⟩).map Prod.snd := by
  by_cases hall : AllStreamable n src
  case neg =>
    rw [handlePackets_eq_none rest locals s mAxis m hall,
      handlePackets_eq_none rest _ _ mAxis m hall]
  case pos =>
    obtain ⟨s₁, packets, hrun, hlen, hpackets, hcount⟩ :=
      handlePackets_spec rest locals s mAxis m hall
    obtain ⟨s₂, packets', hrun', hlen', hpackets', hcount'⟩ := handlePackets_spec rest locals'
      ⟨s.ctx, hdrLcl, histsLcl, prv, { s.writer with bAxis }⟩ mAxis m hall
    have hsame : packets' = packets := by
      refine List.ext_getElem (hlen'.trans hlen.symm) fun p hp' hp => ?_
      have hat := hpackets p _ (List.getElem?_eq_getElem hp)
      exact hat.unique (hpackets' p _ (List.getElem?_eq_getElem hp'))
    have hport : (if n = 0 then m else s₂.writer.lclMonitor) =
        if n = 0 then m else s₁.writer.lclMonitor := by
      split
      · rfl
      · rename_i hn
        rw [hcount, hcount', if_neg hn, if_neg hn]
        rfl
    rw [hrun, hrun', Option.map_some, Option.map_some, hsame, hport]

end Run

/-! ## Quiet packets -/

/-- A step that does not overflow the bins. -/
def QuietStep (prv cur : AdcIn) : Prop :=
  (cur.toNat : Int) - prv.toNat ≤ 15 ∧ (prv.toNat : Int) - cur.toNat ≤ 15

/-- No sample is further than 15 from the one before. -/
def Waveform.Quiet (w : Waveform) : Prop := w.samples.IsChain QuietStep

theorem QuietStep.small {prv cur : AdcIn} (h : QuietStep prv cur) : SmallStep prv cur :=
  ⟨Int.le_trans h.1 (by decide), Int.le_trans h.2 (by decide)⟩

theorem QuietStep.symbol_lt {prv cur : AdcIn} (h : QuietStep prv cur) :
    (Histogram.symbol cur prv).toNat < NBins := by
  obtain ⟨hup, hdown⟩ := h
  have hprv := prv.isLt
  have hcur := cur.isLt
  rw [toNat_symbol, difference]
  show _ < 32
  split <;> omega

theorem symbols_lt_of_chain {prv : AdcIn} {rest : List AdcIn}
    (h : (prv :: rest).IsChain QuietStep) : ∀ sym ∈ symbolsFrom prv rest, sym.toNat < NBins := by
  induction rest generalizing prv with
  | nil => exact fun sym hsym => absurd hsym List.not_mem_nil
  | cons cur rest ih =>
    obtain ⟨hstep, hrest⟩ := List.isChain_cons_cons.mp h
    intro sym hsym
    rcases List.mem_cons.mp hsym with rfl | hlater
    · exact hstep.symbol_lt
    · exact ih hrest sym hlater

namespace Waveform

variable {w : Waveform}

theorem Quiet.symbols_lt (h : w.Quiet) : ∀ sym ∈ w.symbols, sym.toNat < NBins :=
  symbols_lt_of_chain h

theorem Quiet.small (h : w.Quiet) : w.SmallSteps := h.imp fun _ _ => QuietStep.small

/-- Without overflows a channel is short. -/
theorem Quiet.length_le (h : w.Quiet) : w.channelBits.length ≤ 352 + (12 * 1023 + 2) := by
  have hnone : overflowBits w.nobits w.symbols = [] := by
    rw [overflowBits, List.filterMap_eq_nil_iff.mpr fun sym hsym =>
      overflow_eq_none.mpr (h.symbols_lt sym hsym), List.flatMap_nil]
  have hhist := w.length_encodedHistogram_le
  have hcode := w.sum_baSizes_le
  rw [length_channelBits, sum_haSizes, hnone, List.append_nil]
  omega

end Waveform

theorem length_packedBits_le_mul {bits : Nat → List Bool} {k n : Nat}
    (h : ∀ c < n, (bits c).length ≤ k) : (packedBits bits n).length ≤ n * k := by
  induction n with
  | zero => exact Nat.zero_le _
  | succ n ih =>
    have hbefore := ih fun c hc => h c (Nat.lt_succ_of_lt hc)
    have hlast := h n (Nat.lt_succ_self n)
    rw [length_packedBits_succ, Nat.succ_mul]
    omega

theorem packetLength_le_of_quiet {src : Nat → Nat → AxisIn}
    (h : ∀ c < NCHANS, (packetWave src c).Quiet) : packetLength src ≤ hostBufSize := by
  have hle : (packedBits (packetBits src) NCHANS).length ≤ _ :=
    length_packedBits_le_mul fun c hc => (h c hc).length_le
  have hsize : hostBufSize = 26624 := rfl
  have hchans : NCHANS = 128 := rfl
  rw [packetLength, hsize]
  rw [hchans] at hle ⊢
  omega

/-- A quiet packet comes back where it can be encoded. -/
theorem recoverable_iff_of_quiet {src : Nat → Nat → AxisIn}
    (h : ∀ c < NCHANS, (packetWave src c).Quiet) :
    Recoverable src ↔ ∀ c < NCHANS, (packetWave src c).Streamable := by
  refine ⟨Recoverable.streamable, fun hstream => ⟨hstream, fun c hc => ?_, fun c hc => ?_, ?_⟩⟩
  · exact .inl (h c hc).symbols_lt
  · exact (h c hc).small
  · exact packetLength_le_of_quiet h

/-- **Quiet packets** always fit the buffer of the host, and a run of them comes back exactly
where all channels can be encoded. -/
theorem quiet_recovered_iff (n : Nat) (locals : Nat → PacketLocals) (host : Nat → HostLocals)
    (src : Nat → Nat → Nat → AxisIn) (rest : List AxisIn) (s : CoreState) (m : MonitorWrite)
    (h : ∀ p < n, ∀ c < NCHANS, (packetWave (src p) c).Quiet) :
    (∀ p < n, packetLength (src p) ≤ hostBufSize) ∧
      (RunRecovered n locals host src rest s m ↔ AllStreamable n src) := by
  refine ⟨fun p hp => packetLength_le_of_quiet (h p hp), ?_⟩
  rw [runRecovered_iff]
  exact forall₂_congr fun p hp => recoverable_iff_of_quiet (h p hp)

/-- The samples of a flat channel are all the same. -/
theorem chain_flat {x : AdcIn} {rest : List AdcIn} (h : ∀ a ∈ rest, a = x) :
    (x :: rest).IsChain QuietStep ∧ ∀ sym ∈ symbolsFrom x rest, sym = Histogram.symbol x x := by
  induction rest with
  | nil => exact ⟨List.IsChain.singleton x, fun sym hsym => absurd hsym List.not_mem_nil⟩
  | cons cur rest ih =>
    obtain rfl := h cur List.mem_cons_self
    obtain ⟨hchain, hsyms⟩ := ih fun a ha => h a (List.mem_cons_of_mem _ ha)
    refine ⟨List.isChain_cons_cons.mpr ⟨⟨by omega, by omega⟩, hchain⟩, fun sym hsym => ?_⟩
    rcases List.mem_cons.mp hsym with rfl | hlater
    · rfl
    · exact hsyms sym hlater

theorem Waveform.quiet_of_flat {w : Waveform} (h : ∀ a ∈ w.rest, a = w.first) : w.Quiet :=
  (chain_flat h).1

theorem Waveform.streamable_of_flat {w : Waveform} (h : ∀ a ∈ w.rest, a = w.first) :
    w.Streamable := by
  have hone : ∀ i ∈ w.idxs, i = binOf (Histogram.symbol w.first w.first) := by
    intro i hi
    obtain ⟨sym, hsym, rfl⟩ := List.mem_map.mp hi
    rw [(chain_flat h).2 sym hsym]
  exact w.streamable_iff.mp (w.allInsertable_of_one hone)

theorem flat_packetWave (src : Nat → Nat → AxisIn) {c : Nat}
    (h : ∀ i, sampleAt src c i = sampleAt src c 0) :
    ∀ a ∈ (packetWave src c).rest, a = (packetWave src c).first := by
  intro a ha
  rw [packetWave, Waveform.ofAdcs] at ha ⊢
  dsimp only at ha ⊢
  obtain ⟨i, -, rfl⟩ := List.mem_map.mp ha
  exact h (i + 1)

/-- Generated frames whose samples are all the number of the frame. -/
def risingFrames (i j : Nat) : AxisIn :=
  ⟨((WibFrameCreate.new 0 fun _ => 0).fill (BitVec.ofNat 64 (25 * i)) fun _ =>
    (BitVec.ofNat 12 i).setWidth 16).w64 j, 0, false⟩

theorem sampleAt_risingFrames {c : Nat} (hc : c < 128) (i : Nat) :
    sampleAt risingFrames c i = BitVec.ofNat 12 i :=
  extractAdc_fill _ _ (fun _ => BitVec.ofNat 12 i) hc

theorem rampFrom_one (n k : Nat) : rampFrom 1 n (BitVec.ofNat 12 k) =
    (List.range n).map fun i => BitVec.ofNat 12 (k + (i + 1)) := by
  induction n generalizing k with
  | zero => rfl
  | succ n ih =>
    have hnext : BitVec.ofNat 12 k + 1 = BitVec.ofNat 12 (k + 1) := (BitVec.ofNat_add k 1).symm
    rw [rampFrom, hnext, ih, List.range_succ_eq_map, List.map_cons, List.map_map]
    refine congrArg _ (List.map_congr_left fun i _ => ?_)
    show BitVec.ofNat 12 (k + 1 + (i + 1)) = BitVec.ofNat 12 (k + (i + 1 + 1))
    rw [Nat.add_assoc, Nat.add_comm 1]

/-- Each channel of these frames is a ramp. -/
theorem packetWave_risingFrames {c : Nat} (hc : c < 128) :
    packetWave risingFrames c = Waveform.ramp 1 := by
  have hrest : ((List.range 1023).map fun i => sampleAt risingFrames c (i + 1)) =
      rampFrom 1 1023 0 := by
    refine Eq.trans ?_ (rampFrom_one 1023 0).symm
    refine List.map_congr_left fun i _ => ?_
    rw [sampleAt_risingFrames hc, Nat.zero_add]
  unfold packetWave Waveform.ofAdcs Waveform.ramp
  rw [Waveform.mk.injEq]
  exact ⟨sampleAt_risingFrames hc 0, hrest⟩

/-- A step of 1 is quiet where it does not wrap. -/
theorem quiet_rampFrom {n k : Nat} (h : k + n < 4096) :
    (BitVec.ofNat 12 k :: rampFrom 1 n (BitVec.ofNat 12 k)).IsChain QuietStep := by
  induction n generalizing k with
  | zero => exact List.IsChain.singleton _
  | succ n ih =>
    have hnext : BitVec.ofNat 12 k + 1 = BitVec.ofNat 12 (k + 1) := (BitVec.ofNat_add k 1).symm
    rw [rampFrom, hnext]
    refine List.isChain_cons_cons.mpr ⟨?_, ih (by omega)⟩
    unfold QuietStep
    rw [BitVec.toNat_ofNat, BitVec.toNat_ofNat, Nat.mod_eq_of_lt (show k < 2 ^ 12 by omega),
      Nat.mod_eq_of_lt (show k + 1 < 2 ^ 12 by omega)]
    omega

theorem Waveform.quiet_ramp_one : (Waveform.ramp 1).Quiet :=
  @quiet_rampFrom 1023 0 (by omega)

theorem Waveform.streamable_ramp (d : AdcIn) : (Waveform.ramp d).Streamable :=
  (Waveform.ramp d).streamable_iff.mp (Waveform.allInsertable_ramp d)

/-- Two packets of these frames come back, from any state. -/
theorem quiet_recovered_rising :
    (∀ c < NCHANS, packetWave risingFrames c = Waveform.ramp 1) ∧
      ∀ locals host s m, RunRecovered 2 locals host (fun _ => risingFrames) [] s m := by
  have hramp : ∀ c < NCHANS, packetWave risingFrames c = Waveform.ramp 1 :=
    fun c hc => packetWave_risingFrames hc
  refine ⟨hramp, fun locals host s m => ?_⟩
  refine (quiet_recovered_iff 2 locals host _ [] s m fun p _ c hc => ?_).2.mpr fun p _ c hc => ?_
  · rw [hramp c hc]
    exact Waveform.quiet_ramp_one
  · rw [hramp c hc]
    exact Waveform.streamable_ramp 1

end ProtoDune.Firmware
