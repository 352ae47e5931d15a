import ProtoDune.Firmware.CompressedPacket
import ProtoDune.Firmware.PacketStatus

/-!
# `WibFrame-Process.h`: the channels of a packet

The 128 channels of a packet do not interfere: each frame stores one sample of each, and counts
the symbol of its difference to the sample before. After 1024 frames the context has the samples
of the packet and their histograms, whatever the static variables held before.

Main results:

* `processFrame_view` — what a frame does to one channel.
* `acquirePacket_channels` — the channels, the headers and the status of a packet.
-/

namespace ProtoDune.Firmware

/-! ## One channel -/

/-- What the state has of one channel. -/
@[ext] structure ChannelView where
  adcs : Nat → AdcIn
  histLcl : Histogram
  hist : Histogram
  prv : AdcIn

/-- The parts of the state that belong to a channel. -/
def ChannelState.view (s : ChannelState) (c : Nat) : ChannelView where
  adcs := s.adcs.channel c
  histLcl := s.histsLcl c
  hist := s.hists.channel c
  prv := s.prv c

namespace ChannelView

/-- One frame with the sample `adc`. -/
def next (v : ChannelView) (iframe : Nat) (adc : AdcIn) : ChannelView where
  adcs := Function.update v.adcs iframe adc
  histLcl := (count4 iframe adc v.prv v.histLcl v.hist).1
  hist := (count4 iframe adc v.prv v.histLcl v.hist).2
  prv := adc

/-- The first `n` frames of a packet. -/
def after (v : ChannelView) (adc : Nat → AdcIn) : Nat → ChannelView
  | 0 => v
  | n + 1 => (v.after adc n).next n (adc n)

end ChannelView

/-- The sample of a channel in the words of a frame. -/
def frameAdc (d : Nat → BitVec 64) (c : Nat) : AdcIn :=
  extractAdc (c % 4) (serialBits (adcs8At d) (c / 4))

/-- Four channels are processed, the others stay. -/
theorem process4_view (s : ChannelState) (iserial iframe c : Nat) (adcs4 : BitVec 48) :
    (process4 s iserial (4 * iserial) iframe adcs4).view c =
      if c / 4 = iserial then (s.view c).next iframe (extractAdc (c % 4) adcs4) else s.view c := by
  have hcases : c % 4 = 0 ∨ c % 4 = 1 ∨ c % 4 = 2 ∨ c % 4 = 3 := by omega
  by_cases hi : c / 4 = iserial
  · have hc : c = 4 * iserial + c % 4 := by omega
    rw [if_pos hi]
    rcases hcases with h | h | h | h <;> rw [h] at hc <;> subst hc <;>
      simp [ChannelState.view, ChannelView.next, Groups.channel, process4, extractAdc, h, hi]
  · have h0 : c ≠ 4 * iserial := by omega
    have h1 : c ≠ 4 * iserial + 1 := by omega
    have h2 : c ≠ 4 * iserial + 2 := by omega
    have h3 : c ≠ 4 * iserial + 3 := by omega
    rw [if_neg hi]
    rcases hcases with h | h | h | h <;>
      simp [ChannelState.view, Groups.channel, process4, h, hi, h0, h1, h2, h3]

/-- Every channel before the end of the loop is processed once. -/
theorem processLoop_view (adcs8 : Nat → BitVec 96) (iframe k i c : Nat) (s : ChannelState)
    (hc : c < 8 * (i + k)) :
    (processLoop adcs8 iframe k (2 * i) (8 * i) s).view c =
      if 8 * i ≤ c then (s.view c).next iframe (extractAdc (c % 4) (serialBits adcs8 (c / 4)))
      else s.view c := by
  induction k generalizing i s with
  | zero => rw [if_neg (by omega), processLoop]
  | succ k ih =>
      have hshift : (8 * i) >>> 3 = i := by rw [Nat.shiftRight_eq_div_pow]; omega
      have hfirst := process4_view s (2 * i) iframe c ((adcs8 i).setWidth 48)
      have hsecond := process4_view (process4 s (2 * i) (8 * i) iframe ((adcs8 i).setWidth 48))
        (2 * i + 1) iframe c ((adcs8 i >>> 48).setWidth 48)
      rw [show 4 * (2 * i) = 8 * i by omega] at hfirst
      rw [show 4 * (2 * i + 1) = 8 * i + 4 by omega, hfirst] at hsecond
      rw [processLoop, hshift]
      rw [show 2 * i + 2 = 2 * (i + 1) by omega, show 8 * i + 8 = 8 * (i + 1) by omega,
        ih (i + 1) _ (by omega), hsecond]
      by_cases hlow : c < 8 * i
      · rw [if_neg (by omega), if_neg (by omega), if_neg (by omega), if_neg (by omega)]
      · rw [if_pos (Nat.le_of_not_lt hlow)]
        have hcases : 8 * (i + 1) ≤ c ∨ c / 4 = 2 * i ∨ c / 4 = 2 * i + 1 := by omega
        rcases hcases with h | h | h
        · rw [if_pos h, if_neg (by omega), if_neg (by omega)]
        · rw [if_neg (by omega), if_neg (by omega), if_pos h, h, serialBits,
            show 2 * i / 2 = i by omega, show 2 * i % 2 = 0 by omega]
          rfl
        · rw [if_neg (by omega), if_pos h, if_neg (by omega), h, serialBits,
            show (2 * i + 1) / 2 = i by omega, show (2 * i + 1) % 2 = 1 by omega]

/-- **One frame** and one channel. -/
theorem processFrame_view (frame : StatusFrame) (iframe : Nat) (adcs8 : Nat → BitVec 96)
    (hdrLcl : HeaderContextLcl) (pktCtx : PacketContext) (s : ChannelState) {c : Nat}
    (hc : c < 128) :
    (processFrame frame iframe adcs8 hdrLcl pktCtx s).2.2.view c =
      (s.view c).next iframe (frameAdc frame.d c) := by
  have hloop := processLoop_view (extractLoop frame.d 8 4 0 adcs8) iframe (NSerial / 2) 0 c s
    (by show c < 8 * (0 + 16); omega)
  rw [if_pos (Nat.zero_le c)] at hloop
  have hat : extractLoop frame.d 8 4 0 adcs8 (c / 4 / 2) = adcs8At frame.d (c / 4 / 2) :=
    (extractLoop_spec frame.d 8 0 (c / 4 / 2) adcs8 rfl (by omega)).trans
      (if_pos (Nat.zero_le _))
  have hframe : (processFrame frame iframe adcs8 hdrLcl pktCtx s).2.2 =
      processLoop (extractLoop frame.d 8 4 0 adcs8) iframe (NSerial / 2) 0 0 s := rfl
  rw [hframe, hloop, frameAdc, serialBits, hat, serialBits]

/-- The sample depends on the words of the frame only. -/
theorem frameAdc_congr {d d' : Nat → BitVec 64} (h : ∀ i < 30, d' i = d i) {c : Nat}
    (hc : c < 128) : frameAdc d' c = frameAdc d c := by
  have hword : pairWord (c / 4 / 2 / 2) + 2 < 30 := by
    unfold pairWord
    split <;> omega
  unfold frameAdc serialBits adcs8At
  dsimp only
  rw [h _ (by omega), h _ (by omega), h _ hword]

/-! ## A packet -/

/-- The symbol of the last sample comes last. -/
theorem symbolsFrom_range (adc : Nat → AdcIn) (n : Nat) :
    symbolsFrom (adc 0) ((List.range (n + 1)).map fun i => adc (i + 1)) =
      symbolsFrom (adc 0) ((List.range n).map fun i => adc (i + 1)) ++
        [Histogram.symbol (adc (n + 1)) (adc n)] := by
  have hcons (adc : Nat → AdcIn) (m : Nat) :
      symbolsFrom (adc 0) ((List.range (m + 1)).map fun i => adc (i + 1)) =
        Histogram.symbol (adc 1) (adc 0) ::
          symbolsFrom (adc 1) ((List.range m).map fun i => adc (i + 1 + 1)) := by
    rw [List.range_succ_eq_map, List.map_cons, List.map_map]
    rfl
  induction n generalizing adc with
  | zero => rfl
  | succ n ih =>
    have hlater := ih fun i => adc (i + 1)
    rw [hcons, hcons, List.cons_append]
    exact congrArg _ hlater

theorem Histogram.bumps_snoc (h hist : Histogram) (syms : List Symbol) (sym : Symbol) :
    h.bumps hist (syms ++ [sym]) = (h.bumps hist syms).1.bump (h.bumps hist syms).2 sym := by
  unfold Histogram.bumps
  rw [List.foldl_append]
  rfl

/-- A channel after `n + 1` frames: what it held before does not matter, but for the histograms
that are cleared. -/
theorem ChannelView.after_succ (v : ChannelView) (adc : Nat → AdcIn) (n : Nat) :
    (v.after adc (n + 1)).prv = adc n ∧ (∀ i ≤ n, (v.after adc (n + 1)).adcs i = adc i) ∧
      ((v.after adc (n + 1)).histLcl, (v.after adc (n + 1)).hist) =
        v.histLcl.clear.bumps v.hist.clear
          (symbolsFrom (adc 0) ((List.range n).map fun i => adc (i + 1))) := by
  induction n with
  | zero =>
    refine ⟨rfl, fun i hi => ?_, rfl⟩
    obtain rfl : i = 0 := Nat.le_zero.mp hi
    show Function.update v.adcs 0 (adc 0) 0 = adc 0
    exact Function.update_self ..
  | succ n ih =>
    obtain ⟨hprv, hadcs, hhists⟩ := ih
    refine ⟨rfl, fun i hi => ?_, ?_⟩
    · show Function.update (v.after adc (n + 1)).adcs (n + 1) (adc (n + 1)) i = adc i
      rcases Nat.le_succ_iff.mp hi with hle | rfl
      · rw [Function.update_of_ne (by omega), hadcs i hle]
      · exact Function.update_self ..
    · rw [symbolsFrom_range, Histogram.bumps_snoc, ← hhists, ← hprv]
      rfl

/-- The samples of a channel in the frames of a packet. -/
def sampleAt (src : Nat → Nat → AxisIn) (c i : Nat) : AdcIn :=
  frameAdc (fun j => (src i j).data) c

/-- The waveform of a channel in a packet. -/
@[irreducible] def packetWave (src : Nat → Nat → AxisIn) (c : Nat) : Waveform :=
  .ofAdcs (sampleAt src c)

/-- The words of the frames that the header record keeps: the second is that of the last frame. -/
structure KeepsHeaders (src : Nat → Nat → AxisIn) (last : Nat) (pktCtx : PacketContext) :
    Prop where
  chdx : pktCtx.chdx = 7
  cedx : pktCtx.cedx = 0
  first : ∀ j < 7, j ≠ 2 → pktCtx.hdrsBuf j = (src 0 ([0, 1, 1, 2, 3, 16, 17].getD j 0)).data
  last : pktCtx.hdrsBuf 2 = (src last 1).data

/-- The first `n` frames of a packet have been processed. -/
structure Acquired (s₀ : Acquisition) (src : Nat → Nat → AxisIn) (n : Nat) (s : Acquisition) :
    Prop where
  ctx : s.ctx = ctxAt s₀.ctx src n
  counts : n ≠ 0 → s.hdrLcl.hdx = 7 ∧ s.hdrLcl.edx = 0
  headers : n ≠ 0 → KeepsHeaders src (n - 1) s.pktCtx
  view : ∀ c < 128, s.channels.view c = (s₀.channels.view c).after (sampleAt src c) n

section Frames

variable {s₀ s : Acquisition} {src : Nat → Nat → AxisIn} {n : Nat}

/-- What a frame leaves in the contexts of the headers. -/
theorem processHeaders_keeps {frame : StatusFrame} {hdrLcl : HeaderContextLcl}
    {pktCtx : PacketContext} (hd : ∀ j < 30, frame.d j = (src n j).data)
    (hcounts : n ≠ 0 → hdrLcl.hdx = 7 ∧ hdrLcl.edx = 0)
    (hkeeps : n ≠ 0 → KeepsHeaders src (n - 1) pktCtx) :
    let r := processHeaders frame n hdrLcl pktCtx
    (r.1.hdx = 7 ∧ r.1.edx = 0) ∧ KeepsHeaders src n r.2 := by
  by_cases hn : n = 0
  · subst hn
    refine ⟨⟨rfl, rfl⟩, rfl, rfl, fun j hj hne => ?_, hd 1 (by omega)⟩
    have hcases : j = 0 ∨ j = 1 ∨ j = 3 ∨ j = 4 ∨ j = 5 ∨ j = 6 := by omega
    rcases hcases with rfl | rfl | rfl | rfl | rfl | rfl
    · exact hd 0 (by omega)
    · exact hd 1 (by omega)
    · exact hd 2 (by omega)
    · exact hd 3 (by omega)
    · exact hd 16 (by omega)
    · exact hd 17 (by omega)
  · have hbefore := hkeeps hn
    unfold processHeaders
    simp only [if_neg hn]
    refine ⟨hcounts hn, (hcounts hn).1, (hcounts hn).2, fun j hj hne => ?_, ?_⟩
    · show Function.update pktCtx.hdrsBuf 2 (frame.d 1) j = _
      rw [Function.update_of_ne hne, hbefore.first j hj hne]
    · show Function.update pktCtx.hdrsBuf 2 (frame.d 1) 2 = _
      rw [Function.update_self, hd 1 (by omega)]

/-- One frame more. -/
theorem Acquired.frame (h : Acquired s₀ src n s) (buffers : FrameBuffers) (rest : List AxisIn) :
    ∃ s', acquireFrame buffers s n ((List.range 30).map (src n) ++ rest) = some (s', rest) ∧
      Acquired s₀ src (n + 1) s' := by
  obtain ⟨frame, hread, -, hd⟩ := readFrame_words s.ctx buffers.d (src n) rest
  obtain ⟨hcounts, hkeeps⟩ := processHeaders_keeps hd h.counts h.headers
  have hacquire : acquireFrame buffers s n ((List.range 30).map (src n) ++ rest) =
      some (⟨s.ctx.afterFrame fun j => (src n j).data,
        (processFrame frame n buffers.adcs8 s.hdrLcl s.pktCtx s.channels).1,
        (processFrame frame n buffers.adcs8 s.hdrLcl s.pktCtx s.channels).2.1,
        (processFrame frame n buffers.adcs8 s.hdrLcl s.pktCtx s.channels).2.2⟩, rest) := by
    rw [acquireFrame, hread]
    rfl
  refine ⟨_, hacquire, ?_, fun _ => hcounts, fun _ => hkeeps, fun c hc => ?_⟩
  · rw [h.ctx]
    rfl
  · dsimp only
    rw [processFrame_view _ _ _ _ _ _ hc, h.view c hc, frameAdc_congr hd hc]
    rfl

/-- The frames of a packet, from one on. -/
theorem Acquired.loop (buffers : Nat → FrameBuffers) (rest : List AxisIn) (k : Nat)
    (h : Acquired s₀ src n s) :
    ∃ s', acquireLoop buffers k n s (frameStream src rest k n) = some (s', rest) ∧
      Acquired s₀ src (n + k) s' := by
  induction k generalizing n s with
  | zero => exact ⟨s, rfl, h⟩
  | succ k ih =>
    obtain ⟨s₁, hframe, h₁⟩ := h.frame (buffers n) (frameStream src rest k (n + 1))
    obtain ⟨s₂, hloop, h₂⟩ := ih h₁
    refine ⟨s₂, ?_, ?_⟩
    · rw [acquireLoop, frameStream, hframe]
      exact hloop
    · rwa [Nat.add_assoc, Nat.add_comm 1 k] at h₂

/-- The channels after `n + 1` frames. -/
theorem Acquired.channel (h : Acquired s₀ src (n + 1) s) {c : Nat} (hc : c < 128) :
    (∀ i ≤ n, s.channels.adcs.channel c i = sampleAt src c i) ∧
      s.channels.hists.channel c =
        ((s₀.channels.histsLcl c).clear.bumps (s₀.channels.hists.channel c).clear
          (symbolsFrom (sampleAt src c 0)
            ((List.range n).map fun i => sampleAt src c (i + 1)))).2 := by
  obtain ⟨-, hadcs, hhists⟩ := (s₀.channels.view c).after_succ (sampleAt src c) n
  rw [← h.view c hc] at hadcs hhists
  exact ⟨hadcs, congrArg Prod.snd hhists⟩

end Frames

/-- **A packet is acquired**, from any state: the samples of the channels, their histograms and
the headers are those of its 1024 frames. -/
theorem acquirePacket_channels (buffers : Nat → FrameBuffers) (s : Acquisition)
    (src : Nat → Nat → AxisIn) (rest : List AxisIn) :
    ∃ s', acquirePacket buffers s (frameStream src rest 1024 0) = some (s', rest) ∧
      s'.ctx = ctxAt s.ctx src 1024 ∧ KeepsHeaders src 1023 s'.pktCtx ∧
      ∀ c < 128, Waveform.ofAdcs (s'.channels.adcs.channel c) = packetWave src c ∧
        s'.channels.hists.channel c =
          (packetWave src c).histogram (s.channels.histsLcl c) (s.channels.hists.channel c) := by
  have hstart : Acquired s src 0 s :=
    ⟨rfl, fun h => absurd rfl h, fun h => absurd rfl h, fun c _ => rfl⟩
  obtain ⟨s', hrun, hdone⟩ := hstart.loop buffers rest 1024
  rw [Nat.zero_add] at hdone
  have hlast : Acquired s src (1023 + 1) s' := hdone
  refine ⟨s', hrun, hdone.ctx, hlast.headers (by omega), fun c hc => ?_⟩
  obtain ⟨hadcs, hhist⟩ := hlast.channel hc
  constructor
  · unfold packetWave Waveform.ofAdcs
    rw [Waveform.mk.injEq]
    refine ⟨hadcs 0 (by omega), List.map_congr_left fun i hi => ?_⟩
    have hlt := List.mem_range.mp hi
    exact hadcs (i + 1) (by omega)
  · rw [hhist, packetWave, Waveform.histogram, Waveform.symbols, Waveform.ofAdcs]

end ProtoDune.Firmware
