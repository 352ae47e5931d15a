import ProtoDune.Firmware.Histogram
import ProtoDune.Firmware.WibFrameRead

/-!
# `WibFrame-Process.h`: from a WIB frame to the channels

`process_frame` keeps the headers of a packet's first frame, takes the 128 ADCs
out of the COLDDATA words, and counts the symbols of the differences.

Main results:

* `processFrame_channel` — the ADC of a channel is taken from three nibbles of
  48 bits of the COLDDATA words.
* `processFrame_headers` — the header words of a packet.
-/

namespace ProtoDune.Firmware

/-! ## The headers -/

/-- `HeaderContextLcl`. -/
structure HeaderContextLcl where
  hdx : Nat
  edx : Nat
  status : BitVec 32

/-- `PacketContext`, the fields that are written. -/
structure PacketContext where
  chdx : Nat
  cedx : Nat
  status : BitVec 32
  hdrsBuf : Nat → BitVec 64

/-- `addHeader`. -/
def addHeader (s : HeaderContextLcl × (Nat → BitVec 64)) (hdr : BitVec 64) :
    HeaderContextLcl × (Nat → BitVec 64) :=
  ({ s.1 with hdx := s.1.hdx + 1 }, Function.update s.2 s.1.hdx hdr)

/-- The headers of a frame. -/
def processHeaders (frame : StatusFrame) (iframe : Nat) (hdrLcl : HeaderContextLcl)
    (pktCtx : PacketContext) : HeaderContextLcl × PacketContext :=
  let d := frame.d
  let (hdrLcl, hdrsBuf) :=
    if iframe = 0 then
      let hdrLcl := { hdx := 0, edx := 0, status := ReadStatus.errsOnFirst frame.status }
      [d 0, d 1, d 1, d 2, d 3, d 16, d 17].foldl addHeader (hdrLcl, pktCtx.hdrsBuf)
    else ({ hdrLcl with status := hdrLcl.status ||| frame.status }, pktCtx.hdrsBuf)
  (hdrLcl, { chdx := hdrLcl.hdx, cedx := hdrLcl.edx, status := hdrLcl.status
             hdrsBuf := Function.update hdrsBuf 2 (d 1) })

/-! ## The ADCs -/

def extractAdc0 (adcs4 : BitVec 48) : AdcIn := adcs4.extractLsb' 0x10 4 ++ adcs4.extractLsb' 0x00 8
def extractAdc1 (adcs4 : BitVec 48) : AdcIn := adcs4.extractLsb' 0x18 4 ++ adcs4.extractLsb' 0x08 8
def extractAdc2 (adcs4 : BitVec 48) : AdcIn := adcs4.extractLsb' 0x20 8 ++ adcs4.extractLsb' 0x14 4
def extractAdc3 (adcs4 : BitVec 48) : AdcIn := adcs4.extractLsb' 0x28 8 ++ adcs4.extractLsb' 0x1c 4

/-- Four arrays `sg0 .. sg3`: the channel `c` is the element `c / 4` of the array `c % 4`. -/
structure Groups (α : Type*) where
  sg0 : Nat → α
  sg1 : Nat → α
  sg2 : Nat → α
  sg3 : Nat → α

/-- The element of a channel. -/
def Groups.channel {α : Type*} (g : Groups α) (c : Nat) : α :=
  match c % 4 with
  | 0 => g.sg0 (c / 4)
  | 1 => g.sg1 (c / 4)
  | 2 => g.sg2 (c / 4)
  | _ => g.sg3 (c / 4)

/-- `CompressionContext`, and the static arrays `HistsLcl` and `Prv`. -/
structure ChannelState where
  adcs : Groups (Nat → AdcIn)
  hists : Groups Histogram
  histsLcl : Nat → Histogram
  prv : Nat → AdcIn

/-- The histograms of one channel in `process4`. -/
def count4 (iframe : Nat) (adc prv : AdcIn) (histLcl hist : Histogram) : Histogram × Histogram :=
  if iframe = 0 then (histLcl.clear, hist.clear)
  else histLcl.bump hist (Histogram.symbol adc prv)

/-- `process4`, on the arrays from `iserial` and `ichan` on. -/
def process4 (s : ChannelState) (iserial ichan iframe : Nat) (adcs4 : BitVec 48) : ChannelState :=
  let adc0 := extractAdc0 adcs4
  let adc1 := extractAdc1 adcs4
  let adc2 := extractAdc2 adcs4
  let adc3 := extractAdc3 adcs4
  let h0 := count4 iframe adc0 (s.prv ichan) (s.histsLcl ichan) (s.hists.sg0 iserial)
  let h1 := count4 iframe adc1 (s.prv (ichan + 1)) (s.histsLcl (ichan + 1)) (s.hists.sg1 iserial)
  let h2 := count4 iframe adc2 (s.prv (ichan + 2)) (s.histsLcl (ichan + 2)) (s.hists.sg2 iserial)
  let h3 := count4 iframe adc3 (s.prv (ichan + 3)) (s.histsLcl (ichan + 3)) (s.hists.sg3 iserial)
  let store (a : Nat → Nat → AdcIn) (adc : AdcIn) :=
    Function.update a iserial (Function.update (a iserial) iframe adc)
  let spread {α : Type} (a : Nat → α) (x0 x1 x2 x3 : α) :=
    Function.update (Function.update (Function.update (Function.update a
      ichan x0) (ichan + 1) x1) (ichan + 2) x2) (ichan + 3) x3
  { adcs := ⟨store s.adcs.sg0 adc0, store s.adcs.sg1 adc1, store s.adcs.sg2 adc2,
      store s.adcs.sg3 adc3⟩
    hists := ⟨Function.update s.hists.sg0 iserial h0.2, Function.update s.hists.sg1 iserial h1.2,
      Function.update s.hists.sg2 iserial h2.2, Function.update s.hists.sg3 iserial h3.2⟩
    histsLcl := spread s.histsLcl h0.1 h1.1 h2.1 h3.1
    prv := spread s.prv adc0 adc1 adc2 adc3 }

/-- `PROCESS_COLDDATA_EXTRACT_LOOP`, with `k` iterations to go. -/
def extractLoop (d : Nat → BitVec 64) : Nat → Nat → Nat → (Nat → BitVec 96) → Nat → BitVec 96
  | 0, _, _, adcs8 => adcs8
  | k + 1, idx, odx, adcs8 =>
      let a0 := d idx
      let a1 := d (idx + 1)
      let a2 := d (idx + 2)
      let idx := idx + 3
      let adcs8 := Function.update adcs8 odx (a1.extractLsb' 0 32 ++ a0)
      let adcs8 := Function.update adcs8 (odx + 1) (a2 ++ a1.extractLsb' 32 32)
      let odx := odx + 2
      let idx := if odx = 8 then idx + 2 else idx
      extractLoop d k idx odx adcs8

/-- `PROCESS_COLDDATA_PROCESS_LOOP`, with `k` iterations to go. -/
def processLoop (adcs8 : Nat → BitVec 96) (iframe : Nat) : Nat → Nat → Nat → ChannelState →
    ChannelState
  | 0, _, _, s => s
  | k + 1, iserial, ichan, s =>
      let adc8 := adcs8 (ichan >>> 3)
      let s := process4 s iserial ichan iframe (adc8.setWidth 48)
      let s := process4 s (iserial + 1) (ichan + 4) iframe ((adc8 >>> 48).setWidth 48)
      processLoop adcs8 iframe k (iserial + 2) (ichan + 8) s

/-- `MODULE_K_NSERIAL`. -/
def NSerial : Nat := 32

/-- `process_frame`; `adcs8` is what the local array holds before. -/
def processFrame (frame : StatusFrame) (iframe : Nat) (adcs8 : Nat → BitVec 96)
    (hdrLcl : HeaderContextLcl) (pktCtx : PacketContext) (s : ChannelState) :
    HeaderContextLcl × PacketContext × ChannelState :=
  let (hdrLcl, pktCtx) := processHeaders frame iframe hdrLcl pktCtx
  let adcs8 := extractLoop frame.d 8 4 0 adcs8
  (hdrLcl, pktCtx, processLoop adcs8 iframe (NSerial / 2) 0 0 s)

/-! ## Where the ADC of a channel comes from -/

/-- The ADC number `r` of 48 bits. -/
def extractAdc (r : Nat) (adcs4 : BitVec 48) : AdcIn :=
  match r with
  | 0 => extractAdc0 adcs4
  | 1 => extractAdc1 adcs4
  | 2 => extractAdc2 adcs4
  | _ => extractAdc3 adcs4

/-- The 48 bits for the element `i` of the four arrays. -/
def serialBits (adcs8 : Nat → BitVec 96) (i : Nat) : BitVec 48 :=
  (adcs8 (i / 2) >>> (48 * (i % 2))).setWidth 48

/-- The word with which a pair of elements of `adcs8` starts: the COLDDATA headers are skipped. -/
def pairWord (j : Nat) : Nat := if j < 4 then 4 + 3 * j else 6 + 3 * j

/-- An element of `adcs8`. -/
def adcs8At (d : Nat → BitVec 64) (m : Nat) : BitVec 96 :=
  let i := pairWord (m / 2)
  if m % 2 = 0 then (d (i + 1)).extractLsb' 0 32 ++ d i
  else d (i + 2) ++ (d (i + 1)).extractLsb' 32 32

theorem process4_channel (s : ChannelState) (iserial ichan iframe c : Nat) (adcs4 : BitVec 48) :
    (process4 s iserial ichan iframe adcs4).adcs.channel c iframe =
      if c / 4 = iserial then extractAdc (c % 4) adcs4 else s.adcs.channel c iframe := by
  have hcases : c % 4 = 0 ∨ c % 4 = 1 ∨ c % 4 = 2 ∨ c % 4 = 3 := by omega
  by_cases hi : c / 4 = iserial
  · rcases hcases with h | h | h | h <;>
      simp [Groups.channel, process4, extractAdc, h, hi]
  · rcases hcases with h | h | h | h <;>
      simp [Groups.channel, process4, h, hi]

theorem processLoop_channel (adcs8 : Nat → BitVec 96) (iframe k i c : Nat) (s : ChannelState)
    (hc : c < 8 * (i + k)) :
    (processLoop adcs8 iframe k (2 * i) (8 * i) s).adcs.channel c iframe =
      if 8 * i ≤ c then extractAdc (c % 4) (serialBits adcs8 (c / 4))
      else s.adcs.channel c iframe := by
  induction k generalizing i s with
  | zero => rw [if_neg (by omega), processLoop]
  | succ k ih =>
      have hshift : (8 * i) >>> 3 = i := by rw [Nat.shiftRight_eq_div_pow]; omega
      rw [processLoop, hshift]
      have hnext := ih (i + 1) (process4 (process4 s (2 * i) (8 * i) iframe
        ((adcs8 i).setWidth 48)) (2 * i + 1) (8 * i + 4) iframe ((adcs8 i >>> 48).setWidth 48))
        (by omega)
      rw [show 2 * i + 2 = 2 * (i + 1) by omega, show 8 * i + 8 = 8 * (i + 1) by omega, hnext,
        process4_channel, process4_channel]
      by_cases hlow : c < 8 * i
      · have h0 : ¬c / 4 = 2 * i := by omega
        have h1 : ¬c / 4 = 2 * i + 1 := by omega
        rw [if_neg (Nat.not_le.mpr hlow), if_neg h1, if_neg h0, if_neg (by omega)]
      · rw [if_pos (Nat.le_of_not_lt hlow)]
        have hcases : 8 * (i + 1) ≤ c ∨ c / 4 = 2 * i ∨ c / 4 = 2 * i + 1 := by omega
        rcases hcases with h | h | h
        · rw [if_pos h]
        · have h1 : ¬2 * i = 2 * i + 1 := by omega
          rw [h, if_neg (by omega), if_neg h1, if_pos rfl, serialBits,
            show 2 * i / 2 = i by omega, show 2 * i % 2 = 0 by omega]
          rfl
        · rw [h, if_neg (by omega), if_pos rfl, serialBits, show (2 * i + 1) / 2 = i by omega,
            show (2 * i + 1) % 2 = 1 by omega]

theorem extractLoop_spec (d : Nat → BitVec 64) (k j m : Nat) (adcs8 : Nat → BitVec 96)
    (hk : j + k = 8) (hm : m < 16) :
    extractLoop d k (pairWord j) (2 * j) adcs8 m = if 2 * j ≤ m then adcs8At d m else adcs8 m := by
  induction k generalizing j adcs8 with
  | zero => rw [if_neg (by omega), extractLoop]
  | succ k ih =>
      have hword : (if 2 * j + 2 = 8 then pairWord j + 3 + 2 else pairWord j + 3) =
          pairWord (j + 1) := by
        unfold pairWord
        split_ifs <;> omega
      rw [extractLoop]
      rw [hword, show 2 * j + 2 = 2 * (j + 1) by omega, ih (j + 1) _ (by omega)]
      by_cases hge : 2 * (j + 1) ≤ m
      · rw [if_pos hge, if_pos (by omega)]
      · rw [if_neg hge]
        by_cases hodd : m = 2 * j + 1
        · subst hodd
          rw [Function.update_self, if_pos (by omega), adcs8At, if_neg (by omega),
            show (2 * j + 1) / 2 = j by omega]
        · rw [Function.update_of_ne hodd]
          by_cases heven : m = 2 * j
          · subst heven
            rw [Function.update_self, if_pos (by omega), adcs8At, if_pos (by omega),
              show 2 * j / 2 = j by omega]
          · rw [Function.update_of_ne heven, if_neg (by omega)]

theorem processFrame_channel (frame : StatusFrame) (iframe : Nat) (adcs8 : Nat → BitVec 96)
    (hdrLcl : HeaderContextLcl) (pktCtx : PacketContext) (s : ChannelState) {c : Nat}
    (hc : c < 128) :
    (processFrame frame iframe adcs8 hdrLcl pktCtx s).2.2.adcs.channel c iframe =
      extractAdc (c % 4) (serialBits (adcs8At frame.d) (c / 4)) := by
  have hloop := processLoop_channel (extractLoop frame.d 8 4 0 adcs8) iframe 16 0 c s (by omega)
  rw [if_pos (Nat.zero_le c)] at hloop
  refine hloop.trans ?_
  have hat : extractLoop frame.d 8 4 0 adcs8 (c / 4 / 2) = adcs8At frame.d (c / 4 / 2) :=
    (extractLoop_spec frame.d 8 0 (c / 4 / 2) adcs8 rfl (by omega)).trans
      (if_pos (Nat.zero_le _))
  rw [serialBits, hat, serialBits]

/-- The headers of the first frame of a packet. -/
theorem processFrame_headers (frame : StatusFrame) (adcs8 : Nat → BitVec 96)
    (hdrLcl : HeaderContextLcl) (pktCtx : PacketContext) (s : ChannelState) :
    let pkt := (processFrame frame 0 adcs8 hdrLcl pktCtx s).2.1
    (List.range pkt.chdx).map pkt.hdrsBuf = [0, 1, 1, 2, 3, 16, 17].map frame.d :=
  rfl

end ProtoDune.Firmware
