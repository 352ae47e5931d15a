import Mathlib.Data.Fintype.EquivFin
import ProtoDune.Firmware.EmuTxFramer
import ProtoDune.Firmware.WibFrameProcess

/-!
# From the emulator to the channels of the compressor

The words of an emulated frame, packed four at a time, are a WIB frame. The
emulator interleaves two streams of 64 ADCs byte by byte; `process_frame` takes
the channels `2 j` and `2 j + 1` from the ADCs `j` and `64 + j`.

Main results:

* `extractAdc_serialBits` — the four ADCs in 48 bits of the COLDDATA words.
* `emulated_channels` — the channel map and the header words of a whole frame.
-/

namespace ProtoDune.Firmware

open ProtoDuneDpmEmuTxFramer BitPack

/-- 16-bit words, packed four at a time. -/
def packWords (ws : Nat → BitVec 16) (i : Nat) : BitVec 64 :=
  BitPack.pack (fun k => ws (4 * i + k)) 4

theorem getLsbD_packWords (ws : Nat → BitVec 16) (i : Nat) {n : Nat} (hn : n < 64) :
    (packWords ws i).getLsbD n = (ws (4 * i + n / 16)).getLsbD (n % 16) :=
  getLsbD_pack _ hn

/-- The position of a COLDDATA word in the frame. -/
def coldPos (j : Nat) : Nat := if j < 48 then 16 + j else 24 + j

theorem adcs8At_getLsbD (ws : Nat → BitVec 16) (m : Nat) {n : Nat} (hn : n < 96) :
    (adcs8At (packWords ws) m).getLsbD n =
      (ws (coldPos (6 * m + n / 16))).getLsbD (n % 16) := by
  have hpair : 4 * pairWord (m / 2) = coldPos (12 * (m / 2)) := by
    unfold pairWord coldPos
    split_ifs <;> omega
  have hpos : ∀ k < 12, coldPos (12 * (m / 2)) + k = coldPos (12 * (m / 2) + k) := by
    intro k hk
    unfold coldPos
    split_ifs <;> omega
  unfold adcs8At
  by_cases heven : m % 2 = 0
  · rw [if_pos heven, BitVec.getLsbD_append]
    by_cases hlow : n < 64
    · rw [if_pos hlow, getLsbD_packWords _ _ hlow, hpair, hpos _ (by omega),
        show 12 * (m / 2) = 6 * m by omega]
    · rw [if_neg hlow, BitVec.getLsbD_extractLsb', decide_eq_true (by omega), Bool.true_and,
        getLsbD_packWords _ _ (by omega), Nat.mul_add, hpair, Nat.add_assoc, hpos _ (by omega),
        show 12 * (m / 2) + (4 * 1 + (0 + (n - 64)) / 16) = 6 * m + n / 16 by omega,
        show (0 + (n - 64)) % 16 = n % 16 by omega]
  · rw [if_neg heven, BitVec.getLsbD_append]
    by_cases hlow : n < 32
    · rw [if_pos hlow, BitVec.getLsbD_extractLsb', decide_eq_true hlow, Bool.true_and,
        getLsbD_packWords _ _ (by omega), Nat.mul_add, hpair, Nat.add_assoc, hpos _ (by omega),
        show 12 * (m / 2) + (4 * 1 + (32 + n) / 16) = 6 * m + n / 16 by omega,
        show (32 + n) % 16 = n % 16 by omega]
    · rw [if_neg hlow, getLsbD_packWords _ _ (by omega), Nat.mul_add, hpair, Nat.add_assoc,
        hpos _ (by omega),
        show 12 * (m / 2) + (4 * 2 + (n - 32) / 16) = 6 * m + n / 16 by omega,
        show (n - 32) % 16 = n % 16 by omega]

theorem serialBits_packWords (ws : Nat → BitVec 16) (i : Nat) {n : Nat} (hn : n < 48) :
    (serialBits (adcs8At (packWords ws)) i).getLsbD n =
      (ws (coldPos (3 * i + n / 16))).getLsbD (n % 16) := by
  rw [serialBits, BitVec.getLsbD_setWidth, decide_eq_true hn, Bool.true_and,
    BitVec.getLsbD_ushiftRight, adcs8At_getLsbD ws _ (by omega),
    show 6 * (i / 2) + (48 * (i % 2) + n) / 16 = 3 * i + n / 16 by omega,
    show (48 * (i % 2) + n) % 16 = n % 16 by omega]

/-- A bit of a COLDDATA word: the low byte is of the first 64 ADCs, the high byte of the others. -/
theorem coldWord_getLsbD (adcData : Nat → BitVec 12) {j q : Nat} (hj : j < 96) (hq : q < 16) :
    (coldWord adcData j).getLsbD q =
      (adcData ((8 * j + q % 8) / 12 + 64 * (q / 8))).getLsbD ((8 * j + q % 8) % 12) := by
  rw [coldWord, BitVec.getLsbD_append]
  by_cases hlow : q < 8
  · rw [if_pos hlow, BitVec.getLsbD_extractLsb', decide_eq_true hlow, Bool.true_and, coldData,
      getLsbD_pack _ (by omega), Nat.add_zero, show q / 8 = 0 by omega, Nat.mul_comm j 8,
      Nat.mod_eq_of_lt hlow]
    rfl
  · rw [if_neg hlow, BitVec.getLsbD_extractLsb', decide_eq_true (by omega), Bool.true_and,
      coldData, getLsbD_pack _ (by omega), show q / 8 = 1 by omega, Nat.mul_comm j 8,
      show q % 8 = q - 8 by omega]

/-- The COLDDATA words are filled from `adcData`. -/
def FilledFrom (ws : Nat → BitVec 16) (adcData : Nat → BitVec 12) : Prop :=
  ∀ j < 96, ws (coldPos j) = coldWord adcData j

/-- Bit `n` of the 48 bits: its byte is of the stream `n / 8 % 2`. -/
theorem serialBits_getLsbD {ws : Nat → BitVec 16} {adcData : Nat → BitVec 12}
    (hws : FilledFrom ws adcData) {i n : Nat} (hi : i < 32) (hn : n < 48) :
    (serialBits (adcs8At (packWords ws)) i).getLsbD n =
      (adcData (2 * i + (8 * (n / 16) + n % 8) / 12 + 64 * (n / 8 % 2))).getLsbD
        ((8 * (n / 16) + n % 8) % 12) := by
  rw [serialBits_packWords ws i hn, hws _ (by omega),
    coldWord_getLsbD adcData (by omega) (by omega),
    show (8 * (3 * i + n / 16) + n % 16 % 8) / 12 + 64 * (n % 16 / 8) =
      2 * i + (8 * (n / 16) + n % 8) / 12 + 64 * (n / 8 % 2) by omega,
    show (8 * (3 * i + n / 16) + n % 16 % 8) % 12 = (8 * (n / 16) + n % 8) % 12 by omega]

/-- The four ADCs in 48 bits. -/
theorem extractAdc_serialBits {ws : Nat → BitVec 16} {adcData : Nat → BitVec 12}
    (hws : FilledFrom ws adcData) {i r : Nat} (hi : i < 32) (hr : r < 4) :
    extractAdc r (serialBits (adcs8At (packWords ws)) i) =
      adcData (2 * i + r / 2 + 64 * (r % 2)) := by
  have hcases : r = 0 ∨ r = 1 ∨ r = 2 ∨ r = 3 := by omega
  apply BitVec.eq_of_getLsbD_eq
  intro b hb
  rcases hcases with rfl | rfl | rfl | rfl
  all_goals
    simp only [extractAdc, extractAdc0, extractAdc1, extractAdc2, extractAdc3,
      BitVec.getLsbD_append, BitVec.getLsbD_extractLsb']
    split
    all_goals
      rw [decide_eq_true (by omega), Bool.true_and, serialBits_getLsbD hws hi (by omega)]
      congr 2 <;> omega

/-! ## The words of an emulated frame -/

variable {σ : Type*} (e : CrcEngine σ)

/-- The words of a frame whose cycles put the symbols `S` on the line: four symbols are still in
the delay line and go first. -/
def lineWords (S : List LineSymbol) (i : Nat) : BitVec 16 := (S.getD (4 + i) idle).data

theorem lineWords_sent {m : Emulator σ} (h : Ready m.r) {p : Ports} (hp : p.enable = true)
    {ps : List Ports} (hlen : ps.length = 124) {i : Nat} (hi : i < wibWords) :
    lineWords (sent e m (p :: ps)) i =
      word ((p :: ps).getD i p) p.timingTs m.r.convertCnt i := by
  have hi : i < 120 := hi
  have hframe := frame_sent (e := e) h hp (ps.take 119) (ps.drop 119) (by simp [hlen])
    (by simp [hlen])
  rw [List.cons_append, List.take_append_drop] at hframe
  generalize hW : sentWords p.timingTs m.r.convertCnt (p :: ps.take 119) = W at hframe
  have hWlen : W.length = 120 := by
    rw [← hW, length_sentWords, List.length_cons, List.length_take, hlen]
    rfl
  have hget : (sent e m (p :: ps))[4 + i]? = (wordSymbols W)[i]? := by
    rw [hframe, List.append_assoc, List.getElem?_append_right (Nat.le_add_right 4 i),
      List.getElem?_append_left (by
        rw [length_wordSymbols, hWlen]
        exact Nat.lt_of_le_of_lt (Nat.le_of_eq (Nat.add_sub_cancel_left ..)) hi)]
    exact congrArg ((wordSymbols W)[·]?) (Nat.add_sub_cancel_left ..)
  have hword : ((wordSymbols W)[i]?).map LineSymbol.data =
      some (word ((p :: ps).getD i p) p.timingTs m.r.convertCnt i) := by
    have hport : (p :: ps.take 119)[i]? = some ((p :: ps).getD i p) := by
      rw [← List.take_succ_cons, List.getElem?_take_of_lt hi, List.getD_eq_getElem?_getD,
        List.getElem?_eq_getElem (by rw [List.length_cons, hlen]; omega)]
      rfl
    rw [← List.getElem?_map, map_data_wordSymbols, ← hW, sentWords, List.getElem?_mapIdx, hport]
    rfl
  rw [lineWords, List.getD_eq_getElem?_getD, hget]
  obtain ⟨x, hx, hdata⟩ := Option.map_eq_some_iff.mp hword
  rw [hx]
  exact hdata

/-- The convert count that the checker reads from a COLDDATA header. -/
theorem cvtCnt_packWords (ws : Nat → BitVec 16) (i : Nat) :
    WibFrame.ColdData.cvtCnt (packWords ws i) = ws (4 * i + 3) := by
  apply BitVec.eq_of_getLsbD_eq
  intro n hn
  rw [WibFrame.ColdData.cvtCnt, BitVec.getLsbD_extractLsb', decide_eq_true hn, Bool.true_and,
    getLsbD_packWords ws i (by omega), show (48 + n) / 16 = 3 by omega,
    show (48 + n) % 16 = n by omega]

/-- The word of a timestamp, of which the debug flag takes the top bit. -/
theorem packWords_timestamp {ws : Nat → BitVec 16} {timestamp : BitVec 64} {sendCnt : Bool}
    (h0 : ws 4 = timestamp.extractLsb' 0 16) (h1 : ws 5 = timestamp.extractLsb' 16 16)
    (h2 : ws 6 = timestamp.extractLsb' 32 16)
    (h3 : ws 7 = BitVec.ofBool sendCnt ++ timestamp.extractLsb' 48 15) :
    packWords ws 1 = BitVec.ofBool sendCnt ++ timestamp.extractLsb' 0 63 := by
  apply BitVec.eq_of_getLsbD_eq
  intro n hn
  have hcases : n / 16 = 0 ∨ n / 16 = 1 ∨ n / 16 = 2 ∨ n / 16 = 3 := by omega
  rw [getLsbD_packWords ws 1 hn, BitVec.getLsbD_append]
  rcases hcases with h | h | h | h
  · rw [h, h0, if_pos (by omega), BitVec.getLsbD_extractLsb', BitVec.getLsbD_extractLsb',
      decide_eq_true (by omega), decide_eq_true (by omega), show 0 + n % 16 = 0 + n by omega]
  · rw [h, h1, if_pos (by omega), BitVec.getLsbD_extractLsb', BitVec.getLsbD_extractLsb',
      decide_eq_true (by omega), decide_eq_true (by omega), show 16 + n % 16 = 0 + n by omega]
  · rw [h, h2, if_pos (by omega), BitVec.getLsbD_extractLsb', BitVec.getLsbD_extractLsb',
      decide_eq_true (by omega), decide_eq_true (by omega), show 32 + n % 16 = 0 + n by omega]
  · rw [h, h3, BitVec.getLsbD_append]
    by_cases hlow : n < 63
    · rw [if_pos (by omega), if_pos hlow, BitVec.getLsbD_extractLsb', BitVec.getLsbD_extractLsb',
        decide_eq_true (by omega), decide_eq_true (by omega), show 48 + n % 16 = 0 + n by omega]
    · rw [if_neg (by omega), if_neg hlow, show n % 16 - 15 = n - 63 by omega]

/-! ## The channel map -/

/-- The channel of the compressor for an ADC of the emulator. -/
def channelOf (j : Fin 128) : Fin 128 :=
  if h : j.val < 64 then ⟨2 * j, by omega⟩ else ⟨2 * (j - 64) + 1, by omega⟩

theorem channelOf_bijective : Function.Bijective channelOf := by
  rw [← Finite.injective_iff_bijective]
  intro i j hij
  have hval : (channelOf i).val = (channelOf j).val := congrArg Fin.val hij
  unfold channelOf at hval
  split_ifs at hval <;> exact Fin.ext (by simp only at hval; omega)

/-- The ADCs of a frame that is filled from `adcData`. -/
theorem processFrame_channelOf {ws : Nat → BitVec 16} {adcData : Nat → BitVec 12}
    (hws : FilledFrom ws adcData) (status wstatus : BitVec 32) (iframe : Nat)
    (adcs8 : Nat → BitVec 96) (hdrLcl : HeaderContextLcl) (pktCtx : PacketContext)
    (c : ChannelState) (j : Fin 128) :
    (processFrame ⟨⟨packWords ws, wstatus⟩, status⟩ iframe adcs8 hdrLcl pktCtx c).2.2.adcs.channel
      (channelOf j) iframe = adcData j := by
  have hj := j.isLt
  have hlt := (channelOf j).isLt
  have hat : 2 * ((channelOf j).val / 4) + (channelOf j).val % 4 / 2 +
      64 * ((channelOf j).val % 4 % 2) = j.val := by
    unfold channelOf
    split_ifs <;> simp only <;> omega
  rw [processFrame_channel _ _ _ _ _ _ hlt, extractAdc_serialBits hws (by omega) (by omega), hat]

section Frame

variable {e} {m : Emulator σ} {p : Ports} {ps : List Ports} {adcData : Nat → BitVec 12}

/-- A word of a frame that is sent without the debug counter. -/
theorem lineWords_mux (h : Ready m.r) (hp : p.enable = true) (hlen : ps.length = 124)
    (hdebug : ∀ q ∈ p :: ps, ¬(q.sendCnt = true ∧ q.enable = true)) {i : Nat} (hi : i < wibWords) :
    lineWords (sent e m (p :: ps)) i =
      muxWord ((p :: ps).getD i p) p.timingTs m.r.convertCnt i := by
  have hi' : i < 120 := hi
  have hmem : (p :: ps).getD i p ∈ p :: ps := by
    rw [List.getD_eq_getElem _ _ (by rw [List.length_cons, hlen]; omega)]
    exact List.getElem_mem _
  rw [lineWords_sent e h hp hlen hi, word, if_neg (hdebug _ hmem)]

theorem coldWord_congr {adcs adcs' : Nat → BitVec 12} (h : ∀ j < 128, adcs j = adcs' j)
    (idx : Nat) : coldWord adcs idx = coldWord adcs' idx := by
  have hlo : coldData adcs 0 = coldData adcs' 0 := pack_congr fun k hk => h _ (by omega)
  have hhi : coldData adcs 64 = coldData adcs' 64 := pack_congr fun k hk => h _ (by omega)
  rw [coldWord, coldWord, hlo, hhi]

theorem filledFrom_sent (h : Ready m.r) (hp : p.enable = true) (hlen : ps.length = 124)
    (hdebug : ∀ q ∈ p :: ps, ¬(q.sendCnt = true ∧ q.enable = true))
    (hadc : ∀ q ∈ p :: ps, ∀ j < 128, q.adcData j = adcData j) :
    FilledFrom (lineWords (sent e m (p :: ps))) adcData := by
  intro j hj
  have hpos : coldPos j < 120 := by
    unfold coldPos
    split_ifs <;> omega
  have hmem : (p :: ps).getD (coldPos j) p ∈ p :: ps := by
    rw [List.getD_eq_getElem _ _ (by rw [List.length_cons, hlen]; omega)]
    exact List.getElem_mem _
  rw [lineWords_mux h hp hlen hdebug hpos, ← coldWord_congr (hadc _ hmem) j]
  unfold muxWord coldPos
  by_cases hlow : j < 48
  · simp (disch := omega) only [if_pos, if_neg, Nat.add_sub_cancel_left]
  · simp (disch := omega) only [if_pos, if_neg, Nat.add_sub_cancel_left]

/-- The timestamp word. -/
theorem timestamp_sent (h : Ready m.r) (hp : p.enable = true) (hlen : ps.length = 124)
    (hdebug : ∀ q ∈ p :: ps, ¬(q.sendCnt = true ∧ q.enable = true)) :
    packWords (lineWords (sent e m (p :: ps))) 1 =
      BitVec.ofBool ((p :: ps).getD 7 p).sendCnt ++ p.timingTs.extractLsb' 0 63 := by
  have hmux {i : Nat} (hi : i < wibWords) := lineWords_mux (e := e) h hp hlen hdebug hi
  exact packWords_timestamp (hmux (by decide)) (hmux (by decide)) (hmux (by decide))
    (hmux (by decide))

end Frame

/-- A frame of the emulator without the debug counter: the compressor finds each ADC at its
channel, and the timestamp, except for its top bit, and the convert count in the header words
where it reads them. -/
theorem emulated_channels (s : σ) (before : List Ports) (p : Ports) (ps : List Ports)
    (adcData : Nat → BitVec 12)
    (hcnt : (before.foldl (tick e) (Emulator.init s)).r.cnt = 1) (hp : p.enable = true)
    (hlen : ps.length = 124) (hadc : ∀ q ∈ p :: ps, ∀ j < 128, q.adcData j = adcData j)
    (hdebug : ∀ q ∈ p :: ps, ¬(q.sendCnt = true ∧ q.enable = true))
    (status wstatus : BitVec 32) (iframe : Nat) (adcs8 : Nat → BitVec 96)
    (hdrLcl : HeaderContextLcl) (pktCtx : PacketContext) (c : ChannelState) :
    let m := before.foldl (tick e) (Emulator.init s)
    let d := packWords (lineWords (sent e m (p :: ps)))
    let out := processFrame ⟨⟨d, wstatus⟩, status⟩ iframe adcs8 hdrLcl pktCtx c
    Function.Bijective channelOf ∧
      (∀ j : Fin 128, out.2.2.adcs.channel (channelOf j) iframe = adcData j) ∧
      d 1 = BitVec.ofBool ((p :: ps).getD 7 p).sendCnt ++ p.timingTs.extractLsb' 0 63 ∧
      WibFrame.ColdData.cvtCnt (d 2) = m.r.convertCnt ∧
      WibFrame.ColdData.cvtCnt (d 16) = m.r.convertCnt ∧
      (iframe = 0 → (List.range out.2.1.chdx).map out.2.1.hdrsBuf =
        [d 0, d 1, d 1, d 2, d 3, d 16, d 17]) := by
  intro m d out
  have h : Ready m.r := ((Sends.init s).run before).ready_of_cnt hcnt
  refine ⟨channelOf_bijective, ?_, timestamp_sent h hp hlen hdebug, ?_, ?_, ?_⟩
  · exact processFrame_channelOf (filledFrom_sent h hp hlen hdebug hadc) _ _ _ _ _ _ _
  · exact (cvtCnt_packWords _ 2).trans (lineWords_mux h hp hlen hdebug (by decide))
  · exact (cvtCnt_packWords _ 16).trans (lineWords_mux h hp hlen hdebug (by decide))
  · rintro rfl
    rfl

/-- Ports of an emulator that sends a ramp, with the top bit of the timestamp set. -/
def rampPorts : Ports where
  enable := true
  sendCnt := false
  adcData := fun j => BitVec.ofNat 12 j
  timingTs := BitVec.twoPow 64 63
  fiberId := 0
  crateId := 0
  slotId := 0

/-- A CRC engine that counts its words. -/
def countingEngine : CrcEngine Nat := ⟨0, fun n _ => n + 1, fun n => BitVec.ofNat 32 n⟩

/-- The first frame of the ramp. -/
def rampFrame : Nat → BitVec 64 :=
  packWords (lineWords (sent countingEngine (Emulator.init 0)
    (rampPorts :: List.replicate 124 rampPorts)))

theorem eq_of_mem_ramp {q : Ports} (hq : q ∈ rampPorts :: List.replicate 124 rampPorts) :
    q = rampPorts := by
  rcases List.mem_cons.mp hq with h | h
  · exact h
  · exact List.eq_of_mem_replicate h

theorem ramp_no_debug : ∀ q ∈ rampPorts :: List.replicate 124 rampPorts,
    ¬(q.sendCnt = true ∧ q.enable = true) := by
  intro q hq h
  rw [eq_of_mem_ramp hq] at h
  exact Bool.false_ne_true h.1

theorem emulated_channels_ramp :
    let h : Histogram := ⟨0, 0, 0, 0, 0, 0, 0, 0, fun _ => 0⟩
    let c : ChannelState := ⟨⟨fun _ _ => 0, fun _ _ => 0, fun _ _ => 0, fun _ _ => 0⟩,
      ⟨fun _ => h, fun _ => h, fun _ => h, fun _ => h⟩, fun _ => h, fun _ => 0⟩
    let out := processFrame ⟨⟨rampFrame, 0⟩, 0⟩ 0 (fun _ => 0) ⟨0, 0, 0⟩ ⟨0, 0, 0, fun _ => 0⟩ c
    ∀ j : Fin 128, out.2.2.adcs.channel (channelOf j) 0 = BitVec.ofNat 12 j :=
  (emulated_channels countingEngine 0 [] rampPorts (List.replicate 124 rampPorts)
    (BitVec.ofNat 12) rfl rfl (by simp)
    (by
      intro q hq j _
      rw [eq_of_mem_ramp hq]
      rfl)
    ramp_no_debug 0 0 0 _ _ _ _).2.1

/-- The top bit of the timestamp does not reach the header word. -/
theorem timestamp_top_bit_lost : rampFrame 1 ≠ rampPorts.timingTs := by
  have hready : Ready (Emulator.init 0).r := ⟨rfl, rfl, rfl⟩
  have hword : rampFrame 1 = _ :=
    timestamp_sent (e := countingEngine) hready rfl (by simp) ramp_no_debug
  rw [hword]
  decide

end ProtoDune.Firmware
