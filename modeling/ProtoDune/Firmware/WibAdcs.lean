import ProtoDune.Firmware.WibFrameCreate
import ProtoDune.Firmware.WibFrameProcess
import ProtoDune.Lib.Fields

/-!
# `WibFrame-Create.h` and `WibFrame-Process.h`: the ADCs of a frame

The generator packs 16 ADCs into three words, in bytes that alternate between two
streams. `process_frame` takes them out in groups of four, of 48 bits each.

Main results:

* `extractAdc_groupBits` — an ADC in its group of the three words.
* `process_fill` — the ADCs of a generated frame come back in the order of the channels.
-/

namespace ProtoDune.Firmware

open BitFields

/-! ## The groups -/

/-- The bits of group `q` of four ADCs in three words. -/
def groupBits (a0 a1 a2 : BitVec 64) (q : Nat) : BitVec 48 :=
  match q with
  | 0 => a0.extractLsb' 0 48
  | 1 => a1.extractLsb' 0 32 ++ a0.extractLsb' 48 16
  | 2 => a2.extractLsb' 0 16 ++ a1.extractLsb' 32 32
  | _ => a2.extractLsb' 16 48

theorem adcs8At_even (d : Nat → BitVec 64) (j : Nat) :
    adcs8At d (2 * j) = (d (pairWord j + 1)).extractLsb' 0 32 ++ d (pairWord j) := by
  unfold adcs8At
  dsimp only
  rw [if_pos (Nat.mul_mod_right 2 j), Nat.mul_div_cancel_left j Nat.two_pos]

theorem adcs8At_odd (d : Nat → BitVec 64) (j : Nat) :
    adcs8At d (2 * j + 1) = d (pairWord j + 2) ++ (d (pairWord j + 1)).extractLsb' 32 32 := by
  have hdiv : (2 * j + 1) / 2 = j := by omega
  unfold adcs8At
  dsimp only
  rw [if_neg (by omega), hdiv]

theorem serialBits_even (adcs8 : Nat → BitVec 96) (i : Nat) :
    serialBits adcs8 (2 * i) = (adcs8 i).extractLsb' 0 48 := by
  rw [serialBits, Nat.mul_div_cancel_left i Nat.two_pos, Nat.mul_mod_right, setWidth_shiftRight_eq]

theorem serialBits_odd (adcs8 : Nat → BitVec 96) (i : Nat) :
    serialBits adcs8 (2 * i + 1) = (adcs8 i).extractLsb' 48 48 := by
  have hdiv : (2 * i + 1) / 2 = i := by omega
  have hmod : (2 * i + 1) % 2 = 1 := by omega
  rw [serialBits, hdiv, hmod, setWidth_shiftRight_eq]

/-- The 48 bits for four channels are a group of three words. -/
theorem serialBits_eq (d : Nat → BitVec 64) (j : Nat) {q : Nat} (hq : q < 4) :
    serialBits (adcs8At d) (4 * j + q) =
      groupBits (d (pairWord j)) (d (pairWord j + 1)) (d (pairWord j + 2)) q := by
  have hcases : q = 0 ∨ q = 1 ∨ q = 2 ∨ q = 3 := by omega
  rcases hcases with rfl | rfl | rfl | rfl
  · rw [show 4 * j + 0 = 2 * (2 * j) by omega, serialBits_even, adcs8At_even,
      BitVec.extractLsb'_append_eq_of_add_le (by omega)]
    rfl
  · have h := extractLsb'_append_straddle ((d (pairWord j + 1)).extractLsb' 0 32) (d (pairWord j))
      (s := 48) (n := 32) (m := 16) rfl
    rw [BitVec.extractLsb'_eq_self] at h
    rw [show 4 * j + 1 = 2 * (2 * j) + 1 by omega, serialBits_odd, adcs8At_even]
    exact h
  · have h := extractLsb'_append_straddle (d (pairWord j + 2))
      ((d (pairWord j + 1)).extractLsb' 32 32) (s := 0) (n := 16) (m := 32) rfl
    rw [BitVec.extractLsb'_eq_self] at h
    rw [show 4 * j + 2 = 2 * (2 * j + 1) by omega, serialBits_even, adcs8At_odd]
    exact h
  · rw [show 4 * j + 3 = 2 * (2 * j + 1) + 1 by omega, serialBits_odd, adcs8At_odd,
      BitVec.extractLsb'_append_eq_of_le (by omega)]
    rfl

/-! ## The packed words -/

/-- The word `r` of the three that `pack64` makes of 16 ADCs. -/
def packedWord (v : Nat → BitVec 16) (r : Nat) : BitVec 64 :=
  match r with
  | 0 => packA (v 0) (v 1) (v 2) (v 3) (v 4) (v 5)
  | 1 => packB (v 4) (v 5) (v 6) (v 7) (v 8) (v 9) (v 10) (v 11)
  | _ => packC (v 10) (v 11) (v 12) (v 13) (v 14) (v 15)

theorem pack64_spec (adcs : Nat → BitVec 16) {k j r : Nat} (hj : j < k) (hr : r < 3)
    (dst p : Nat) (w64 : Nat → BitVec 64) :
    pack64 adcs k dst p w64 (dst + 3 * j + r) = packedWord (fun i => adcs (p + 16 * j + i)) r := by
  induction k generalizing j dst p w64 with
  | zero => exact absurd hj (Nat.not_lt_zero j)
  | succ k ih =>
    rw [pack64]
    cases j with
    | zero =>
      rw [pack64_of_lt _ _ _ _ _ (by omega)]
      have hcases : r = 0 ∨ r = 1 ∨ r = 2 := by omega
      rcases hcases with rfl | rfl | rfl
      · rw [Function.update_of_ne (by omega), Function.update_of_ne (by omega)]
        exact Function.update_self _ _ _
      · rw [Function.update_of_ne (by omega)]
        exact Function.update_self _ _ _
      · exact Function.update_self _ _ _
    | succ j =>
      have hnext := ih (Nat.lt_of_succ_lt_succ hj) (dst + 3) (p + 16)
      have hindex : dst + 3 * (j + 1) + r = dst + 3 + 3 * j + r := by omega
      have hadcs : ∀ i, p + 16 * (j + 1) + i = p + 16 + 16 * j + i := fun i => by omega
      rw [hindex, hnext]
      simp only [hadcs]

theorem fillColddata_adcs (w64 : Nat → BitVec 64) (base : Nat) (cvtcnt : BitVec 16)
    (adcs : Nat → BitVec 16) (p : Nat) {j r : Nat} (hj : j < 4) (hr : r < 3) :
    fillColddata w64 base cvtcnt adcs p (base + 2 + 3 * j + r) =
      packedWord (fun i => adcs (p + 16 * j + i)) r :=
  pack64_spec adcs hj hr (base + 2) p _

/-- The words of a generated frame. -/
theorem fill_adcs (g : WibFrameCreate) (timestamp : BitVec 64) (adcs : Nat → BitVec 16)
    {j r : Nat} (hj : j < 8) (hr : r < 3) :
    (g.fill timestamp adcs).w64 (pairWord j + r) = packedWord (fun i => adcs (16 * j + i)) r := by
  show fillColddata (fillColddata _ 2 _ adcs 0) 16 _ adcs 64 (pairWord j + r) = _
  unfold pairWord
  by_cases h : j < 4
  · rw [if_pos h, fillColddata_frame _ _ _ _ (.inl (by omega)),
      show 4 + 3 * j + r = 2 + 2 + 3 * j + r by omega, fillColddata_adcs _ _ _ _ _ h hr]
    simp only [Nat.zero_add]
  · obtain ⟨i, rfl⟩ : ∃ i, j = 4 + i := ⟨j - 4, by omega⟩
    rw [if_neg h, show 6 + 3 * (4 + i) + r = 16 + 2 + 3 * i + r by omega,
      fillColddata_adcs _ _ _ _ _ (by omega) hr]
    simp only [Nat.mul_add, Nat.reduceMul]

/-! ## The ADCs of a group -/

section

variable (v : AdcIn)

theorem low8 : (v.setWidth 16 &&& 0xff).setWidth 64 = (v.extractLsb' 0 8).setWidth 64 :=
  setWidth_and_mask v (l := 8) (by omega)

theorem low4 : (v.setWidth 16 &&& 0xf).setWidth 64 = (v.extractLsb' 0 4).setWidth 64 :=
  setWidth_and_mask v (l := 4) (by omega)

theorem high8 : (v.setWidth 16 >>> 4).setWidth 64 = (v.extractLsb' 4 8).setWidth 64 :=
  setWidth_shiftRight v (by omega) (by omega)

theorem high4 : (v.setWidth 16 >>> 8).setWidth 64 = (v.extractLsb' 8 4).setWidth 64 :=
  setWidth_shiftRight v (by omega) (by omega)

theorem high4_append_low8 : v.extractLsb' 8 4 ++ v.extractLsb' 0 8 = v :=
  BitVec.extractLsb'_append_extractLsb'

theorem high8_append_low4 : v.extractLsb' 4 8 ++ v.extractLsb' 0 4 = v :=
  BitVec.extractLsb'_append_extractLsb'

end

section

variable (v : Nat → AdcIn)

/-- The fields of the first word, by bytes and nibbles. -/
theorem packedWord_zero : packedWord (fun i => (v i).setWidth 16) 0 =
    (v 5).extractLsb' 0 8 ++ (v 4).extractLsb' 0 8 ++ (v 3).extractLsb' 4 8 ++
      (v 2).extractLsb' 4 8 ++ (v 3).extractLsb' 0 4 ++ (v 1).extractLsb' 8 4 ++
      (v 2).extractLsb' 0 4 ++ (v 0).extractLsb' 8 4 ++ (v 1).extractLsb' 0 8 ++
      (v 0).extractLsb' 0 8 := by
  unfold packedWord packA
  simp only [low8, low4, high8, high4, shiftLeft_or_setWidth, BitVec.setWidth_eq]

theorem packedWord_one : packedWord (fun i => (v i).setWidth 16) 1 =
    (v 11).extractLsb' 0 4 ++ (v 9).extractLsb' 8 4 ++ (v 10).extractLsb' 0 4 ++
      (v 8).extractLsb' 8 4 ++ (v 9).extractLsb' 0 8 ++ (v 8).extractLsb' 0 8 ++
      (v 7).extractLsb' 4 8 ++ (v 6).extractLsb' 4 8 ++ (v 7).extractLsb' 0 4 ++
      (v 5).extractLsb' 8 4 ++ (v 6).extractLsb' 0 4 ++ (v 4).extractLsb' 8 4 := by
  unfold packedWord packB
  simp only [low8, low4, high8, high4, shiftLeft_or_setWidth, BitVec.setWidth_eq]

theorem packedWord_two : packedWord (fun i => (v i).setWidth 16) 2 =
    (v 15).extractLsb' 4 8 ++ (v 14).extractLsb' 4 8 ++ (v 15).extractLsb' 0 4 ++
      (v 13).extractLsb' 8 4 ++ (v 14).extractLsb' 0 4 ++ (v 12).extractLsb' 8 4 ++
      (v 13).extractLsb' 0 8 ++ (v 12).extractLsb' 0 8 ++ (v 11).extractLsb' 4 8 ++
      (v 10).extractLsb' 4 8 := by
  unfold packedWord packC
  simp only [low8, low4, high8, high4, shiftLeft_or_setWidth, BitVec.setWidth_eq]

/-- **An ADC** is taken from its group of the packed words. -/
theorem extractAdc_groupBits {q r : Nat} (hq : q < 4) (hr : r < 4) :
    extractAdc r (groupBits (packedWord (fun i => (v i).setWidth 16) 0)
      (packedWord (fun i => (v i).setWidth 16) 1) (packedWord (fun i => (v i).setWidth 16) 2) q) =
        v (4 * q + r) := by
  rw [packedWord_zero, packedWord_one, packedWord_two]
  have hcasesQ : q = 0 ∨ q = 1 ∨ q = 2 ∨ q = 3 := by omega
  have hcasesR : r = 0 ∨ r = 1 ∨ r = 2 ∨ r = 3 := by omega
  rcases hcasesQ with rfl | rfl | rfl | rfl <;> rcases hcasesR with rfl | rfl | rfl | rfl <;>
  · unfold extractAdc groupBits extractAdc0 extractAdc1 extractAdc2 extractAdc3
    simp (disch := omega) only [extractLsb'_extractLsb', BitVec.extractLsb'_append_eq_of_le,
      BitVec.extractLsb'_append_eq_of_add_le]
    simp only [Nat.reduceAdd, Nat.reduceSub, high4_append_low8, high8_append_low4]

end

/-- The ADC of a channel in its group of a generated frame. -/
theorem extractAdc_fill (g : WibFrameCreate) (timestamp : BitVec 64) (adcs : Nat → AdcIn) {c : Nat}
    (hc : c < 128) :
    extractAdc (c % 4) (serialBits
      (adcs8At (g.fill timestamp fun i => (adcs i).setWidth 16).w64) (c / 4)) = adcs c := by
  have hgroup : c / 4 = 4 * (c / 16) + c / 4 % 4 := by omega
  have hc16 : 16 * (c / 16) + (4 * (c / 4 % 4) + c % 4) = c := by omega
  have hword {r : Nat} (hr : r < 3) := fill_adcs g timestamp (fun c => (adcs c).setWidth 16)
    (show c / 16 < 8 by omega) hr
  have hq : c / 4 % 4 < 4 := Nat.mod_lt _ (Nat.zero_lt_succ 3)
  have hr : c % 4 < 4 := Nat.mod_lt _ (Nat.zero_lt_succ 3)
  have h0 := hword (show 0 < 3 by omega)
  rw [Nat.add_zero] at h0
  rw [hgroup, serialBits_eq _ _ hq, h0, hword (show 1 < 3 by omega), hword (show 2 < 3 by omega),
    extractAdc_groupBits (fun i => adcs (16 * (c / 16) + i)) hq hr, hc16]

/-- **The ADCs** of a generated frame come back in the order of the channels. -/
theorem process_fill (g : WibFrameCreate) (timestamp : BitVec 64) (adcs : Nat → AdcIn)
    (frame : StatusFrame) (iframe : Nat) (adcs8 : Nat → BitVec 96) (hdrLcl : HeaderContextLcl)
    (pktCtx : PacketContext) (s : ChannelState) :
    (List.range 128).map (fun c =>
        (processFrame { frame with d := (g.fill timestamp fun i => (adcs i).setWidth 16).w64 }
          iframe adcs8 hdrLcl pktCtx s).2.2.adcs.channel c iframe) =
      (List.range 128).map adcs := by
  refine List.map_congr_left fun c hc => ?_
  have hc' := List.mem_range.mp hc
  rw [processFrame_channel _ iframe adcs8 hdrLcl pktCtx s hc']
  exact extractAdc_fill g timestamp adcs hc'

end ProtoDune.Firmware
