import ProtoDune.Firmware.EthernetCRC
import ProtoDune.Firmware.WibLink

/-!
# Errors that the receiver detects

The receiver compares the CRC of a frame with `EthernetCRCD16B`, which sees the
words and the CRC in the order of the line. A frame that differs from one that
was sent within 32 bits, or in two bits anywhere, leaves with `eofe`.

Main results:

* `crcError_iff` — the comparison is the residue check of the engine.
* `crcError_of_corrupted` — the errors of the line that it sees.
* `corrupted_flagged` — in every run of the receiver.
-/

namespace ProtoDune.Firmware.WibErrors

open Crc EthernetCRC Framing ProtoDuneDpmWibRxFramer

/-- The words of a frame and the two halves of its CRC. -/
def checkedWords (ws : List (BitVec 16)) : List (BitVec 16) :=
  ws ++ [(d16bEngine.checksum ws).extractLsb' 0 16, (d16bEngine.checksum ws).extractLsb' 16 16]

/-- The bits of the words in the order of the line. -/
def lineBits (ws : List (BitVec 16)) : List Bool := ws.flatMap bitsLE

/-- The line has changed bits: within a burst as long as the CRC, or two of them. -/
def Corrupted (sent received : List (BitVec 16)) : Prop :=
  Burst 32 (lineBits sent) (lineBits received) ∨
    TwoFlips (16 * (wibWords + 2)) (lineBits sent) (lineBits received)

variable {ws rs : List (BitVec 16)} {rc : Reception}

/-- Two bits in a frame and its CRC are closer than the order of the polynomial. -/
theorem apart_poly : apart poly (16 * (wibWords + 2)) poly = true := by decide +kernel

theorem foldl_ne_of_corrupted (c : BitVec 32) (h : Corrupted ws rs) :
    ws.foldl d16b c ≠ rs.foldl d16b c := by
  rw [foldl_eq_run d16b_eq_run, foldl_eq_run d16b_eq_run]
  rcases h with hburst | hflips
  · exact run_ne_of_burst poly_low hburst
  · exact run_ne_of_twoFlips poly_low apart_poly hflips

/-- A frame as it was sent leaves the residue. -/
theorem foldl_checkedWords (ws : List (BitVec 16)) :
    (checkedWords ws).foldl d16b d16bEngine.seed = crc_R :=
  (foldl_eq_residue_iff _ ws _ _).mpr (WibLink.extractLsb'_halves _)

/-- The words of a whole reception and the CRC after them. -/
theorem take_data (h : rc.symbols.length = 123) :
    rc.data.take 122 = rc.words ++ [rc.data.getD 120 0, rc.data.getD 121 0] := by
  have hlen : rc.data.length = 123 := Reception.length_data.trans h
  have hlo : 120 < rc.data.length := by omega
  have hhi : 121 < rc.data.length := by omega
  rw [Reception.words, wibWords, List.getD_eq_getElem _ _ hlo, List.getD_eq_getElem _ _ hhi,
    List.take_succ_eq_append_getElem hhi, List.take_succ_eq_append_getElem hlo, List.append_assoc]
  rfl

/-- The comparison of the CRC is the residue check. -/
theorem crcError_iff (h : rc.symbols.length = 123) : rc.crcError d16bEngine = true ↔
    badCrc ((rc.data.take 122).foldl d16bEngine.next d16bEngine.seed) = true := by
  have hiff := badCrc_iff rc.words (rc.data.getD 121 0) (rc.data.getD 120 0)
  rw [take_data h, ← not_iff_not, Bool.not_eq_true, Bool.not_eq_true, hiff]
  unfold Reception.crcError
  rw [bne_eq_false_iff_eq]
  rfl

/-- A frame that the line has changed has a wrong CRC. -/
theorem crcError_of_corrupted (h : rc.symbols.length = 123)
    (hc : Corrupted (checkedWords ws) (rc.data.take 122)) : rc.crcError d16bEngine = true := by
  rw [crcError_iff h]
  have hne := foldl_ne_of_corrupted d16bEngine.seed hc
  rw [foldl_checkedWords] at hne
  rw [badCrc, bne_iff_ne]
  exact hne.symm

/-- In every run of the receiver, whatever is on the line: a frame of the output that differs
from one that was sent within 32 bits, or in two bits, ends with `eofe` set. -/
theorem corrupted_flagged (s : BitVec 32) (ps : List Ports) :
    List.Forall₂ (fun rc f => ∀ ws, Corrupted (checkedWords ws) (rc.data.take 122) →
        rc.flush = false → ∃ b ∈ f.getLast?, b.tUser.eofe = true)
      ((run d16bEngine s ps).ended.filter fun rc => !rc.blown)
      (frames AxiWord.tLast (run d16bEngine s ps).out).complete := by
  have h := receives_run d16bEngine s ps
  rw [h.frames_out, List.forall₂_map_right_iff, List.forall₂_same]
  intro rc hrc ws hc hflush
  have hlen := h.ended rc (List.mem_filter.mp hrc).1
  have hcarried := Reception.carried (e := d16bEngine) hlen
  have hne : rc.frameBeats d16bEngine ≠ [] := by
    apply List.ne_nil_of_length_pos
    rw [hcarried.length]
    decide
  refine ⟨(rc.frameBeats d16bEngine).getLast hne, List.getLast?_eq_getLast_of_ne_nil hne, ?_⟩
  rw [hcarried.eofe _ (List.getLast?_eq_getLast_of_ne_nil hne) hflush]
  exact .inr (.inr (crcError_of_corrupted hlen hc))

/-- The words of a frame with the start symbol. -/
def countedWords : List (BitVec 16) :=
  (List.range wibWords).map fun i => BitVec.ofNat 16 (0x01BC * (i + 1))

theorem checkedWords_counted : checkedWords countedWords = countedWords ++ [0xDA3F, 0x6ABC] := by
  have hsum : d16bEngine.checksum countedWords = 0x6ABCDA3F := by
    have hfold : countedWords.foldl d16bEngine.next d16bEngine.seed = _ :=
      foldl_eq_run d16b_eq_run _ _
    rw [CrcEngine.checksum, hfold]
    decide +kernel
  rw [checkedWords, hsum]
  exact congrArg (countedWords ++ ·) (by decide)

/-- Two bits are changed, one of word 50 and one of word 99. -/
def flipTwo (ws : List (BitVec 16)) : List (BitVec 16) :=
  (ws.modify 50 (· ^^^ 0x0002)).modify 99 (· ^^^ 0x4000)

theorem corrupted_flipTwo :
    Corrupted (checkedWords countedWords) (flipTwo (checkedWords countedWords)) := by
  rw [checkedWords_counted]
  let bits := lineBits (countedWords ++ [0xDA3F, 0x6ABC])
  exact .inr ⟨bits.take 801, bits.getD 801 false, (bits.drop 802).take 796, bits.getD 1598 false,
    bits.drop 1599, by decide +kernel, by decide +kernel, by decide +kernel⟩

/-- The symbols of the changed frame, and the idle symbols behind it. -/
def flippedPorts : List Ports :=
  (wordSymbols (flipTwo (countedWords ++ [0xDA3F, 0x6ABC])) ++ [idle, idle]).map
    (WibLink.linePorts true)

/-- The two changed bits are flagged. -/
theorem corrupted_flagged_flipTwo :
    ∃ rc f, (run d16bEngine 0 flippedPorts).ended = [rc] ∧
      (frames AxiWord.tLast (run d16bEngine 0 flippedPorts).out).complete = [f] ∧
      Corrupted (checkedWords countedWords) (rc.data.take 122) ∧
      ∃ b ∈ f.getLast?, b.tUser.eofe = true := by
  have hreceived : ((run d16bEngine 0 flippedPorts).ended.map fun rc =>
      (rc.data.take 122, rc.flush, rc.blown)) =
      [(flipTwo (countedWords ++ [0xDA3F, 0x6ABC]), false, false)] := by decide +kernel
  obtain ⟨rc, hended, hrc⟩ := List.map_eq_singleton_iff.mp hreceived
  obtain ⟨hdata, hflags⟩ := Prod.mk.inj hrc
  obtain ⟨hflush, hblown⟩ := Prod.mk.inj hflags
  have hcorrupted : Corrupted (checkedWords countedWords) (rc.data.take 122) := by
    rw [hdata, ← checkedWords_counted]
    exact corrupted_flipTwo
  have hflagged := corrupted_flagged 0 flippedPorts
  rw [hended, List.filter_cons_of_pos (by rw [hblown]; rfl), List.filter_nil] at hflagged
  obtain ⟨f, _, heofe, hrest, hframes⟩ := List.forall₂_cons_left_iff.mp hflagged
  obtain rfl := List.forall₂_nil_left_iff.mp hrest
  exact ⟨rc, f, hended, hframes, hcorrupted, heofe _ hcorrupted hflush⟩

end ProtoDune.Firmware.WibErrors
