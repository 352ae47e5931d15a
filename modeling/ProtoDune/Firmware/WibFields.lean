import ProtoDune.Firmware.WibFrame
import ProtoDune.Lib.Fields

/-!
# `WibFrame.h`: the fields of the header words

The firmware and the software compose the header words of a frame, each with its
own `WibFrame.h`; the firmware's has the accessors. The layout of a word is that of
its accessors.

Main results:

* `Word0.read_eq_iff`, `ColdWord0.read_eq_iff`, `ColdWord1.read_eq_iff` — the accessors of a
  word take it apart.
* `composers_read_back` — which fields are read back, and which are at the same bits
  in the software.
-/

namespace ProtoDune.Firmware.WibFrame

open BitFields

/-! ## The layout of the accessors -/

def rsvd (w : BitVec 64) : BitVec 24 := w.extractLsb' 24 24

/-- The accessor of word 1, which is one field. -/
def timestamp (w : BitVec 64) : BitVec 64 := w

def ColdData.checkSums (w : BitVec 64) : BitVec 32 := w.extractLsb' 16 32

/-- The fields of the WIB word 0. -/
structure Word0 where
  commaChar : BitVec 8
  version : BitVec 5
  id : BitVec 11
  rsvd : BitVec 24
  wibErrors : BitVec 16

/-- The fields of the COLDDATA word `s0`. -/
structure ColdWord0 where
  streamErr1 : BitVec 4
  streamErr2 : BitVec 4
  rsvd0 : BitVec 8
  checkSums : BitVec 32
  cvtCnt : BitVec 16

/-- The fields of the COLDDATA word `s1`. -/
structure ColdWord1 where
  errReg : BitVec 16
  rsvd1 : BitVec 16
  hdrs : BitVec 32

namespace Word0

def read (w : BitVec 64) : Word0 :=
  ⟨WibFrame.commaChar w, WibFrame.version w, WibFrame.id w, WibFrame.rsvd w, WibFrame.wibErrors w⟩

def word (f : Word0) : BitVec 64 := f.wibErrors ++ f.rsvd ++ f.id ++ f.version ++ f.commaChar

/-- The fields do not overlap, and are all of the word. -/
theorem read_eq_iff (w : BitVec 64) (f : Word0) : read w = f ↔ w = f.word := by
  constructor
  · rintro rfl
    unfold read word WibFrame.commaChar WibFrame.version WibFrame.id WibFrame.rsvd
      WibFrame.wibErrors
    simp (disch := rfl) only [BitVec.extractLsb'_append_extractLsb'_eq_extractLsb']
    exact BitVec.extractLsb'_eq_self.symm
  · rintro rfl
    unfold read word WibFrame.commaChar WibFrame.version WibFrame.id WibFrame.rsvd
      WibFrame.wibErrors
    simp (disch := omega) only [BitVec.extractLsb'_append_eq_of_le,
      BitVec.extractLsb'_append_eq_of_add_le]
    simp only [Nat.reduceSub, BitVec.extractLsb'_eq_self]

end Word0

namespace ColdWord0

def read (w : BitVec 64) : ColdWord0 :=
  ⟨ColdData.streamErr1 w, ColdData.streamErr2 w, ColdData.rsvd0 w, ColdData.checkSums w,
    ColdData.cvtCnt w⟩

def word (f : ColdWord0) : BitVec 64 :=
  f.cvtCnt ++ f.checkSums ++ f.rsvd0 ++ f.streamErr2 ++ f.streamErr1

theorem read_eq_iff (w : BitVec 64) (f : ColdWord0) : read w = f ↔ w = f.word := by
  constructor
  · rintro rfl
    unfold read word ColdData.streamErr1 ColdData.streamErr2 ColdData.rsvd0 ColdData.checkSums
      ColdData.cvtCnt
    simp (disch := rfl) only [BitVec.extractLsb'_append_extractLsb'_eq_extractLsb']
    exact BitVec.extractLsb'_eq_self.symm
  · rintro rfl
    unfold read word ColdData.streamErr1 ColdData.streamErr2 ColdData.rsvd0 ColdData.checkSums
      ColdData.cvtCnt
    simp (disch := omega) only [BitVec.extractLsb'_append_eq_of_le,
      BitVec.extractLsb'_append_eq_of_add_le]
    simp only [Nat.reduceSub, BitVec.extractLsb'_eq_self]

end ColdWord0

namespace ColdWord1

def read (w : BitVec 64) : ColdWord1 := ⟨ColdData.errReg w, ColdData.rsvd1 w, ColdData.hdrs w⟩

def word (f : ColdWord1) : BitVec 64 := f.hdrs ++ f.rsvd1 ++ f.errReg

theorem read_eq_iff (w : BitVec 64) (f : ColdWord1) : read w = f ↔ w = f.word := by
  constructor
  · rintro rfl
    unfold read word ColdData.errReg ColdData.rsvd1 ColdData.hdrs
    simp (disch := rfl) only [BitVec.extractLsb'_append_extractLsb'_eq_extractLsb']
    exact BitVec.extractLsb'_eq_self.symm
  · rintro rfl
    unfold read word ColdData.errReg ColdData.rsvd1 ColdData.hdrs
    simp (disch := omega) only [BitVec.extractLsb'_append_eq_of_le,
      BitVec.extractLsb'_append_eq_of_add_le]
    simp only [Nat.reduceSub, BitVec.extractLsb'_eq_self]

end ColdWord1

/-! ## The composers -/

/-- `WibFrame::id` of the parts. -/
def idOf (crate : BitVec 5) (slot fiber : BitVec 3) : BitVec 11 := slot ++ crate ++ fiber

def errWord (errCapture errAsic : BitVec 4) (errBits : BitVec 8) : BitVec 16 :=
  errBits ++ errAsic ++ errCapture

/-- `w1` of the software, whose `Timestamp` has 32 bits. -/
def softwareW1 (timestamp : BitVec 32) : BitVec 64 := timestamp.setWidth 64

namespace ColdData

def error (err1 err2 : BitVec 4) : BitVec 8 := err2 ++ err1

def checksum (a b : BitVec 8) : BitVec 16 := b ++ a

def checksums (a b : BitVec 16) : BitVec 32 := b ++ a

/-- `s0` without reserved field. -/
def s0Plain (err : BitVec 8) (cs_a cs_b : BitVec 16) (cvt_cnt : BitVec 16) : BitVec 64 :=
  s0 err 0 cs_a cs_b cvt_cnt

/-- `s0` of bytes: the call in it has eight arguments again, converted to the types of the same
overload. -/
def s0Bytes : Nat → BitVec 4 → BitVec 4 → BitVec 8 → BitVec 8 → BitVec 8 → BitVec 8 → BitVec 8 →
    BitVec 16 → Option (BitVec 64)
  | 0, _, _, _, _, _, _, _, _ => none
  | fuel + 1, err1, err2, rsvd, csA_lo, csB_lo, csA_hi, csB_hi, cvt_cnt =>
      s0Bytes fuel (cvt_cnt.setWidth 4) (csB_hi.setWidth 4) csA_hi csB_lo csA_lo rsvd
        (err2.setWidth 8) (err1.setWidth 16)

/-- `hdrs` of the eight headers. -/
def hdrsOf (hdr : Nat → BitVec 4) : BitVec 32 :=
  hdr 7 ++ hdr 6 ++ hdr 5 ++ hdr 4 ++ hdr 3 ++ hdr 2 ++ hdr 1 ++ hdr 0

/-- `s1` with a reserved field. -/
def s1Full (errReg rsvd1 : BitVec 16) (hdrs : BitVec 32) : BitVec 64 := hdrs ++ rsvd1 ++ errReg

/-- `s0` of the software; the reserved field is not in it. -/
def softwareS0 (err : BitVec 8) (_rsvd0 : BitVec 8) (cs_a cs_b : BitVec 16) (cvt_cnt : BitVec 16) :
    BitVec 64 :=
  let cs_lo : BitVec 16 := cs_b.extractLsb' 0 8 ++ cs_a.extractLsb' 0 8
  let cs_hi : BitVec 16 := (cs_b.extractLsb' 7 9 ++ cs_a.extractLsb' 7 9).setWidth 16
  (cvt_cnt ++ cs_hi ++ cs_lo ++ err).setWidth 64

end ColdData

/-- A call of a composer of a word, on the smallest fields. -/
inductive Composer where
  | w0 (commaChar : BitVec 8) (crate : BitVec 5) (slot fiber : BitVec 3) (rsvd : BitVec 24)
      (errCapture errAsic : BitVec 4) (errBits : BitVec 8)
  | w1 (timestamp : BitVec 64)
  | s0 (err1 err2 : BitVec 4) (rsvd0 : BitVec 8) (cs_a cs_b : BitVec 16) (cvt_cnt : BitVec 16)
  | s0Plain (err1 err2 : BitVec 4) (cs_a cs_b : BitVec 16) (cvt_cnt : BitVec 16)
  | s0Bytes (err1 err2 : BitVec 4) (rsvd csA_lo csB_lo csA_hi csB_hi : BitVec 8)
      (cvt_cnt : BitVec 16)
  | s1 (errReg rsvd1 : BitVec 16) (hdr : Nat → BitVec 4)
  | s1Plain (errReg : BitVec 16) (hdr : Nat → BitVec 4)

namespace Composer

/-- What a call gives in the firmware. -/
def firmware (fuel : Nat) : Composer → Option (BitVec 64)
  | w0 commaChar crate slot fiber rsvd errCapture errAsic errBits =>
      some (WibFrame.w0 commaChar (idOf crate slot fiber) rsvd (errWord errCapture errAsic errBits))
  | w1 timestamp => some (WibFrame.w1 timestamp)
  | s0 err1 err2 rsvd0 cs_a cs_b cvt_cnt =>
      some (ColdData.s0 (ColdData.error err1 err2) rsvd0 cs_a cs_b cvt_cnt)
  | s0Plain err1 err2 cs_a cs_b cvt_cnt =>
      some (ColdData.s0Plain (ColdData.error err1 err2) cs_a cs_b cvt_cnt)
  | s0Bytes err1 err2 rsvd csA_lo csB_lo csA_hi csB_hi cvt_cnt =>
      ColdData.s0Bytes fuel err1 err2 rsvd csA_lo csB_lo csA_hi csB_hi cvt_cnt
  | s1 errReg rsvd1 hdr => some (ColdData.s1Full errReg rsvd1 (ColdData.hdrsOf hdr))
  | s1Plain errReg hdr => some (ColdData.s1 errReg (ColdData.hdrsOf hdr))

/-- What it gives in the software: `w1` and `s0` differ. -/
def software (fuel : Nat) : Composer → Option (BitVec 64)
  | w1 timestamp => some (softwareW1 (timestamp.setWidth 32))
  | s0 err1 err2 rsvd0 cs_a cs_b cvt_cnt =>
      some (ColdData.softwareS0 (ColdData.error err1 err2) rsvd0 cs_a cs_b cvt_cnt)
  | s0Plain err1 err2 cs_a cs_b cvt_cnt =>
      some (ColdData.softwareS0 (ColdData.error err1 err2) 0 cs_a cs_b cvt_cnt)
  | c => c.firmware fuel

/-- The fields of a call are what is read from a word. -/
def Reads (w : BitVec 64) : Composer → Prop
  | w0 commaChar crate slot fiber rsvd errCapture errAsic errBits =>
      Word0.read w = ⟨commaChar, VersionNumber, slot ++ crate ++ fiber, rsvd,
        errBits ++ errAsic ++ errCapture⟩
  | w1 timestamp => WibFrame.timestamp w = timestamp
  | s0 err1 err2 rsvd0 cs_a cs_b cvt_cnt =>
      ColdWord0.read w = ⟨err1, err2, rsvd0,
        cs_b.extractLsb' 8 8 ++ cs_a.extractLsb' 8 8 ++ cs_b.extractLsb' 0 8 ++ cs_a.extractLsb' 0 8,
        cvt_cnt⟩
  | s0Plain err1 err2 cs_a cs_b cvt_cnt =>
      ColdWord0.read w = ⟨err1, err2, 0,
        cs_b.extractLsb' 8 8 ++ cs_a.extractLsb' 8 8 ++ cs_b.extractLsb' 0 8 ++ cs_a.extractLsb' 0 8,
        cvt_cnt⟩
  | s0Bytes err1 err2 rsvd csA_lo csB_lo csA_hi csB_hi cvt_cnt =>
      ColdWord0.read w = ⟨err1, err2, rsvd, csB_hi ++ csA_hi ++ csB_lo ++ csA_lo, cvt_cnt⟩
  | s1 errReg rsvd1 hdr => ColdWord1.read w =
      ⟨errReg, rsvd1, hdr 7 ++ hdr 6 ++ hdr 5 ++ hdr 4 ++ hdr 3 ++ hdr 2 ++ hdr 1 ++ hdr 0⟩
  | s1Plain errReg hdr => ColdWord1.read w =
      ⟨errReg, 0, hdr 7 ++ hdr 6 ++ hdr 5 ++ hdr 4 ++ hdr 3 ++ hdr 2 ++ hdr 1 ++ hdr 0⟩

/-- The fields of a call are read back. -/
def ReadBack (c : Composer) : Prop := ∃ fuel w, c.firmware fuel = some w ∧ c.Reads w

/-- The software places the fields as the firmware. -/
def SamePlaces (c : Composer) : Prop := ∃ fuel w, c.firmware fuel = some w ∧ c.software fuel = some w

end Composer

/-! ## Where the fields are kept -/

/-- The checksums of which nothing is lost where the high halves are taken from bit 7 on: the bits
of A from there on are equal, and those of B alternate between that bit and its last one. -/
def HighHalvesKept (cs_a cs_b : BitVec 16) : Prop :=
  (∀ i < 8, cs_a.getLsbD (7 + i) = cs_a.getLsbD 15) ∧
    (∀ i < 4, cs_b.getLsbD (8 + 2 * i) = cs_a.getLsbD 15) ∧
      ∀ i < 4, cs_b.getLsbD (7 + 2 * i) = cs_b.getLsbD 15

namespace Composer

/-- The calls whose fields are read back. -/
def Kept : Composer → Prop
  | w0 .. => True
  | w1 .. => True
  | s0 _ _ _ cs_a cs_b _ => HighHalvesKept cs_a cs_b
  | s0Plain _ _ cs_a cs_b _ => HighHalvesKept cs_a cs_b
  | s0Bytes .. => False
  | s1 .. => True
  | s1Plain _ hdr => ∀ i < 8, hdr i = 0

/-- The calls that are the same in the software. -/
def Shared : Composer → Prop
  | w0 .. => True
  | w1 timestamp => timestamp.toNat < 2 ^ 32
  | s0 _ _ rsvd0 cs_a cs_b cvt_cnt =>
      rsvd0 = 0 ∧ cs_a = 0 ∧ cs_b.extractLsb' 0 14 = 0 ∧ cvt_cnt = 0
  | s0Plain _ _ cs_a cs_b cvt_cnt => cs_a = 0 ∧ cs_b.extractLsb' 0 14 = 0 ∧ cvt_cnt = 0
  | s0Bytes .. => False
  | s1 .. => True
  | s1Plain .. => True

end Composer

namespace ColdData

theorem s0Bytes_eq_none (fuel : Nat) (err1 err2 : BitVec 4)
    (rsvd csA_lo csB_lo csA_hi csB_hi : BitVec 8) (cvt_cnt : BitVec 16) :
    s0Bytes fuel err1 err2 rsvd csA_lo csB_lo csA_hi csB_hi cvt_cnt = none := by
  induction fuel generalizing err1 err2 rsvd csA_lo csB_lo csA_hi csB_hi cvt_cnt with
  | zero => rfl
  | succ fuel ih => exact ih _ _ _ _ _ _ _ _

/-- A sequence stays the same at every step where all of it is its last element. -/
theorem steps_iff_last {α : Type} {f : Nat → α} {n : Nat} :
    (∀ i < n, f i = f (i + 1)) ↔ ∀ i < n, f i = f n := by
  constructor
  · intro h i hi
    obtain ⟨k, rfl⟩ := Nat.exists_eq_add_of_le hi.le
    clear hi
    induction k with
    | zero => rfl
    | succ k ih =>
      rw [ih fun j hj => h j (by omega)]
      exact h (i + k) (by omega)
  · intro h i hi
    rcases Nat.lt_or_ge (i + 1) n with hlt | hge
    · rw [h i hi, h (i + 1) hlt]
    · rw [h i hi, show i + 1 = n by omega]

theorem getLsbD_taken (cs_a cs_b : BitVec 16) {i : Nat} (hi : i < 16) :
    ((cs_b.extractLsb' 7 9 ++ cs_a.extractLsb' 7 9).setWidth 16).getLsbD i =
      if i < 9 then cs_a.getLsbD (7 + i) else cs_b.getLsbD (i - 2) := by
  have hb : i - 9 < 9 := by omega
  have hindex : ¬ i < 9 → 7 + (i - 9) = i - 2 := by omega
  rw [BitVec.getLsbD_setWidth, BitVec.getLsbD_append, BitVec.getLsbD_extractLsb',
    BitVec.getLsbD_extractLsb', decide_eq_true hi, decide_eq_true hb]
  by_cases h : i < 9
  · simp [h]
  · simp [h, hindex h]

theorem getLsbD_wanted (cs_a cs_b : BitVec 16) {i : Nat} (hi : i < 16) :
    (cs_b.extractLsb' 8 8 ++ cs_a.extractLsb' 8 8).getLsbD i =
      if i < 8 then cs_a.getLsbD (8 + i) else cs_b.getLsbD i := by
  have hb : i - 8 < 8 := by omega
  rw [BitVec.getLsbD_append, BitVec.getLsbD_extractLsb', BitVec.getLsbD_extractLsb',
    decide_eq_true hb]
  by_cases h : i < 8
  · simp [h]
  · simp [h, show 8 + (i - 8) = i by omega]

/-- The bits of the two high halves, one by one: those of A are compared with the next one, those
of B with the next but one. -/
theorem highHalves_bits (cs_a cs_b : BitVec 16) :
    (cs_b.extractLsb' 7 9 ++ cs_a.extractLsb' 7 9).setWidth 16 =
      cs_b.extractLsb' 8 8 ++ cs_a.extractLsb' 8 8 ↔
    (∀ i < 8, cs_a.getLsbD (7 + i) = cs_a.getLsbD (7 + (i + 1))) ∧
      cs_a.getLsbD 15 = cs_b.getLsbD 8 ∧
      ∀ i < 7, cs_b.getLsbD (7 + i) = cs_b.getLsbD (7 + (i + 2)) := by
  constructor
  · intro h
    have hbits {i : Nat} (hi : i < 16) :
        (if i < 9 then cs_a.getLsbD (7 + i) else cs_b.getLsbD (i - 2)) =
          if i < 8 then cs_a.getLsbD (8 + i) else cs_b.getLsbD i := by
      rw [← getLsbD_taken cs_a cs_b hi, h, getLsbD_wanted cs_a cs_b hi]
    refine ⟨?_, hbits (show 8 < 16 by omega), ?_⟩
    · intro i hi
      have hbit := hbits (show i < 16 by omega)
      rwa [if_pos (by omega), if_pos hi, show 8 + i = 7 + (i + 1) by omega] at hbit
    · intro i hi
      have hbit := hbits (show 9 + i < 16 by omega)
      rwa [if_neg (by omega), if_neg (by omega), show 9 + i - 2 = 7 + i by omega,
        show 9 + i = 7 + (i + 2) by omega] at hbit
  · rintro ⟨ha, hab, hb⟩
    apply BitVec.eq_of_getLsbD_eq
    intro i hi
    rw [getLsbD_taken cs_a cs_b hi, getLsbD_wanted cs_a cs_b hi]
    rcases Nat.lt_trichotomy i 8 with h | rfl | h
    · rw [if_pos (by omega), if_pos h, ha i h, show 7 + (i + 1) = 8 + i by omega]
    · exact hab
    · have hbit := hb (i - 9) (by omega)
      rw [show 7 + (i - 9 + 2) = i by omega] at hbit
      rw [if_neg (by omega), if_neg (by omega), ← hbit, show 7 + (i - 9) = i - 2 by omega]

/-- The high halves that `s0` takes. -/
theorem highHalves_eq_iff (cs_a cs_b : BitVec 16) :
    (cs_b.extractLsb' 7 9 ++ cs_a.extractLsb' 7 9).setWidth 16 =
      cs_b.extractLsb' 8 8 ++ cs_a.extractLsb' 8 8 ↔ HighHalvesKept cs_a cs_b := by
  rw [highHalves_bits, HighHalvesKept]
  -- the bits of B from 7 on are two sequences, the odd ones and the even ones
  have hparity : (∀ i < 7, cs_b.getLsbD (7 + i) = cs_b.getLsbD (7 + (i + 2))) ↔
      (∀ i < 4, cs_b.getLsbD (7 + 2 * i) = cs_b.getLsbD (7 + 2 * (i + 1))) ∧
        ∀ i < 3, cs_b.getLsbD (8 + 2 * i) = cs_b.getLsbD (8 + 2 * (i + 1)) := by
    constructor
    · intro h
      refine ⟨fun i hi => h (2 * i) (by omega), fun i hi => ?_⟩
      have hbit := h (2 * i + 1) (by omega)
      rwa [show 7 + (2 * i + 1) = 8 + 2 * i by omega,
        show 7 + (2 * i + 1 + 2) = 8 + 2 * (i + 1) by omega] at hbit
    · rintro ⟨hodd, heven⟩ i hi
      obtain ⟨k, rfl | rfl⟩ : ∃ k, i = 2 * k ∨ i = 2 * k + 1 := ⟨i / 2, by omega⟩
      · exact hodd k (by omega)
      · have hbit := heven k (by omega)
        rwa [show 8 + 2 * k = 7 + (2 * k + 1) by omega,
          show 8 + 2 * (k + 1) = 7 + (2 * k + 1 + 2) by omega] at hbit
  have heven : (cs_a.getLsbD 15 = cs_b.getLsbD 8 ∧
      ∀ i < 3, cs_b.getLsbD (8 + 2 * i) = cs_b.getLsbD (8 + 2 * (i + 1))) ↔
        ∀ i < 4, cs_b.getLsbD (8 + 2 * i) = cs_a.getLsbD 15 := by
    rw [steps_iff_last (f := fun i => cs_b.getLsbD (8 + 2 * i))]
    constructor
    · rintro ⟨hab, h⟩ i hi
      have hfirst : cs_b.getLsbD 8 = cs_b.getLsbD (8 + 2 * 3) := h 0 (by omega)
      rcases Nat.lt_or_ge i 3 with hlt | hge
      · rw [h i hlt, hab, hfirst]
      · rw [show i = 3 by omega, hab, hfirst]
    · intro h
      exact ⟨(h 0 (by omega)).symm, fun i hi => (h i (by omega)).trans (h 3 (by omega)).symm⟩
  rw [hparity, steps_iff_last (f := fun i => cs_a.getLsbD (7 + i)),
    steps_iff_last (f := fun i => cs_b.getLsbD (7 + 2 * i)), ← heven]
  exact and_congr_right fun _ => by tauto

/-- `s0` is its fields, but for the high halves of the checksums. -/
theorem s0_eq_word_iff (err1 err2 : BitVec 4) (rsvd0 : BitVec 8) (cs_a cs_b cvt_cnt : BitVec 16) :
    s0 (error err1 err2) rsvd0 cs_a cs_b cvt_cnt = ColdWord0.word ⟨err1, err2, rsvd0,
      cs_b.extractLsb' 8 8 ++ cs_a.extractLsb' 8 8 ++ cs_b.extractLsb' 0 8 ++ cs_a.extractLsb' 0 8,
      cvt_cnt⟩ ↔ HighHalvesKept cs_a cs_b := by
  rw [← highHalves_eq_iff]
  unfold s0 error ColdWord0.word
  dsimp only
  generalize (cs_b.extractLsb' 7 9 ++ cs_a.extractLsb' 7 9).setWidth 16 = taken
  constructor
  · intro h
    have hslice := congrArg (BitVec.extractLsb' 32 16) h
    simp (disch := omega) only [BitVec.extractLsb'_append_eq_of_le,
      BitVec.extractLsb'_append_eq_of_add_le] at hslice
    simp only [Nat.reduceAdd, Nat.reduceSub, BitVec.extractLsb'_eq_self] at hslice
    exact hslice
  · rintro rfl
    simp only [BitVec.append_assoc, BitVec.cast_eq]

/-- A field left out is seen, and moves the fields above it. -/
theorem without_rsvd0_eq_iff (cvt_cnt cs_hi cs_lo : BitVec 16) (rsvd0 err : BitVec 8) :
    (cvt_cnt ++ cs_hi ++ cs_lo ++ err).setWidth 64 = cvt_cnt ++ cs_hi ++ cs_lo ++ rsvd0 ++ err ↔
      (cvt_cnt = 0 ∧ cs_hi = 0) ∧ cs_lo = 0 ∧ rsvd0 = 0 := by
  rw [eq_comm, ← and_assoc, ← append_eq_zero_iff, ← append_eq_zero_iff]
  exact append_append_eq_iff (show 0 < 8 by omega) (cvt_cnt ++ cs_hi ++ cs_lo) rsvd0 err

theorem high_eq_zero_iff (cs_a cs_b : BitVec 16) :
    (cs_b.extractLsb' 7 9 ++ cs_a.extractLsb' 7 9).setWidth 16 = 0 ↔
      cs_b.extractLsb' 7 7 = 0 ∧ cs_a.extractLsb' 7 9 = 0 := by
  have hb : (cs_b.extractLsb' 7 9).setWidth 7 = cs_b.extractLsb' 7 7 := by
    rw [← BitVec.ushiftRight_zero (cs_b.extractLsb' 7 9), setWidth_shiftRight_eq, 
      extractLsb'_extractLsb' _ (by omega)]
  have hsplit : (cs_b.extractLsb' 7 9 ++ cs_a.extractLsb' 7 9).setWidth (7 + 9) =
      (cs_b.extractLsb' 7 9).setWidth 7 ++ (cs_a.extractLsb' 7 9).setWidth 9 :=
    BitVec.setWidth_append_of_eq rfl
  rw [BitVec.setWidth_eq, hb] at hsplit
  rw [← append_eq_zero_iff, ← hsplit]

/-- A value is 0 where its low and its high part are. -/
theorem slice_eq_zero_iff (x : BitVec 16) (s n m : Nat) :
    x.extractLsb' s (n + m) = 0 ↔ x.extractLsb' (s + m) n = 0 ∧ x.extractLsb' s m = 0 := by
  rw [← append_eq_zero_iff, BitVec.extractLsb'_append_extractLsb'_eq_extractLsb' rfl]

/-- The reserved field of `s0` moves all fields above it in the software. -/
theorem softwareS0_eq_iff (err rsvd0 : BitVec 8) (cs_a cs_b cvt_cnt : BitVec 16) :
    softwareS0 err rsvd0 cs_a cs_b cvt_cnt = s0 err rsvd0 cs_a cs_b cvt_cnt ↔
      rsvd0 = 0 ∧ cs_a = 0 ∧ cs_b.extractLsb' 0 14 = 0 ∧ cvt_cnt = 0 := by
  -- the two parts of a checksum overlap in bit 7
  have hlow (x : BitVec 16) : x.extractLsb' 0 8 = 0 ↔
      x.extractLsb' 7 1 = 0 ∧ x.extractLsb' 0 7 = 0 := slice_eq_zero_iff x 0 1 7
  have hhighA : cs_a.extractLsb' 7 9 = 0 ↔
      cs_a.extractLsb' 8 8 = 0 ∧ cs_a.extractLsb' 7 1 = 0 := slice_eq_zero_iff cs_a 7 8 1
  have hhighB : cs_b.extractLsb' 7 7 = 0 ↔
      cs_b.extractLsb' 8 6 = 0 ∧ cs_b.extractLsb' 7 1 = 0 := slice_eq_zero_iff cs_b 7 6 1
  have hpartB : cs_b.extractLsb' 0 14 = 0 ↔
      cs_b.extractLsb' 7 7 = 0 ∧ cs_b.extractLsb' 0 7 = 0 := slice_eq_zero_iff cs_b 0 7 7
  have hall : cs_a = 0 ↔ cs_a.extractLsb' 7 9 = 0 ∧ cs_a.extractLsb' 0 7 = 0 := by
    have h := slice_eq_zero_iff cs_a 0 9 7
    rwa [BitVec.extractLsb'_eq_self] at h
  refine (without_rsvd0_eq_iff cvt_cnt _ _ rsvd0 err).trans ?_
  rw [high_eq_zero_iff, append_eq_zero_iff, hpartB, hall]
  constructor
  · rintro ⟨⟨hcvt, hb, ha⟩, ⟨hbl, hal⟩, hrsvd⟩
    exact ⟨hrsvd, ⟨ha, ((hlow cs_a).mp hal).2⟩, ⟨hb, ((hlow cs_b).mp hbl).2⟩, hcvt⟩
  · rintro ⟨hrsvd, ⟨ha, hal⟩, ⟨hb, hbl⟩, hcvt⟩
    exact ⟨⟨hcvt, hb, ha⟩, ⟨(hlow cs_b).mpr ⟨(hhighB.mp hb).2, hbl⟩,
      (hlow cs_a).mpr ⟨(hhighA.mp ha).2, hal⟩⟩, hrsvd⟩

/-- The `int` between the fields of `s1` moves the headers out of the word. -/
theorem s1_eq_word_iff (errReg : BitVec 16) (hdrs : BitVec 32) :
    s1 errReg hdrs = ColdWord1.word ⟨errReg, 0, hdrs⟩ ↔ hdrs = 0 := by
  unfold s1 ColdWord1.word
  dsimp only
  constructor
  · intro h
    have hbit {i : Nat} (hi : i < 32) :
        (if i < 16 then false else hdrs.getLsbD (i - 16)) = hdrs.getLsbD i := by
      have hat := congrArg (fun w => w.getLsbD (i + 32)) h
      have hlt : i + 32 < 64 := by omega
      have herr : ¬ i + 32 < 16 := by omega
      have hrsvd : ¬ i + 32 - 16 < 16 := by omega
      have hint : i + 32 - 16 < 32 ↔ i < 16 := by omega
      have htaken : i + 32 - 16 - 32 = i - 16 := by omega
      have hhdrs : i + 32 - 16 - 16 = i := by omega
      simp only [BitVec.getLsbD_setWidth, BitVec.getLsbD_append, hlt, herr, hrsvd, hint, htaken,
        hhdrs, decide_true, Bool.true_and, if_false, BitVec.getLsbD_zero] at hat
      exact hat
    have hfirst {i : Nat} (hi : i < 16) : hdrs.getLsbD i = false := by
      rw [← hbit (by omega), if_pos hi]
    refine BitVec.eq_of_getLsbD_eq fun i hi => ?_
    refine Eq.trans ?_ BitVec.getLsbD_zero.symm
    rcases Nat.lt_or_ge i 16 with hlt | hge
    · exact hfirst hlt
    · rw [← hbit hi, if_neg (by omega)]
      exact hfirst (by omega)
  · rintro rfl
    refine BitVec.eq_of_getLsbD_eq fun i hi => ?_
    simp only [BitVec.getLsbD_setWidth, BitVec.getLsbD_append]
    by_cases h : i < 16
    · simp [h, hi]
    · simp [h]

theorem hdrsOf_eq_zero_iff (hdr : Nat → BitVec 4) : hdrsOf hdr = 0 ↔ ∀ i < 8, hdr i = 0 := by
  have hsplit : hdrsOf hdr = 0 ↔ ((((((hdr 7 = 0 ∧ hdr 6 = 0) ∧ hdr 5 = 0) ∧ hdr 4 = 0) ∧
      hdr 3 = 0) ∧ hdr 2 = 0) ∧ hdr 1 = 0) ∧ hdr 0 = 0 := by
    simp only [← append_eq_zero_iff]
    rfl
  rw [hsplit]
  constructor
  · rintro ⟨⟨⟨⟨⟨⟨⟨h7, h6⟩, h5⟩, h4⟩, h3⟩, h2⟩, h1⟩, h0⟩ i hi
    match i, hi with
    | 0, _ => exact h0
    | 1, _ => exact h1
    | 2, _ => exact h2
    | 3, _ => exact h3
    | 4, _ => exact h4
    | 5, _ => exact h5
    | 6, _ => exact h6
    | 7, _ => exact h7
  · intro h
    refine ⟨⟨⟨⟨⟨⟨⟨?_, ?_⟩, ?_⟩, ?_⟩, ?_⟩, ?_⟩, ?_⟩, ?_⟩ <;> exact h _ (by omega)

end ColdData

/-- The software keeps the low half of a timestamp. -/
theorem softwareW1_eq_iff (timestamp : BitVec 64) :
    softwareW1 (timestamp.setWidth 32) = w1 timestamp ↔ timestamp.toNat < 2 ^ 32 := by
  have hlow : (softwareW1 (timestamp.setWidth 32)).toNat = timestamp.toNat % 2 ^ 32 := by
    have hlt : timestamp.toNat % 2 ^ 32 < 2 ^ 64 := by omega
    rw [softwareW1, BitVec.toNat_setWidth, BitVec.toNat_setWidth, Nat.mod_eq_of_lt hlt]
  rw [← BitVec.toNat_inj, hlow, w1]
  exact Nat.mod_eq_iff_lt (by decide)

namespace Composer

/-- One value of the fuel is as good as another where a call returns. -/
theorem readBack_iff_of_returns {c : Composer} {w : BitVec 64}
    (h : ∀ fuel, c.firmware fuel = some w) : c.ReadBack ↔ c.Reads w := by
  constructor
  · rintro ⟨fuel, w', hw, hreads⟩
    rwa [Option.some.inj ((h fuel).symm.trans hw)]
  · exact fun hreads => ⟨0, w, h 0, hreads⟩

theorem samePlaces_iff_of_returns {c : Composer} {w w' : BitVec 64}
    (h : ∀ fuel, c.firmware fuel = some w) (h' : ∀ fuel, c.software fuel = some w') :
    c.SamePlaces ↔ w' = w := by
  constructor
  · rintro ⟨fuel, x, hx, hx'⟩
    rw [h fuel] at hx
    rw [h' fuel] at hx'
    exact Option.some.inj (hx'.trans hx.symm)
  · rintro rfl
    exact ⟨0, w', h 0, h' 0⟩

theorem readBack_iff (c : Composer) : c.ReadBack ↔ c.Kept := by
  cases c with
  | w0 commaChar crate slot fiber rsvd errCapture errAsic errBits =>
    refine (readBack_iff_of_returns fun _ => rfl).trans (iff_of_true ?_ trivial)
    exact (Word0.read_eq_iff _ _).mpr rfl
  | w1 timestamp =>
    exact (readBack_iff_of_returns fun _ => rfl).trans (iff_of_true rfl trivial)
  | s0 err1 err2 rsvd0 cs_a cs_b cvt_cnt =>
    refine (readBack_iff_of_returns fun _ => rfl).trans ?_
    exact (ColdWord0.read_eq_iff _ _).trans (ColdData.s0_eq_word_iff err1 err2 rsvd0 cs_a cs_b cvt_cnt)
  | s0Plain err1 err2 cs_a cs_b cvt_cnt =>
    refine (readBack_iff_of_returns fun _ => rfl).trans ?_
    exact (ColdWord0.read_eq_iff _ _).trans (ColdData.s0_eq_word_iff err1 err2 0 cs_a cs_b cvt_cnt)
  | s0Bytes err1 err2 rsvd csA_lo csB_lo csA_hi csB_hi cvt_cnt =>
    refine iff_of_false ?_ not_false
    rintro ⟨fuel, w, hw, -⟩
    cases (ColdData.s0Bytes_eq_none fuel _ _ _ _ _ _ _ _).symm.trans hw
  | s1 errReg rsvd1 hdr =>
    refine (readBack_iff_of_returns fun _ => rfl).trans (iff_of_true ?_ trivial)
    exact (ColdWord1.read_eq_iff _ _).mpr rfl
  | s1Plain errReg hdr =>
    refine (readBack_iff_of_returns fun _ => rfl).trans ?_
    refine (ColdWord1.read_eq_iff _ _).trans ?_
    exact (ColdData.s1_eq_word_iff errReg (ColdData.hdrsOf hdr)).trans
      (ColdData.hdrsOf_eq_zero_iff hdr)

theorem samePlaces_iff (c : Composer) : c.SamePlaces ↔ c.Shared := by
  cases c with
  | w0 commaChar crate slot fiber rsvd errCapture errAsic errBits =>
    exact (samePlaces_iff_of_returns (fun _ => rfl) fun _ => rfl).trans (iff_of_true rfl trivial)
  | w1 timestamp =>
    exact (samePlaces_iff_of_returns (fun _ => rfl) fun _ => rfl).trans
      (softwareW1_eq_iff timestamp)
  | s0 err1 err2 rsvd0 cs_a cs_b cvt_cnt =>
    refine (samePlaces_iff_of_returns (fun _ => rfl) fun _ => rfl).trans ?_
    exact ColdData.softwareS0_eq_iff _ rsvd0 cs_a cs_b cvt_cnt
  | s0Plain err1 err2 cs_a cs_b cvt_cnt =>
    refine (samePlaces_iff_of_returns (fun _ => rfl) fun _ => rfl).trans ?_
    exact (ColdData.softwareS0_eq_iff _ 0 cs_a cs_b cvt_cnt).trans (and_iff_right rfl)
  | s0Bytes err1 err2 rsvd csA_lo csB_lo csA_hi csB_hi cvt_cnt =>
    refine iff_of_false ?_ not_false
    rintro ⟨fuel, w, hw, -⟩
    cases (ColdData.s0Bytes_eq_none fuel _ _ _ _ _ _ _ _).symm.trans hw
  | s1 errReg rsvd1 hdr =>
    exact (samePlaces_iff_of_returns (fun _ => rfl) fun _ => rfl).trans (iff_of_true rfl trivial)
  | s1Plain errReg hdr =>
    exact (samePlaces_iff_of_returns (fun _ => rfl) fun _ => rfl).trans (iff_of_true rfl trivial)

end Composer

/-- **The accessors** take a word apart into fields that do not overlap and are all of it. **The
composers** are read back where they keep their fields, and are those of the software where they
are shared. -/
theorem composers_read_back (c : Composer) (w : BitVec 64) (f : Word0) (s0 : ColdWord0)
    (s1 : ColdWord1) :
    (Word0.read w = f ↔ w = f.word) ∧ (ColdWord0.read w = s0 ↔ w = s0.word) ∧
      (ColdWord1.read w = s1 ↔ w = s1.word) ∧ (c.ReadBack ↔ c.Kept) ∧ (c.SamePlaces ↔ c.Shared) :=
  ⟨Word0.read_eq_iff w f, ColdWord0.read_eq_iff w s0, ColdWord1.read_eq_iff w s1,
    c.readBack_iff, c.samePlaces_iff⟩

/-- Bit 7 of a checksum is taken twice. -/
theorem checksum_bit_taken_twice : ¬ ∀ c : Composer, c.ReadBack ∧ c.SamePlaces := by
  intro h
  obtain ⟨hback, -⟩ := h (.s0Plain 0 0 0x0080 0 0)
  have hkept : HighHalvesKept 0x0080 0 := (Composer.readBack_iff _).mp hback
  have hbit := hkept.1 0 (by omega)
  exact absurd hbit (by decide)

end ProtoDune.Firmware.WibFrame
