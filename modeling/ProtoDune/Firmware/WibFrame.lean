import ProtoDune.Firmware.Axis

/-!
# `WibFrame.h`: the fields of a WIB frame

Accessors and composers of the header words.

Main results:

* `WibFrame.w0_fields`, `ColdData.s0_fields` — what was composed is read back.
-/

namespace ProtoDune.Firmware

/-- A word of the input stream, `AxisIn_t`. -/
structure AxisIn where
  data : BitVec 64
  user : BitVec 4
  last : Bool
deriving DecidableEq

namespace WibFrame

def VersionNumber : BitVec 5 := 1

def K28_5 : BitVec 8 := 0xBC

def commaChar (w : BitVec 64) : BitVec 8 := w.extractLsb' 0 8
def version (w : BitVec 64) : BitVec 5 := w.extractLsb' 8 5
def id (w : BitVec 64) : BitVec 11 := w.extractLsb' 13 11
def wibErrors (w : BitVec 64) : BitVec 16 := w.extractLsb' 48 16

def w0 (commaChar : BitVec 8) (id : BitVec 11) (rsvd : BitVec 24) (errWrd : BitVec 16) :
    BitVec 64 :=
  errWrd ++ rsvd ++ id ++ VersionNumber ++ commaChar

def w1 (timestamp : BitVec 64) : BitVec 64 := timestamp

theorem w0_fields (comma : BitVec 8) (i : BitVec 11) (rsvd : BitVec 24) (err : BitVec 16) :
    commaChar (w0 comma i rsvd err) = comma ∧ version (w0 comma i rsvd err) = VersionNumber ∧
      id (w0 comma i rsvd err) = i ∧ wibErrors (w0 comma i rsvd err) = err := by
  refine ⟨?_, ?_, ?_, ?_⟩ <;>
  · apply BitVec.eq_of_getLsbD_eq
    intro k hk
    simp only [commaChar, version, id, wibErrors, w0, BitVec.getLsbD_extractLsb',
      BitVec.getLsbD_append, hk, decide_true, Bool.true_and]
    repeat' split
    all_goals first
      | omega
      | (congr 1; omega)

namespace ColdData

def streamErr1 (w : BitVec 64) : BitVec 4 := w.extractLsb' 0 4
def streamErr2 (w : BitVec 64) : BitVec 4 := w.extractLsb' 4 4
def rsvd0 (w : BitVec 64) : BitVec 8 := w.extractLsb' 8 8
def cvtCnt (w : BitVec 64) : BitVec 16 := w.extractLsb' 48 16
def errReg (w : BitVec 64) : BitVec 16 := w.extractLsb' 0 16
def rsvd1 (w : BitVec 64) : BitVec 16 := w.extractLsb' 16 16
def hdrs (w : BitVec 64) : BitVec 32 := w.extractLsb' 32 32

/-- `s0`; the high halves of the checksums are taken from bit 7 on. -/
def s0 (err : BitVec 8) (rsvd0 : BitVec 8) (cs_a cs_b : BitVec 16) (cvt_cnt : BitVec 16) :
    BitVec 64 :=
  let cs_lo : BitVec 16 := cs_b.extractLsb' 0 8 ++ cs_a.extractLsb' 0 8
  let cs_hi : BitVec 16 := (cs_b.extractLsb' 7 9 ++ cs_a.extractLsb' 7 9).setWidth 16
  cvt_cnt ++ cs_hi ++ cs_lo ++ rsvd0 ++ err

/-- `s1`; the literal 0 between the fields is an `int`. -/
def s1 (errReg : BitVec 16) (hdrs : BitVec 32) : BitVec 64 :=
  (hdrs ++ 0#32 ++ errReg).setWidth 64

theorem s0_fields (cvt_cnt : BitVec 16) :
    streamErr1 (s0 0 0 0 0 cvt_cnt) = 0 ∧ streamErr2 (s0 0 0 0 0 cvt_cnt) = 0 ∧
      rsvd0 (s0 0 0 0 0 cvt_cnt) = 0 ∧ cvtCnt (s0 0 0 0 0 cvt_cnt) = cvt_cnt := by
  have hs0 : s0 0 0 0 0 cvt_cnt = cvt_cnt ++ 0#48 := by
    apply BitVec.eq_of_getLsbD_eq
    intro k hk
    simp only [s0, BitVec.getLsbD_append]
    repeat' split
    all_goals first
      | omega
      | (simp; done)
      | congr 1
  rw [hs0]
  refine ⟨?_, ?_, ?_, ?_⟩ <;>
  · apply BitVec.eq_of_getLsbD_eq
    intro k hk
    simp only [streamErr1, streamErr2, rsvd0, cvtCnt, BitVec.getLsbD_extractLsb',
      BitVec.getLsbD_append, hk, decide_true, Bool.true_and]
    split <;> first
      | omega
      | simp

end ColdData

end WibFrame

end ProtoDune.Firmware
