import Mathlib.Data.Fin.VecNotation
import ProtoDune.Firmware.WibFrameProcess
import ProtoDune.Lib.Fields
import ProtoDune.Lib.Stored

/-!
# `WibFrame-Process.h`: the header record

The headers of a packet's first frame go to the header record. `evaluate` adds those
headers of the other frames that are bad, and an exception of 16 bits which names
the frame and the headers. Four exceptions are packed to a word.

The call of `evaluate` is commented out in `process_frame`; here it is made.

Main results:

* `Recorded.processFrame`, `processFrames_recorded` — what the record holds after each
  frame.
* `commit_words` — the words that are committed.
-/

namespace ProtoDune.Firmware

open Stored BitFields

namespace ReadStatus

def ErrWibBeg0 : Nat := 0x00
def ErrWibEnd0 : Nat := 0x04
def ErrWibBeg1 : Nat := 0x05
def ErrWibEnd1 : Nat := 0x07
def ErrCd0Beg0 : Nat := 0x08
def ErrCd0End0 : Nat := 0x0c
def ErrCd0Beg1 : Nat := 0x0d
def ErrCd0End1 : Nat := 0x0f
def ErrCd1Beg0 : Nat := 0x10
def ErrCd1End0 : Nat := 0x14
def ErrCd1Beg1 : Nat := 0x15
def ErrCd1End1 : Nat := 0x17

/-- `status (hi, lo)`, as a condition. -/
def anyOf (status : BitVec 32) (hi lo : Nat) : Bool := status.extractLsb' lo (hi - lo + 1) != 0

def isWibHdr0Bad (status : BitVec 32) : Bool := anyOf status ErrWibEnd0 ErrWibBeg0
def isWibHdr1Bad (status : BitVec 32) : Bool := anyOf status ErrWibEnd1 ErrWibBeg1
def isCd0Hdr0Bad (status : BitVec 32) : Bool := anyOf status ErrCd0End0 ErrCd0Beg0
def isCd0Hdr1Bad (status : BitVec 32) : Bool := anyOf status ErrCd0End1 ErrCd0Beg1
def isCd1Hdr0Bad (status : BitVec 32) : Bool := anyOf status ErrCd1End0 ErrCd1Beg0
def isCd1Hdr1Bad (status : BitVec 32) : Bool := anyOf status ErrCd1End1 ErrCd1Beg1

end ReadStatus

open ReadStatus

/-- `PacketContext::MaxExc`. -/
def MaxExc : Nat := 32

/-- The store to an array of `n` words; undefined beyond it. -/
def storeWord (n : Nat) (buf : Nat → BitVec 64) (i : Nat) (x : BitVec 64) :
    Option (Nat → BitVec 64) :=
  if i < n then some (Function.update buf i x) else none

/-- The indices and `m_tmp` of `HeaderContextLcl`, and the two buffers of `PacketContext`. -/
structure HeaderRecord where
  hdx : Nat
  edx : Nat
  tmp : BitVec 64
  hdrsBuf : Nat → BitVec 64
  excsBuf : Nat → BitVec 64

namespace HeaderRecord

/-! ## Writing the record -/

def reset (s : HeaderRecord) : HeaderRecord := { s with hdx := 0, edx := 0 }

def addHeader (s : HeaderRecord) (hdr : BitVec 64) : Option HeaderRecord := do
  let hdrsBuf ← storeWord (7 + 6 * MaxExc) s.hdrsBuf s.hdx hdr
  some { s with hdrsBuf, hdx := s.hdx + 1 }

/-- `shift` is an `ap_int<2>`: 2 and 3 are negative, and `shf64` extends the sign. -/
def addException (s : HeaderRecord) (excMask : BitVec 6) (nframe : BitVec 10) :
    Option HeaderRecord := do
  let exc : BitVec 16 := excMask ++ nframe
  let shift := BitVec.ofNat 2 (s.edx &&& 0x3)
  let exc64 := exc.setWidth 64
  let shf64 := shift.signExtend 6
  let tmp := if shift = 0 then exc64 else s.tmp ||| exc64 <<< (shf64 <<< 4).toNat
  let excsBuf ← if ~~~shift = 0 then storeWord (MaxExc / 4) s.excsBuf (s.edx >>> 2) tmp
    else some s.excsBuf
  some { s with tmp, excsBuf, edx := s.edx + 1 }

/-- One of the cases of `evaluate`: `addHeader`, and `exceptions.set (bit)`. -/
def addBad (bad : Bool) (hdr : BitVec 64) (bit : Nat) (r : HeaderRecord × BitVec 6) :
    Option (HeaderRecord × BitVec 6) :=
  if bad then do
    let s ← r.1.addHeader hdr
    some (s, r.2 ||| BitVec.twoPow 6 bit)
  else some r

def evaluate (s : HeaderRecord) (status : BitVec 32) (iframe : Nat)
    (wib0 wib1 cd00 cd01 cd10 cd11 : BitVec 64) : Option HeaderRecord :=
  if MaxExc ≤ s.edx then some s
  else do
    let r ← addBad (isWibHdr0Bad status) wib0 0 (s, 0)
    let r ← addBad (isWibHdr1Bad status) wib1 1 r
    let r ← addBad (isCd0Hdr0Bad status) cd00 2 r
    let r ← addBad (isCd0Hdr1Bad status) cd01 3 r
    let r ← addBad (isCd1Hdr0Bad status) cd10 4 r
    let r ← addBad (isCd1Hdr1Bad status) cd11 5 r
    if r.2 ≠ 0 then r.1.addException r.2 (BitVec.ofNat 10 iframe) else some r.1

/-- `process_frame`, as far as the header record goes. -/
def processFrame (s : HeaderRecord) (frame : StatusFrame) (iframe : Nat) : Option HeaderRecord := do
  let d := frame.d
  let s ← if iframe = 0 then
      [d 0, d 1, d 1, d 2, d 3, d 16, d 17].foldlM addHeader s.reset
    else s.evaluate frame.status iframe (d 0) (d 1) (d 2) (d 3) (d 16) (d 17)
  some { s with hdrsBuf := Function.update s.hdrsBuf 2 (d 1) }

/-- The context that is committed. -/
def pktCtx (s : HeaderRecord) (status : BitVec 32) : PacketContext where
  chdx := s.hdx
  cedx := s.edx
  status := status
  hdrsBuf := s.hdrsBuf

end HeaderRecord

/-- The record header word: the status, the counts of the exceptions and of the words,
`HdrsRecType` and `HeaderFmt`. -/
def recHeader (status : BitVec 32) (chdx cedx : Nat) : BitVec 64 :=
  status.setWidth 64 <<< 32 ||| BitVec.ofNat 64 cedx <<< 24 |||
    BitVec.ofNat 64 ((cedx + 3) >>> 2 + chdx + 1) <<< 8 ||| 1#64 <<< 4 ||| 3#64

/-- A loop that commits the words `buf[0] .. buf[n - 1]`. -/
def commitWords (write : Bool) (buf : Nat → BitVec 64) (n : Nat) (out : List AxisOut × Nat) :
    List AxisOut × Nat :=
  (List.range n).foldl (fun out idx => commit out.1 out.2 write (buf idx) 0 false) out

/-- `PacketContext::commit`. -/
def PacketContext.commit (pktCtx : PacketContext) (excsBuf : Nat → BitVec 64) (axis : List AxisOut)
    (odx : Nat) (first write : Bool) (status : BitVec 32) : List AxisOut × Nat :=
  let cedx := (pktCtx.cedx + 3) >>> 2
  let out := Firmware.commit axis odx write (recHeader status pktCtx.chdx pktCtx.cedx)
    (if first then axisSof else 0) false
  commitWords write excsBuf cedx (commitWords write pktCtx.hdrsBuf pktCtx.chdx out)

/-! ## The headers of a frame -/

/-- The headers of a frame, in the order of the record. -/
abbrev Headers := Fin 6 → BitVec 64

/-- The headers of a frame. -/
def StatusFrame.header (frame : StatusFrame) : Headers :=
  ![frame.d 0, frame.d 1, frame.d 2, frame.d 3, frame.d 16, frame.d 17]

/-- The numerals of the six headers. -/
scoped instance headers_neZero : @NeZero Nat Zero.ofOfNat0 6 := Nat.instNeZeroSucc

/-- The headers that a status says are bad. -/
def badHeaders (status : BitVec 32) : Fin 6 → Bool :=
  ![isWibHdr0Bad status, isWibHdr1Bad status, isCd0Hdr0Bad status, isCd0Hdr1Bad status,
    isCd1Hdr0Bad status, isCd1Hdr1Bad status]

/-- A bit of the mask. -/
def maskBit (bad : Bool) (bit : Nat) : BitVec 6 := if bad then BitVec.twoPow 6 bit else 0

/-- The mask of an exception. -/
def excMask (bad : Fin 6 → Bool) : BitVec 6 :=
  0 ||| maskBit (bad 0) 0 ||| maskBit (bad 1) 1 ||| maskBit (bad 2) 2 ||| maskBit (bad 3) 3 |||
    maskBit (bad 4) 4 ||| maskBit (bad 5) 5

theorem getLsbD_maskBit (bad : Bool) (bit : Nat) {i : Nat} (hi : i < 6) :
    (maskBit bad bit).getLsbD i = (bad && decide (bit = i)) := by
  cases bad with
  | false => simp [maskBit]
  | true => simp [maskBit, BitVec.getLsbD_twoPow]; omega

theorem getLsbD_excMask (bad : Fin 6 → Bool) (j : Fin 6) : (excMask bad).getLsbD j = bad j := by
  rw [excMask]
  simp only [BitVec.getLsbD_or, getLsbD_maskBit _ _ j.isLt]
  match j with
  | 0 => simp
  | 1 => simp
  | 2 => simp
  | 3 => simp
  | 4 => simp
  | 5 => simp

/-- A header, if it is bad. -/
def ifBad (bad : Fin 6 → Bool) (hdrs : Headers) (j : Fin 6) : List (BitVec 64) :=
  if bad j then [hdrs j] else []

/-- The headers of an exception, in the order of the record. -/
def badOnes (bad : Fin 6 → Bool) (hdrs : Headers) : List (BitVec 64) :=
  ifBad bad hdrs 0 ++ ifBad bad hdrs 1 ++ ifBad bad hdrs 2 ++ ifBad bad hdrs 3 ++
    ifBad bad hdrs 4 ++ ifBad bad hdrs 5

theorem length_ifBad_le (bad : Fin 6 → Bool) (hdrs : Headers) (j : Fin 6) :
    (ifBad bad hdrs j).length ≤ 1 := by
  unfold ifBad
  split
  · exact Nat.le_refl 1
  · exact Nat.zero_le 1

theorem length_badOnes_le (bad : Fin 6 → Bool) (hdrs : Headers) :
    (badOnes bad hdrs).length ≤ 6 := by
  have hle := length_ifBad_le bad hdrs
  have h0 := hle 0
  have h1 := hle 1
  have h2 := hle 2
  have h3 := hle 3
  have h4 := hle 4
  have h5 := hle 5
  simp only [badOnes, List.length_append]
  omega

/-! ## One frame -/

namespace HeaderRecord

variable {s : HeaderRecord} {hs : List (BitVec 64)}

/-- The headers of the record so far. -/
structure HasHeaders (s : HeaderRecord) (hs : List (BitVec 64)) : Prop where
  hdx : s.hdx = hs.length
  stored : StoredAt s.hdrsBuf 0 hs

/-- Two records with the same exceptions. -/
structure SameExceptions (s s' : HeaderRecord) : Prop where
  edx : s'.edx = s.edx
  tmp : s'.tmp = s.tmp
  excsBuf : s'.excsBuf = s.excsBuf

theorem SameExceptions.refl (s : HeaderRecord) : SameExceptions s s := ⟨rfl, rfl, rfl⟩

theorem SameExceptions.trans {s₁ s₂ s₃ : HeaderRecord} (h : SameExceptions s₁ s₂)
    (h' : SameExceptions s₂ s₃) : SameExceptions s₁ s₃ :=
  ⟨h'.edx.trans h.edx, h'.tmp.trans h.tmp, h'.excsBuf.trans h.excsBuf⟩

theorem addHeader_spec (h : s.HasHeaders hs) (hroom : hs.length < 7 + 6 * MaxExc)
    (hdr : BitVec 64) :
    ∃ s', s.addHeader hdr = some s' ∧ s'.HasHeaders (hs ++ [hdr]) ∧ SameExceptions s s' := by
  have hadd : s.addHeader hdr =
      some { s with hdrsBuf := Function.update s.hdrsBuf hs.length hdr, hdx := s.hdx + 1 } := by
    have hstore : storeWord (7 + 6 * MaxExc) s.hdrsBuf s.hdx hdr =
        some (Function.update s.hdrsBuf hs.length hdr) := by
      rw [h.hdx]
      exact if_pos hroom
    rw [addHeader, hstore]
    rfl
  refine ⟨_, hadd, ⟨?_, ?_⟩, rfl, rfl, rfl⟩
  · rw [List.length_append, ← h.hdx]
    rfl
  · have hpush := h.stored.push hdr
    rwa [Nat.zero_add] at hpush

/-- One case of `evaluate`, with room for `k` more headers after it. -/
theorem addBad_spec {k : Nat} (h : s.HasHeaders hs) (hroom : hs.length + (k + 1) ≤ 7 + 6 * MaxExc)
    (bad : Fin 6 → Bool) (hdrs : Headers) (j : Fin 6) (bit : Nat) (exceptions : BitVec 6) :
    ∃ s', addBad (bad j) (hdrs j) bit (s, exceptions) =
        some (s', exceptions ||| maskBit (bad j) bit) ∧
      s'.HasHeaders (hs ++ ifBad bad hdrs j) ∧ SameExceptions s s' ∧
      (hs ++ ifBad bad hdrs j).length + k ≤ 7 + 6 * MaxExc := by
  have hlen : (hs ++ ifBad bad hdrs j).length + k ≤ 7 + 6 * MaxExc := by
    have hle := length_ifBad_le bad hdrs j
    rw [List.length_append]
    omega
  cases hbad : bad j with
  | false =>
    refine ⟨s, ?_, ?_, .refl s, hlen⟩
    · simp [addBad, maskBit]
    · simpa [ifBad, hbad] using h
  | true =>
    obtain ⟨s', hadd, hhas, hsame⟩ := addHeader_spec h (by omega) (hdrs j)
    refine ⟨s', ?_, ?_, hsame, hlen⟩
    · rw [addBad, if_pos rfl, hadd]
      rfl
    · simpa [ifBad, hbad] using hhas

/-- The headers that `evaluate` adds, and the exception. -/
theorem evaluate_eq (h : s.HasHeaders hs) (hedx : s.edx < MaxExc)
    (hroom : hs.length + 6 ≤ 7 + 6 * MaxExc) (frame : StatusFrame) (iframe : Nat) :
    ∃ s', s'.HasHeaders (hs ++ badOnes (badHeaders frame.status) frame.header) ∧
      SameExceptions s s' ∧
      s.evaluate frame.status iframe (frame.d 0) (frame.d 1) (frame.d 2) (frame.d 3) (frame.d 16)
          (frame.d 17) =
        if excMask (badHeaders frame.status) ≠ 0 then
          s'.addException (excMask (badHeaders frame.status)) (BitVec.ofNat 10 iframe)
        else some s' := by
  obtain ⟨s₀, h₀, hs₀, he₀, hr₀⟩ := addBad_spec h hroom (badHeaders frame.status) frame.header 0 0 0
  obtain ⟨s₁, h₁, hs₁, he₁, hr₁⟩ := addBad_spec hs₀ hr₀ (badHeaders frame.status) frame.header 1 1
    (0 ||| maskBit (badHeaders frame.status 0) 0)
  obtain ⟨s₂, h₂, hs₂, he₂, hr₂⟩ := addBad_spec hs₁ hr₁ (badHeaders frame.status) frame.header 2 2
    (0 ||| maskBit (badHeaders frame.status 0) 0 ||| maskBit (badHeaders frame.status 1) 1)
  obtain ⟨s₃, h₃, hs₃, he₃, hr₃⟩ := addBad_spec hs₂ hr₂ (badHeaders frame.status) frame.header 3 3
    (0 ||| maskBit (badHeaders frame.status 0) 0 ||| maskBit (badHeaders frame.status 1) 1 |||
      maskBit (badHeaders frame.status 2) 2)
  obtain ⟨s₄, h₄, hs₄, he₄, hr₄⟩ := addBad_spec hs₃ hr₃ (badHeaders frame.status) frame.header 4 4
    (0 ||| maskBit (badHeaders frame.status 0) 0 ||| maskBit (badHeaders frame.status 1) 1 |||
      maskBit (badHeaders frame.status 2) 2 ||| maskBit (badHeaders frame.status 3) 3)
  obtain ⟨s₅, h₅, hs₅, he₅, -⟩ := addBad_spec hs₄ hr₄ (badHeaders frame.status) frame.header 5 5
    (0 ||| maskBit (badHeaders frame.status 0) 0 ||| maskBit (badHeaders frame.status 1) 1 |||
      maskBit (badHeaders frame.status 2) 2 ||| maskBit (badHeaders frame.status 3) 3 |||
      maskBit (badHeaders frame.status 4) 4)
  refine ⟨s₅, ?_, ((((he₀.trans he₁).trans he₂).trans he₃).trans he₄).trans he₅, ?_⟩
  · simpa [badOnes, List.append_assoc] using hs₅
  · rw [evaluate, if_neg (Nat.not_le.mpr hedx)]
    change (addBad (badHeaders frame.status 0) (frame.header 0) 0 (s, 0) >>= _) = _
    rw [h₀]
    change (addBad (badHeaders frame.status 1) (frame.header 1) 1 _ >>= _) = _
    rw [h₁]
    change (addBad (badHeaders frame.status 2) (frame.header 2) 2 _ >>= _) = _
    rw [h₂]
    change (addBad (badHeaders frame.status 3) (frame.header 3) 3 _ >>= _) = _
    rw [h₃]
    change (addBad (badHeaders frame.status 4) (frame.header 4) 4 _ >>= _) = _
    rw [h₄]
    change (addBad (badHeaders frame.status 5) (frame.header 5) 5 _ >>= _) = _
    rw [h₅]
    rfl

/-- The 16 bits at place `q` of a word of exceptions. -/
def excLane (x : BitVec 64) (q : Nat) : BitVec 16 := x.extractLsb' (16 * q) 16

/-- What the indices of `addException` are: the sign of `shift` does no harm. -/
theorem shift_eq : ∀ q < 4, (BitVec.ofNat 2 q = 0 ↔ q = 0) ∧ (~~~BitVec.ofNat 2 q = 0 ↔ q = 3) ∧
    ((BitVec.ofNat 2 q).signExtend 6 <<< 4).toNat = 16 * q := by
  decide

theorem excLane_shifted (c : BitVec 16) {q r : Nat} (hq : q < 4) :
    excLane (c.setWidth 64 <<< (16 * q)) r = if r = q then c else 0 := by
  unfold excLane
  split
  · rename_i hrq
    rw [hrq]
    exact extractLsb'_shiftLeft_self c (by omega)
  · exact extractLsb'_shiftLeft_disjoint c (by omega)

/-- The exceptions so far: those of the full words in the buffer, the others in `tmp`. The
words behind are as before. -/
structure HasExceptions (excs : Nat → BitVec 64) (s : HeaderRecord) (cs : List (BitVec 16)) :
    Prop where
  edx : s.edx = cs.length
  full : ∀ k < 4 * (cs.length / 4), excLane (s.excsBuf (k / 4)) (k % 4) = cs.getD k 0
  kept : ∀ i, cs.length / 4 ≤ i → s.excsBuf i = excs i
  tmp : cs.length % 4 ≠ 0 → ∀ q < 4, excLane s.tmp q = cs.getD (4 * (cs.length / 4) + q) 0

variable {excs : Nat → BitVec 64} {cs : List (BitVec 16)}

theorem SameExceptions.hasExceptions {s' : HeaderRecord} (hsame : SameExceptions s s')
    (h : HasExceptions excs s cs) : HasExceptions excs s' cs := by
  obtain ⟨hedx, htmp, hbuf⟩ := hsame
  refine ⟨hedx.trans h.edx, ?_, ?_, ?_⟩
  · rw [hbuf]
    exact h.full
  · rw [hbuf]
    exact h.kept
  · rw [htmp]
    exact h.tmp

/-- The word being put together, with one more exception. -/
theorem HasExceptions.nextTmp (h : HasExceptions excs s cs) (c : BitVec 16) {q : Nat} (hq : q < 4) :
    excLane (if cs.length % 4 = 0 then c.setWidth 64
        else s.tmp ||| c.setWidth 64 <<< (16 * (cs.length % 4))) q =
      (cs ++ [c]).getD (4 * (cs.length / 4) + q) 0 := by
  have hlane : ∀ r < 4, excLane (c.setWidth 64 <<< (16 * r)) q = if q = r then c else 0 :=
    fun r hr => excLane_shifted c hr
  have hmod : cs.length % 4 < 4 := Nat.mod_lt _ (by omega)
  have hnew : (cs ++ [c]).getD (4 * (cs.length / 4) + q) 0 =
      cs.getD (4 * (cs.length / 4) + q) 0 ||| if q = cs.length % 4 then c else 0 := by
    rcases Nat.lt_trichotomy q (cs.length % 4) with hlt | heq | hgt
    · rw [if_neg (by omega), List.getD_append _ _ _ _ (by omega)]
      exact BitVec.or_zero.symm
    · have hat : 4 * (cs.length / 4) + q = cs.length := by omega
      rw [if_pos heq, hat, List.getD_eq_default cs _ (Nat.le_refl _)]
      simp
    · rw [if_neg (by omega), List.getD_eq_default, List.getD_eq_default]
      · exact BitVec.or_zero.symm
      · omega
      · rw [List.length_append, List.length_singleton]
        omega
  rw [hnew]
  split
  · rename_i hzero
    have hshift := hlane 0 (by omega)
    rw [Nat.mul_zero, BitVec.shiftLeft_zero] at hshift
    rw [hshift, hzero, List.getD_eq_default cs _ (by omega)]
    exact BitVec.zero_or.symm
  · rename_i hne
    rw [← h.tmp hne q hq, ← hlane _ hmod]
    exact BitVec.extractLsb'_or

theorem addException_spec (h : HasExceptions excs s cs) (hroom : cs.length < MaxExc)
    (excMask : BitVec 6) (nframe : BitVec 10) :
    ∃ s', s.addException excMask nframe = some s' ∧
      HasExceptions excs s' (cs ++ [excMask ++ nframe]) ∧
      s'.hdx = s.hdx ∧ s'.hdrsBuf = s.hdrsBuf := by
  have hmask : s.edx &&& 0x3 = cs.length % 4 := by
    rw [h.edx]
    exact Nat.and_two_pow_sub_one_eq_mod _ 2
  have hindex : s.edx >>> 2 = cs.length / 4 := by
    rw [h.edx, Nat.shiftRight_eq_div_pow]
  obtain ⟨hfirst, hlast, hshift⟩ := shift_eq (cs.length % 4) (Nat.mod_lt _ (by omega))
  have hlanes := fun q (hq : q < 4) => h.nextTmp (excMask ++ nframe) hq
  generalize htmp : (if cs.length % 4 = 0 then (excMask ++ nframe).setWidth 64
    else s.tmp ||| (excMask ++ nframe).setWidth 64 <<< (16 * (cs.length % 4))) = tmp at hlanes
  have hlen : (cs ++ [excMask ++ nframe]).length = cs.length + 1 := List.length_append
  have hadd : s.addException excMask nframe =
      some { s with
        tmp
        excsBuf := if cs.length % 4 = 3 then Function.update s.excsBuf (cs.length / 4) tmp
          else s.excsBuf
        edx := s.edx + 1 } := by
    unfold addException
    dsimp only
    simp only [hmask, hindex, hfirst, hlast, hshift, htmp]
    split
    · have hstore : storeWord (MaxExc / 4) s.excsBuf (cs.length / 4) tmp =
          some (Function.update s.excsBuf (cs.length / 4) tmp) := by
        refine if_pos ?_
        unfold MaxExc at hroom ⊢
        omega
      rw [hstore]
      rfl
    · rfl
  refine ⟨_, hadd, ⟨?_, ?_, ?_, ?_⟩, rfl, rfl⟩
  · rw [hlen, ← h.edx]
  · intro k hk
    dsimp only
    rw [hlen] at hk
    split
    · rename_i hthree
      by_cases hin : k < 4 * (cs.length / 4)
      · rw [Function.update_of_ne (by omega), h.full k hin, List.getD_append _ _ _ _ (by omega)]
      · have hdiv : k / 4 = cs.length / 4 := by omega
        rw [hdiv, Function.update_self, hlanes (k % 4) (Nat.mod_lt _ (by omega))]
        congr 1
        omega
    · rename_i hne
      have hin : k < 4 * (cs.length / 4) := by omega
      rw [h.full k hin, List.getD_append _ _ _ _ (by omega)]
  · intro i hi
    dsimp only
    rw [hlen] at hi
    split
    · rw [Function.update_of_ne (by omega)]
      exact h.kept i (by omega)
    · exact h.kept i (by omega)
  · intro hne q hq
    rw [hlen] at hne ⊢
    have hdiv : (cs.length + 1) / 4 = cs.length / 4 := by omega
    rw [hdiv]
    exact hlanes q hq

/-! ## The frames of a packet -/

end HeaderRecord

section Packet

variable (frames : Nat → StatusFrame)

/-- The mask of a frame. -/
def frameMask (g : Nat) : BitVec 6 := excMask (badHeaders (frames g).status)

/-- The exceptions of the frames 1 to `m`: the first ones with a bad header. -/
def exceptions (m : Nat) : List Nat :=
  ((List.range' 1 m).filter fun g => frameMask frames g ≠ 0).take MaxExc

/-- The 16 bits of an exception. -/
def exceptionCode (g : Nat) : BitVec 16 := frameMask frames g ++ BitVec.ofNat 10 g

/-- The headers of the record after the frames 0 to `m`. -/
def recordHeaders (m : Nat) : List (BitVec 64) :=
  [(frames 0).d 0, (frames 0).d 1, (frames m).d 1, (frames 0).d 2, (frames 0).d 3,
    (frames 0).d 16, (frames 0).d 17] ++
  (exceptions frames m).flatMap fun g => badOnes (badHeaders (frames g).status) (frames g).header

/-- What the record holds after the frames 0 to `m`. -/
structure Recorded (excs : Nat → BitVec 64) (m : Nat) (s : HeaderRecord) : Prop where
  headers : s.HasHeaders (recordHeaders frames m)
  excs : s.HasExceptions excs ((exceptions frames m).map (exceptionCode frames))

variable {frames}

theorem exceptions_succ_of_bad {m : Nat} (hbad : frameMask frames (m + 1) ≠ 0)
    (hroom : (exceptions frames m).length < MaxExc) :
    exceptions frames (m + 1) = exceptions frames m ++ [m + 1] := by
  rw [exceptions, List.length_take] at hroom
  have hall : ((List.range' 1 m).filter fun g => frameMask frames g ≠ 0).length < MaxExc := by
    omega
  rw [exceptions, exceptions, List.range'_1_concat, List.filter_append, Nat.add_comm 1 m,
    List.filter_singleton, decide_eq_true hbad, cond_true,
    List.take_of_length_le (Nat.le_of_lt hall)]
  refine List.take_of_length_le ?_
  rw [List.length_append, List.length_singleton]
  omega

theorem exceptions_succ_of_good {m : Nat} (hgood : frameMask frames (m + 1) = 0) :
    exceptions frames (m + 1) = exceptions frames m := by
  rw [exceptions, exceptions, List.range'_1_concat, List.filter_append, Nat.add_comm 1 m,
    List.filter_singleton, decide_eq_false (not_not.mpr hgood), cond_false, List.append_nil]

theorem exceptions_succ_of_full {m : Nat} (hfull : MaxExc ≤ (exceptions frames m).length) :
    exceptions frames (m + 1) = exceptions frames m := by
  rw [exceptions, List.length_take] at hfull
  rw [exceptions, exceptions, List.range'_1_concat, List.filter_append,
    List.take_append_of_le_length (by omega)]

variable (frames) in
theorem length_exceptions_le (m : Nat) : (exceptions frames m).length ≤ MaxExc :=
  List.length_take_le ..

theorem length_flatMap_badOnes_le (es : List Nat) :
    (es.flatMap fun g => badOnes (badHeaders (frames g).status) (frames g).header).length ≤
      6 * es.length := by
  induction es with
  | nil => exact Nat.le_refl 0
  | cons g es ih =>
    have hle := length_badOnes_le (badHeaders (frames g).status) (frames g).header
    rw [List.flatMap_cons, List.length_append, List.length_cons]
    omega

variable (frames) in
theorem length_recordHeaders_le (m : Nat) :
    (recordHeaders frames m).length ≤ 7 + 6 * (exceptions frames m).length := by
  rw [recordHeaders, List.length_append]
  exact Nat.add_le_add_left (length_flatMap_badOnes_le _) 7

/-- The timestamp of the last frame is stored over the one before. -/
theorem set_recordHeaders (m : Nat) (hsame : exceptions frames (m + 1) = exceptions frames m) :
    (recordHeaders frames m).set 2 ((frames (m + 1)).d 1) = recordHeaders frames (m + 1) := by
  rw [recordHeaders, recordHeaders, hsame]
  rfl

theorem badHeaders_of_good {g : Nat} (hgood : frameMask frames g = 0) (j : Fin 6) :
    badHeaders (frames g).status j = false := by
  have hbit := getLsbD_excMask (badHeaders (frames g).status) j
  rw [← frameMask, hgood] at hbit
  exact hbit.symm.trans BitVec.getLsbD_zero

theorem badOnes_of_good {g : Nat} (hgood : frameMask frames g = 0) :
    badOnes (badHeaders (frames g).status) (frames g).header = [] := by
  simp [badOnes, ifBad, badHeaders_of_good hgood]

theorem recordHeaders_succ_of_bad {m : Nat}
    (hnext : exceptions frames (m + 1) = exceptions frames m ++ [m + 1]) :
    recordHeaders frames (m + 1) = (recordHeaders frames m ++
      badOnes (badHeaders (frames (m + 1)).status) (frames (m + 1)).header).set 2
        ((frames (m + 1)).d 1) := by
  rw [recordHeaders, recordHeaders, hnext, List.flatMap_append, List.flatMap_singleton,
    List.append_assoc]
  rfl

variable {excs : Nat → BitVec 64} {m : Nat} {s : HeaderRecord}

theorem HeaderRecord.HasHeaders.setLast {hs : List (BitVec 64)} (h : s.HasHeaders hs)
    (x : BitVec 64) :
    HasHeaders { s with hdrsBuf := Function.update s.hdrsBuf 2 x } (hs.set 2 x) := by
  refine ⟨?_, ?_⟩
  · rw [List.length_set]
    exact h.hdx
  · have hset := h.stored.set 2 x
    rwa [Nat.zero_add] at hset

/-- **One frame** keeps what the record holds. -/
theorem Recorded.processFrame (h : Recorded frames excs m s) :
    ∃ s', s.processFrame (frames (m + 1)) (m + 1) = some s' ∧ Recorded frames excs (m + 1) s' := by
  have hedx : s.edx = (exceptions frames m).length := by
    rw [h.excs.edx, List.length_map]
  have hprocess : ∀ s', s.evaluate (frames (m + 1)).status (m + 1) ((frames (m + 1)).d 0)
      ((frames (m + 1)).d 1) ((frames (m + 1)).d 2) ((frames (m + 1)).d 3) ((frames (m + 1)).d 16)
      ((frames (m + 1)).d 17) = some s' →
      s.processFrame (frames (m + 1)) (m + 1) =
        some { s' with hdrsBuf := Function.update s'.hdrsBuf 2 ((frames (m + 1)).d 1) } := by
    intro s' heval
    rw [HeaderRecord.processFrame, if_neg (Nat.succ_ne_zero m), heval]
    rfl
  by_cases hfull : MaxExc ≤ s.edx
  · -- the exceptions are full
    refine ⟨_, hprocess s (if_pos hfull), ?_⟩
    rw [hedx] at hfull
    have hsame := exceptions_succ_of_full hfull
    refine ⟨?_, ?_⟩
    · rw [← set_recordHeaders m hsame]
      exact h.headers.setLast _
    · rw [hsame]
      exact ⟨h.excs.edx, h.excs.full, h.excs.kept, h.excs.tmp⟩
  · have hroom := length_recordHeaders_le frames m
    obtain ⟨s₁, hs₁, he₁, heval⟩ := HeaderRecord.evaluate_eq h.headers (Nat.not_le.mp hfull)
      (by omega) (frames (m + 1)) (m + 1)
    have hexcs := he₁.hasExceptions h.excs
    by_cases hgood : frameMask frames (m + 1) = 0
    · -- no header is bad
      refine ⟨_, hprocess s₁ (heval.trans (if_neg (not_not.mpr hgood))), ?_⟩
      have hsame := exceptions_succ_of_good hgood
      rw [badOnes_of_good hgood, List.append_nil] at hs₁
      refine ⟨?_, ?_⟩
      · rw [← set_recordHeaders m hsame]
        exact hs₁.setLast _
      · rw [hsame]
        exact ⟨hexcs.edx, hexcs.full, hexcs.kept, hexcs.tmp⟩
    · have hlt : (exceptions frames m).length < MaxExc := by omega
      obtain ⟨s₂, hadd, hexcs₂, hhdx, hbuf⟩ := HeaderRecord.addException_spec hexcs
        (by rwa [List.length_map]) (frameMask frames (m + 1)) (BitVec.ofNat 10 (m + 1))
      refine ⟨_, hprocess s₂ (heval.trans ((if_pos hgood).trans hadd)), ?_⟩
      have hnext := exceptions_succ_of_bad hgood hlt
      have hs₂ : s₂.HasHeaders _ := ⟨hhdx.trans hs₁.hdx, by rw [hbuf]; exact hs₁.stored⟩
      refine ⟨?_, ?_⟩
      · rw [recordHeaders_succ_of_bad hnext]
        exact hs₂.setLast _
      · rw [hnext, List.map_append]
        exact ⟨hexcs₂.edx, hexcs₂.full, hexcs₂.kept, hexcs₂.tmp⟩

end Packet

/-! ## The words of the record -/

theorem commitWords_eq (buf : Nat → BitVec 64) (n : Nat) (out : List AxisOut × Nat) :
    commitWords true buf n out =
      (out.1 ++ (List.range n).map fun i => ⟨buf i, 0xff, 0, false⟩, out.2 + n) := by
  induction n with
  | zero => simp [commitWords]
  | succ n ih =>
    rw [commitWords] at ih
    rw [commitWords, List.range_succ, List.foldl_append, ih]
    simp [commit, List.append_assoc, Nat.add_assoc]

/-- The words of a record. -/
def recordWords (s : HeaderRecord) (status : BitVec 32) : List (BitVec 64) :=
  [recHeader status s.hdx s.edx] ++ (List.range s.hdx).map s.hdrsBuf ++
    (List.range ((s.edx + 3) / 4)).map s.excsBuf

theorem commit_words (s : HeaderRecord) (status : BitVec 32) :
    (((s.pktCtx status).commit s.excsBuf [] 0 true true status).1).map AxisOut.data =
      recordWords s status := by
  have hcount : (s.edx + 3) >>> 2 = (s.edx + 3) / 4 := Nat.shiftRight_eq_div_pow _ 2
  unfold PacketContext.commit HeaderRecord.pktCtx
  dsimp only
  rw [hcount, commitWords_eq, commitWords_eq]
  simp [commit, recordWords, Function.comp_def]

section RecHeader

variable {chdx cedx : Nat}

theorem recHeader_fields (status : BitVec 32) (hcedx : cedx < 2 ^ 8)
    (hlen : (cedx + 3) / 4 + chdx + 1 < 2 ^ 16) :
    (recHeader status chdx cedx).extractLsb' 32 32 = status ∧
      (recHeader status chdx cedx).extractLsb' 24 8 = BitVec.ofNat 8 cedx ∧
      (recHeader status chdx cedx).extractLsb' 8 16 =
        BitVec.ofNat 16 ((cedx + 3) / 4 + chdx + 1) := by
  have hexc : BitVec.ofNat 64 cedx = (BitVec.ofNat 8 cedx).setWidth 64 :=
    (BitVec.setWidth_ofNat_of_le_of_lt (by omega) hcedx).symm
  have hrec : BitVec.ofNat 64 ((cedx + 3) / 4 + chdx + 1) =
      (BitVec.ofNat 16 ((cedx + 3) / 4 + chdx + 1)).setWidth 64 :=
    (BitVec.setWidth_ofNat_of_le_of_lt (by omega) hlen).symm
  have htype : (1#64 : BitVec 64) = (1#4).setWidth 64 := rfl
  have hfmt : (3#64 : BitVec 64) = (3#4).setWidth 64 <<< 0 := rfl
  have hcount : (cedx + 3) >>> 2 = (cedx + 3) / 4 := Nat.shiftRight_eq_div_pow _ 2
  rw [recHeader, hcount, hexc, hrec, htype, hfmt]
  simp only [BitVec.extractLsb'_or]
  refine ⟨?_, ?_, ?_⟩
  · rw [extractLsb'_shiftLeft_self status (by omega), extractLsb'_shiftLeft_disjoint _ (by omega),
      extractLsb'_shiftLeft_disjoint _ (by omega), extractLsb'_shiftLeft_disjoint _ (by omega),
      extractLsb'_shiftLeft_disjoint _ (by omega)]
    simp only [BitVec.ofNat_eq_ofNat, BitVec.or_zero]
  · rw [extractLsb'_shiftLeft_disjoint status (by omega), extractLsb'_shiftLeft_self _ (by omega),
      extractLsb'_shiftLeft_disjoint _ (by omega), extractLsb'_shiftLeft_disjoint _ (by omega),
      extractLsb'_shiftLeft_disjoint _ (by omega)]
    simp only [BitVec.ofNat_eq_ofNat, BitVec.or_zero, BitVec.zero_or]
  · rw [extractLsb'_shiftLeft_disjoint status (by omega),
      extractLsb'_shiftLeft_disjoint (BitVec.ofNat 8 cedx) (by omega),
      extractLsb'_shiftLeft_self _ (by omega), extractLsb'_shiftLeft_disjoint _ (by omega),
      extractLsb'_shiftLeft_disjoint _ (by omega)]
    simp only [BitVec.ofNat_eq_ofNat, BitVec.or_zero, BitVec.zero_or]

end RecHeader

end ProtoDune.Firmware
