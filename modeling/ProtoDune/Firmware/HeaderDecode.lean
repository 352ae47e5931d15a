import Mathlib.Tactic.FinCases
import ProtoDune.Firmware.HeaderRecord

/-!
# `DuneDataCompressionCore_test.cpp`: decoding the header record

`header_decode` reads the headers of the first frame, and an exception at a time. The
headers that an exception does not name are expected to follow those of the
exception before.

Main results:

* `exceptionLoop_codes` — which exceptions are decoded.
* `exceptionLoop_spec` — the headers of the exceptions.
* `record_exact_iff` — when these are the headers of the frames.
-/

namespace ProtoDune.Firmware

open Stored BitFields

/-! ## The decoder -/

/-- `excBuf[k]`, 16 bits of the words from `excBuf` on. -/
def excAt (buf : Nat → BitVec 64) (excBuf k : Nat) : BitVec 16 :=
  (buf (excBuf + k / 4)).extractLsb' (16 * (k % 4)) 16

/-- One of the cases of `header_decode`: `*hdrBuf++`, or what is expected. -/
def nextHeader (buf : Nat → BitVec 64) (mask : BitVec 16) (bit : Nat) (expected : BitVec 64)
    (hdrBuf : Nat) : BitVec 64 × Nat :=
  if mask &&& BitVec.twoPow 16 bit ≠ 0 then (buf hdrBuf, hdrBuf + 1) else (expected, hdrBuf)

/-- The headers of one exception, and `hdrBuf` after them. -/
def exceptionHeaders (buf : Nat → BitVec 64) (mask : BitVec 16) (prv : Headers) (hdrBuf : Nat) :
    Headers × Nat :=
  let (h0, hdrBuf) := nextHeader buf mask 0 (prv 0) hdrBuf
  let (h1, hdrBuf) := nextHeader buf mask 1 (prv 1 + 25) hdrBuf
  let (h2, hdrBuf) := nextHeader buf mask 2 (prv 2 + 1#64 <<< 48) hdrBuf
  let (h3, hdrBuf) := nextHeader buf mask 3 (prv 3) hdrBuf
  let (h4, hdrBuf) := nextHeader buf mask 4 (prv 4 + 1#64 <<< 48) hdrBuf
  let (h5, hdrBuf) := nextHeader buf mask 5 (prv 5) hdrBuf
  (![h0, h1, h2, h3, h4, h5], hdrBuf)

/-- What an exception is decoded to: the frame, the mask and six elements of `headers`. -/
structure ExceptionGroup where
  frame : BitVec 16
  mask : BitVec 16
  headers : Headers

/-- The loop over the exceptions, with `k` iterations to go. -/
def exceptionLoop (buf : Nat → BitVec 64) (excBuf : Nat) : Nat → Nat → Nat → Headers →
    List ExceptionGroup
  | 0, _, _, _ => []
  | k + 1, idx, hdrBuf, prv =>
      let exception := excAt buf excBuf idx
      if exception = 0 then []
      else
        let frame := exception &&& 0x3ff
        let mask := exception >>> 10
        let (hdrs, hdrBuf) := exceptionHeaders buf mask prv hdrBuf
        ⟨frame, mask, hdrs⟩ :: exceptionLoop buf excBuf k (idx + 1) hdrBuf hdrs

/-- What `header_decode` returns: the first six elements of `headers`, and the others
by their exceptions. -/
structure DecodedHeaders where
  recLen : Nat
  status : BitVec 32
  headers : Headers
  groups : List ExceptionGroup

/-- `header_decode`; the format, the type and `lastts` are printed only. -/
def headerDecode (buf : Nat → BitVec 64) : DecodedHeaders :=
  let recHdr := buf 0
  let recLen := (recHdr >>> 8 &&& 0xffff).toNat
  let excCnt := (recHdr >>> 24 &&& 0xff).toNat
  let status := (recHdr >>> 32).setWidth 32
  let excCnt64 := (excCnt + 3) / 4
  let hdrCnt64 := recLen - excCnt64 - 1
  let hdrBuf := 1
  let excBuf := hdrBuf + hdrCnt64
  let prv : Headers := ![buf hdrBuf, buf (hdrBuf + 1), buf (hdrBuf + 3), buf (hdrBuf + 4),
    buf (hdrBuf + 5), buf (hdrBuf + 6)]
  { recLen, status, headers := prv
    groups := exceptionLoop buf excBuf (excCnt + 1) 0 (hdrBuf + 7) prv }

/-- What the decoder reads of the record header. -/
theorem headerDecode_eq {chdx cedx : Nat} {buf : Nat → BitVec 64} {status : BitVec 32}
    (hbuf : buf 0 = recHeader status chdx cedx) (hcedx : cedx < 2 ^ 8)
    (hlen : (cedx + 3) / 4 + chdx + 1 < 2 ^ 16) :
    headerDecode buf =
      { recLen := (cedx + 3) / 4 + chdx + 1
        status
        headers := ![buf 1, buf 2, buf 4, buf 5, buf 6, buf 7]
        groups := exceptionLoop buf (1 + chdx) (cedx + 1) 0 8
          ![buf 1, buf 2, buf 4, buf 5, buf 6, buf 7] } := by
  obtain ⟨hstatus, hexc, hrec⟩ := recHeader_fields status hcedx hlen
  have hrecLen : (buf 0 >>> 8 &&& 0xffff).toNat = (cedx + 3) / 4 + chdx + 1 := by
    have hslice := toNat_shiftRight_and_mask (s := 8) (l := 16) (buf 0) (by omega)
    rw [hbuf, hrec, BitVec.toNat_ofNat, Nat.mod_eq_of_lt hlen] at hslice
    rw [hbuf]
    exact hslice
  have hexcCnt : (buf 0 >>> 24 &&& 0xff).toNat = cedx := by
    have hslice := toNat_shiftRight_and_mask (s := 24) (l := 8) (buf 0) (by omega)
    rw [hbuf, hexc, BitVec.toNat_ofNat, Nat.mod_eq_of_lt hcedx] at hslice
    rw [hbuf]
    exact hslice
  have hst : (buf 0 >>> 32).setWidth 32 = status := by
    rw [setWidth_shiftRight_eq, hbuf, hstatus]
  have hsub : (cedx + 3) / 4 + chdx + 1 - (cedx + 3) / 4 - 1 = chdx := by omega
  unfold headerDecode
  dsimp only
  rw [hrecLen, hexcCnt, hst, hsub]

/-! ## Which exceptions are decoded -/

/-- The 16 bits from which a group is decoded. -/
def ExceptionGroup.code (group : ExceptionGroup) : BitVec 16 :=
  group.mask <<< 10 ||| group.frame

theorem split_exception (e : BitVec 16) : e >>> 10 <<< 10 ||| e &&& 0x3ff = e := by
  have hmask : (0x3ff : BitVec 16) = BitVec.ofNat 16 (2 ^ 10 - 1) := rfl
  refine BitVec.eq_of_getLsbD_eq fun i hi => ?_
  rw [hmask, BitVec.getLsbD_or, BitVec.getLsbD_and, BitVec.getLsbD_shiftLeft,
    BitVec.getLsbD_ushiftRight, BitVec.getLsbD_ofNat, Nat.testBit_two_pow_sub_one]
  by_cases hlow : i < 10
  · simp [hi, hlow]
  · have hadd : 10 + (i - 10) = i := by omega
    simp [hi, hlow, hadd]

/-- The loop decodes the exceptions up to the first 0. -/
theorem exceptionLoop_codes (buf : Nat → BitVec 64) (excBuf k idx hdrBuf : Nat) (prv : Headers) :
    (exceptionLoop buf excBuf k idx hdrBuf prv).map ExceptionGroup.code =
      ((List.range' idx k).map (excAt buf excBuf)).takeWhile (· ≠ 0) := by
  induction k generalizing idx hdrBuf prv with
  | zero => rfl
  | succ k ih =>
    rw [exceptionLoop, List.range'_succ, List.map_cons]
    dsimp only
    by_cases hzero : excAt buf excBuf idx = 0
    · rw [if_pos hzero, List.takeWhile_cons_of_neg (by simpa using hzero)]
      rfl
    · rw [if_neg hzero, List.takeWhile_cons_of_pos (by simpa using hzero), List.map_cons, ih,
        ExceptionGroup.code, split_exception]

/-- The exceptions of a frame are told apart. -/
theorem code_eq_exceptionCode {frames : Nat → StatusFrame} {g : Nat} {group : ExceptionGroup}
    (hg : g < 1024) (hframe : group.frame.toNat = g)
    (hmask : group.mask = (frameMask frames g).setWidth 16) :
    group.code = exceptionCode frames g := by
  have hgroup : group.frame = (BitVec.ofNat 10 g).setWidth 16 := by
    apply BitVec.eq_of_toNat_eq
    rw [hframe, BitVec.toNat_setWidth, BitVec.toNat_ofNat]
    omega
  rw [ExceptionGroup.code, hmask, hgroup, shiftLeft_or_setWidth, exceptionCode]
  exact BitVec.setWidth_eq _

theorem exceptionCode_ne_zero {frames : Nat → StatusFrame} {g : Nat}
    (hbad : frameMask frames g ≠ 0) : exceptionCode frames g ≠ 0 := by
  intro hzero
  exact hbad ((append_eq_zero_iff _ _).mp hzero).1

/-! ## The headers of an exception -/

/-- A header that follows that of the frame before: the timestamp and the convert counts go on. -/
def progress (j : Fin 6) (hdr : BitVec 64) : BitVec 64 :=
  match j with
  | 1 => hdr + 25
  | 2 => hdr + 1#64 <<< 48
  | 4 => hdr + 1#64 <<< 48
  | _ => hdr

/-- The headers of an exception: the bad ones, and those expected after `prv`. -/
def nextHeaders (bad : Fin 6 → Bool) (hdrs prv : Headers) : Headers :=
  fun j => if bad j then hdrs j else progress j (prv j)

section Loop

variable {buf : Nat → BitVec 64} {bad : Fin 6 → Bool} {hdrs : Headers} {hdrBuf : Nat}
  {l : List (BitVec 64)}

theorem nextHeader_spec (j : Fin 6) (bit : Nat) (hj : (j : Nat) = bit) (expected : BitVec 64)
    (h : StoredAt buf hdrBuf (ifBad bad hdrs j ++ l)) :
    nextHeader buf ((excMask bad).setWidth 16) bit expected hdrBuf =
        (if bad j then hdrs j else expected, hdrBuf + (ifBad bad hdrs j).length) ∧
      StoredAt buf (hdrBuf + (ifBad bad hdrs j).length) l := by
  obtain ⟨hown, hrest⟩ := StoredAt.append.mp h
  refine ⟨?_, hrest⟩
  have hlt : bit < 16 := by omega
  have hbit : ((excMask bad).setWidth 16).getLsbD bit = bad j := by
    rw [BitVec.getLsbD_setWidth, ← hj, getLsbD_excMask, decide_eq_true (by omega), Bool.true_and]
  have htest : (excMask bad).setWidth 16 &&& BitVec.twoPow 16 bit ≠ 0 ↔ bad j = true := by
    rw [BitVec.and_twoPow, hbit]
    cases bad j with
    | false => simp
    | true =>
      have hne : BitVec.twoPow 16 bit ≠ 0 := by
        intro hzero
        have hset := congrArg (BitVec.getLsbD · bit) hzero
        simp [hlt] at hset
      simpa using hne
  unfold nextHeader
  cases hbad : bad j with
  | false =>
    rw [if_neg (by rw [htest, hbad]; exact Bool.false_ne_true)]
    simp [ifBad, hbad]
  | true =>
    have hat : buf hdrBuf = hdrs j := by
      rw [ifBad, hbad, if_pos rfl] at hown
      exact StoredAt.singleton.mp hown
    rw [if_pos (htest.mpr hbad), hat]
    simp [ifBad, hbad]

theorem exceptionHeaders_spec (prv : Headers)
    (h : StoredAt buf hdrBuf (badOnes bad hdrs ++ l)) :
    exceptionHeaders buf ((excMask bad).setWidth 16) prv hdrBuf =
        (nextHeaders bad hdrs prv, hdrBuf + (badOnes bad hdrs).length) ∧
      StoredAt buf (hdrBuf + (badOnes bad hdrs).length) l := by
  have hrest := (StoredAt.append.mp h).2
  refine ⟨?_, hrest⟩
  simp only [badOnes, List.append_assoc] at h
  obtain ⟨h0, hs0⟩ := nextHeader_spec 0 0 rfl (prv 0) h
  obtain ⟨h1, hs1⟩ := nextHeader_spec 1 1 rfl (prv 1 + 25) hs0
  obtain ⟨h2, hs2⟩ := nextHeader_spec 2 2 rfl (prv 2 + 1#64 <<< 48) hs1
  obtain ⟨h3, hs3⟩ := nextHeader_spec 3 3 rfl (prv 3) hs2
  obtain ⟨h4, hs4⟩ := nextHeader_spec 4 4 rfl (prv 4 + 1#64 <<< 48) hs3
  obtain ⟨h5, -⟩ := nextHeader_spec 5 5 rfl (prv 5) hs4
  unfold exceptionHeaders
  rw [h0]
  dsimp only
  rw [h1]
  dsimp only
  rw [h2]
  dsimp only
  rw [h3]
  dsimp only
  rw [h4]
  dsimp only
  rw [h5]
  refine Prod.ext ?_ ?_
  · funext j
    fin_cases j <;> rfl
  · simp only [badOnes, List.length_append, Nat.add_assoc]

/-- The loop ends with a 0. -/
theorem exceptionLoop_end {excBuf idx : Nat} (hzero : excAt buf excBuf idx = 0) (k hdrBuf : Nat)
    (prv : Headers) : exceptionLoop buf excBuf (k + 1) idx hdrBuf prv = [] := by
  rw [exceptionLoop]
  dsimp only
  rw [if_pos hzero]

/-- The loop, with one exception more. -/
theorem exceptionLoop_cons {frames : Nat → StatusFrame} {excBuf k idx g : Nat} {prv : Headers}
    (hcode : excAt buf excBuf idx = exceptionCode frames g) (hbad : frameMask frames g ≠ 0)
    (h : StoredAt buf hdrBuf (badOnes (badHeaders (frames g).status) (frames g).header ++ l)) :
    exceptionLoop buf excBuf (k + 1) idx hdrBuf prv =
      ⟨(BitVec.ofNat 10 g).setWidth 16, (frameMask frames g).setWidth 16,
        nextHeaders (badHeaders (frames g).status) (frames g).header prv⟩ ::
      exceptionLoop buf excBuf k (idx + 1)
        (hdrBuf + (badOnes (badHeaders (frames g).status) (frames g).header).length)
        (nextHeaders (badHeaders (frames g).status) (frames g).header prv) := by
  have hframe : exceptionCode frames g &&& 0x3ff = (BitVec.ofNat 10 g).setWidth 16 := by
    have hmask : (0x3ff : BitVec 16) = BitVec.ofNat 16 (2 ^ 10 - 1) := rfl
    refine BitVec.eq_of_getLsbD_eq fun i hi => ?_
    rw [hmask, BitVec.getLsbD_and, BitVec.getLsbD_ofNat, Nat.testBit_two_pow_sub_one,
      exceptionCode, BitVec.getLsbD_append, BitVec.getLsbD_setWidth]
    by_cases hlow : i < 10
    · simp [hi, hlow]
    · have hoff : (BitVec.ofNat 10 g).getLsbD i = false :=
        BitVec.getLsbD_of_ge _ _ (Nat.le_of_not_lt hlow)
      simp [hlow, hoff]
  have hmask : exceptionCode frames g >>> 10 = (frameMask frames g).setWidth 16 := by
    refine BitVec.eq_of_getLsbD_eq fun i hi => ?_
    rw [BitVec.getLsbD_ushiftRight, exceptionCode, BitVec.getLsbD_append, if_neg (by omega),
      Nat.add_sub_cancel_left, BitVec.getLsbD_setWidth, decide_eq_true hi, Bool.true_and]
  rw [exceptionLoop]
  dsimp only
  rw [hcode, if_neg (exceptionCode_ne_zero hbad), hmask, hframe, frameMask,
    (exceptionHeaders_spec prv h).1]

end Loop

/-! ## The headers of the exceptions -/

section Frames

variable (frames : Nat → StatusFrame)

/-- The last headers that the decoder has, after the exceptions of the frames up to `g`. -/
def decodedHeaders : Nat → Headers
  | 0 => (frames 0).header
  | g + 1 =>
      if frameMask frames (g + 1) = 0 then decodedHeaders g
      else nextHeaders (badHeaders (frames (g + 1)).status) (frames (g + 1)).header
        (decodedHeaders g)

/-- What the exception of a frame is decoded to. -/
def decodedGroup (g : Nat) : ExceptionGroup where
  frame := (BitVec.ofNat 10 g).setWidth 16
  mask := (frameMask frames g).setWidth 16
  headers := decodedHeaders frames g

variable {frames} {buf : Nat → BitVec 64} {excBuf : Nat}

/-- The exceptions of `n` frames after the frame `a`, as far as there are at most `c` of them. -/
theorem exceptionLoop_spec (a n c : Nat) {es : List Nat} {idx hdrBuf : Nat}
    (hes : es = ((List.range' (a + 1) n).filter fun g => frameMask frames g ≠ 0).take c)
    (hcodes : StoredAt (excAt buf excBuf) idx (es.map (exceptionCode frames) ++ [0]))
    (hhdrs : StoredAt buf hdrBuf
      (es.flatMap fun g => badOnes (badHeaders (frames g).status) (frames g).header)) :
    exceptionLoop buf excBuf (es.length + 1) idx hdrBuf (decodedHeaders frames a) =
      es.map (decodedGroup frames) := by
  induction n generalizing a c es idx hdrBuf with
  | zero =>
    rw [List.range'_zero, List.filter_nil, List.take_nil] at hes
    subst hes
    exact exceptionLoop_end (StoredAt.singleton.mp hcodes) 0 hdrBuf _
  | succ n ih =>
    rw [List.range'_succ] at hes
    by_cases hgood : frameMask frames (a + 1) = 0
    · -- the frame has no exception
      rw [List.filter_cons_of_neg (by simpa using hgood)] at hes
      have hsame : decodedHeaders frames (a + 1) = decodedHeaders frames a := if_pos hgood
      rw [← hsame]
      exact ih (a + 1) c hes hcodes hhdrs
    · rw [List.filter_cons_of_pos (by simpa using hgood)] at hes
      cases c with
      | zero =>
        rw [List.take_zero] at hes
        subst hes
        exact exceptionLoop_end (StoredAt.singleton.mp hcodes) 0 hdrBuf _
      | succ c =>
        rw [List.take_succ_cons] at hes
        subst hes
        rw [List.map_cons, List.cons_append, ← List.singleton_append] at hcodes
        obtain ⟨hcode, hcodes⟩ := StoredAt.append.mp hcodes
        rw [List.flatMap_cons] at hhdrs
        have hnext : decodedHeaders frames (a + 1) =
            nextHeaders (badHeaders (frames (a + 1)).status) (frames (a + 1)).header
              (decodedHeaders frames a) := if_neg hgood
        rw [List.length_cons, exceptionLoop_cons (StoredAt.singleton.mp hcode) hgood hhdrs,
          ← hnext, List.map_cons]
        exact congrArg _ (ih (a + 1) c rfl hcodes (StoredAt.append.mp hhdrs).2)

/-! ## The frames between -/

/-- The headers `j` of the frames up to `g`, since the last one that an exception names or the
first, follow those of the frames before. -/
def Follows (frames : Nat → StatusFrame) (j : Fin 6) (g : Nat) : Prop :=
  ∀ h < g, (∀ k, h < k → k ≤ g → badHeaders (frames k).status j = false) →
    (frames (h + 1)).header j = progress j ((frames h).header j)

/-- Where the last header is not named, it follows, and so do those before. -/
theorem Follows.of_succ {j : Fin 6} {g : Nat} (h : Follows frames j (g + 1))
    (hnot : badHeaders (frames (g + 1)).status j = false) :
    (frames (g + 1)).header j = progress j ((frames g).header j) ∧ Follows frames j g := by
  constructor
  · refine h g (Nat.lt_succ_self g) fun k hlt hle => ?_
    obtain rfl : k = g + 1 := by omega
    exact hnot
  · intro i hi hsince
    refine h i (Nat.lt_succ_of_lt hi) fun k hlt hle => ?_
    rcases Nat.lt_or_ge g k with hgk | hkg
    · obtain rfl : k = g + 1 := by omega
      exact hnot
    · exact hsince k hlt hkg

/-- The frames without an exception since the header `j` was last named. -/
def lag (frames : Nat → StatusFrame) (j : Fin 6) : Nat → Nat
  | 0 => 0
  | g + 1 =>
      if frameMask frames (g + 1) = 0 then lag frames j g + 1
      else if badHeaders (frames (g + 1)).status j then 0 else lag frames j g

/-- The decoder is behind by the frames without an exception. -/
theorem header_eq_iterate {j : Fin 6} {g : Nat} (h : Follows frames j g) :
    (frames g).header j = (progress j)^[lag frames j g] (decodedHeaders frames g j) := by
  induction g with
  | zero => rfl
  | succ g ih =>
    rw [lag, decodedHeaders]
    by_cases hgood : frameMask frames (g + 1) = 0
    · obtain ⟨hstep, hbefore⟩ := h.of_succ (badHeaders_of_good hgood j)
      rw [if_pos hgood, if_pos hgood, hstep, ih hbefore, Function.iterate_succ_apply']
    · rw [if_neg hgood, if_neg hgood, nextHeaders]
      cases hbad : badHeaders (frames (g + 1)).status j with
      | true => rfl
      | false =>
        obtain ⟨hstep, hbefore⟩ := h.of_succ hbad
        rw [hstep, ih hbefore]
        exact (Function.iterate_succ_apply' ..).symm.trans (Function.iterate_succ_apply ..)

theorem lag_le (j : Fin 6) (g : Nat) : lag frames j g ≤ g := by
  induction g with
  | zero => exact Nat.le_refl 0
  | succ g ih =>
    rw [lag]
    split
    · omega
    · split
      · omega
      · omega

/-- Every frame without an exception is followed by one that names the header `j`. -/
def Unbroken (frames : Nat → StatusFrame) (j : Fin 6) (g : Nat) : Prop :=
  ∀ h, 0 < h → h ≤ g → frameMask frames h = 0 →
    ∃ k, h < k ∧ k ≤ g ∧ badHeaders (frames k).status j = true

theorem lag_eq_zero_iff (j : Fin 6) (g : Nat) : lag frames j g = 0 ↔ Unbroken frames j g := by
  induction g with
  | zero =>
    refine iff_of_true rfl ?_
    intro h hpos hle
    omega
  | succ g ih =>
    rw [lag]
    by_cases hgood : frameMask frames (g + 1) = 0
    · rw [if_pos hgood]
      refine iff_of_false (Nat.succ_ne_zero _) ?_
      intro hunbroken
      obtain ⟨k, hlt, hle, -⟩ := hunbroken (g + 1) (Nat.succ_pos g) (Nat.le_refl _) hgood
      omega
    · rw [if_neg hgood]
      -- a frame without an exception is one of those before
      have hbefore : ∀ h, h ≤ g + 1 → frameMask frames h = 0 → h ≤ g := by
        intro h hle hzero
        rcases Nat.lt_or_ge g h with hlt | hge
        · obtain rfl : h = g + 1 := by omega
          exact absurd hzero hgood
        · exact hge
      cases hbad : badHeaders (frames (g + 1)).status j with
      | true =>
        refine iff_of_true rfl ?_
        intro h hpos hle hzero
        exact ⟨g + 1, Nat.lt_succ_of_le (hbefore h hle hzero), Nat.le_refl _, hbad⟩
      | false =>
        refine ih.trans ⟨?_, ?_⟩
        · intro hunbroken h hpos hle hzero
          obtain ⟨k, hlt, hk, hnamed⟩ := hunbroken h hpos (hbefore h hle hzero) hzero
          exact ⟨k, hlt, Nat.le_succ_of_le hk, hnamed⟩
        · intro hunbroken h hpos hle hzero
          obtain ⟨k, hlt, hk, hnamed⟩ := hunbroken h hpos (Nat.le_succ_of_le hle) hzero
          rcases Nat.lt_or_ge g k with hgk | hkg
          · obtain rfl : k = g + 1 := by omega
            rw [hbad] at hnamed
            cases hnamed
          · exact ⟨k, hlt, hkg, hnamed⟩

/-- The headers with a count: the timestamp and the two convert counts. -/
def Counts (j : Fin 6) : Prop := j = 1 ∨ j = 2 ∨ j = 4

/-- What is added to a header from one frame to the next. -/
def countStep (j : Fin 6) : Nat :=
  match j with
  | 1 => 25
  | 2 => 2 ^ 48
  | 4 => 2 ^ 48
  | _ => 0

theorem countStep_pos_iff (j : Fin 6) : 0 < countStep j ↔ Counts j := by
  match j with
  | 0 => exact iff_of_false (by decide) (by unfold Counts; decide)
  | 1 => exact iff_of_true (by decide) (by unfold Counts; decide)
  | 2 => exact iff_of_true (by decide) (by unfold Counts; decide)
  | 3 => exact iff_of_false (by decide) (by unfold Counts; decide)
  | 4 => exact iff_of_true (by decide) (by unfold Counts; decide)
  | 5 => exact iff_of_false (by decide) (by unfold Counts; decide)

theorem countStep_le (j : Fin 6) : countStep j ≤ 2 ^ 48 := by
  unfold countStep
  split
  all_goals omega

theorem progress_eq (j : Fin 6) (hdr : BitVec 64) :
    progress j hdr = hdr + BitVec.ofNat 64 (countStep j) := by
  match j with
  | 0 => exact (BitVec.add_zero hdr).symm
  | 1 => rfl
  | 2 => rfl
  | 3 => exact (BitVec.add_zero hdr).symm
  | 4 => rfl
  | 5 => exact (BitVec.add_zero hdr).symm

theorem iterate_progress (j : Fin 6) (n : Nat) (hdr : BitVec 64) :
    (progress j)^[n] hdr = hdr + BitVec.ofNat 64 (n * countStep j) := by
  induction n with
  | zero => rw [Nat.zero_mul]; exact (BitVec.add_zero hdr).symm
  | succ n ih =>
    rw [Function.iterate_succ_apply', ih, progress_eq, BitVec.add_assoc, ← BitVec.ofNat_add,
      Nat.succ_mul]

/-- A count that lags shows. -/
theorem iterate_progress_eq_iff {j : Fin 6} {n : Nat} (hn : n < 1024) (hdr : BitVec 64) :
    (progress j)^[n] hdr = hdr ↔ (Counts j → n = 0) := by
  have hle := countStep_le j
  have hmul : n * countStep j < 2 ^ 64 := by
    calc n * countStep j ≤ 1023 * 2 ^ 48 := Nat.mul_le_mul (by omega) hle
      _ < 2 ^ 64 := by decide
  have hadd : hdr + BitVec.ofNat 64 (n * countStep j) = hdr ↔ n * countStep j = 0 := by
    rw [BitVec.add_right_eq_self]
    constructor
    · intro h
      have hnat := congrArg BitVec.toNat h
      rw [BitVec.toNat_ofNat, Nat.mod_eq_of_lt hmul] at hnat
      exact hnat
    · intro h
      rw [h]
  rw [iterate_progress, hadd, Nat.mul_eq_zero, ← countStep_pos_iff]
  constructor
  · rintro (h | h) hpos
    · exact h
    · omega
  · intro h
    rcases Nat.eq_zero_or_pos (countStep j) with hzero | hpos
    · exact .inr hzero
    · exact .inl (h hpos)

end Frames

/-! ## The record of a packet -/

/-- The group is that of a frame: it names the frame and its mask, and has the headers
that the mask names, and the others where they follow those of the frames before. -/
structure GroupOf (frames : Nat → StatusFrame) (g : Nat) (group : ExceptionGroup) : Prop where
  frame : group.frame.toNat = g
  mask : group.mask = (frameMask frames g).setWidth 16
  named : ∀ j, badHeaders (frames g).status j = true → group.headers j = (frames g).header j
  followed : ∀ j, badHeaders (frames g).status j = false → Follows frames j g →
    group.headers j = (frames g).header j

/-- The counts of a frame that are not named are not behind. -/
def CountsKept (frames : Nat → StatusFrame) (g : Nat) : Prop :=
  ∀ j, Counts j → badHeaders (frames g).status j = false → Follows frames j g →
    Unbroken frames j g

section Record

variable {frames : Nat → StatusFrame} {m : Nat}

theorem mem_exceptions {g : Nat} (h : g ∈ exceptions frames m) :
    1 ≤ g ∧ g ≤ m ∧ frameMask frames g ≠ 0 := by
  obtain ⟨hrange, hbad⟩ := List.mem_filter.mp (List.mem_of_mem_take h)
  obtain ⟨hpos, hlt⟩ := List.mem_range'_1.mp hrange
  exact ⟨hpos, by omega, of_decide_eq_true hbad⟩

theorem decodedHeaders_of_bad {g : Nat} (hpos : 1 ≤ g) (hbad : frameMask frames g ≠ 0) :
    decodedHeaders frames g = nextHeaders (badHeaders (frames g).status) (frames g).header
      (decodedHeaders frames (g - 1)) := by
  obtain ⟨g, rfl⟩ : ∃ k, g = k + 1 := ⟨g - 1, by omega⟩
  exact if_neg hbad

theorem groupOf_decodedGroup_iff {g : Nat} (hpos : 1 ≤ g) (hg : g < 1024)
    (hbad : frameMask frames g ≠ 0) :
    GroupOf frames g (decodedGroup frames g) ↔ CountsKept frames g := by
  have hsame {j : Fin 6} (h : Follows frames j g) :
      decodedHeaders frames g j = (frames g).header j ↔ (Counts j → Unbroken frames j g) := by
    rw [header_eq_iterate h, eq_comm,
      iterate_progress_eq_iff (Nat.lt_of_le_of_lt (lag_le j g) hg), lag_eq_zero_iff]
  constructor
  · intro hgroup j hcounts hnot hfollows
    exact (hsame hfollows).mp (hgroup.followed j hnot hfollows) hcounts
  · intro hkept
    refine ⟨?_, rfl, ?_, ?_⟩
    · change ((BitVec.ofNat 10 g).setWidth 16).toNat = g
      rw [BitVec.toNat_setWidth, BitVec.toNat_ofNat]
      omega
    · intro j hnamed
      change decodedHeaders frames g j = _
      rw [decodedHeaders_of_bad hpos hbad, nextHeaders, if_pos hnamed]
    · intro j hnot hfollows
      exact (hsame hfollows).mpr fun hcounts => hkept j hcounts hnot hfollows

/-- The words that are committed, with what follows them in the packet. -/
def committed (s : HeaderRecord) (status : BitVec 32) (rest : Nat → BitVec 64) : Nat → BitVec 64 :=
  withRest ((((s.pktCtx status).commit s.excsBuf [] 0 true true status).1).map AxisOut.data) rest

/-- The record of a packet gives the first frame's headers and one group for each exception, and
its exception words hold the exceptions. -/
structure RecordExact (frames : Nat → StatusFrame) (m : Nat) (s : HeaderRecord) (status : BitVec 32)
    (rest : Nat → BitVec 64) : Prop where
  headers : (headerDecode (committed s status rest)).headers = (frames 0).header
  groups : List.Forall₂ (GroupOf frames) (exceptions frames m)
    (headerDecode (committed s status rest)).groups
  words : StoredAt (excAt (committed s status rest) (1 + s.hdx)) 0
    ((exceptions frames m).map (exceptionCode frames))

/-- The word in which the decoder finds the last exceptions: one that was never stored, or the
one after the record. -/
def lastWord (excs : Nat → BitVec 64) (n : Nat) (next : BitVec 64) : BitVec 64 :=
  if n % 4 = 0 then next else excs (n / 4)

/-- What the decoder needs: the last word has the exceptions that are left over, and a 0 behind
them, and no count is behind. -/
structure RecordKept (excs : Nat → BitVec 64) (frames : Nat → StatusFrame) (m : Nat)
    (next : BitVec 64) : Prop where
  last : StoredAt (HeaderRecord.excLane (lastWord excs (exceptions frames m).length next)) 0
    (((exceptions frames m).drop (4 * ((exceptions frames m).length / 4))).map
      (exceptionCode frames) ++ [0])
  counts : ∀ g ∈ exceptions frames m, CountsKept frames g

variable {excs : Nat → BitVec 64} {s : HeaderRecord}

/-- Where the parts of a record are. -/
theorem Recorded.committed (h : Recorded frames excs m s) (status : BitVec 32)
    (rest : Nat → BitVec 64) :
    committed s status rest 0 = recHeader status s.hdx s.edx ∧
      StoredAt (committed s status rest) 1 (recordHeaders frames m) ∧
      (∀ i < (s.edx + 3) / 4, committed s status rest (1 + s.hdx + i) = s.excsBuf i) ∧
      committed s status rest (1 + s.hdx + (s.edx + 3) / 4) = rest 0 := by
  have hhdrs : (List.range s.hdx).map s.hdrsBuf = recordHeaders frames m := by
    rw [h.headers.hdx, List.range_eq_range']
    exact h.headers.stored.map_range'
  have hlen : (recordWords s status).length = 1 + s.hdx + (s.edx + 3) / 4 := by
    simp only [recordWords, List.length_append, List.length_singleton, List.length_map,
      List.length_range]
  have hbuf : Firmware.committed s status rest = withRest (recordWords s status) rest := by
    rw [Firmware.committed, commit_words]
  have hstored := storedAt_withRest (recordWords s status) rest
  rw [hbuf, ← hlen]
  rw [recordWords, hhdrs] at hstored
  obtain ⟨hfront, hexcs⟩ := StoredAt.append.mp hstored
  obtain ⟨hfirst, hrest⟩ := StoredAt.append.mp hfront
  rw [List.length_append, List.length_singleton, ← h.headers.hdx, Nat.zero_add] at hexcs
  refine ⟨?_, ?_, ?_, withRest_length _ _⟩
  · rw [recordWords, hhdrs]
    exact StoredAt.singleton.mp hfirst
  · rw [recordWords, hhdrs]
    exact hrest
  · intro i hi
    rw [recordWords, hhdrs]
    refine hexcs i _ ?_
    rw [List.getElem?_map, List.getElem?_range hi]
    rfl

/-- The exceptions of the full words are read as they are. -/
theorem Recorded.excAt_full (h : Recorded frames excs m s) (status : BitVec 32)
    (rest : Nat → BitVec 64) :
    StoredAt (excAt (Firmware.committed s status rest) (1 + s.hdx)) 0
      (((exceptions frames m).take (4 * ((exceptions frames m).length / 4))).map
        (exceptionCode frames)) := by
  obtain ⟨-, -, hwords, -⟩ := h.committed status rest
  have hedx : s.edx = (exceptions frames m).length := by rw [h.excs.edx, List.length_map]
  intro k c hc
  rw [List.map_take] at hc
  obtain ⟨hk, -⟩ := List.getElem?_eq_some_iff.mp hc
  rw [List.length_take, List.length_map] at hk
  rw [List.getElem?_take_of_lt (by omega)] at hc
  have hfull := h.excs.full k (by rw [List.length_map]; omega)
  rw [List.getD_eq_getElem?_getD, hc, Option.getD_some] at hfull
  rw [Nat.zero_add, excAt, hwords (k / 4) (by omega)]
  exact hfull

/-- Behind them the decoder reads the last word. -/
theorem Recorded.excAt_last (h : Recorded frames excs m s) (status : BitVec 32)
    (rest : Nat → BitVec 64) {q : Nat} (hq : q ≤ (exceptions frames m).length % 4) :
    excAt (Firmware.committed s status rest) (1 + s.hdx)
        (4 * ((exceptions frames m).length / 4) + q) =
      HeaderRecord.excLane (lastWord excs (exceptions frames m).length (rest 0)) q := by
  obtain ⟨-, -, hwords, hnext⟩ := h.committed status rest
  have hedx : s.edx = (exceptions frames m).length := by rw [h.excs.edx, List.length_map]
  have hdiv : (4 * ((exceptions frames m).length / 4) + q) / 4 =
      (exceptions frames m).length / 4 := by omega
  have hmod : (4 * ((exceptions frames m).length / 4) + q) % 4 = q := by omega
  rw [excAt, hdiv, hmod, lastWord]
  split
  · -- the word after the record
    have hcount : (s.edx + 3) / 4 = (exceptions frames m).length / 4 := by omega
    rw [← hcount, hnext]
    rfl
  · -- the word that was not stored
    rw [hwords _ (by omega), h.excs.kept _ (by rw [List.length_map])]
    rfl

/-- When the decoder reads the exceptions and stops. -/
theorem Recorded.codes_iff (h : Recorded frames excs m s) (status : BitVec 32)
    (rest : Nat → BitVec 64) :
    StoredAt (excAt (Firmware.committed s status rest) (1 + s.hdx)) 0
        ((exceptions frames m).map (exceptionCode frames) ++ [0]) ↔
      StoredAt (HeaderRecord.excLane (lastWord excs (exceptions frames m).length (rest 0))) 0
        (((exceptions frames m).drop (4 * ((exceptions frames m).length / 4))).map
          (exceptionCode frames) ++ [0]) := by
  have hsplit : (exceptions frames m).map (exceptionCode frames) ++ [0] =
      ((exceptions frames m).take (4 * ((exceptions frames m).length / 4))).map
        (exceptionCode frames) ++
      (((exceptions frames m).drop (4 * ((exceptions frames m).length / 4))).map
        (exceptionCode frames) ++ [0]) := by
    rw [← List.append_assoc, ← List.map_append, List.take_append_drop]
  have hfirst : (((exceptions frames m).take (4 * ((exceptions frames m).length / 4))).map
      (exceptionCode frames)).length = 4 * ((exceptions frames m).length / 4) := by
    rw [List.length_map, List.length_take]
    omega
  have hlast : (((exceptions frames m).drop (4 * ((exceptions frames m).length / 4))).map
      (exceptionCode frames) ++ [0]).length = (exceptions frames m).length % 4 + 1 := by
    rw [List.length_append, List.length_map, List.length_drop, List.length_singleton]
    omega
  rw [hsplit, StoredAt.append, hfirst, Nat.zero_add]
  constructor
  · rintro ⟨-, hstored⟩
    refine hstored.congr fun q hq => ?_
    rw [hlast] at hq
    rw [Nat.zero_add]
    exact (h.excAt_last status rest (Nat.le_of_lt_succ hq)).symm
  · intro hstored
    refine ⟨h.excAt_full status rest, hstored.congr fun q hq => ?_⟩
    rw [hlast] at hq
    rw [Nat.zero_add]
    exact h.excAt_last status rest (Nat.le_of_lt_succ hq)

/-- The groups that are decoded for the first frame's headers. -/
theorem Recorded.headerDecode (h : Recorded frames excs m s) (status : BitVec 32)
    (rest : Nat → BitVec 64) :
    (headerDecode (Firmware.committed s status rest)).headers = (frames 0).header ∧
      (headerDecode (Firmware.committed s status rest)).groups =
        exceptionLoop (Firmware.committed s status rest) (1 + s.hdx)
          ((exceptions frames m).length + 1) 0 8 (frames 0).header := by
  obtain ⟨hrec, hhdrs, -, -⟩ := h.committed status rest
  have hedx : s.edx = (exceptions frames m).length := by rw [h.excs.edx, List.length_map]
  have hle := length_exceptions_le frames m
  have hlen := length_recordHeaders_le frames m
  rw [← h.headers.hdx] at hlen
  unfold MaxExc at hle
  have hfirst := (StoredAt.append.mp hhdrs).1
  have hheader : (![Firmware.committed s status rest 1, Firmware.committed s status rest 2,
      Firmware.committed s status rest 4, Firmware.committed s status rest 5,
      Firmware.committed s status rest 6, Firmware.committed s status rest 7] : Headers) =
      (frames 0).header := by
    rw [hfirst 0 _ rfl, hfirst 1 _ rfl, hfirst 3 _ rfl, hfirst 4 _ rfl, hfirst 5 _ rfl,
      hfirst 6 _ rfl]
    rfl
  rw [headerDecode_eq hrec (by omega) (by omega), hheader, hedx]
  exact ⟨rfl, rfl⟩

theorem Recorded.groups_eq (h : Recorded frames excs m s) (status : BitVec 32)
    (rest : Nat → BitVec 64)
    (hcodes : StoredAt (excAt (Firmware.committed s status rest) (1 + s.hdx)) 0
      ((exceptions frames m).map (exceptionCode frames) ++ [0])) :
    (Firmware.headerDecode (Firmware.committed s status rest)).groups =
      (exceptions frames m).map (decodedGroup frames) := by
  obtain ⟨-, hhdrs, -, -⟩ := h.committed status rest
  rw [(h.headerDecode status rest).2]
  exact exceptionLoop_spec 0 m MaxExc rfl hcodes (StoredAt.append.mp hhdrs).2

theorem map_code_of_groups {es : List Nat} {groups : List ExceptionGroup}
    (h : List.Forall₂ (GroupOf frames) es groups) (hlt : ∀ g ∈ es, g < 1024) :
    groups.map ExceptionGroup.code = es.map (exceptionCode frames) := by
  induction h with
  | nil => rfl
  | cons hgroup _ ih =>
    rw [List.map_cons, List.map_cons, ih fun g hg => hlt g (List.mem_cons_of_mem _ hg),
      code_eq_exceptionCode (hlt _ List.mem_cons_self) hgroup.frame hgroup.mask]

/-- The decoder finds the exceptions, if the groups are those of the frames. -/
theorem Recorded.codes_of_groups (h : Recorded frames excs m s) (hm : m < 1024)
    (status : BitVec 32) (rest : Nat → BitVec 64)
    (hgroups : List.Forall₂ (GroupOf frames) (exceptions frames m)
      (Firmware.headerDecode (Firmware.committed s status rest)).groups) :
    StoredAt (excAt (Firmware.committed s status rest) (1 + s.hdx)) 0
      ((exceptions frames m).map (exceptionCode frames) ++ [0]) := by
  have hcodes := map_code_of_groups hgroups fun g hg => by
    have hle := (mem_exceptions hg).2.1
    omega
  rw [(h.headerDecode status rest).2, exceptionLoop_codes] at hcodes
  rw [← List.length_map (f := exceptionCode frames)] at hcodes
  obtain ⟨hstored, hstop⟩ := storedAt_of_takeWhile hcodes
  refine StoredAt.append.mpr ⟨hstored, StoredAt.singleton.mpr ?_⟩
  simpa using hstop

/-- The record is exact where the last word and the counts are kept. -/
theorem Recorded.exact_iff (h : Recorded frames excs m s) (hm : m < 1024) (status : BitVec 32)
    (rest : Nat → BitVec 64) :
    RecordExact frames m s status rest ↔ RecordKept excs frames m (rest 0) := by
  have hgroup : ∀ g ∈ exceptions frames m,
      (GroupOf frames g (decodedGroup frames g) ↔ CountsKept frames g) := by
    intro g hg
    obtain ⟨hpos, hle, hbad⟩ := mem_exceptions hg
    exact groupOf_decodedGroup_iff hpos (by omega) hbad
  constructor
  · intro hexact
    have hcodes := h.codes_of_groups hm status rest hexact.groups
    refine ⟨(h.codes_iff status rest).mp hcodes, fun g hg => (hgroup g hg).mp ?_⟩
    have hgroups := hexact.groups
    rw [h.groups_eq status rest hcodes, List.forall₂_map_right_iff,
      List.forall₂_same] at hgroups
    exact hgroups g hg
  · intro hkept
    have hcodes := (h.codes_iff status rest).mpr hkept.last
    refine ⟨(h.headerDecode status rest).1, ?_, (StoredAt.append.mp hcodes).1⟩
    rw [h.groups_eq status rest hcodes, List.forall₂_map_right_iff, List.forall₂_same]
    exact fun g hg => (hgroup g hg).mpr (hkept.counts g hg)

end Record

end ProtoDune.Firmware
