import Mathlib.Logic.Function.Basic
import ProtoDune.Firmware.WibFrame
import ProtoDune.Firmware.WibFrameWrite

/-!
# `WibFrame-Read.h`: the frame checker

`read_frame` takes 30 words from the input stream and sets a status bit for each
field that is not as expected. What it expects of the next frame it keeps in a
static context: the timestamp, the convert counts and the COLDDATA headers.

Main results:

* `readFrame_spec` — what one call does with a frame that starts and ends where
  it should.
-/

namespace ProtoDune.Firmware

namespace ReadStatus

def ErrWibComma : Nat := 0x00
def ErrWibVersion : Nat := 0x01
def ErrWibId : Nat := 0x02
def ErrWibRsvd : Nat := 0x03
def ErrWibErrors : Nat := 0x04
def ErrWibTimestamp : Nat := 0x05
def ErrCd0StrErr1 : Nat := 0x08
def ErrCd0StrErr2 : Nat := 0x09
def ErrCd0Rsvd0 : Nat := 0x0a
def ErrCd0CvtCnt : Nat := 0x0c
def ErrCd0ErrReg : Nat := 0x0d
def ErrCd0Rsvd1 : Nat := 0x0e
def ErrCd0Hdrs : Nat := 0x0f
def ErrCd1StrErr1 : Nat := 0x10
def ErrCd1StrErr2 : Nat := 0x11
def ErrCd1Rsvd0 : Nat := 0x12
def ErrCd1ErrReg : Nat := 0x15
def ErrCd1Rsvd1 : Nat := 0x16
def ErrSofM : Nat := 0x1a
def ErrSofU : Nat := 0x1b
def ErrEofM : Nat := 0x1c
def ErrEofU : Nat := 0x1d
def ErrEofE : Nat := 0x1e

/-- `status.set (bit)`. -/
def set (status : BitVec 32) (bit : Nat) : BitVec 32 := status ||| BitVec.twoPow 32 bit

/-- `if (cond) status.set (bit)`. -/
def setIf (cond : Bool) (status : BitVec 32) (bit : Nat) : BitVec 32 :=
  if cond then set status bit else status

/-- `update` without an offset: the bit takes the value. -/
def update (status : BitVec 32) (val : Bool) (bit : Nat) : BitVec 32 :=
  if val then set status bit else status &&& ~~~BitVec.twoPow 32 bit

/-- `update` with an offset. -/
def updateOff (status : BitVec 32) (val : Bool) (bit off : Nat) : BitVec 32 :=
  status ||| BitVec.ofNat 32 val.toNat <<< (bit + off)

/-- `ErrOnFirst`, which is put together from the numbers of the bits. -/
def ErrOnFirst : Nat :=
  ErrWibComma ||| ErrWibVersion ||| ErrWibRsvd ||| ErrWibErrors |||
  ErrCd0StrErr1 ||| ErrCd0StrErr2 ||| ErrCd0Rsvd0 |||
  ErrCd1StrErr1 ||| ErrCd1StrErr2 ||| ErrCd1Rsvd0 |||
  ErrSofM ||| ErrSofU ||| ErrEofM ||| ErrEofU ||| ErrEofE

def errsOnFirst (status : BitVec 32) : BitVec 32 := status &&& BitVec.ofNat 32 ErrOnFirst

end ReadStatus

open ReadStatus

/-- `AxisUserFirst::Sof` of a word. -/
def AxisIn.sof (w : AxisIn) : Bool := w.user.getLsbD 1

/-- `AxisUserFirst::RunEnable`. -/
def AxisIn.runEnable (w : AxisIn) : Bool := w.user.getLsbD 3

/-- `AxisUserLast::EofErr`. -/
def AxisIn.eofErr (w : AxisIn) : Bool := w.user.getLsbD 0

/-- `AxisUserLast::Flush`. -/
def AxisIn.flush (w : AxisIn) : Bool := w.user.getLsbD 2

/-- `ReadContext`, the fields that are used. -/
structure ReadContext where
  first : Bool
  wibId : BitVec 11
  hdrs : Nat → BitVec 64
  cvtCnt0 : BitVec 16
  cvtCnt1 : BitVec 16

/-- A frame being read: its words so far, the status and the rest of the stream. -/
structure Reading where
  status : BitVec 32
  d : Nat → BitVec 64
  axis : List AxisIn

/-- `axis.read ()`; an empty stream blocks. -/
def Reading.read (s : Reading) : Option (AxisIn × Reading) :=
  match s.axis with
  | [] => none
  | w :: axis => some (w, { s with axis })

/-- The word `d[i]`. -/
def Reading.store (s : Reading) (i : Nat) (w : BitVec 64) : Reading :=
  { s with d := Function.update s.d i w }

def evalWib0 (status : BitVec 32) (hdr : BitVec 64) (wibId : BitVec 11) : BitVec 32 :=
  let status := update status (WibFrame.commaChar hdr != WibFrame.K28_5) ErrWibComma
  let status := update status (WibFrame.version hdr != WibFrame.VersionNumber) ErrWibVersion
  let status := update status (WibFrame.id hdr != wibId) ErrWibId
  let status := update status false ErrWibRsvd
  update status (WibFrame.wibErrors hdr != 0) ErrWibErrors

def evalWib1 (status : BitVec 32) (hdr prv : BitVec 64) : BitVec 32 :=
  update status (hdr != prv) ErrWibTimestamp

def evalColddata0 (status : BitVec 32) (hdr : BitVec 64) (gotCvtCnt expCvtCnt : BitVec 16)
    (off : Nat) : BitVec 32 :=
  let status := updateOff status (WibFrame.ColdData.streamErr1 hdr != 0) ErrCd0StrErr1 off
  let status := updateOff status (WibFrame.ColdData.streamErr2 hdr != 0) ErrCd0StrErr2 off
  let status := updateOff status (WibFrame.ColdData.rsvd0 hdr != 0) ErrCd0Rsvd0 off
  updateOff status (gotCvtCnt != expCvtCnt) ErrCd0CvtCnt off

def evalColddata1 (status : BitVec 32) (hdr prv : BitVec 64) (off : Nat) : BitVec 32 :=
  let status := updateOff status (WibFrame.ColdData.errReg hdr != 0) ErrCd0ErrReg off
  let status := updateOff status (WibFrame.ColdData.rsvd1 hdr != 0) ErrCd0Rsvd1 off
  updateOff status (WibFrame.ColdData.hdrs hdr != WibFrame.ColdData.hdrs prv) ErrCd0Hdrs off

/-- The checks that a word is neither the first nor the last of a frame. -/
def checkInner (status : BitVec 32) (w : AxisIn) : BitVec 32 :=
  setIf w.last (setIf w.sof status ErrSofU) ErrEofU

def readWib0 (s : Reading) (ctx : ReadContext) : Option (Reading × ReadContext) := do
  let (w, s) ← s.read
  let status := setIf (!w.sof) s.status ErrSofM
  let status := setIf w.last status ErrEofU
  let status := setIf (!w.runEnable) status RunDisable
  let ctx := if ctx.first then { ctx with first := false, wibId := WibFrame.id w.data } else ctx
  let status := evalWib0 status w.data ctx.wibId
  some ({ s with status }.store 0 w.data,
    { ctx with hdrs := Function.update ctx.hdrs 0 w.data })

def readWib1 (s : Reading) (ctx : ReadContext) : Option (Reading × ReadContext) := do
  let (w, s) ← s.read
  let status := evalWib1 (checkInner s.status w) w.data (ctx.hdrs 1)
  some ({ s with status }.store 1 w.data,
    { ctx with hdrs := Function.update ctx.hdrs 1 (w.data + 25) })

/-- `read_colddata_hdrs`, with the pointers `d + base` and `hdrs + hbase`. -/
def readColddataHdrs (s : Reading) (base : Nat) (hdrs : Nat → BitVec 64) (hbase : Nat)
    (expCvtCnt : BitVec 16) (off : Nat) :
    Option (Reading × (Nat → BitVec 64) × BitVec 16) := do
  let (w, s) ← s.read
  let gotCvtCnt := WibFrame.ColdData.cvtCnt w.data
  let status := evalColddata0 (checkInner s.status w) w.data gotCvtCnt expCvtCnt off
  let s := { s with status }.store base w.data
  let hdrs := Function.update hdrs hbase w.data
  let (w, s) ← s.read
  let status := evalColddata1 (checkInner s.status w) w.data (hdrs (hbase + 1)) off
  some ({ s with status }.store (base + 1) w.data,
    Function.update hdrs (hbase + 1) w.data, gotCvtCnt + 1)

/-- The loop of `read_colddata_data`, with `k` words to go from `idx` on. -/
def readColddataLoop (checkLast : Bool) (base : Nat) : Nat → Nat → Reading → Option Reading
  | 0, _, s => some s
  | k + 1, idx, s => do
      let (w, s) ← s.read
      let s := s.store (base + idx) w.data
      let status := setIf w.sof s.status ErrSofU
      if idx ≠ 11 ∨ checkLast = false then
        readColddataLoop checkLast base k (idx + 1) { s with status := setIf w.last status ErrEofU }
      else
        let status := setIf w.flush status Flush
        let status := setIf (!w.last) status ErrEofM
        some { s with status := setIf w.eofErr status ErrEofE }

def readColddataData (s : Reading) (base : Nat) (checkLast : Bool) : Option Reading :=
  readColddataLoop checkLast base 12 0 s

def readColddata (s : Reading) (base : Nat) (hdrs : Nat → BitVec 64) (hbase : Nat)
    (cvtCnt : BitVec 16) (off : Nat) : Option (Reading × (Nat → BitVec 64) × BitVec 16) := do
  let (s, hdrs, cvtCnt) ← readColddataHdrs s base hdrs hbase cvtCnt off
  let s ← readColddataData s (base + 2) (off == 8)
  some (s, hdrs, cvtCnt)

/-- A frame that was read: `m_status` is a copy of `m_wstatus`. -/
structure StatusFrame extends ReadFrame where
  status : BitVec 32

/-- `read_frame`; `d` is what the frame's buffer holds before. -/
def readFrame (ctx : ReadContext) (d : Nat → BitVec 64) (axis : List AxisIn) :
    Option (StatusFrame × ReadContext × List AxisIn) := do
  let (s, ctx) ← readWib0 ⟨0, d, axis⟩ ctx
  let (s, ctx) ← readWib1 s ctx
  let (s, hdrs, cvtCnt0) ← readColddata s 2 ctx.hdrs 2 ctx.cvtCnt0 0
  let (s, hdrs, cvtCnt1) ← readColddata s 16 hdrs 4 ctx.cvtCnt1 8
  some (⟨⟨s.d, s.status⟩, s.status⟩, { ctx with hdrs, cvtCnt0, cvtCnt1 }, s.axis)

/-! ## One call of the checker -/

/-- The first word starts the frame and the last one ends it, without an error. -/
structure Framed (src : Nat → AxisIn) : Prop where
  sof : (src 0).sof = true
  inner : ∀ i, 0 < i → i < 30 → (src i).sof = false
  last : ∀ i < 29, (src i).last = false
  eof : (src 29).last = true
  good : (src 29).eofErr = false

/-- The words `src` are being read: `n` of them have been stored. -/
structure Progress (src : Nat → AxisIn) (rest : List AxisIn) (n : Nat) (st : BitVec 32)
    (s : Reading) : Prop where
  words : ∀ i < n, s.d i = (src i).data
  axis : s.axis = ((List.range 30).drop n).map src ++ rest
  status : s.status = st

variable {src : Nat → AxisIn} {rest : List AxisIn} {n : Nat} {st : BitVec 32} {s : Reading}

theorem Progress.read (h : Progress src rest n st s) (hn : n < 30) :
    ∃ s', s.read = some (src n, s') ∧ s'.status = st ∧
      ∀ st', Progress src rest (n + 1) st' ({ s' with status := st' }.store n (src n).data) := by
  have hdrop : (List.range 30).drop n = n :: (List.range 30).drop (n + 1) := by
    rw [List.drop_eq_getElem_cons (by simpa using hn), List.getElem_range]
  have haxis : s.axis = src n :: (((List.range 30).drop (n + 1)).map src ++ rest) := by
    rw [h.axis, hdrop]
    rfl
  refine ⟨{ s with axis := ((List.range 30).drop (n + 1)).map src ++ rest },
    by simp only [Reading.read, haxis], h.status, ?_⟩
  intro st'
  refine ⟨?_, rfl, rfl⟩
  intro i hi
  by_cases hin : i = n
  · subst hin
    exact Function.update_self ..
  · exact (Function.update_of_ne hin ..).trans (h.words i (by omega))

/-- The context after the first word. -/
def ReadContext.afterWib0 (ctx : ReadContext) (hdr : BitVec 64) : ReadContext :=
  { ctx with
    first := false, wibId := if ctx.first then WibFrame.id hdr else ctx.wibId
    hdrs := Function.update ctx.hdrs 0 hdr }

theorem readWib0_spec (hsrc : Framed src) (h : Progress src rest 0 0 s) (ctx : ReadContext) :
    ∃ s', readWib0 s ctx = some (s', ctx.afterWib0 (src 0).data) ∧
      Progress src rest 1 (evalWib0 (setIf (!(src 0).runEnable) 0 RunDisable) (src 0).data
        (ctx.afterWib0 (src 0).data).wibId) s' := by
  obtain ⟨s', hread, hst, hnext⟩ := h.read (by omega)
  refine ⟨_, ?_, hnext _⟩
  rw [readWib0, hread]
  cases hfirst : ctx.first <;>
    simp [hst, hsrc.sof, hsrc.last 0 (by omega), setIf, ReadContext.afterWib0, hfirst]

theorem checkInner_framed (hsrc : Framed src) (hpos : 0 < n) (hn : n < 29) :
    checkInner st (src n) = st := by
  rw [checkInner, hsrc.inner n hpos (by omega), hsrc.last n hn]
  rfl

theorem readWib1_spec (hsrc : Framed src) (h : Progress src rest 1 st s) (ctx : ReadContext) :
    ∃ s', readWib1 s ctx =
        some (s', { ctx with hdrs := Function.update ctx.hdrs 1 ((src 1).data + 25) }) ∧
      Progress src rest 2 (evalWib1 st (src 1).data (ctx.hdrs 1)) s' := by
  obtain ⟨s', hread, hst, hnext⟩ := h.read (by omega)
  refine ⟨_, ?_, hnext _⟩
  rw [readWib1, hread]
  simp [hst, checkInner_framed hsrc (Nat.zero_lt_one) (by omega)]

/-- The status after the headers of a COLDDATA stream. -/
def colddataStatus (st : BitVec 32) (hdr0 hdr1 prv : BitVec 64) (cvtCnt : BitVec 16) (off : Nat) :
    BitVec 32 :=
  evalColddata1 (evalColddata0 st hdr0 (WibFrame.ColdData.cvtCnt hdr0) cvtCnt off) hdr1 prv off

theorem readColddataHdrs_spec (hsrc : Framed src) (hpos : 0 < n) (hn : n < 28)
    (h : Progress src rest n st s) (hdrs : Nat → BitVec 64) (hbase : Nat) (cvtCnt : BitVec 16)
    (off : Nat) :
    ∃ s', readColddataHdrs s n hdrs hbase cvtCnt off =
        some (s', Function.update (Function.update hdrs hbase (src n).data) (hbase + 1)
          (src (n + 1)).data, WibFrame.ColdData.cvtCnt (src n).data + 1) ∧
      Progress src rest (n + 2)
        (colddataStatus st (src n).data (src (n + 1)).data (hdrs (hbase + 1)) cvtCnt off) s' := by
  obtain ⟨s₁, hread₁, hst₁, hnext₁⟩ := h.read (by omega)
  obtain ⟨s₂, hread₂, hst₂, hnext₂⟩ := (hnext₁ (evalColddata0 st (src n).data
    (WibFrame.ColdData.cvtCnt (src n).data) cvtCnt off)).read (by omega)
  refine ⟨_, ?_, hnext₂ _⟩
  rw [readColddataHdrs, hread₁]
  simp only [Option.bind_eq_bind, Option.bind_some]
  rw [hst₁, checkInner_framed hsrc hpos (by omega), hread₂]
  simp [hst₂, checkInner_framed hsrc (Nat.succ_pos n) (by omega : n + 1 < 29), colddataStatus]

theorem readColddataLoop_inner (hsrc : Framed src) {base : Nat} (k idx : Nat) (checkLast : Bool)
    (hpos : 0 < base) (hidx : idx + k ≤ 11 ∨ checkLast = false) (hn : base + idx + k ≤ 29)
    (h : Progress src rest (base + idx) st s) (l : Nat) :
    ∃ s', readColddataLoop checkLast base (k + l) idx s =
        readColddataLoop checkLast base l (idx + k) s' ∧
      Progress src rest (base + (idx + k)) st s' := by
  induction k generalizing idx s with
  | zero => exact ⟨s, by rw [Nat.zero_add, Nat.add_zero], h⟩
  | succ k ih =>
      obtain ⟨s₁, hread, hst, hnext⟩ := h.read (by omega)
      obtain ⟨s₂, hloop, h₂⟩ := ih (idx + 1) (hidx.imp_left fun h => by omega) (by omega)
        (hnext st)
      refine ⟨s₂, ?_, by rwa [Nat.add_assoc idx, Nat.add_comm 1] at h₂⟩
      rw [Nat.succ_add, readColddataLoop, hread]
      have hcond : idx ≠ 11 ∨ checkLast = false := by
        rcases hidx with h | h
        · exact .inl (by omega)
        · exact .inr h
      have hsof : (src (base + idx)).sof = false := hsrc.inner _ (by omega) (by omega)
      have hlast : (src (base + idx)).last = false := hsrc.last _ (by omega)
      simp only [Option.bind_eq_bind, Option.bind_some, if_pos hcond, Reading.store, hst, hsof,
        hlast, setIf] at hloop ⊢
      rw [Nat.add_comm k 1, ← Nat.add_assoc] 
      exact hloop

theorem readColddata_first (hsrc : Framed src) (h : Progress src rest 2 st s)
    (hdrs : Nat → BitVec 64) (cvtCnt : BitVec 16) :
    ∃ s', readColddata s 2 hdrs 2 cvtCnt 0 =
        some (s', Function.update (Function.update hdrs 2 (src 2).data) 3 (src 3).data,
          WibFrame.ColdData.cvtCnt (src 2).data + 1) ∧
      Progress src rest 16
        (colddataStatus st (src 2).data (src 3).data (hdrs 3) cvtCnt 0) s' := by
  obtain ⟨s₁, hhdrs, h₁⟩ := readColddataHdrs_spec hsrc (by omega) (by omega) h hdrs 2 cvtCnt 0
  obtain ⟨s₂, hloop, h₂⟩ := readColddataLoop_inner hsrc 12 0 false (by omega)
    (.inr rfl) (by omega) h₁ 0
  have hdata : readColddataData s₁ 4 false = some s₂ := hloop
  refine ⟨s₂, ?_, h₂⟩
  rw [readColddata, hhdrs]
  change (readColddataData s₁ 4 false >>= _) = _
  rw [hdata]
  rfl

/-- The last word of a frame. -/
theorem readColddataLoop_last (hsrc : Framed src) (h : Progress src rest 29 st s) :
    ∃ s', readColddataLoop true 18 1 11 s = some s' ∧
      Progress src rest 30 (setIf (src 29).flush st Flush) s' := by
  obtain ⟨s', hread, hst, hnext⟩ := h.read (by omega)
  have hsof : (src 29).sof = false := hsrc.inner 29 (by omega) (by omega)
  refine ⟨_, ?_, hnext _⟩
  rw [readColddataLoop, hread]
  simp [Reading.store, hst, hsof, hsrc.eof, hsrc.good, setIf]

theorem readColddata_second (hsrc : Framed src) (h : Progress src rest 16 st s)
    (hdrs : Nat → BitVec 64) (cvtCnt : BitVec 16) :
    ∃ s', readColddata s 16 hdrs 4 cvtCnt 8 =
        some (s', Function.update (Function.update hdrs 4 (src 16).data) 5 (src 17).data,
          WibFrame.ColdData.cvtCnt (src 16).data + 1) ∧
      Progress src rest 30 (setIf (src 29).flush
        (colddataStatus st (src 16).data (src 17).data (hdrs 5) cvtCnt 8) Flush) s' := by
  obtain ⟨s₁, hhdrs, h₁⟩ := readColddataHdrs_spec hsrc (by omega) (by omega) h hdrs 4 cvtCnt 8
  obtain ⟨s₂, hloop, h₂⟩ := readColddataLoop_inner hsrc 11 0 true (by omega)
    (.inl (by omega)) (by omega) h₁ 1
  obtain ⟨s₃, hlast, h₃⟩ := readColddataLoop_last hsrc h₂
  have hdata : readColddataData s₁ 18 true = some s₃ := hloop.trans hlast
  refine ⟨s₃, ?_, h₃⟩
  rw [readColddata, hhdrs]
  change (readColddataData s₁ 18 true >>= _) = _
  rw [hdata]
  rfl

/-- The context after a frame. -/
def ReadContext.afterFrame (ctx : ReadContext) (d : Nat → BitVec 64) : ReadContext where
  first := false
  wibId := if ctx.first then WibFrame.id (d 0) else ctx.wibId
  hdrs := fun i => match i with
    | 0 => d 0
    | 1 => d 1 + 25
    | 2 => d 2
    | 3 => d 3
    | 4 => d 16
    | 5 => d 17
    | i => ctx.hdrs i
  cvtCnt0 := WibFrame.ColdData.cvtCnt (d 2) + 1
  cvtCnt1 := WibFrame.ColdData.cvtCnt (d 16) + 1

/-- The headers of the context are stored one by one. -/
theorem ReadContext.afterFrame_updates (ctx : ReadContext) (src : Nat → AxisIn) :
    Function.update (Function.update (Function.update (Function.update
      (Function.update (Function.update ctx.hdrs 0 (src 0).data) 1 ((src 1).data + 25))
        2 (src 2).data) 3 (src 3).data) 4 (src 16).data) 5 (src 17).data =
      (ctx.afterFrame fun i => (src i).data).hdrs := by
  funext i
  match i with
  | 0 => rfl
  | 1 => rfl
  | 2 => rfl
  | 3 => rfl
  | 4 => rfl
  | 5 => rfl
  | i + 6 => simp [ReadContext.afterFrame]

theorem ReadContext.afterFrame_hdrs (ctx : ReadContext) (d : Nat → BitVec 64) :
    (ctx.afterFrame d).hdrs 1 = d 1 + 25 ∧ (ctx.afterFrame d).hdrs 3 = d 3 ∧
      (ctx.afterFrame d).hdrs 5 = d 17 :=
  ⟨rfl, rfl, rfl⟩

/-- The status of a frame, as far as its first word and its header words decide it. -/
def headerStatus (ctx : ReadContext) (runEnable : Bool) (d : Nat → BitVec 64) : BitVec 32 :=
  let st := evalWib0 (setIf (!runEnable) 0 RunDisable) (d 0)
    (if ctx.first then WibFrame.id (d 0) else ctx.wibId)
  let st := evalWib1 st (d 1) (ctx.hdrs 1)
  let st := colddataStatus st (d 2) (d 3) (ctx.hdrs 3) ctx.cvtCnt0 0
  colddataStatus st (d 16) (d 17) (ctx.hdrs 5) ctx.cvtCnt1 8

/-- One call of the checker takes a frame from the stream. -/
theorem readFrame_spec (hsrc : Framed src) (ctx : ReadContext) (d : Nat → BitVec 64)
    (rest : List AxisIn) :
    ∃ d', readFrame ctx d ((List.range 30).map src ++ rest) =
        some (⟨⟨d', setIf (src 29).flush (headerStatus ctx (src 0).runEnable fun i => (src i).data)
            Flush⟩,
          setIf (src 29).flush (headerStatus ctx (src 0).runEnable fun i => (src i).data) Flush⟩,
          ctx.afterFrame fun i => (src i).data, rest) ∧
      ∀ i < 30, d' i = (src i).data := by
  have h₀ : Progress src rest 0 0 ⟨0, d, (List.range 30).map src ++ rest⟩ :=
    ⟨fun i hi => absurd hi (Nat.not_lt_zero i), rfl, rfl⟩
  obtain ⟨s₁, hread₁, h₁⟩ := readWib0_spec hsrc h₀ ctx
  obtain ⟨s₂, hread₂, h₂⟩ := readWib1_spec hsrc h₁ (ctx.afterWib0 (src 0).data)
  obtain ⟨s₃, hread₃, h₃⟩ := readColddata_first hsrc h₂
    (Function.update (ctx.afterWib0 (src 0).data).hdrs 1 ((src 1).data + 25)) ctx.cvtCnt0
  obtain ⟨s₄, hread₄, h₄⟩ := readColddata_second hsrc h₃
    (Function.update (Function.update (Function.update (ctx.afterWib0 (src 0).data).hdrs 1
      ((src 1).data + 25)) 2 (src 2).data) 3 (src 3).data) ctx.cvtCnt1
  have haxis : s₄.axis = rest := h₄.axis
  refine ⟨s₄.d, ?_, h₄.words⟩
  rw [readFrame, hread₁]
  change (readWib1 s₁ (ctx.afterWib0 (src 0).data) >>= _) = _
  rw [hread₂]
  change (readColddata s₂ 2 (Function.update (ctx.afterWib0 (src 0).data).hdrs 1
    ((src 1).data + 25)) 2 ctx.cvtCnt0 0 >>= _) = _
  rw [hread₃]
  change (readColddata s₃ 16 _ 4 ctx.cvtCnt1 8 >>= _) = _
  rw [hread₄]
  simp only [Option.bind_eq_bind, Option.bind_some, h₄.status, haxis, ReadContext.afterWib0,
    ReadContext.afterFrame_updates]
  rfl

end ProtoDune.Firmware
