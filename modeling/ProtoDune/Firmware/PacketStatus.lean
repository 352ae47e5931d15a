import ProtoDune.Firmware.WibFrameProcess

/-!
# `DuneDataCompressionCore.cpp`: acquiring a packet

`acquire_packet` reads and processes 1024 frames. The status of the packet collects
those of its frames; of the first one it keeps the bits of `ErrOnFirst`, which is
put together from the numbers of the bits, not from the bits.

Main results:

* `readFrame_checked` — the status of a frame is that of the checks of its words.
* `acquirePacket_spec` — the status of a packet.
* `status_exact_iff` — when it is that of the errors of its frames.
-/

namespace ProtoDune.Firmware

open ReadStatus

/-! ## The frames of a packet -/

/-- What is carried from frame to frame. -/
structure Acquisition where
  ctx : ReadContext
  hdrLcl : HeaderContextLcl
  pktCtx : PacketContext
  channels : ChannelState

/-- What the local arrays hold before a frame. -/
structure FrameBuffers where
  d : Nat → BitVec 64
  adcs8 : Nat → BitVec 96

/-- `acquire_frame`. -/
def acquireFrame (buffers : FrameBuffers) (s : Acquisition) (iframe : Nat) (axis : List AxisIn) :
    Option (Acquisition × List AxisIn) := do
  let (frame, ctx, axis) ← readFrame s.ctx buffers.d axis
  let (hdrLcl, pktCtx, channels) :=
    processFrame frame iframe buffers.adcs8 s.hdrLcl s.pktCtx s.channels
  some (⟨ctx, hdrLcl, pktCtx, channels⟩, axis)

/-- `ACQUIRE_LOOP`, with `k` iterations to go. -/
def acquireLoop (buffers : Nat → FrameBuffers) : Nat → Nat → Acquisition → List AxisIn →
    Option (Acquisition × List AxisIn)
  | 0, _, s, axis => some (s, axis)
  | k + 1, idx, s, axis => do
      let (s, axis) ← acquireFrame (buffers idx) s idx axis
      acquireLoop buffers k (idx + 1) s axis

/-- `acquire_packet`. -/
def acquirePacket (buffers : Nat → FrameBuffers) (s : Acquisition) (axis : List AxisIn) :
    Option (Acquisition × List AxisIn) :=
  acquireLoop buffers 1024 0 s axis

/-! ## The checks of a frame -/

/-- The checks of the first COLDDATA header. -/
def colddata0Checks (hdr : BitVec 64) (expCvtCnt : BitVec 16) (off : Nat) : List (Nat × Bool) :=
  [(ErrCd0StrErr1 + off, WibFrame.ColdData.streamErr1 hdr != 0),
    (ErrCd0StrErr2 + off, WibFrame.ColdData.streamErr2 hdr != 0),
    (ErrCd0Rsvd0 + off, WibFrame.ColdData.rsvd0 hdr != 0),
    (ErrCd0CvtCnt + off, WibFrame.ColdData.cvtCnt hdr != expCvtCnt)]

/-- The checks of the second COLDDATA header. -/
def colddata1Checks (hdr prv : BitVec 64) (off : Nat) : List (Nat × Bool) :=
  [(ErrCd0ErrReg + off, WibFrame.ColdData.errReg hdr != 0),
    (ErrCd0Rsvd1 + off, WibFrame.ColdData.rsvd1 hdr != 0),
    (ErrCd0Hdrs + off, WibFrame.ColdData.hdrs hdr != WibFrame.ColdData.hdrs prv)]

/-- The checks of a word that is a header, against what is expected. -/
def headerChecks (ctx : ReadContext) (hdr : BitVec 64) : Nat → List (Nat × Bool)
  | 0 => [(ErrWibComma, WibFrame.commaChar hdr != WibFrame.K28_5),
      (ErrWibVersion, WibFrame.version hdr != WibFrame.VersionNumber),
      (ErrWibId, !ctx.first && WibFrame.id hdr != ctx.wibId),
      (ErrWibErrors, WibFrame.wibErrors hdr != 0)]
  | 1 => [(ErrWibTimestamp, hdr != ctx.hdrs 1)]
  | 2 => colddata0Checks hdr ctx.cvtCnt0 0
  | 3 => colddata1Checks hdr (ctx.hdrs 3) 0
  | 16 => colddata0Checks hdr ctx.cvtCnt1 8
  | 17 => colddata1Checks hdr (ctx.hdrs 5) 8
  | _ => []

/-- The checks of the framing of a word, with the bits of the state. -/
def framingChecks (w : AxisIn) (i : Nat) : List (Nat × Bool) :=
  if i = 0 then [(ErrSofM, !w.sof), (ErrEofU, w.last), (RunDisable, !w.runEnable)]
  else if i = 29 then
    [(ErrSofU, w.sof), (Flush, w.flush), (ErrEofM, !w.last), (ErrEofE, w.eofErr)]
  else [(ErrSofU, w.sof), (ErrEofU, w.last)]

/-- The checks of the first `n` words of a frame. -/
def checks (ctx : ReadContext) (src : Nat → AxisIn) (n : Nat) : List (Nat × Bool) :=
  (List.range n).flatMap fun i => framingChecks (src i) i ++ headerChecks ctx (src i).data i

/-- A frame raises a bit of its status. -/
def Raises (ctx : ReadContext) (src : Nat → AxisIn) (b : Nat) : Prop := (b, true) ∈ checks ctx src 30

/-- The bits of a status are those of the checks that fail. -/
def HasBits (st : BitVec 32) (l : List (Nat × Bool)) : Prop :=
  ∀ b, st.getLsbD b = true ↔ (b, true) ∈ l

namespace HasBits

variable {st : BitVec 32} {l : List (Nat × Bool)}

theorem zero : HasBits 0 [] := fun b => by simp

theorem set (h : HasBits st l) {bit : Nat} (hbit : bit < 32) :
    HasBits (ReadStatus.set st bit) (l ++ [(bit, true)]) := by
  intro b
  rw [ReadStatus.set, BitVec.getLsbD_or, Bool.or_eq_true, h b, List.mem_append, List.mem_singleton]
  refine or_congr_right ?_
  rw [BitVec.getLsbD_twoPow]
  simp only [Bool.and_eq_true, decide_eq_true_eq, Prod.mk.injEq, and_true]
  exact ⟨fun hb => hb.2.symm, fun hb => ⟨hbit, hb.symm⟩⟩

theorem append_false (h : HasBits st l) (bit : Nat) : HasBits st (l ++ [(bit, false)]) := by
  intro b
  rw [h b, List.mem_append, List.mem_singleton]
  simp

theorem setIf (h : HasBits st l) (bit : Nat) (hbit : bit < 32) (c : Bool) :
    HasBits (ReadStatus.setIf c st bit) (l ++ [(bit, c)]) := by
  cases c with
  | false => exact h.append_false bit
  | true => exact h.set hbit

/-- A bit that is not raised before takes the value. -/
theorem update (h : HasBits st l) (bit : Nat) (hbit : bit < 32) (hnew : (bit, true) ∉ l)
    (c : Bool) :
    HasBits (ReadStatus.update st c bit) (l ++ [(bit, c)]) := by
  cases c with
  | false =>
    have hclear : st &&& ~~~BitVec.twoPow 32 bit = st := by
      refine BitVec.eq_of_getLsbD_eq fun b hb => ?_
      rw [BitVec.getLsbD_and, BitVec.getLsbD_not, BitVec.getLsbD_twoPow]
      by_cases hsame : bit = b
      · subst hsame
        have hoff : st.getLsbD bit = false := Bool.eq_false_iff.mpr fun hon => hnew ((h bit).mp hon)
        rw [hoff, Bool.false_and]
      · simp [hsame, hb]
    have hsame : ReadStatus.update st false bit = st := hclear
    rw [hsame]
    exact h.append_false bit
  | true => exact h.set hbit

theorem updateOff (h : HasBits st l) {bit off : Nat} (hbit : bit + off < 32) (c : Bool) :
    HasBits (ReadStatus.updateOff st c bit off) (l ++ [(bit + off, c)]) := by
  cases c with
  | false =>
    have hsame : ReadStatus.updateOff st false bit off = st := by simp [ReadStatus.updateOff]
    rw [hsame]
    exact h.append_false _
  | true => exact h.set hbit

theorem congr {l' : List (Nat × Bool)} (h : HasBits st l)
    (hl : ∀ b, (b, true) ∈ l ↔ (b, true) ∈ l') :
    HasBits st l' := fun b => (h b).trans (hl b)

end HasBits

/-! ## One call of the checker -/

section Checked

variable {ctx : ReadContext} {src : Nat → AxisIn} {rest : List AxisIn} {n : Nat} {s : Reading}
  {st : BitVec 32} {l : List (Nat × Bool)}

theorem checks_succ (ctx : ReadContext) (src : Nat → AxisIn) (n : Nat) :
    checks ctx src (n + 1) =
      checks ctx src n ++ (framingChecks (src n) n ++ headerChecks ctx (src n).data n) := by
  rw [checks, List.range_succ, List.flatMap_append, List.flatMap_singleton, checks]

/-- A word that is neither the first nor the last one. -/
theorem checks_inner (ctx : ReadContext) (src : Nat → AxisIn) (hpos : 0 < n) (hn : n < 29) :
    checks ctx src (n + 1) =
      checks ctx src n ++ [(ErrSofU, (src n).sof), (ErrEofU, (src n).last)] ++
        headerChecks ctx (src n).data n := by
  rw [checks_succ, framingChecks, if_neg (by omega), if_neg (by omega), List.append_assoc]

/-- Words that are not headers. -/
theorem headerChecks_data {i : Nat} (hi : 4 ≤ i ∧ i < 16 ∨ 18 ≤ i) (hdr : BitVec 64) :
    headerChecks ctx hdr i = [] := by
  unfold headerChecks
  split
  all_goals first | omega | rfl

theorem headerChecks_first (ctx : ReadContext) (hdr : BitVec 64) :
    headerChecks ctx hdr 2 = colddata0Checks hdr ctx.cvtCnt0 0 := rfl

theorem headerChecks_second (ctx : ReadContext) (hdr : BitVec 64) :
    headerChecks ctx hdr 16 = colddata0Checks hdr ctx.cvtCnt1 8 := rfl

theorem HasBits.checkInner (h : HasBits st l) (w : AxisIn) :
    HasBits (checkInner st w) (l ++ [(ErrSofU, w.sof), (ErrEofU, w.last)]) := by
  have hboth := (h.setIf ErrSofU (by decide) w.sof).setIf ErrEofU (by decide) w.last
  rwa [List.append_assoc] at hboth

theorem HasBits.evalWib0 (h : HasBits st l) (hnew : ∀ b < 5, (b, true) ∉ l) (hdr : BitVec 64)
    (wibId : BitVec 11) :
    HasBits (evalWib0 st hdr wibId) (l ++
      [(ErrWibComma, WibFrame.commaChar hdr != WibFrame.K28_5),
        (ErrWibVersion, WibFrame.version hdr != WibFrame.VersionNumber),
        (ErrWibId, WibFrame.id hdr != wibId), (ErrWibErrors, WibFrame.wibErrors hdr != 0)]) := by
  have hcomma := h.update ErrWibComma (by decide) (hnew _ (by decide))
    (WibFrame.commaChar hdr != WibFrame.K28_5)
  have hversion := hcomma.update ErrWibVersion (by decide)
    (by simp [hnew, ErrWibVersion, ErrWibComma]) (WibFrame.version hdr != WibFrame.VersionNumber)
  have hid := hversion.update ErrWibId (by decide)
    (by simp [hnew, ErrWibId, ErrWibVersion, ErrWibComma]) (WibFrame.id hdr != wibId)
  have hrsvd := hid.update ErrWibRsvd (by decide)
    (by simp [hnew, ErrWibRsvd, ErrWibId, ErrWibVersion, ErrWibComma]) false
  have herrors := hrsvd.update ErrWibErrors (by decide)
    (by simp [hnew, ErrWibErrors, ErrWibRsvd, ErrWibId, ErrWibVersion, ErrWibComma])
    (WibFrame.wibErrors hdr != 0)
  refine herrors.congr fun b => ?_
  simp

theorem HasBits.evalColddata0 (h : HasBits st l) (hdr : BitVec 64) (expCvtCnt : BitVec 16)
    {off : Nat} (hoff : off ≤ 8) :
    HasBits (evalColddata0 st hdr (WibFrame.ColdData.cvtCnt hdr) expCvtCnt off)
      (l ++ colddata0Checks hdr expCvtCnt off) := by
  have hbit : ∀ bit < 24, bit + off < 32 := fun bit hb => by omega
  have hall := (((h.updateOff (hbit ErrCd0StrErr1 (by decide))
    (WibFrame.ColdData.streamErr1 hdr != 0)).updateOff (hbit ErrCd0StrErr2 (by decide))
    (WibFrame.ColdData.streamErr2 hdr != 0)).updateOff (hbit ErrCd0Rsvd0 (by decide))
    (WibFrame.ColdData.rsvd0 hdr != 0)).updateOff (hbit ErrCd0CvtCnt (by decide))
    (WibFrame.ColdData.cvtCnt hdr != expCvtCnt)
  refine hall.congr fun b => ?_
  simp [colddata0Checks]

theorem HasBits.evalColddata1 (h : HasBits st l) (hdr prv : BitVec 64) {off : Nat}
    (hoff : off ≤ 8) :
    HasBits (evalColddata1 st hdr prv off) (l ++ colddata1Checks hdr prv off) := by
  have hbit : ∀ bit < 24, bit + off < 32 := fun bit hb => by omega
  have hall := ((h.updateOff (hbit ErrCd0ErrReg (by decide))
    (WibFrame.ColdData.errReg hdr != 0)).updateOff (hbit ErrCd0Rsvd1 (by decide))
    (WibFrame.ColdData.rsvd1 hdr != 0)).updateOff (hbit ErrCd0Hdrs (by decide))
    (WibFrame.ColdData.hdrs hdr != WibFrame.ColdData.hdrs prv)
  refine hall.congr fun b => ?_
  simp [colddata1Checks]

/-- The words `src` are being read: the status is that of the checks of the first `n`. -/
structure Checked (ctx : ReadContext) (src : Nat → AxisIn) (rest : List AxisIn) (n : Nat)
    (s : Reading) : Prop where
  progress : Progress src rest n s.status s
  bits : HasBits s.status (checks ctx src n)

theorem Checked.read (h : Checked ctx src rest n s) (hn : n < 30) :
    ∃ s', s.read = some (src n, s') ∧ s'.status = s.status ∧
      ∀ st', HasBits st' (checks ctx src (n + 1)) →
        Checked ctx src rest (n + 1) ({ s' with status := st' }.store n (src n).data) := by
  obtain ⟨s', hread, hst, hnext⟩ := h.progress.read hn
  exact ⟨s', hread, hst, fun st' hbits => ⟨hnext st', hbits⟩⟩

theorem readWib0_checked (h : Checked ctx src rest 0 s) :
    ∃ s', readWib0 s ctx = some (s', ctx.afterWib0 (src 0).data) ∧ Checked ctx src rest 1 s' := by
  obtain ⟨s', hread, hst, hnext⟩ := h.read (by omega)
  have hframing := ((h.bits.setIf ErrSofM (by decide) (!(src 0).sof)).setIf
    ErrEofU (by decide) (src 0).last).setIf RunDisable (by decide)
    (!(src 0).runEnable)
  have hbits := hframing.evalWib0 (by simp [checks, ErrSofM, ErrEofU, RunDisable]; omega)
    (src 0).data (ctx.afterWib0 (src 0).data).wibId
  refine ⟨_, ?_, hnext _ (hbits.congr fun b => ?_)⟩
  · rw [readWib0, hread]
    cases hfirst : ctx.first <;> simp [hst, ReadContext.afterWib0, hfirst]
  · cases hfirst : ctx.first <;>
      simp [checks, framingChecks, headerChecks, ReadContext.afterWib0, hfirst]

theorem readWib1_checked (h : Checked ctx src rest 1 s) (ctx' : ReadContext)
    (hprv : ctx'.hdrs 1 = ctx.hdrs 1) :
    ∃ s', readWib1 s ctx' =
        some (s', { ctx' with hdrs := Function.update ctx'.hdrs 1 ((src 1).data + 25) }) ∧
      Checked ctx src rest 2 s' := by
  obtain ⟨s', hread, hst, hnext⟩ := h.read (by omega)
  have hbits := (h.bits.checkInner (src 1)).update ErrWibTimestamp (by decide)
    (by simp [checks, framingChecks, headerChecks, ErrWibTimestamp, ErrSofM, ErrEofU, RunDisable,
      ErrWibComma, ErrWibVersion, ErrWibId, ErrWibErrors, ErrSofU])
    ((src 1).data != ctx.hdrs 1)
  refine ⟨_, ?_, hnext _ (hbits.congr fun b => ?_)⟩
  · rw [readWib1, hread]
    simp [hst, evalWib1, hprv]
  · rw [checks_succ ctx src 1]
    simp [framingChecks, headerChecks]

theorem readColddataHdrs_checked (h : Checked ctx src rest n s) (hdrs : Nat → BitVec 64)
    (hbase : Nat) {cvtCnt : BitVec 16} {off : Nat} (hoff : off ≤ 8) (hpos : 0 < n) (hn : n < 28)
    (h0 : headerChecks ctx (src n).data n = colddata0Checks (src n).data cvtCnt off)
    (h1 : headerChecks ctx (src (n + 1)).data (n + 1) =
      colddata1Checks (src (n + 1)).data (hdrs (hbase + 1)) off) :
    ∃ s', readColddataHdrs s n hdrs hbase cvtCnt off =
        some (s', Function.update (Function.update hdrs hbase (src n).data) (hbase + 1)
          (src (n + 1)).data, WibFrame.ColdData.cvtCnt (src n).data + 1) ∧
      Checked ctx src rest (n + 2) s' := by
  obtain ⟨s₁, hread₁, hst₁, hnext₁⟩ := h.read (by omega)
  have hbits₁ := (h.bits.checkInner (src n)).evalColddata0 (src n).data cvtCnt hoff
  rw [← h0, ← checks_inner ctx src hpos (by omega)] at hbits₁
  obtain ⟨s₂, hread₂, hst₂, hnext₂⟩ := (hnext₁ _ hbits₁).read (by omega)
  have hbits₂ := (hbits₁.checkInner (src (n + 1))).evalColddata1 (src (n + 1)).data
    (hdrs (hbase + 1)) hoff
  rw [← h1, ← checks_inner ctx src (Nat.succ_pos n) (by omega)] at hbits₂
  refine ⟨_, ?_, hnext₂ _ hbits₂⟩
  rw [readColddataHdrs, hread₁]
  simp only [Option.bind_eq_bind, Option.bind_some]
  rw [hst₁, hread₂]
  simp [hst₂, Reading.store]

/-- The words of the loop, but for the last one of a frame. -/
theorem readColddataLoop_checked {base : Nat} (k idx : Nat) (checkLast : Bool)
    (hpos : 4 ≤ base) (hidx : idx + k ≤ 11 ∨ checkLast = false) (hn : base + idx + k ≤ 29)
    (hdata : base + idx + k ≤ 16 ∨ 18 ≤ base)
    (h : Checked ctx src rest (base + idx) s) (m : Nat) :
    ∃ s', readColddataLoop checkLast base (k + m) idx s =
        readColddataLoop checkLast base m (idx + k) s' ∧
      Checked ctx src rest (base + (idx + k)) s' := by
  induction k generalizing idx s with
  | zero => exact ⟨s, by rw [Nat.zero_add, Nat.add_zero], h⟩
  | succ k ih =>
      obtain ⟨s₁, hread, hst, hnext⟩ := h.read (by omega)
      have hnone : headerChecks ctx (src (base + idx)).data (base + idx) = [] :=
        headerChecks_data (by omega) _
      have hlist := checks_inner ctx src (by omega : 0 < base + idx) (by omega)
      rw [hnone, List.append_nil] at hlist
      have hbits := h.bits.checkInner (src (base + idx))
      rw [← hlist] at hbits
      obtain ⟨s₂, hloop, h₂⟩ := ih (idx + 1) (hidx.imp_left fun h => by omega) (by omega)
        (by omega) (hnext _ hbits)
      refine ⟨s₂, ?_, by rwa [Nat.add_assoc idx, Nat.add_comm 1] at h₂⟩
      have hcond : idx ≠ 11 ∨ checkLast = false := hidx.imp_left fun h => by omega
      rw [Nat.succ_add, readColddataLoop, hread]
      simp only [Option.bind_eq_bind, Option.bind_some, if_pos hcond, Reading.store, hst,
        checkInner] at hloop ⊢
      rw [Nat.add_comm k 1, ← Nat.add_assoc]
      exact hloop

/-- The last word of a frame. -/
theorem readColddataLoop_checkedLast (h : Checked ctx src rest 29 s) :
    ∃ s', readColddataLoop true 18 1 11 s = some s' ∧ Checked ctx src rest 30 s' := by
  obtain ⟨s', hread, hst, hnext⟩ := h.read (by omega)
  have hbits := (((h.bits.setIf ErrSofU (by decide) (src 29).sof).setIf Flush
    (by decide) (src 29).flush).setIf ErrEofM (by decide) (!(src 29).last)).setIf
    ErrEofE (by decide) (src 29).eofErr
  refine ⟨_, ?_, hnext _ (hbits.congr fun b => ?_)⟩
  · rw [readColddataLoop, hread]
    simp [hst, Reading.store]
  · rw [checks_succ ctx src 29, headerChecks_data (.inr (by omega))]
    simp [framingChecks]

theorem readColddata_checkedFirst (h : Checked ctx src rest 2 s) (hdrs : Nat → BitVec 64)
    (hprv : hdrs 3 = ctx.hdrs 3) :
    ∃ s', readColddata s 2 hdrs 2 ctx.cvtCnt0 0 =
        some (s', Function.update (Function.update hdrs 2 (src 2).data) 3 (src 3).data,
          WibFrame.ColdData.cvtCnt (src 2).data + 1) ∧
      Checked ctx src rest 16 s' := by
  obtain ⟨s₁, hhdrs, h₁⟩ := readColddataHdrs_checked h hdrs 2 (Nat.zero_le 8) (by omega)
    (by omega) (headerChecks_first ctx (src 2).data) (by rw [hprv]; rfl)
  obtain ⟨s₂, hloop, h₂⟩ := readColddataLoop_checked 12 0 false (by omega) (.inr rfl) (by omega)
    (.inl (by omega)) h₁ 0
  have hdata : readColddataData s₁ 4 false = some s₂ := hloop
  refine ⟨s₂, ?_, h₂⟩
  rw [readColddata, hhdrs]
  change (readColddataData s₁ 4 false >>= _) = _
  rw [hdata]
  rfl

theorem readColddata_checkedSecond (h : Checked ctx src rest 16 s) (hdrs : Nat → BitVec 64)
    (hprv : hdrs 5 = ctx.hdrs 5) :
    ∃ s', readColddata s 16 hdrs 4 ctx.cvtCnt1 8 =
        some (s', Function.update (Function.update hdrs 4 (src 16).data) 5 (src 17).data,
          WibFrame.ColdData.cvtCnt (src 16).data + 1) ∧
      Checked ctx src rest 30 s' := by
  obtain ⟨s₁, hhdrs, h₁⟩ := readColddataHdrs_checked h hdrs 4 (Nat.le_refl 8) (by omega)
    (by omega) (headerChecks_second ctx (src 16).data) (by rw [hprv]; rfl)
  obtain ⟨s₂, hloop, h₂⟩ := readColddataLoop_checked 11 0 true (by omega) (.inl (by omega))
    (by omega) (.inr (by omega)) h₁ 1
  obtain ⟨s₃, hlast, h₃⟩ := readColddataLoop_checkedLast h₂
  have hdata : readColddataData s₁ 18 true = some s₃ := hloop.trans hlast
  refine ⟨s₃, ?_, h₃⟩
  rw [readColddata, hhdrs]
  change (readColddataData s₁ 18 true >>= _) = _
  rw [hdata]
  rfl

/-- A frame has the words that are read, whatever they are, and the status of their checks. -/
theorem readFrame_words (ctx : ReadContext) (d : Nat → BitVec 64) (src : Nat → AxisIn)
    (rest : List AxisIn) :
    ∃ frame, readFrame ctx d ((List.range 30).map src ++ rest) =
        some (frame, ctx.afterFrame fun i => (src i).data, rest) ∧
      HasBits frame.status (checks ctx src 30) ∧ ∀ i < 30, frame.d i = (src i).data := by
  have h₀ : Checked ctx src rest 0 ⟨0, d, (List.range 30).map src ++ rest⟩ :=
    ⟨⟨fun i hi => absurd hi (Nat.not_lt_zero i), rfl, rfl⟩, .zero⟩
  obtain ⟨s₁, hread₁, h₁⟩ := readWib0_checked h₀
  obtain ⟨s₂, hread₂, h₂⟩ := readWib1_checked h₁ (ctx.afterWib0 (src 0).data) rfl
  obtain ⟨s₃, hread₃, h₃⟩ := readColddata_checkedFirst h₂
    (Function.update (ctx.afterWib0 (src 0).data).hdrs 1 ((src 1).data + 25)) rfl
  obtain ⟨s₄, hread₄, h₄⟩ := readColddata_checkedSecond h₃
    (Function.update (Function.update (Function.update (ctx.afterWib0 (src 0).data).hdrs 1
      ((src 1).data + 25)) 2 (src 2).data) 3 (src 3).data) rfl
  have haxis : s₄.axis = rest := h₄.progress.axis
  refine ⟨⟨⟨s₄.d, s₄.status⟩, s₄.status⟩, ?_, h₄.bits, h₄.progress.words⟩
  rw [readFrame, hread₁]
  change (readWib1 s₁ (ctx.afterWib0 (src 0).data) >>= _) = _
  rw [hread₂]
  change (readColddata s₂ 2 (Function.update (ctx.afterWib0 (src 0).data).hdrs 1
    ((src 1).data + 25)) 2 ctx.cvtCnt0 0 >>= _) = _
  rw [hread₃]
  change (readColddata s₃ 16 _ 4 ctx.cvtCnt1 8 >>= _) = _
  rw [hread₄]
  simp only [Option.bind_eq_bind, Option.bind_some, haxis, ReadContext.afterWib0,
    ReadContext.afterFrame_updates]
  rfl

/-- The status of a frame is that of the checks of its words. -/
theorem readFrame_checked (ctx : ReadContext) (d : Nat → BitVec 64) (src : Nat → AxisIn)
    (rest : List AxisIn) :
    ∃ frame, readFrame ctx d ((List.range 30).map src ++ rest) =
        some (frame, ctx.afterFrame fun i => (src i).data, rest) ∧
      HasBits frame.status (checks ctx src 30) := by
  obtain ⟨frame, hread, hbits, -⟩ := readFrame_words ctx d src rest
  exact ⟨frame, hread, hbits⟩

end Checked

/-! ## The status of a packet -/

section Packet

variable {s : Acquisition} {src : Nat → Nat → AxisIn}

/-- The mask of the first frame leaves the bits 0 to 4. -/
theorem errsOnFirst_getLsbD (st : BitVec 32) (b : Nat) :
    (errsOnFirst st).getLsbD b = true ↔ b < 5 ∧ st.getLsbD b = true := by
  have hmask : ErrOnFirst = 2 ^ 5 - 1 := rfl
  rw [errsOnFirst, BitVec.getLsbD_and, Bool.and_eq_true, BitVec.getLsbD_ofNat, hmask,
    Nat.testBit_two_pow_sub_one, Bool.and_eq_true, decide_eq_true_eq, decide_eq_true_eq]
  constructor
  · rintro ⟨hst, -, hb⟩
    exact ⟨hb, hst⟩
  · rintro ⟨hb, hst⟩
    exact ⟨hst, by omega, hb⟩

/-- The status that a frame leaves, in the context of the headers and that of the packet. -/
theorem processFrame_status (frame : StatusFrame) (iframe : Nat) (adcs8 : Nat → BitVec 96)
    (hdrLcl : HeaderContextLcl) (pktCtx : PacketContext) (channels : ChannelState) :
    let s' := processFrame frame iframe adcs8 hdrLcl pktCtx channels
    s'.1.status = (if iframe = 0 then errsOnFirst frame.status
      else hdrLcl.status ||| frame.status) ∧ s'.2.1.status = s'.1.status := by
  cases iframe with
  | zero => exact ⟨rfl, rfl⟩
  | succ i => exact ⟨rfl, rfl⟩

/-- The context before a frame: that of the frames before it. -/
def ctxAt (ctx : ReadContext) (src : Nat → Nat → AxisIn) : Nat → ReadContext
  | 0 => ctx
  | i + 1 => (ctxAt ctx src i).afterFrame fun j => (src i j).data

/-- The words of the frames from `idx` on. -/
def frameStream (src : Nat → Nat → AxisIn) (rest : List AxisIn) : Nat → Nat → List AxisIn
  | 0, _ => rest
  | k + 1, idx => (List.range 30).map (src idx) ++ frameStream src rest k (idx + 1)

/-- A frame of a packet raises a bit. -/
def RaisedBy (ctx : ReadContext) (src : Nat → Nat → AxisIn) (i b : Nat) : Prop :=
  Raises (ctxAt ctx src i) (src i) b

theorem acquireFrame_spec (buffers : FrameBuffers) (s : Acquisition) (iframe : Nat)
    (words : Nat → AxisIn) (rest : List AxisIn) :
    ∃ s', acquireFrame buffers s iframe ((List.range 30).map words ++ rest) = some (s', rest) ∧
      s'.ctx = (s.ctx.afterFrame fun j => (words j).data) ∧
      s'.pktCtx.status = s'.hdrLcl.status ∧
      ∀ b, s'.hdrLcl.status.getLsbD b = true ↔
        if iframe = 0 then b < 5 ∧ Raises s.ctx words b
        else s.hdrLcl.status.getLsbD b = true ∨ Raises s.ctx words b := by
  obtain ⟨frame, hread, hbits⟩ := readFrame_checked s.ctx buffers.d words rest
  obtain ⟨hlcl, hpkt⟩ := processFrame_status frame iframe buffers.adcs8 s.hdrLcl s.pktCtx s.channels
  have hacquire : acquireFrame buffers s iframe ((List.range 30).map words ++ rest) =
      some (⟨s.ctx.afterFrame fun j => (words j).data,
        (processFrame frame iframe buffers.adcs8 s.hdrLcl s.pktCtx s.channels).1,
        (processFrame frame iframe buffers.adcs8 s.hdrLcl s.pktCtx s.channels).2.1,
        (processFrame frame iframe buffers.adcs8 s.hdrLcl s.pktCtx s.channels).2.2⟩, rest) := by
    rw [acquireFrame, hread]
    rfl
  refine ⟨_, hacquire, rfl, hpkt, fun b => ?_⟩
  dsimp only
  rw [hlcl]
  split
  · rw [errsOnFirst_getLsbD, hbits b, Raises]
  · rw [BitVec.getLsbD_or, Bool.or_eq_true, hbits b, Raises]

/-- After the first frame, every frame adds its bits. -/
theorem acquireLoop_spec (buffers : Nat → FrameBuffers) (ctx : ReadContext)
    (src : Nat → Nat → AxisIn) (rest : List AxisIn) (k idx : Nat) (s : Acquisition)
    (hidx : idx ≠ 0) (hctx : s.ctx = ctxAt ctx src idx)
    (hstatus : s.pktCtx.status = s.hdrLcl.status) :
    ∃ s', acquireLoop buffers k idx s (frameStream src rest k idx) = some (s', rest) ∧
      ∀ b, s'.pktCtx.status.getLsbD b = true ↔
        s.pktCtx.status.getLsbD b = true ∨ ∃ i, idx ≤ i ∧ i < idx + k ∧ RaisedBy ctx src i b := by
  induction k generalizing idx s with
  | zero =>
      refine ⟨s, rfl, fun b => ⟨.inl, ?_⟩⟩
      rintro (h | ⟨i, hle, hlt, -⟩)
      · exact h
      · omega
  | succ k ih =>
      obtain ⟨s₁, hframe, hctx₁, hstatus₁, hbits₁⟩ := acquireFrame_spec (buffers idx) s idx
        (src idx) (frameStream src rest k (idx + 1))
      obtain ⟨s₂, hloop, hbits₂⟩ := ih (idx + 1) s₁ (Nat.succ_ne_zero idx)
        (by rw [hctx₁, hctx]; rfl) hstatus₁
      refine ⟨s₂, ?_, fun b => ?_⟩
      · rw [acquireLoop, frameStream, hframe]
        exact hloop
      · rw [hbits₂ b, hstatus₁, hbits₁ b, if_neg hidx, hstatus, hctx, or_assoc]
        refine or_congr_right ?_
        constructor
        · rintro (h | ⟨i, hle, hlt, h⟩)
          · exact ⟨idx, Nat.le_refl idx, by omega, h⟩
          · exact ⟨i, by omega, by omega, h⟩
        · rintro ⟨i, hle, hlt, h⟩
          by_cases hi : i = idx
          · subst hi
            exact .inl h
          · exact .inr ⟨i, by omega, by omega, h⟩

/-- The status of a packet of `k + 1` frames: what the mask leaves of the first one,
and the others. -/
theorem acquireLoop_first (buffers : Nat → FrameBuffers) (s : Acquisition)
    (src : Nat → Nat → AxisIn) (rest : List AxisIn) (k : Nat) :
    ∃ s', acquireLoop buffers (k + 1) 0 s (frameStream src rest (k + 1) 0) = some (s', rest) ∧
      ∀ b, s'.pktCtx.status.getLsbD b = true ↔
        b < 5 ∧ RaisedBy s.ctx src 0 b ∨ ∃ i, 0 < i ∧ i < k + 1 ∧ RaisedBy s.ctx src i b := by
  obtain ⟨s₁, hframe, hctx₁, hstatus₁, hbits₁⟩ := acquireFrame_spec (buffers 0) s 0 (src 0)
    (frameStream src rest k 1)
  obtain ⟨s₂, hloop, hbits₂⟩ := acquireLoop_spec buffers s.ctx src rest k 1 s₁ Nat.one_ne_zero
    hctx₁ hstatus₁
  refine ⟨s₂, ?_, fun b => ?_⟩
  · rw [acquireLoop, frameStream, hframe]
    exact hloop
  · rw [hbits₂ b, hstatus₁, hbits₁ b, if_pos rfl, Nat.add_comm 1 k]
    rfl

/-- The status of a packet. -/
theorem acquirePacket_spec (buffers : Nat → FrameBuffers) (s : Acquisition)
    (src : Nat → Nat → AxisIn) (rest : List AxisIn) :
    ∃ s', acquirePacket buffers s (frameStream src rest 1024 0) = some (s', rest) ∧
      ∀ b, s'.pktCtx.status.getLsbD b = true ↔
        b < 5 ∧ RaisedBy s.ctx src 0 b ∨ ∃ i, 0 < i ∧ i < 1024 ∧ RaisedBy s.ctx src i b :=
  acquireLoop_first buffers s src rest 1023

end Packet

/-! ## When the status is that of the errors -/

/-- The bits of a status that are errors, not the state of the run. -/
def IsError (b : Nat) : Prop := b ≠ RunDisable ∧ b ≠ Flush

/-- The errors that can be judged on the first frame, since what they are compared with
is no earlier frame's: those which `ErrOnFirst` names, and `ErrReg` and `Rsvd1` of
both links, which must be 0. -/
def errorsOnFirst : List Nat :=
  [ErrWibComma, ErrWibVersion, ErrWibRsvd, ErrWibErrors, ErrCd0StrErr1, ErrCd0StrErr2, ErrCd0Rsvd0,
    ErrCd0ErrReg, ErrCd0Rsvd1, ErrCd1StrErr1, ErrCd1StrErr2, ErrCd1Rsvd0, ErrCd1ErrReg,
    ErrCd1Rsvd1, ErrSofM, ErrSofU, ErrEofM, ErrEofU, ErrEofE]

/-- The errors for which the mask is wrong: those that it takes away, and `ErrWibId`,
which is compared with an earlier frame's and left. -/
def misjudgedOnFirst : List Nat :=
  [ErrWibId, ErrCd0StrErr1, ErrCd0StrErr2, ErrCd0Rsvd0, ErrCd0ErrReg, ErrCd0Rsvd1, ErrCd1StrErr1,
    ErrCd1StrErr2, ErrCd1Rsvd0, ErrCd1ErrReg, ErrCd1Rsvd1, ErrSofM, ErrSofU, ErrEofM, ErrEofU,
    ErrEofE]

/-- The status of a packet is that of the errors of its frames: of the first one only
those that can be judged there. No bit has another cause. -/
structure StatusExact (ctx : ReadContext) (src : Nat → Nat → AxisIn) (status : BitVec 32) :
    Prop where
  errors : ∀ b, IsError b → (status.getLsbD b = true ↔
    b ∈ errorsOnFirst ∧ RaisedBy ctx src 0 b ∨ ∃ i, 0 < i ∧ i < 1024 ∧ RaisedBy ctx src i b)
  cause : ∀ b, status.getLsbD b = true → ∃ i < 1024, RaisedBy ctx src i b

/-- An error of the first frame that is misjudged there is an error of a later frame too. -/
def RaisedAgain (ctx : ReadContext) (src : Nat → Nat → AxisIn) : Prop :=
  ∀ b ∈ misjudgedOnFirst, RaisedBy ctx src 0 b → ∃ i, 0 < i ∧ i < 1024 ∧ RaisedBy ctx src i b

/-- The bits that the mask leaves are the errors for the first frame, but for the
misjudged ones. -/
theorem mask_iff_of_not_misjudged {b : Nat} (h : b ∉ misjudgedOnFirst) :
    b < 5 ↔ b ∈ errorsOnFirst := by
  constructor
  · intro hb
    have hsmall : ∀ b < 5, b ∉ misjudgedOnFirst → b ∈ errorsOnFirst := by decide
    exact hsmall b hb h
  · intro hb
    have hlarge : ∀ b ∈ errorsOnFirst, b ∉ misjudgedOnFirst → b < 5 := by decide
    exact hlarge b hb h

/-- For a misjudged error the mask does the opposite. -/
theorem mask_iff_of_misjudged : ∀ b ∈ misjudgedOnFirst, (b < 5 ↔ b ∉ errorsOnFirst) := by
  decide

theorem isError_of_misjudged {b : Nat} (h : b ∈ misjudgedOnFirst) : IsError b := by
  have hall : ∀ b ∈ misjudgedOnFirst, b ≠ RunDisable ∧ b ≠ Flush := by decide
  exact hall b h

/-- Every packet of 1024 frames is acquired, from any state. Its status is that of the
errors of its frames exactly when the misjudged errors of the first one are
raised again. -/
theorem status_exact_iff (buffers : Nat → FrameBuffers) (s : Acquisition)
    (src : Nat → Nat → AxisIn) (rest : List AxisIn) :
    ∃ s', acquirePacket buffers s (frameStream src rest 1024 0) = some (s', rest) ∧
      (StatusExact s.ctx src s'.pktCtx.status ↔ RaisedAgain s.ctx src) := by
  obtain ⟨s', hpacket, hbits⟩ := acquirePacket_spec buffers s src rest
  refine ⟨s', hpacket, ?_, ?_⟩
  · intro hexact b hb hfirst
    have hmask := mask_iff_of_misjudged b hb
    have heither := (hbits b).symm.trans (hexact.errors b (isError_of_misjudged hb))
    by_cases hnamed : b ∈ errorsOnFirst
    · -- the mask takes a named error away
      rcases heither.mpr (.inl ⟨hnamed, hfirst⟩) with ⟨hlt, -⟩ | hlater
      · exact absurd hnamed (hmask.mp hlt)
      · exact hlater
    · -- the mask leaves `ErrWibId`
      rcases heither.mp (.inl ⟨hmask.mpr hnamed, hfirst⟩) with ⟨hin, -⟩ | hlater
      · exact absurd hin hnamed
      · exact hlater
  · intro hagain
    refine ⟨fun b _ => ?_, fun b hb => ?_⟩
    · rw [hbits b]
      by_cases hmis : b ∈ misjudgedOnFirst
      · -- a later frame raises it, if the first one does
        constructor
        · rintro (⟨-, hfirst⟩ | hlater)
          · exact .inr (hagain b hmis hfirst)
          · exact .inr hlater
        · rintro (⟨-, hfirst⟩ | hlater)
          · exact .inr (hagain b hmis hfirst)
          · exact .inr hlater
      · rw [mask_iff_of_not_misjudged hmis]
    · rcases (hbits b).mp hb with ⟨-, hfirst⟩ | ⟨i, -, hlt, h⟩
      · exact ⟨0, by omega, hfirst⟩
      · exact ⟨i, hlt, h⟩

/-- The start of a frame is missing where its first word is not marked. -/
theorem sof_of_raises {ctx : ReadContext} {src : Nat → AxisIn} (h : Raises ctx src ErrSofM) :
    (src 0).sof = false := by
  obtain ⟨i, -, hi⟩ := List.mem_flatMap.mp h
  rcases List.mem_append.mp hi with hframing | hheader
  · unfold framingChecks at hframing
    split at hframing
    · rename_i hzero
      subst hzero
      simpa [ErrSofM, ErrEofU, RunDisable] using hframing
    · split at hframing
      · simp [ErrSofM, ErrSofU, Flush, ErrEofM, ErrEofE] at hframing
      · simp [ErrSofM, ErrSofU, ErrEofU] at hframing
  · exfalso
    unfold headerChecks at hheader
    split at hheader
    all_goals simp [ErrSofM, ErrWibComma, ErrWibVersion, ErrWibId, ErrWibErrors, ErrWibTimestamp,
      colddata0Checks, colddata1Checks, ErrCd0StrErr1, ErrCd0StrErr2, ErrCd0Rsvd0, ErrCd0CvtCnt,
      ErrCd0ErrReg, ErrCd0Rsvd1, ErrCd0Hdrs] at hheader

/-- The static variables before the first packet. -/
def Acquisition.initial : Acquisition where
  ctx := ⟨true, 0, fun _ => 0, 0, 0⟩
  hdrLcl := ⟨0, 0, 0⟩
  pktCtx := ⟨0, 0, 0, fun _ => 0⟩
  channels :=
    { adcs := ⟨fun _ _ => 0, fun _ _ => 0, fun _ _ => 0, fun _ _ => 0⟩
      hists := ⟨fun _ => ⟨0, 0, 0, 0, 0, 0, 0, 0, fun _ => 0⟩,
        fun _ => ⟨0, 0, 0, 0, 0, 0, 0, 0, fun _ => 0⟩, fun _ => ⟨0, 0, 0, 0, 0, 0, 0, 0, fun _ => 0⟩,
        fun _ => ⟨0, 0, 0, 0, 0, 0, 0, 0, fun _ => 0⟩⟩
      histsLcl := fun _ => ⟨0, 0, 0, 0, 0, 0, 0, 0, fun _ => 0⟩
      prv := fun _ => 0 }

/-- Frames of zeros that start as they should, but for the first one. -/
def sofMissing (i j : Nat) : AxisIn :=
  if i = 0 ∨ j ≠ 0 then ⟨0, 0, false⟩ else ⟨0, 2, false⟩

/-- The missing start of the first frame is not in the status of the packet. -/
theorem sof_missing_lost :
    ¬∀ (buffers : Nat → FrameBuffers) (s : Acquisition) (src : Nat → Nat → AxisIn)
      (rest : List AxisIn),
      ∃ s', acquirePacket buffers s (frameStream src rest 1024 0) = some (s', rest) ∧
        StatusExact s.ctx src s'.pktCtx.status := by
  intro h
  obtain ⟨s', hpacket, hexact⟩ := h (fun _ => ⟨fun _ => 0, fun _ => 0⟩) .initial sofMissing []
  obtain ⟨s'', hpacket', hbits⟩ := acquirePacket_spec (fun _ => ⟨fun _ => 0, fun _ => 0⟩) .initial
    sofMissing []
  obtain rfl : s' = s'' := (Prod.mk.inj (Option.some.inj (hpacket.symm.trans hpacket'))).1
  have hfirst : RaisedBy Acquisition.initial.ctx sofMissing 0 ErrSofM := by
    have hword : (ErrSofM, true) ∈
        framingChecks (sofMissing 0 0) 0 ++ headerChecks Acquisition.initial.ctx 0 0 := by decide
    exact List.mem_flatMap.mpr ⟨0, List.mem_range.mpr (by omega), hword⟩
  have hset :=
    (hexact.errors ErrSofM (isError_of_misjudged (by decide))).mpr (.inl ⟨by decide, hfirst⟩)
  rcases (hbits ErrSofM).mp hset with ⟨hlt, -⟩ | ⟨i, hpos, -, hraised⟩
  · exact absurd hlt (by decide)
  · -- the later frames start as they should
    have hsof := sof_of_raises hraised
    have hword : sofMissing i 0 = ⟨0, 2, false⟩ := if_neg (by omega)
    rw [hword] at hsof
    exact absurd hsof (by decide)

end ProtoDune.Firmware
