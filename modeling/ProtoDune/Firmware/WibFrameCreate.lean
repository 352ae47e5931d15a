import Mathlib.Data.List.Forall2
import ProtoDune.Firmware.WibFrameRead

/-!
# `WibFrame-Create.h`: the frame generator against the checker

The generator composes a frame from a timestamp and 128 ADCs and counts the
frames in its two convert counts. The checker predicts the timestamp and the
counts of the next frame.

Main results:

* `expects_fill` — the checker predicts the frame that the generator makes next.
* `generated_frames_pass` — every frame of a generated sequence after the first
  passes all checks.
-/

namespace ProtoDune.Firmware

open ReadStatus

/-! ## The generator -/

def packA (v0 v1 v2 v3 v4 v5 : BitVec 16) : BitVec 64 :=
  let s := (v5 &&& 0xff).setWidth 64
  let s := s <<< 8 ||| (v4 &&& 0xff).setWidth 64
  let s := s <<< 8 ||| (v3 >>> 4).setWidth 64
  let s := s <<< 8 ||| (v2 >>> 4).setWidth 64
  let s := s <<< 4 ||| (v3 &&& 0xf).setWidth 64
  let s := s <<< 4 ||| (v1 >>> 8).setWidth 64
  let s := s <<< 4 ||| (v2 &&& 0xf).setWidth 64
  let s := s <<< 4 ||| (v0 >>> 8).setWidth 64
  let s := s <<< 8 ||| (v1 &&& 0xff).setWidth 64
  s <<< 8 ||| (v0 &&& 0xff).setWidth 64

def packB (v4 v5 v6 v7 v8 v9 vA vB : BitVec 16) : BitVec 64 :=
  let s := (vB &&& 0xf).setWidth 64
  let s := s <<< 4 ||| (v9 >>> 8).setWidth 64
  let s := s <<< 4 ||| (vA &&& 0xf).setWidth 64
  let s := s <<< 4 ||| (v8 >>> 8).setWidth 64
  let s := s <<< 8 ||| (v9 &&& 0xff).setWidth 64
  let s := s <<< 8 ||| (v8 &&& 0xff).setWidth 64
  let s := s <<< 8 ||| (v7 >>> 4).setWidth 64
  let s := s <<< 8 ||| (v6 >>> 4).setWidth 64
  let s := s <<< 4 ||| (v7 &&& 0xf).setWidth 64
  let s := s <<< 4 ||| (v5 >>> 8).setWidth 64
  let s := s <<< 4 ||| (v6 &&& 0xf).setWidth 64
  s <<< 4 ||| (v4 >>> 8).setWidth 64

def packC (vA vB vC vD vE vF : BitVec 16) : BitVec 64 :=
  let s := (vF >>> 4).setWidth 64
  let s := s <<< 8 ||| (vE >>> 4).setWidth 64
  let s := s <<< 4 ||| (vF &&& 0xf).setWidth 64
  let s := s <<< 4 ||| (vD >>> 8).setWidth 64
  let s := s <<< 4 ||| (vE &&& 0xf).setWidth 64
  let s := s <<< 4 ||| (vC >>> 8).setWidth 64
  let s := s <<< 8 ||| (vD &&& 0xff).setWidth 64
  let s := s <<< 8 ||| (vC &&& 0xff).setWidth 64
  let s := s <<< 8 ||| (vB >>> 4).setWidth 64
  s <<< 8 ||| (vA >>> 4).setWidth 64

/-- `pack64`, with `k` iterations to go, and the pointers `dst` and `p`. -/
def pack64 (adcs : Nat → BitVec 16) : Nat → Nat → Nat → (Nat → BitVec 64) → Nat → BitVec 64
  | 0, _, _, w64 => w64
  | k + 1, dst, p, w64 =>
      let v i := adcs (p + i)
      let w64 := Function.update w64 dst (packA (v 0) (v 1) (v 2) (v 3) (v 4) (v 5))
      let w64 := Function.update w64 (dst + 1)
        (packB (v 4) (v 5) (v 6) (v 7) (v 8) (v 9) (v 10) (v 11))
      let w64 := Function.update w64 (dst + 2) (packC (v 10) (v 11) (v 12) (v 13) (v 14) (v 15))
      pack64 adcs k (dst + 3) (p + 16) w64

/-- `fill_colddata`, on the words from `base` and the ADCs from `p` on. -/
def fillColddata (w64 : Nat → BitVec 64) (base : Nat) (cvtcnt : BitVec 16)
    (adcs : Nat → BitVec 16) (p : Nat) : Nat → BitVec 64 :=
  let w64 := Function.update w64 base (WibFrame.ColdData.s0 0 0 0 0 cvtcnt)
  let w64 := Function.update w64 (base + 1) (WibFrame.ColdData.s1 0 0)
  pack64 adcs 4 (base + 2) p w64

structure WibFrameCreate where
  id : BitVec 11
  rsvd : BitVec 24
  error : BitVec 16
  cvtcnt0 : BitVec 16
  cvtcnt1 : BitVec 16
  w64 : Nat → BitVec 64

/-- The constructor; the words hold anything. -/
def WibFrameCreate.new (id : BitVec 11) (w64 : Nat → BitVec 64) : WibFrameCreate where
  id := id
  rsvd := 0
  error := 0
  cvtcnt0 := 0x100
  cvtcnt1 := 0x100
  w64 := w64

/-- `WibFrameCreate::fill`. -/
def WibFrameCreate.fill (g : WibFrameCreate) (timestamp : BitVec 64) (adcs : Nat → BitVec 16) :
    WibFrameCreate :=
  let w64 := Function.update g.w64 0 (WibFrame.w0 WibFrame.K28_5 g.id g.rsvd g.error)
  let w64 := Function.update w64 1 (WibFrame.w1 timestamp)
  let w64 := fillColddata w64 2 g.cvtcnt0 adcs 0
  let w64 := fillColddata w64 16 g.cvtcnt1 adcs 64
  { g with w64, cvtcnt0 := g.cvtcnt0 + 1, cvtcnt1 := g.cvtcnt1 + 1 }

/-- The control flags of a frame on the input stream. -/
structure FrameFlags where
  runEnable : Bool
  flush : Bool

/-- The user bits of the first word: `Sof`, and `RunEnable`. -/
def firstUser (runEnable : Bool) : BitVec 4 := 1#4 <<< 1 ||| (if runEnable then 1#4 <<< 3 else 0)

/-- The user bits of the last word: `Flush`. -/
def lastUser (flush : Bool) : BitVec 4 := if flush then 1#4 <<< 2 else 0

/-- `Source::fill_frame`: the words of a frame with their flags. -/
def fillFrame (w64 : Nat → BitVec 64) (flags : FrameFlags) : List AxisIn :=
  ⟨w64 0, firstUser flags.runEnable, false⟩ ::
    ((List.range 28).map fun i => ⟨w64 (i + 1), 0, false⟩) ++ [⟨w64 29, lastUser flags.flush, true⟩]

/-- A call of `fill`. -/
structure FrameInput where
  adcs : Nat → BitVec 16
  flags : FrameFlags

/-- The words of the frames that the generator makes of the inputs, with timestamps 25 apart. -/
def generate : WibFrameCreate → BitVec 64 → List FrameInput → List ((Nat → BitVec 64) × FrameFlags)
  | _, _, [] => []
  | g, timestamp, x :: xs =>
      let g := g.fill timestamp x.adcs
      (g.w64, x.flags) :: generate g (timestamp + 25) xs

/-- The frames on the input stream. -/
def inputStream (frames : List ((Nat → BitVec 64) × FrameFlags)) : List AxisIn :=
  frames.flatMap fun f => fillFrame f.1 f.2

/-- The constructor of `ReadContext`; the headers hold anything. -/
def ReadContext.new (hdrs : Nat → BitVec 64) : ReadContext where
  first := true
  wibId := 0
  hdrs := hdrs
  cvtCnt0 := 0
  cvtCnt1 := 0

/-- Calls of the checker, each with the words that it took from the stream. -/
def readFrames : Nat → ReadContext → (Nat → BitVec 64) → List AxisIn →
    Option (List (StatusFrame × Nat) × ReadContext × List AxisIn)
  | 0, ctx, _, axis => some ([], ctx, axis)
  | k + 1, ctx, d, axis => do
      let (frame, ctx, axis') ← readFrame ctx d axis
      let (frames, ctx, rest) ← readFrames k ctx frame.d axis'
      some ((frame, axis.length - axis'.length) :: frames, ctx, rest)

/-! ## The words of a generated frame -/

theorem pack64_of_lt (adcs : Nat → BitVec 16) (k dst p : Nat) (w64 : Nat → BitVec 64) {i : Nat}
    (hi : i < dst) : pack64 adcs k dst p w64 i = w64 i := by
  induction k generalizing dst p w64 with
  | zero => rfl
  | succ k ih =>
      rw [pack64, ih _ _ _ (by omega), Function.update_of_ne (by omega),
        Function.update_of_ne (by omega), Function.update_of_ne (by omega)]

theorem pack64_of_le (adcs : Nat → BitVec 16) (k dst p : Nat) (w64 : Nat → BitVec 64) {i : Nat}
    (hi : dst + 3 * k ≤ i) : pack64 adcs k dst p w64 i = w64 i := by
  induction k generalizing dst p w64 with
  | zero => rfl
  | succ k ih =>
      rw [pack64, ih _ _ _ (by omega), Function.update_of_ne (by omega),
        Function.update_of_ne (by omega), Function.update_of_ne (by omega)]

theorem fillColddata_headers (w64 : Nat → BitVec 64) (base : Nat) (cvtcnt : BitVec 16)
    (adcs : Nat → BitVec 16) (p : Nat) :
    fillColddata w64 base cvtcnt adcs p base = WibFrame.ColdData.s0 0 0 0 0 cvtcnt ∧
      fillColddata w64 base cvtcnt adcs p (base + 1) = WibFrame.ColdData.s1 0 0 := by
  unfold fillColddata
  constructor
  · rw [pack64_of_lt _ _ _ _ _ (by omega), Function.update_of_ne (by omega), Function.update_self]
  · rw [pack64_of_lt _ _ _ _ _ (by omega), Function.update_self]

theorem fillColddata_frame (w64 : Nat → BitVec 64) {base i : Nat} (cvtcnt : BitVec 16)
    (adcs : Nat → BitVec 16) (p : Nat) (hi : i < base ∨ base + 14 ≤ i) :
    fillColddata w64 base cvtcnt adcs p i = w64 i := by
  unfold fillColddata
  rcases hi with hi | hi
  · rw [pack64_of_lt _ _ _ _ _ (by omega), Function.update_of_ne (by omega),
      Function.update_of_ne (by omega)]
  · rw [pack64_of_le _ _ _ _ _ (by omega), Function.update_of_ne (by omega),
      Function.update_of_ne (by omega)]

/-- The header words. -/
theorem fill_headers (g : WibFrameCreate) (timestamp : BitVec 64) (adcs : Nat → BitVec 16) :
    (g.fill timestamp adcs).w64 0 = WibFrame.w0 WibFrame.K28_5 g.id g.rsvd g.error ∧
      (g.fill timestamp adcs).w64 1 = timestamp ∧
      (g.fill timestamp adcs).w64 2 = WibFrame.ColdData.s0 0 0 0 0 g.cvtcnt0 ∧
      (g.fill timestamp adcs).w64 3 = WibFrame.ColdData.s1 0 0 ∧
      (g.fill timestamp adcs).w64 16 = WibFrame.ColdData.s0 0 0 0 0 g.cvtcnt1 ∧
      (g.fill timestamp adcs).w64 17 = WibFrame.ColdData.s1 0 0 := by
  have hfill : (g.fill timestamp adcs).w64 = fillColddata (fillColddata (Function.update
      (Function.update g.w64 0 (WibFrame.w0 WibFrame.K28_5 g.id g.rsvd g.error)) 1 timestamp)
        2 g.cvtcnt0 adcs 0) 16 g.cvtcnt1 adcs 64 := rfl
  rw [hfill]
  refine ⟨?_, ?_, ?_, ?_, ?_, ?_⟩
  · rw [fillColddata_frame _ _ _ _ (by omega), fillColddata_frame _ _ _ _ (by omega)]
    rfl
  · rw [fillColddata_frame _ _ _ _ (by omega), fillColddata_frame _ _ _ _ (by omega)]
    rfl
  · rw [fillColddata_frame _ _ _ _ (by omega)]
    exact (fillColddata_headers ..).1
  · rw [fillColddata_frame _ _ _ _ (by omega)]
    exact (fillColddata_headers ..).2
  · exact (fillColddata_headers ..).1
  · exact (fillColddata_headers ..).2

/-! ## The flags of a generated frame -/

/-- A word of a frame with its flags. -/
def frameWord (w64 : Nat → BitVec 64) (flags : FrameFlags) (i : Nat) : AxisIn where
  data := w64 i
  user := if i = 0 then firstUser flags.runEnable else if i = 29 then lastUser flags.flush else 0
  last := decide (i = 29)

theorem firstUser_bits (b : Bool) :
    (firstUser b).getLsbD 1 = true ∧ (firstUser b).getLsbD 3 = b := by
  cases b <;> decide

theorem lastUser_bits (b : Bool) :
    (lastUser b).getLsbD 0 = false ∧ (lastUser b).getLsbD 1 = false ∧
      (lastUser b).getLsbD 2 = b := by
  cases b <;> decide

theorem framed_frameWord (w64 : Nat → BitVec 64) (flags : FrameFlags) :
    Framed (frameWord w64 flags) where
  sof := (firstUser_bits flags.runEnable).1
  inner := by
    intro i hpos hi
    rw [AxisIn.sof, frameWord, if_neg (by omega)]
    split
    · exact (lastUser_bits flags.flush).2.1
    · exact BitVec.getLsbD_zero
  last := fun i hi => decide_eq_false (by omega)
  eof := rfl
  good := (lastUser_bits flags.flush).1

theorem frameWord_runEnable (w64 : Nat → BitVec 64) (flags : FrameFlags) :
    (frameWord w64 flags 0).runEnable = flags.runEnable :=
  (firstUser_bits flags.runEnable).2

/-! ## What the checker expects -/

/-- The checker expects the frame that the generator makes next. -/
structure Expects (ctx : ReadContext) (g : WibFrameCreate) (timestamp : BitVec 64) : Prop where
  first : ctx.first = false
  wibId : ctx.wibId = g.id
  error : g.error = 0
  timestamp : ctx.hdrs 1 = timestamp
  hdrs0 : WibFrame.ColdData.hdrs (ctx.hdrs 3) = 0
  hdrs1 : WibFrame.ColdData.hdrs (ctx.hdrs 5) = 0
  cvtCnt0 : ctx.cvtCnt0 = g.cvtcnt0
  cvtCnt1 : ctx.cvtCnt1 = g.cvtcnt1

theorem s1_zero : WibFrame.ColdData.s1 0 0 = 0 := by decide

/-- After a frame the checker expects the next one. -/
theorem expects_fill (ctx : ReadContext) (g : WibFrameCreate) (timestamp : BitVec 64)
    (adcs : Nat → BitVec 16) (herr : g.error = 0) (hid : ctx.first = true ∨ ctx.wibId = g.id) :
    Expects (ctx.afterFrame (g.fill timestamp adcs).w64) (g.fill timestamp adcs)
      (timestamp + 25) := by
  obtain ⟨h0, h1, h2, h3, h16, h17⟩ := fill_headers g timestamp adcs
  obtain ⟨hts, hcold₀, hcold₁⟩ := ctx.afterFrame_hdrs (g.fill timestamp adcs).w64
  refine ⟨rfl, ?_, herr, by rw [hts, h1], ?_, ?_, ?_, ?_⟩
  · rw [ReadContext.afterFrame, h0, (WibFrame.w0_fields ..).2.2.1]
    change (if ctx.first then g.id else ctx.wibId) = g.id
    split
    · rfl
    · rename_i hfirst
      exact hid.resolve_left hfirst
  · rw [hcold₀, h3, s1_zero]
    rfl
  · rw [hcold₁, h17, s1_zero]
    rfl
  · rw [ReadContext.afterFrame, h2, (WibFrame.ColdData.s0_fields _).2.2.2]
    rfl
  · rw [ReadContext.afterFrame, h16, (WibFrame.ColdData.s0_fields _).2.2.2]
    rfl

/-- The status of a frame that is as expected. -/
theorem headerStatus_expected {ctx : ReadContext} {g : WibFrameCreate} {timestamp : BitVec 64}
    (h : Expects ctx g timestamp) (adcs : Nat → BitVec 16) (runEnable : Bool) :
    headerStatus ctx runEnable (g.fill timestamp adcs).w64 = setIf (!runEnable) 0 RunDisable := by
  obtain ⟨h0, h1, h2, h3, h16, h17⟩ := fill_headers g timestamp adcs
  obtain ⟨hcomma, hversion, hid, herr⟩ := WibFrame.w0_fields WibFrame.K28_5 g.id g.rsvd g.error
  have hcold (st : BitVec 32) (cvtcnt : BitVec 16) (prv : BitVec 64) (off : Nat)
      (hprv : WibFrame.ColdData.hdrs prv = 0) :
      colddataStatus st (WibFrame.ColdData.s0 0 0 0 0 cvtcnt) (WibFrame.ColdData.s1 0 0) prv
        cvtcnt off = st := by
    obtain ⟨hs1, hs2, hr, hcnt⟩ := WibFrame.ColdData.s0_fields cvtcnt
    rw [colddataStatus, evalColddata0, evalColddata1, hs1, hs2, hr, hcnt, s1_zero, hprv]
    simp [updateOff, WibFrame.ColdData.errReg, WibFrame.ColdData.rsvd1, WibFrame.ColdData.hdrs]
  unfold headerStatus
  rw [h.first, h.wibId, h.timestamp, h.cvtCnt0, h.cvtCnt1, h0, h1, h2, h3, h16, h17]
  dsimp only
  rw [hcold _ _ _ _ h.hdrs0, hcold _ _ _ _ h.hdrs1, evalWib0, evalWib1, if_neg Bool.false_ne_true,
    hcomma, hversion, hid, herr, h.error]
  simp only [bne_self_eq_false]
  cases runEnable <;> decide

/-! ## Sequences of frames -/

/-- The status of a frame without errors: only the two state bits. -/
def stateStatus (flags : FrameFlags) : BitVec 32 :=
  setIf flags.flush (setIf (!flags.runEnable) 0 RunDisable) Flush

theorem stateStatus_bits (flags : FrameFlags) {bit : Nat}
    (h : (stateStatus flags).getLsbD bit = true) : bit = RunDisable ∨ bit = Flush := by
  have hlt : bit < 32 := BitVec.lt_of_getLsbD h
  revert h
  obtain ⟨runEnable, flush⟩ := flags
  simp only [stateStatus, setIf, ReadStatus.set, RunDisable, Flush]
  cases runEnable <;> cases flush <;> simp [BitVec.getLsbD_twoPow] <;> omega

/-- One call takes a generated frame from the stream. -/
theorem readFrame_fillFrame (ctx : ReadContext) (d w64 : Nat → BitVec 64) (flags : FrameFlags)
    (rest : List AxisIn) :
    ∃ frame, readFrame ctx d (fillFrame w64 flags ++ rest) =
        some (frame, ctx.afterFrame w64, rest) ∧
      frame.status = setIf flags.flush (headerStatus ctx flags.runEnable w64) Flush ∧
      ∀ i < 30, frame.d i = w64 i := by
  obtain ⟨d', hread, hd⟩ := readFrame_spec (framed_frameWord w64 flags) ctx d rest
  have hflush : (frameWord w64 flags 29).flush = flags.flush := (lastUser_bits flags.flush).2.2
  rw [hflush, frameWord_runEnable] at hread
  refine ⟨_, hread, rfl, hd⟩

theorem length_fillFrame (w64 : Nat → BitVec 64) (flags : FrameFlags) :
    (fillFrame w64 flags).length = 30 := rfl

/-- A frame of the checker that carries the words of a generated one and took 30 words. -/
def Delivers (f : (Nat → BitVec 64) × FrameFlags) (r : StatusFrame × Nat) : Prop :=
  r.2 = 30 ∧ ∀ i < 30, r.1.d i = f.1 i

/-- One more frame in front of a stream. -/
theorem readFrames_cons {k : Nat} {ctx ctx' : ReadContext} {d w64 : Nat → BitVec 64}
    {flags : FrameFlags} {rest rest' : List AxisIn} {frame : StatusFrame}
    {frames : List (StatusFrame × Nat)}
    (hread : readFrame ctx d (fillFrame w64 flags ++ rest) =
      some (frame, ctx.afterFrame w64, rest))
    (hrest : readFrames k (ctx.afterFrame w64) frame.d rest = some (frames, ctx', rest')) :
    readFrames (k + 1) ctx d (fillFrame w64 flags ++ rest) =
      some ((frame, 30) :: frames, ctx', rest') := by
  have hlen : (fillFrame w64 flags ++ rest).length - rest.length = 30 := by
    rw [List.length_append, length_fillFrame, Nat.add_sub_cancel]
  rw [readFrames, hread]
  change (readFrames k (ctx.afterFrame w64) frame.d rest >>= _) = _
  rw [hrest, hlen]
  rfl

/-- Every frame passes once the checker expects the next one. -/
theorem expected_frames_pass (xs : List FrameInput) {ctx : ReadContext} {g : WibFrameCreate}
    {timestamp : BitVec 64} (h : Expects ctx g timestamp) (d : Nat → BitVec 64) :
    ∃ frames ctx', readFrames xs.length ctx d (inputStream (generate g timestamp xs)) =
        some (frames, ctx', []) ∧
      List.Forall₂ (fun f r => Delivers f r ∧ r.1.status = stateStatus f.2)
        (generate g timestamp xs) frames := by
  induction xs generalizing ctx g timestamp d with
  | nil => exact ⟨[], ctx, rfl, .nil⟩
  | cons x xs ih =>
      obtain ⟨frame, hread, hst, hd⟩ := readFrame_fillFrame ctx d (g.fill timestamp x.adcs).w64
        x.flags (inputStream (generate (g.fill timestamp x.adcs) (timestamp + 25) xs))
      obtain ⟨frames, ctx', hrest, hall⟩ :=
        ih (expects_fill ctx g timestamp x.adcs h.error (.inr h.wibId)) frame.d
      rw [headerStatus_expected h] at hst
      exact ⟨(frame, 30) :: frames, ctx', readFrames_cons hread hrest,
        .cons ⟨⟨rfl, hd⟩, hst⟩ hall⟩

/-- A frame with the right status reports no error. -/
theorem no_error_of_forall₂ {gs : List ((Nat → BitVec 64) × FrameFlags)}
    {frames : List (StatusFrame × Nat)}
    (h : List.Forall₂ (fun f r => Delivers f r ∧ r.1.status = stateStatus f.2) gs frames) :
    ∀ r ∈ frames, ∀ bit, r.1.status.getLsbD bit = true → bit = RunDisable ∨ bit = Flush := by
  induction h with
  | nil => exact fun r hr => absurd hr List.not_mem_nil
  | cons hhead _ ih =>
      intro r hr bit hbit
      rcases List.mem_cons.mp hr with rfl | hr
      · rw [hhead.2] at hbit
        exact stateStatus_bits _ hbit
      · exact ih r hr bit hbit

/-- The checker on any sequence of generated frames: each call takes its 30 words and delivers
them, and after the first one no call reports an error. -/
theorem generated_frames_pass (id : BitVec 11) (timestamp : BitVec 64) (xs : List FrameInput)
    (w64 d hdrs : Nat → BitVec 64) :
    ∃ frames ctx', readFrames xs.length (ReadContext.new hdrs) d
          (inputStream (generate (WibFrameCreate.new id w64) timestamp xs)) =
        some (frames, ctx', []) ∧
      List.Forall₂ Delivers (generate (WibFrameCreate.new id w64) timestamp xs) frames ∧
      ∀ r ∈ frames.tail, ∀ bit, r.1.status.getLsbD bit = true → bit = RunDisable ∨ bit = Flush := by
  cases xs with
  | nil => exact ⟨[], _, rfl, .nil, fun r hr => absurd hr List.not_mem_nil⟩
  | cons x xs =>
      obtain ⟨frame, hread, -, hd⟩ := readFrame_fillFrame (ReadContext.new hdrs) d
        ((WibFrameCreate.new id w64).fill timestamp x.adcs).w64 x.flags
        (inputStream (generate ((WibFrameCreate.new id w64).fill timestamp x.adcs)
          (timestamp + 25) xs))
      obtain ⟨frames, ctx', hrest, hall⟩ := expected_frames_pass xs
        (expects_fill (ReadContext.new hdrs) (WibFrameCreate.new id w64) timestamp x.adcs rfl
          (.inl rfl)) frame.d
      exact ⟨(frame, 30) :: frames, ctx', readFrames_cons hread hrest,
        .cons ⟨rfl, hd⟩ (hall.imp fun _ _ h => h.1), no_error_of_forall₂ hall⟩

end ProtoDune.Firmware
