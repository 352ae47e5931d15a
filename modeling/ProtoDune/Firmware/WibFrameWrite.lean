import Mathlib.Data.List.Basic
import Mathlib.Data.List.Flatten
import ProtoDune.Firmware.Axis

/-!
# `WibFrame-Write.h`: the uncompressed output

`write_frame` copies the frames that are not dropped to the output stream and
ends a packet with every 1024th of them. `Wrote s frames packets pending` says
what the state `s` means after the input `frames`: the frames that were not
dropped are those of the finished `packets` and those `pending` in the open one.

Main results:

* `Wrote.writeFrame` — one call keeps the description.
* `write_frames` — every run, with the shape of the packets and the counters.
-/

namespace ProtoDune.Firmware

/-- The parts of a `ReadFrame` that are written: 30 data words and the status. -/
structure ReadFrame where
  d : Nat → BitVec 64
  wstatus : BitVec 32

/-- `sizeof (WibFrame) / sizeof (uint64_t)`. -/
def frameWords : Nat := 30

/-- `MonitorWrite`, counters of 32 bits. -/
structure MonitorWrite where
  nbytes : Nat
  npromoted : Nat
  ndropped : Nat
  npackets : Nat
deriving DecidableEq

/-- The static variables of `write_frame`, the two monitors and the output. -/
structure WriteState where
  first : Bool
  odx : Nat
  fdx : Nat
  summary : BitVec 32
  lcl : MonitorWrite
  gbl : MonitorWrite
  axis : List AxisOut

/-- `ReadStatus::Offset::RunDisable`. -/
def RunDisable : Nat := 0x18

/-- `ReadStatus::Offset::Flush`. -/
def Flush : Nat := 0x19

/-- Whether a frame is written. -/
def ReadFrame.writeIt (frame : ReadFrame) : Bool :=
  !(frame.wstatus.getLsbD RunDisable || frame.wstatus.getLsbD Flush)

/-- `COPYFRAME_LOOP`, with `k` words to go from `idx` on. -/
def copyFrame (frame : ReadFrame) : Nat → Nat → BitVec 4 → List AxisOut → Nat →
    List AxisOut × Nat
  | 0, _, _, axis, odx => (axis, odx)
  | k + 1, idx, axisFirst, axis, odx =>
      let (axis, odx) := commit axis odx true (frame.d idx) axisFirst false
      copyFrame frame k (idx + 1) 0 axis odx

/-- `write_frame`. -/
def writeFrame (s : WriteState) (frame : ReadFrame) : WriteState :=
  let lcl := if s.first then ⟨0, 0, 0, 0⟩ else s.lcl
  let status := frame.wstatus
  if frame.writeIt then
    let lcl := { lcl with npromoted := (lcl.npromoted + 1) % 2 ^ 32 }
    let fdx := s.fdx + 1
    let summary := if s.odx = 0 then status else s.summary ||| status
    let axisFirst := if s.odx = 0 then axisSof else 0
    let (axis, odx) := copyFrame frame frameWords 0 axisFirst s.axis s.odx
    if odx ≠ 0 ∧ fdx &&& 0x3ff = 0 then
      let (axis, odx) := epilogue axis odx .WIB summary
      let lcl := { lcl with
        nbytes := (lcl.nbytes + odx * 8) % 2 ^ 32
        npackets := (lcl.npackets + 1) % 2 ^ 32 }
      { first := false, odx := 0, fdx := 0, summary, lcl, gbl := lcl, axis }
    else
      { first := false, odx, fdx, summary, lcl, gbl := lcl, axis }
  else
    let lcl := { lcl with ndropped := (lcl.ndropped + 1) % 2 ^ 32 }
    { s with first := false, lcl, gbl := lcl }

/-- The state before the first call; the monitors and the summary hold anything. -/
def WriteState.initial (lcl gbl : MonitorWrite) (summary : BitVec 32) : WriteState :=
  { first := true, odx := 0, fdx := 0, summary, lcl, gbl, axis := [] }

/-! ## What is written -/

/-- The words of the frames. -/
def dataWords (frames : List ReadFrame) : List (BitVec 64) :=
  frames.flatMap fun frame => (List.range frameWords).map frame.d

/-- Output words for `ws`, the first one marked as start of frame. -/
def sofFirst : List (BitVec 64) → List AxisOut
  | [] => []
  | w :: ws => ⟨w, 0xff, axisSof, false⟩ :: ws.map fun w => ⟨w, 0xff, 0, false⟩

/-- The union of the statuses. -/
def summaryOf (frames : List ReadFrame) : BitVec 32 :=
  frames.foldl (fun acc frame => acc ||| frame.wstatus) 0

/-- The packet of the frames. -/
def packetWords (frames : List ReadFrame) : List AxisOut :=
  sofFirst (dataWords frames) ++ epilogueWords .WIB (summaryOf frames) (frameWords * frames.length)

theorem length_dataWords (frames : List ReadFrame) :
    (dataWords frames).length = frameWords * frames.length := by
  induction frames with
  | nil => rfl
  | cons frame frames ih =>
      simp only [dataWords, List.flatMap_cons, List.length_append, List.length_map,
        List.length_range, List.length_cons] at ih ⊢
      rw [ih, Nat.mul_succ, Nat.add_comm]

theorem length_sofFirst (ws : List (BitVec 64)) : (sofFirst ws).length = ws.length := by
  cases ws with
  | nil => rfl
  | cons w ws => simp [sofFirst]

theorem dataWords_snoc (frames : List ReadFrame) (frame : ReadFrame) :
    dataWords (frames ++ [frame]) = dataWords frames ++ (List.range frameWords).map frame.d := by
  simp [dataWords]

theorem summaryOf_snoc (frames : List ReadFrame) (frame : ReadFrame) :
    summaryOf (frames ++ [frame]) = summaryOf frames ||| frame.wstatus := by
  simp [summaryOf]

/-- Words after the first are not marked. -/
theorem sofFirst_append {ws : List (BitVec 64)} (hne : ws ≠ []) (vs : List (BitVec 64)) :
    sofFirst (ws ++ vs) = sofFirst ws ++ vs.map fun w => ⟨w, 0xff, 0, false⟩ := by
  cases ws with
  | nil => exact absurd rfl hne
  | cons w ws => simp [sofFirst]

/-- The copy loop without a mark. -/
theorem copyFrame_zero (frame : ReadFrame) (k : Nat) : ∀ (idx : Nat) (axis : List AxisOut)
    (odx : Nat), copyFrame frame k idx 0 axis odx =
      (axis ++ (List.range' idx k).map fun i => ⟨frame.d i, 0xff, 0, false⟩, odx + k) := by
  induction k with
  | zero =>
      intro idx axis odx
      simp [copyFrame]
  | succ k ih =>
      intro idx axis odx
      rw [copyFrame, commit, if_pos rfl]
      dsimp only
      rw [ih, List.range'_succ, List.map_cons, List.append_assoc]
      congr 1
      omega

/-- The copy loop marks the first word of the packet. -/
theorem copyFrame_sof (frame : ReadFrame) (axis : List AxisOut) :
    copyFrame frame frameWords 0 axisSof axis 0 =
      (axis ++ sofFirst ((List.range frameWords).map frame.d), frameWords) := by
  have hrange : List.range 30 = 0 :: List.range' 1 29 := rfl
  rw [frameWords, copyFrame, commit, if_pos rfl, hrange]
  dsimp only
  rw [copyFrame_zero, List.append_assoc]
  simp [sofFirst]

/-! ## Runs -/

/-- What the state `s` means after the input `frames`. -/
structure Wrote (s : WriteState) (frames : List ReadFrame) (packets : List (List ReadFrame))
    (pending : List ReadFrame) : Prop where
  kept : frames.filter ReadFrame.writeIt = packets.flatten ++ pending
  full : ∀ p ∈ packets, p.length = 1024
  open_ : pending.length < 1024
  axis : s.axis = packets.flatMap packetWords ++ sofFirst (dataWords pending)
  odx : s.odx = frameWords * pending.length
  fdx : s.fdx = pending.length
  summary : pending ≠ [] → s.summary = summaryOf pending
  first : s.first = frames.isEmpty
  gbl : frames ≠ [] → s.gbl = s.lcl
  lcl : frames ≠ [] → s.lcl =
    { nbytes := 8 * (packets.flatMap packetWords).length % 2 ^ 32
      npromoted := (frames.filter ReadFrame.writeIt).length % 2 ^ 32
      ndropped := (frames.filter fun frame => !frame.writeIt).length % 2 ^ 32
      npackets := packets.length % 2 ^ 32 }

theorem wrote_initial (lcl gbl : MonitorWrite) (summary : BitVec 32) :
    Wrote (.initial lcl gbl summary) [] [] [] where
  kept := rfl
  full p hp := absurd hp List.not_mem_nil
  open_ := by decide
  axis := rfl
  odx := rfl
  fdx := rfl
  summary h := absurd rfl h
  first := rfl
  gbl h := absurd rfl h
  lcl h := absurd rfl h

/-- The monitor before the counting of the next frame. -/
theorem Wrote.counters {s : WriteState} {frames : List ReadFrame}
    {packets : List (List ReadFrame)} {pending : List ReadFrame}
    (h : Wrote s frames packets pending) :
    (if s.first then ⟨0, 0, 0, 0⟩ else s.lcl : MonitorWrite) =
      { nbytes := 8 * (packets.flatMap packetWords).length % 2 ^ 32
        npromoted := (frames.filter ReadFrame.writeIt).length % 2 ^ 32
        ndropped := (frames.filter fun frame => !frame.writeIt).length % 2 ^ 32
        npackets := packets.length % 2 ^ 32 } := by
  rw [h.first]
  cases frames with
  | nil =>
      -- nothing was written yet
      have hnil := h.kept
      rw [List.filter_nil, eq_comm, List.append_eq_nil_iff] at hnil
      have hpackets : packets = [] := by
        rw [List.eq_nil_iff_forall_not_mem]
        intro p hp
        have hlen := h.full p hp
        rw [List.flatten_eq_nil_iff.mp hnil.1 p hp] at hlen
        exact absurd hlen (by decide)
      subst hpackets
      rfl
  | cons frame frames =>
      rw [List.isEmpty_cons, if_neg (by decide)]
      exact h.lcl (List.cons_ne_nil _ _)

/-- **One call** drops the frame, adds it to the open packet, or ends that. -/
theorem Wrote.writeFrame {s : WriteState} {frames : List ReadFrame}
    {packets : List (List ReadFrame)} {pending : List ReadFrame}
    (h : Wrote s frames packets pending) (frame : ReadFrame) :
    ∃ packets' pending', Wrote (writeFrame s frame) (frames ++ [frame]) packets' pending' := by
  have hcount := h.counters
  have hopen := h.open_
  unfold Firmware.writeFrame
  dsimp only
  rw [hcount]
  by_cases hw : frame.writeIt = true
  swap
  · -- the frame is dropped
    rw [if_neg hw]
    refine ⟨packets, pending, ?_, h.full, h.open_, h.axis, h.odx, h.fdx, h.summary, ?_, ?_, ?_⟩
    · rw [List.filter_append, h.kept]
      simp [hw]
    · simp
    · intro _
      rfl
    · intro _
      simp [List.filter_append, hw]
  rw [if_pos hw]
  -- the frame is copied
  have hcopy : copyFrame frame frameWords 0 (if s.odx = 0 then axisSof else 0) s.axis s.odx =
      (packets.flatMap packetWords ++ sofFirst (dataWords (pending ++ [frame])),
        frameWords * (pending ++ [frame]).length) := by
    rw [h.odx, h.axis, dataWords_snoc]
    cases pending with
    | nil =>
        rw [List.length_nil, Nat.mul_zero, if_pos rfl, copyFrame_sof]
        simp [dataWords, sofFirst]
    | cons f fs =>
        have hpos : frameWords * (f :: fs).length ≠ 0 := by simp [frameWords]
        have hne : dataWords (f :: fs) ≠ [] := by
          rw [← List.length_pos_iff, length_dataWords]
          omega
        rw [if_neg hpos, copyFrame_zero, sofFirst_append hne, List.append_assoc, List.map_map,
          List.range_eq_range', List.length_append, Nat.mul_add]
        rfl
  have hsum : (if s.odx = 0 then frame.wstatus else s.summary ||| frame.wstatus) =
      summaryOf (pending ++ [frame]) := by
    rw [summaryOf_snoc, h.odx]
    cases pending with
    | nil => simp [summaryOf]
    | cons f fs =>
        rw [if_neg (by simp [frameWords]), h.summary (List.cons_ne_nil _ _)]
  have hlen : (pending ++ [frame]).length = pending.length + 1 := by simp
  have hkept : (frames ++ [frame]).filter ReadFrame.writeIt =
      packets.flatten ++ (pending ++ [frame]) := by
    rw [List.filter_append, h.kept]
    simp [hw]
  have hdropped : (frames ++ [frame]).filter (fun frame => !frame.writeIt) =
      frames.filter fun frame => !frame.writeIt := by
    simp [List.filter_append, hw]
  have hmask : (pending.length + 1 &&& 0x3ff) = (pending.length + 1) % 1024 :=
    Nat.and_two_pow_sub_one_eq_mod _ 10
  rw [hcopy, hsum, h.fdx, hlen, hmask]
  dsimp only
  by_cases hfull : pending.length + 1 = 1024
  · -- the packet is complete
    rw [hfull, if_pos (by decide), epilogue_eq]
    have hpacket : packetWords (pending ++ [frame]) = sofFirst (dataWords (pending ++ [frame])) ++
        epilogueWords .WIB (summaryOf (pending ++ [frame])) (frameWords * 1024) := by
      rw [packetWords, hlen, hfull]
    have hwords : (packetWords (pending ++ [frame])).length = frameWords * 1024 + 2 := by
      rw [hpacket, List.length_append, length_sofFirst, length_dataWords, hlen, hfull]
      rfl
    refine ⟨packets ++ [pending ++ [frame]], [], ?_, ?_, by simp, ?_, rfl, rfl,
      fun hne => absurd rfl hne, by simp, fun _ => rfl, fun _ => ?_⟩
    · rw [hkept]
      simp
    · intro p hp
      rcases List.mem_append.mp hp with hp | hp
      · exact h.full p hp
      · rw [List.mem_singleton.mp hp, hlen, hfull]
    · simp [hpacket, dataWords, sofFirst]
    · rw [hdropped, hkept, h.kept]
      simp only [List.flatMap_append, List.flatMap_singleton, List.length_append, hwords,
        List.length_singleton, MonitorWrite.mk.injEq]
      refine ⟨?_, ?_, trivial, ?_⟩
      all_goals omega
  · -- the packet stays open
    have hmod : ¬ (frameWords * (pending.length + 1) ≠ 0 ∧ (pending.length + 1) % 1024 = 0) := by
      rintro ⟨-, hzero⟩
      omega
    rw [if_neg hmod]
    refine ⟨packets, pending ++ [frame], hkept, h.full, by omega, rfl, by rw [hlen], by rw [hlen],
      fun _ => rfl, by simp, fun _ => rfl, fun _ => ?_⟩
    rw [hdropped, hkept, h.kept]
    simp only [List.length_append, List.length_singleton, MonitorWrite.mk.injEq]
    refine ⟨trivial, ?_, trivial, trivial⟩
    omega

/-- `write_frame` for each frame of the input. -/
def writeFrames (s : WriteState) (frames : List ReadFrame) : WriteState :=
  frames.foldl writeFrame s

theorem Wrote.writeFrames {s : WriteState} {frames : List ReadFrame}
    {packets : List (List ReadFrame)} {pending : List ReadFrame}
    (h : Wrote s frames packets pending) (more : List ReadFrame) :
    ∃ packets' pending', Wrote (writeFrames s more) (frames ++ more) packets' pending' := by
  induction more generalizing s frames packets pending with
  | nil =>
      rw [List.append_nil]
      exact ⟨packets, pending, h⟩
  | cons frame more ih =>
      obtain ⟨packets', pending', hstep⟩ := h.writeFrame frame
      rw [← List.singleton_append, ← List.append_assoc]
      exact ih hstep

/-- The shape of a packet: its size, its marks, and the trailer words with the
union of the statuses and the byte count. -/
structure PacketShape (frames : List ReadFrame) (ws : List AxisOut) : Prop where
  length : ws.length = 1024 * 30 + 2
  data : (ws.take (1024 * 30)).map AxisOut.data = dataWords frames
  sof : ∀ i w, ws[i]? = some w → (w.user = axisSof ↔ i = 0)
  last : ∀ i w, ws[i]? = some w → (w.last = true ↔ i + 1 = ws.length)
  status : ws[1024 * 30]?.map AxisOut.data =
    some (statusId .WIB (summaryOf frames) (8 * ws.length))
  trailer : ws[1024 * 30 + 1]?.map AxisOut.data = some trailer

theorem map_data_sofFirst (ws : List (BitVec 64)) : (sofFirst ws).map AxisOut.data = ws := by
  cases ws with
  | nil => rfl
  | cons w ws => simp [sofFirst, Function.comp_def]

theorem sofFirst_marks {ws : List (BitVec 64)} {i : Nat} {w : AxisOut}
    (h : (sofFirst ws)[i]? = some w) : (w.user = axisSof ↔ i = 0) ∧ w.last = false := by
  cases ws with
  | nil => cases h
  | cons v ws =>
      cases i with
      | zero =>
          obtain rfl := Option.some.inj h
          simp
      | succ i =>
          rw [sofFirst, List.getElem?_cons_succ, List.getElem?_map, Option.map_eq_some_iff] at h
          obtain ⟨v', -, rfl⟩ := h
          simp [axisSof]

/-- A word of a packet is a data word or one of the two at the end. -/
theorem packetWords_getElem {frames : List ReadFrame} (hlen : frames.length = 1024) {i : Nat}
    {w : AxisOut} (h : (packetWords frames)[i]? = some w) :
    (i < 1024 * 30 ∧ (sofFirst (dataWords frames))[i]? = some w) ∨
      (i = 1024 * 30 ∧ w = ⟨statusId .WIB (summaryOf frames) 245776, 0xff, 0, false⟩) ∨
      (i = 1024 * 30 + 1 ∧ w = ⟨trailer, 0xff, 0, true⟩) := by
  have hdata : (sofFirst (dataWords frames)).length = 1024 * 30 := by
    rw [length_sofFirst, length_dataWords, hlen]
    rfl
  unfold packetWords at h
  rw [hlen] at h
  by_cases hi : i < 1024 * 30
  · rw [List.getElem?_append_left (by omega)] at h
    exact .inl ⟨hi, h⟩
  · rw [List.getElem?_append_right (by omega), hdata] at h
    right
    obtain ⟨j, rfl⟩ : ∃ j, i = 1024 * 30 + j := ⟨i - 1024 * 30, by omega⟩
    rw [Nat.add_sub_cancel_left] at h
    rcases epilogueWords_getElem h with ⟨rfl, rfl⟩ | ⟨rfl, rfl⟩
    · exact .inl ⟨rfl, rfl⟩
    · exact .inr ⟨rfl, rfl⟩

/-- The packets have their shape. -/
theorem packetShape {frames : List ReadFrame} (hlen : frames.length = 1024) :
    PacketShape frames (packetWords frames) := by
  have hdata : (sofFirst (dataWords frames)).length = 1024 * 30 := by
    rw [length_sofFirst, length_dataWords, hlen]
    rfl
  have hlength : (packetWords frames).length = 1024 * 30 + 2 := by
    rw [packetWords, List.length_append, hdata]
    rfl
  refine ⟨hlength, ?_, ?_, ?_, ?_, ?_⟩
  · rw [packetWords, List.take_left' hdata, map_data_sofFirst]
  · intro i w hw
    rcases packetWords_getElem hlen hw with ⟨-, hw⟩ | ⟨rfl, rfl⟩ | ⟨rfl, rfl⟩
    · exact (sofFirst_marks hw).1
    · simp [axisSof]
    · simp [axisSof]
  · intro i w hw
    rw [hlength]
    rcases packetWords_getElem hlen hw with ⟨hi, hw⟩ | ⟨rfl, rfl⟩ | ⟨rfl, rfl⟩
    · rw [(sofFirst_marks hw).2]
      simp
      omega
    · simp
    · simp
  · rw [hlength, packetWords, List.getElem?_append_right (by omega), hdata, hlen]
    rfl
  · rw [packetWords, List.getElem?_append_right (by omega), hdata, hlen]
    rfl

/-- **Every run.** The frames that are not dropped go to packets of 1024 of
them each, and the rest to an open packet, in order; the output is these packets
and the words of the open one. Every frame is counted once, as promoted or
dropped, and the bytes counted are those of the packets (modulo 2^32). -/
theorem write_frames (frames : List ReadFrame) (lcl gbl : MonitorWrite) (summary : BitVec 32) :
    let s := writeFrames (.initial lcl gbl summary) frames
    ∃ (packets : List (List ReadFrame)) (pending : List ReadFrame),
      frames.filter ReadFrame.writeIt = packets.flatten ++ pending ∧ pending.length < 1024 ∧
      (∀ p ∈ packets, p.length = 1024 ∧ PacketShape p (packetWords p)) ∧
      s.axis = packets.flatMap packetWords ++ sofFirst (dataWords pending) ∧
      (frames ≠ [] → s.gbl = s.lcl ∧
        s.lcl.npackets = packets.length % 2 ^ 32 ∧
        s.lcl.nbytes = 8 * (packets.flatMap packetWords).length % 2 ^ 32 ∧
        s.lcl.npromoted = (frames.filter ReadFrame.writeIt).length % 2 ^ 32 ∧
        s.lcl.ndropped = (frames.filter fun frame => !frame.writeIt).length % 2 ^ 32 ∧
        (s.lcl.npromoted + s.lcl.ndropped) % 2 ^ 32 = frames.length % 2 ^ 32) := by
  obtain ⟨packets, pending, h⟩ := (wrote_initial lcl gbl summary).writeFrames frames
  rw [List.nil_append] at h
  refine ⟨packets, pending, h.kept, h.open_, ?_, h.axis, ?_⟩
  · intro p hp
    exact ⟨h.full p hp, packetShape (h.full p hp)⟩
  · intro hne
    have hlcl := h.lcl hne
    have hsplit := List.length_eq_length_filter_add (l := frames) ReadFrame.writeIt
    refine ⟨h.gbl hne, ?_⟩
    rw [hlcl]
    refine ⟨rfl, rfl, rfl, rfl, ?_⟩
    rw [hsplit]
    exact (Nat.add_mod _ _ _).symm

end ProtoDune.Firmware
