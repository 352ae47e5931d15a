import ProtoDune.Daq.FrameData
import ProtoDune.Daq.Ranges
import ProtoDune.Firmware.CompressionCore

/-!
# The packets of the firmware in the receive loop

The receive loop takes the times of a packet from words that the firmware wrote, and its size
and type from the first trailer word. `Received` says what it finds. The status in that word has
a bit for frames of the packet that are not one sample apart; a gap between two packets only the
times show.

Main results:

* `written_received` — the packets of frames that are written as they are.
* `run_received` — the compressed packets of a run, and that every gap in it shows.
-/

namespace ProtoDune.Daq

open WindowSelect
open Firmware (AxisIn AxisOut)

/-! ## `FrameBuffer.h`: the times of a packet -/

namespace FrameBuffer

/-- `getCompressedTimestampRange` -/
def getCompressedTimestampRange (d64 : Nat → Nat) : Span Nat :=
  ⟨d64 2, (d64 3 + TimingClockTicks.PER_SAMPLE) % 2 ^ 64⟩

/-- `getWibFrameTimestampRange`, of a packet that has a frame before the two trailer words. -/
def getWibFrameTimestampRange (d64 : Nat → Nat) (nbytes : Nat) : Span Nat :=
  let last := nbytes / 8 - 30 - 1 - 1
  ⟨d64 1, (d64 (last + 1) + TimingClockTicks.PER_SAMPLE) % 2 ^ 64⟩

/-- `getTimestampRange`; none where it returns `false`. -/
def getTimestampRange (d64 : Nat → Nat) (nbytes : Nat) : Option (Span Nat) :=
  let tlr := getTrailer d64 nbytes
  if getFrameType tlr = TypeData then
    let recType := getDataType tlr
    if recType = DataType.Compressed then some (getCompressedTimestampRange d64)
    else if recType = DataType.WibFrame then some (getWibFrameTimestampRange d64 nbytes)
    else none
  else none

end FrameBuffer

/-- The transfer of a packet: the buffer, its list and the last user bits, what the buffer holds
behind the packet, and what `timestampRange` holds before. -/
structure DmaRead where
  index : Nat
  dest : Dest
  lastUser : BitVec 8
  behind : Nat → Nat
  timestampRange : Span Nat

/-- The words of the buffer, `data`. -/
def DmaRead.data (t : DmaRead) (words : List AxisOut) (i : Nat) : Nat :=
  match words[i]? with
  | some w => w.data.toNat
  | none => t.behind i

/-- What `rxRun` reads of the packet: the size is taken from the word before `dend`, and
`timestampRange` stays as it is where `getTimestampRange` fails. -/
def DmaRead.msg (t : DmaRead) (words : List AxisOut) : DataMsg :=
  let rxSize := 8 * words.length
  let dend := (rxSize - 8) / 8
  { index := t.index
    dest := t.dest
    lastUser := t.lastUser
    rxSize
    trailer := BitVec.ofNat 64 (t.data words (dend - 1))
    tsRange := (FrameBuffer.getTimestampRange (t.data words) rxSize).getD t.timestampRange }

/-- The status in the first trailer word. -/
def DataMsg.status (d : DataMsg) : BitVec 32 := d.trailer.extractLsb' 32 32

/-! ## The first trailer word -/

section Trailer

variable {dataType : Firmware.DataType} {n : Nat}

theorem code_lt (dataType : Firmware.DataType) : dataType.code < 4 := by
  cases dataType <;> decide

theorem toNat_identifier (hn : n < 2 ^ 24) :
    (Firmware.identifier dataType n).toNat = (16 + dataType.code) * 2 ^ 24 + n := by
  have htype : 1#32 <<< 28 ||| BitVec.ofNat 32 dataType.code <<< 24 =
      BitVec.ofNat 32 ((16 + dataType.code) * 2 ^ 24) := by
    cases dataType <;> decide
  have hcode : (16 + dataType.code) * 2 ^ 24 < 2 ^ 32 := by
    have := code_lt dataType
    omega
  have hfits : n < 2 ^ 32 := Nat.lt_trans hn (by decide)
  rw [Firmware.identifier, htype, BitVec.toNat_or, BitVec.toNat_ofNat, BitVec.toNat_ofNat,
    Nat.mod_eq_of_lt hcode, Nat.mod_eq_of_lt hfits, ← Nat.shiftLeft_eq,
    ← Nat.shiftLeft_add_eq_or_of_lt hn]

/-- The status is in the upper half. -/
theorem toNat_statusId (dataType : Firmware.DataType) (status : BitVec 32) (hn : n < 2 ^ 24) :
    (Firmware.statusId dataType status n).toNat =
      status.toNat * 2 ^ 32 + ((16 + dataType.code) * 2 ^ 24 + n) := by
  have hid : (Firmware.identifier dataType n).toNat = _ := toNat_identifier hn
  have hlow : (Firmware.identifier dataType n).toNat < 2 ^ 32 := BitVec.isLt _
  have hstatus : status.toNat * 2 ^ 32 < 2 ^ 64 := by
    have := status.isLt
    omega
  have hwide (x : BitVec 32) : x.toNat < 2 ^ 64 := Nat.lt_trans x.isLt (by decide)
  rw [Firmware.statusId, BitVec.toNat_or, BitVec.toNat_shiftLeft, BitVec.toNat_setWidth,
    BitVec.toNat_setWidth, Nat.mod_eq_of_lt (hwide _), Nat.mod_eq_of_lt (hwide _),
    Nat.shiftLeft_eq, Nat.mod_eq_of_lt hstatus, ← Nat.shiftLeft_eq,
    ← Nat.shiftLeft_add_eq_or_of_lt hlow, Nat.shiftLeft_eq, hid]

theorem getFrameType_statusId (dataType : Firmware.DataType) (status : BitVec 32)
    (hn : n < 2 ^ 24) :
    FrameBuffer.getFrameType (Firmware.statusId dataType status n).toNat =
      FrameBuffer.TypeData := by
  have hmask (x : Nat) : x &&& 0xf = x % 16 := Nat.and_two_pow_sub_one_eq_mod x 4
  have hcode := code_lt dataType
  rw [FrameBuffer.getFrameType, toNat_statusId dataType status hn, Nat.shiftRight_eq_div_pow,
    hmask, FrameBuffer.TypeData]
  omega

theorem getDataType_statusId (dataType : Firmware.DataType) (status : BitVec 32)
    (hn : n < 2 ^ 24) :
    FrameBuffer.getDataType (Firmware.statusId dataType status n).toNat = dataType.code := by
  have hmask (x : Nat) : x &&& 0xf = x % 16 := Nat.and_two_pow_sub_one_eq_mod x 4
  have hcode := code_lt dataType
  rw [FrameBuffer.getDataType, toNat_statusId dataType status hn, Nat.shiftRight_eq_div_pow, hmask]
  omega

/-- The size is in the lowest three bytes. -/
theorem size_statusId (dataType : Firmware.DataType) (status : BitVec 32) (hn : n < 2 ^ 24) :
    (Firmware.statusId dataType status n &&& 0xffffff).toNat = n := by
  have hmask (x : Nat) : x &&& 0xffffff = x % 2 ^ 24 := Nat.and_two_pow_sub_one_eq_mod x 24
  have hconst : (0xffffff : BitVec 64).toNat = 0xffffff := rfl
  rw [BitVec.toNat_and, toNat_statusId dataType status hn, hconst, hmask]
  omega

theorem status_statusId (dataType : Firmware.DataType) (status : BitVec 32) (hn : n < 2 ^ 24) :
    (Firmware.statusId dataType status n).extractLsb' 32 32 = status := by
  have hid : (16 + dataType.code) * 2 ^ 24 + n < 2 ^ 32 := by
    have := code_lt dataType
    omega
  refine BitVec.eq_of_toNat_eq ?_
  rw [BitVec.extractLsb'_toNat, toNat_statusId dataType status hn, Nat.shiftRight_eq_div_pow,
    Nat.mul_comm, Nat.mul_add_div (Nat.two_pow_pos 32), Nat.div_eq_of_lt hid, Nat.add_zero,
    Nat.mod_eq_of_lt status.isLt]

end Trailer

/-! ## The timestamps of the frames -/

/-- The frames of a packet are one sample apart. -/
def Steady (src : Nat → Nat → AxisIn) : Prop :=
  ∀ i < 1023, (src (i + 1) 1).data = (src i 1).data + 25

theorem raises_timestamp_iff {ctx : Firmware.ReadContext} {src : Nat → AxisIn} :
    Firmware.Raises ctx src Firmware.ReadStatus.ErrWibTimestamp ↔ (src 1).data ≠ ctx.hdrs 1 := by
  constructor
  · intro h
    obtain ⟨i, -, hi⟩ := List.mem_flatMap.mp h
    rcases List.mem_append.mp hi with hframing | hheader
    · -- the checks of the framing have other bits
      unfold Firmware.framingChecks at hframing
      exfalso
      split at hframing
      · simp [Firmware.ReadStatus.ErrWibTimestamp, Firmware.ReadStatus.ErrSofM,
          Firmware.ReadStatus.ErrEofU, Firmware.RunDisable] at hframing
      · split at hframing
        · simp [Firmware.ReadStatus.ErrWibTimestamp, Firmware.ReadStatus.ErrSofU, Firmware.Flush,
            Firmware.ReadStatus.ErrEofM, Firmware.ReadStatus.ErrEofE] at hframing
        · simp [Firmware.ReadStatus.ErrWibTimestamp, Firmware.ReadStatus.ErrSofU,
            Firmware.ReadStatus.ErrEofU] at hframing
    · unfold Firmware.headerChecks at hheader
      split at hheader
      case h_2 => exact bne_iff_ne.mp (Prod.mk.inj (List.mem_singleton.mp hheader)).2.symm
      all_goals
        exfalso
        simp [Firmware.ReadStatus.ErrWibTimestamp, Firmware.ReadStatus.ErrWibComma,
          Firmware.ReadStatus.ErrWibVersion, Firmware.ReadStatus.ErrWibId,
          Firmware.ReadStatus.ErrWibErrors, Firmware.colddata0Checks, Firmware.colddata1Checks,
          Firmware.ReadStatus.ErrCd0StrErr1, Firmware.ReadStatus.ErrCd0StrErr2,
          Firmware.ReadStatus.ErrCd0Rsvd0, Firmware.ReadStatus.ErrCd0CvtCnt,
          Firmware.ReadStatus.ErrCd0ErrReg, Firmware.ReadStatus.ErrCd0Rsvd1,
          Firmware.ReadStatus.ErrCd0Hdrs] at hheader
  · intro hne
    refine List.mem_flatMap.mpr ⟨1, List.mem_range.mpr (by omega), List.mem_append_right _ ?_⟩
    exact List.mem_singleton.mpr (Prod.ext rfl (bne_iff_ne.mpr hne).symm)

/-- The status of a packet has the timestamp bit unless its frames are one sample apart. -/
theorem timestamp_status {ctx : Firmware.ReadContext} {src : Nat → Nat → AxisIn}
    {status : BitVec 32} (h : Firmware.HasStatus ctx src status) :
    status.getLsbD Firmware.ReadStatus.ErrWibTimestamp = false ↔ Steady src := by
  have hraised (i : Nat) :
      Firmware.RaisedBy ctx src (i + 1) Firmware.ReadStatus.ErrWibTimestamp ↔
        (src (i + 1) 1).data ≠ (src i 1).data + 25 := raises_timestamp_iff
  rw [Bool.eq_false_iff, Ne, h]
  constructor
  · intro hnone i hi
    by_contra hne
    exact hnone (.inr ⟨i + 1, Nat.succ_pos i, by omega, (hraised i).mpr hne⟩)
  · rintro hsteady (⟨hlt, -⟩ | ⟨i, hpos, hlt, hi⟩)
    · exact absurd hlt (by decide)
    · obtain ⟨j, rfl⟩ := Nat.exists_eq_succ_of_ne_zero (Nat.ne_of_gt hpos)
      exact (hraised j).mp hi (hsteady j (by omega))

theorem Steady.time_eq {src : Nat → Nat → AxisIn} (h : Steady src) {i : Nat} (hi : i ≤ 1023) :
    (src i 1).data = (src 0 1).data + BitVec.ofNat 64 (25 * i) := by
  induction i with
  | zero => exact (BitVec.add_zero _).symm
  | succ i ih =>
    have hsum : BitVec.ofNat 64 (25 * (i + 1)) = BitVec.ofNat 64 (25 * i) + 25 := by
      rw [Nat.mul_succ, BitVec.ofNat_add]
      rfl
    rw [h i (by omega), ih (by omega), hsum, BitVec.add_assoc]

/-! ## A packet in its buffer -/

/-- What the receive loop finds in a packet of the firmware: the size that was read, the times of
the first and the last frame, the identifier in the header of the first one, the type, and the
status. -/
structure Received (dataType : Firmware.DataType) (hdr first last : BitVec 64)
    (status : BitVec 32) (t : DmaRead) (words : List AxisOut) : Prop where
  size : ((t.msg words).trailer &&& 0xffffff).toNat = (t.msg words).rxSize
  times : (t.msg words).tsRange = ⟨first.toNat, (last + 25).toNat⟩
  wibId : FrameBuffer.getWibIdentifier (t.data words) (t.msg words).rxSize =
    some (Firmware.WibFrame.id hdr).toNat
  format : FrameBuffer.getDataFormat (t.data words) (t.msg words).rxSize = dataType.code
  status : (t.msg words).status = status

/-- The first trailer word of a packet, which has the packet's size. -/
structure HasTrailer (dataType : Firmware.DataType) (status : BitVec 32) (t : DmaRead)
    (words : List AxisOut) : Prop where
  word : t.data words (words.length - 2) =
    (Firmware.statusId dataType status (8 * words.length)).toNat
  length : 2 ≤ words.length
  size : 8 * words.length < 2 ^ 24

theorem DmaRead.data_eq (t : DmaRead) {words : List AxisOut} {i : Nat} {w : BitVec 64}
    (h : (words.map AxisOut.data)[i]? = some w) : t.data words i = w.toNat := by
  rw [List.getElem?_map, Option.map_eq_some_iff] at h
  obtain ⟨out, hout, rfl⟩ := h
  rw [DmaRead.data, hout]

/-- The identifier is the field of the header. -/
theorem wibId_eq (hdr : BitVec 64) :
    hdr.toNat >>> 13 &&& 0x7ff = (Firmware.WibFrame.id hdr).toNat := by
  rw [Firmware.WibFrame.id, BitVec.extractLsb'_toNat]
  exact Nat.and_two_pow_sub_one_eq_mod _ 11

namespace HasTrailer

variable {dataType : Firmware.DataType} {status : BitVec 32} {t : DmaRead}
  {words : List AxisOut}

theorem getTrailer_eq (h : HasTrailer dataType status t words) :
    FrameBuffer.getTrailer (t.data words) (t.msg words).rxSize =
      (Firmware.statusId dataType status (8 * words.length)).toNat := by
  have hidx : 8 * words.length / 8 - 2 = words.length - 2 := by omega
  exact (congrArg (t.data words) hidx).trans h.word

theorem trailer_eq (h : HasTrailer dataType status t words) :
    (t.msg words).trailer = Firmware.statusId dataType status (8 * words.length) := by
  have hidx : (8 * words.length - 8) / 8 - 1 = words.length - 2 := by
    have := h.length
    omega
  have htrailer : (t.msg words).trailer =
      BitVec.ofNat 64 (t.data words ((8 * words.length - 8) / 8 - 1)) := rfl
  rw [htrailer, hidx, h.word, BitVec.ofNat_toNat, BitVec.setWidth_eq]

theorem getFrameType_eq (h : HasTrailer dataType status t words) :
    FrameBuffer.getFrameType (FrameBuffer.getTrailer (t.data words) (t.msg words).rxSize) =
      FrameBuffer.TypeData := by
  rw [h.getTrailer_eq, getFrameType_statusId dataType status h.size]

theorem getDataType_eq (h : HasTrailer dataType status t words) :
    FrameBuffer.getDataType (FrameBuffer.getTrailer (t.data words) (t.msg words).rxSize) =
      dataType.code := by
  rw [h.getTrailer_eq, getDataType_statusId dataType status h.size]

theorem type_compressed (h : HasTrailer .COMPRESSED status t words) :
    FrameBuffer.getDataType (FrameBuffer.getTrailer (t.data words) (t.msg words).rxSize) =
      FrameBuffer.DataType.Compressed := h.getDataType_eq

theorem type_wib (h : HasTrailer .WIB status t words) :
    FrameBuffer.getDataType (FrameBuffer.getTrailer (t.data words) (t.msg words).rxSize) =
      FrameBuffer.DataType.WibFrame := h.getDataType_eq

theorem times_compressed (h : HasTrailer .COMPRESSED status t words) :
    FrameBuffer.getTimestampRange (t.data words) (t.msg words).rxSize =
      some (FrameBuffer.getCompressedTimestampRange (t.data words)) := by
  unfold FrameBuffer.getTimestampRange
  dsimp only
  rw [if_pos h.getFrameType_eq, if_pos h.type_compressed]

theorem times_wib (h : HasTrailer .WIB status t words) :
    FrameBuffer.getTimestampRange (t.data words) (t.msg words).rxSize =
      some (FrameBuffer.getWibFrameTimestampRange (t.data words) (t.msg words).rxSize) := by
  have hother : FrameBuffer.getDataType
      (FrameBuffer.getTrailer (t.data words) (t.msg words).rxSize) ≠
        FrameBuffer.DataType.Compressed := by
    rw [h.type_wib]
    decide
  unfold FrameBuffer.getTimestampRange
  dsimp only
  rw [if_pos h.getFrameType_eq, if_neg hother, if_pos h.type_wib]

/-- The identifier is that of the header behind the record header. -/
theorem wibId_compressed (h : HasTrailer .COMPRESSED status t words) {hdr : BitVec 64}
    (hword : t.data words 1 = hdr.toNat) :
    FrameBuffer.getWibIdentifier (t.data words) (t.msg words).rxSize =
      some (Firmware.WibFrame.id hdr).toNat := by
  have hother : FrameBuffer.getDataType
      (FrameBuffer.getTrailer (t.data words) (t.msg words).rxSize) ≠
        FrameBuffer.DataType.WibFrame := by
    rw [h.type_compressed]
    decide
  unfold FrameBuffer.getWibIdentifier
  dsimp only
  rw [if_pos h.getFrameType_eq, if_neg hother, if_pos h.type_compressed, hword, wibId_eq]

theorem wibId_wib (h : HasTrailer .WIB status t words) {hdr : BitVec 64}
    (hword : t.data words 0 = hdr.toNat) :
    FrameBuffer.getWibIdentifier (t.data words) (t.msg words).rxSize =
      some (Firmware.WibFrame.id hdr).toNat := by
  unfold FrameBuffer.getWibIdentifier
  dsimp only
  rw [if_pos h.getFrameType_eq, if_pos h.type_wib, hword, wibId_eq]

/-- The times and the identifier are where the type of the packet says. -/
theorem received (h : HasTrailer dataType status t words) {hdr first last : BitVec 64}
    (htimes : FrameBuffer.getTimestampRange (t.data words) (t.msg words).rxSize =
      some ⟨first.toNat, (last + 25).toNat⟩)
    (hwib : FrameBuffer.getWibIdentifier (t.data words) (t.msg words).rxSize =
      some (Firmware.WibFrame.id hdr).toNat) :
    Received dataType hdr first last status t words := by
  refine ⟨?_, congrArg (fun r => Option.getD r t.timestampRange) htimes, hwib, ?_, ?_⟩
  · rw [h.trailer_eq, size_statusId dataType status h.size]
    rfl
  · exact h.getDataType_eq
  · rw [DataMsg.status, h.trailer_eq, status_statusId dataType status h.size]

end HasTrailer

theorem Received.serviceData {dataType : Firmware.DataType} {hdr first last : BitVec 64}
    {status : BitVec 32} {t : DmaRead} {words : List AxisOut}
    (h : Received dataType hdr first last status t words) (bCount : Nat) (s : RxState)
    (cfg : Config) (alloc : Nat) (hblow : s.blowOffDmaData = false)
    (hlast : t.lastUser &&& TUserEOFE = 0) :
    s.serviceData bCount cfg alloc (t.msg words) =
      (s.relisten.countPacket (t.msg words)).goodData bCount cfg alloc (t.msg words) t.dest := by
  have huser : (t.msg words).lastUser = t.lastUser := rfl
  have hdest : ¬ (t.msg words).dest = 2 := Nat.ne_of_lt t.dest.isLt
  have hblow' : s.relisten.blowOffDmaData = false := by
    unfold RxState.relisten
    split
    · exact hblow
    · exact hblow
  unfold RxState.serviceData
  dsimp only
  rw [if_neg hdest, dif_pos ⟨t.dest.isLt, hblow'⟩, huser, if_neg (not_not.mpr hlast),
    if_neg (not_not.mpr h.size)]
  rfl

/-! ## Frames written as they are -/

section Written

variable {frames : List Firmware.ReadFrame}

theorem getElem?_dataWords {i : Nat} {frame : Firmware.ReadFrame} (h : frames[i]? = some frame)
    {j : Nat} (hj : j < 30) : (Firmware.dataWords frames)[30 * i + j]? = some (frame.d j) := by
  induction frames generalizing i with
  | nil => cases h
  | cons f frames ih =>
    have hcons : Firmware.dataWords (f :: frames) =
        (List.range 30).map f.d ++ Firmware.dataWords frames := rfl
    have hlen : ((List.range 30).map f.d).length = 30 := by
      rw [List.length_map, List.length_range]
    rw [hcons]
    cases i with
    | zero =>
      obtain rfl := Option.some.inj h
      rw [Nat.mul_zero, Nat.zero_add, List.getElem?_append_left (by omega), List.getElem?_map,
        List.getElem?_range hj]
      rfl
    | succ i =>
      have hidx : 30 * (i + 1) + j - 30 = 30 * i + j := by omega
      rw [List.getElem?_append_right (by omega), hlen, hidx]
      exact ih h

/-- A packet of 1024 frames. -/
theorem packetWords_received (hlen : frames.length = 1024) {first last : Firmware.ReadFrame}
    (hfirst : frames[0]? = some first) (hlast : frames[1023]? = some last) (t : DmaRead) :
    Received .WIB (first.d 0) (first.d 1) (last.d 1) (Firmware.summaryOf frames) t
      (Firmware.packetWords frames) := by
  have hshape := Firmware.packetShape hlen
  have hwords := hshape.length
  have hdata (i : Nat) (hi : i < 1024 * 30) (w : BitVec 64)
      (hw : (Firmware.dataWords frames)[i]? = some w) :
      t.data (Firmware.packetWords frames) i = w.toNat := by
    refine t.data_eq ?_
    rwa [← hshape.data, List.map_take, List.getElem?_take_of_lt hi] at hw
  have htrailer : HasTrailer .WIB (Firmware.summaryOf frames) t (Firmware.packetWords frames) := by
    refine ⟨t.data_eq ?_, by omega, by omega⟩
    have hidx : (Firmware.packetWords frames).length - 2 = 1024 * 30 := by omega
    rw [hidx, List.getElem?_map]
    exact hshape.status
  refine htrailer.received ?_
    (htrailer.wibId_wib (hdata 0 (by omega) _ (getElem?_dataWords hfirst (by omega : 0 < 30))))
  -- the last frame starts before the two trailer words
  have hsize : (t.msg (Firmware.packetWords frames)).rxSize / 8 - 30 - 1 - 1 + 1 =
      30 * 1023 + 1 := by
    have hrx : (t.msg (Firmware.packetWords frames)).rxSize =
        8 * (Firmware.packetWords frames).length := rfl
    omega
  rw [htrailer.times_wib, FrameBuffer.getWibFrameTimestampRange]
  rw [hsize, hdata 1 (by omega) _ (getElem?_dataWords hfirst (by omega : 1 < 30)),
    hdata _ (by omega) _ (getElem?_dataWords hlast (by omega))]
  rfl

theorem isFrame_packetWords (frames : List Firmware.ReadFrame) :
    Framing.IsFrame AxisOut.last (Firmware.packetWords frames) := by
  unfold Firmware.packetWords Firmware.epilogueWords
  rw [← List.singleton_append, ← List.append_assoc]
  refine ⟨_, _, rfl, rfl, fun w hw => ?_⟩
  rcases List.mem_append.mp hw with hdata | hid
  · exact Firmware.last_sofFirst _ w hdata
  · rw [List.mem_singleton.mp hid]

end Written

/-- **Frames that are written as they are.** The stream is cut into packets of 1024 of the frames
that are not dropped, in order, and an open one; the receive loop takes each packet with the times
of its first and last frame. -/
theorem written_received (frames : List Firmware.ReadFrame) (lcl gbl : Firmware.MonitorWrite)
    (summary : BitVec 32) :
    ∃ (packets : List (List Firmware.ReadFrame)) (pending : List Firmware.ReadFrame),
      frames.filter Firmware.ReadFrame.writeIt = packets.flatten ++ pending ∧
      pending.length < 1024 ∧
      Framing.frames AxisOut.last
          (Firmware.writeFrames (.initial lcl gbl summary) frames).axis =
        ⟨packets.map Firmware.packetWords, Firmware.sofFirst (Firmware.dataWords pending)⟩ ∧
      ∀ packet ∈ packets, ∃ first last, packet[0]? = some first ∧ packet[1023]? = some last ∧
        packet.length = 1024 ∧ ∀ t : DmaRead,
          Received .WIB (first.d 0) (first.d 1) (last.d 1) (Firmware.summaryOf packet) t
            (Firmware.packetWords packet) ∧
          (t.lastUser &&& TUserEOFE = 0 → ∀ bCount (rx : RxState) cfg alloc,
            rx.blowOffDmaData = false →
              rx.serviceData bCount cfg alloc (t.msg (Firmware.packetWords packet)) =
                (rx.relisten.countPacket (t.msg (Firmware.packetWords packet))).goodData bCount
                  cfg alloc (t.msg (Firmware.packetWords packet)) t.dest) := by
  obtain ⟨packets, pending, h⟩ := (Firmware.wrote_initial lcl gbl summary).writeFrames frames
  rw [List.nil_append] at h
  refine ⟨packets, pending, h.kept, h.open_, ?_, fun packet hpacket => ?_⟩
  · have hframe : ∀ w ∈ packets.map Firmware.packetWords, Framing.IsFrame AxisOut.last w := by
      intro w hw
      obtain ⟨packet, -, rfl⟩ := List.mem_map.mp hw
      exact isFrame_packetWords packet
    rw [h.axis, List.flatMap_def]
    exact Framing.frames_flatten hframe (Firmware.last_sofFirst _)
  · have hlen := h.full packet hpacket
    have hfirst := List.getElem?_eq_getElem (l := packet) (i := 0) (by omega)
    have hlast := List.getElem?_eq_getElem (l := packet) (i := 1023) (by omega)
    refine ⟨_, _, hfirst, hlast, hlen, fun t => ?_⟩
    have hreceived := packetWords_received hlen hfirst hlast t
    exact ⟨hreceived, fun hend bCount rx cfg alloc hblow =>
      hreceived.serviceData bCount rx cfg alloc hblow hend⟩

/-! ## Compressed packets -/

/-- **A packet** of the compression module whose size the trailer can hold. -/
theorem compressed_received {ctx : Firmware.ReadContext} {src : Nat → Nat → AxisIn}
    {words : List AxisOut} (h : Firmware.IsPacket ctx src words)
    (hsize : 8 * words.length < 2 ^ 24) (t : DmaRead) :
    ∃ status, Firmware.HasStatus ctx src status ∧
      Received .COMPRESSED (src 0 0).data (src 0 1).data (src 1023 1).data status t words := by
  obtain ⟨status, ws, hstatus, -, rfl⟩ := h
  refine ⟨status, hstatus, ?_⟩
  have hdata := Firmware.map_data_compressedWords (Firmware.headerOf src status) ws
    (Firmware.offsetsOf src) status
  have hlen := Firmware.length_compressedWords (Firmware.headerOf src status) ws
    (Firmware.offsetsOf src) status
  generalize Firmware.compressedWords (Firmware.headerOf src status) ws
    (Firmware.offsetsOf src) status = words at hdata hlen hsize ⊢
  have hheader (j : Nat) (w : BitVec 64) (hw : (Firmware.headerOf src status)[j]? = some w) :
      t.data words j = w.toNat := by
    refine t.data_eq ?_
    rw [hdata, List.getElem?_append_left (List.getElem?_eq_some_iff.mp hw).1, hw]
  have htrailer : HasTrailer .COMPRESSED status t words := by
    refine ⟨t.data_eq ?_, by omega, hsize⟩
    -- the header, the channels and the table of contents are before it
    have hbytes : ((Firmware.headerOf src status).length + ws.length + 66) * 8 + 16 =
        8 * words.length := by omega
    have htoc : (Firmware.tocWords Firmware.NCHANS Firmware.NSAMPLES
        (Firmware.offsetsOf src)).length = 66 := Firmware.length_tocWords ..
    have hbefore : words.length - 2 =
        (Firmware.headerOf src status ++ (ws ++ Firmware.tocWords Firmware.NCHANS
          Firmware.NSAMPLES (Firmware.offsetsOf src))).length := by
      rw [List.length_append, List.length_append, htoc]
      omega
    rw [hdata, ← List.append_assoc ws, ← List.append_assoc (Firmware.headerOf src status),
      hbefore, List.getElem?_append_right (Nat.le_refl _), Nat.sub_self, hbytes]
    rfl
  refine htrailer.received ?_ (htrailer.wibId_compressed (hheader 1 (src 0 0).data rfl))
  rw [htrailer.times_compressed, FrameBuffer.getCompressedTimestampRange,
    hheader 2 (src 0 1).data rfl, hheader 3 (src 1023 1).data rfl]
  rfl

section SteadyPacket

variable {src : Nat → Nat → AxisIn} {dataType : Firmware.DataType} {hdr : BitVec 64}
  {status : BitVec 32} {t : DmaRead} {words : List AxisOut}

/-- A steady packet spans 1024 samples. -/
theorem Received.times_of_steady
    (h : Received dataType hdr (src 0 1).data (src 1023 1).data status t words)
    (hsteady : Steady src) :
    (t.msg words).tsRange =
      ⟨(src 0 1).data.toNat, ((src 0 1).data.toNat + PER_FRAME) % 2 ^ 64⟩ := by
  have hlast := hsteady.time_eq (Nat.le_refl 1023)
  have hconst : (25 : BitVec 64).toNat = 25 := rfl
  have hsum : ((src 1023 1).data + 25).toNat = ((src 0 1).data.toNat + PER_FRAME) % 2 ^ 64 := by
    rw [hlast, BitVec.toNat_add, BitVec.toNat_add, BitVec.toNat_ofNat, hconst, PER_FRAME]
    omega
  rw [h.times, hsum]

/-- A steady packet is not flagged as incomplete. -/
theorem Received.full
    (h : Received dataType hdr (src 0 1).data (src 1023 1).data status t words)
    (hsteady : Steady src) :
    (((t.msg words).tsRange.fin : Int) - (t.msg words).tsRange.beg) % 2 ^ 64 = PER_FRAME := by
  rw [h.times_of_steady hsteady, PER_FRAME]
  dsimp only
  omega

theorem Received.fin_eq
    (h : Received dataType hdr (src 0 1).data (src 1023 1).data status t words)
    (hsteady : Steady src) (hwrap : (src 0 1).data.toNat + PER_FRAME < 2 ^ 64) :
    (t.msg words).tsRange.fin = (t.msg words).tsRange.beg + TimingClockTicks.PER_FRAME := by
  rw [h.times_of_steady hsteady, Nat.mod_eq_of_lt hwrap]
  rfl

end SteadyPacket

/-! ## A run -/

/-- The frames of `n` packets are one sample apart. -/
structure SteadyRun (n : Nat) (src : Nat → Nat → Nat → AxisIn) : Prop where
  steady : ∀ p < n, Steady (src p)
  joined : ∀ p, p + 1 < n → (src (p + 1) 0 1).data = (src p 1023 1).data + 25

/-- No gap shows in the packets: no status has the timestamp bit, and each packet ends where the
next begins. -/
structure NoGap (t : Nat → DmaRead) (packets : List (List AxisOut)) : Prop where
  status : ∀ p w, packets[p]? = some w →
    ((t p).msg w).status.getLsbD Firmware.ReadStatus.ErrWibTimestamp = false
  joined : ∀ p w w', packets[p]? = some w → packets[p + 1]? = some w' →
    ((t p).msg w).tsRange.fin = ((t (p + 1)).msg w').tsRange.beg

/-- What is received of the packets of a run. -/
def RunReceived (ctx : Firmware.ReadContext) (src : Nat → Nat → Nat → AxisIn)
    (t : Nat → DmaRead) (packets : List (List AxisOut)) : Prop :=
  ∀ p w, packets[p]? = some w → ∃ status,
    Firmware.HasStatus (Firmware.coreCtx ctx src p) (src p) status ∧
      Received .COMPRESSED (src p 0 0).data (src p 0 1).data (src p 1023 1).data status (t p) w

theorem RunReceived.noGap_iff {n : Nat} {ctx : Firmware.ReadContext}
    {src : Nat → Nat → Nat → AxisIn} {t : Nat → DmaRead} {packets : List (List AxisOut)}
    (h : RunReceived ctx src t packets) (hlen : packets.length = n) :
    NoGap t packets ↔ SteadyRun n src := by
  have hget (p : Nat) (hp : p < n) : ∃ w, packets[p]? = some w :=
    ⟨_, List.getElem?_eq_getElem (hlen ▸ hp)⟩
  have hlt (p : Nat) (w : List AxisOut) (hw : packets[p]? = some w) : p < n :=
    hlen ▸ (List.getElem?_eq_some_iff.mp hw).1
  have hsteady (p : Nat) (w : List AxisOut) (hw : packets[p]? = some w) :
      ((t p).msg w).status.getLsbD Firmware.ReadStatus.ErrWibTimestamp = false ↔
        Steady (src p) := by
    obtain ⟨status, hstatus, hreceived⟩ := h p w hw
    rw [hreceived.status]
    exact timestamp_status hstatus
  have hjoined (p : Nat) (w w' : List AxisOut) (hw : packets[p]? = some w)
      (hw' : packets[p + 1]? = some w') :
      ((t p).msg w).tsRange.fin = ((t (p + 1)).msg w').tsRange.beg ↔
        (src (p + 1) 0 1).data = (src p 1023 1).data + 25 := by
    obtain ⟨_, -, hreceived⟩ := h p w hw
    obtain ⟨_, -, hreceived'⟩ := h (p + 1) w' hw'
    rw [hreceived.times, hreceived'.times]
    exact ⟨fun hjoin => (BitVec.eq_of_toNat_eq hjoin).symm, fun hjoin => hjoin ▸ rfl⟩
  constructor
  · intro hgap
    refine ⟨fun p hp => ?_, fun p hp => ?_⟩
    · obtain ⟨w, hw⟩ := hget p hp
      exact (hsteady p w hw).mp (hgap.status p w hw)
    · obtain ⟨w, hw⟩ := hget p (by omega)
      obtain ⟨w', hw'⟩ := hget (p + 1) hp
      exact (hjoined p w w' hw hw').mp (hgap.joined p w w' hw hw')
  · intro hcont
    refine ⟨fun p w hw => ?_, fun p w w' hw hw' => ?_⟩
    · exact (hsteady p w hw).mpr (hcont.steady p (hlt p w hw))
    · exact (hjoined p w w' hw hw').mpr (hcont.joined p (hlt (p + 1) w' hw'))

/-- The packets as the receive loop puts them on a list. -/
def packetsOf (t : Nat → DmaRead) (packets : List (List AxisOut)) : List Packet :=
  packets.mapIdx fun p w => ⟨(t p).index, ((t p).msg w).tsRange⟩

/-- Steady frames make gapless packets, where their times do not wrap. -/
theorem RunReceived.gapless {ctx : Firmware.ReadContext} {src : Nat → Nat → Nat → AxisIn}
    {t : Nat → DmaRead} {packets : List (List AxisOut)} (h : RunReceived ctx src t packets)
    (hsteady : SteadyRun packets.length src)
    (hwrap : ∀ p < packets.length, (src p 0 1).data.toNat + PER_FRAME < 2 ^ 64) :
    Gapless (packetsOf t packets) := by
  constructor
  · refine List.isChain_iff_getElem.mpr fun p hp => ?_
    have hlen : (packetsOf t packets).length = packets.length := List.length_mapIdx
    have hw := List.getElem?_eq_getElem (l := packets) (i := p) (by omega)
    have hw' := List.getElem?_eq_getElem (l := packets) (i := p + 1) (by omega)
    have hjoin := ((h.noGap_iff rfl).mpr hsteady).joined p _ _ hw hw'
    simpa [packetsOf] using hjoin
  · intro q hq
    obtain ⟨p, hp, rfl⟩ := List.mem_mapIdx.mp hq
    obtain ⟨_, -, hreceived⟩ := h p _ (List.getElem?_eq_getElem hp)
    exact hreceived.fin_eq (hsteady.steady p hp) (hwrap p hp)

/-- **A run** of the compression module is received packet by packet, each with the times and the
status of its frames. No gap shows if and only if all frames of the run are one sample apart, and
then no packet is flagged as incomplete, and the packets are gapless. -/
theorem run_received (n : Nat) (locals : Nat → Firmware.PacketLocals)
    (src : Nat → Nat → Nat → AxisIn) (rest : List AxisIn) (s : Firmware.CoreState)
    (m : Firmware.MonitorWrite) (hall : Firmware.AllStreamable n src)
    (hsize : ∀ p < n, 8 * Firmware.packetLength (src p) < 2 ^ 24) (t : Nat → DmaRead) :
    ∃ s' ports packets,
      Firmware.handlePackets n locals s ⟨Firmware.packetStream rest n src, [], m⟩ =
        some (s', ports) ∧
      Framing.frames AxisOut.last ports.mAxis = ⟨packets, []⟩ ∧ packets.length = n ∧
      RunReceived s.ctx src t packets ∧
      (∀ p w, packets[p]? = some w → (t p).lastUser &&& TUserEOFE = 0 →
        ∀ bCount (rx : RxState) cfg alloc, rx.blowOffDmaData = false →
          rx.serviceData bCount cfg alloc ((t p).msg w) =
            (rx.relisten.countPacket ((t p).msg w)).goodData bCount cfg alloc ((t p).msg w)
              (t p).dest) ∧
      (NoGap t packets ↔ SteadyRun n src) ∧
      (SteadyRun n src → ∀ p w, packets[p]? = some w →
        ((((t p).msg w).tsRange.fin : Int) - ((t p).msg w).tsRange.beg) % 2 ^ 64 = PER_FRAME) ∧
      (SteadyRun n src → (∀ p < n, (src p 0 1).data.toNat + PER_FRAME < 2 ^ 64) →
        Gapless (packetsOf t packets)) := by
  obtain ⟨s', packets, hrun, hlen, hpackets, -⟩ :=
    Firmware.handlePackets_spec rest locals s [] m hall
  have hlt (p : Nat) (w : List AxisOut) (hw : packets[p]? = some w) : p < n :=
    hlen ▸ (List.getElem?_eq_some_iff.mp hw).1
  have hreceived : RunReceived s.ctx src t packets := by
    intro p w hw
    refine compressed_received (hpackets p w hw) ?_ (t p)
    rw [(hpackets p w hw).length_eq]
    exact hsize p (hlt p w hw)
  refine ⟨s', _, packets, hrun, Firmware.frames_packets hpackets, hlen, hreceived, ?_,
    hreceived.noGap_iff hlen, ?_, ?_⟩
  · intro p w hw hlast bCount rx cfg alloc hblow
    obtain ⟨_, -, hpacket⟩ := hreceived p w hw
    exact hpacket.serviceData bCount rx cfg alloc hblow hlast
  · intro hcont p w hw
    obtain ⟨_, -, hpacket⟩ := hreceived p w hw
    exact hpacket.full (hcont.steady p (hlt p w hw))
  · intro hcont hwrap
    subst hlen
    exact hreceived.gapless hcont hwrap

/-- Frames of zeros, but for the timestamps, from `time` on. -/
def flatFrames (time : Nat) (i j : Nat) : AxisIn :=
  if j = 1 then ⟨BitVec.ofNat 64 (time + 25 * i), 0, false⟩ else ⟨0, 0, false⟩

theorem sampleAt_flatFrames (time c i : Nat) :
    Firmware.sampleAt (flatFrames time) c i = Firmware.sampleAt (flatFrames time) c 0 := by
  -- the words of the samples are not the timestamp
  have hpair (k : Nat) : 4 ≤ Firmware.pairWord (c / 4 / 2 / 2) + k := by
    unfold Firmware.pairWord
    split <;> omega
  have hfirst : 4 ≤ Firmware.pairWord (c / 4 / 2 / 2) := hpair 0
  have hword (i : Nat) {j : Nat} (hj : 4 ≤ j) : (flatFrames time i j).data = 0 := by
    rw [flatFrames, if_neg (by omega)]
  unfold Firmware.sampleAt Firmware.frameAdc Firmware.serialBits Firmware.adcs8At
  dsimp only
  rw [hword i hfirst, hword i (hpair 1), hword i (hpair 2), hword 0 hfirst, hword 0 (hpair 1),
    hword 0 (hpair 2)]

theorem flat_flatFrames (time c : Nat) :
    ∀ a ∈ (Firmware.packetWave (flatFrames time) c).rest,
      a = (Firmware.packetWave (flatFrames time) c).first :=
  Firmware.flat_packetWave (flatFrames time) (sampleAt_flatFrames time c)

theorem size_flatFrames (time : Nat) : 8 * Firmware.packetLength (flatFrames time) < 2 ^ 24 := by
  have hle : Firmware.packetLength (flatFrames time) ≤ 26624 :=
    Firmware.packetLength_le_of_quiet fun c _ =>
      Firmware.Waveform.quiet_of_flat (flat_flatFrames time c)
  omega

theorem steadyRun_flatFrames (n : Nat) :
    SteadyRun n fun p => flatFrames (PER_FRAME * p) := by
  refine ⟨fun p _ i _ => ?_, fun p _ => ?_⟩
  · have hnext : PER_FRAME * p + 25 * (i + 1) = PER_FRAME * p + 25 * i + 25 := by omega
    show BitVec.ofNat 64 (PER_FRAME * p + 25 * (i + 1)) =
      BitVec.ofNat 64 (PER_FRAME * p + 25 * i) + 25
    rw [hnext, BitVec.ofNat_add]
    rfl
  · have hnext : PER_FRAME * (p + 1) + 25 * 0 = PER_FRAME * p + 25 * 1023 + 25 := by
      unfold PER_FRAME
      omega
    show BitVec.ofNat 64 (PER_FRAME * (p + 1) + 25 * 0) =
      BitVec.ofNat 64 (PER_FRAME * p + 25 * 1023) + 25
    rw [hnext, BitVec.ofNat_add]
    rfl

/-- Two packets of flat frames, each in a buffer of its own. -/
theorem run_received_flat :
    SteadyRun 2 (fun p => flatFrames (PER_FRAME * p)) ∧ ∀ locals s m, ∃ s' ports packets,
      Firmware.handlePackets 2 locals s
          ⟨Firmware.packetStream [] 2 fun p => flatFrames (PER_FRAME * p), [], m⟩ =
        some (s', ports) ∧
      Framing.frames AxisOut.last ports.mAxis = ⟨packets, []⟩ ∧ packets.length = 2 ∧
      NoGap (fun p => ⟨p, 0, 0, fun _ => 0, ⟨0, 0⟩⟩) packets ∧
      Gapless (packetsOf (fun p => ⟨p, 0, 0, fun _ => 0, ⟨0, 0⟩⟩) packets) := by
  have hcont : SteadyRun 2 fun p => flatFrames (PER_FRAME * p) := steadyRun_flatFrames 2
  refine ⟨hcont, fun locals s m => ?_⟩
  obtain ⟨s', ports, packets, hrun, hframes, hlen, -, -, hgap, -, hgapless⟩ :=
    run_received 2 locals (fun p => flatFrames (PER_FRAME * p)) [] s m
      (fun p _ c _ => Firmware.Waveform.streamable_of_flat (flat_flatFrames (PER_FRAME * p) c))
      (fun p _ => size_flatFrames (PER_FRAME * p)) fun p => ⟨p, 0, 0, fun _ => 0, ⟨0, 0⟩⟩
  exact ⟨s', ports, packets, hrun, hframes, hlen, hgap.mpr hcont, hgapless hcont (by decide)⟩

end ProtoDune.Daq
