import ProtoDune.Daq.EventSize
import ProtoDune.Daq.Fragment
import ProtoDune.Daq.FrameData
import ProtoDune.Daq.Rssi

/-!
# `DaqBuffer::txRun`: the bytes that are sent

The header of an event is made in a DMA buffer of its own. The headers of the first
contributor with data follow it there; those of the next contributor, and the trailer, are
written behind the last packet, at an address that moves with the packets. The I/O vectors
are lengthened to take them in. A `size_t` is taken as 64 bits wide, so that the length of
no vector wraps.

Main results:

* `packetLoop_spec` — what the loop over the packets of a contributor writes.
* `addTpcDataRecord_spec` — the headers, the vectors and the next address of a contributor.
* `addTpcDataRecord_refines` — they are those of the record of `TxRecord`.
* `StreamHead.streamAt` — headers and packets are a stream record.
-/

namespace ProtoDune.Daq

open ByteMemory LinkChain

namespace TxRun

/-! ## Memory -/

/-- What is written to: the object `HeaderOrigin` and the DMA buffers. -/
inductive Place where
  | HeaderOrigin
  | dma (index : Nat)
deriving DecidableEq

/-- The bytes of the object and of the buffers. -/
abbrev Buffers := Mem Place

structure Ptr where
  place : Place
  offset : Nat

/-- An address `nbytes` further on. -/
def Ptr.add (p : Ptr) (nbytes : Nat) : Ptr := { p with offset := p.offset + nbytes }

namespace Buffers

def put (b : Buffers) (p : Ptr) (bytes : List UInt8) : Buffers := store b p.place p.offset bytes

def get64 (b : Buffers) (p : Ptr) : Nat := load b p.place p.offset 8

/-- The words of a packet. -/
def d64 (b : Buffers) (index k : Nat) : Nat := load b (.dma index) (8 * k) 8

end Buffers

/-! ## `HeaderAndOrigin` -/

/-- `sizeof (m_header)` -/
def headerSize : Nat := 8 + 8 * fragment.Identifier.n64

/-- `HeaderAndOrigin::n64` of the object at a place. -/
def n64 (b : Buffers) (place : Place) : Nat :=
  headerSize / 8 + Header2.n64 (load b place headerSize 4)

/-- `operator =`, from `HeaderOrigin`. -/
def assign (b : Buffers) (ho : Place) : Buffers :=
  store b ho 0 (read b .HeaderOrigin 0 (8 * n64 b .HeaderOrigin))

/-- `getTrailer` and `getStreamRecord`. -/
def getNextAddress (b : Buffers) (place : Place) : Ptr := ⟨place, 8 * n64 b place⟩

/-! ## `addTpcDataRecord` -/

/-- What `addRanges` writes. -/
def putRanges (b : Buffers) (ranges : Ptr) (body : RangesBody) : Buffers :=
  let window := body.m_window
  let b := b.put (ranges.add 32)
    (toBytes 8 window.m_begin ++ toBytes 8 window.m_end ++ toBytes 8 window.m_trigger)
  let indices := body.m_dsc.m_indices
  let timestamps := body.m_dsc.m_timestamps
  let b := b.put (ranges.add 4)
    (toBytes 4 indices.m_begin ++ toBytes 4 indices.m_end ++ toBytes 4 indices.m_trigger
      ++ toBytes 8 timestamps.m_begin ++ toBytes 8 timestamps.m_end)
  b.put ranges (toBytes 4 (Ranges.construct (rangeSize / 8)))

/-- The variables of the loop over the packets. -/
structure PacketState where
  buffers : Buffers
  msg : TxMessage 64
  msgIovlen : Nat
  pktIdx : Nat
  ndata : Nat
  status : Nat
  /-- the base of the last packet, and its bytes -/
  p64 : Ptr
  nbytes : Nat

/-- One packet of the loop. -/
def addPacket (m : Memory) (toc : Ptr) (index : Nat) (s : PacketState) : PacketState :=
  let fb := m.body index
  let nbytes := fb.getWriteSize
  let dataFormat := FrameBuffer.getDataFormat (s.buffers.d64 index) fb.size
  { buffers := s.buffers.put (toc.add (4 + 4 * s.pktIdx))
      (toBytes 4 (Toc.Packet.compose dataFormat 0 (s.ndata / 8)))
    -- the base is given by the buffer it is that of
    msg := s.msg.addIndex s.msgIovlen index index (BitVec.ofNat 64 nbytes) RssiIovec.Middle
    msgIovlen := s.msgIovlen + 1
    pktIdx := s.pktIdx + 1
    ndata := (s.ndata + nbytes) % 2 ^ 32
    status := (s.status ||| fb.status) % 2 ^ 8
    p64 := ⟨.dma index, 0⟩
    nbytes }

/-- The loop of `addTpcDataRecord` over the packets of the list, from `node`. -/
def packetLoop (m : Memory) (terminal : Addr) (toc : Ptr) :
    Nat → Addr → PacketState → Except Stop PacketState
  | 0, _, _ => .error .hang
  | fuel + 1, node, s =>
      if node = terminal then .ok s
      else match node with
        -- another head has no body
        | .inl _ => .error .trap
        | .inr index => packetLoop m terminal toc fuel (m.links.flnk node) (addPacket m toc index s)

/-- The state of `txRun` while the contributors are added. -/
structure TxState where
  buffers : Buffers
  msg : TxMessage 64
  nextAddress : Ptr

/-- The bytes of a record before its packets. -/
def streamLclSize (pktIdx : Nat) : Nat := (8 + rangeSize + Toc.n64bytes pktIdx + 8) % 2 ^ 32

/-- What `addTpcDataRecord` writes after its loop over `npkts` packets with `ndata` bytes;
`header` is that of the record. -/
def completeRecord (b : Buffers) (stream toc : Ptr) (npkts ndata header : Nat) : Buffers :=
  -- the terminating index
  let b := b.put (toc.add (4 + 4 * npkts)) (toBytes 4 (Toc.Packet.compose 0 0 (ndata / 8)))
  let pktIdx := npkts + 1
  let tocNbytes := Toc.nbytes pktIdx
  let tocN64bytes := Toc.n64bytes pktIdx
  let b := b.put toc (toBytes 4 (Toc.construct (pktIdx - 1) (tocN64bytes / 8)))
  -- pad to a 64-bit boundary
  let padded := tocNbytes &&& 0x7 ≠ 0
  let b := if padded then b.put (toc.add tocNbytes) (toBytes 4 0) else b
  let tocNbytes := if padded then tocNbytes + 4 else tocNbytes
  let pktLen64 := (8 + ndata + 8 - 1) / 8
  let b := b.put (toc.add tocNbytes) (toBytes 8 (Packet.construct pktLen64))
  b.put stream (toBytes 8 header)

/-- `addTpcDataRecord`, with the size it returns. -/
def addTpcDataRecord (fuel : Nat) (m : Memory) (ev : Event) (s : TxState) (stream : Ptr)
    (ictb : Dest) (csf ctbsLeft : Nat) : Except Stop (TxState × Nat) := do
  let list := Head.contrib ev.id ictb
  let ranges := stream.add 8
  let toc := ranges.add rangeSize
  let prvIovlen := s.msg.iovlen - 1
  let p ← packetLoop m (.inl list) toc fuel (m.links.flnk (.inl list))
    { buffers := putRanges s.buffers ranges (addRanges m ev ictb), msg := s.msg
      msgIovlen := s.msg.iovlen, pktIdx := 0, ndata := 0, status := 0
      p64 := s.nextAddress, nbytes := 0 }
  let lclSize := streamLclSize (p.pktIdx + 1)
  let streamSize := (lclSize + p.ndata) % 2 ^ 32
  let bridge := Stream.Bridge.compose csf ctbsLeft p.status
  let recType :=
    if p.status = 0 then fragment.RecType.TpcNormal else fragment.RecType.TpcDamaged
  let header := Stream.construct recType (streamSize / 8) bridge
  let msg := p.msg.increase prvIovlen (BitVec.ofNat 32 lclSize)
  .ok
    ({ buffers := completeRecord p.buffers stream toc p.pktIdx p.ndata header
       msg := msg.setIovlen p.msgIovlen
       nextAddress := p.p64.add p.nbytes },
      streamSize)

/-! ## `txRun` -/

/-- The loop of `addContributors` over the contributors of the event, with `nctbs` of them
left, the sizes and the status so far. -/
def addContributors (fuel : Nat) (m : Memory) (ev : Event) :
    List Dest → TxState → Ptr → (nctbs ctbSize status : Nat) → Except Stop (TxState × Nat × Nat)
  | [], s, _, _, ctbSize, status => .ok (s, ctbSize, status)
  | ictb :: ictbs, s, stream, nctbs, ctbSize, status =>
      let list := Head.contrib ev.id ictb
      if ev.ctbs &&& ctbMask ictb = 0 then
        addContributors fuel m ev ictbs s stream nctbs ctbSize status
      -- an empty contributor
      else if m.links.flnk (.inl list) = .inl list then
        addContributors fuel m ev ictbs s s.nextAddress nctbs ctbSize status
      else match m.links.flnk (.inl list) with
        -- another head has no body
        | .inl _ => .error .trap
        | .inr first => do
            let csf := FrameBuffer.getCsf (s.buffers.d64 first) (m.body first).size
            let nctbs := (nctbs + (2 ^ 32 - 1)) % 2 ^ 32
            let (s, size) ← addTpcDataRecord fuel m ev s stream ictb csf nctbs
            let status := status ||| Stream.getStatus (s.buffers.get64 stream)
            addContributors fuel m ev ictbs s s.nextAddress nctbs ((ctbSize + size) % 2 ^ 32) status

/-- `completeHeader` -/
def completeHeader (b : Buffers) (ho : Place) (ev : Event) (source : Nat) (srcs : Dest → Nat)
    (status txSize : Nat) : Buffers :=
  let recType :=
    if status = 0 then fragment.RecType.TpcNormal else fragment.RecType.TpcDamaged
  let b := store b ho 0 (toBytes 8 (fragment.Header.compose recType (txSize % 2 ^ 32 / 8)))
  store b ho 8
    (toBytes 8 (fragment.Identifier.compose source (srcs 0) (srcs 1) ev.trgSequence)
      ++ toBytes 8 ev.trgTime)

/-- What `txRun` hands to the transport for an event. -/
structure Sent where
  buffers : Buffers
  msg : TxMessage 64
  txSize : Nat

/-- `txRun` for one event, whose trigger has the source given, up to the sending. The
header is made in the buffer `hoIndex`, and `srcs` is `Srcs`. -/
def txEvent (fuel : Nat) (m : Memory) (b : Buffers) (msg : TxMessage 64) (hoIndex source : Nat)
    (srcs : Dest → Nat) (ev : Event) : Except Stop Sent := do
  let ho := Place.dma hoIndex
  let b := assign b ho
  -- addHeaderOrigin
  let txSize := 8 * n64 b ho
  let msg := msg.addIndex 0 hoIndex hoIndex (BitVec.ofNat 64 txSize) RssiIovec.First
  -- the trailer is that of the object `HeaderOrigin`, not of its copy
  let trailer := getNextAddress b .HeaderOrigin
  let streamRecord := getNextAddress b ho
  let (s, contributorSize, status) ← addContributors fuel m ev [0, 1]
    { buffers := b, msg := msg.setIovlen 1, nextAddress := trailer } streamRecord ev.nctbs 0 0
  let txSize := txSize + contributorSize + 8
  let b := completeHeader s.buffers ho ev source srcs status txSize
  let header := b.get64 ⟨ho, 0⟩
  let b := b.put s.nextAddress (toBytes 8 (Trailer.compose header))
  .ok { buffers := b, msg := s.msg.increaseLast 8, txSize }

/-- The bytes of an I/O vector. -/
def vectorBytes (b : Buffers) (iov : MsgIovec 64) : List UInt8 :=
  read b (.dma iov.iovBase) 0 iov.iovLen.toNat

/-- The I/O vectors of a message. -/
def vectors (msg : TxMessage 64) : List (MsgIovec 64) := (List.range msg.iovlen).map msg.msgIov

/-- The bytes of a message. -/
def bytes (b : Buffers) (msg : TxMessage 64) : List UInt8 := (vectors msg).flatMap (vectorBytes b)

/-! ## The loop over the packets -/

/-- The bytes of a packet that are sent. -/
def writeSize (m : Memory) (index : Nat) : Nat := (m.body index).getWriteSize

/-- The I/O vector of a packet. -/
def packetIovec (m : Memory) (index : Nat) : MsgIovec 64 :=
  ⟨index, BitVec.ofNat 64 (writeSize m index)⟩

/-- What the loop over the packets does: it writes the entries of the table of contents and
adds an I/O vector for each packet. -/
structure PacketsAdded (m : Memory) (toc : Ptr) (xs : List Nat) (s s' : PacketState) : Prop where
  agree : Agree s.buffers s'.buffers toc.place (toc.offset + (4 + 4 * s.pktIdx)) (4 * xs.length)
  entries : ∀ j < xs.length, ∀ o, (packetTable s.ndata (xs.map (writeSize m))).1[j]? = some o →
    ∃ type, At s'.buffers toc.place (toc.offset + (4 + 4 * (s.pktIdx + j)))
      (toBytes 4 (Toc.Packet.compose type 0 o))
  ndata : s'.ndata = (packetTable s.ndata (xs.map (writeSize m))).2
  pktIdx : s'.pktIdx = s.pktIdx + xs.length
  msgIovlen : s'.msgIovlen = s.msgIovlen + xs.length
  iovlen : s'.msg.iovlen = s.msg.iovlen
  before : ∀ i < s.msgIovlen, s'.msg.msgIov i = s.msg.msgIov i
  vectors : ∀ j x, xs[j]? = some x → s'.msg.msgIov (s.msgIovlen + j) = packetIovec m x
  last : (s'.p64, s'.nbytes)
    = xs.getLast?.elim (s.p64, s.nbytes) fun x => (⟨.dma x, 0⟩, writeSize m x)

theorem packetTable_cons (ndata nbytes : Nat) (sizes : List Nat) :
    packetTable ndata (nbytes :: sizes)
      = (ndata / 8 :: (packetTable ((ndata + nbytes) % 2 ^ 32) sizes).1,
        (packetTable ((ndata + nbytes) % 2 ^ 32) sizes).2) := rfl

theorem PacketsAdded.nil {m : Memory} {toc : Ptr} {s : PacketState} :
    PacketsAdded m toc [] s s where
  agree := Agree.refl
  entries := fun j hj => absurd hj (Nat.not_lt_zero j)
  ndata := rfl
  pktIdx := rfl
  msgIovlen := rfl
  iovlen := rfl
  before := fun _ _ => rfl
  vectors := by
    intro j x hx
    rw [List.getElem?_nil] at hx
    cases hx
  last := rfl

/-- One more packet in front. -/
theorem PacketsAdded.cons {m : Memory} {toc : Ptr} {x : Nat} {xs : List Nat}
    {s s' : PacketState} (h : PacketsAdded m toc xs (addPacket m toc x s) s') :
    PacketsAdded m toc (x :: xs) s s' := by
  have hidx : (addPacket m toc x s).pktIdx = s.pktIdx + 1 := rfl
  have hiov : (addPacket m toc x s).msgIovlen = s.msgIovlen + 1 := rfl
  have hagree := h.agree
  rw [hidx] at hagree
  have hwrite : Agree s.buffers (addPacket m toc x s).buffers toc.place
      (toc.offset + (4 + 4 * s.pktIdx)) 4 :=
    Agree.store_toBytes
  have hentry : At (addPacket m toc x s).buffers toc.place (toc.offset + (4 + 4 * s.pktIdx))
      (toBytes 4 (Toc.Packet.compose
        (FrameBuffer.getDataFormat (s.buffers.d64 x) (m.body x).size) 0 (s.ndata / 8))) := At.store
  constructor
  · rw [List.length_cons]
    exact (hwrite.mono (Nat.le_refl _) (by omega)).trans (hagree.mono (by omega) (by omega))
  · intro j hj o ho
    rw [List.map_cons, packetTable_cons] at ho
    cases j with
    | zero =>
        obtain rfl : s.ndata / 8 = o := Option.some.inj ho
        refine ⟨_, hentry.agree hagree (.inr (.inl ?_))⟩
        rw [length_toBytes]
        omega
    | succ j =>
        obtain ⟨type, hat⟩ := h.entries j (Nat.lt_of_succ_lt_succ hj) o ho
        refine ⟨type, ?_⟩
        rw [hidx] at hat
        rwa [Nat.add_comm j 1, ← Nat.add_assoc s.pktIdx 1 j]
  · rw [h.ndata, List.map_cons, packetTable_cons]
    rfl
  · rw [h.pktIdx, hidx, List.length_cons]
    omega
  · rw [h.msgIovlen, hiov, List.length_cons]
    omega
  · exact h.iovlen
  · intro i hi
    rw [h.before i (by omega)]
    exact Function.update_of_ne (Nat.ne_of_lt hi) _ _
  · intro j y hy
    cases j with
    | zero =>
        obtain rfl : x = y := Option.some.inj hy
        rw [Nat.add_zero, h.before s.msgIovlen (by omega)]
        exact Function.update_self _ _ _
    | succ j =>
        have hat := h.vectors j y hy
        rw [hiov] at hat
        rwa [Nat.add_comm j 1, ← Nat.add_assoc s.msgIovlen 1 j]
  · rw [h.last, List.getLast?_cons]
    cases xs.getLast? <;> rfl

/-- **The loop over the packets** adds those of the list. -/
theorem packetLoop_spec {m : Memory} {list : Head} (toc : Ptr) (xs : List Nat) :
    ∀ {prev : Addr} {fuel : Nat} (s : PacketState),
      Chain m.links.flnk prev (cells xs) (.inl list) → xs.length < fuel →
      ∃ s', packetLoop m (.inl list) toc fuel (m.links.flnk prev) s = .ok s'
        ∧ PacketsAdded m toc xs s s' := by
  induction xs with
  | nil =>
      intro prev fuel s hchain hfuel
      obtain ⟨f, rfl⟩ := Nat.exists_eq_succ_of_ne_zero (Nat.ne_of_gt hfuel)
      rw [show m.links.flnk prev = .inl list from hchain, packetLoop, if_pos rfl]
      exact ⟨s, rfl, PacketsAdded.nil⟩
  | cons x xs ih =>
      intro prev fuel s hchain hfuel
      obtain ⟨f, rfl⟩ := Nat.exists_eq_succ_of_ne_zero (Nat.ne_of_gt (Nat.zero_lt_of_lt hfuel))
      obtain ⟨hnext, hrest⟩ : m.links.flnk prev = .inr x ∧ _ := hchain
      obtain ⟨s', hrun, hadded⟩ := ih (addPacket m toc x s) hrest (Nat.lt_of_succ_lt_succ hfuel)
      rw [hnext, packetLoop, if_neg Sum.inr_ne_inl]
      exact ⟨s', hrun, hadded.cons⟩

/-! ## The message -/

/-- The end of the last I/O vector. -/
def cursor (msg : TxMessage 64) : Ptr :=
  ⟨.dma (msg.msgIov (msg.iovlen - 1)).iovBase, (msg.msgIov (msg.iovlen - 1)).iovLen.toNat⟩

/-- The last I/O vector is `nbytes` longer, and the packets follow. -/
structure Lengthened (m : Memory) (nbytes : Nat) (xs : List Nat) (msg msg' : TxMessage 64) :
    Prop where
  iovlen : msg'.iovlen = msg.iovlen + xs.length
  before : ∀ i < msg.iovlen - 1, msg'.msgIov i = msg.msgIov i
  last : msg'.msgIov (msg.iovlen - 1)
    = { msg.msgIov (msg.iovlen - 1) with
        iovLen := (msg.msgIov (msg.iovlen - 1)).iovLen + (BitVec.ofNat 32 nbytes).setWidth 64 }
  vectors : ∀ j x, xs[j]? = some x → msg'.msgIov (msg.iovlen + j) = packetIovec m x

theorem PacketsAdded.lengthened {m : Memory} {toc : Ptr} {xs : List Nat} {s s' : PacketState}
    (h : PacketsAdded m toc xs s s') (hpos : 0 < s.msg.iovlen)
    (hstart : s.msgIovlen = s.msg.iovlen) (nbytes : Nat) :
    Lengthened m nbytes xs s.msg
      ((s'.msg.increase (s.msg.iovlen - 1) (BitVec.ofNat 32 nbytes)).setIovlen s'.msgIovlen) := by
  have hbefore := h.before
  have hvectors := h.vectors
  rw [hstart] at hbefore hvectors
  constructor
  · rw [← hstart]
    exact h.msgIovlen
  · intro i hi
    rw [← hbefore i (by omega)]
    exact Function.update_of_ne (Nat.ne_of_lt hi) _ _
  · rw [← hbefore (s.msg.iovlen - 1) (by omega)]
    exact Function.update_self _ _ _
  · intro j x hx
    rw [← hvectors j x hx]
    exact Function.update_of_ne (by omega) _ _

theorem lengthened_increaseLast (m : Memory) (msg : TxMessage 64) (nbytes : Nat) :
    Lengthened m nbytes [] msg (msg.increaseLast (BitVec.ofNat 32 nbytes)) where
  iovlen := rfl
  before := fun i hi => Function.update_of_ne (Nat.ne_of_lt hi) _ _
  last := Function.update_self _ _ _
  vectors := by
    intro j x hx
    rw [List.getElem?_nil] at hx
    cases hx

/-- The bytes of packets. -/
def packetData (m : Memory) (b : Buffers) (xs : List Nat) : List (List UInt8) :=
  xs.map fun x => read b (.dma x) 0 (writeSize m x)

theorem writeSize_lt (m : Memory) (x : Nat) : writeSize m x < 2 ^ 32 := Nat.mod_lt _ (by decide)

theorem vectorBytes_packetIovec (m : Memory) (b : Buffers) (x : Nat) :
    vectorBytes b (packetIovec m x) = read b (.dma x) 0 (writeSize m x) := by
  have hlt := writeSize_lt m x
  rw [packetIovec, vectorBytes, BitVec.toNat_ofNat, Nat.mod_eq_of_lt (by omega)]

namespace Lengthened

variable {m : Memory} {nbytes : Nat} {xs : List Nat} {msg msg' : TxMessage 64}

theorem toNat_last (h : Lengthened m nbytes xs msg msg') (hn : nbytes < 2 ^ 32)
    (hlen : (cursor msg).offset < 2 ^ 33) :
    (msg'.msgIov (msg.iovlen - 1)).iovLen.toNat = (cursor msg).offset + nbytes := by
  change (msg.msgIov (msg.iovlen - 1)).iovLen.toNat < 2 ^ 33 at hlen
  rw [h.last]
  dsimp only [cursor]
  rw [BitVec.toNat_add, BitVec.toNat_setWidth, BitVec.toNat_ofNat]
  omega

/-- The vectors before the last, the last, and those of the packets. -/
theorem vectors_eq (h : Lengthened m nbytes xs msg msg') {n : Nat} (hn : msg.iovlen = n + 1) :
    TxRun.vectors msg' = (List.range n).map msg.msgIov
      ++ (msg'.msgIov n :: xs.map (packetIovec m)) := by
  have hbefore := h.before
  have hvectors := h.vectors
  rw [hn] at hbefore hvectors
  have hfirst : (List.range n).map msg'.msgIov = (List.range n).map msg.msgIov :=
    List.map_congr_left fun i hi => hbefore i (List.mem_range.mp hi)
  have hrest : ((List.range xs.length).map (n + 1 + ·)).map msg'.msgIov
      = xs.map (packetIovec m) := by
    apply List.ext_getElem
    · simp
    · intro j hj hj'
      have hx : j < xs.length := by rwa [List.length_map] at hj'
      simp only [List.getElem_map, List.getElem_range]
      exact hvectors j xs[j] (List.getElem?_eq_getElem hx)
  rw [TxRun.vectors, h.iovlen, hn, List.range_add, List.map_append, hrest, List.range_succ,
    List.map_append, hfirst, List.append_assoc]
  rfl

/-- **What is sent**: the bytes that the vector takes in, and the packets. -/
theorem bytes_eq (h : Lengthened m nbytes xs msg msg') (hpos : 0 < msg.iovlen)
    (hn : nbytes < 2 ^ 32) (hlen : (cursor msg).offset < 2 ^ 33) (b : Buffers) :
    bytes b msg' = bytes b msg
      ++ (read b (cursor msg).place (cursor msg).offset nbytes ++ (packetData m b xs).flatten) := by
  obtain ⟨n, hsucc⟩ := Nat.exists_eq_succ_of_ne_zero (Nat.ne_of_gt hpos)
  have htoNat := h.toNat_last hn hlen
  have hbase : (msg'.msgIov (msg.iovlen - 1)).iovBase = (msg.msgIov (msg.iovlen - 1)).iovBase := by
    rw [h.last]
  have hcursor : cursor msg = ⟨.dma (msg.msgIov n).iovBase, (msg.msgIov n).iovLen.toNat⟩ := by
    rw [cursor, hsucc, Nat.succ_sub_one]
  rw [hsucc, Nat.succ_sub_one] at htoNat hbase
  have hlast : vectorBytes b (msg'.msgIov n)
      = vectorBytes b (msg.msgIov n)
        ++ read b (cursor msg).place (cursor msg).offset nbytes := by
    rw [vectorBytes, hbase, htoNat, read_add, hcursor, Nat.zero_add]
    rfl
  have hpackets : (xs.map (packetIovec m)).flatMap (vectorBytes b)
      = (packetData m b xs).flatten := by
    rw [List.flatMap_def, List.map_map, packetData]
    simp only [Function.comp_def, vectorBytes_packetIovec]
  have hbefore : bytes b msg = ((List.range n).map msg.msgIov).flatMap (vectorBytes b)
      ++ vectorBytes b (msg.msgIov n) := by
    rw [bytes, TxRun.vectors, hsucc, List.range_succ, List.map_append, List.flatMap_append,
      List.map_singleton, List.flatMap_singleton]
  rw [bytes, h.vectors_eq hsucc, List.flatMap_append, List.flatMap_cons, hlast, hpackets, hbefore]
  simp only [List.append_assoc]

/-- The message then ends with the last packet, if there is one. -/
theorem cursor_eq (h : Lengthened m nbytes xs msg msg') {x : Nat} (hx : xs.getLast? = some x) :
    cursor msg' = ⟨.dma x, writeSize m x⟩ := by
  have hne : xs ≠ [] := by
    rintro rfl
    cases hx
  have hpos := List.length_pos_iff.mpr hne
  have hindex : msg'.iovlen - 1 = msg.iovlen + (xs.length - 1) := by
    rw [h.iovlen]
    omega
  have hvector := h.vectors (xs.length - 1) x (by rw [← List.getLast?_eq_getElem?, hx])
  have hlt := writeSize_lt m x
  rw [cursor, hindex, hvector]
  dsimp only [packetIovec]
  rw [BitVec.toNat_ofNat, Nat.mod_eq_of_lt (by omega)]

end Lengthened

/-! ## The headers of a contributor -/

/-- The bytes of the record of packets of the sizes given. -/
def streamSize (sizes : List Nat) : Nat :=
  (streamLclSize (sizes.length + 1) + (packetTable 0 sizes).2) % 2 ^ 32

/-- The headers of a contributor with packets of the sizes given are in memory. -/
structure StreamHead (b : Buffers) (stream : Ptr) (left : Nat) (sizes : List Nat) : Prop where
  header : ∃ recType csf status, At b stream.place stream.offset
    (toBytes 8 (Stream.construct recType (streamSize sizes / 8)
      (Stream.Bridge.compose csf left status)))
  ranges : At b stream.place (stream.offset + 8) (toBytes 4 (Ranges.construct (rangeSize / 8)))
  toc : At b stream.place (stream.offset + 8 + rangeSize)
    (toBytes 4 (Toc.construct sizes.length (Toc.n64bytes (sizes.length + 1) / 8)))
  entries : ∀ j o, (packetTable 0 sizes).1[j]? = some o → ∃ type,
    At b stream.place (stream.offset + 8 + rangeSize + (4 + 4 * j))
      (toBytes 4 (Toc.Packet.compose type 0 o))
  packet : At b stream.place (stream.offset + 8 + rangeSize + Toc.n64bytes (sizes.length + 1))
    (toBytes 8 (Packet.construct ((8 + (packetTable 0 sizes).2 + 8 - 1) / 8)))

/-- The last entry is the terminating one. -/
theorem packetTable_last (sizes : List Nat) : ∀ ndata,
    (packetTable ndata sizes).1[sizes.length]? = some ((packetTable ndata sizes).2 / 8) := by
  induction sizes with
  | nil => exact fun _ => rfl
  | cons nbytes sizes ih =>
      intro ndata
      rw [packetTable_cons, List.length_cons, List.getElem?_cons_succ]
      exact ih _

/-- The table of contents with its padding. -/
theorem n64bytes_eq {k : Nat} (h : k < 2 ^ 16) : Toc.n64bytes k = (4 * k + 11) / 8 * 8 := by
  unfold Toc.n64bytes Toc.nbytes
  omega

theorem padded_eq {k : Nat} (h : k < 2 ^ 16) :
    (if Toc.nbytes k &&& 0x7 ≠ 0 then Toc.nbytes k + 4 else Toc.nbytes k) = Toc.n64bytes k := by
  have hmask : Toc.nbytes k &&& 0x7 = Toc.nbytes k % 2 ^ 3 := Nat.and_two_pow_sub_one_eq_mod _ 3
  have hnbytes : Toc.nbytes k = 4 + 4 * k := by
    unfold Toc.nbytes
    omega
  rw [hmask, n64bytes_eq h, hnbytes]
  split <;> omega

theorem streamLclSize_eq {k : Nat} (h : k < 2 ^ 16) : streamLclSize k = 72 + Toc.n64bytes k := by
  rw [streamLclSize, n64bytes_eq h, rangeSize]
  omega

/-- What is in memory stays when something is put beside it. -/
theorem At.put {b : Buffers} {place : Place} {q : Nat} {xs ys : List UInt8} {p : Ptr}
    (h : At b place q ys) (hd : q + ys.length ≤ p.offset ∨ p.offset + xs.length ≤ q) :
    At (b.put p xs) place q ys :=
  h.agree Agree.store (.inr hd)

theorem Agree.put {b : Buffers} {place : Place} {q n : Nat} {xs : List UInt8} {p : Ptr}
    (hplace : p.place = place) (hlo : q ≤ p.offset) (hhi : p.offset + xs.length ≤ q + n) :
    Agree b (b.put p xs) place q n := by
  subst hplace
  exact Agree.store.mono hlo hhi

theorem putRanges_spec (b : Buffers) (ranges : Ptr) (body : RangesBody) :
    Agree b (putRanges b ranges body) ranges.place ranges.offset rangeSize
      ∧ At (putRanges b ranges body) ranges.place ranges.offset
        (toBytes 4 (Ranges.construct (rangeSize / 8))) := by
  refine ⟨?_, At.store⟩
  unfold putRanges
  dsimp only
  refine (Agree.put (p := ranges.add 32) rfl ?_ ?_).trans
    ((Agree.put (p := ranges.add 4) rfl ?_ ?_).trans
      (Agree.put (p := ranges) rfl (Nat.le_refl _) ?_))
  all_goals
    simp only [Ptr.add, rangeSize, List.length_append, length_toBytes]
    omega

/-- What is written after the loop completes the headers. -/
theorem completeRecord_spec {b : Buffers} {stream : Ptr} {sizes : List Nat}
    (recType csf left status : Nat) (hlen : sizes.length < 2 ^ 15)
    (hranges : At b stream.place (stream.offset + 8) (toBytes 4 (Ranges.construct (rangeSize / 8))))
    (hentries : ∀ j < sizes.length, ∀ o, (packetTable 0 sizes).1[j]? = some o → ∃ type,
      At b stream.place (stream.offset + 8 + rangeSize + (4 + 4 * j))
        (toBytes 4 (Toc.Packet.compose type 0 o))) :
    Agree b
        (completeRecord b stream ((stream.add 8).add rangeSize) sizes.length (packetTable 0 sizes).2
          (Stream.construct recType (streamSize sizes / 8) (Stream.Bridge.compose csf left status)))
        stream.place stream.offset (streamLclSize (sizes.length + 1))
      ∧ StreamHead
        (completeRecord b stream ((stream.add 8).add rangeSize) sizes.length (packetTable 0 sizes).2
          (Stream.construct recType (streamSize sizes / 8) (Stream.Bridge.compose csf left status)))
        stream left sizes := by
  obtain ⟨n, hn⟩ : ∃ n, sizes.length = n := ⟨_, rfl⟩
  have htoc := n64bytes_eq (k := n + 1) (by omega)
  have hlcl := streamLclSize_eq (k := n + 1) (by omega)
  have hnbytes : Toc.nbytes (n + 1) = 4 + 4 * (n + 1) := by
    unfold Toc.nbytes
    omega
  have hr : rangeSize = 56 := rfl
  have hs (p : Ptr) (k : Nat) : (p.add k).offset = p.offset + k := rfl
  unfold completeRecord
  dsimp only
  rw [hn, padded_eq (k := n + 1) (by omega), hlcl, Nat.add_sub_cancel]
  -- the writes one after the other
  obtain ⟨b1, hb1⟩ : ∃ b1, b.put (((stream.add 8).add rangeSize).add (4 + 4 * n))
    (toBytes 4 (Toc.Packet.compose 0 0 ((packetTable 0 sizes).2 / 8))) = b1 := ⟨_, rfl⟩
  have h1 : Agree b b1 stream.place (stream.offset + 8 + rangeSize + (4 + 4 * n)) 4 :=
    hb1 ▸ Agree.store_toBytes
  have hlast : At b1 stream.place (stream.offset + 8 + rangeSize + (4 + 4 * n))
      (toBytes 4 (Toc.Packet.compose 0 0 ((packetTable 0 sizes).2 / 8))) := hb1 ▸ At.store
  rw [hb1]
  obtain ⟨b2, hb2⟩ : ∃ b2, b1.put ((stream.add 8).add rangeSize)
    (toBytes 4 (Toc.construct n (Toc.n64bytes (n + 1) / 8))) = b2 := ⟨_, rfl⟩
  have h2 : Agree b1 b2 stream.place (stream.offset + 8 + rangeSize) 4 :=
    hb2 ▸ Agree.store_toBytes
  have hhead : At b2 stream.place (stream.offset + 8 + rangeSize)
      (toBytes 4 (Toc.construct n (Toc.n64bytes (n + 1) / 8))) := hb2 ▸ At.store
  rw [hb2]
  obtain ⟨b3, hb3⟩ : ∃ b3, (if Toc.nbytes (n + 1) &&& 0x7 ≠ 0 then
      b2.put (((stream.add 8).add rangeSize).add (Toc.nbytes (n + 1))) (toBytes 4 0) else b2)
      = b3 := ⟨_, rfl⟩
  have h3 : Agree b2 b3 stream.place (stream.offset + 8 + rangeSize + (4 + 4 * (n + 1)))
      (Toc.n64bytes (n + 1) - (4 + 4 * (n + 1))) := by
    have hpadded := padded_eq (k := n + 1) (by omega)
    rw [← hb3]
    split at hpadded
    · rw [if_pos ‹_›]
      apply Agree.put rfl
      · rw [hs, hs, hs]
        omega
      · rw [hs, hs, hs, length_toBytes]
        omega
    · rw [if_neg ‹_›]
      exact Agree.refl
  rw [hb3]
  obtain ⟨b4, hb4⟩ : ∃ b4, b3.put (((stream.add 8).add rangeSize).add (Toc.n64bytes (n + 1)))
    (toBytes 8 (Packet.construct ((8 + (packetTable 0 sizes).2 + 8 - 1) / 8))) = b4 := ⟨_, rfl⟩
  have h4 : Agree b3 b4 stream.place (stream.offset + 8 + rangeSize + Toc.n64bytes (n + 1)) 8 :=
    hb4 ▸ Agree.store_toBytes
  have hpacket : At b4 stream.place (stream.offset + 8 + rangeSize + Toc.n64bytes (n + 1))
      (toBytes 8 (Packet.construct ((8 + (packetTable 0 sizes).2 + 8 - 1) / 8))) := hb4 ▸ At.store
  rw [hb4]
  obtain ⟨b5, hb5⟩ : ∃ b5, b4.put stream (toBytes 8 (Stream.construct recType
    (streamSize sizes / 8) (Stream.Bridge.compose csf left status))) = b5 := ⟨_, rfl⟩
  have h5 : Agree b4 b5 stream.place stream.offset 8 := hb5 ▸ Agree.store_toBytes
  have hheader : At b5 stream.place stream.offset (toBytes 8 (Stream.construct recType
    (streamSize sizes / 8) (Stream.Bridge.compose csf left status))) := hb5 ▸ At.store
  rw [hb5]
  have hkeep {q : Nat} {ys : List UInt8} (hlo : stream.offset + 8 ≤ q)
      (hin : q + ys.length ≤ stream.offset + 8 + rangeSize
        ∨ stream.offset + 8 + rangeSize + 4 ≤ q
          ∧ q + ys.length ≤ stream.offset + 8 + rangeSize + (4 + 4 * n))
      (h : At b stream.place q ys) : At b5 stream.place q ys :=
    ((((h.agree h1 (.inr (by omega))).agree h2 (.inr (by omega))).agree h3
      (.inr (by omega))).agree h4 (.inr (by omega))).agree h5 (.inr (by omega))
  constructor
  · exact (h1.mono (by omega) (by omega)).trans ((h2.mono (by omega) (by omega)).trans
      ((h3.mono (by omega) (by omega)).trans ((h4.mono (by omega) (by omega)).trans
        (h5.mono (by omega) (by omega)))))
  constructor
  · exact ⟨_, _, _, hheader⟩
  · exact hkeep (by omega) (by rw [length_toBytes]; omega) hranges
  · rw [hn]
    refine ((hhead.agree h3 ?_).agree h4 ?_).agree h5 ?_ <;>
    · rw [length_toBytes]
      omega
  · intro j o ho
    rcases Nat.lt_or_ge j n with hj | hj
    · obtain ⟨type, hat⟩ := hentries j (by omega) o ho
      exact ⟨type, hkeep (by omega) (by rw [length_toBytes]; omega) hat⟩
    · -- the terminating entry
      have hbound := (List.getElem?_eq_some_iff.mp ho).1
      rw [length_packetTable] at hbound
      obtain rfl : j = n := by omega
      have hterm := packetTable_last sizes 0
      rw [hn, ho] at hterm
      rw [Option.some.inj hterm]
      refine ⟨0, (((hlast.agree h2 ?_).agree h3 ?_).agree h4 ?_).agree h5 ?_⟩ <;>
      · rw [length_toBytes]
        omega
  · rw [hn]
    refine hpacket.agree h5 (.inr (.inr ?_))
    omega

/-- **The record of a contributor** with the packets of the list: the headers are in memory,
the message has the packets, and the next address is behind the last one. -/
theorem addTpcDataRecord_spec {fuel : Nat} {m : Memory} {ev : Event} {s : TxState}
    {ictb : Dest} {xs : List Nat} {x : Nat}
    (h : Holds m.links (.inl (.contrib ev.id ictb)) (cells xs)) (hlast : xs.getLast? = some x)
    (hfuel : xs.length < fuel) (hlen : xs.length < 2 ^ 15) (hpos : 0 < s.msg.iovlen)
    (stream : Ptr) (csf ctbsLeft : Nat) :
    ∃ s', addTpcDataRecord fuel m ev s stream ictb csf ctbsLeft
        = .ok (s', streamSize (xs.map (writeSize m)))
      ∧ Agree s.buffers s'.buffers stream.place stream.offset (streamLclSize (xs.length + 1))
      ∧ StreamHead s'.buffers stream ctbsLeft (xs.map (writeSize m))
      ∧ Lengthened m (streamLclSize (xs.length + 1)) xs s.msg s'.msg
      ∧ s'.nextAddress = ⟨.dma x, writeSize m x⟩ := by
  obtain ⟨s0, hs0⟩ : ∃ s0 : PacketState,
      { buffers := putRanges s.buffers (stream.add 8) (addRanges m ev ictb), msg := s.msg
        msgIovlen := s.msg.iovlen, pktIdx := 0, ndata := 0, status := 0
        p64 := s.nextAddress, nbytes := 0 } = s0 := ⟨_, rfl⟩
  obtain ⟨sizes, hsizes⟩ : ∃ sizes, xs.map (writeSize m) = sizes := ⟨_, rfl⟩
  have hcount : sizes.length = xs.length := by rw [← hsizes, List.length_map]
  obtain ⟨p, hrun, hadded⟩ :=
    packetLoop_spec ((stream.add 8).add rangeSize) xs s0 h.chain hfuel
  obtain ⟨hranges, hhead⟩ := putRanges_spec s.buffers (stream.add 8) (addRanges m ev ictb)
  have hpktIdx := hadded.pktIdx
  have hndata := hadded.ndata
  have hagree := hadded.agree
  have hentries := hadded.entries
  have hnext := hadded.last
  have hmsg := hadded.lengthened (by rw [← hs0]; exact hpos) (by rw [← hs0])
    (streamLclSize (xs.length + 1))
  rw [hsizes] at hndata hentries
  rw [hlast] at hnext
  rw [← hs0] at hpktIdx hndata hagree hentries hmsg
  rw [Nat.zero_add, ← hcount] at hpktIdx
  have hlcl := streamLclSize_eq (k := xs.length + 1) (by omega)
  have htoc := n64bytes_eq (k := xs.length + 1) (by omega)
  have hr : rangeSize = 56 := rfl
  have hs (q : Ptr) (k : Nat) : (q.add k).offset = q.offset + k := rfl
  simp only [hs, Nat.mul_zero, Nat.add_zero, Nat.zero_add] at hagree hentries hranges hhead
  have hsize : (streamLclSize (sizes.length + 1) + (packetTable 0 sizes).2) % 2 ^ 32
    = streamSize sizes := rfl
  obtain ⟨b, hb⟩ : ∃ b, completeRecord p.buffers stream ((stream.add 8).add rangeSize) sizes.length
    (packetTable 0 sizes).2 (Stream.construct
      (if p.status = 0 then fragment.RecType.TpcNormal else fragment.RecType.TpcDamaged)
      (streamSize sizes / 8) (Stream.Bridge.compose csf ctbsLeft p.status)) = b := ⟨_, rfl⟩
  obtain ⟨hwrite, hstream⟩ := completeRecord_spec
    (if p.status = 0 then fragment.RecType.TpcNormal else fragment.RecType.TpcDamaged) csf ctbsLeft
    p.status (by omega : sizes.length < 2 ^ 15)
    (hhead.agree hagree (.inr (.inl (by rw [length_toBytes]; omega))))
    (by rw [hcount]; exact hentries)
  rw [hb] at hwrite hstream
  rw [hcount] at hwrite
  rw [hsizes]
  refine ⟨⟨b, (p.msg.increase (s.msg.iovlen - 1)
    (BitVec.ofNat 32 (streamLclSize (xs.length + 1)))).setIovlen p.msgIovlen,
    p.p64.add p.nbytes⟩, ?_, ?_, hstream, hmsg, ?_⟩
  · rw [addTpcDataRecord]
    simp only [hs0, hrun, bind, Except.bind, hpktIdx, hndata, hsize, hb, ← hcount]
  · exact (hranges.mono (by omega) (by omega)).trans
      ((hagree.mono (by omega) (by omega)).trans hwrite)
  · rw [Prod.mk.injEq] at hnext
    dsimp only
    rw [hnext.1, hnext.2]
    dsimp only [Option.elim, Ptr.add]
    rw [Nat.zero_add]

/-- The headers at `stream` hold the fields of `r`. -/
structure RecordAt (b : Buffers) (stream : Ptr) (r : TpcRecord) : Prop where
  header : ∃ recType csf status, At b stream.place stream.offset
    (toBytes 8 (Stream.construct recType r.streamLength (Stream.Bridge.compose csf r.left status)))
  toc : At b stream.place (stream.offset + 8 + rangeSize)
    (toBytes 4 (Toc.construct r.npkts r.tocLength))
  entries : ∀ j o, r.offsets[j]? = some o → ∃ type,
    At b stream.place (stream.offset + 8 + rangeSize + (4 + 4 * j))
      (toBytes 4 (Toc.Packet.compose type 0 o))
  packet : At b stream.place (stream.offset + 8 + rangeSize + 8 * r.tocLength)
    (toBytes 8 (Packet.construct r.packetLength))

theorem StreamHead.recordAt {b : Buffers} {stream : Ptr} {left : Nat} {sizes : List Nat}
    (h : StreamHead b stream left sizes) (hlen : sizes.length < 2 ^ 15) (iovlen : Nat) :
    RecordAt b stream (recordOf sizes iovlen left) where
  header := h.header
  toc := h.toc
  entries := h.entries
  packet := by
    have htoc := n64bytes_eq (k := sizes.length + 1) (by omega)
    have hwhole : 8 * (Toc.n64bytes (sizes.length + 1) / 8) = Toc.n64bytes (sizes.length + 1) := by
      omega
    change At b _ (_ + 8 * (Toc.n64bytes (sizes.length + 1) / 8)) _
    rw [hwhole]
    exact h.packet

/-- The vectors of the packets are those that the record numbers. -/
theorem Lengthened.map_msgIov {m : Memory} {nbytes : Nat} {xs : List Nat} {msg msg' : TxMessage 64}
    (h : Lengthened m nbytes xs msg msg') :
    (List.range' msg.iovlen xs.length).map msg'.msgIov = xs.map (packetIovec m) := by
  refine List.ext_getElem (by simp) fun j hj hj' => ?_
  have hx : j < xs.length := by rwa [List.length_map] at hj'
  simp only [List.getElem_map, List.getElem_range', Nat.one_mul]
  exact h.vectors j xs[j] (List.getElem?_eq_getElem hx)

/-- **The bytes refine the record.** What `addTpcDataRecord` writes holds the fields of the record
of the same packets, and the message has its I/O vectors. -/
theorem addTpcDataRecord_refines {fuel : Nat} {m : Memory} {ev : Event} {s : TxState}
    {ictb : Dest} {xs : List Nat}
    (h : Holds m.links (.inl (.contrib ev.id ictb)) (cells xs)) (hne : xs ≠ [])
    (hfuel : xs.length < fuel) (hlen : xs.length < 2 ^ 15) (hpos : 0 < s.msg.iovlen)
    (stream : Ptr) (csf ctbsLeft : Nat) :
    ∃ s' size r, addTpcDataRecord fuel m ev s stream ictb csf ctbsLeft = .ok (s', size)
      ∧ Daq.addTpcDataRecord fuel m (.contrib ev.id ictb) s.msg.iovlen ctbsLeft = .ok r
      ∧ RecordAt s'.buffers stream r
      ∧ size / 8 = r.streamLength
      ∧ s'.msg.iovlen = s.msg.iovlen + r.npkts
      ∧ r.iovecs.map s'.msg.msgIov = xs.map (packetIovec m) := by
  obtain ⟨s', hrun, -, hhead, hmsg, -⟩ := addTpcDataRecord_spec h
    (List.getLast?_eq_getLast_of_ne_nil hne) hfuel hlen hpos stream csf ctbsLeft
  have hcount : (xs.map (writeSize m)).length = xs.length := List.length_map _
  have hnpkts : (recordOf (xs.map (writeSize m)) s.msg.iovlen ctbsLeft).npkts = xs.length := hcount
  have hiovecs : (recordOf (xs.map (writeSize m)) s.msg.iovlen ctbsLeft).iovecs
      = List.range' s.msg.iovlen xs.length := congrArg (List.range' s.msg.iovlen) hcount
  refine ⟨s', _, _, hrun, Daq.addTpcDataRecord_spec h hfuel s.msg.iovlen ctbsLeft,
    hhead.recordAt (by omega) s.msg.iovlen, rfl, ?_, ?_⟩
  · rw [hmsg.iovlen]
    exact congrArg (s.msg.iovlen + ·) hnpkts.symm
  · exact (congrArg (List.map s'.msg.msgIov) hiovecs).trans hmsg.map_msgIov

/-! ## The record that is sent -/

/-- Below 32 bits the entries are the places of the packets. -/
theorem packetTable_getElem (sizes : List Nat) : ∀ (ndata j : Nat), ndata + sizes.sum < 2 ^ 32 →
    j ≤ sizes.length →
    (packetTable ndata sizes).1[j]? = some ((ndata + (sizes.take j).sum) / 8) := by
  induction sizes with
  | nil =>
      intro ndata j _ hj
      obtain rfl : j = 0 := Nat.le_zero.mp hj
      rfl
  | cons nbytes sizes ih =>
      intro ndata j hlt hj
      rw [List.sum_cons] at hlt
      have hmod : (ndata + nbytes) % 2 ^ 32 = ndata + nbytes := Nat.mod_eq_of_lt (by omega)
      rw [packetTable_cons, hmod]
      cases j with
      | zero => rfl
      | succ j =>
          rw [List.getElem?_cons_succ, ih (ndata + nbytes) j (by omega) (Nat.le_of_succ_le_succ hj),
            List.take_succ_cons, List.sum_cons, Nat.add_assoc]

theorem streamLclSize_recordBytes (sizes : List Nat) (h : sizes.length < 2 ^ 15) :
    streamLclSize (sizes.length + 1) + sizes.sum = recordBytes sizes := by
  have hround : 4 * (sizes.length + 1) + 11 = 4 * sizes.length + 15 := by omega
  rw [streamLclSize_eq (by omega), n64bytes_eq (by omega), recordBytes, hround]

namespace StreamHead

variable {b b' : Buffers} {stream : Ptr} {left : Nat} {sizes : List Nat}

/-- The headers stay where nothing is written to them. -/
theorem agree (h : StreamHead b stream left sizes) {place : Place} {p n : Nat}
    (ha : Agree b b' place p n) (hlen : sizes.length < 2 ^ 15)
    (hd : stream.place ≠ place ∨ stream.offset + streamLclSize (sizes.length + 1) ≤ p
      ∨ p + n ≤ stream.offset) : StreamHead b' stream left sizes := by
  have hlcl := streamLclSize_eq (k := sizes.length + 1) (by omega)
  have htoc := n64bytes_eq (k := sizes.length + 1) (by omega)
  have hr : rangeSize = 56 := rfl
  have hkeep {q : Nat} {ys : List UInt8} (hlo : stream.offset ≤ q)
      (hhi : q + ys.length ≤ stream.offset + streamLclSize (sizes.length + 1))
      (hat : At b stream.place q ys) : At b' stream.place q ys := by
    apply hat.agree ha
    rcases hd with hd | hd | hd
    · exact .inl hd
    · exact .inr (.inl (Nat.le_trans hhi hd))
    · exact .inr (.inr (Nat.le_trans hd hlo))
  obtain ⟨recType, csf, status, hheader⟩ := h.header
  constructor
  · refine ⟨recType, csf, status, hkeep (Nat.le_refl _) ?_ hheader⟩
    rw [length_toBytes]
    omega
  · exact hkeep (by omega) (by rw [length_toBytes]; omega) h.ranges
  · exact hkeep (by omega) (by rw [length_toBytes]; omega) h.toc
  · intro j o ho
    have hj := (List.getElem?_eq_some_iff.mp ho).1
    rw [length_packetTable] at hj
    obtain ⟨type, hat⟩ := h.entries j o ho
    exact ⟨type, hkeep (by omega) (by rw [length_toBytes]; omega) hat⟩
  · exact hkeep (by omega) (by rw [length_toBytes]; omega) h.packet

/-- **The headers with the packets** are a stream record, if the bytes fit its length. -/
theorem streamAt (h : StreamHead b stream left sizes) {packets : List (List UInt8)}
    (hsizes : packets.map List.length = sizes) (h8 : ∀ n ∈ sizes, 8 ∣ n)
    (hlen : sizes.length < 2 ^ 8) (hbytes : recordBytes sizes < 2 ^ 27) (hleft : left < 2 ^ 8) :
    StreamAt rangeSize (Toc.n64bytes (sizes.length + 1)) left packets
      (read b stream.place stream.offset (streamLclSize (sizes.length + 1))
        ++ packets.flatten) := by
  have hlcl := streamLclSize_eq (k := sizes.length + 1) (by omega)
  have htoc := n64bytes_eq (k := sizes.length + 1) (by omega)
  have hr : rangeSize = 56 := rfl
  have hrecord := streamLclSize_recordBytes sizes (by omega)
  have hcount : packets.length = sizes.length := by rw [← hsizes, List.length_map]
  have hflat : packets.flatten.length = sizes.sum := by rw [List.length_flatten, hsizes]
  obtain ⟨hsum, -⟩ := packetTable_spec sizes 0 (by omega)
  rw [Nat.zero_add] at hsum
  have hdvd : 8 ∣ sizes.sum := List.dvd_sum h8
  have hin {q n x : Nat} (hat : At b stream.place (stream.offset + q) (toBytes n x))
      (hx : x < 2 ^ (8 * n)) (hle : q + n ≤ streamLclSize (sizes.length + 1)) :
      field (read b stream.place stream.offset (streamLclSize (sizes.length + 1))
        ++ packets.flatten) q n = some x :=
    field_append_left (hat.field hx hle)
  obtain ⟨recType, csf, status, hheader⟩ := h.header
  constructor
  · have hstream : streamSize sizes = recordBytes sizes := by
      rw [streamSize, hsum]
      omega
    refine ⟨_, hin hheader Header1.compose_lt (by omega), ?_, ?_⟩
    · rw [Stream.construct, Header1.n64_compose (by omega), List.length_append, length_read, hflat,
        hstream]
      omega
    · rw [Stream.construct, Header1.bridge_compose Stream.bridge_lt, Stream.left_compose hleft]
  · refine ⟨_, hin (q := 8) h.ranges Header2.compose_lt (by omega), ?_, ?_⟩
    · exact Header2.type_compose (by decide)
    · rw [Ranges.construct, Header2.n64_compose (by omega)]
      omega
  · have hat := h.toc
    rw [Nat.add_assoc] at hat
    refine ⟨_, hin hat Header2.compose_lt (by omega), ?_, ?_, ?_⟩
    · exact Header2.type_compose (by decide)
    · rw [Toc.construct, Header2.n64_compose (by omega)]
      omega
    · rw [Toc.count_construct hlen, hcount]
  · intro j hj
    rw [hcount] at hj
    have hoffset := packetTable_getElem sizes 0 j (by omega) hj
    obtain ⟨type, hat⟩ := h.entries j _ hoffset
    rw [Nat.add_assoc, Nat.add_assoc] at hat
    have hplace : 8 + rangeSize + 4 + 4 * j = 8 + (rangeSize + (4 + 4 * j)) := by omega
    have htake : (sizes.take j).sum ≤ sizes.sum := by
      conv_rhs => rw [← List.take_append_drop j sizes, List.sum_append]
      exact Nat.le_add_right _ _
    have hwhole : 8 ∣ (sizes.take j).sum :=
      List.dvd_sum fun n hn => h8 n (List.mem_of_mem_take hn)
    have hfield := hin hat Toc.packet_lt (by omega)
    rw [← hplace] at hfield
    refine ⟨_, hfield, ?_⟩
    rw [Toc.offset_compose (by omega), packetOffset, hsizes]
    omega
  · rw [hcount]
    omega
  · have hat := h.packet
    rw [Nat.add_assoc, Nat.add_assoc, ← Nat.add_assoc 8] at hat
    refine ⟨_, hin hat Header1.compose_lt (by omega), ?_, ?_⟩
    · exact Header1.type_compose (by decide)
    · rw [Packet.construct, Header1.n64_compose (by omega), hsum, hflat]
      omega
  · have hend : 8 + rangeSize + Toc.n64bytes (sizes.length + 1) + 8
        = (read b stream.place stream.offset (streamLclSize (sizes.length + 1))).length := by
      rw [length_read]
      omega
    rw [hend, List.drop_left]

end StreamHead

end TxRun

end ProtoDune.Daq
