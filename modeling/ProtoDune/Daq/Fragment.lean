import Mathlib.Algebra.BigOperators.Ring.List
import Mathlib.Algebra.GroupWithZero.Nat
import ProtoDune.Daq.Headers
import ProtoDune.Lib.ByteMemory

/-!
# The event fragment, and `TpcPrinter.h` which walks over it

A fragment is a header, the originator record, one stream record for each contributor
with data, and a trailer. A stream record has the ranges, a table of contents and the
packets. The printer finds them by the lengths in the headers and the offsets in the table.

Main results:

* `StreamAt.printTpcRecords` — the printer finds the packets of a stream record.
* `Records.printRecords` — it finds the records one after the other.
* `WellFormed.acceptFrame` — it finds the packets of a well formed fragment.
-/

namespace ProtoDune.Daq

open ByteMemory

/-! ## What a fragment is -/

/-- Where packet `j` begins in the data of the packets. -/
def packetOffset (packets : List (List UInt8)) (j : Nat) : Nat :=
  ((packets.map List.length).take j).sum

/-- The bytes of a stream record, with the bytes `r` of the ranges and `t` of the table of
contents: the header, the ranges, the table, the header of the packets, the packets. -/
structure StreamAt (r t left : Nat) (packets : List (List UInt8)) (record : List UInt8) :
    Prop where
  header : ∃ w, field record 0 8 = some w ∧ 8 * Header1.n64 w = record.length
    ∧ Stream.Bridge.LeftField.extract (Header1.bridge w) = left
  ranges : ∃ w, field record 8 4 = some w ∧ Header2.type w = Stream.RecType.Ranges
    ∧ 8 * Header2.n64 w = r
  toc : ∃ w, field record (8 + r) 4 = some w ∧ Header2.type w = Stream.RecType.Toc
    ∧ 8 * Header2.n64 w = t ∧ Toc.CountField.extract (Header2.bridge w) = packets.length
  /-- An entry for each packet, and the terminating one. -/
  entries : ∀ j ≤ packets.length, ∃ w, field record (8 + r + 4 + 4 * j) 4 = some w
    ∧ 8 * Toc.Packet.Offset64Field.extract w = packetOffset packets j
  room : 4 + 4 * (packets.length + 1) ≤ t
  packet : ∃ w, field record (8 + r + t) 8 = some w ∧ Header1.type w = Stream.RecType.Packets
    ∧ 8 * Header1.n64 w = 8 + packets.flatten.length
  data : record.drop (8 + r + t + 8) = packets.flatten

/-- A stream record, with the number of those that follow it. -/
def IsStream (left : Nat) (packets : List (List UInt8)) (record : List UInt8) : Prop :=
  ∃ r t, StreamAt r t left packets record

/-- The stream records of contributors, each with its packets, and the trailer. -/
def Records : List (List (List UInt8)) → List UInt8 → Prop
  | [], bytes => bytes.length = 8
  | packets :: rest, bytes =>
      ∃ record tail, bytes = record ++ tail ∧ IsStream rest.length packets record
        ∧ Records rest tail

/-- A fragment with the packets of its contributors. -/
structure WellFormed (contributors : List (List (List UInt8))) (bytes : List UInt8) : Prop where
  /-- The header has the length of the whole, and the last word is its trailer. -/
  header : ∃ w, field bytes 0 8 = some w ∧ Header0.BridgeField.extract w = fragment.Pattern
    ∧ 8 * Header0.length w = bytes.length
    ∧ field bytes (bytes.length - 8) 8 = some (Trailer.compose w)
  /-- After the header with its identifier comes the originator, then the records. -/
  records : ∃ w, field bytes (8 + 8 * fragment.Identifier.n64) 4 = some w
    ∧ Records contributors
      (bytes.drop (8 + 8 * fragment.Identifier.n64 + 8 * Header2.n64 w))

/-! ## The printer

What is only printed is left out. A reading is none past the end of the bytes. -/

/-- What `print_tpcRecords` finds: the streams left, of each packet the offset and the
length in its table of contents, and where the packet is. -/
structure TpcPrint where
  left : Nat
  toc : List (Nat × Nat)
  packets : List Nat

/-- The loop of `print_toc` with `more` descriptors to go, after the offset `offset64`. -/
def printTocLoop (buff : List UInt8) : (more pktPtr offset64 : Nat) → Option (List (Nat × Nat))
  | 0, pktPtr, _ => do
      -- the look-ahead goes on at the last packet descriptor
      let _ ← field buff pktPtr 4
      some []
  | more + 1, pktPtr, offset64 => do
      let pkt ← field buff pktPtr 4
      let o64 := pkt >>> 8 &&& 0xffffff
      let rest ← printTocLoop buff more (pktPtr + 4) o64
      some ((offset64, (o64 + 2 ^ 32 - offset64) % 2 ^ 32) :: rest)

/-- `print_toc` -/
def printToc (buff : List UInt8) (toc : Nat) : Option (List (Nat × Nat)) := do
  let data ← field buff toc 8
  let hdr := data % 2 ^ 32
  let npkts := hdr >>> 24 &&& 0xff
  let _ ← field buff (toc + 4) 4
  printTocLoop buff npkts (toc + 4 + 4) 0

/-- The loop of `print_tpcRecords` with `more` descriptors to go. -/
def printPackets (buff : List UInt8) (ppkts : Nat) : (more ppktDscs : Nat) → Option (List Nat)
  | 0, _ => some []
  | more + 1, ppktDscs => do
      let pktDsc ← field buff ppktDscs 4
      let opkt := pktDsc >>> 8 &&& 0xffffff
      let rest ← printPackets buff ppkts more (ppktDscs + 4)
      some ((ppkts + 8 * opkt) :: rest)

/-- `print_tpcRecords` -/
def printTpcRecords (buff : List UInt8) (data : Nat) : Option TpcPrint := do
  let header ← field buff data 8
  let range := data + 8
  let bridge := header >>> 32 &&& 0xffffffff
  let left := bridge >>> 16 &&& 0xf
  let range0 ← field buff range 8
  let rngSize := range0 >>> 8 &&& 0xfff
  let toc := range + 8 * rngSize
  let entries ← printToc buff toc
  let tocHdr ← field buff toc 4
  let n64toc := tocHdr >>> 8 &&& 0xfff
  let npkts := tocHdr >>> 24 &&& 0xff
  let ppkts := toc + 8 * n64toc + 8
  let packets ← printPackets buff ppkts npkts (toc + 4)
  some { left, toc := entries, packets }

/-- The loop of `print_record` from `tpcRecords` on, when it takes `more` records; it
gives up at one more. -/
def printRecords (buff : List UInt8) (pTrailer : Nat) :
    (more tpcRecords : Nat) → Option (List TpcPrint)
  | 0, tpcRecords => if tpcRecords < pTrailer then none else some []
  | more + 1, tpcRecords =>
      if tpcRecords < pTrailer then do
        let header ← field buff tpcRecords 8
        let ntpc64 := header >>> 8 &&& 0xffffff
        let tpc ← printTpcRecords buff tpcRecords
        let rest ← printRecords buff pTrailer more (tpcRecords + 8 * ntpc64)
        some (tpc :: rest)
      else some []

/-- `print_record` of the words from `data` on. -/
def printRecord (buff : List UInt8) (data ndata : Nat) : Option (List TpcPrint) := do
  let origin := data + 8 * 2
  let origin0 ← field buff origin 8
  let n64origin := origin0 >>> 8 &&& 0xfff
  let pTrailer := data + 8 * ndata - 8
  printRecords buff pTrailer 2 (origin + 8 * n64origin)

/-- `Receiver::acceptFrame`, where the frame is printed. -/
def acceptFrame (buff : List UInt8) : Option (List TpcPrint) := do
  let header ← field buff 0 8
  if header >>> 40 ≠ 0x8b309e then none
  else printRecord buff 8 (buff.length / 8 - 1)

/-- The packets that are found. -/
def TpcPrint.found (buff : List UInt8) (tpc : TpcPrint) : List (List UInt8) :=
  List.zipWith (fun ppkt entry => (buff.drop ppkt).take (8 * entry.2)) tpc.packets tpc.toc

/-! ## The walk over a stream record -/

theorem packetOffset_succ {packets : List (List UInt8)} {j : Nat} (h : j < packets.length) :
    packetOffset packets (j + 1) = packetOffset packets j + packets[j].length := by
  have hmap : j < (packets.map List.length).length := by rwa [List.length_map]
  rw [packetOffset, List.take_add_one, List.getElem?_eq_getElem hmap, List.sum_append,
    List.getElem_map]
  exact congrArg _ (List.sum_singleton)

/-- The bytes of a packet in those of all. -/
theorem take_drop_flatten {packets : List (List UInt8)} {j : Nat} (h : j < packets.length)
    (tail : List UInt8) :
    ((packets.flatten ++ tail).drop (packetOffset packets j)).take packets[j].length
      = packets[j] := by
  have hsplit : packets.flatten
      = (packets.take j).flatten ++ (packets[j] ++ (packets.drop (j + 1)).flatten) := by
    rw [← List.flatten_cons, ← List.drop_eq_getElem_cons h, ← List.flatten_append,
      List.take_append_drop]
  have hlen : packetOffset packets j = (packets.take j).flatten.length := by
    rw [packetOffset, List.length_flatten, List.map_take]
  rw [hsplit, hlen, List.append_assoc, List.drop_left, List.append_assoc, List.take_left]

section Loops

variable {buff : List UInt8} {toc n : Nat} {off : Nat → Nat}

/-- **The loop over the table** finds the offset and the length of each packet. -/
theorem printTocLoop_spec
    (hentries : ∀ j ≤ n, ∃ w, field buff (toc + 4 + 4 * j) 4 = some w
      ∧ 8 * Toc.Packet.Offset64Field.extract w = off j)
    (hlast : toc + 4 + 4 * (n + 1) + 4 ≤ buff.length)
    (hmono : ∀ j < n, off j ≤ off (j + 1)) (more : Nat) :
    ∀ {j : Nat}, j + more = n →
      printTocLoop buff more (toc + 4 + 4 * (j + 1)) (off j / 8)
        = some ((List.range' j more).map fun i => (off i / 8, (off (i + 1) - off i) / 8)) := by
  induction more with
  | zero =>
      intro j hj
      obtain rfl : j = n := hj
      obtain ⟨w, hw⟩ := exists_field hlast
      rw [printTocLoop, hw]
      rfl
  | succ more ih =>
      intro j hj
      obtain ⟨v, -, hv⟩ := hentries j (by omega)
      obtain ⟨w, hw, hoff⟩ := hentries (j + 1) (by omega)
      have hrest := ih (show j + 1 + more = n by omega)
      have hstep := hmono j (by omega)
      have hfits : Toc.Packet.Offset64Field.extract w < 2 ^ 24 := Nat.and_lt_two_pow _ (by decide)
      have ho64 : w >>> 8 &&& 0xffffff = off (j + 1) / 8 := by
        change Toc.Packet.Offset64Field.extract w = off (j + 1) / 8
        omega
      have hn64 : (off (j + 1) / 8 + 2 ^ 32 - off j / 8) % 2 ^ 32 = (off (j + 1) - off j) / 8 := by
        omega
      rw [printTocLoop, hw]
      simp only [bind, Option.bind, ho64, hn64]
      rw [Nat.add_assoc _ (4 * (j + 1)) 4, ← Nat.mul_succ 4 (j + 1), hrest, List.range'_succ,
        List.map_cons]

/-- **The loop over the packets** finds where they are. -/
theorem printPackets_spec
    (hentries : ∀ j ≤ n, ∃ w, field buff (toc + 4 + 4 * j) 4 = some w
      ∧ 8 * Toc.Packet.Offset64Field.extract w = off j) (ppkts more : Nat) :
    ∀ {j : Nat}, j + more = n →
      printPackets buff ppkts more (toc + 4 + 4 * j)
        = some ((List.range' j more).map fun i => ppkts + off i) := by
  induction more with
  | zero =>
      intro j _
      rfl
  | succ more ih =>
      intro j hj
      obtain ⟨w, hw, hoff⟩ := hentries j (by omega)
      have hrest := ih (show j + 1 + more = n by omega)
      have hopkt : 8 * (w >>> 8 &&& 0xffffff) = off j := hoff
      rw [printPackets, hw]
      simp only [bind, Option.bind, hopkt]
      rw [Nat.add_assoc _ (4 * j) 4, ← Nat.mul_succ 4 j, hrest, List.range'_succ, List.map_cons]

end Loops

/-- The fields of the headers, as the printer takes them from longer words. -/
theorem bridge_left {w left : Nat} (h : Stream.Bridge.LeftField.extract (Header1.bridge w) = left)
    (hleft : left < 2 ^ 4) : (w >>> 32 &&& 0xffffffff) >>> 16 &&& 0xf = left := by
  have hmask : ∀ x : Nat, x &&& 0xf = x % 2 ^ 4 := fun x => Nat.and_two_pow_sub_one_eq_mod x 4
  rw [BitFields.Field.extract_eq] at h
  change Header1.bridge w / 2 ^ 16 % 2 ^ 8 = left at h
  change Header1.bridge w >>> 16 &&& 0xf = left
  rw [hmask, Nat.shiftRight_eq_div_pow]
  omega

theorem header2_n64 {w y n : Nat} (hlow : y % 2 ^ 32 = w) (h : Header2.n64 w = n) :
    y >>> 8 &&& 0xfff = n := by
  have hmask : ∀ x : Nat, x &&& 0xfff = x % 2 ^ 12 := fun x => Nat.and_two_pow_sub_one_eq_mod x 12
  rw [Header2.n64, BitFields.Field.extract_eq] at h
  change w / 2 ^ 8 % 2 ^ 12 = n at h
  rw [hmask, Nat.shiftRight_eq_div_pow]
  omega

theorem toc_npkts {w n : Nat} (h : Toc.CountField.extract (Header2.bridge w) = n) :
    w >>> 24 &&& 0xff = n := by
  have hmask : ∀ x : Nat, x &&& 0xff = x % 2 ^ 8 := fun x => Nat.and_two_pow_sub_one_eq_mod x 8
  rw [Header2.bridge, BitFields.Field.extract_eq, BitFields.Field.extract_eq] at h
  change w / 2 ^ 20 % 2 ^ 12 / 2 ^ 4 % 2 ^ 8 = n at h
  rw [hmask, Nat.shiftRight_eq_div_pow]
  omega

namespace StreamAt

variable {r t left : Nat} {packets : List (List UInt8)} {record pre tail : List UInt8}

theorem length_record (h : StreamAt r t left packets record) :
    record.length = 8 + r + t + 8 + packets.flatten.length := by
  obtain ⟨w, hw, -⟩ := h.packet
  have hle := le_of_field hw
  have hdata := congrArg List.length h.data
  rw [List.length_drop] at hdata
  omega

/-- The packets in the whole fragment. -/
theorem take_drop (h : StreamAt r t left packets record) {j : Nat} (hj : j < packets.length) :
    ((pre ++ (record ++ tail)).drop (pre.length + 8 + r + t + 8 + packetOffset packets j)).take
      packets[j].length = packets[j] := by
  have hlen := h.length_record
  have hplace : pre.length + 8 + r + t + 8 + packetOffset packets j
      = pre.length + ((8 + r + t + 8) + packetOffset packets j) := by omega
  rw [hplace, ← List.drop_drop, List.drop_left, ← List.drop_drop,
    List.drop_append_of_le_length (by omega), h.data]
  exact take_drop_flatten hj tail

/-- **The printer** finds the packets of a stream record. -/
theorem printTpcRecords (h : StreamAt r t left packets record) (hleft : left < 2 ^ 4)
    (pre tail : List UInt8) :
    ∃ tpc, ProtoDune.Daq.printTpcRecords (pre ++ (record ++ tail)) pre.length = some tpc
      ∧ tpc.left = left ∧ tpc.found (pre ++ (record ++ tail)) = packets := by
  obtain ⟨buff, hbuff⟩ : ∃ buff, pre ++ (record ++ tail) = buff := ⟨_, rfl⟩
  have hin {p n x : Nat} (hx : field record p n = some x) :
      field buff (pre.length + p) n = some x := hbuff ▸ field_append hx
  have hlen := h.length_record
  have hroom := h.room
  obtain ⟨header, hheader, -, hbridge⟩ := h.header
  obtain ⟨ranges, hranges, -, hr⟩ := h.ranges
  obtain ⟨toc, htoc, -, ht, hcount⟩ := h.toc
  -- the printer reads whole words
  obtain ⟨range0, hrange0, hlow⟩ := field_longer (k := 4) hranges (by omega)
  obtain ⟨toc0, htoc0, htlow⟩ := field_longer (k := 4) htoc (by omega)
  obtain ⟨entry0, hentry0, -⟩ := h.entries 0 (Nat.zero_le _)
  have hplace : pre.length + 8 + r = pre.length + (8 + r) := Nat.add_assoc _ _ _
  have hentries : ∀ j ≤ packets.length, ∃ w,
      field buff (pre.length + 8 + r + 4 + 4 * j) 4 = some w
        ∧ 8 * Toc.Packet.Offset64Field.extract w = packetOffset packets j := by
    intro j hj
    obtain ⟨w, hw, hoff⟩ := h.entries j hj
    refine ⟨w, ?_, hoff⟩
    rw [← hin hw]
    congr 1
    omega
  have hbound : pre.length + 8 + r + 4 + 4 * (packets.length + 1) + 4 ≤ buff.length := by
    rw [← hbuff, List.length_append, List.length_append]
    omega
  have hmono : ∀ j < packets.length, packetOffset packets j ≤ packetOffset packets (j + 1) := by
    intro j hj
    rw [packetOffset_succ hj]
    exact Nat.le_add_right _ _
  have hrng : 8 * (range0 >>> 8 &&& 0xfff) = r := by rw [header2_n64 hlow rfl, hr]
  have hn64 : 8 * (toc >>> 8 &&& 0xfff) = t := ht
  have hnpkts := toc_npkts hcount
  have hloop := printTocLoop_spec hentries hbound hmono packets.length
    (Nat.zero_add packets.length)
  have hpackets := printPackets_spec hentries (pre.length + 8 + r + t + 8) packets.length
    (Nat.zero_add packets.length)
  have hprintToc : printToc buff (pre.length + 8 + r)
      = some ((List.range' 0 packets.length).map fun i => (packetOffset packets i / 8,
          (packetOffset packets (i + 1) - packetOffset packets i) / 8)) := by
    have hfirst := hin hentry0
    rw [Nat.mul_zero, Nat.add_zero, ← Nat.add_assoc, ← hplace] at hfirst
    rw [printToc, hplace, hin htoc0, ← hplace]
    simp only [bind, Option.bind, htlow, hnpkts, hfirst]
    have hzero : packetOffset packets 0 / 8 = 0 := by rw [packetOffset, List.take_zero]; rfl
    rw [hzero] at hloop
    exact hloop
  have hrun : ProtoDune.Daq.printTpcRecords buff pre.length
      = some ⟨left, (List.range' 0 packets.length).map fun i => (packetOffset packets i / 8,
          (packetOffset packets (i + 1) - packetOffset packets i) / 8),
          (List.range' 0 packets.length).map fun i =>
            pre.length + 8 + r + t + 8 + packetOffset packets i⟩ := by
    have hhead := hin hheader
    have hfirst := hin htoc
    rw [Nat.add_zero] at hhead
    rw [← hplace] at hfirst
    rw [ProtoDune.Daq.printTpcRecords, hhead]
    simp only [bind, Option.bind, hin hrange0, hrng, hprintToc, hfirst, hn64, hnpkts,
      bridge_left hbridge hleft]
    rw [hpackets]
  rw [hbuff]
  refine ⟨_, hrun, rfl, ?_⟩
  rw [TpcPrint.found]
  dsimp only
  apply List.ext_getElem
  · simp
  · intro j hj hj'
    obtain ⟨v, -, hv⟩ := h.entries j (Nat.le_of_lt hj')
    obtain ⟨w, -, hw⟩ := h.entries (j + 1) hj'
    have hstep := packetOffset_succ hj'
    have hwhole : 8 * ((packetOffset packets (j + 1) - packetOffset packets j) / 8)
        = packets[j].length := by omega
    simp only [List.getElem_zipWith, List.getElem_map, List.getElem_range', Nat.one_mul,
      Nat.zero_add, hwhole]
    rw [← hbuff]
    exact h.take_drop hj'

end StreamAt

/-! ## The walk over a fragment -/

theorem Records.le_length {contributors : List (List (List UInt8))} :
    ∀ {bytes : List UInt8}, Records contributors bytes → 8 ≤ bytes.length := by
  induction contributors with
  | nil => exact fun h => Nat.le_of_eq h.symm
  | cons packets rest ih =>
      rintro _ ⟨record, tail, rfl, -, hrest⟩
      have htail := ih hrest
      rw [List.length_append]
      omega

/-- **The printer** finds the records one after the other. -/
theorem Records.printRecords {buff : List UInt8} {contributors : List (List (List UInt8))} :
    ∀ {pre bytes : List UInt8} {more : Nat}, Records contributors bytes → buff = pre ++ bytes →
      contributors.length ≤ more → more < 2 ^ 4 →
      ∃ tpcs, ProtoDune.Daq.printRecords buff (buff.length - 8) more pre.length = some tpcs
        ∧ tpcs.map (TpcPrint.found buff) = contributors := by
  induction contributors with
  | nil =>
      intro pre bytes more h hbuff _ _
      have hend : ¬ pre.length < buff.length - 8 := by
        rw [hbuff, List.length_append, show bytes.length = 8 from h]
        omega
      refine ⟨[], ?_, rfl⟩
      cases more <;> rw [ProtoDune.Daq.printRecords, if_neg hend]
  | cons packets rest ih =>
      rintro pre bytes more ⟨record, tail, rfl, ⟨r, t, hrecord⟩, hrest⟩ hbuff hle hmore
      rw [List.length_cons] at hle
      obtain ⟨more, rfl⟩ := Nat.exists_eq_succ_of_ne_zero (Nat.ne_of_gt (Nat.zero_lt_of_lt hle))
      have hlen := hrecord.length_record
      have htail := hrest.le_length
      have hgo : pre.length < buff.length - 8 := by
        rw [hbuff, List.length_append, List.length_append]
        omega
      obtain ⟨w, hw, hn64, -⟩ := hrecord.header
      have hheader : field buff pre.length 8 = some w := by
        rw [hbuff]
        exact field_append hw
      have hnext : pre.length + 8 * (w >>> 8 &&& 0xffffff) = (pre ++ record).length := by
        rw [List.length_append, ← hn64]
        rfl
      obtain ⟨tpc, hprint, -, hfound⟩ :=
        hrecord.printTpcRecords (by omega) pre tail
      rw [← hbuff] at hprint hfound
      obtain ⟨tpcs, hrun, hmap⟩ :=
        ih hrest (show buff = (pre ++ record) ++ tail by rw [hbuff, List.append_assoc])
          (Nat.le_of_succ_le_succ hle) (Nat.lt_of_succ_lt hmore)
      refine ⟨tpc :: tpcs, ?_, by rw [List.map_cons, hfound, hmap]⟩
      rw [ProtoDune.Daq.printRecords, if_pos hgo, hheader]
      simp only [bind, Option.bind, hprint, hnext, hrun]

/-- **The packets** of a well formed fragment are found. -/
theorem WellFormed.acceptFrame {contributors : List (List (List UInt8))} {bytes : List UInt8}
    (h : WellFormed contributors bytes) (hle : contributors.length ≤ 2) :
    ∃ tpcs, ProtoDune.Daq.acceptFrame bytes = some tpcs
      ∧ tpcs.map (TpcPrint.found bytes) = contributors := by
  obtain ⟨w, hw, hpattern, hlength, -⟩ := h.header
  obtain ⟨o, ho, hrecords⟩ := h.records
  have hrest := hrecords.le_length
  rw [List.length_drop] at hrest
  change 8 ≤ bytes.length - (24 + 8 * Header2.n64 o) at hrest
  change field bytes 24 4 = some o at ho
  obtain ⟨origin0, horigin0, hlow⟩ := field_longer (k := 4) ho (by omega)
  have hsync : w >>> 40 = 0x8b309e := by
    have hlt := field_lt hw
    rw [BitFields.Field.extract_eq] at hpattern
    change w / 2 ^ 40 % 2 ^ 24 = 0x8b309e at hpattern
    rw [Nat.shiftRight_eq_div_pow]
    omega
  have hpre : (bytes.take (24 + 8 * Header2.n64 o)).length = 24 + 8 * Header2.n64 o := by
    rw [List.length_take]
    omega
  obtain ⟨tpcs, hrun, hmap⟩ := hrecords.printRecords
    (List.take_append_drop (24 + 8 * Header2.n64 o) bytes).symm hle (by decide)
  rw [hpre] at hrun
  have htrailer : 8 + 8 * (bytes.length / 8 - 1) - 8 = bytes.length - 8 := by omega
  refine ⟨tpcs, ?_, hmap⟩
  rw [ProtoDune.Daq.acceptFrame, hw]
  have horigin : field bytes (8 + 8 * 2) 8 = some origin0 := horigin0
  simp only [bind, Option.bind, hsync, ne_eq, not_true, if_false, printRecord, htrailer, horigin,
    header2_n64 hlow rfl]
  exact hrun

end ProtoDune.Daq
