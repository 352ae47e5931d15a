import Mathlib.Data.List.Perm.Subperm
import ProtoDune.Daq.WindowSelection

/-!
# `DaqBuffer::txRun`: the record of an event, `Event::free`

An event is sent as one message: the header, and one I/O vector for each packet. The
records of the contributors are made in the memory of the header, each with a table of
contents of its packets. Then the packets are given back.

Main results:

* `addContributors_spec` — the records are those of the lists.
* `vectors_iff` — when the I/O vectors fit the message.
* `recordOf_fits_iff` — when the counts and lengths of a record fit their fields.
* `freeWalk_spec` — the walk of `free` is never cut off.
-/

namespace ProtoDune.Daq

open LinkChain

/-! ## The record of a contributor -/

/-- `MAX_PACKETS` -/
def MAX_PACKETS : Nat := 2 * 32

/-- `NIOVECS` of a `TxMsg`. -/
def NIOVECS : Nat := 32

/-- `getWriteSize`: the size without the two trailer words, in 32 bits. -/
def FrameBuffer.getWriteSize (fb : FrameBuffer) : Nat := (fb.size + (2 ^ 32 - 2 * 8)) % 2 ^ 32

def Memory.getWriteSize (m : Memory) : Addr → Nat
  | .inr index => (m.body index).getWriteSize
  | .inl _ => 0

/-- `Toc::nbytes`: the header and `idx` entries. -/
def Toc.nbytes (idx : Nat) : Nat := (4 + 4 * idx) % 2 ^ 32

/-- `Toc::n64bytes` -/
def Toc.n64bytes (idx : Nat) : Nat := (Toc.nbytes idx + 7) / 8 * 8 % 2 ^ 32

/-- `sizeof (Ranges)` -/
def rangeSize : Nat := 56

/-- What `addTpcDataRecord` writes: the indices of the I/O vectors, the offsets of the
entries of the table of contents with the terminating one, and the counts and lengths in
the headers. -/
structure TpcRecord where
  iovecs : List Nat
  offsets : List Nat
  npkts : Nat
  tocLength : Nat
  packetLength : Nat
  streamLength : Nat
  left : Nat

/-- The loop of `addTpcDataRecord` over the packets of the list, from `node`. -/
def packetLoop (m : Memory) (terminal : Addr) :
    Nat → Addr → Nat → Nat → Except Stop (List Nat × List Nat × Nat)
  | 0, _, _, _ => .error .hang
  | fuel + 1, node, iovlen, ndata =>
      -- the terminating entry
      if node = terminal then .ok ([], [ndata / 8], ndata)
      else do
        let nbytes := m.getWriteSize node
        let (iovecs, offsets, ndata') ←
          packetLoop m terminal fuel (m.links.flnk node) (iovlen + 1) ((ndata + nbytes) % 2 ^ 32)
        .ok (iovlen :: iovecs, ndata / 8 :: offsets, ndata')

/-- `addTpcDataRecord` -/
def addTpcDataRecord (fuel : Nat) (m : Memory) (list : Head) (iovlen left : Nat) :
    Except Stop TpcRecord := do
  let (iovecs, offsets, ndata) ←
    packetLoop m (.inl list) fuel (m.links.flnk (.inl list)) iovlen 0
  let pktIdx := offsets.length
  let streamLclSize := (8 + rangeSize + Toc.n64bytes pktIdx + 8) % 2 ^ 32
  let streamSize := (streamLclSize + ndata) % 2 ^ 32
  .ok
    { iovecs
      offsets
      npkts := pktIdx - 1
      tocLength := Toc.n64bytes pktIdx / 8
      packetLength := (8 + ndata + 7) / 8
      streamLength := streamSize / 8
      left }

/-- The loop of `addContributors` over the contributors of the event, with `nctbs` of
them left and the next I/O vector. -/
def addContributors (fuel : Nat) (m : Memory) (ev : Event) :
    List Dest → Nat → Nat → Except Stop (List TpcRecord)
  | [], _, _ => .ok []
  | ictb :: ictbs, nctbs, iovlen =>
      let list := Head.contrib ev.id ictb
      if ev.ctbs &&& ctbMask ictb = 0 then addContributors fuel m ev ictbs nctbs iovlen
      -- an empty contributor
      else if m.links.flnk (.inl list) = .inl list then
        addContributors fuel m ev ictbs nctbs iovlen
      else do
        let nctbs := (nctbs + (2 ^ 32 - 1)) % 2 ^ 32
        let record ← addTpcDataRecord fuel m list iovlen nctbs
        let records ← addContributors fuel m ev ictbs nctbs (iovlen + record.iovecs.length)
        .ok (record :: records)

/-- The records of an event; I/O vector 0 is that of the header. -/
def txRecords (fuel : Nat) (m : Memory) (ev : Event) : Except Stop (List TpcRecord) :=
  addContributors fuel m ev [0, 1] ev.nctbs 1

/-! ## `Event::free` -/

/-- How the walk over a list ends. -/
inductive WalkEnd where
  | returned
  /-- `Free error: too many nodes` -/
  | tooManyNodes
  /-- `Bad index on free`, and `exit (-1)` -/
  | badIndex
deriving DecidableEq

/-- The walk of `Event::free` over one list, from `node`. -/
def freeWalk (m : Memory) (stop : Addr) : Nat → Addr → Nat → Except Stop WalkEnd
  | 0, _, _ => .error .hang
  | fuel + 1, node, count =>
      if node = stop then .ok .returned
      else match node with
        -- another head has no body
        | .inl _ => .error .trap
        | .inr index =>
            if 900 < index then .ok .badIndex
            else
              -- counted where it is printed
              let count := if index < 8 then count + 1 else count
              if 40 < count then .ok .tooManyNodes
              else freeWalk m stop fuel (m.links.flnk (.inr index)) count

/-! ## The fields -/

/-- A value fits a bit field. -/
def InField (size value : Nat) : Prop := value < 2 ^ size

namespace Size

/-- `Toc::Size::Count` -/
def Count : Nat := 8

/-- `TocBody::Packet::Size::Offset64` -/
def Offset64 : Nat := 24

/-- `Header1::Size::Length`, of the stream and packet headers -/
def Length1 : Nat := 24

/-- `Header2::Size::Length`, of the table of contents -/
def Length2 : Nat := 12

/-- `Stream::Bridge::Size::Left` -/
def Left : Nat := 8

end Size

/-- The entries fit the table of contents, and the counts and lengths their fields. -/
structure TpcRecord.Fits (r : TpcRecord) : Prop where
  toc : r.offsets.length ≤ MAX_PACKETS
  offsets : ∀ o ∈ r.offsets, InField Size.Offset64 o
  npkts : InField Size.Count r.npkts
  tocLength : InField Size.Length2 r.tocLength
  packetLength : InField Size.Length1 r.packetLength
  streamLength : InField Size.Length1 r.streamLength
  left : InField Size.Left r.left

/-! ## What is written -/

/-- The offsets of the entries for packets of the sizes given, after `ndata` bytes, and the
bytes of all. -/
def packetTable (ndata : Nat) : List Nat → List Nat × Nat
  | [] => ([ndata / 8], ndata)
  | nbytes :: sizes =>
      let (offsets, ndata') := packetTable ((ndata + nbytes) % 2 ^ 32) sizes
      (ndata / 8 :: offsets, ndata')

/-- The record for packets of the sizes given. -/
def recordOf (sizes : List Nat) (iovlen left : Nat) : TpcRecord :=
  let (offsets, ndata) := packetTable 0 sizes
  { iovecs := List.range' iovlen sizes.length
    offsets
    npkts := sizes.length
    tocLength := Toc.n64bytes (sizes.length + 1) / 8
    packetLength := (8 + ndata + 7) / 8
    streamLength :=
      ((8 + rangeSize + Toc.n64bytes (sizes.length + 1) + 8) % 2 ^ 32 + ndata) % 2 ^ 32 / 8
    left }

/-- The records for contributors whose packets have the sizes given. -/
def recordsOf (sizes : Dest → List Nat) : List Dest → Nat → Nat → List TpcRecord
  | [], _, _ => []
  | ictb :: ictbs, nctbs, iovlen =>
      if sizes ictb = [] then recordsOf sizes ictbs nctbs iovlen
      else
        let nctbs := (nctbs + (2 ^ 32 - 1)) % 2 ^ 32
        recordOf (sizes ictb) iovlen nctbs ::
          recordsOf sizes ictbs nctbs (iovlen + (sizes ictb).length)

theorem length_packetTable (sizes : List Nat) :
    ∀ ndata, (packetTable ndata sizes).1.length = sizes.length + 1 := by
  induction sizes with
  | nil => exact fun _ => rfl
  | cons nbytes sizes ih =>
      intro ndata
      rw [packetTable, List.length_cons, ih, List.length_cons]

/-- Below 32 bits the table holds the sums of the sizes. -/
theorem packetTable_spec (sizes : List Nat) : ∀ ndata, ndata + sizes.sum < 2 ^ 32 →
    (packetTable ndata sizes).2 = ndata + sizes.sum
      ∧ ∀ o ∈ (packetTable ndata sizes).1, o ≤ (ndata + sizes.sum) / 8 := by
  induction sizes with
  | nil =>
      intro ndata _
      refine ⟨rfl, fun o ho => ?_⟩
      rw [List.mem_singleton.mp ho]
      exact Nat.le_refl _
  | cons nbytes sizes ih =>
      intro ndata hlt
      rw [List.sum_cons, ← Nat.add_assoc] at hlt ⊢
      obtain ⟨htotal, hoffsets⟩ := ih (ndata + nbytes) hlt
      have hmod : (ndata + nbytes) % 2 ^ 32 = ndata + nbytes :=
        Nat.mod_eq_of_lt (Nat.lt_of_le_of_lt (Nat.le_add_right _ _) hlt)
      rw [packetTable, hmod]
      refine ⟨htotal, fun o ho => ?_⟩
      rcases List.mem_cons.mp ho with rfl | ho
      · exact Nat.div_le_div_right (by omega)
      · exact hoffsets o ho

theorem sum_le_length_mul {sizes : List Nat} {N : Nat} (h : ∀ n ∈ sizes, n ≤ N) :
    sizes.sum ≤ sizes.length * N := by
  induction sizes with
  | nil => exact Nat.zero_le _
  | cons nbytes sizes ih =>
      obtain ⟨hfirst, hrest⟩ := List.forall_mem_cons.mp h
      have hle := ih hrest
      rw [List.sum_cons, List.length_cons, Nat.succ_mul]
      omega

section Walk

variable {m : Memory}

theorem packetLoop_spec {list : Head} (xs : List Nat) : ∀ {prev : Addr} {fuel : Nat}
    (iovlen ndata : Nat), Chain m.links.flnk prev (cells xs) (.inl list) → xs.length < fuel →
    packetLoop m (.inl list) fuel (m.links.flnk prev) iovlen ndata
      = .ok (List.range' iovlen xs.length,
          packetTable ndata (xs.map fun index => (m.body index).getWriteSize)) := by
  induction xs with
  | nil =>
      intro prev fuel iovlen ndata hchain hfuel
      obtain ⟨f, rfl⟩ := Nat.exists_eq_succ_of_ne_zero (Nat.ne_of_gt hfuel)
      rw [show m.links.flnk prev = .inl list from hchain, packetLoop, if_pos rfl]
      rfl
  | cons x xs ih =>
      intro prev fuel iovlen ndata hchain hfuel
      obtain ⟨f, rfl⟩ := Nat.exists_eq_succ_of_ne_zero (Nat.ne_of_gt (Nat.zero_lt_of_lt hfuel))
      obtain ⟨hnext, hrest⟩ : m.links.flnk prev = .inr x ∧ _ := hchain
      have hrun := ih (iovlen + 1) ((ndata + (m.body x).getWriteSize) % 2 ^ 32) hrest
        (Nat.lt_of_succ_lt_succ hfuel)
      rw [hnext, packetLoop, if_neg Sum.inr_ne_inl]
      simp only [Memory.getWriteSize, hrun, bind, Except.bind]
      rfl

/-- The record is that of the packets on the list. -/
theorem addTpcDataRecord_spec {list : Head} {xs : List Nat} {fuel : Nat}
    (h : Holds m.links (.inl list) (cells xs)) (hfuel : xs.length < fuel) (iovlen left : Nat) :
    addTpcDataRecord fuel m list iovlen left
      = .ok (recordOf (xs.map fun index => (m.body index).getWriteSize) iovlen left) := by
  have hrun := packetLoop_spec xs iovlen 0 h.chain hfuel
  have hlen := length_packetTable (xs.map fun index => (m.body index).getWriteSize) 0
  unfold addTpcDataRecord recordOf
  simp only [hrun, bind, Except.bind, hlen, List.length_map, Nat.add_sub_cancel]

/-- **The records** are those of the lists. -/
theorem addContributors_spec {ev : Event} {fuel : Nat} {lists : Dest → List Nat}
    (hctbs : ev.ctbs = 3)
    (h : ∀ d, Holds m.links (.inl (.contrib ev.id d)) (cells (lists d)))
    (hfuel : ∀ d, (lists d).length < fuel) (ictbs : List Dest) : ∀ nctbs iovlen,
    addContributors fuel m ev ictbs nctbs iovlen
      = .ok (recordsOf (fun d => (lists d).map fun index => (m.body index).getWriteSize)
          ictbs nctbs iovlen) := by
  induction ictbs with
  | nil => exact fun _ _ => rfl
  | cons ictb ictbs ih =>
      intro nctbs iovlen
      have hmask : ev.ctbs &&& ctbMask ictb ≠ 0 := by
        rw [hctbs]
        rcases dest_cases ictb with rfl | rfl <;> decide
      rw [addContributors, if_neg hmask, recordsOf]
      cases hl : lists ictb with
      | nil =>
          have hempty : m.links.flnk (.inl (.contrib ev.id ictb)) = .inl (.contrib ev.id ictb) := by
            have hc := (h ictb).chain
            rw [hl] at hc
            exact hc
          rw [if_pos hempty, if_pos List.map_nil]
          exact ih nctbs iovlen
      | cons x xs =>
          have hfirst : m.links.flnk (.inl (.contrib ev.id ictb)) = .inr x := by
            have hc := (h ictb).chain
            rw [hl] at hc
            exact hc.1
          have hrecord := addTpcDataRecord_spec (h ictb) (hfuel ictb) iovlen
            ((nctbs + (2 ^ 32 - 1)) % 2 ^ 32)
          rw [hl] at hrecord
          rw [hfirst, if_neg Sum.inr_ne_inl, if_neg (by simp)]
          simp only [hrecord, bind, Except.bind, ih, recordOf, List.length_range']

/-- **The walk of `free`** is not cut off: of a list's buffers at most eight are printed. -/
theorem freeWalk_spec {list : Head} (xs : List Nat) : ∀ {prev : Addr} {fuel count : Nat},
    Chain m.links.flnk prev (cells xs) (.inl list) → xs.length < fuel →
    count + xs.countP (· < 8) ≤ 40 →
    ∃ e, freeWalk m (.inl list) fuel (m.links.flnk prev) count = .ok e ∧ e ≠ .tooManyNodes := by
  induction xs with
  | nil =>
      intro prev fuel count hchain hfuel _
      obtain ⟨f, rfl⟩ := Nat.exists_eq_succ_of_ne_zero (Nat.ne_of_gt hfuel)
      rw [show m.links.flnk prev = .inl list from hchain, freeWalk, if_pos rfl]
      exact ⟨_, rfl, nofun⟩
  | cons x xs ih =>
      intro prev fuel count hchain hfuel hcount
      obtain ⟨f, rfl⟩ := Nat.exists_eq_succ_of_ne_zero (Nat.ne_of_gt (Nat.zero_lt_of_lt hfuel))
      obtain ⟨hnext, hrest⟩ : m.links.flnk prev = .inr x ∧ _ := hchain
      rw [hnext, freeWalk, if_neg Sum.inr_ne_inl]
      dsimp only
      by_cases hbad : 900 < x
      · rw [if_pos hbad]
        exact ⟨_, rfl, nofun⟩
      · rw [List.countP_cons] at hcount
        have hbelow : (if x < 8 then count + 1 else count) + xs.countP (· < 8) ≤ 40 := by
          by_cases hx : x < 8
          · rw [if_pos hx]
            rw [if_pos (by simpa using hx)] at hcount
            omega
          · rw [if_neg hx]
            omega
        rw [if_neg hbad, if_neg (by omega)]
        exact ih hrest (Nat.lt_of_succ_lt_succ hfuel) hbelow

end Walk

/-- Eight numbers are below 8. -/
theorem countP_lt_eight {xs : List Nat} (h : xs.Nodup) : xs.countP (· < 8) ≤ 8 := by
  have hsub : xs.filter (· < 8) ⊆ List.range 8 := fun x hx =>
    List.mem_range.mpr (by simpa using (List.mem_filter.mp hx).2)
  rw [List.countP_eq_length_filter]
  simpa using ((h.filter _).subperm hsub).length_le

/-! ## What fits -/

/-- **The I/O vectors** fit the message when there are not too many packets. -/
theorem vectors_iff (sizes : Dest → List Nat) (N : Nat) (ictbs : List Dest) :
    ∀ {nctbs iovlen : Nat}, iovlen ≤ N →
    ((∀ r ∈ recordsOf sizes ictbs nctbs iovlen, ∀ i ∈ r.iovecs, i < N)
      ↔ iovlen + (ictbs.map fun d => (sizes d).length).sum ≤ N) := by
  induction ictbs with
  | nil =>
      intro nctbs iovlen hle
      exact iff_of_true nofun hle
  | cons ictb ictbs ih =>
      intro nctbs iovlen hle
      rw [recordsOf, List.map_cons, List.sum_cons]
      by_cases hempty : sizes ictb = []
      · rw [if_pos hempty, hempty, List.length_nil, Nat.zero_add]
        exact ih hle
      · have hpos : 0 < (sizes ictb).length := List.length_pos_iff.mpr hempty
        have hfirst : (∀ i ∈ List.range' iovlen (sizes ictb).length, i < N)
            ↔ iovlen + (sizes ictb).length ≤ N := by
          constructor
          · intro h
            have hlast := h (iovlen + (sizes ictb).length - 1) (by
              rw [List.mem_range'_1]
              omega)
            omega
          · intro h i hi
            rw [List.mem_range'_1] at hi
            omega
        rw [if_neg hempty, List.forall_mem_cons, ← Nat.add_assoc]
        constructor
        · rintro ⟨hmine, hrest⟩
          exact (ih (hfirst.mp hmine)).mp hrest
        · intro h
          have hmine : iovlen + (sizes ictb).length ≤ N := Nat.le_trans (Nat.le_add_right _ _) h
          exact ⟨hfirst.mpr hmine, (ih hmine).mpr h⟩

/-- The bytes of a record with its packets. -/
def recordBytes (sizes : List Nat) : Nat :=
  72 + (4 * sizes.length + 15) / 8 * 8 + sizes.sum

/-- **The counts and lengths of a record** fit their fields when its bytes are below the
limit of the stream header. -/
theorem recordOf_fits_iff {sizes : List Nat} {iovlen left : Nat} (hlen : sizes.length < 63)
    (hsum : sizes.sum < 2 ^ 31) (hleft : left < 2 ^ 8) :
    (recordOf sizes iovlen left).Fits ↔ recordBytes sizes < 2 ^ 27 := by
  obtain ⟨htotal, hoffsets⟩ := packetTable_spec sizes 0 (by omega)
  have hcount := length_packetTable sizes 0
  rw [Nat.zero_add] at htotal hoffsets
  have htoc : Toc.n64bytes (sizes.length + 1) = (4 * sizes.length + 15) / 8 * 8 := by
    unfold Toc.n64bytes Toc.nbytes
    omega
  have hstream : (recordOf sizes iovlen left).streamLength = recordBytes sizes / 8 := by
    unfold recordOf recordBytes rangeSize
    dsimp only
    rw [htotal, htoc]
    omega
  constructor
  · intro h
    have hlength := h.streamLength
    rw [hstream] at hlength
    unfold InField Size.Length1 at hlength
    omega
  · intro h
    have hbytes : recordBytes sizes = 72 + (4 * sizes.length + 15) / 8 * 8 + sizes.sum := rfl
    constructor
    · change (packetTable 0 sizes).1.length ≤ 64
      omega
    · intro o ho
      have hle := hoffsets o ho
      unfold InField Size.Offset64
      omega
    · change sizes.length < 2 ^ 8
      omega
    · change Toc.n64bytes (sizes.length + 1) / 8 < 2 ^ 12
      omega
    · change (8 + (packetTable 0 sizes).2 + 7) / 8 < 2 ^ 24
      omega
    · rw [hstream]
      unfold InField Size.Length1
      omega
    · exact hleft

/-- The same for the records of an event. -/
theorem recordsOf_fits_iff {sizes : Dest → List Nat} (hlen : ∀ d, (sizes d).length < 63)
    (hsum : ∀ d, (sizes d).sum < 2 ^ 31) (ictbs : List Dest) :
    ∀ {nctbs iovlen : Nat}, ictbs.length ≤ nctbs → nctbs ≤ 2 ^ 8 →
    ((∀ r ∈ recordsOf sizes ictbs nctbs iovlen, r.Fits)
      ↔ ∀ d ∈ ictbs, recordBytes (sizes d) < 2 ^ 27) := by
  induction ictbs with
  | nil =>
      intro nctbs iovlen _ _
      exact iff_of_true nofun nofun
  | cons ictb ictbs ih =>
      intro nctbs iovlen hle hmax
      rw [List.length_cons] at hle
      rw [recordsOf, List.forall_mem_cons]
      by_cases hempty : sizes ictb = []
      · have hsmall : recordBytes (sizes ictb) < 2 ^ 27 := by
          rw [hempty]
          decide
        rw [if_pos hempty, and_iff_right hsmall]
        exact ih (by omega) hmax
      · have hdec : (nctbs + (2 ^ 32 - 1)) % 2 ^ 32 = nctbs - 1 := by omega
        rw [if_neg hempty]
        dsimp only
        rw [List.forall_mem_cons, hdec,
          recordOf_fits_iff (hlen ictb) (hsum ictb) (by omega), ih (by omega) (by omega)]

end ProtoDune.Daq
