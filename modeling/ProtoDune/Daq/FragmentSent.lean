import ProtoDune.Daq.TxFragment

/-!
# When the fragment of an event is well formed

The trailer address starts in the object `HeaderOrigin`, not in the copy that is sent, and
moves only with the packets. So without packets of the first contributor what follows the
header is written to the wrong place. The number of contributors left counts the empty ones.

Main results:

* `addContributors_bytes` — the bytes sent for any contributors.
* `Finished.placed` — where the headers, the packets and the trailer are.
* `Finished.fragmentOk` — the fragment of two contributors with data.
* `fragment_iff` — when the fragment of an event is well formed.
-/

namespace ProtoDune.Daq

open ByteMemory LinkChain

/-- No packet is on both lists. -/
theorem PostedLists.disjoint {m : Memory} {ev : Event} {lists : Dest → List Nat}
    (h : PostedLists m ev lists) {x : Nat} (h0 : x ∈ lists 0) : x ∉ lists 1 := by
  intro h1
  obtain ⟨us, vs, hsplit⟩ := List.append_of_mem h0
  obtain ⟨ws, zs, hsplit'⟩ := List.append_of_mem h1
  have hc := (h.list 0).chain
  have hc' := (h.list 1).chain
  rw [hsplit, cells, List.map_append, List.map_cons] at hc
  rw [hsplit', cells, List.map_append, List.map_cons] at hc'
  have hends := (chain_append.mp hc).2.end_unique_of_notMem (chain_append.mp hc').2
    (by simp) (by simp)
  simp at hends

namespace TxRun

variable {fuel : Nat} {m : Memory} {ev : Event} {lists : Dest → List Nat}

/-! ## One contributor -/

theorem ctbs_mask (h : PostedLists m ev lists) (ictb : Dest) : ev.ctbs &&& ctbMask ictb ≠ 0 := by
  rw [h.ctbs]
  rcases dest_cases ictb with rfl | rfl <;> decide

/-- A contributor without packets. -/
theorem addContributors_empty (h : PostedLists m ev lists) {ictb : Dest}
    (hempty : lists ictb = []) (ictbs : List Dest) (s : TxState) (stream : Ptr)
    (nctbs ctbSize status : Nat) :
    addContributors fuel m ev (ictb :: ictbs) s stream nctbs ctbSize status
      = addContributors fuel m ev ictbs s s.nextAddress nctbs ctbSize status := by
  have hfirst : m.links.flnk (.inl (.contrib ev.id ictb)) = .inl (.contrib ev.id ictb) := by
    have hc := (h.list ictb).chain
    rw [hempty] at hc
    exact hc
  rw [addContributors, if_neg (ctbs_mask h ictb), if_pos hfirst]

/-- **A contributor with packets**: its record is made at `stream`. -/
theorem addContributors_cons (h : PostedLists m ev lists) {ictb : Dest} {x : Nat}
    (hlast : (lists ictb).getLast? = some x) (hfuel : (lists ictb).length < fuel)
    (hlen : (lists ictb).length < 2 ^ 15) (ictbs : List Dest) {s : TxState}
    (hpos : 0 < s.msg.iovlen) (stream : Ptr) (nctbs ctbSize status : Nat) :
    ∃ s' status', addContributors fuel m ev (ictb :: ictbs) s stream nctbs ctbSize status
        = addContributors fuel m ev ictbs s' s'.nextAddress ((nctbs + (2 ^ 32 - 1)) % 2 ^ 32)
          ((ctbSize + streamSize ((lists ictb).map (writeSize m))) % 2 ^ 32) status'
      ∧ Agree s.buffers s'.buffers stream.place stream.offset
        (streamLclSize ((lists ictb).length + 1))
      ∧ StreamHead s'.buffers stream ((nctbs + (2 ^ 32 - 1)) % 2 ^ 32)
        ((lists ictb).map (writeSize m))
      ∧ Lengthened m (streamLclSize ((lists ictb).length + 1)) (lists ictb) s.msg s'.msg
      ∧ s'.nextAddress = ⟨.dma x, writeSize m x⟩ := by
  obtain ⟨first, rest, hcons⟩ := List.exists_cons_of_ne_nil (l := lists ictb) (by
    rintro hnil
    rw [hnil] at hlast
    cases hlast)
  have hfirst : m.links.flnk (.inl (.contrib ev.id ictb)) = .inr first := by
    have hc := (h.list ictb).chain
    rw [hcons] at hc
    exact hc.1
  obtain ⟨s', hrun, hagree, hhead, hmsg, hnext⟩ := addTpcDataRecord_spec (s := s)
    (h.list ictb) hlast hfuel hlen hpos stream
    (FrameBuffer.getCsf (s.buffers.d64 first) (m.body first).size)
    ((nctbs + (2 ^ 32 - 1)) % 2 ^ 32)
  refine ⟨s', status ||| Stream.getStatus (s'.buffers.get64 stream), ?_, hagree, hhead, hmsg,
    hnext⟩
  rw [addContributors, if_neg (ctbs_mask h ictb), hfirst, if_neg Sum.inr_ne_inl]
  simp only [hrun, bind, Except.bind]

/-! ## The bytes of any contributors -/

/-- The bytes from the cursor on, with a record and packets for each list that is not
empty, and the trailer. -/
def bytesFrom (m : Memory) (c : Buffers) : Ptr → List (List Nat) → List UInt8
  | cursor, [] => read c cursor.place cursor.offset 8
  | cursor, xs :: rest =>
      match xs.getLast? with
      | none => bytesFrom m c cursor rest
      | some x =>
          read c cursor.place cursor.offset (streamLclSize (xs.length + 1))
            ++ (packetData m c xs).flatten ++ bytesFrom m c ⟨.dma x, writeSize m x⟩ rest

theorem bytesFrom_nil_cons (m : Memory) (c : Buffers) (cursor : Ptr) (rest : List (List Nat)) :
    bytesFrom m c cursor ([] :: rest) = bytesFrom m c cursor rest := rfl

theorem bytesFrom_cons {xs : List Nat} {x : Nat} (hx : xs.getLast? = some x) (m : Memory)
    (c : Buffers) (cursor : Ptr) (rest : List (List Nat)) :
    bytesFrom m c cursor (xs :: rest)
      = read c cursor.place cursor.offset (streamLclSize (xs.length + 1))
        ++ (packetData m c xs).flatten ++ bytesFrom m c ⟨.dma x, writeSize m x⟩ rest := by
  rw [bytesFrom, hx]

/-- The bytes of the record of a contributor, none without packets. -/
def ctbBytes (sizes : List Nat) : Nat := if sizes = [] then 0 else recordBytes sizes

theorem length_packetData (c : Buffers) (xs : List Nat) :
    (packetData m c xs).flatten.length = (xs.map (writeSize m)).sum := by
  rw [List.length_flatten, packetData, List.map_map]
  simp only [Function.comp_def, length_read]

theorem length_bytesFrom (c : Buffers) (lss : List (List Nat))
    (hlen : ∀ xs ∈ lss, xs.length < 2 ^ 15) :
    ∀ cursor, (bytesFrom m c cursor lss).length
      = (lss.map fun xs => ctbBytes (xs.map (writeSize m))).sum + 8 := by
  induction lss with
  | nil =>
      intro cursor
      rw [bytesFrom, length_read]
      rfl
  | cons xs lss ih =>
      intro cursor
      obtain ⟨hxs, hrest⟩ := List.forall_mem_cons.mp hlen
      rw [List.map_cons, List.sum_cons]
      cases hx : xs.getLast? with
      | none =>
          obtain rfl := List.getLast?_eq_none_iff.mp hx
          rw [bytesFrom_nil_cons, ih hrest, ctbBytes, if_pos List.map_nil, Nat.zero_add]
      | some x =>
          have hne : ¬ xs.map (writeSize m) = [] := by
            rintro hnil
            rw [List.map_eq_nil_iff.mp hnil] at hx
            cases hx
          have hbytes := streamLclSize_recordBytes (xs.map (writeSize m))
            (by rwa [List.length_map])
          rw [List.length_map] at hbytes
          rw [bytesFrom_cons hx, List.length_append, List.length_append, length_read,
            length_packetData, ih hrest, ctbBytes, if_neg hne, ← hbytes]
          omega

/-- **The bytes** that adding contributors puts into the message, with those of the trailer
behind them. -/
theorem addContributors_bytes (h : PostedLists m ev lists) (hfuel : ∀ d, (lists d).length < fuel)
    (hlen : ∀ d, (lists d).length < 2 ^ 15) (ictbs : List Dest) :
    ∀ (s : TxState) (stream : Ptr) (nctbs ctbSize status : Nat), 0 < s.msg.iovlen →
      (cursor s.msg).offset < 2 ^ 33 →
      ∃ s' ctbSize' status',
        addContributors fuel m ev ictbs s stream nctbs ctbSize status = .ok (s', ctbSize', status')
        ∧ 0 < s'.msg.iovlen ∧ (cursor s'.msg).offset < 2 ^ 33
        ∧ ∀ c, bytes c s'.msg ++ read c (cursor s'.msg).place (cursor s'.msg).offset 8
          = bytes c s.msg ++ bytesFrom m c (cursor s.msg) (ictbs.map lists) := by
  induction ictbs with
  | nil =>
      intro s stream nctbs ctbSize status hpos hoff
      exact ⟨s, ctbSize, status, rfl, hpos, hoff, fun _ => rfl⟩
  | cons ictb ictbs ih =>
      intro s stream nctbs ctbSize status hpos hoff
      cases hx : (lists ictb).getLast? with
      | none =>
          have hempty := List.getLast?_eq_none_iff.mp hx
          obtain ⟨s', size', status', hrun, hpos', hoff', hbytes⟩ :=
            ih s s.nextAddress nctbs ctbSize status hpos hoff
          refine ⟨s', size', status', ?_, hpos', hoff', fun c => ?_⟩
          · rw [addContributors_empty h hempty, hrun]
          · rw [hbytes c, List.map_cons, hempty, bytesFrom_nil_cons]
      | some x =>
          obtain ⟨s1, status1, hstep, -, -, hmsg, -⟩ := addContributors_cons h hx (hfuel ictb)
            (hlen ictb) ictbs hpos stream nctbs ctbSize status
          have hcursor := hmsg.cursor_eq hx
          have hlt := writeSize_lt m x
          have hlcl := streamLclSize_eq (k := (lists ictb).length + 1)
            (by have hl := hlen ictb; omega)
          have htoc := n64bytes_eq (k := (lists ictb).length + 1)
            (by have hl := hlen ictb; omega)
          have hsmall := hlen ictb
          have hone := hmsg.bytes_eq hpos (by omega) hoff
          obtain ⟨s', size', status', hrun, hpos', hoff', hbytes⟩ :=
            ih s1 s1.nextAddress ((nctbs + (2 ^ 32 - 1)) % 2 ^ 32)
              ((ctbSize + streamSize ((lists ictb).map (writeSize m))) % 2 ^ 32) status1
              (by rw [hmsg.iovlen]; omega) (by rw [hcursor]; dsimp only; omega)
          refine ⟨s', size', status', by rw [hstep, hrun], hpos', hoff', fun c => ?_⟩
          rw [hbytes c, hone c, hcursor, List.map_cons, bytesFrom_cons hx]
          simp only [List.append_assoc]

/-! ## The whole event -/

/-- The words of the originator record, as `HeaderOrigin` has it. -/
def originN64 (b : Buffers) : Nat := Header2.n64 (load b .HeaderOrigin headerSize 4)

/-- The bytes of the header and the originator record. -/
def originBytes (b : Buffers) : Nat := headerSize + 8 * originN64 b

/-- The bytes of a fragment. -/
def fragmentBytes (m : Memory) (b : Buffers) (lists : Dest → List Nat) : Nat :=
  originBytes b + (ctbBytes ((lists 0).map (writeSize m))
    + ctbBytes ((lists 1).map (writeSize m))) + 8

/-- The packets of the contributors with data. -/
def contributorsOf (m : Memory) (b : Buffers) (lists : Dest → List Nat) :
    List (List (List UInt8)) :=
  ([lists 0, lists 1].filter fun xs => !xs.isEmpty).map (packetData m b)

/-- The fragment sent is well formed, of the size counted, and the printer finds the
packets in it. -/
structure FragmentOk (contributors : List (List (List UInt8))) (sent : Sent) : Prop where
  size : (bytes sent.buffers sent.msg).length = sent.txSize
  wellFormed : WellFormed contributors (bytes sent.buffers sent.msg)
  walk : ∃ tpcs, acceptFrame (bytes sent.buffers sent.msg) = some tpcs
    ∧ tpcs.map (TpcPrint.found (bytes sent.buffers sent.msg)) = contributors

/-- The state before the contributors are added. -/
structure Begun (b : Buffers) (hoIndex : Nat) (b' : Buffers) (msg : TxMessage 64) : Prop where
  agree : Agree b b' (.dma hoIndex) 0 (originBytes b)
  origin : load b' (.dma hoIndex) headerSize 4 = load b .HeaderOrigin headerSize 4
  iovlen : msg.iovlen = 1
  cursor : cursor msg = ⟨.dma hoIndex, originBytes b⟩
  bytes : ∀ c, bytes c msg = read c (.dma hoIndex) 0 (originBytes b)

theorem originN64_lt (b : Buffers) : originN64 b < 2 ^ 12 := by
  rw [originN64, Header2.n64, BitFields.Field.extract_eq]
  exact Nat.mod_lt _ (by decide)

theorem n64_headerOrigin (b : Buffers) : 8 * n64 b .HeaderOrigin = originBytes b := by
  have hr : headerSize = 24 := rfl
  have ho : n64 b .HeaderOrigin = headerSize / 8 + originN64 b := rfl
  rw [originBytes, ho]
  omega

/-- The copy of the header and the originator record is their first vector. -/
theorem begun (b : Buffers) (msg : TxMessage 64) (hoIndex : Nat) (horigin : 0 < originN64 b) :
    Begun b hoIndex (assign b (.dma hoIndex))
        ((msg.addIndex 0 hoIndex hoIndex (BitVec.ofNat 64 (originBytes b))
          RssiIovec.First).setIovlen 1)
      ∧ 8 * n64 (assign b (.dma hoIndex)) (.dma hoIndex) = originBytes b
      ∧ 8 * n64 (assign b (.dma hoIndex)) .HeaderOrigin = originBytes b := by
  have hr : headerSize = 24 := rfl
  have hsize := originN64_lt b
  have hbytes : originBytes b = headerSize + 8 * originN64 b := rfl
  have hcopy : At (assign b (.dma hoIndex)) (.dma hoIndex) 0
      (read b .HeaderOrigin 0 (originBytes b)) := by
    rw [assign, n64_headerOrigin]
    exact At.store
  have hagree : Agree b (assign b (.dma hoIndex)) (.dma hoIndex) 0 (originBytes b) := by
    have hwrite : Agree b (assign b (.dma hoIndex)) (.dma hoIndex) 0
        (read b .HeaderOrigin 0 (8 * n64 b .HeaderOrigin)).length := Agree.store
    rwa [length_read, n64_headerOrigin] at hwrite
  have horig : load (assign b (.dma hoIndex)) (.dma hoIndex) headerSize 4
      = load b .HeaderOrigin headerSize 4 := by
    have hread := hcopy
    rw [At, length_read] at hread
    have hfield : field (read (assign b (.dma hoIndex)) (.dma hoIndex) 0 (originBytes b))
        headerSize 4 = some (load (assign b (.dma hoIndex)) (.dma hoIndex) (0 + headerSize) 4) :=
      field_read (by omega)
    rw [hread, field_read (by omega), Nat.zero_add] at hfield
    exact (Option.some.inj hfield).symm
  obtain ⟨msg', hmsg'⟩ : ∃ msg', (msg.addIndex 0 hoIndex hoIndex (BitVec.ofNat 64 (originBytes b))
    RssiIovec.First).setIovlen 1 = msg' := ⟨_, rfl⟩
  have hiovlen : msg'.iovlen = 1 := by rw [← hmsg', TxMessage.setIovlen]
  have hvector : msg'.msgIov 0 = ⟨hoIndex, BitVec.ofNat 64 (originBytes b)⟩ := by
    rw [← hmsg']
    exact Function.update_self 0 _ msg.msgIov
  have hlen : (BitVec.ofNat 64 (originBytes b)).toNat = originBytes b := by
    rw [BitVec.toNat_ofNat, Nat.mod_eq_of_lt (by omega)]
  rw [hmsg']
  refine ⟨⟨hagree, horig, hiovlen, ?_, fun c => ?_⟩, ?_, ?_⟩
  · rw [TxRun.cursor, hiovlen, hvector, hlen]
  · rw [TxRun.bytes, vectors, hiovlen, List.range_one, List.map_singleton, List.flatMap_singleton,
      hvector, vectorBytes, hlen]
  · rw [n64, horig]
    exact n64_headerOrigin b
  · have hother : load (assign b (.dma hoIndex)) .HeaderOrigin headerSize 4
        = load b .HeaderOrigin headerSize 4 := by
      rw [load, hagree.read (.inl (by simp))]
      rfl
    rw [n64, hother]
    exact n64_headerOrigin b

/-- **`txRun`** after the contributors: the header is completed, and the trailer put at the
next address. -/
theorem txEvent_spec {b b1 : Buffers} {msg msg1 : TxMessage 64} {hoIndex : Nat} (source : Nat)
    (srcs : Dest → Nat) {s : TxState} {size status : Nat}
    (hb1 : assign b (.dma hoIndex) = b1)
    (hmsg1 : (msg.addIndex 0 hoIndex hoIndex (BitVec.ofNat 64 (originBytes b))
      RssiIovec.First).setIovlen 1 = msg1)
    (hn : 8 * n64 b1 (.dma hoIndex) = originBytes b)
    (hn' : 8 * n64 b1 .HeaderOrigin = originBytes b)
    (hrun : addContributors fuel m ev [0, 1] ⟨b1, msg1, ⟨.HeaderOrigin, originBytes b⟩⟩
      ⟨.dma hoIndex, originBytes b⟩ ev.nctbs 0 0 = .ok (s, size, status)) :
    ∃ (b2 : Buffers) (w recType : Nat),
      w = fragment.Header.compose recType ((originBytes b + size + 8) % 2 ^ 32 / 8)
      ∧ txEvent fuel m b msg hoIndex source srcs ev
        = .ok ⟨b2.put s.nextAddress (toBytes 8 (Trailer.compose w)), s.msg.increaseLast 8,
          originBytes b + size + 8⟩
      ∧ Agree s.buffers b2 (.dma hoIndex) 0 headerSize
      ∧ At b2 (.dma hoIndex) 0 (toBytes 8 w) := by
  obtain ⟨recType, hrec⟩ : ∃ recType,
    (if status = 0 then fragment.RecType.TpcNormal else fragment.RecType.TpcDamaged) = recType :=
    ⟨_, rfl⟩
  obtain ⟨w, hw⟩ : ∃ w,
    fragment.Header.compose recType ((originBytes b + size + 8) % 2 ^ 32 / 8) = w := ⟨_, rfl⟩
  obtain ⟨b2, hb2⟩ : ∃ b2, completeHeader s.buffers (.dma hoIndex) ev source srcs status
    (originBytes b + size + 8) = b2 := ⟨_, rfl⟩
  have hr : headerSize = 24 := rfl
  have hhead : At b2 (.dma hoIndex) 0 (toBytes 8 w) := by
    rw [← hb2, completeHeader, hrec, hw]
    exact At.store.agree Agree.store (.inr (.inl (Nat.le_of_eq (by rw [length_toBytes]))))
  have hagree : Agree s.buffers b2 (.dma hoIndex) 0 headerSize := by
    rw [← hb2, completeHeader]
    refine (Agree.store.mono (Nat.le_refl _) ?_).trans (Agree.store.mono (Nat.zero_le _) ?_)
    · rw [length_toBytes]
      omega
    · rw [List.length_append, length_toBytes, length_toBytes]
      omega
  have hget : Buffers.get64 b2 ⟨.dma hoIndex, 0⟩ = w :=
    hhead.load (by rw [← hw]; exact Header0.compose_lt)
  refine ⟨b2, w, recType, hw.symm, ?_, hagree, hhead⟩
  rw [txEvent]
  simp only [getNextAddress, hb1, hn, hn', hmsg1, hrun, bind, Except.bind, hb2, hget]

/-- How an event is sent: from the buffers `b` by `b1`, where the header is copied, to those
in which the contributors are added and `b2`, where the header `w` is complete. -/
structure Finished (fuel : Nat) (m : Memory) (ev : Event) (lists : Dest → List Nat) (b : Buffers)
    (hoIndex : Nat) (b1 : Buffers) (msg1 : TxMessage 64) (s : TxState) (size : Nat) (b2 : Buffers)
    (w : Nat) (sent : Sent) : Prop where
  begun : Begun b hoIndex b1 msg1
  run : ∃ status, addContributors fuel m ev [0, 1] ⟨b1, msg1, ⟨.HeaderOrigin, originBytes b⟩⟩
    ⟨.dma hoIndex, originBytes b⟩ ev.nctbs 0 0 = .ok (s, size, status)
  header : ∃ recType,
    w = fragment.Header.compose recType ((originBytes b + size + 8) % 2 ^ 32 / 8)
  agree : Agree s.buffers b2 (.dma hoIndex) 0 headerSize
  head : At b2 (.dma hoIndex) 0 (toBytes 8 w)
  buffers : sent.buffers = b2.put s.nextAddress (toBytes 8 (Trailer.compose w))
  txSize : sent.txSize = originBytes b + size + 8
  bytes : bytes sent.buffers sent.msg = read sent.buffers (.dma hoIndex) 0 (originBytes b)
    ++ bytesFrom m sent.buffers ⟨.dma hoIndex, originBytes b⟩ [lists 0, lists 1]

/-- **Every event** is sent. -/
theorem txEvent_finished (h : PostedLists m ev lists) (hfuel : ∀ d, (lists d).length < fuel)
    (hlen : ∀ d, (lists d).length < 2 ^ 15) (b : Buffers) (msg : TxMessage 64)
    (hoIndex source : Nat)
    (srcs : Dest → Nat) (horigin : 0 < originN64 b) :
    ∃ b1 msg1 s size b2 w sent, txEvent fuel m b msg hoIndex source srcs ev = .ok sent
      ∧ Finished fuel m ev lists b hoIndex b1 msg1 s size b2 w sent := by
  obtain ⟨hbegun, hn, hn'⟩ := begun b msg hoIndex horigin
  obtain ⟨b1, hb1⟩ : ∃ b1, assign b (.dma hoIndex) = b1 := ⟨_, rfl⟩
  obtain ⟨msg1, hmsg1⟩ : ∃ msg1, (msg.addIndex 0 hoIndex hoIndex (BitVec.ofNat 64 (originBytes b))
    RssiIovec.First).setIovlen 1 = msg1 := ⟨_, rfl⟩
  rw [hb1, hmsg1] at hbegun
  rw [hb1] at hn hn'
  have hsmall : originBytes b < 2 ^ 33 := by
    have hlt := originN64_lt b
    have hbytes : originBytes b = 24 + 8 * originN64 b := rfl
    omega
  obtain ⟨s, size, status, hrun, hpos, hoff, hbytes⟩ := addContributors_bytes h hfuel hlen [0, 1]
    ⟨b1, msg1, ⟨.HeaderOrigin, originBytes b⟩⟩ ⟨.dma hoIndex, originBytes b⟩ ev.nctbs 0 0
    (by dsimp only; rw [hbegun.iovlen]; exact Nat.one_pos)
    (by dsimp only; rw [hbegun.cursor]; exact hsmall)
  obtain ⟨b2, w, recType, hw, hsent, hagree, hhead⟩ :=
    txEvent_spec source srcs hb1 hmsg1 hn hn' hrun
  refine ⟨b1, msg1, s, size, b2, w, _, hsent, hbegun, ⟨status, hrun⟩, ⟨recType, hw⟩, hagree,
    hhead, rfl, rfl, ?_⟩
  have hlast := (lengthened_increaseLast m s.msg 8).bytes_eq hpos (by decide) hoff
    (b2.put s.nextAddress (toBytes 8 (Trailer.compose w)))
  have hall := hbytes (b2.put s.nextAddress (toBytes 8 (Trailer.compose w)))
  dsimp only at hall ⊢
  rw [hbegun.cursor, hbegun.bytes, List.map_cons, List.map_cons, List.map_nil] at hall
  rw [← hall]
  simpa [packetData] using hlast

namespace Finished

variable {b b1 b2 : Buffers} {hoIndex size w : Nat} {msg1 : TxMessage 64} {s : TxState}
  {sent : Sent}

theorem length_bytes (f : Finished fuel m ev lists b hoIndex b1 msg1 s size b2 w sent)
    (hlen : ∀ d, (lists d).length < 2 ^ 15) :
    (TxRun.bytes sent.buffers sent.msg).length = fragmentBytes m b lists := by
  have hlists : ∀ xs ∈ [lists 0, lists 1], xs.length < 2 ^ 15 := by
    intro xs hxs
    rcases List.mem_pair.mp hxs with rfl | rfl <;> exact hlen _
  rw [f.bytes, List.length_append, length_read, length_bytesFrom _ _ hlists]
  simp only [List.map_cons, List.map_nil, List.sum_cons, List.sum_nil, Nat.add_zero]
  rfl

/-- **The header** has the length of the bytes sent, when it has room for it. -/
theorem header_eq (f : Finished fuel m ev lists b hoIndex b1 msg1 s size b2 w sent)
    (hsize : originBytes b + size + 8 = fragmentBytes m b lists)
    (hbytes : fragmentBytes m b lists < 2 ^ 27) :
    Header0.BridgeField.extract w = fragment.Pattern
      ∧ Header0.length w = fragmentBytes m b lists / 8 := by
  obtain ⟨recType, hw⟩ := f.header
  rw [hw, hsize, Nat.mod_eq_of_lt (by omega)]
  exact ⟨Header0.bridge_compose (by decide), Header0.length_compose (by omega)⟩

end Finished

/-! ## Both contributors with data -/

/-- What is in memory when both contributors have packets, the last ones `x` and `y`. -/
structure Placed (m : Memory) (b : Buffers) (lists : Dest → List Nat) (hoIndex x y w : Nat)
    (c : Buffers) : Prop where
  header : At c (.dma hoIndex) 0 (toBytes 8 w)
  origin : load c (.dma hoIndex) headerSize 4 = load b .HeaderOrigin headerSize 4
  first : StreamHead c ⟨.dma hoIndex, originBytes b⟩ 1 ((lists 0).map (writeSize m))
  second : StreamHead c ⟨.dma x, writeSize m x⟩ 0 ((lists 1).map (writeSize m))
  data : ∀ d, packetData m c (lists d) = packetData m b (lists d)
  trailer : At c (.dma y) (writeSize m y) (toBytes 8 (Trailer.compose w))

/-- The data of packets stays where nothing is written to it. -/
theorem packetData_agree {b c : Buffers} {place : Place} {p n : Nat} (ha : Agree b c place p n)
    {xs : List Nat} (hd : ∀ x ∈ xs, .dma x ≠ place ∨ writeSize m x ≤ p) :
    packetData m c xs = packetData m b xs := by
  apply List.map_congr_left
  intro x hx
  apply ha.read
  rcases hd x hx with hne | hle
  · exact .inl hne
  · exact .inr (.inl (by rwa [Nat.zero_add]))

/-- Behind the data of a packet nothing is written to that of any. -/
theorem packetData_behind {b c : Buffers} {x n : Nat}
    (ha : Agree b c (.dma x) (writeSize m x) n) (xs : List Nat) :
    packetData m c xs = packetData m b xs := by
  apply packetData_agree ha
  intro z _
  by_cases hz : z = x
  · exact .inr (Nat.le_of_eq (by rw [hz]))
  · exact .inl fun hplace => hz (Place.dma.inj hplace)

section Both

variable {b b1 b2 : Buffers} {hoIndex size w x y : Nat} {msg1 : TxMessage 64} {s : TxState}
  {sent : Sent}

/-- The contributors one after the other. -/
theorem Finished.both (f : Finished fuel m ev lists b hoIndex b1 msg1 s size b2 w sent)
    (h : PostedLists m ev lists) (hfuel : ∀ d, (lists d).length < fuel)
    (hlen : ∀ d, (lists d).length < 2 ^ 15) (h0 : (lists 0).getLast? = some x)
    (h1 : (lists 1).getLast? = some y) :
    ∃ c, Agree b1 c (.dma hoIndex) (originBytes b) (streamLclSize ((lists 0).length + 1))
      ∧ StreamHead c ⟨.dma hoIndex, originBytes b⟩ 1 ((lists 0).map (writeSize m))
      ∧ Agree c s.buffers (.dma x) (writeSize m x) (streamLclSize ((lists 1).length + 1))
      ∧ StreamHead s.buffers ⟨.dma x, writeSize m x⟩ 0 ((lists 1).map (writeSize m))
      ∧ s.nextAddress = ⟨.dma y, writeSize m y⟩
      ∧ size = (streamSize ((lists 0).map (writeSize m)) % 2 ^ 32
        + streamSize ((lists 1).map (writeSize m))) % 2 ^ 32 := by
  obtain ⟨status, hrun⟩ := f.run
  have hpos : 0 < msg1.iovlen := by
    rw [f.begun.iovlen]
    exact Nat.one_pos
  obtain ⟨s1, status1, hstep, hagree, hhead, hmsg, hnext⟩ :=
    addContributors_cons h h0 (hfuel 0) (hlen 0) [1]
      (s := ⟨b1, msg1, ⟨.HeaderOrigin, originBytes b⟩⟩) hpos ⟨.dma hoIndex, originBytes b⟩
      ev.nctbs 0 0
  have hpos1 : 0 < s1.msg.iovlen := by
    rw [hmsg.iovlen]
    exact Nat.add_pos_left hpos _
  obtain ⟨s2, status2, hstep', hagree', hhead', -, hnext'⟩ :=
    addContributors_cons h h1 (hfuel 1) (hlen 1) [] hpos1 s1.nextAddress
      ((ev.nctbs + (2 ^ 32 - 1)) % 2 ^ 32)
      ((0 + streamSize ((lists 0).map (writeSize m))) % 2 ^ 32) status1
  rw [hstep, hstep', addContributors] at hrun
  obtain ⟨rfl, hsize⟩ := Prod.mk.inj (Except.ok.inj hrun)
  rw [h.nctbs] at hhead hhead'
  rw [hnext] at hagree' hhead'
  rw [Nat.zero_add] at hsize
  exact ⟨s1.buffers, hagree, hhead, hagree', hhead', hnext', (Prod.mk.inj hsize).1.symm⟩

/-- **All is in memory** where it belongs when the event is sent. -/
theorem Finished.placed (f : Finished fuel m ev lists b hoIndex b1 msg1 s size b2 w sent)
    (h : PostedLists m ev lists) (hfuel : ∀ d, (lists d).length < fuel)
    (hlen : ∀ d, (lists d).length < 2 ^ 15) (hho : ∀ d, hoIndex ∉ lists d)
    (horigin : 0 < originN64 b) (h0 : (lists 0).getLast? = some x)
    (h1 : (lists 1).getLast? = some y) : Placed m b lists hoIndex x y w sent.buffers := by
  obtain ⟨c, hfirst, hhead, hsecond, hhead', hnext, -⟩ := f.both h hfuel hlen h0 h1
  have hr : headerSize = 24 := rfl
  have hbytes : originBytes b = headerSize + 8 * originN64 b := rfl
  have hx := List.mem_of_getLast? h0
  have hy := List.mem_of_getLast? h1
  have hxy : Place.dma x ≠ .dma y := by
    intro hplace
    rw [Place.dma.inj hplace] at hx
    exact h.disjoint hx hy
  have hox : Place.dma hoIndex ≠ .dma x := by
    intro hplace
    rw [← Place.dma.inj hplace] at hx
    exact hho 0 hx
  have hoy : Place.dma hoIndex ≠ .dma y := by
    intro hplace
    rw [← Place.dma.inj hplace] at hy
    exact hho 1 hy
  have hout : ∀ (d : Dest), ∀ z ∈ lists d, Place.dma z ≠ .dma hoIndex := by
    intro d z hz hplace
    rw [Place.dma.inj hplace] at hz
    exact hho d hz
  have hcomplete := f.agree
  have hlast : Agree b2 sent.buffers (.dma y) (writeSize m y) 8 := by
    rw [f.buffers, hnext]
    exact Agree.store_toBytes
  have hlen0 : ((lists 0).map (writeSize m)).length < 2 ^ 15 := by
    rw [List.length_map]
    exact hlen 0
  have hlen1 : ((lists 1).map (writeSize m)).length < 2 ^ 15 := by
    rw [List.length_map]
    exact hlen 1
  constructor
  · exact f.head.agree hlast (.inl hoy)
  · rw [load, hlast.read (.inl hoy), hcomplete.read (.inr (.inr (Nat.le_of_eq (Nat.zero_add _)))),
      hsecond.read (.inl hox), hfirst.read (.inr (.inl (by omega)))]
    exact f.begun.origin
  · exact ((hhead.agree hsecond hlen0 (.inl hox)).agree hcomplete hlen0
      (.inr (.inr (by dsimp only; omega)))).agree hlast hlen0 (.inl hoy)
  · exact (hhead'.agree hcomplete hlen1 (.inl (Ne.symm hox))).agree hlast hlen1 (.inl hxy)
  · intro d
    rw [packetData_behind hlast, packetData_agree hcomplete fun z hz => .inl (hout d z hz),
      packetData_behind hsecond, packetData_agree hfirst fun z hz => .inl (hout d z hz),
      packetData_agree f.begun.agree fun z hz => .inl (hout d z hz)]
  · rw [f.buffers, hnext]
    exact At.store

/-- Below 32 bits the size of a record is that of its bytes. -/
theorem streamSize_eq {sizes : List Nat} (hlen : sizes.length < 2 ^ 15)
    (hbytes : recordBytes sizes < 2 ^ 32) : streamSize sizes = recordBytes sizes := by
  have hrecord := streamLclSize_recordBytes sizes hlen
  obtain ⟨hsum, -⟩ := packetTable_spec sizes 0 (by omega)
  rw [streamSize, hsum, Nat.zero_add, hrecord, Nat.mod_eq_of_lt hbytes]

theorem dvd_recordBytes {sizes : List Nat} (h8 : ∀ n ∈ sizes, 8 ∣ n) : 8 ∣ recordBytes sizes := by
  have hsum := List.dvd_sum h8
  rw [recordBytes]
  omega

/-- **A stream record** whose headers are in memory, in front of other records. -/
theorem StreamHead.records {c : Buffers} {cursor : Ptr} {xs : List Nat} {x : Nat}
    {rest : List (List (List UInt8))} {lss : List (List Nat)} (hx : xs.getLast? = some x)
    (hhead : StreamHead c cursor rest.length (xs.map (writeSize m)))
    (h8 : ∀ n ∈ xs.map (writeSize m), 8 ∣ n) (hlen : xs.length < 2 ^ 8)
    (hbytes : recordBytes (xs.map (writeSize m)) < 2 ^ 27) (hleft : rest.length < 2 ^ 8)
    (hrest : Records rest (bytesFrom m c ⟨.dma x, writeSize m x⟩ lss)) :
    Records (packetData m c xs :: rest) (bytesFrom m c cursor (xs :: lss)) := by
  have hsizes : (packetData m c xs).map List.length = xs.map (writeSize m) := by
    rw [packetData, List.map_map]
    simp only [Function.comp_def, length_read]
  have hrecord := hhead.streamAt hsizes h8 (by rwa [List.length_map]) hbytes hleft
  rw [List.length_map] at hrecord
  rw [bytesFrom_cons hx]
  exact ⟨_, _, rfl, ⟨_, _, hrecord⟩, hrest⟩

/-- **The fragment** of two contributors with data is well formed. -/
theorem Placed.wellFormed {c : Buffers} {bytes : List UInt8}
    (p : Placed m b lists hoIndex x y w c) (h0 : (lists 0).getLast? = some x)
    (h1 : (lists 1).getLast? = some y) (h8 : ∀ d, ∀ n ∈ (lists d).map (writeSize m), 8 ∣ n)
    (hlen : ∀ d, (lists d).length < 2 ^ 8)
    (hrecord : ∀ d, recordBytes ((lists d).map (writeSize m)) < 2 ^ 27)
    (hw : w < 2 ^ 64) (hpattern : Header0.BridgeField.extract w = fragment.Pattern)
    (hlength : 8 * Header0.length w = bytes.length)
    (hbytes : bytes = read c (.dma hoIndex) 0 (originBytes b)
      ++ bytesFrom m c ⟨.dma hoIndex, originBytes b⟩ [lists 0, lists 1])
    (horigin : 0 < originN64 b) :
    WellFormed [packetData m b (lists 0), packetData m b (lists 1)] bytes := by
  have hr : headerSize = 24 := rfl
  have horig : originBytes b = headerSize + 8 * originN64 b := rfl
  have hsecond : bytesFrom m c ⟨.dma x, writeSize m x⟩ [lists 1]
      = read c (.dma x) (writeSize m x) (streamLclSize ((lists 1).length + 1))
        ++ (packetData m c (lists 1)).flatten ++ read c (.dma y) (writeSize m y) 8 := by
    rw [bytesFrom_cons h1, bytesFrom]
  have hfirst : bytesFrom m c ⟨.dma hoIndex, originBytes b⟩ [lists 0, lists 1]
      = read c (.dma hoIndex) (originBytes b) (streamLclSize ((lists 0).length + 1))
          ++ (packetData m c (lists 0)).flatten
        ++ bytesFrom m c ⟨.dma x, writeSize m x⟩ [lists 1] := by
    rw [bytesFrom_cons h0]
  have htrailer : field (read c (.dma y) (writeSize m y) 8) 0 8 = some (Trailer.compose w) := by
    rw [field_read (by omega), Nat.add_zero, p.trailer.load (Trailer.compose_lt w)]
  have hheader : field bytes 0 8 = some w := by
    rw [hbytes]
    apply field_append_left
    rw [field_read (by omega), Nat.add_zero, p.header.load hw]
  have hfield : field bytes headerSize 4 = some (load b .HeaderOrigin headerSize 4) := by
    rw [hbytes]
    apply field_append_left
    rw [field_read (by omega), Nat.zero_add, p.origin]
  have hrecords : Records [packetData m c (lists 0), packetData m c (lists 1)]
      (bytesFrom m c ⟨.dma hoIndex, originBytes b⟩ [lists 0, lists 1]) :=
    p.first.records h0 (h8 0) (hlen 0) (hrecord 0) (by simp)
      (p.second.records h1 (h8 1) (hlen 1) (hrecord 1) (by decide) (length_read _ _ _ _))
  rw [p.data, p.data] at hrecords
  constructor
  · refine ⟨w, hheader, hpattern, hlength, ?_⟩
    obtain ⟨pre, hpre⟩ : ∃ pre, bytes = pre ++ read c (.dma y) (writeSize m y) 8 := by
      rw [hbytes, hfirst, hsecond]
      simp only [← List.append_assoc]
      exact ⟨_, rfl⟩
    have hat : field (pre ++ (read c (.dma y) (writeSize m y) 8 ++ [])) (pre.length + 0) 8
        = some (Trailer.compose w) := field_append htrailer
    rw [List.append_nil, ← hpre, Nat.add_zero] at hat
    have hend : bytes.length - 8 = pre.length := by
      rw [hpre, List.length_append, length_read, Nat.add_sub_cancel]
    rw [hend, hat]
  · refine ⟨_, hfield, ?_⟩
    have hdrop : bytes.drop (originBytes b)
        = bytesFrom m c ⟨.dma hoIndex, originBytes b⟩ [lists 0, lists 1] := by
      rw [hbytes, List.drop_left' (length_read _ _ _ _)]
    change Records _ (bytes.drop (originBytes b))
    rw [hdrop]
    exact hrecords

theorem contributorsOf_both (h0 : lists 0 ≠ []) (h1 : lists 1 ≠ []) :
    contributorsOf m b lists = [packetData m b (lists 0), packetData m b (lists 1)] := by
  simp [contributorsOf, h0, h1]

/-- **Both contributors** with data, of few enough bytes: the fragment is as it should be. -/
theorem Finished.fragmentOk (f : Finished fuel m ev lists b hoIndex b1 msg1 s size b2 w sent)
    (h : PostedLists m ev lists) (hfuel : ∀ d, (lists d).length < fuel)
    (hlen : ∀ d, (lists d).length < 2 ^ 8) (hho : ∀ d, hoIndex ∉ lists d)
    (h8 : ∀ d, ∀ z ∈ lists d, 8 ∣ (m.body z).size) (horigin : 0 < originN64 b)
    (h0 : lists 0 ≠ []) (h1 : lists 1 ≠ []) (hbytes : fragmentBytes m b lists < 2 ^ 27) :
    FragmentOk (contributorsOf m b lists) sent := by
  obtain ⟨x, hx⟩ : ∃ x, (lists 0).getLast? = some x := ⟨_, List.getLast?_eq_getLast_of_ne_nil h0⟩
  obtain ⟨y, hy⟩ : ∃ y, (lists 1).getLast? = some y := ⟨_, List.getLast?_eq_getLast_of_ne_nil h1⟩
  have hshort : ∀ d, (lists d).length < 2 ^ 15 := fun d => Nat.lt_trans (hlen d) (by decide)
  have hwhole : ∀ d, ∀ n ∈ (lists d).map (writeSize m), 8 ∣ n := by
    intro d n hn
    obtain ⟨z, hz, rfl⟩ := List.mem_map.mp hn
    have hz8 := h8 d z hz
    rw [writeSize, FrameBuffer.getWriteSize]
    omega
  have hsizes : ∀ d, ((lists d).map (writeSize m)).length < 2 ^ 15 := by
    intro d
    rw [List.length_map]
    exact hshort d
  have hdata : ∀ d, lists d ≠ [] →
      ctbBytes ((lists d).map (writeSize m)) = recordBytes ((lists d).map (writeSize m)) :=
    fun d hd => if_neg fun hnil => hd (List.map_eq_nil_iff.mp hnil)
  have hall : fragmentBytes m b lists = originBytes b + (recordBytes ((lists 0).map (writeSize m))
      + recordBytes ((lists 1).map (writeSize m))) + 8 := by
    rw [fragmentBytes, hdata 0 h0, hdata 1 h1]
  have hrecord : ∀ d, recordBytes ((lists d).map (writeSize m)) < 2 ^ 27 := by
    intro d
    rcases dest_cases d with rfl | rfl <;> omega
  obtain ⟨-, -, -, -, -, -, hsize⟩ := f.both h hfuel hshort hx hy
  rw [streamSize_eq (hsizes 0) (by have hr := hrecord 0; omega),
    streamSize_eq (hsizes 1) (by have hr := hrecord 1; omega)] at hsize
  have htotal : originBytes b + size + 8 = fragmentBytes m b lists := by omega
  have hmul : 8 ∣ fragmentBytes m b lists := by
    have hd0 := dvd_recordBytes (hwhole 0)
    have hd1 := dvd_recordBytes (hwhole 1)
    have hd : originBytes b = 24 + 8 * originN64 b := rfl
    omega
  obtain ⟨hpattern, hheader⟩ := f.header_eq htotal hbytes
  have hsent := f.length_bytes hshort
  have hw : w < 2 ^ 64 := by
    obtain ⟨recType, hrec⟩ := f.header
    rw [hrec]
    exact Header0.compose_lt
  have hwell : WellFormed (contributorsOf m b lists) (TxRun.bytes sent.buffers sent.msg) := by
    rw [contributorsOf_both h0 h1]
    exact (f.placed h hfuel hshort hho horigin hx hy).wellFormed hx hy hwhole hlen hrecord hw
      hpattern (by rw [hheader, hsent, Nat.mul_div_cancel' hmul]) f.bytes horigin
  refine ⟨?_, hwell, hwell.acceptFrame ?_⟩
  · rw [hsent, f.txSize, htotal]
  · rw [contributorsOf_both h0 h1]
    exact Nat.le_refl 2

end Both

/-! ## A contributor without packets -/

section Without

variable {b b1 b2 : Buffers} {hoIndex size w x : Nat} {msg1 : TxMessage 64} {s : TxState}
  {sent : Sent}
  {contributors : List (List (List UInt8))}

/-- The first record begins with its header. -/
theorem Records.header {packets : List (List UInt8)} {bytes : List UInt8}
    (h : Records (packets :: contributors) bytes) :
    ∃ w, field bytes 0 8 = some w ∧ Header1.n64 w ≠ 0
      ∧ Stream.Bridge.LeftField.extract (Header1.bridge w) = contributors.length := by
  obtain ⟨record, tail, rfl, ⟨r, t, hrecord⟩, -⟩ := h
  obtain ⟨w, hw, hn64, hleft⟩ := hrecord.header
  have hle := le_of_field hw
  exact ⟨w, field_append_left hw, by omega, hleft⟩

/-- The records of a well formed fragment are what follows the originator. -/
theorem Finished.records (f : Finished fuel m ev lists b hoIndex b1 msg1 s size b2 w sent)
    (horigin : 0 < originN64 b)
    (hkept : load sent.buffers (.dma hoIndex) headerSize 4 = load b .HeaderOrigin headerSize 4)
    (hwell : WellFormed contributors (TxRun.bytes sent.buffers sent.msg)) :
    Records contributors
      (bytesFrom m sent.buffers ⟨.dma hoIndex, originBytes b⟩ [lists 0, lists 1]) := by
  have hr : headerSize = 24 := rfl
  have horig : originBytes b = headerSize + 8 * originN64 b := rfl
  have hfield : field (TxRun.bytes sent.buffers sent.msg) headerSize 4
      = some (load b .HeaderOrigin headerSize 4) := by
    rw [f.bytes]
    apply field_append_left
    rw [field_read (by omega), Nat.zero_add, hkept]
  have hdrop : (TxRun.bytes sent.buffers sent.msg).drop (originBytes b)
      = bytesFrom m sent.buffers ⟨.dma hoIndex, originBytes b⟩ [lists 0, lists 1] := by
    rw [f.bytes, List.drop_left' (length_read _ _ _ _)]
  obtain ⟨o, ho, hrecords⟩ := hwell.records
  obtain rfl : load b .HeaderOrigin headerSize 4 = o := Option.some.inj (hfield.symm.trans ho)
  rw [← hdrop]
  exact hrecords

/-- **A fragment that is well formed** has no more bytes than its header can say. -/
theorem Finished.length_lt (f : Finished fuel m ev lists b hoIndex b1 msg1 s size b2 w sent)
    (hlen : ∀ d, (lists d).length < 2 ^ 15)
    (hwell : WellFormed contributors (TxRun.bytes sent.buffers sent.msg)) :
    fragmentBytes m b lists < 2 ^ 27 := by
  obtain ⟨w', -, -, hlength, -⟩ := hwell.header
  rw [f.length_bytes hlen, Header0.length, BitFields.Field.extract_eq] at hlength
  have hlt : w' / 2 ^ Header0.LengthField.offset % 2 ^ Header0.LengthField.size < 2 ^ 24 :=
    Nat.mod_lt _ (by decide)
  omega

/-- **Without packets of the second contributor** one is left in the header of the first. -/
theorem Finished.second_of_wellFormed
    (f : Finished fuel m ev lists b hoIndex b1 msg1 s size b2 w sent) (h : PostedLists m ev lists)
    (hfuel : ∀ d, (lists d).length < fuel) (hlen : ∀ d, (lists d).length < 2 ^ 15)
    (hho : ∀ d, hoIndex ∉ lists d) (horigin : 0 < originN64 b) (h0 : lists 0 ≠ [])
    (hwell : WellFormed (contributorsOf m b lists) (TxRun.bytes sent.buffers sent.msg)) :
    lists 1 ≠ [] := by
  intro h1
  obtain ⟨x, hx⟩ : ∃ x, (lists 0).getLast? = some x := ⟨_, List.getLast?_eq_getLast_of_ne_nil h0⟩
  have hox : Place.dma hoIndex ≠ .dma x := by
    intro hplace
    rw [Place.dma.inj hplace] at hho
    exact hho 0 (List.mem_of_getLast? hx)
  obtain ⟨status, hrun⟩ := f.run
  have hpos : 0 < msg1.iovlen := by
    rw [f.begun.iovlen]
    exact Nat.one_pos
  obtain ⟨s1, status1, hstep, hagree, hhead, -, hnext⟩ :=
    addContributors_cons h hx (hfuel 0) (hlen 0) [1]
      (s := ⟨b1, msg1, ⟨.HeaderOrigin, originBytes b⟩⟩) hpos ⟨.dma hoIndex, originBytes b⟩
      ev.nctbs 0 0
  rw [hstep, addContributors_empty h h1, addContributors] at hrun
  obtain ⟨rfl, -⟩ := Prod.mk.inj (Except.ok.inj hrun)
  have hcomplete := f.agree
  have hlast : Agree b2 sent.buffers (.dma x) (writeSize m x) 8 := by
    rw [f.buffers, hnext]
    exact Agree.store_toBytes
  have hr : headerSize = 24 := rfl
  have horig : originBytes b = headerSize + 8 * originN64 b := rfl
  have hkept : load sent.buffers (.dma hoIndex) headerSize 4
      = load b .HeaderOrigin headerSize 4 := by
    rw [load, hlast.read (.inl hox), hcomplete.read (.inr (.inr (Nat.le_of_eq (Nat.zero_add _)))),
      hagree.read (.inr (.inl (by dsimp only; omega)))]
    exact f.begun.origin
  have hlen0 : ((lists 0).map (writeSize m)).length < 2 ^ 15 := by
    rw [List.length_map]
    exact hlen 0
  have hsent := (hhead.agree hcomplete hlen0 (.inr (.inr (by dsimp only; omega)))).agree hlast hlen0
    (.inl hox)
  have hrecords := f.records horigin hkept hwell
  have hone : contributorsOf m b lists = [packetData m b (lists 0)] := by
    simp [contributorsOf, h0, h1]
  rw [hone, h1, bytesFrom_cons hx] at hrecords
  obtain ⟨w', hw', -, hleft⟩ := Records.header hrecords
  -- the header in memory is that which is sent
  obtain ⟨recType, csf, st, hheader⟩ := hsent.header
  have hlcl := streamLclSize_eq (k := (lists 0).length + 1) (by have hl := hlen 0; omega)
  rw [List.append_assoc] at hw'
  have hfield := hw'.symm.trans (field_append_left (At.field (q := 0) hheader Header1.compose_lt
    (show 0 + 8 ≤ streamLclSize ((lists 0).length + 1) by omega)))
  rw [Option.some.inj hfield, Stream.construct, Header1.bridge_compose Stream.bridge_lt, h.nctbs,
    Stream.left_compose (by decide)] at hleft
  exact absurd hleft (by decide)

/-- Without packets of the first contributor only the header is written to its buffer. -/
theorem Finished.untouched (f : Finished fuel m ev lists b hoIndex b1 msg1 s size b2 w sent)
    (h : PostedLists m ev lists) (hfuel : ∀ d, (lists d).length < fuel)
    (hlen : ∀ d, (lists d).length < 2 ^ 15) (hho : hoIndex ∉ lists 1) (h0 : lists 0 = [])
    {p k : Nat} (hp : headerSize ≤ p) :
    read sent.buffers (.dma hoIndex) p k = read b1 (.dma hoIndex) p k := by
  have hobject : Place.dma hoIndex ≠ .HeaderOrigin := Place.noConfusion
  obtain ⟨hread, hnext⟩ : read s.buffers (.dma hoIndex) p k = read b1 (.dma hoIndex) p k
      ∧ Place.dma hoIndex ≠ s.nextAddress.place := by
    obtain ⟨status, hrun⟩ := f.run
    rw [addContributors_empty h h0] at hrun
    cases hy : (lists 1).getLast? with
    | none =>
        rw [addContributors_empty h (List.getLast?_eq_none_iff.mp hy), addContributors] at hrun
        obtain ⟨rfl, -⟩ := Prod.mk.inj (Except.ok.inj hrun)
        exact ⟨rfl, hobject⟩
    | some y =>
        have hpos : 0 < msg1.iovlen := by
          rw [f.begun.iovlen]
          exact Nat.one_pos
        obtain ⟨s1, status1, hstep, hagree, -, -, hnext⟩ :=
          addContributors_cons h hy (hfuel 1) (hlen 1) []
            (s := ⟨b1, msg1, ⟨.HeaderOrigin, originBytes b⟩⟩) hpos ⟨.HeaderOrigin, originBytes b⟩
            ev.nctbs 0 0
        rw [hstep, addContributors] at hrun
        obtain ⟨rfl, -⟩ := Prod.mk.inj (Except.ok.inj hrun)
        refine ⟨hagree.read (.inl hobject), ?_⟩
        rw [hnext]
        intro hplace
        rw [Place.dma.inj hplace] at hho
        exact hho (List.mem_of_getLast? hy)
  have hlast : Agree b2 sent.buffers s.nextAddress.place s.nextAddress.offset 8 := by
    rw [f.buffers]
    exact Agree.store_toBytes
  have hcomplete := f.agree
  rw [hlast.read (.inl hnext), hcomplete.read (.inr (.inr (by omega))), hread]

/-- **Without packets of the first contributor** the bytes behind the originator are those
that were in the buffer before. -/
theorem Finished.first_of_wellFormed
    (f : Finished fuel m ev lists b hoIndex b1 msg1 s size b2 w sent) (h : PostedLists m ev lists)
    (hfuel : ∀ d, (lists d).length < fuel) (hlen : ∀ d, (lists d).length < 2 ^ 15)
    (hho : ∀ d, hoIndex ∉ lists d) (horigin : 0 < originN64 b)
    (hstale : load b (.dma hoIndex) (originBytes b) 8 = 0)
    (hwell : WellFormed (contributorsOf m b lists) (TxRun.bytes sent.buffers sent.msg)) :
    lists 0 ≠ [] := by
  intro h0
  have hr : headerSize = 24 := rfl
  have horig : originBytes b = headerSize + 8 * originN64 b := rfl
  have hkept : load sent.buffers (.dma hoIndex) headerSize 4
      = load b .HeaderOrigin headerSize 4 := by
    rw [load, f.untouched h hfuel hlen (hho 1) h0 (Nat.le_refl _)]
    exact f.begun.origin
  have hzero : load sent.buffers (.dma hoIndex) (originBytes b) 8 = 0 := by
    have hagree := f.begun.agree
    rw [load, f.untouched h hfuel hlen (hho 1) h0 (by omega),
      hagree.read (.inr (.inr (Nat.le_of_eq (Nat.zero_add _))))]
    exact hstale
  cases hy : (lists 1).getLast? with
  | none =>
      -- in the place of the trailer
      have h1 := List.getLast?_eq_none_iff.mp hy
      have hbytes := f.bytes
      have hfrom : bytesFrom m sent.buffers ⟨.dma hoIndex, originBytes b⟩ [lists 0, lists 1]
          = read sent.buffers (.dma hoIndex) (originBytes b) 8 := by
        rw [h0, h1]
        rfl
      rw [hfrom] at hbytes
      obtain ⟨w', hw', hpattern, -, htrailer⟩ := hwell.header
      have hlast : field (read sent.buffers (.dma hoIndex) (originBytes b) 8) 0 8 = some 0 := by
        rw [field_read (by omega), Nat.add_zero, hzero]
      have hend : field (read sent.buffers (.dma hoIndex) 0 (originBytes b)
          ++ (read sent.buffers (.dma hoIndex) (originBytes b) 8 ++ []))
          ((read sent.buffers (.dma hoIndex) 0 (originBytes b)).length + 0) 8 = some 0 :=
        field_append hlast
      rw [List.append_nil, ← hbytes, length_read, Nat.add_zero] at hend
      have hlength : (TxRun.bytes sent.buffers sent.msg).length - 8 = originBytes b := by
        rw [hbytes, List.length_append, length_read, length_read, Nat.add_sub_cancel]
      rw [hlength, hend] at htrailer
      have hlt := field_lt hw'
      have hall : 0 = 2 ^ 64 - 1 - w' := Option.some.inj htrailer
      obtain rfl : w' = 2 ^ 64 - 1 := by omega
      exact absurd hpattern (by decide)
  | some y =>
      -- in that of the header of the second contributor
      have h1 : lists 1 ≠ [] := by
        intro hnil
        rw [hnil] at hy
        cases hy
      have hrecords := f.records horigin hkept hwell
      have hone : contributorsOf m b lists = [packetData m b (lists 1)] := by
        simp [contributorsOf, h0, h1]
      have hlcl := streamLclSize_eq (k := (lists 1).length + 1) (by have hl := hlen 1; omega)
      have hfrom : bytesFrom m sent.buffers ⟨.dma hoIndex, originBytes b⟩ [lists 0, lists 1]
          = read sent.buffers (.dma hoIndex) (originBytes b)
              (streamLclSize ((lists 1).length + 1))
            ++ ((packetData m sent.buffers (lists 1)).flatten
              ++ bytesFrom m sent.buffers ⟨.dma y, writeSize m y⟩ []) := by
        rw [h0, bytesFrom_nil_cons, bytesFrom_cons hy, List.append_assoc]
      rw [hone, hfrom] at hrecords
      obtain ⟨w', hw', hn64, -⟩ := Records.header hrecords
      have hfirst : field (read sent.buffers (.dma hoIndex) (originBytes b)
          (streamLclSize ((lists 1).length + 1))) 0 8 = some 0 := by
        rw [field_read (by omega), Nat.add_zero, hzero]
      rw [← Option.some.inj ((field_append_left hfirst).symm.trans hw')] at hn64
      exact hn64 rfl

end Without

/-! ## Every event -/

section Every

variable {b : Buffers} {hoIndex : Nat} (stale : Nat → UInt8)

/-- What was in the buffer for the header changes nothing of the event. -/
theorem contributorsOf_update (hho : ∀ d, hoIndex ∉ lists d) :
    contributorsOf m (Function.update b (.dma hoIndex) stale) lists
      = contributorsOf m b lists := by
  have hpackets : ∀ d, packetData m (Function.update b (.dma hoIndex) stale) (lists d)
      = packetData m b (lists d) := by
    intro d
    apply List.map_congr_left
    intro x hx
    apply read_congr
    intro o _ _
    rw [Function.update_of_ne]
    intro hplace
    rw [Place.dma.inj hplace] at hx
    exact hho d hx
  apply List.map_congr_left
  intro xs hxs
  rcases List.mem_pair.mp (List.mem_filter.mp hxs).1 with rfl | rfl
  · exact hpackets 0
  · exact hpackets 1

end Every

/-- **The fragment of an event** is well formed whatever was in the buffer for its header
if and only if both contributors have packets and the header has room for the length. -/
theorem fragment_iff (h : PostedLists m ev lists) (hfuel : ∀ d, (lists d).length < fuel)
    (hcount : (lists 0).length + (lists 1).length < NIOVECS)
    (h8 : ∀ d, ∀ x ∈ lists d, 8 ∣ (m.body x).size) (b : Buffers) (msg : TxMessage 64)
    {hoIndex : Nat} (hho : ∀ d, hoIndex ∉ lists d) (horigin : 0 < originN64 b) (source : Nat)
    (srcs : Dest → Nat) :
    (∀ stale : Nat → UInt8, ∃ sent,
        txEvent fuel m (Function.update b (.dma hoIndex) stale) msg hoIndex source srcs ev
            = .ok sent
          ∧ FragmentOk (contributorsOf m b lists) sent)
      ↔ lists 0 ≠ [] ∧ lists 1 ≠ [] ∧ fragmentBytes m b lists < 2 ^ 27 := by
  have hniov : NIOVECS = 32 := rfl
  have hlen : ∀ d, (lists d).length < 2 ^ 8 := by
    intro d
    rcases dest_cases d with rfl | rfl <;> omega
  have hshort : ∀ d, (lists d).length < 2 ^ 15 := fun d => Nat.lt_trans (hlen d) (by decide)
  constructor
  · intro hevery
    obtain ⟨sent, hrun, -, hwell, -⟩ := hevery fun _ => 0
    obtain ⟨b1, msg1, s, size, b2, w, sent', hrun', f⟩ :=
      txEvent_finished h hfuel hshort (Function.update b (.dma hoIndex) fun _ => 0) msg hoIndex
        source srcs horigin
    obtain rfl : sent = sent' := Except.ok.inj (hrun.symm.trans hrun')
    have hstale : load (Function.update b (.dma hoIndex) fun _ => 0) (.dma hoIndex)
        (originBytes b) 8 = 0 := by
      apply load_zero
      intro o
      rw [Function.update_self]
    rw [← contributorsOf_update (b := b) (fun _ => 0) hho] at hwell
    have hfirst := f.first_of_wellFormed h hfuel hshort hho horigin hstale hwell
    exact ⟨hfirst, f.second_of_wellFormed h hfuel hshort hho horigin hfirst hwell,
      f.length_lt hshort hwell⟩
  · rintro ⟨h0, h1, hbytes⟩ stale
    obtain ⟨b1, msg1, s, size, b2, w, sent, hrun, f⟩ :=
      txEvent_finished h hfuel hshort (Function.update b (.dma hoIndex) stale) msg hoIndex source
        srcs horigin
    refine ⟨sent, hrun, ?_⟩
    rw [← contributorsOf_update (b := b) stale hho]
    exact f.fragmentOk h hfuel hlen hho h8 horigin h0 h1 hbytes

/-- An originator record of one word. -/
def originBuffers : Buffers :=
  store (fun _ _ => 0) .HeaderOrigin headerSize (toBytes 4 (Header2.compose 0 1 0))

/-- A posted event. -/
def postedEvent : Event where
  id := 0
  limits := ⟨0, 25600⟩
  trgTime := 12800
  trgSequence := 1
  trgNode := fun _ => none
  trgNpkt := fun _ => 0
  nctbs := 2
  ctbs := 3
  npkts := fun _ => 1

/-- One packet of 8 bytes for each contributor: buffer 0 and buffer 1. -/
def pairMemory : Memory where
  links :=
    { flnk := fun addr => match addr with
        | .inl (.contrib _ dest) => .inr dest.val
        | .inr 0 => .inl (.contrib 0 0)
        | .inr 1 => .inl (.contrib 0 1)
        | other => other
      blnk := id }
  body := fun _ => { tsRange := ⟨0, 25600⟩, size := 24, status := 0 }
  remaining := fun _ => LatencyList.Depth
  returned := []

theorem pairMemory_lists : PostedLists pairMemory postedEvent fun dest => [dest.val] := by
  refine ⟨rfl, rfl, fun d => ?_⟩
  rcases dest_cases d with rfl | rfl <;> exact ⟨⟨rfl, rfl⟩, by decide⟩

/-- The fragment of two packets is short enough, and well formed. -/
theorem fragment_iff_pair :
    fragmentBytes pairMemory originBuffers (fun dest => [dest.val]) < 2 ^ 27
      ∧ ∀ stale : Nat → UInt8, ∃ sent,
        txEvent 2 pairMemory (Function.update originBuffers (.dma 2) stale) TxMessage.empty 2 0
            (fun _ => 0) postedEvent = .ok sent
          ∧ FragmentOk (contributorsOf pairMemory originBuffers fun dest => [dest.val]) sent := by
  have hbytes : fragmentBytes pairMemory originBuffers (fun dest => [dest.val]) < 2 ^ 27 := by
    decide
  refine ⟨hbytes, ?_⟩
  exact (fragment_iff pairMemory_lists (fun _ => Nat.one_lt_two) (by decide)
    (fun _ _ _ => show 8 ∣ 24 by decide) originBuffers TxMessage.empty
    (fun d => by rcases dest_cases d with rfl | rfl <;> decide) (by decide) 0 fun _ => 0).mpr
    ⟨by simp, by simp, hbytes⟩

theorem noPackets_lists : PostedLists noPackets postedEvent fun _ => [] :=
  ⟨rfl, rfl, fun _ => ⟨rfl, List.nodup_singleton _⟩⟩

/-- The empty event is sent with what was in the buffer in the place of its trailer. -/
theorem empty_event_malformed : ∃ sent,
    txEvent 1 noPackets originBuffers TxMessage.empty 2 0 (fun _ => 0) postedEvent = .ok sent
      ∧ ¬FragmentOk [] sent := by
  obtain ⟨b1, msg1, s, size, b2, w, sent, hrun, f⟩ :=
    txEvent_finished noPackets_lists (fun _ => Nat.one_pos) (fun _ => by decide) originBuffers
      TxMessage.empty 2 0 (fun _ => 0) (by decide)
  refine ⟨sent, hrun, fun hok => ?_⟩
  exact f.first_of_wellFormed noPackets_lists (fun _ => Nat.one_pos) (fun _ => by decide)
    (fun _ => List.not_mem_nil) (by decide) (by decide) hok.wellFormed rfl

end TxRun

end ProtoDune.Daq
