import ProtoDune.Util.ReadData

/-!
# `tcp_receiver.c`: `monitor`

The monitor reads the header of a packet into the first word of its buffer, and as many
bytes as the header announces behind it. A packet that is too large for the buffer is
reported and read all the same.

Main results:

* `headerStep_place` — the packet read next is the one the bytes of the stream announce.
* `step_good`, `run_good` — what a step and a run keep.
* `receiver_exact` — when the receiver stores within its buffers.
-/

namespace ProtoDune.Util

/-! ## The header -/

/-- `sizeof (uint64_t)` -/
def headerSize : Nat := 8

/-- The size of the buffer. -/
def maxBytes : Nat := 8 * 1024 * 1024

/-- The number that bytes stand for, lowest first. -/
def littleEndian : List UInt8 → Nat
  | [] => 0
  | b :: bytes => b.toNat + 2 ^ 8 * littleEndian bytes

/-- `get_w64` -/
def get_w64 (mem : Bytes) (data : Int) : Nat :=
  littleEndian ((List.range 8).map fun (i : Nat) => mem (data + i))

/-- `((header >> 8) & 0xffffff) * sizeof (uint64_t)` -/
def dataSize (header : Nat) : Nat := ((header >>> 8) &&& 0xffffff) * 8 % 2 ^ 32

/-- `checkHeader` finds nothing wrong. -/
def checkHeader (_mem : Bytes) : Nat := 0

/-! ## The loop -/

/-- The counts kept of what was received, each 32 bits wide. -/
structure Statistics where
  hdrCnt : Nat
  hdrSiz : Nat
  datCnt : Nat
  datSiz : Nat

/-- Where the loop is: before a header, before the data of a packet, in a call that does not
return, or at an end. -/
inductive Place where
  | header
  | data (dataSize : Nat)
  | waiting
  | exited

/-- The variables of `monitor`, the memory around the buffer, the connections still to come
and the reads that were asked for. -/
structure Monitor where
  mem : Bytes
  socket : Socket
  accepts : List Socket
  stats : Statistics
  nfailures : Nat
  retries : Nat → Nat
  hdrRcv : RcvProfile
  datRcv : RcvProfile
  reads : List (Int × Nat)
  place : Place

namespace Monitor

/-- `reconnect_client`, and `continue` -/
def reconnect_client (m : Monitor) (nread : Int) : Monitor :=
  if nread = 0 then
    match m.accepts with
    | [] => { m with place := .waiting }
    | socket :: accepts => { m with socket, accepts, place := .header }
  else if nread < 0 then { m with place := .exited }
  else { m with place := .header }

/-- A call of `read_data` came to `r`. -/
def took (m : Monitor) (data : Int) (ndata : Nat) (r : Read) : Monitor :=
  { m with
    mem := r.state.mem
    socket := ⟨r.state.stream, r.script⟩
    reads := m.reads ++ [(data, ndata)] }

/-- The header was received. -/
def received (m : Monitor) : Monitor :=
  let m : Monitor := { m with
    stats.hdrCnt := (m.stats.hdrCnt + 1) % 2 ^ 32
    stats.hdrSiz := (m.stats.hdrSiz + headerSize) % 2 ^ 32 }
  let failures := checkHeader m.mem
  if failures ≠ 0 then { m with nfailures := m.nfailures + 1, place := .header }
  else
    -- a packet that is too large is only reported
    let dataSize := dataSize (get_w64 m.mem 0)
    if headerSize < dataSize then { m with place := .data dataSize }
    else { m with place := .header }

/-- The loop up to the data. -/
def headerStep (m : Monitor) : Monitor :=
  let r := readData m.mem m.socket 0 headerSize m.hdrRcv
  let m : Monitor := { m.took 0 headerSize r with hdrRcv := r.state.profile }
  match r.ret with
  | none => { m with place := .waiting }
  | some nread =>
      if nread ≤ 0 then m.reconnect_client nread
      else if nread ≠ headerSize then { m with place := .exited }
      else m.received

/-- The rest of the loop. A packet of 128 calls is counted one past the end of `retries`. -/
def dataStep (m : Monitor) (dataSize : Nat) : Monitor :=
  let data : Int := headerSize
  let ndata := dataSize - headerSize
  let r := readData m.mem m.socket data ndata m.datRcv
  let m : Monitor := { m.took data ndata r with datRcv := r.state.profile }
  match r.ret with
  | none => { m with place := .waiting }
  | some nread =>
      let cnt : Nat := m.datRcv.cnt
      let cnt := if cnt > 128 then 128 - 1 else cnt
      let m : Monitor := { m with retries := Function.update m.retries cnt (m.retries cnt + 1) }
      if nread ≤ 0 then m.reconnect_client nread
      else
        { m with
          stats.datCnt := (m.stats.datCnt + 1) % 2 ^ 32
          stats.datSiz := (m.stats.datSiz + ndata) % 2 ^ 32
          place := .header }

/-- One call of `read_data`, and what follows on it. -/
def step (m : Monitor) : Monitor :=
  match m.place with
  | .header => m.headerStep
  | .data dataSize => m.dataStep dataSize
  | .waiting => m
  | .exited => m

/-- `n` steps. -/
def run (m : Monitor) : Nat → Monitor
  | 0 => m
  | n + 1 => (m.run n).step

/-- The start of `monitor`: the buffer is zero. -/
def start (mem : Bytes) (socket : Socket) (accepts : List Socket) (hdrRcv datRcv : RcvProfile) :
    Monitor where
  mem := fun o => if 0 ≤ o ∧ o < maxBytes then 0 else mem o
  socket := socket
  accepts := accepts
  stats := ⟨0, 0, 0, 0⟩
  nfailures := 0
  retries := fun _ => 0
  hdrRcv := hdrRcv
  datRcv := datRcv
  reads := []
  place := .header

/-! ## What it should do -/

/-- Every read asked for fits the buffer, and the memory around the buffer is as it was. -/
structure Fits (mem : Bytes) (m : Monitor) : Prop where
  inside : ∀ p ∈ m.reads, 0 ≤ p.1 ∧ p.1 + p.2 ≤ maxBytes
  outside : ∀ o : Int, o < 0 ∨ maxBytes ≤ o → m.mem o = mem o

/-- The loop is about to read. -/
def Reads (m : Monitor) : Prop := m.place = .header ∨ ∃ dataSize, m.place = .data dataSize

/-- The size of the packet whose header comes next. -/
def announced (m : Monitor) : Nat := dataSize (littleEndian (m.socket.stream.take headerSize))

/-- The first call of `recv` does not fail before one that gives bytes, and no header that
comes announces more than the buffer holds. -/
structure Meets (m : Monitor) : Prop where
  calls : m.Reads → ¬FailsThenGives m.socket
  header : m.place = .header → headerSize ≤ m.socket.stream.length → m.announced ≤ maxBytes

/-! ## One step -/

@[simp] theorem reconnect_client_mem (m : Monitor) (nread : Int) :
    (m.reconnect_client nread).mem = m.mem := by
  unfold reconnect_client
  split
  · cases m.accepts <;> rfl
  · split <;> rfl

@[simp] theorem reconnect_client_reads (m : Monitor) (nread : Int) :
    (m.reconnect_client nread).reads = m.reads := by
  unfold reconnect_client
  split
  · cases m.accepts <;> rfl
  · split <;> rfl

/-- No data is read before the next header. -/
theorem reconnect_client_place (m : Monitor) (nread : Int) (size : Nat) :
    (m.reconnect_client nread).place ≠ .data size := by
  unfold reconnect_client
  split
  · cases m.accepts <;> nofun
  · split <;> nofun

@[simp] theorem received_mem (m : Monitor) : m.received.mem = m.mem := by
  unfold received
  dsimp only
  split
  · rfl
  · split <;> rfl

@[simp] theorem received_reads (m : Monitor) : m.received.reads = m.reads := by
  unfold received
  dsimp only
  split
  · rfl
  · split <;> rfl

theorem received_place {m : Monitor} {size : Nat} (h : m.received.place = .data size) :
    headerSize < size ∧ size = dataSize (get_w64 m.mem 0) := by
  unfold received checkHeader at h
  dsimp only at h
  rw [if_neg (by omega)] at h
  split at h
  · next hlt =>
    obtain rfl := Place.data.inj h
    exact ⟨hlt, rfl⟩
  · cases h

/-- Bytes that are in memory are read back from it. -/
theorem get_w64_of_inMemory {mem : Bytes} {data : Int} {bytes : List UInt8}
    (h : InMemory mem data bytes) (hlen : bytes.length = 8) :
    get_w64 mem data = littleEndian bytes := by
  apply congrArg littleEndian
  apply List.ext_getElem
  · rw [List.length_map, List.length_range, hlen]
  · intro i hi hi'
    rw [List.getElem_map, List.getElem_range]
    exact h i _ (List.getElem?_eq_getElem hi')

theorem headerStep_mem (m : Monitor) :
    m.headerStep.mem = (readData m.mem m.socket 0 headerSize m.hdrRcv).state.mem := by
  unfold headerStep
  dsimp only
  split
  · rfl
  · split
    · rw [reconnect_client_mem]
      rfl
    · split
      · rfl
      · rw [received_mem]
        rfl

theorem headerStep_reads (m : Monitor) :
    m.headerStep.reads = m.reads ++ [(0, headerSize)] := by
  unfold headerStep
  dsimp only
  split
  · rfl
  · split
    · rw [reconnect_client_reads]
      rfl
    · split
      · rfl
      · rw [received_reads]
        rfl

theorem dataStep_mem (m : Monitor) (size : Nat) :
    (m.dataStep size).mem
      = (readData m.mem m.socket headerSize (size - headerSize) m.datRcv).state.mem := by
  unfold dataStep
  dsimp only
  split
  · rfl
  · split
    · rw [reconnect_client_mem]
      rfl
    · rfl

theorem dataStep_reads (m : Monitor) (size : Nat) :
    (m.dataStep size).reads = m.reads ++ [((headerSize : Int), size - headerSize)] := by
  unfold dataStep
  dsimp only
  split
  · rfl
  · split
    · rw [reconnect_client_reads]
      rfl
    · rfl

theorem dataStep_place (m : Monitor) (size next : Nat) :
    (m.dataStep size).place ≠ .data next := by
  unfold dataStep
  dsimp only
  split
  · nofun
  · split
    · exact reconnect_client_place _ _ _
    · nofun

/-- **The packet read next** is the one whose size the next bytes of the stream announce. -/
theorem headerStep_place {m : Monitor} {size : Nat} (hcalls : ¬FailsThenGives m.socket)
    (h : m.headerStep.place = .data size) :
    headerSize ≤ m.socket.stream.length ∧ headerSize < size ∧ size = m.announced := by
  have hexact : ReadExact m.mem m.socket.stream 0 headerSize
      (readData m.mem m.socket 0 headerSize m.hdrRcv) :=
    (readExact_iff m.mem m.socket 0 (by decide) m.hdrRcv).mpr hcalls
  unfold headerStep at h
  dsimp only at h
  split at h
  · cases h
  · next nread hret =>
    split at h
    · exact absurd h (reconnect_client_place _ _ _)
    · split at h
      · cases h
      · next hsize =>
        have hnread : nread = headerSize := not_not.mp hsize
        rw [hnread] at hret
        obtain ⟨bytes, hlen, hsplit, hmem⟩ := hexact.returned.mp hret
        obtain ⟨hlt, hsize⟩ := received_place h
        refine ⟨?_, hlt, ?_⟩
        · rw [hsplit, List.length_append, hlen]
          exact Nat.le_add_right _ _
        · unfold announced
          rw [hsplit, ← hlen, List.take_left, hsize]
          exact congrArg dataSize (get_w64_of_inMemory hmem hlen)

/-! ## A run -/

/-- What holds before each step. -/
structure Good (mem : Bytes) (m : Monitor) : Prop where
  fits : m.Fits mem
  size : ∀ size, m.place = .data size → headerSize < size ∧ size ≤ maxBytes

theorem start_good (mem : Bytes) (socket : Socket) (accepts : List Socket)
    (hdrRcv datRcv : RcvProfile) :
    (start mem socket accepts hdrRcv datRcv).Good mem := by
  refine ⟨⟨nofun, fun o ho => ?_⟩, nofun⟩
  have hround : ¬(0 ≤ o ∧ o < (maxBytes : Int)) := by omega
  exact if_neg hround

/-- **A read** that fits the buffer, and is exact, leaves what is around the buffer. -/
theorem Fits.read {mem : Bytes} {m m' : Monitor} {stream : List UInt8} {data : Int} {ndata : Nat}
    {r : Read} (h : m.Fits mem) (hexact : ReadExact m.mem stream data ndata r)
    (hmem : m'.mem = r.state.mem) (hreads : m'.reads = m.reads ++ [(data, ndata)])
    (hpos : 0 ≤ data) (hroom : data + ndata ≤ maxBytes) : m'.Fits mem := by
  refine ⟨fun p hp => ?_, fun o ho => ?_⟩
  · rw [hreads, List.mem_append, List.mem_singleton] at hp
    rcases hp with hp | rfl
    · exact h.inside p hp
    · exact ⟨hpos, hroom⟩
  · rw [hmem, hexact.outside o (by omega)]
    exact h.outside o ho

/-- **A step** that meets the condition. -/
theorem step_good {mem : Bytes} {m : Monitor} (h : m.Good mem) (hmeets : m.Meets) :
    m.step.Good mem := by
  unfold step
  split
  · next hplace =>
    have hcalls := hmeets.calls (.inl hplace)
    refine ⟨?_, fun size hsize => ?_⟩
    · exact h.fits.read ((readExact_iff _ _ _ (by decide) _).mpr hcalls) m.headerStep_mem
        m.headerStep_reads (Int.le_refl 0) (by decide)
    · obtain ⟨hcome, hlt, rfl⟩ := headerStep_place hcalls hsize
      exact ⟨hlt, hmeets.header hplace hcome⟩
  · next size hplace =>
    obtain ⟨hlt, hle⟩ := h.size size hplace
    have hcalls := hmeets.calls (.inr ⟨size, hplace⟩)
    refine ⟨?_, fun next hnext => absurd hnext (m.dataStep_place size next)⟩
    refine h.fits.read ((readExact_iff _ _ _ (by omega) _).mpr hcalls) (m.dataStep_mem size)
      (m.dataStep_reads size) (Int.natCast_nonneg _) ?_
    omega
  · exact h
  · exact h

/-- **A run** whose steps all meet the condition. -/
theorem run_good {mem : Bytes} {m : Monitor} (h : m.Good mem) (n : Nat)
    (hmeets : ∀ k < n, (m.run k).Meets) : (m.run n).Good mem := by
  induction n with
  | zero => exact h
  | succ n ih =>
      have hbefore := ih fun k hk => hmeets k (Nat.lt_succ_of_lt hk)
      exact step_good hbefore (hmeets n (Nat.lt_succ_self n))

end Monitor

/-- **The receiver.** `read_data` stores the next bytes of the stream inside its buffer, in
order, and returns the size of the buffer just when it was filled, if and only if not the
first call of `recv` fails and the next one gives bytes. As long as that does not happen and
no header announces more than the buffer holds, `monitor` asks for no byte that does not fit
the buffer, and stores none outside it. -/
theorem receiver_exact (mem : Bytes) (socket : Socket) :
    (∀ (data : Int) (ndata : Nat) (profile : RcvProfile), 0 < ndata →
      (ReadExact mem socket.stream data ndata (readData mem socket data ndata profile) ↔
        ¬FailsThenGives socket)) ∧
    ∀ (accepts : List Socket) (hdrRcv datRcv : RcvProfile) (n : Nat),
      (∀ k < n, ((Monitor.start mem socket accepts hdrRcv datRcv).run k).Meets) →
        ((Monitor.start mem socket accepts hdrRcv datRcv).run n).Fits mem := by
  constructor
  · intro data ndata profile hpos
    exact readExact_iff mem socket data hpos profile
  · intro accepts hdrRcv datRcv n hmeets
    have hstart := Monitor.start_good mem socket accepts hdrRcv datRcv
    exact (Monitor.run_good hstart n hmeets).fits

/-- Nothing counted. -/
def noProfile : RcvProfile where
  cnt := 0
  tot := 0
  hist := fun _ => 0

/-- A packet of two words, that comes in three parts. -/
def twoWords : Socket where
  stream := [0, 2, 0, 0, 0, 0, 0, 0, 7, 7, 7, 7, 7, 7, 7, 7]
  script := [.take 2, .take 7, .take 7]

/-- A header that announces a word more than the buffer holds. -/
def largeHeader : Socket where
  stream := [0, 1, 0, 16, 0, 0, 0, 0]
  script := [.take 7, .eof]

/-- A call that fails before one that gives two bytes. -/
def failThenTwo : Socket where
  stream := [1, 2]
  script := [.fail, .take 7]

theorem twoWords_meets (k : Nat) (hk : k < 2) :
    ((Monitor.start (fun _ => 0) twoWords [] noProfile noProfile).run k).Meets := by
  obtain rfl | rfl : k = 0 ∨ k = 1 := by omega
  · refine ⟨fun _ => ?_, fun _ _ => by decide⟩
    rintro ⟨-, most, script, h⟩
    cases h
  · refine ⟨fun _ => ?_, nofun⟩
    rintro ⟨-, most, script, h⟩
    cases h

theorem receiver_exact_twoWords :
    (ReadExact (fun _ => 0) twoWords.stream 0 8
        (readData (fun _ => 0) twoWords 0 8 noProfile) ↔ ¬FailsThenGives twoWords) ∧
      ((Monitor.start (fun _ => 0) twoWords [] noProfile noProfile).run 2).Fits fun _ => 0 :=
  ⟨(receiver_exact _ twoWords).1 0 8 noProfile (Nat.zero_lt_succ 7),
    (receiver_exact _ twoWords).2 [] noProfile noProfile 2 twoWords_meets⟩

/-- The bytes are stored before the buffer; the data read last does not fit. -/
theorem failThenTwo_largeHeader :
    ¬ReadExact (fun _ => 0) failThenTwo.stream 0 8
        (readData (fun _ => 0) failThenTwo 0 8 noProfile) ∧
      ¬((Monitor.start (fun _ => 0) largeHeader [] noProfile noProfile).run 2).Fits
        fun _ => 0 := by
  constructor
  · intro h
    have hfirst := h.outside (-1) (by decide)
    exact absurd hfirst (by decide)
  · intro h
    have hlast : ((Monitor.start (fun _ => 0) largeHeader [] noProfile noProfile).run 2).reads
        = [(0, 8), (8, 8388608)] := rfl
    have hfits := h.inside (8, 8388608) (by rw [hlast]; exact .tail _ (.head _))
    exact absurd hfits.2 (by decide)

end ProtoDune.Util
