import Mathlib.Algebra.Group.Int.Defs
import Mathlib.Algebra.Group.Nat.Defs
import Mathlib.Data.List.Basic
import Mathlib.Logic.Function.Basic

/-!
# `tcp_receiver.c`: `read_data`

The receiver reads a number of bytes from its socket into a buffer. A call of `recv` gives
some of them, finds the connection closed, or fails.

Main results:

* `Progress.recv` — one call of `recv` behind the bytes that are stored.
* `readLoop_progress` — the loop stores the bytes of the stream in order.
* `readExact_iff` — when a call of `read_data` stores what it returns, and nothing else.
-/

namespace ProtoDune.Util

/-! ## The socket -/

/-- What a call of `recv` does: it fails, finds the connection closed, or takes the bytes
that are there, but no more than `most + 1`. -/
inductive Recv where
  | fail
  | eof
  | take (most : Nat)

/-- A connection: the bytes that come, and what the calls of `recv` do. After the last of
them `recv` waits. -/
structure Socket where
  stream : List UInt8
  script : List Recv

/-- The memory, by the address less that of the buffer. -/
abbrev Bytes := Int → UInt8

/-- Store bytes from an address on. -/
def store (mem : Bytes) (p : Int) (bytes : List UInt8) : Bytes := fun o =>
  if p ≤ o then (bytes[(o - p).toNat]?).getD (mem o) else mem o

/-- A call of `recv`: where it was to store, how much, and how much it stored. -/
structure Call where
  data : Int
  len : Nat
  stored : Nat

/-- `RcvProfile`; the counts are 32 bits wide. -/
structure RcvProfile where
  cnt : Nat
  tot : Nat
  hist : Nat → Nat

/-- `profile->hist[idx] = nread` -/
def RcvProfile.record (profile : RcvProfile) (cnt : Nat) (nread : Int) : RcvProfile :=
  let idx := if 256 ≤ cnt then 256 - 1 else cnt
  { profile with hist := Function.update profile.hist idx (nread % 2 ^ 32).toNat }

/-- The variables of `read_data`, with the memory, the stream and the calls made. -/
structure ReadState where
  mem : Bytes
  stream : List UInt8
  calls : List Call
  data : Int
  left : Int
  nread : Int
  profile : RcvProfile

/-- `nread = recv (fd, data, len, 0)` -/
def ReadState.recv (s : ReadState) (r : Recv) (len : Nat) : ReadState :=
  match r with
  | .fail => { s with nread := -1, calls := s.calls ++ [⟨s.data, len, 0⟩] }
  | .eof => { s with nread := 0, calls := s.calls ++ [⟨s.data, len, 0⟩] }
  | .take most =>
      let bytes := s.stream.take (min (most + 1) len)
      { s with
        mem := store s.mem s.data bytes
        stream := s.stream.drop bytes.length
        calls := s.calls ++ [⟨s.data, len, bytes.length⟩]
        nread := bytes.length }

/-! ## `read_data` -/

/-- What `read_data` comes to: its variables, what the later calls of `recv` do, and the
value returned; none while it waits. -/
structure Read where
  state : ReadState
  script : List Recv
  ret : Option Int

/-- The end of `read_data`. -/
def ReadState.exit (s : ReadState) (ndata cnt : Nat) : ReadState :=
  let tot := ((ndata - s.left) % 2 ^ 32).toNat
  { s with profile := { s.profile with cnt := cnt % 2 ^ 32, tot } }

/-- The loop of `read_data`, after `cnt` calls. -/
def readLoop (ndata cnt : Nat) (script : List Recv) (s : ReadState) : Read :=
  let s := { s with left := s.left - s.nread }
  if s.left ≤ 0 then
    let s := { s with nread := ndata }
    ⟨s.exit ndata cnt, script, some s.nread⟩
  else match script with
    | [] => ⟨s, [], none⟩
    | r :: script =>
        let s := { s with data := s.data + s.nread }.recv r s.left.toNat
        let s := { s with profile := s.profile.record cnt s.nread }
        if s.nread ≤ 0 then ⟨s.exit ndata (cnt + 1), script, some s.nread⟩
        else readLoop ndata (cnt + 1) script s

/-- `read_data` -/
def readData (mem : Bytes) (socket : Socket) (data : Int) (ndata : Nat) (profile : RcvProfile) :
    Read :=
  let s : ReadState :=
    { mem, stream := socket.stream, calls := [], data, left := ndata, nread := 0, profile }
  match socket.script with
  | [] => ⟨s, [], none⟩
  | r :: script =>
      let s := s.recv r ndata
      let s := { s with profile := s.profile.record 0 s.nread }
      readLoop ndata 1 script s

/-! ## What it should do -/

/-- The bytes are in memory from `data` on. -/
def InMemory (mem : Bytes) (data : Int) (bytes : List UInt8) : Prop :=
  ∀ (i : Nat) (b : UInt8), bytes[i]? = some b → mem (data + i) = b

/-- The next `ndata` bytes of the stream are stored in order, and no more are taken. -/
def StoredNext (stream : List UInt8) (data : Int) (ndata : Nat) (s : ReadState) : Prop :=
  ∃ bytes, bytes.length = ndata ∧ stream = bytes ++ s.stream ∧ InMemory s.mem data bytes

/-- Bytes are stored in the buffer only, and the size of the buffer is returned when it was
filled. -/
structure ReadExact (mem : Bytes) (stream : List UInt8) (data : Int) (ndata : Nat) (r : Read) :
    Prop where
  inside : ∀ c ∈ r.state.calls, 0 < c.stored → data ≤ c.data ∧ c.data + c.stored ≤ data + ndata
  outside : ∀ o, o < data ∨ data + ndata ≤ o → r.state.mem o = mem o
  returned : r.ret = some (ndata : Int) ↔ StoredNext stream data ndata r.state

/-- The first call fails, and the next one gives bytes. -/
def FailsThenGives (socket : Socket) : Prop :=
  socket.stream ≠ [] ∧ ∃ most script, socket.script = .fail :: .take most :: script

/-! ## One call of `recv` -/

section Store

variable {mem : Bytes} {p : Int} {bytes : List UInt8}

theorem store_of_lt {o : Int} (h : o < p) : store mem p bytes o = mem o :=
  if_neg (Int.not_le.mpr h)

theorem store_of_le {o : Int} (h : p + bytes.length ≤ o) : store mem p bytes o = mem o := by
  unfold store
  split
  · rw [List.getElem?_eq_none (by omega)]
    rfl
  · rfl

theorem store_at {i : Nat} {b : UInt8} (h : bytes[i]? = some b) :
    store mem p bytes (p + i) = b := by
  have hindex : (p + i - p).toNat = i := by omega
  rw [store, if_pos (by omega), hindex, h]
  rfl

theorem store_nil : store mem p [] = mem := by
  funext o
  exact ite_self (mem o)

end Store

@[simp] theorem recv_data (s : ReadState) (r : Recv) (len : Nat) :
    (s.recv r len).data = s.data := by
  cases r <;> rfl

@[simp] theorem recv_left (s : ReadState) (r : Recv) (len : Nat) :
    (s.recv r len).left = s.left := by
  cases r <;> rfl

/-- A call that finds no bytes is at the end of the connection. -/
theorem recv_take_of_empty {s : ReadState} (h : s.stream = []) (most len : Nat) :
    s.recv (.take most) len = s.recv .eof len := by
  unfold ReadState.recv
  dsimp only
  rw [h, List.take_nil, store_nil]
  rfl

/-- The bytes stored so far are the first of the stream. -/
structure Progress (mem : Bytes) (stream : List UInt8) (data : Int) (ndata : Nat)
    (bytes : List UInt8) (s : ReadState) : Prop where
  split : stream = bytes ++ s.stream
  le : bytes.length ≤ ndata
  stored : InMemory s.mem data bytes
  outside : ∀ o, o < data ∨ data + ndata ≤ o → s.mem o = mem o
  inside : ∀ c ∈ s.calls, 0 < c.stored → data ≤ c.data ∧ c.data + c.stored ≤ data + ndata

namespace Progress

variable {mem : Bytes} {stream : List UInt8} {data : Int} {ndata : Nat} {bytes : List UInt8}
  {s s' : ReadState}

theorem congr (h : Progress mem stream data ndata bytes s) (hmem : s'.mem = s.mem)
    (hstream : s'.stream = s.stream) (hcalls : s'.calls = s.calls) :
    Progress mem stream data ndata bytes s' := by
  refine ⟨?_, h.le, ?_, ?_, ?_⟩
  · rw [hstream]
    exact h.split
  · rw [hmem]
    exact h.stored
  · rw [hmem]
    exact h.outside
  · rw [hcalls]
    exact h.inside

/-- A call that stores nothing. -/
theorem idle (h : Progress mem stream data ndata bytes s) (hmem : s'.mem = s.mem)
    (hstream : s'.stream = s.stream) {p : Int} {len : Nat}
    (hcalls : s'.calls = s.calls ++ [⟨p, len, 0⟩]) :
    Progress mem stream data ndata bytes s' := by
  refine ⟨?_, h.le, ?_, ?_, fun c hc hpos => ?_⟩
  · rw [hstream]
    exact h.split
  · rw [hmem]
    exact h.stored
  · rw [hmem]
    exact h.outside
  · rw [hcalls, List.mem_append, List.mem_singleton] at hc
    rcases hc with hc | rfl
    · exact h.inside c hc hpos
    · exact absurd hpos (Nat.lt_irrefl 0)

/-- **One call** behind the bytes that are stored. -/
theorem recv (h : Progress mem stream data ndata bytes s) (hdata : s.data = data + bytes.length)
    {len : Nat} (hlen : bytes.length + len ≤ ndata) (r : Recv) :
    ∃ new, Progress mem stream data ndata (bytes ++ new) (s.recv r len) ∧
      ((s.recv r len).nread = new.length ∨ new = [] ∧ (s.recv r len).nread = -1) := by
  cases r with
  | fail =>
      refine ⟨[], ?_, .inr ⟨rfl, rfl⟩⟩
      rw [List.append_nil]
      exact h.idle rfl rfl rfl
  | eof =>
      refine ⟨[], ?_, .inl rfl⟩
      rw [List.append_nil]
      exact h.idle rfl rfl rfl
  | take most =>
      obtain ⟨new, hnew⟩ : ∃ new, s.stream.take (min (most + 1) len) = new := ⟨_, rfl⟩
      have hshort : new.length ≤ len := by
        rw [← hnew, List.length_take]
        omega
      have hrest : s.stream = new ++ s.stream.drop new.length := by
        have hprefix : new = s.stream.take new.length := by
          rw [← hnew, List.length_take, List.take_eq_take_iff]
          omega
        conv_lhs => rw [← List.take_append_drop new.length s.stream, ← hprefix]
      refine ⟨new, ?_, .inl ?_⟩
      · unfold ReadState.recv
        dsimp only
        rw [hnew]
        constructor
        · rw [h.split, List.append_assoc, ← hrest]
        · rw [List.length_append]
          omega
        · intro i b hb
          dsimp only
          rw [hdata]
          rcases Nat.lt_or_ge i bytes.length with hi | hi
          · rw [List.getElem?_append_left hi] at hb
            rw [store_of_lt (by omega)]
            exact h.stored i b hb
          · rw [List.getElem?_append_right hi] at hb
            have hplace : data + (i : Int)
                = data + bytes.length + ((i - bytes.length : Nat) : Int) := by omega
            rw [hplace]
            exact store_at hb
        · intro o ho
          dsimp only
          rw [hdata]
          rcases ho with ho | ho
          · rw [store_of_lt (by omega)]
            exact h.outside o (.inl ho)
          · rw [store_of_le (by omega)]
            exact h.outside o (.inr ho)
        · intro c hc hpos
          rcases List.mem_append.mp hc with hc | hc
          · exact h.inside c hc hpos
          · rw [List.mem_singleton.mp hc, hdata]
            dsimp only
            omega
      · unfold ReadState.recv
        dsimp only
        rw [hnew]

end Progress

/-! ## The loop -/

section Loop

variable {mem : Bytes} {stream : List UInt8} {data : Int} {ndata : Nat}

/-- **The loop** stores the bytes of the stream in order, and returns `ndata` when it has
stored as many. -/
theorem readLoop_progress (hpos : 0 < ndata) (script : List Recv) :
    ∀ (cnt : Nat) {s : ReadState} {bytes : List UInt8},
      Progress mem stream data ndata bytes s → s.data + s.nread = data + bytes.length →
      s.left - s.nread = ndata - bytes.length →
      ∃ bytes', Progress mem stream data ndata bytes' (readLoop ndata cnt script s).state ∧
        ((readLoop ndata cnt script s).ret = some (ndata : Int) ↔ bytes'.length = ndata) := by
  induction script with
  | nil =>
      intro cnt s bytes h hdata hleft
      have hle := h.le
      unfold readLoop
      dsimp only
      by_cases hdone : s.left - s.nread ≤ 0
      · rw [if_pos hdone]
        exact ⟨bytes, h.congr rfl rfl rfl, iff_of_true rfl (by omega)⟩
      · rw [if_neg hdone]
        exact ⟨bytes, h.congr rfl rfl rfl, iff_of_false nofun (by omega)⟩
  | cons r script ih =>
      intro cnt s bytes h hdata hleft
      have hle := h.le
      unfold readLoop
      dsimp only
      by_cases hdone : s.left - s.nread ≤ 0
      · rw [if_pos hdone]
        exact ⟨bytes, h.congr rfl rfl rfl, iff_of_true rfl (by omega)⟩
      · rw [if_neg hdone]
        obtain ⟨s₁, hs₁⟩ :
            ∃ s₁, { s with data := s.data + s.nread, left := s.left - s.nread } = s₁ := ⟨_, rfl⟩
        have h₁ : Progress mem stream data ndata bytes s₁ := by
          rw [← hs₁]
          exact h.congr rfl rfl rfl
        have hdata₁ : s₁.data = data + bytes.length := by
          rw [← hs₁]
          exact hdata
        have hleft₁ : s₁.left = ndata - bytes.length := by
          rw [← hs₁]
          exact hleft
        obtain ⟨len, hlen⟩ : ∃ len, (s.left - s.nread).toNat = len := ⟨_, rfl⟩
        obtain ⟨new, hnew, hnread⟩ := h₁.recv hdata₁ (show bytes.length + len ≤ ndata by omega) r
        rw [hs₁, hlen]
        by_cases hend : (s₁.recv r len).nread ≤ 0
        · -- nothing came: the call returns what `recv` returned
          rw [if_pos hend]
          obtain rfl : new = [] := by
            rcases hnread with hnread | ⟨rfl, -⟩
            · exact List.eq_nil_of_length_eq_zero (by omega)
            · rfl
          rw [List.append_nil] at hnew
          refine ⟨bytes, hnew.congr rfl rfl rfl, iff_of_false (fun hret => ?_) (by omega)⟩
          have hvalue : (s₁.recv r len).nread = ndata := Option.some.inj hret
          omega
        · rw [if_neg hend]
          have hcount : (s₁.recv r len).nread = new.length := by
            rcases hnread with hnread | ⟨-, hfail⟩
            · exact hnread
            · omega
          have hdata₂ := recv_data s₁ r len
          have hleft₂ := recv_left s₁ r len
          refine ih (cnt + 1) (hnew.congr rfl rfl rfl) ?_ ?_
          · rw [List.length_append]
            change (s₁.recv r len).data + (s₁.recv r len).nread = _
            omega
          · rw [List.length_append]
            change (s₁.recv r len).left - (s₁.recv r len).nread = _
            omega

/-- The calls made stay in the record. -/
theorem readLoop_calls (script : List Recv) : ∀ {cnt : Nat} {s : ReadState} {c : Call},
    c ∈ s.calls → c ∈ (readLoop ndata cnt script s).state.calls := by
  induction script with
  | nil =>
      intro cnt s c hc
      unfold readLoop
      dsimp only
      split <;> exact hc
  | cons r script ih =>
      intro cnt s c hc
      unfold readLoop
      dsimp only
      split
      · exact hc
      · have hrecv : ∀ (s' : ReadState) (len : Nat), s'.calls = s.calls →
            c ∈ (s'.recv r len).calls := by
          intro s' len hs'
          cases r <;> exact List.mem_append_left _ (hs' ▸ hc)
        split
        · exact hrecv _ _ rfl
        · exact ih (hrecv _ _ rfl)

/-- What is stored in order is exact. -/
theorem Progress.exact {bytes : List UInt8} {r : Read}
    (h : Progress mem stream data ndata bytes r.state)
    (hret : r.ret = some (ndata : Int) ↔ bytes.length = ndata) :
    ReadExact mem stream data ndata r := by
  refine ⟨h.inside, h.outside, ?_⟩
  rw [hret]
  constructor
  · intro hlen
    exact ⟨bytes, hlen, h.split, h.stored⟩
  · rintro ⟨bytes', hlen, hsplit, -⟩
    rw [h.split] at hsplit
    rw [List.append_left_inj] at hsplit
    rw [hsplit]
    exact hlen

end Loop

/-- A first call that does not fail. -/
theorem readExact_of_first {mem : Bytes} {stream : List UInt8} {data : Int} {ndata cnt : Nat}
    {profile profile' : RcvProfile} (hpos : 0 < ndata) (r : Recv) (script : List Recv)
    {s : ReadState}
    (hs : s = { mem, stream, calls := [], data, left := ndata, nread := 0, profile })
    (hfirst : (s.recv r ndata).nread ≠ -1) :
    ReadExact mem stream data ndata
      (readLoop ndata cnt script { s.recv r ndata with profile := profile' }) := by
  have h0 : Progress mem stream data ndata [] s := by
    rw [hs]
    exact ⟨rfl, Nat.zero_le _, nofun, fun o _ => rfl, nofun⟩
  have hdata : s.data = data + ([] : List UInt8).length := by
    rw [hs]
    exact (Int.add_zero data).symm
  obtain ⟨new, hnew, hnread⟩ := h0.recv hdata (Nat.le_of_eq (Nat.zero_add ndata)) r
  have hcount : (s.recv r ndata).nread = new.length := hnread.resolve_right fun h => hfirst h.2
  have hleft : (s.recv r ndata).left = ndata := by
    rw [recv_left, hs]
  rw [List.nil_append] at hnew
  have hgo : Progress mem stream data ndata new { s.recv r ndata with profile := profile' } :=
    hnew.congr rfl rfl rfl
  have hnext : (s.recv r ndata).data + (s.recv r ndata).nread = data + new.length := by
    rw [recv_data, hdata, hcount, List.length_nil]
    omega
  have hrest : (s.recv r ndata).left - (s.recv r ndata).nread = ndata - new.length := by
    rw [hleft, hcount]
  obtain ⟨bytes, hbytes, hret⟩ := readLoop_progress hpos script cnt hgo hnext hrest
  exact hbytes.exact hret

/-- After a first call that fails, the next one is to store before the buffer. -/
theorem readExact_of_failed {mem : Bytes} {stream : List UInt8} {data : Int} {ndata : Nat}
    {profile : RcvProfile} (hpos : 0 < ndata) (script : List Recv) {s : ReadState}
    (hs : s =
      { mem, stream, calls := [⟨data, ndata, 0⟩], data, left := ndata, nread := -1, profile }) :
    ReadExact mem stream data ndata (readLoop ndata 1 script s) ↔
      ¬(stream ≠ [] ∧ ∃ most rest, script = .take most :: rest) := by
  have h0 : Progress mem stream data ndata [] s := by
    rw [hs]
    refine ⟨rfl, Nat.zero_le _, nofun, fun o _ => rfl, fun c hc hstored => ?_⟩
    rw [List.mem_singleton.mp hc] at hstored
    exact absurd hstored (Nat.lt_irrefl 0)
  have hleft : ¬s.left - s.nread ≤ 0 := by
    rw [hs]
    dsimp only
    omega
  -- nothing more is stored
  have hidle : ∀ {r : Read}, Progress mem stream data ndata [] r.state →
      r.ret ≠ some (ndata : Int) → ReadExact mem stream data ndata r := fun h hret =>
    h.exact (iff_of_false hret (Nat.ne_of_lt hpos))
  cases script with
  | nil =>
      refine iff_of_true ?_ fun ⟨_, _, _, h⟩ => nomatch h
      unfold readLoop
      dsimp only
      rw [if_neg hleft]
      exact hidle (h0.congr rfl rfl rfl) nofun
  | cons r script =>
      have hstop : ReadExact mem stream data ndata (readLoop ndata 1 (.eof :: script) s) := by
        unfold readLoop
        dsimp only
        rw [if_neg hleft]
        refine hidle (h0.idle rfl rfl rfl) fun hret => ?_
        have hvalue : (0 : Int) = ndata := Option.some.inj hret
        omega
      cases r with
      | fail =>
          refine iff_of_true ?_ fun ⟨_, _, _, h⟩ => nomatch h
          unfold readLoop
          dsimp only
          rw [if_neg hleft]
          refine hidle (h0.idle rfl rfl rfl) fun hret => ?_
          have hvalue : (-1 : Int) = ndata := Option.some.inj hret
          omega
      | eof => exact iff_of_true hstop fun ⟨_, _, _, h⟩ => nomatch h
      | take most =>
          by_cases hstream : stream = []
          · refine iff_of_true ?_ fun h => h.1 hstream
            have hempty : s.stream = [] := by
              rw [hs]
              exact hstream
            have hsame : readLoop ndata 1 (.take most :: script) s
                = readLoop ndata 1 (.eof :: script) s := by
              unfold readLoop
              dsimp only
              rw [if_neg hleft, if_neg hleft, recv_take_of_empty (by exact hempty)]
            rw [hsame]
            exact hstop
          · refine iff_of_false (fun h => ?_) (not_not_intro ⟨hstream, most, script, rfl⟩)
            -- the pointer is one before the buffer
            obtain ⟨c, hc, hplace, hstored⟩ :
                ∃ c ∈ (readLoop ndata 1 (.take most :: script) s).state.calls,
                  c.data = data - 1 ∧ 0 < c.stored := by
              have hcount : 0 < (stream.take (min (most + 1) (ndata + 1))).length := by
                have hlong := List.length_pos_iff.mpr hstream
                rw [List.length_take]
                omega
              rw [hs]
              unfold readLoop ReadState.recv
              dsimp only
              have hlen : ((ndata : Int) - -1).toNat = ndata + 1 := by omega
              rw [if_neg (by omega), hlen, if_neg (by omega)]
              refine ⟨⟨data + -1, ndata + 1, _⟩, readLoop_calls script ?_, rfl, hcount⟩
              exact List.mem_append_right _ (List.mem_singleton_self _)
            have hinside := h.inside c hc hstored
            omega

/-- **`read_data`** stores the bytes of the stream in order, inside its buffer, and returns
its size just when it was filled, unless the first call of `recv` fails and the next one
gives bytes. -/
theorem readExact_iff (mem : Bytes) (socket : Socket) (data : Int) {ndata : Nat}
    (hpos : 0 < ndata) (profile : RcvProfile) :
    ReadExact mem socket.stream data ndata (readData mem socket data ndata profile) ↔
      ¬FailsThenGives socket := by
  obtain ⟨stream, script⟩ := socket
  unfold FailsThenGives readData
  cases script with
  | nil =>
      refine iff_of_true ?_ fun ⟨_, _, _, h⟩ => nomatch h
      have hidle : Progress mem stream data ndata []
          { mem, stream, calls := [], data, left := ndata, nread := 0, profile } :=
        ⟨rfl, Nat.zero_le _, nofun, fun o _ => rfl, nofun⟩
      exact hidle.exact (iff_of_false nofun (Nat.ne_of_lt hpos))
  | cons r script =>
      cases r with
      | fail =>
          refine Iff.trans (readExact_of_failed hpos script rfl) (not_congr ?_)
          refine and_congr_right fun _ => exists_congr fun most => exists_congr fun rest => ?_
          rw [List.cons_inj_right]
      | eof =>
          refine iff_of_true ?_ fun ⟨_, _, _, h⟩ => nomatch h
          exact readExact_of_first hpos .eof script rfl (by change (0 : Int) ≠ -1; omega)
      | take most =>
          refine iff_of_true ?_ fun ⟨_, _, _, h⟩ => nomatch h
          refine readExact_of_first hpos (.take most) script rfl ?_
          change ((stream.take (min (most + 1) ndata)).length : Int) ≠ -1
          omega

end ProtoDune.Util
