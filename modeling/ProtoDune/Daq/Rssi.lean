import Mathlib.Data.BitVec
import ProtoDune.Lib.WindowSelect

/-!
# `Rssi.h`, `TxMessage.h`: sending a message through the RSSI DMA

A message is an array of iovecs. Each carries the AXI-Stream flags it is to be
written with: the start of the frame in the first user byte, and a continuation
bit that keeps the frame open. The flags are given when an iovec is added, and
those of the last one are replaced when the message is sent.

The number of bits of a `size_t` is the parameter `w`. The program is built for the
processor of the RCE, where it is 32; the results are for that width and more.

Main results:

* `TxMessage.run_flags` — the flags an iovec has once the message is built.
* `sendLoop_eq` — the loop writes every iovec and adds up what the writes return.
* `rssi_exact_iff` — when a message is one frame, and its result is right.
-/

namespace ProtoDune.Daq

open WindowSelect (through prefix_through through_eq_self_iff)

variable {w : Nat}

/-- `setFlags` of `Rssi.h`. -/
def setFlags (fuser luser cont : BitVec 32) : BitVec 32 :=
  ((cont &&& 0x1) <<< 16) ||| ((luser &&& 0xFF) <<< 8) ||| ((fuser &&& 0xFF) <<< 0)

/-! ## The iovecs -/

/-- `RssiIovec::Method`. -/
inductive Method where
  | Memory
  | Index
deriving DecidableEq

/-- `RssiIovec`. -/
structure RssiIovec (w : Nat) where
  iovBase : Nat
  iovIdx : Nat
  iovLen : BitVec w
  iovMethod : Method
  iovFlags : BitVec 32
  iovTdest : BitVec 32

/-- What is handed to the DMA: by `dmaWrite` the address of a buffer, by
`dmaWriteIndex` its index. -/
structure DmaWrite (w : Nat) where
  buffer : Nat ⊕ Nat
  len : BitVec w
  flags : BitVec 32
  tdest : BitVec 32
deriving DecidableEq

namespace RssiIovec

/-- `RssiIovec::Flags`. -/
def Only : BitVec 32 := setFlags 2 0 0
def First : BitVec 32 := setFlags 2 0 1
def Middle : BitVec 32 := setFlags 0 0 1
def Last : BitVec 32 := setFlags 0 0 0

/-- `RssiIovec::construct`, by address. The index stays as it was. -/
def construct (iov : RssiIovec w) (base : Nat) (len : BitVec w) (flags tdest : BitVec 32) :
    RssiIovec w :=
  { iov with iovBase := base, iovLen := len, iovMethod := .Memory, iovFlags := flags,
             iovTdest := tdest }

/-- `RssiIovec::construct`, by index. The address stays as it was. -/
def constructIndex (iov : RssiIovec w) (idx : Nat) (len : BitVec w) (flags tdest : BitVec 32) :
    RssiIovec w :=
  { iov with iovIdx := idx, iovLen := len, iovMethod := .Index, iovFlags := flags,
             iovTdest := tdest }

/-- `RssiIovec::increase`. -/
def increase (iov : RssiIovec w) (len : BitVec w) : RssiIovec w :=
  { iov with iovLen := iov.iovLen + len }

/-- `RssiIovec::setLast`. -/
def setLast (iov : RssiIovec w) : RssiIovec w := { iov with iovFlags := Last }

/-- The write of an iovec with the flags given. -/
def write (iov : RssiIovec w) (flags : BitVec 32) : DmaWrite w where
  buffer :=
    match iov.iovMethod with
    | .Memory => .inl iov.iovBase
    | .Index => .inr iov.iovIdx
  len := iov.iovLen
  flags := flags
  tdest := iov.iovTdest

/-- How often an iovec is written: a write by address that finds no buffer
returns 0, and is made once more. -/
def attempts (iov : RssiIovec w) (dma : Nat → BitVec w) : Nat :=
  if iov.iovMethod = .Memory ∧ dma 0 = 0 then 2 else 1

/-- What the last of these writes returns. -/
def result (iov : RssiIovec w) (dma : Nat → BitVec w) : BitVec w :=
  dma (iov.attempts dma - 1)

/-- `RssiIovec::send`, where the writes return `dma 0`, `dma 1`: the writes, and
the number of bytes transmitted. -/
def send (iov : RssiIovec w) (dma : Nat → BitVec w) : List (DmaWrite w) × BitVec w :=
  let write := iov.write iov.iovFlags
  match iov.iovMethod with
  | .Memory =>
      let ret := dma 0
      if ret = 0 then ([write, write], dma 1) else ([write], ret)
  | .Index => ([write], dma 0)

theorem attempts_pos (iov : RssiIovec w) (dma : Nat → BitVec w) : 0 < iov.attempts dma := by
  unfold attempts
  split <;> decide

theorem send_eq (iov : RssiIovec w) (dma : Nat → BitVec w) :
    iov.send dma =
      (List.replicate (iov.attempts dma) (iov.write iov.iovFlags), iov.result dma) := by
  unfold send result attempts
  cases iov.iovMethod with
  | Index => simp
  | Memory =>
      by_cases h : dma 0 = 0#w
      · simp [h, List.replicate]
      · simp [h]

end RssiIovec

/-! ## The message -/

/-- `iovec` of the system. -/
structure MsgIovec (w : Nat) where
  iovBase : Nat
  iovLen : BitVec w

/-- `TxMessage`. -/
structure TxMessage (w : Nat) where
  iovlen : Nat
  msgIov : Nat → MsgIovec w
  rssiIovlen : Nat
  rssiIov : Nat → RssiIovec w
  tdest : BitVec 32

namespace TxMessage

/-- `TxMessage::add`, to send by address. -/
def add (m : TxMessage w) (iovidx base : Nat) (len : BitVec w) (flags : BitVec 32) : TxMessage w :=
  { m with
    msgIov := Function.update m.msgIov iovidx ⟨base, len⟩
    rssiIov := Function.update m.rssiIov iovidx
      ((m.rssiIov iovidx).construct base len flags m.tdest) }

/-- `TxMessage::add`, to send by index. -/
def addIndex (m : TxMessage w) (iovidx base idx : Nat) (len : BitVec w) (flags : BitVec 32) :
    TxMessage w :=
  { m with
    msgIov := Function.update m.msgIov iovidx ⟨base, len⟩
    rssiIov := Function.update m.rssiIov iovidx
      ((m.rssiIov iovidx).constructIndex idx len flags m.tdest) }

/-- `TxMessage::increase`. -/
def increase (m : TxMessage w) (iovidx : Nat) (nbytes : BitVec 32) : TxMessage w :=
  { m with
    msgIov := Function.update m.msgIov iovidx
      { m.msgIov iovidx with iovLen := (m.msgIov iovidx).iovLen + nbytes.setWidth w }
    rssiIov := Function.update m.rssiIov iovidx
      ((m.rssiIov iovidx).increase (nbytes.setWidth w)) }

/-- `TxMessage::increaseLast`. -/
def increaseLast (m : TxMessage w) (nbytes : BitVec 32) : TxMessage w :=
  m.increase (m.iovlen - 1) nbytes

/-- `TxMessage::setIovlen`. -/
def setIovlen (m : TxMessage w) (iovlen : Nat) : TxMessage w := { m with iovlen }

/-- `TxMessage::setRssiLast`. -/
def setRssiLast (m : TxMessage w) (iovlen : Nat) : TxMessage w :=
  { m with rssiIov := Function.update m.rssiIov iovlen (m.rssiIov iovlen).setLast }

/-- `TxMessage::terminateRssi`. -/
def terminateRssi (m : TxMessage w) : TxMessage w :=
  { m with rssiIovlen := m.iovlen }.setRssiLast (m.iovlen - 1)

end TxMessage

/-- The loop of `RssiHdr::send` over the next `n` iovecs, from `idx` on, with the
sum so far; `dma i k` is what the write number `k` of the iovec `i` returns. The
result of a write is compared with 0 as an unsigned number. -/
def sendLoop (iov : Nat → RssiIovec w) (dma : Nat → Nat → BitVec w) :
    Nat → Nat → BitVec 32 → List (DmaWrite w) × BitVec w
  | 0, _, nbytes => ([], nbytes.signExtend w)
  | n + 1, idx, nbytes =>
      let (writes, ret) := (iov idx).send (dma idx)
      if ret < 0 then (writes, ret)
      else
        let (rest, size) := sendLoop iov dma n (idx + 1) (nbytes + ret.setWidth 32)
        (writes ++ rest, size)

/-- `TxMessage::sendRssi`: the writes, and the size it returns. -/
def TxMessage.sendRssi (m : TxMessage w) (dma : Nat → Nat → BitVec w) :
    List (DmaWrite w) × BitVec w :=
  let m := m.terminateRssi
  sendLoop m.rssiIov dma m.rssiIovlen 0 0

/-! ## Building a message -/

/-- The calls by which a message is built. -/
inductive Call (w : Nat) where
  | add (iovidx base : Nat) (len : BitVec w) (flags : BitVec 32)
  | addIndex (iovidx base idx : Nat) (len : BitVec w) (flags : BitVec 32)
  | increase (iovidx : Nat) (nbytes : BitVec 32)
  | increaseLast (nbytes : BitVec 32)
  | setIovlen (iovlen : Nat)

namespace Call

def exec (m : TxMessage w) : Call w → TxMessage w
  | .add iovidx base len flags => m.add iovidx base len flags
  | .addIndex iovidx base idx len flags => m.addIndex iovidx base idx len flags
  | .increase iovidx nbytes => m.increase iovidx nbytes
  | .increaseLast nbytes => m.increaseLast nbytes
  | .setIovlen iovlen => m.setIovlen iovlen

/-- The iovec a call adds, with its flags. -/
def added : Call w → Option (Nat × BitVec 32)
  | .add iovidx _ _ flags => some (iovidx, flags)
  | .addIndex iovidx _ _ _ flags => some (iovidx, flags)
  | .increase .. => none
  | .increaseLast .. => none
  | .setIovlen .. => none

end Call

/-- The flags an iovec is added with: the header of the fragment opens the
frame, the packets continue it. -/
def addFlags (iovidx : Nat) : BitVec 32 :=
  if iovidx = 0 then RssiIovec.First else RssiIovec.Middle

/-- Iovecs are added with the flags of their place. -/
def FlagsInOrder (calls : List (Call w)) : Prop :=
  ∀ call ∈ calls, ∀ iovidx flags, call.added = some (iovidx, flags) → flags = addFlags iovidx

namespace TxMessage

/-- A message built by a sequence of calls. -/
def run (m : TxMessage w) (calls : List (Call w)) : TxMessage w := calls.foldl Call.exec m

/-- One call leaves the flags of an iovec alone, or adds it. -/
theorem exec_flags (m : TxMessage w) (call : Call w) (i : Nat) :
    (∃ flags, call.added = some (i, flags) ∧ ((call.exec m).rssiIov i).iovFlags = flags) ∨
      ((∀ flags, call.added ≠ some (i, flags)) ∧
        ((call.exec m).rssiIov i).iovFlags = (m.rssiIov i).iovFlags) := by
  cases call with
  | add iovidx base len flags =>
      by_cases hi : i = iovidx
      · subst hi
        exact .inl ⟨flags, rfl, by simp [Call.exec, add, RssiIovec.construct]⟩
      · exact .inr ⟨by simp [Call.added, Ne.symm hi], by simp [Call.exec, add, hi]⟩
  | addIndex iovidx base idx len flags =>
      by_cases hi : i = iovidx
      · subst hi
        exact .inl ⟨flags, rfl, by simp [Call.exec, addIndex, RssiIovec.constructIndex]⟩
      · exact .inr ⟨by simp [Call.added, Ne.symm hi], by simp [Call.exec, addIndex, hi]⟩
  | increase iovidx nbytes =>
      refine .inr ⟨by simp [Call.added], ?_⟩
      by_cases hi : i = iovidx
      · subst hi
        simp [Call.exec, increase, RssiIovec.increase]
      · simp [Call.exec, increase, hi]
  | increaseLast nbytes =>
      refine .inr ⟨by simp [Call.added], ?_⟩
      by_cases hi : i = m.iovlen - 1
      · subst hi
        simp [Call.exec, increaseLast, increase, RssiIovec.increase]
      · simp [Call.exec, increaseLast, increase, hi]
  | setIovlen iovlen => exact .inr ⟨by simp [Call.added], rfl⟩

/-- Once it was added, an iovec has the flags of its place. -/
theorem run_flags {calls : List (Call w)} (hf : FlagsInOrder calls) (m : TxMessage w) {i : Nat}
    (h : (m.rssiIov i).iovFlags = addFlags i ∨
      ∃ call ∈ calls, ∃ flags, call.added = some (i, flags)) :
    ((m.run calls).rssiIov i).iovFlags = addFlags i := by
  induction calls generalizing m with
  | nil => exact h.resolve_right (by simp)
  | cons call rest ih =>
      have hrest : FlagsInOrder rest := fun c hc => hf c (List.mem_cons_of_mem _ hc)
      apply ih hrest (call.exec m)
      rcases exec_flags m call i with ⟨flags, hadded, hflags⟩ | ⟨hnone, hsame⟩
      · exact .inl (hflags.trans (hf call List.mem_cons_self i flags hadded))
      · rw [hsame]
        refine h.imp_right ?_
        rintro ⟨c, hc, flags, hadded⟩
        rcases List.mem_cons.mp hc with rfl | hc
        · exact absurd hadded (hnone flags)
        · exact ⟨c, hc, flags, hadded⟩

end TxMessage

/-! ## What is sent -/

/-- The loop writes every iovec, whatever the writes return, and adds up the low
halves of what they return. -/
theorem sendLoop_eq (iov : Nat → RssiIovec w) (dma : Nat → Nat → BitVec w) (n : Nat) :
    ∀ idx nbytes, sendLoop iov dma n idx nbytes =
      ((List.range' idx n).flatMap fun i =>
        List.replicate ((iov i).attempts (dma i)) ((iov i).write (iov i).iovFlags),
      (nbytes + ((List.range' idx n).map fun i =>
        ((iov i).result (dma i)).setWidth 32).sum).signExtend w) := by
  induction n with
  | zero =>
      intro idx nbytes
      simp [sendLoop]
  | succ n ih =>
      intro idx nbytes
      -- no unsigned number is below 0
      have hret : ¬ (iov idx).result (dma idx) < 0 := BitVec.not_lt_zero
      simp only [sendLoop, RssiIovec.send_eq, if_neg hret, ih, List.range'_succ,
        List.flatMap_cons, List.map_cons, List.sum_cons, BitVec.add_assoc]

namespace TxMessage

/-- The writes of the iovec `i` sent all of it. -/
def Done (m : TxMessage w) (dma : Nat → Nat → BitVec w) (i : Nat) : Prop :=
  (m.rssiIov i).result (dma i) = (m.rssiIov i).iovLen

instance (m : TxMessage w) (dma : Nat → Nat → BitVec w) (i : Nat) : Decidable (m.Done dma i) :=
  inferInstanceAs (Decidable (_ = _))

/-- The number of bytes of the message. -/
def total (m : TxMessage w) : BitVec w :=
  ((List.range m.iovlen).map fun i => (m.rssiIov i).iovLen).sum

/-- The flags of the iovec `i` of `n` in one frame: it starts with the first and
is kept open by all but the last. -/
def frameFlags (n i : Nat) : BitVec 32 :=
  setFlags (if i = 0 then 2 else 0) 0 (if i + 1 < n then 1 else 0)

/-- The message is one frame, written up to the first iovec that fails, and the
returned size is that of the message exactly when none does. -/
structure Transferred (m : TxMessage w) (dma : Nat → Nat → BitVec w) : Prop where
  frame : (m.sendRssi dma).1 =
    (through (fun i => !decide (m.Done dma i)) (List.range m.iovlen)).flatMap fun i =>
      List.replicate ((m.rssiIov i).attempts (dma i))
        ((m.rssiIov i).write (frameFlags m.iovlen i))
  size : (m.sendRssi dma).2 = m.total ↔ ∀ i < m.iovlen, m.Done dma i

/-- The flags an iovec is sent with. -/
def sentFlags (n i : Nat) : BitVec 32 :=
  if i + 1 = n then RssiIovec.Last else addFlags i

/-- Only an iovec that is the first and the last is sent with the wrong flags. -/
theorem sentFlags_eq {n i : Nat} (hi : i < n) (hn : 2 ≤ n) : sentFlags n i = frameFlags n i := by
  unfold sentFlags frameFlags addFlags
  rcases Nat.eq_or_lt_of_le hi with hlast | hlt
  · have h0 : i ≠ 0 := by omega
    have hlast' : i + 1 = n := hlast
    rw [if_pos hlast', if_neg h0, if_neg (by omega)]
    rfl
  · rw [if_neg (by omega), if_pos (show i + 1 < n from hlt)]
    split <;> rfl

/-- The iovecs after `terminateRssi`: the last one has the flags of the last. -/
theorem terminateRssi_rssiIov (m : TxMessage w) (hn : 1 ≤ m.iovlen) (i : Nat) :
    m.terminateRssi.rssiIov i =
      if i + 1 = m.iovlen then (m.rssiIov i).setLast else m.rssiIov i := by
  by_cases hi : i + 1 = m.iovlen
  · have hlast : m.iovlen - 1 = i := by omega
    simp [terminateRssi, setRssiLast, hi, hlast]
  · have hne : i ≠ m.iovlen - 1 := by omega
    simp [terminateRssi, setRssiLast, hi, hne]

/-- What `sendRssi` does with a message whose iovecs have the flags of their
places. -/
theorem sendRssi_eq {m : TxMessage w} (hn : 1 ≤ m.iovlen)
    (hflags : ∀ i < m.iovlen, (m.rssiIov i).iovFlags = addFlags i)
    (dma : Nat → Nat → BitVec w) :
    m.sendRssi dma =
      ((List.range m.iovlen).flatMap fun i => List.replicate ((m.rssiIov i).attempts (dma i))
        ((m.rssiIov i).write (sentFlags m.iovlen i)),
      (((List.range m.iovlen).map fun i =>
        ((m.rssiIov i).result (dma i)).setWidth 32).sum).signExtend w) := by
  have hlen : m.terminateRssi.rssiIovlen = m.iovlen := rfl
  have hiov := m.terminateRssi_rssiIov hn
  have hattempts (i : Nat) (d : Nat → BitVec w) :
      (m.terminateRssi.rssiIov i).attempts d = (m.rssiIov i).attempts d := by
    rw [hiov]
    split <;> rfl
  have hresult (i : Nat) (d : Nat → BitVec w) :
      (m.terminateRssi.rssiIov i).result d = (m.rssiIov i).result d := by
    rw [RssiIovec.result, RssiIovec.result, hattempts]
  rw [sendRssi, sendLoop_eq, hlen, ← List.range_eq_range', show (0 : BitVec 32) = 0#32 from rfl,
    BitVec.zero_add]
  simp only [hattempts, hresult]
  congr 1
  apply List.flatMap_congr
  intro i hi
  have hwrite : (m.terminateRssi.rssiIov i).write (m.terminateRssi.rssiIov i).iovFlags =
      (m.rssiIov i).write (sentFlags m.iovlen i) := by
    rw [hiov, sentFlags]
    by_cases hlast : i + 1 = m.iovlen
    · rw [if_pos hlast, if_pos hlast]
      rfl
    · rw [if_neg hlast, if_neg hlast, hflags i (List.mem_range.mp hi)]
  rw [hwrite]

end TxMessage

/-- The value is one of an `int32_t`. -/
def FitsInt32 (x : BitVec w) : Prop := (x.setWidth 32).signExtend w = x

/-- A `size_t` of 32 bits holds the sum. -/
theorem fitsInt32_of_eq (x : BitVec 32) : FitsInt32 x := by
  rw [FitsInt32, BitVec.setWidth_eq, BitVec.signExtend_eq]

/-- The iovecs that a list stops short of are not written. -/
theorem eq_of_prefix_flatMap {α β : Type*} {xs ys : List α} {f g : α → List β} (h : xs <+: ys)
    (hpos : ∀ y ∈ ys, 0 < (g y).length) (hlen : ∀ y ∈ ys, (f y).length = (g y).length)
    (heq : xs.flatMap f = ys.flatMap g) : xs = ys := by
  obtain ⟨zs, rfl⟩ := h
  have hsame : (xs.flatMap f).length = (xs.flatMap g).length := by
    rw [List.length_flatMap, List.length_flatMap]
    congr 1
    exact List.map_congr_left fun x hx => hlen x (List.mem_append_left _ hx)
  have hzs : (zs.flatMap g).length = 0 := by
    have hcount := congrArg List.length heq
    rw [List.flatMap_append, List.length_append, hsame] at hcount
    omega
  cases zs with
  | nil => exact (List.append_nil xs).symm
  | cons z zs =>
      have hz := hpos z (List.mem_append_right _ List.mem_cons_self)
      rw [List.flatMap_cons, List.length_append] at hzs
      omega

theorem signExtend_eq_iff (hw : 32 ≤ w) (x : BitVec 32) (y : BitVec w) :
    x.signExtend w = y ↔ FitsInt32 y ∧ x = y.setWidth 32 := by
  have hback : (x.signExtend w).setWidth 32 = x := by
    apply BitVec.eq_of_getLsbD_eq
    intro i hi
    rw [BitVec.getLsbD_setWidth, BitVec.getLsbD_signExtend]
    simp [hi, show i < w by omega]
  constructor
  · rintro rfl
    exact ⟨congrArg (BitVec.signExtend w) hback, hback.symm⟩
  · rintro ⟨hfits, rfl⟩
    exact hfits

/-- The sum of the low halves is the low half of the sum. -/
theorem setWidth_sum (hw : 32 ≤ w) {α : Type*} (xs : List α) (f : α → BitVec w) :
    (xs.map fun x => (f x).setWidth 32).sum = ((xs.map f).sum).setWidth 32 := by
  induction xs with
  | nil => simp
  | cons x xs ih =>
      rw [List.map_cons, List.map_cons, List.sum_cons, List.sum_cons, ih]
      exact (BitVec.setWidth_add (f x) _ hw).symm

namespace TxMessage

/-- When a message is delivered as one frame with the right result: it has more
than one iovec, and none fails but the last. Where a `size_t` has more bits than
the 32 of the sum, the sum also has to tell success from a failure of the last one. -/
structure Delivers (m : TxMessage w) (dma : Nat → Nat → BitVec w) : Prop where
  several : 2 ≤ m.iovlen
  only_last : ∀ i, i + 1 < m.iovlen → m.Done dma i
  fits : w ≠ 32 → (∀ i < m.iovlen, m.Done dma i) → FitsInt32 m.total
  told : w ≠ 32 → ¬ m.Done dma (m.iovlen - 1) → FitsInt32 m.total →
    ((m.rssiIov (m.iovlen - 1)).result (dma (m.iovlen - 1))).setWidth 32 ≠
      (m.rssiIov (m.iovlen - 1)).iovLen.setWidth 32

variable {m : TxMessage w} {dma : Nat → Nat → BitVec w}

/-- The writes are one frame exactly where there are several iovecs and none
fails but the last. -/
theorem frame_iff (hn : 1 ≤ m.iovlen)
    (hflags : ∀ i < m.iovlen, (m.rssiIov i).iovFlags = addFlags i) :
    (m.sendRssi dma).1 =
      (through (fun i => !decide (m.Done dma i)) (List.range m.iovlen)).flatMap (fun i =>
        List.replicate ((m.rssiIov i).attempts (dma i))
          ((m.rssiIov i).write (frameFlags m.iovlen i))) ↔
    2 ≤ m.iovlen ∧ ∀ i, i + 1 < m.iovlen → m.Done dma i := by
  have hstop : through (fun i => !decide (m.Done dma i)) (List.range m.iovlen) =
      List.range m.iovlen ↔ ∀ i, i + 1 < m.iovlen → m.Done dma i := by
    obtain ⟨k, hk⟩ : ∃ k, m.iovlen = k + 1 := ⟨m.iovlen - 1, by omega⟩
    rw [through_eq_self_iff, hk, List.range_succ, List.dropLast_concat]
    constructor
    · intro h i hi
      simpa using h i (List.mem_range.mpr (by omega))
    · intro h i hi
      rw [List.mem_range] at hi
      simpa using h i (by omega)
  rw [sendRssi_eq hn hflags]
  constructor
  · intro heq
    have hall := eq_of_prefix_flatMap (prefix_through _ _)
      (fun i _ => by rw [List.length_replicate]; exact RssiIovec.attempts_pos _ _)
      (fun i _ => by rw [List.length_replicate, List.length_replicate]) heq.symm
    refine ⟨?_, hstop.mp hall⟩
    by_contra hone
    have hlen : m.iovlen = 1 := by omega
    rw [hall, hlen] at heq
    -- the only iovec is sent with the flags of the last
    obtain ⟨k, hk⟩ := Nat.exists_eq_succ_of_ne_zero
      (Nat.ne_of_gt (RssiIovec.attempts_pos (m.rssiIov 0) (dma 0)))
    simp only [List.range_one, List.flatMap_singleton, hk, List.replicate_succ,
      List.cons.injEq] at heq
    have hflag : sentFlags 1 0 = frameFlags 1 0 := congrArg DmaWrite.flags heq.1
    exact absurd hflag (by decide)
  · rintro ⟨hseveral, hdone⟩
    rw [hstop.mpr hdone]
    apply List.flatMap_congr
    intro i hi
    rw [sentFlags_eq (List.mem_range.mp hi) hseveral]

/-- Where none fails but the last, the size is right exactly where the 32-bit sum
tells it. -/
theorem size_iff (hw : 32 ≤ w) (hn : 1 ≤ m.iovlen)
    (hflags : ∀ i < m.iovlen, (m.rssiIov i).iovFlags = addFlags i)
    (honly : ∀ i, i + 1 < m.iovlen → m.Done dma i) :
    ((m.sendRssi dma).2 = m.total ↔ ∀ i < m.iovlen, m.Done dma i) ↔
      ((∀ i < m.iovlen, m.Done dma i) → FitsInt32 m.total) ∧
        (¬ m.Done dma (m.iovlen - 1) → FitsInt32 m.total →
          ((m.rssiIov (m.iovlen - 1)).result (dma (m.iovlen - 1))).setWidth 32 ≠
            (m.rssiIov (m.iovlen - 1)).iovLen.setWidth 32) := by
  obtain ⟨k, hk⟩ : ∃ k, m.iovlen = k + 1 := ⟨m.iovlen - 1, by omega⟩
  have hbefore : ((List.range k).map fun i => (m.rssiIov i).result (dma i)) =
      (List.range k).map fun i => (m.rssiIov i).iovLen := by
    apply List.map_congr_left
    intro i hi
    rw [List.mem_range] at hi
    exact honly i (by omega)
  have htotal : m.total = ((List.range k).map fun i => (m.rssiIov i).iovLen).sum +
      (m.rssiIov k).iovLen := by
    rw [total, hk, List.range_succ, List.map_append, List.sum_append]
    simp
  have hall : (∀ i < m.iovlen, m.Done dma i) ↔ m.Done dma k := by
    constructor
    · exact fun h => h k (by omega)
    · intro h i hi
      rcases Nat.lt_or_ge i k with hlt | hge
      · exact honly i (by omega)
      · rwa [show i = k by omega]
  have hsum : (m.sendRssi dma).2 = m.total ↔ FitsInt32 m.total ∧
      ((m.rssiIov k).result (dma k)).setWidth 32 = (m.rssiIov k).iovLen.setWidth 32 := by
    have hlow : (((List.range k).map fun i => (m.rssiIov i).iovLen).sum +
        (m.rssiIov k).result (dma k)).setWidth 32 = m.total.setWidth 32 ↔
        ((m.rssiIov k).result (dma k)).setWidth 32 = (m.rssiIov k).iovLen.setWidth 32 := by
      rw [htotal, BitVec.setWidth_add _ _ hw, BitVec.setWidth_add _ _ hw]
      exact BitVec.add_right_inj _
    rw [sendRssi_eq hn hflags, signExtend_eq_iff hw, setWidth_sum hw, hk, List.range_succ,
      List.map_append, List.sum_append, hbefore, List.map_singleton, List.sum_singleton, hlow]
  have hpred : m.iovlen - 1 = k := by omega
  rw [hall, hsum, hpred]
  by_cases hdone : m.Done dma k
  · have hsame : ((m.rssiIov k).result (dma k)).setWidth 32 =
        (m.rssiIov k).iovLen.setWidth 32 := congrArg (BitVec.setWidth 32) hdone
    simp [hdone, hsame]
  · simp [hdone]

end TxMessage

/-- **RSSI transfer.** For any message of one iovec or more, built by calls that
give each iovec the flags of its place, and any results of the writes: it is one
frame, stopped at the first failure, with the right result exactly where it is
delivered. -/
theorem rssi_exact_iff (hw : 32 ≤ w) (m : TxMessage w) (calls : List (Call w))
    (dma : Nat → Nat → BitVec w)
    (hframed : FlagsInOrder calls) (hn : 1 ≤ (m.run calls).iovlen)
    (hadded : ∀ i < (m.run calls).iovlen, ∃ call ∈ calls, ∃ flags, call.added = some (i, flags)) :
    (m.run calls).Transferred dma ↔ (m.run calls).Delivers dma := by
  have hflags : ∀ i < (m.run calls).iovlen, ((m.run calls).rssiIov i).iovFlags = addFlags i :=
    fun i hi => TxMessage.run_flags hframed m (.inr (hadded i hi))
  constructor
  · rintro ⟨hframe, hsize⟩
    obtain ⟨hseveral, honly⟩ := (TxMessage.frame_iff hn hflags).mp hframe
    obtain ⟨hfits, htold⟩ := (TxMessage.size_iff hw hn hflags honly).mp hsize
    exact ⟨hseveral, honly, fun _ => hfits, fun _ => htold⟩
  · rintro ⟨hseveral, honly, hfits, htold⟩
    refine ⟨(TxMessage.frame_iff hn hflags).mpr ⟨hseveral, honly⟩,
      (TxMessage.size_iff hw hn hflags honly).mpr ⟨fun hall => ?_, fun hlast hfit => ?_⟩⟩
    · by_cases h32 : w = 32
      · subst h32
        exact fitsInt32_of_eq _
      · exact hfits h32 hall
    · by_cases h32 : w = 32
      · subst h32
        rw [BitVec.setWidth_eq, BitVec.setWidth_eq]
        exact hlast
      · exact htold h32 hlast hfit

/-- A message with nothing in it. -/
def TxMessage.empty : TxMessage w where
  iovlen := 0
  msgIov := fun _ => ⟨0, 0⟩
  rssiIovlen := 0
  rssiIov := fun _ => ⟨0, 0, 0, .Memory, 0, 0⟩
  tdest := 0

/-- A header of 40 bytes and a packet of 80, with the trailer after it. -/
def headerAndPacket : List (Call 32) :=
  [.addIndex 0 0 7 40 RssiIovec.First, .setIovlen 1, .addIndex 1 0 3 80 RssiIovec.Middle,
    .setIovlen 2, .increaseLast 8]

theorem rssi_exact_iff_headerAndPacket :
    FlagsInOrder headerAndPacket ∧
      (TxMessage.empty.run headerAndPacket).Transferred fun i _ => if i = 0 then 40 else 88 := by
  have hframed : FlagsInOrder headerAndPacket := by
    intro call hcall iovidx flags hadded
    simp only [headerAndPacket, List.mem_cons, List.not_mem_nil, or_false] at hcall
    rcases hcall with rfl | rfl | rfl | rfl | rfl <;>
      simp only [Call.added, Option.some.injEq, Prod.mk.injEq, reduceCtorEq] at hadded <;>
      obtain ⟨rfl, rfl⟩ := hadded <;> rfl
  have hadded : ∀ i < 2, ∃ call ∈ headerAndPacket, ∃ flags, call.added = some (i, flags) := by
    intro i hi
    match i, hi with
    | 0, _ => exact ⟨_, List.mem_cons_self, _, rfl⟩
    | 1, _ => exact ⟨.addIndex 1 0 3 80 RssiIovec.Middle, by simp [headerAndPacket], _, rfl⟩
  refine ⟨hframed, (rssi_exact_iff (Nat.le_refl 32) TxMessage.empty headerAndPacket _ hframed
    (by decide) hadded).mpr ⟨by decide, ?_, fun h => absurd rfl h, fun h => absurd rfl h⟩⟩
  intro i hi
  have hi' : i + 1 < 2 := hi
  obtain rfl : i = 0 := by omega
  decide

/-- The header alone is sent without the start of a frame, and a message of two
goes on after its first iovec failed. -/
theorem header_alone_unframed :
    (∃ calls : List (Call 32), FlagsInOrder calls ∧ (TxMessage.empty.run calls).iovlen = 1 ∧
      ¬ (TxMessage.empty.run calls).Transferred fun _ _ => 40) ∧
    ¬ (TxMessage.empty.run headerAndPacket).Transferred fun i _ => if i = 0 then -1 else 88 := by
  constructor
  · refine ⟨[.addIndex 0 0 7 40 RssiIovec.First, .setIovlen 1], ?_, rfl, ?_⟩
    · intro call hcall iovidx flags hadded
      simp only [List.mem_cons, List.not_mem_nil, or_false] at hcall
      rcases hcall with rfl | rfl <;>
        simp only [Call.added, Option.some.injEq, Prod.mk.injEq, reduceCtorEq] at hadded
      obtain ⟨rfl, rfl⟩ := hadded
      rfl
    · intro h
      exact absurd h.frame (by decide)
  · intro h
    exact absurd h.frame (by decide)

end ProtoDune.Daq
