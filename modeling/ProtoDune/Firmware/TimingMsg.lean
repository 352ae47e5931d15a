import Mathlib.Data.List.Infix
import ProtoDune.Firmware.AxiStream
import ProtoDune.Lib.Positions

/-!
# `ProtoDuneDpmTimingMsg`

Every sync command of the timing system is counted. It is forwarded to the FIFO
if the output register is free, or is emptied in the same cycle; otherwise it is
dropped, which `timingMsgDrop` says in the next cycle.

Main results:

* `comb_step` — what one clock cycle does with the output register.
* `timing_forwarding` — in every run the FIFO takes the messages of some of the
  commands, in order and unchanged, and what is missing between two of them can
  be told from the pulses and from the event counts.
-/

namespace ProtoDune.Firmware.ProtoDuneDpmTimingMsg

/-- `ProtoDuneDpmTimingType`, as far as the process reads it. -/
structure TimingBus where
  stat : BitVec 4
  rdy : Bool
  syncCmd : BitVec 4
  syncValid : Bool
  timestamp : BitVec 64

/-- The input ports in a clock cycle, and `txSlave.tReady` of the FIFO. -/
structure Ports where
  timingBus : TimingBus
  tReady : Bool

/-- The slices of `tData` the process writes, bits 63..0, 95..64, 99..96 and
103..100, and `tDest`. -/
structure Message where
  timestamp : BitVec 64
  eventCnt : BitVec 32
  syncCmd : BitVec 4
  stat : BitVec 4
  tDest : BitVec 8
deriving DecidableEq

/-- A word of the stream; `tUser` is the start of frame. -/
abbrev Beat := AxiWord Message Bool

structure RegType where
  eventCnt : BitVec 32
  timingMsgDrop : Bool
  timingRunEnable : Bool
  triggerDet : Bool
  txMaster : AxiStreamMaster Message Bool

/-- `REG_INIT_C`. -/
def REG_INIT_C : RegType where
  eventCnt := 0
  timingMsgDrop := false
  timingRunEnable := false
  triggerDet := false
  txMaster := { tData := ⟨0, 0, 0, 0, 0⟩, tLast := false, tUser := false, tValid := false }

/-- The op-codes of the timing system. -/
structure Scmd where
  RUN_START : BitVec 4
  RUN_STOP : BitVec 4

/-- The word that forwards a command. -/
def forward (timingBus : TimingBus) (eventCnt : BitVec 32) : Beat where
  tData :=
    { timestamp := timingBus.timestamp
      eventCnt
      syncCmd := timingBus.syncCmd
      stat := timingBus.stat
      tDest := 0xff }
  tLast := true
  tUser := true

/-- The process `comb`: the next value of the registers. -/
def comb (SCMD : Scmd) (cdrReset : Bool) (p : Ports) (r : RegType) : RegType :=
  let v := { r with
    timingMsgDrop := false
    triggerDet := false
    txMaster := if p.tReady then { r.txMaster with tValid := false } else r.txMaster }
  let v :=
    if p.timingBus.rdy ∧ p.timingBus.syncValid then
      let v :=
        if p.timingBus.syncCmd = SCMD.RUN_START then { v with timingRunEnable := true } else v
      let v :=
        if p.timingBus.syncCmd = SCMD.RUN_STOP then { v with timingRunEnable := false } else v
      let v := if p.timingBus.syncCmd.getLsbD 3 then { v with triggerDet := true } else v
      let v :=
        if v.txMaster.tValid = false then
          { v with txMaster := ⟨forward p.timingBus r.eventCnt, true⟩ }
        else { v with timingMsgDrop := true }
      { v with eventCnt := r.eventCnt + 1 }
    else v
  if cdrReset then REG_INIT_C else v

/-! ## A clock cycle -/

/-- A sync command on the bus. -/
def Ports.isSync (p : Ports) : Bool := p.timingBus.rdy && p.timingBus.syncValid

/-- The FIFO takes the word in the output register. -/
def RegType.accepts (r : RegType) (p : Ports) : Bool := r.txMaster.tValid && p.tReady

/-- The word in the output register that waits to be taken. -/
def RegType.pending (r : RegType) : List Beat :=
  if r.txMaster.tValid then [r.txMaster.toAxiWord] else []

/-- The word the FIFO takes in a cycle. -/
def RegType.taken (r : RegType) (p : Ports) : List Beat :=
  if r.accepts p then [r.txMaster.toAxiWord] else []

/-- The output register can be written in this cycle. -/
def RegType.free (r : RegType) (p : Ports) : Bool := p.tReady || !r.txMaster.tValid

section

variable (SCMD : Scmd) (p : Ports) (r : RegType)

theorem comb_idle (h : p.isSync = false) :
    comb SCMD false p r = { r with
      timingMsgDrop := false
      triggerDet := false
      txMaster := { r.txMaster with tValid := r.txMaster.tValid && !p.tReady } } := by
  have hno : ¬ (p.timingBus.rdy = true ∧ p.timingBus.syncValid = true) := by
    simpa [Ports.isSync] using h
  unfold comb
  dsimp only
  rw [if_neg Bool.false_ne_true, if_neg hno]
  cases p.tReady <;> simp

theorem comb_sync (h : p.isSync = true) :
    (comb SCMD false p r).eventCnt = r.eventCnt + 1 ∧
      (comb SCMD false p r).timingMsgDrop = !r.free p ∧
      (comb SCMD false p r).txMaster =
        if r.free p then ⟨forward p.timingBus r.eventCnt, true⟩ else r.txMaster := by
  have hyes : p.timingBus.rdy = true ∧ p.timingBus.syncValid = true := by
    simpa [Ports.isSync] using h
  unfold comb RegType.free
  dsimp only
  rw [if_neg Bool.false_ne_true, if_pos hyes]
  -- the flags of the op-code leave the output register alone
  simp only [apply_ite RegType.txMaster, apply_ite RegType.timingMsgDrop, ite_self]
  cases hready : p.tReady <;> cases hvalid : r.txMaster.tValid <;> simp [hvalid]

/-- **One clock cycle**: nothing enters the output register and there is no
pulse, or a command enters it, or a command is dropped with a pulse. -/
theorem comb_step :
    (p.isSync = false ∧ (comb SCMD false p r).eventCnt = r.eventCnt ∧
        (comb SCMD false p r).timingMsgDrop = false ∧
        r.pending = r.taken p ++ (comb SCMD false p r).pending) ∨
      (p.isSync = true ∧ (comb SCMD false p r).eventCnt = r.eventCnt + 1 ∧
        (comb SCMD false p r).timingMsgDrop = false ∧
        r.pending ++ [forward p.timingBus r.eventCnt] =
          r.taken p ++ (comb SCMD false p r).pending) ∨
      (p.isSync = true ∧ (comb SCMD false p r).eventCnt = r.eventCnt + 1 ∧
        (comb SCMD false p r).timingMsgDrop = true ∧
        r.pending = r.taken p ++ (comb SCMD false p r).pending) := by
  unfold RegType.pending RegType.taken RegType.accepts
  cases hsync : p.isSync with
  | false =>
    left
    rw [comb_idle SCMD p r hsync]
    refine ⟨rfl, rfl, rfl, ?_⟩
    cases p.tReady <;> cases r.txMaster.tValid <;> rfl
  | true =>
    right
    obtain ⟨hcnt, hdrop, htx⟩ := comb_sync SCMD p r hsync
    rw [hcnt, hdrop, htx]
    cases hfree : r.free p with
    | true =>
      -- a word that is still in the register is taken in this cycle
      left
      refine ⟨rfl, rfl, rfl, ?_⟩
      unfold RegType.free at hfree
      cases hvalid : r.txMaster.tValid <;> cases hready : p.tReady
      · simp
      · simp
      · rw [hvalid, hready] at hfree
        cases hfree
      · simp
    | false =>
      right
      refine ⟨rfl, rfl, rfl, ?_⟩
      obtain ⟨hready, -⟩ := Bool.or_eq_false_iff.mp hfree
      rw [hready, Bool.and_false]
      rfl

/-- A word that is not taken stays in the register. -/
theorem comb_held (hvalid : r.txMaster.tValid = true) (hready : p.tReady = false) :
    (comb SCMD false p r).txMaster = r.txMaster := by
  cases hsync : p.isSync with
  | false =>
    rw [comb_idle SCMD p r hsync]
    dsimp only
    rw [hready, Bool.not_false, Bool.and_true]
  | true =>
    obtain ⟨-, -, htx⟩ := comb_sync SCMD p r hsync
    rw [htx, if_neg]
    unfold RegType.free
    rw [hvalid, hready]
    exact Bool.false_ne_true

end

/-! ## Runs -/

/-- The registers after the cycles `ps`. -/
def run (SCMD : Scmd) (r : RegType) (ps : List Ports) : RegType :=
  ps.foldl (fun r p => comb SCMD false p r) r

/-- The words the FIFO takes. -/
def accepted (SCMD : Scmd) (r : RegType) : List Ports → List Beat
  | [] => []
  | p :: ps => r.taken p ++ accepted SCMD (comb SCMD false p r) ps

/-- The sync commands on the bus. -/
def syncCommands (ps : List Ports) : List TimingBus :=
  (ps.filter Ports.isSync).map Ports.timingBus

/-- The words that would forward the sync commands, the first of them being the
`n`-th since the reset. -/
def messages (n : Nat) (ps : List Ports) : List Beat :=
  ((syncCommands ps).zipIdx n).map fun c => forward c.1 (BitVec.ofNat 32 c.2)

/-- `timingMsgDrop` in the cycle after each sync command. -/
def drops (SCMD : Scmd) (r : RegType) : List Ports → List Bool
  | [] => []
  | p :: ps =>
      let r' := comb SCMD false p r
      if p.isSync then r'.timingMsgDrop :: drops SCMD r' ps else drops SCMD r' ps

/-- `timingMsgDrop` in every cycle but the first. -/
def pulses (SCMD : Scmd) (r : RegType) : List Ports → List Bool
  | [] => []
  | p :: ps => (comb SCMD false p r).timingMsgDrop :: pulses SCMD (comb SCMD false p r) ps

variable {SCMD : Scmd} {p : Ports} {ps : List Ports} {r : RegType} {n : Nat}

theorem messages_idle (h : p.isSync = false) : messages n (p :: ps) = messages n ps := by
  unfold messages syncCommands
  rw [List.filter_cons_of_neg (by rw [h]; exact Bool.false_ne_true)]

theorem messages_sync (h : p.isSync = true) :
    messages n (p :: ps) = forward p.timingBus (BitVec.ofNat 32 n) :: messages (n + 1) ps := by
  unfold messages syncCommands
  rw [List.filter_cons_of_pos h]
  rfl

theorem drops_idle (h : p.isSync = false) :
    drops SCMD r (p :: ps) = drops SCMD (comb SCMD false p r) ps := by
  rw [drops, h]
  rfl

theorem drops_sync (h : p.isSync = true) :
    drops SCMD r (p :: ps) =
      (comb SCMD false p r).timingMsgDrop :: drops SCMD (comb SCMD false p r) ps := by
  rw [drops, h]
  rfl

theorem length_drops : (messages n ps).length = (drops SCMD r ps).length := by
  induction ps generalizing n r with
  | nil => rfl
  | cons p ps ih =>
    cases h : p.isSync with
    | false => rw [messages_idle h, drops_idle h, ih]
    | true => rw [messages_sync h, drops_sync h, List.length_cons, List.length_cons, ih]

/-- The words of the commands that are not dropped. -/
def forwarded (SCMD : Scmd) (r : RegType) (n : Nat) (ps : List Ports) : List Beat :=
  (((messages n ps).zip (drops SCMD r ps)).filter fun a => !a.2).map Prod.fst

theorem forwarded_idle (h : p.isSync = false) :
    forwarded SCMD r n (p :: ps) = forwarded SCMD (comb SCMD false p r) n ps := by
  unfold forwarded
  rw [messages_idle h, drops_idle h]

theorem forwarded_sent (h : p.isSync = true)
    (hdrop : (comb SCMD false p r).timingMsgDrop = false) :
    forwarded SCMD r n (p :: ps) = forward p.timingBus (BitVec.ofNat 32 n) ::
      forwarded SCMD (comb SCMD false p r) (n + 1) ps := by
  unfold forwarded
  rw [messages_sync h, drops_sync h, hdrop]
  rfl

theorem forwarded_dropped (h : p.isSync = true)
    (hdrop : (comb SCMD false p r).timingMsgDrop = true) :
    forwarded SCMD r n (p :: ps) = forwarded SCMD (comb SCMD false p r) (n + 1) ps := by
  unfold forwarded
  rw [messages_sync h, drops_sync h, hdrop]
  rfl

/-- **What is forwarded is accepted in order**, but for the word that waits. -/
theorem forwarded_eq (h : r.eventCnt = BitVec.ofNat 32 n) :
    r.pending ++ forwarded SCMD r n ps = accepted SCMD r ps ++ (run SCMD r ps).pending := by
  induction ps generalizing r n with
  | nil => exact List.append_nil _
  | cons p ps ih =>
    show _ = (r.taken p ++ accepted SCMD (comb SCMD false p r) ps) ++
      (run SCMD (comb SCMD false p r) ps).pending
    have hnext : r.eventCnt + 1 = BitVec.ofNat 32 (n + 1) := by
      rw [h]
      exact (BitVec.ofNat_add n 1).symm
    rcases comb_step SCMD p r with ⟨hsync, hcnt, -, hpend⟩ | ⟨hsync, hcnt, hdrop, hpend⟩ |
      ⟨hsync, hcnt, hdrop, hpend⟩
    · rw [forwarded_idle hsync, hpend, List.append_assoc, List.append_assoc, ih (hcnt.trans h)]
    · rw [forwarded_sent hsync hdrop, List.append_cons, ← h, hpend, List.append_assoc,
        List.append_assoc, ih (hcnt.trans hnext)]
    · rw [forwarded_dropped hsync hdrop, hpend, List.append_assoc, List.append_assoc,
        ih (hcnt.trans hnext)]

/-- Every pulse belongs to a command. -/
theorem count_pulses : (pulses SCMD r ps).count true = (drops SCMD r ps).count true := by
  induction ps generalizing r with
  | nil => rfl
  | cons p ps ih =>
    rcases comb_step SCMD p r with ⟨hsync, -, hdrop, -⟩ | ⟨hsync, -⟩ | ⟨hsync, -⟩
    · rw [drops_idle hsync, pulses, hdrop, List.count_cons_of_ne Bool.false_ne_true, ih]
    · rw [drops_sync hsync, pulses, List.count_cons, List.count_cons, ih]
    · rw [drops_sync hsync, pulses, List.count_cons, List.count_cons, ih]

/-- A word that is not taken stays in the register however long it takes. -/
theorem run_held (hvalid : r.txMaster.tValid = true) (hready : ∀ p ∈ ps, p.tReady = false) :
    (run SCMD r ps).txMaster = r.txMaster := by
  induction ps generalizing r with
  | nil => rfl
  | cons p ps ih =>
    obtain ⟨hp, hps⟩ := List.forall_mem_cons.mp hready
    have hheld := comb_held SCMD p r hvalid hp
    show (run SCMD (comb SCMD false p r) ps).txMaster = r.txMaster
    rw [ih (by rw [hheld]; exact hvalid) hps, hheld]

/-! ## The messages the FIFO takes -/

/-- The FIFO takes the messages of the commands `sent` of the run `ps`, counted
from the reset on. -/
structure Forwards (SCMD : Scmd) (ps : List Ports) (sent : List Nat) : Prop where
  inOrder : sent.Pairwise (· < ·)
  /-- each carries the timestamp, the op-code and the count of its command -/
  own : (accepted SCMD REG_INIT_C ps).map some = sent.map fun k => (messages 0 ps)[k]?
  /-- a word that is not taken yet stays as it is -/
  held : ∀ qs rs, ps = qs ++ rs → (run SCMD REG_INIT_C qs).txMaster.tValid = true →
    (∀ p ∈ rs, p.tReady = false) →
    (run SCMD REG_INIT_C ps).txMaster = (run SCMD REG_INIT_C qs).txMaster
  /-- the commands between two messages are missing, one pulse each -/
  missing : ∀ (j : Nat) (k k' : Nat), sent[j]? = some k → sent[j + 1]? = some k' →
    (((drops SCMD REG_INIT_C ps).take k').drop (k + 1)).count true = k' - k - 1
  /-- and the counts of the messages tell how many -/
  counts : ∀ (j : Nat) (k k' : Nat) (m m' : Beat), sent[j]? = some k → sent[j + 1]? = some k' →
    (accepted SCMD REG_INIT_C ps)[j]? = some m → (accepted SCMD REG_INIT_C ps)[j + 1]? = some m' →
    m'.tData.eventCnt - m.tData.eventCnt - 1 = BitVec.ofNat 32 (k' - k - 1)
  /-- no pulse belongs to nothing -/
  attributed : (pulses SCMD REG_INIT_C ps).count true = (drops SCMD REG_INIT_C ps).count true

/-- The commands that are not dropped. -/
def keptCommands (SCMD : Scmd) (ps : List Ports) : List Nat :=
  (drops SCMD REG_INIT_C ps).findIdxs Bool.not

/-- The commands whose messages were accepted; the last that is kept may wait. -/
def sentCommands (SCMD : Scmd) (ps : List Ports) : List Nat :=
  (keptCommands SCMD ps).take (accepted SCMD REG_INIT_C ps).length

theorem map_forwarded :
    (forwarded SCMD REG_INIT_C 0 ps).map some =
      (keptCommands SCMD ps).map fun k => (messages 0 ps)[k]? := by
  unfold forwarded keptCommands
  rw [List.map_map]
  exact (Positions.map_getElem?_findIdxs _ _ 0 length_drops).symm

theorem map_accepted (SCMD : Scmd) (ps : List Ports) :
    (accepted SCMD REG_INIT_C ps).map some =
      (sentCommands SCMD ps).map fun k => (messages 0 ps)[k]? := by
  have hfwd : forwarded SCMD REG_INIT_C 0 ps =
      accepted SCMD REG_INIT_C ps ++ (run SCMD REG_INIT_C ps).pending :=
    forwarded_eq (r := REG_INIT_C) (n := 0) rfl
  unfold sentCommands
  rw [List.map_take, ← map_forwarded, hfwd, ← List.map_take, List.take_left]

/-- A command that is accepted, and the message that is accepted for it. -/
theorem getElem?_accepted {j k : Nat} {m : Beat} (hk : (sentCommands SCMD ps)[j]? = some k)
    (hm : (accepted SCMD REG_INIT_C ps)[j]? = some m) : (messages 0 ps)[k]? = some m := by
  have hat := congrArg (·[j]?) (map_accepted SCMD ps)
  rw [List.getElem?_map, List.getElem?_map, hk, hm] at hat
  exact (Option.some.inj hat).symm

/-- The message of a command carries what was on the bus, and its number. -/
theorem getElem?_messages {k : Nat} {m : Beat} (h : (messages 0 ps)[k]? = some m) :
    ∃ timingBus, (syncCommands ps)[k]? = some timingBus ∧
      m = forward timingBus (BitVec.ofNat 32 k) := by
  unfold messages at h
  rw [List.getElem?_map, List.getElem?_zipIdx, Option.map_map] at h
  obtain ⟨timingBus, hbus, rfl⟩ := Option.map_eq_some_iff.mp h
  refine ⟨timingBus, hbus, ?_⟩
  show forward timingBus (BitVec.ofNat 32 (0 + k)) = _
  rw [Nat.zero_add]

theorem messages_eventCnt {k : Nat} {m : Beat} (h : (messages 0 ps)[k]? = some m) :
    m.tData.eventCnt = BitVec.ofNat 32 k := by
  obtain ⟨timingBus, -, rfl⟩ := getElem?_messages h
  rfl

theorem ofNat_sub_sub_one {k k' : Nat} (h : k < k') :
    BitVec.ofNat 32 k' - BitVec.ofNat 32 k - 1 = BitVec.ofNat 32 (k' - k - 1) := by
  obtain ⟨d, rfl⟩ := Nat.exists_eq_add_of_lt h
  rw [show k + d + 1 - k - 1 = d by omega, show k + d + 1 = k + (d + 1) by omega,
    BitVec.ofNat_add, BitVec.add_comm, BitVec.add_sub_cancel, BitVec.ofNat_add]
  exact BitVec.add_sub_cancel _ _

/-- The commands that are sent follow each other as they are kept. -/
theorem getElem?_sentCommands {j k : Nat} (h : (sentCommands SCMD ps)[j]? = some k) :
    (keptCommands SCMD ps)[j]? = some k := by
  unfold sentCommands at h
  rw [List.getElem?_take] at h
  split at h
  · exact h
  · cases h

theorem sentCommands_sorted : (sentCommands SCMD ps).Pairwise (· < ·) :=
  List.pairwise_findIdxs.sublist (List.take_sublist _ _)

theorem sentCommands_lt {j k k' : Nat} (hk : (sentCommands SCMD ps)[j]? = some k)
    (hk' : (sentCommands SCMD ps)[j + 1]? = some k') : k < k' := by
  obtain ⟨hj, rfl⟩ := List.getElem?_eq_some_iff.mp hk
  obtain ⟨hj', rfl⟩ := List.getElem?_eq_some_iff.mp hk'
  exact List.pairwise_iff_getElem.mp sentCommands_sorted j (j + 1) hj hj' (Nat.lt_succ_self j)

theorem sentCommands_missing {j k k' : Nat} (hk : (sentCommands SCMD ps)[j]? = some k)
    (hk' : (sentCommands SCMD ps)[j + 1]? = some k') :
    (((drops SCMD REG_INIT_C ps).take k').drop (k + 1)).count true = k' - k - 1 := by
  have hkept := getElem?_sentCommands hk
  have hkept' := getElem?_sentCommands hk'
  have hmem : k' ∈ keptCommands SCMD ps := List.mem_of_getElem? hkept'
  obtain ⟨hlt, -⟩ := List.mem_findIdxs_iff_exists_getElem_pos.mp hmem
  have hall : ∀ b ∈ ((drops SCMD REG_INIT_C ps).take k').drop (k + 1), true = b := by
    intro b hb
    obtain ⟨i, hi⟩ := List.getElem?_of_mem hb
    rw [List.getElem?_drop, List.getElem?_take] at hi
    split at hi
    · rename_i hend
      have hfalse : Bool.not b = false :=
        Positions.eq_false_between hkept hkept' (by omega) hend hi
      rw [← Bool.not_not b, hfalse]
      rfl
    · cases hi
  rw [List.count_eq_length.mpr hall, List.length_drop, List.length_take]
  omega

/-- **Timing message forwarding.** In every run since the reset the FIFO takes
the messages of some of the sync commands, in order and unchanged, and the
commands missing between two of them are counted by the pulses and by the
difference of the event counts. -/
theorem timing_forwarding (SCMD : Scmd) (ps : List Ports) :
    ∃ sent, Forwards SCMD ps sent := by
  refine ⟨sentCommands SCMD ps, sentCommands_sorted, map_accepted SCMD ps, ?_, ?_, ?_, count_pulses⟩
  · rintro qs rs rfl hvalid hready
    have happend : run SCMD REG_INIT_C (qs ++ rs) = run SCMD (run SCMD REG_INIT_C qs) rs :=
      List.foldl_append
    rw [happend]
    exact run_held hvalid hready
  · intro j k k' hk hk'
    exact sentCommands_missing hk hk'
  · intro j k k' m m' hk hk' hm hm'
    rw [messages_eventCnt (getElem?_accepted hk hm), messages_eventCnt (getElem?_accepted hk' hm')]
    exact ofNat_sub_sub_one (sentCommands_lt hk hk')

end ProtoDune.Firmware.ProtoDuneDpmTimingMsg
