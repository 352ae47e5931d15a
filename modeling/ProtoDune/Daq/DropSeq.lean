import Mathlib.Data.Int.ModEq
import ProtoDune.Daq.RxRun
import ProtoDune.Firmware.TimingMsg
import ProtoDune.Lib.Gaps

/-!
# `DaqBuffer::txRun`: the count of dropped sequence numbers

The firmware numbers all sync commands, the receive loop starts an event for
those that are triggers, and the transmit loop adds up the differences of the
numbers of the events it has sent.

Main results:

* `started_sequence` — an event carries the number of its command, modulo 2^32.
* `dropSeqCnt_eq` — what the transmit loop has counted after any events.
* `dropSeqCnt_exact_iff` — when that is the number of triggers without an event.
-/

namespace ProtoDune.Daq

open Firmware.ProtoDuneDpmTimingMsg Gaps

/-- `TimingMsg`, as it lies in the 128 bits of the message. -/
def TimingMsg.ofBeat (b : Beat) : TimingMsg where
  dest := b.tData.tDest.toNat
  timestamp := b.tData.timestamp.toNat
  sequence := b.tData.eventCnt.toNat
  tsw := 0#24 ++ b.tData.stat ++ b.tData.syncCmd

/-- What the transmit loop counts, 32 bits wide. -/
structure TxCounters where
  txSeqId : Nat
  txSize : Nat
  txCount : Nat
  txTotal : Nat
  txErrors : Nat
  dropSeqCnt : Nat

/-- `resetCounters`. -/
def TxCounters.reset : TxCounters := ⟨0, 0, 0, 0, 0, 0⟩

/-- An event in the transmit loop: the sequence number of its trigger, the size
of its message and what sending it returned. -/
structure Attempt where
  sequence : Nat
  blowOffTxEth : Bool
  txSize : Nat
  ret : Nat

/-- The event was sent. -/
def Attempt.sent (a : Attempt) : Bool := !a.blowOffTxEth && a.ret == a.txSize

/-- The statistics of `txRun`. A `size_t` is taken as 64 bits wide: with the 32 of the RCE
the difference is the same modulo 2^32, and so is the count. -/
def TxCounters.record (c : TxCounters) (a : Attempt) : TxCounters :=
  if a.blowOffTxEth then c
  else if a.ret = a.txSize then
    let currSeqId := a.sequence
    let deltaSeqId := (currSeqId + 2 ^ 64 - c.txSeqId) % 2 ^ 64
    { c with
      dropSeqCnt :=
        if c.txCount > 0 ∧ deltaSeqId > 1 then (c.dropSeqCnt + (deltaSeqId - 1)) % 2 ^ 32
        else c.dropSeqCnt
      txSeqId := currSeqId
      txCount := inc32 c.txCount
      txSize := a.txSize % 2 ^ 32
      txTotal := (c.txTotal + a.txSize) % 2 ^ 32 }
  else { c with txErrors := inc32 c.txErrors }

/-! ## The events of a run -/

/-- The op-codes of triggers are `[0x8:0xF]`. -/
def isTriggerCommand (bus : TimingBus) : Bool := bus.syncCmd.getLsbD 3

/-- The `k`-th sync command is a trigger. -/
def TriggerAt (ps : List Ports) (k : Nat) : Prop :=
  ((syncCommands ps)[k]?.any isTriggerCommand) = true

instance (ps : List Ports) : DecidablePred (TriggerAt ps) := fun k =>
  inferInstanceAs (Decidable (((syncCommands ps)[k]?.any isTriggerCommand) = true))

/-- The messages that start an event, with the numbers of their commands. The
receive loop reads the messages the FIFO took, each in a state of its own. -/
def started (SCMD : Scmd) (ps : List Ports) (states : List RxState) : List (Nat × TimingMsg) :=
  ((sentCommands SCMD ps).zip ((accepted SCMD REG_INIT_C ps).zip states)).filterMap fun a =>
    (a.2.2.readTimingMsg (.ofBeat a.2.1)).2.map fun tmsg => (a.1, tmsg)

/-- The commands whose events were sent. -/
def sentEvents (attempts : List (Nat × Attempt)) : List Nat :=
  (attempts.filter fun a => a.2.sent).map Prod.fst

/-- The triggers between the first and the last event sent for which no event
was sent. -/
def unsentTriggers (ps : List Ports) (sent : List Nat) : Finset Nat :=
  inside (TriggerAt ps) (syncCommands ps).length sent

/-- The counters after the events `attempts`. -/
def txRun (c : TxCounters) (attempts : List (Nat × Attempt)) : TxCounters :=
  attempts.foldl (fun c a => c.record a.2) c

/-- The transmit loop looks at the gap after the `i`-th event sent, unless
`_txCount` or the difference of the sequence numbers has come round to 0. -/
def Counted (i k k' : Nat) : Prop := i % 2 ^ 32 ≠ 0 ∧ (k' - k) % 2 ^ 32 ≠ 0

instance (i k k' : Nat) : Decidable (Counted i k k') := inferInstanceAs (Decidable (_ ∧ _))

/-- The other commands in the gaps that are looked at, less the triggers in
those that are not. -/
def miscounted (ps : List Ports) : List Nat → Int
  | [] => 0
  | k :: ks => gapSum (fun i k k' =>
      if Counted i k k' then (gapCount (fun x => ¬ TriggerAt ps x) k k' : Int)
      else -(gapCount (TriggerAt ps) k k' : Int)) 1 k ks

section

variable {SCMD : Scmd} {ps : List Ports} {states : List RxState}

/-- Only a trigger starts an event, and the message is kept as it is. -/
theorem readTimingMsg_eq_some {s : RxState} {tmsg tmsg' : TimingMsg}
    (h : (s.readTimingMsg tmsg).2 = some tmsg') : tmsg' = tmsg ∧ tmsg.isTrigger = true := by
  unfold RxState.readTimingMsg at h
  dsimp only at h
  split at h
  · split at h
    · rename_i htrig
      split at h
      · exact ⟨(Option.some.inj h).symm, htrig⟩
      · cases h
    · cases h
  · cases h

/-- A message the software takes for a trigger has the op-code of one. -/
theorem syncCmd_of_isTrigger {b : Beat} (h : (TimingMsg.ofBeat b).isTrigger = true) :
    b.tData.syncCmd.getLsbD 3 = true := by
  have hword : (0#24 ++ b.tData.stat ++ b.tData.syncCmd) &&& 0xf8 = 0x88#32 := of_decide_eq_true h
  have hbit : ((0#24 ++ b.tData.stat ++ b.tData.syncCmd) &&& 0xf8).getLsbD 3 = true := by
    rw [hword]
    rfl
  rw [BitVec.getLsbD_and, BitVec.getLsbD_append] at hbit
  simpa using hbit

/-- **The event of a command**: it carries the number of the command, and the
command is a trigger. -/
theorem started_sequence {k : Nat} {tmsg : TimingMsg} (h : (k, tmsg) ∈ started SCMD ps states) :
    tmsg.sequence = k % 2 ^ 32 ∧ TriggerAt ps k := by
  obtain ⟨⟨k, b, s⟩, hmem, hmap⟩ := List.mem_filterMap.mp h
  obtain ⟨tmsg', hread, heq⟩ := Option.map_eq_some_iff.mp hmap
  dsimp only at hread heq
  obtain ⟨rfl, rfl⟩ := Prod.mk.inj heq
  obtain ⟨rfl, htrig⟩ := readTimingMsg_eq_some hread
  -- the message is that of the command with its number
  obtain ⟨j, hj⟩ := List.getElem?_of_mem hmem
  obtain ⟨hk, hrest⟩ := List.getElem?_zip_eq_some.mp hj
  obtain ⟨hb, -⟩ := List.getElem?_zip_eq_some.mp hrest
  dsimp only at hk hb
  have hmsg := getElem?_accepted hk hb
  refine ⟨?_, ?_⟩
  · show b.tData.eventCnt.toNat = _
    rw [messages_eventCnt hmsg, BitVec.toNat_ofNat]
  · obtain ⟨timingBus, hbus, rfl⟩ := getElem?_messages hmsg
    unfold TriggerAt
    rw [hbus]
    exact syncCmd_of_isTrigger htrig

/-- The numbers of a list beside another are those of a part of it. -/
theorem sublist_filterMap_zip {α β γ : Type*} (xs : List α) (ys : List β) (f : α × β → Option γ) :
    (((xs.zip ys).filterMap fun a => (f a).map fun c => (a.1, c)).map Prod.fst).Sublist xs := by
  induction xs generalizing ys with
  | nil => exact List.Sublist.slnil
  | cons x xs ih =>
    cases ys with
    | nil => exact List.nil_sublist _
    | cons y ys =>
      rw [List.zip_cons_cons, List.filterMap_cons]
      cases hf : f (x, y) with
      | none => exact (ih ys).cons x
      | some c => exact (ih ys).cons_cons x

/-- The events are started in the order of the commands. -/
theorem started_sorted : ((started SCMD ps states).map Prod.fst).Pairwise (· < ·) := by
  have hsub : ((started SCMD ps states).map Prod.fst).Sublist (sentCommands SCMD ps) :=
    sublist_filterMap_zip _ _ fun a : Nat × Beat × RxState =>
      (a.2.2.readTimingMsg (.ofBeat a.2.1)).2
  exact List.Pairwise.sublist hsub sentCommands_sorted

end

/-! ## What is counted -/

/-- The gap as the transmit loop counts it. -/
def countedGap (i k k' : Nat) : Nat := if Counted i k k' then k' - k - 1 else 0

/-- The gaps of the events sent, as they are counted. -/
def countedGaps : List Nat → Nat
  | [] => 0
  | k :: ks => gapSum countedGap 1 k ks

/-- An event that was not sent leaves the sequence statistics alone. -/
theorem record_unsent {c : TxCounters} {a : Attempt} (h : a.sent = false) :
    (c.record a).txSeqId = c.txSeqId ∧ (c.record a).txCount = c.txCount ∧
      (c.record a).dropSeqCnt = c.dropSeqCnt := by
  unfold TxCounters.record
  split
  · exact ⟨rfl, rfl, rfl⟩
  · rename_i hblow
    have hret : a.ret ≠ a.txSize := by
      intro hret
      simp [Attempt.sent, hblow, hret] at h
    rw [if_neg hret]
    exact ⟨rfl, rfl, rfl⟩

/-- **One event sent**: the number after `k` is `k'`. -/
theorem record_sent {c : TxCounters} {a : Attempt} {i k k' : Nat} (h : a.sent = true)
    (hseq : a.sequence = k' % 2 ^ 32) (hlt : k < k') (hcount : c.txCount = i % 2 ^ 32)
    (hprev : c.txSeqId = k % 2 ^ 32) (hdrop : c.dropSeqCnt < 2 ^ 32) :
    (c.record a).txCount = (i + 1) % 2 ^ 32 ∧ (c.record a).txSeqId = k' % 2 ^ 32 ∧
      (c.record a).dropSeqCnt = (c.dropSeqCnt + countedGap i k k') % 2 ^ 32 := by
  obtain ⟨hblow, hret⟩ : a.blowOffTxEth = false ∧ a.ret = a.txSize := by
    simpa [Attempt.sent] using h
  unfold TxCounters.record
  rw [if_neg (by rw [hblow]; exact Bool.false_ne_true), if_pos hret]
  refine ⟨?_, hseq, ?_⟩
  · show (c.txCount + 1) % 2 ^ 32 = _
    rw [hcount]
    omega
  · dsimp only
    rw [hcount, hprev, hseq]
    unfold countedGap
    by_cases hc : Counted i k k'
    · rw [if_pos hc]
      obtain ⟨hi, hk⟩ := hc
      split <;> omega
    · -- the counter or the difference has come round to 0
      rw [if_neg hc, if_neg, Nat.add_zero, Nat.mod_eq_of_lt hdrop]
      rintro ⟨hpos, hdelta⟩
      apply hc
      unfold Counted
      omega

theorem dropSeqCnt_lt {c : TxCounters} {a : Attempt} (h : c.dropSeqCnt < 2 ^ 32) :
    (c.record a).dropSeqCnt < 2 ^ 32 := by
  unfold TxCounters.record
  split
  · exact h
  · split
    · dsimp only
      split <;> omega
    · exact h

theorem sentEvents_cons_unsent {a : Nat × Attempt} {attempts : List (Nat × Attempt)}
    (h : a.2.sent = false) : sentEvents (a :: attempts) = sentEvents attempts := by
  unfold sentEvents
  rw [List.filter_cons_of_neg (by rw [h]; exact Bool.false_ne_true)]

theorem sentEvents_cons_sent {a : Nat × Attempt} {attempts : List (Nat × Attempt)}
    (h : a.2.sent = true) : sentEvents (a :: attempts) = a.1 :: sentEvents attempts := by
  unfold sentEvents
  rw [List.filter_cons_of_pos (by exact h), List.map_cons]

/-- The loop after the first event was sent. -/
theorem txRun_dropSeqCnt {c : TxCounters} {i k : Nat} {attempts : List (Nat × Attempt)}
    (hseq : ∀ a ∈ attempts, a.2.sequence = a.1 % 2 ^ 32)
    (hsorted : (k :: sentEvents attempts).Pairwise (· < ·)) (hcount : c.txCount = i % 2 ^ 32)
    (hprev : c.txSeqId = k % 2 ^ 32) (hdrop : c.dropSeqCnt < 2 ^ 32) :
    (txRun c attempts).dropSeqCnt =
      (c.dropSeqCnt + gapSum countedGap i k (sentEvents attempts)) % 2 ^ 32 := by
  induction attempts generalizing c i k with
  | nil =>
    show c.dropSeqCnt = (c.dropSeqCnt + 0) % 2 ^ 32
    omega
  | cons a attempts ih =>
    obtain ⟨ha, hrest⟩ := List.forall_mem_cons.mp hseq
    show (txRun (c.record a.2) attempts).dropSeqCnt = _
    cases hsent : a.2.sent with
    | false =>
      rw [sentEvents_cons_unsent hsent] at hsorted ⊢
      obtain ⟨hid, hcnt, hcur⟩ := record_unsent (c := c) hsent
      rw [ih hrest hsorted (hcnt.trans hcount) (hid.trans hprev) (dropSeqCnt_lt hdrop), hcur]
    | true =>
      rw [sentEvents_cons_sent hsent] at hsorted ⊢
      obtain ⟨hfirst, hsorted'⟩ := List.pairwise_cons.mp hsorted
      obtain ⟨hcnt, hid, hcur⟩ :=
        record_sent hsent ha (hfirst a.1 List.mem_cons_self) hcount hprev hdrop
      rw [ih hrest hsorted' hcnt hid (dropSeqCnt_lt hdrop), hcur, gapSum]
      omega

/-- **What the transmit loop has counted**, from the reset on. -/
theorem dropSeqCnt_eq {attempts : List (Nat × Attempt)}
    (hseq : ∀ a ∈ attempts, a.2.sequence = a.1 % 2 ^ 32)
    (hsorted : (sentEvents attempts).Pairwise (· < ·)) {c : TxCounters} (hcount : c.txCount = 0)
    (hdrop : c.dropSeqCnt = 0) :
    (txRun c attempts).dropSeqCnt = countedGaps (sentEvents attempts) % 2 ^ 32 := by
  induction attempts generalizing c with
  | nil => exact hdrop
  | cons a attempts ih =>
    obtain ⟨ha, hrest⟩ := List.forall_mem_cons.mp hseq
    show (txRun (c.record a.2) attempts).dropSeqCnt = _
    cases hsent : a.2.sent with
    | false =>
      rw [sentEvents_cons_unsent hsent] at hsorted ⊢
      obtain ⟨-, hcnt, hcur⟩ := record_unsent (c := c) hsent
      exact ih hrest hsorted (hcnt.trans hcount) (hcur.trans hdrop)
    | true =>
      -- the first event sent: nothing is counted yet
      rw [sentEvents_cons_sent hsent] at hsorted ⊢
      obtain ⟨hblow, hret⟩ : a.2.blowOffTxEth = false ∧ a.2.ret = a.2.txSize := by
        simpa [Attempt.sent] using hsent
      have hrec : (c.record a.2).txCount = 1 % 2 ^ 32 ∧ (c.record a.2).txSeqId = a.1 % 2 ^ 32 ∧
          (c.record a.2).dropSeqCnt = 0 := by
        unfold TxCounters.record
        rw [if_neg (by rw [hblow]; exact Bool.false_ne_true), if_pos hret]
        simp [hcount, hdrop, ha, inc32]
      obtain ⟨hcnt, hid, hcur⟩ := hrec
      rw [txRun_dropSeqCnt hrest hsorted hcnt hid (by omega), hcur, Nat.zero_add]
      rfl

/-! ## What should be counted -/

/-- A gap that is counted holds the triggers and the other commands in it. -/
theorem countedGap_eq (ps : List Ports) {i k k' : Nat} :
    (countedGap i k k' : Int) = gapCount (TriggerAt ps) k k' +
      if Counted i k k' then (gapCount (fun x => ¬ TriggerAt ps x) k k' : Int)
      else -(gapCount (TriggerAt ps) k k' : Int) := by
  have hsplit := gapCount_add_gapCount_not (TriggerAt ps) k k'
  unfold countedGap
  split_ifs <;> omega

theorem countedGaps_eq {ps : List Ports} {sent : List Nat} (hsorted : sent.Pairwise (· < ·))
    (hlt : ∀ x ∈ sent, x < (syncCommands ps).length) :
    (countedGaps sent : Int) = (unsentTriggers ps sent).card + miscounted ps sent := by
  cases sent with
  | nil =>
    have hnone : unsentTriggers ps [] = ∅ := by simp [unsentTriggers, inside]
    rw [hnone]
    rfl
  | cons k ks =>
    unfold unsentTriggers miscounted countedGaps
    rw [card_inside (i := 1) _ hsorted hlt]
    have hcast : ∀ f : Nat → Nat → Nat → Nat,
        ((gapSum f 1 k ks : Nat) : Int) = gapSum (fun i k k' => (f i k k' : Int)) 1 k ks :=
      fun f => map_gapSum (Nat.castAddMonoidHom Int) f 1 k ks
    rw [hcast, hcast, ← gapSum_add]
    apply gapSum_congr hsorted
    intro i k k' _
    exact countedGap_eq ps

/-- **The count of dropped sequence numbers.** Whatever commands reach the
firmware, in whatever states the receive loop reads the messages, and whatever
becomes of the events: the count is the number of triggers without an event
exactly when the other commands that are counted, less the triggers that are not,
come to a multiple of 2^32, and the number fits 32 bits. -/
theorem dropSeqCnt_exact_iff (SCMD : Scmd) (ps : List Ports) (states : List RxState)
    (attempts : List (Nat × Attempt))
    (h : (attempts.map fun a => (a.1, a.2.sequence)).Sublist
      ((started SCMD ps states).map fun a => (a.1, a.2.sequence))) :
    (txRun .reset attempts).dropSeqCnt = (unsentTriggers ps (sentEvents attempts)).card ↔
      miscounted ps (sentEvents attempts) ≡ 0 [ZMOD 2 ^ 32] ∧
        (unsentTriggers ps (sentEvents attempts)).card < 2 ^ 32 := by
  have hfrom : ∀ a ∈ attempts, a.2.sequence = a.1 % 2 ^ 32 ∧ TriggerAt ps a.1 := by
    intro a ha
    obtain ⟨⟨k, tmsg⟩, hmem, heq⟩ :=
      List.mem_map.mp (h.subset (List.mem_map.mpr ⟨a, ha, rfl⟩))
    obtain ⟨hk, hs⟩ := Prod.mk.inj heq
    obtain ⟨hseq, htrig⟩ := started_sequence hmem
    exact ⟨by rw [← hs, ← hk, hseq], hk ▸ htrig⟩
  have hsorted : (sentEvents attempts).Pairwise (· < ·) := by
    have hnumbers : (attempts.map Prod.fst).Sublist ((started SCMD ps states).map Prod.fst) := by
      simpa [List.map_map, Function.comp_def] using h.map Prod.fst
    exact List.Pairwise.sublist ((List.filter_sublist.map Prod.fst).trans hnumbers) started_sorted
  have hlt : ∀ k ∈ sentEvents attempts, k < (syncCommands ps).length := by
    intro k hk
    obtain ⟨a, ha, rfl⟩ := List.mem_map.mp hk
    have htrig := (hfrom a (List.mem_of_mem_filter ha)).2
    unfold TriggerAt at htrig
    by_contra hge
    rw [List.getElem?_eq_none (by omega)] at htrig
    cases htrig
  have hcount := dropSeqCnt_eq (fun a ha => (hfrom a ha).1) hsorted (c := .reset) rfl rfl
  have hgaps := countedGaps_eq hsorted hlt
  rw [hcount]
  unfold Int.ModEq
  omega

/-- A trigger, an echo and a trigger, and the FIFO always ready. -/
def echoBetween : List Ports :=
  [⟨⟨8, true, 8, true, 100⟩, true⟩, ⟨⟨8, true, 1, true, 200⟩, true⟩,
    ⟨⟨8, true, 8, true, 300⟩, true⟩, ⟨⟨8, true, 0, false, 400⟩, true⟩]

/-- The receive loop in a run on external triggers, without an event. -/
def idleStates : List RxState :=
  List.replicate 3 (.start (fun _ => ⟨⟨0, 0⟩, 0, 0⟩) ⟨.EXTERNAL, false, 1000, 1000, 1⟩)

/-- Both events are sent. -/
def bothSent : List (Nat × Attempt) := [(0, ⟨0, false, 64, 64⟩), (2, ⟨2, false, 64, 64⟩)]

theorem bothSent_started : (bothSent.map fun a => (a.1, a.2.sequence)).Sublist
    ((started ⟨4, 5⟩ echoBetween idleStates).map fun a => (a.1, a.2.sequence)) := by
  decide

theorem dropSeqCnt_exact_iff_echo :
    (txRun .reset bothSent).dropSeqCnt = (unsentTriggers echoBetween (sentEvents bothSent)).card ↔
      miscounted echoBetween (sentEvents bothSent) ≡ 0 [ZMOD 2 ^ 32] ∧
        (unsentTriggers echoBetween (sentEvents bothSent)).card < 2 ^ 32 :=
  dropSeqCnt_exact_iff ⟨4, 5⟩ echoBetween idleStates bothSent bothSent_started

/-- The echo is counted as a dropped event. -/
theorem echo_counted :
    ¬ ∀ (SCMD : Scmd) (ps : List Ports) (states : List RxState) (attempts : List (Nat × Attempt)),
      (attempts.map fun a => (a.1, a.2.sequence)).Sublist
        ((started SCMD ps states).map fun a => (a.1, a.2.sequence)) →
      (txRun .reset attempts).dropSeqCnt = (unsentTriggers ps (sentEvents attempts)).card := by
  intro hall
  have hcount := hall ⟨4, 5⟩ echoBetween idleStates bothSent bothSent_started
  have hunsent : (unsentTriggers echoBetween (sentEvents bothSent)).card = 0 := by decide
  rw [hunsent] at hcount
  exact absurd hcount (by decide)

end ProtoDune.Daq
