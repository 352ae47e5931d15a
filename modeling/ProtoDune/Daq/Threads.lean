import ProtoDune.Daq.Event
import ProtoDune.Daq.EventPool
import ProtoDune.Lib.Access

/-!
# The receive and the transmit thread

Both threads of `DaqBuffer` with every access to a list field, every return of a
DMA index and every queue call as one step. The receive thread is told by what
it does to the shared memory: any packet, list operation, trigger and event, in
any order that its local variables allow. The transmit thread takes an event
from `_txReqQueue`, sends it, runs `Event::free` and records the statistics.

Main results:

* `run_accesses` — the accesses of a list operation, with nothing in between,
  are the operation.
-/

namespace ProtoDune.Daq

open Access LinkChain

instance : LawfulBEq Addr where
  eq_of_beq {p q} h := by
    cases p <;> cases q
    · exact congrArg Sum.inl (eq_of_beq h)
    · exact absurd h Bool.false_ne_true
    · exact absurd h Bool.false_ne_true
    · exact congrArg Sum.inr (eq_of_beq h)
  rfl {p} := by
    cases p with
    | inl head => exact beq_self_eq_true head
    | inr index => exact beq_self_eq_true index

/-! ## The accesses of the list operations -/

/-- A link field in memory. -/
inductive LinkCell where
  | flnk (p : Addr)
  | blnk (p : Addr)
deriving DecidableEq

/-- The lists in a memory of link fields. -/
def linksOf (m : LinkCell → Addr) : Links Addr := ⟨fun p => m (.flnk p), fun p => m (.blnk p)⟩

abbrev Accesses := Prog LinkCell Addr (Option Addr)

/-- `List::init`, `insert_tail`, `insert_head` and `remove_head`, field by field. -/
def ListOp.accesses (l : Addr) : ListOp Addr → Accesses
  | .init => .store (.flnk l) l <| .load (.flnk l) fun flnk => .store (.blnk l) flnk (.done none)
  | .insertTail node =>
      .load (.blnk l) fun blnk => .store (.blnk l) node <| .store (.flnk node) l <|
        .store (.flnk blnk) node (.done (some blnk))
  | .insertHead node =>
      .load (.flnk l) fun flnk => .store (.flnk node) flnk <| .store (.flnk l) node
        (.done (some flnk))
  | .removeHead =>
      .load (.flnk l) fun node =>
        if node ≠ l then
          .load (.flnk node) fun flnk => .store (.flnk l) flnk <|
            if flnk = l then .store (.blnk l) l (.done (some node)) else .done (some node)
        else .done none

theorem linksOf_setFlnk (m : LinkCell → Addr) (p q : Addr) :
    linksOf (Function.update m (.flnk p) q) = (linksOf m).setFlnk p q := by
  have hflnk : (fun a => Function.update m (.flnk p) q (.flnk a)) =
      Function.update (fun a => m (.flnk a)) p q := by
    funext a
    by_cases ha : a = p
    · rw [ha, Function.update_self, Function.update_self]
    · rw [Function.update_of_ne ha, Function.update_of_ne (by simpa using ha)]
  have hblnk : (fun a => Function.update m (.flnk p) q (.blnk a)) = fun a => m (.blnk a) := by
    funext a
    have hne : LinkCell.blnk a ≠ .flnk p := nofun
    exact Function.update_of_ne hne q m
  rw [linksOf, hflnk, hblnk]
  rfl

theorem linksOf_setBlnk (m : LinkCell → Addr) (p q : Addr) :
    linksOf (Function.update m (.blnk p) q) = (linksOf m).setBlnk p q := by
  have hblnk : (fun a => Function.update m (.blnk p) q (.blnk a)) =
      Function.update (fun a => m (.blnk a)) p q := by
    funext a
    by_cases ha : a = p
    · rw [ha, Function.update_self, Function.update_self]
    · rw [Function.update_of_ne ha, Function.update_of_ne (by simpa using ha)]
  have hflnk : (fun a => Function.update m (.blnk p) q (.flnk a)) = fun a => m (.flnk a) := by
    funext a
    have hne : LinkCell.flnk a ≠ .blnk p := nofun
    exact Function.update_of_ne hne q m
  rw [linksOf, hflnk, hblnk]
  rfl

/-- The accesses of an operation, with nothing in between, are the operation. -/
theorem run_accesses (op : ListOp Addr) (l : Addr) (m : LinkCell → Addr) :
    (linksOf ((op.accesses l).run m).2, ((op.accesses l).run m).1) = op.exec l (linksOf m) := by
  cases op with
  | init =>
    rw [ListOp.accesses, Prog.run_store, Prog.run_load, Prog.run_store, Prog.run_done,
      linksOf_setBlnk, linksOf_setFlnk, Function.update_self]
    simp [ListOp.exec, Links.init]
  | insertTail node =>
    rw [ListOp.accesses, Prog.run_load, Prog.run_store, Prog.run_store, Prog.run_store,
      Prog.run_done, linksOf_setFlnk, linksOf_setFlnk, linksOf_setBlnk]
    rfl
  | insertHead node =>
    rw [ListOp.accesses, Prog.run_load, Prog.run_store, Prog.run_store, Prog.run_done,
      linksOf_setFlnk, linksOf_setFlnk]
    rfl
  | removeHead =>
    change _ = (linksOf m).removeHead l
    have hnode : (linksOf m).flnk l = m (.flnk l) := rfl
    rw [ListOp.accesses, Prog.run_load, Links.removeHead, hnode]
    by_cases hempty : m (.flnk l) ≠ l
    · have hnext : (linksOf m).flnk (m (.flnk l)) = m (.flnk (m (.flnk l))) := rfl
      simp only [if_pos hempty, Prog.run_load, Prog.run_store, hnext]
      split
      · rw [Prog.run_store, Prog.run_done, linksOf_setBlnk, linksOf_setFlnk]
      · rw [Prog.run_done, linksOf_setFlnk]
    · simp only [if_neg hempty, Prog.run_done]

/-! ## The state -/

/-- The local variables of `rxRun`: the nodes in its hands, the event it builds and which of its
lists `seedAndDrain` has prepared, and the rest of the list operation it is at. -/
structure RxThread where
  hand : List Addr
  event : Option Nat
  prepared : Dest → Bool
  busy : Option (ListOp Addr × Accesses)

/-- The event that `txRun` has taken: its buffers and its trigger sequence number at that time,
and whether all of it was sent. -/
structure Job where
  event : Nat
  bufs : Dest → List Nat
  sequence : BitVec 32
  sent : Bool

/-- Where `txRun` is. -/
inductive TxPc where
  /-- at `_txReqQueue->pop` -/
  | pop
  /-- the event is formatted -/
  | send (job : Job)
  /-- `free`: at the load of `m_list[idx].m_flnk` -/
  | first (job : Job) (idx : Dest)
  /-- at the top of the loop -/
  | test (job : Job) (idx : Dest) (node : Addr) (count : Nat)
  /-- the index is returned, at the load of `node->m_flnk` -/
  | next (job : Job) (idx : Dest) (node : Addr) (count : Nat)
  /-- in `prepare (idx)` -/
  | prepare (job : Job) (idx : Dest) (rest : Accesses)
  /-- at `m_pool->deallocate (this)` -/
  | deallocate (job : Job)
  /-- at the load of `event->m_trigger.m_sequence` -/
  | record (job : Job)
  /-- after `exit (-1)` -/
  | exited

/-- `txRun`, with the indices that the last call of `free` has returned. -/
structure TxThread where
  pc : TxPc
  returned : List Nat
  txSeqId : BitVec 32
  txCount : BitVec 32
  dropSeqCnt : BitVec 32

/-- What has happened: where each loop over a list ended, the buffers of each event freed and the
indices returned, the sequence number of each event sent and the number recorded for it. -/
structure History where
  walks : List (Head × Addr)
  frees : List (List Nat × List Nat)
  updates : List (BitVec 32 × BitVec 32)

structure Threads where
  links : LinkCell → Addr
  /-- `m_trigger.m_sequence` of each event -/
  sequence : Nat → BitVec 32
  /-- the indices that the driver may hand out -/
  driver : List Nat
  pool : CommQueue Nat
  txReqQueue : CommQueue Nat
  rx : RxThread
  tx : TxThread
  history : History

/-- When the threads start: all lists are empty and the driver has all buffers. -/
def Threads.start (bCount rxCount : Nat) : Threads where
  links
    | .flnk p => p
    | .blnk p => p
  sequence := fun _ => 0
  driver := List.range bCount
  pool := eventPool bCount
  txReqQueue := .new rxCount
  rx := { hand := [], event := none, prepared := fun _ => false, busy := none }
  tx := { pc := .pop, returned := [], txSeqId := 0, txCount := 0, dropSeqCnt := 0 }
  history := ⟨[], [], []⟩

/-! ## The receive thread -/

/-- What the receive thread does to the shared memory. -/
inductive RxAct where
  /-- `dmaReadIndex` -/
  | receive (index : Nat)
  /-- a call of a list operation, its next access, and its end -/
  | call (list : Head) (op : ListOp Addr)
  | access
  | return
  /-- `dmaRetIndex` -/
  | free (node : Addr)
  /-- `eventPool.allocate ()` -/
  | allocate
  /-- `m_trigger.init` -/
  | trigger (sequence : BitVec 32)
  /-- `_txReqQueue->push (event)` -/
  | post

/-- A list of the receive thread: a latency list, or a list of the event it builds. -/
def RxThread.owns (rx : RxThread) : Head → Bool
  | .latency _ => true
  | .contrib event _ => rx.event == some event

/-- The list may be used: those of an event are prepared first. -/
def RxThread.uses (rx : RxThread) : ListOp Addr → Head → Bool
  | _, .latency _ => true
  | .init, .contrib event _ => rx.event == some event
  | _, .contrib event dest => rx.event == some event && rx.prepared dest

/-- The node that an operation is given. -/
def ListOp.given : ListOp Addr → List Addr
  | .insertTail node => [node]
  | .insertHead node => [node]
  | .init => []
  | .removeHead => []

/-- The node that the caller gets. -/
def ListOp.taken : ListOp Addr → Option Addr → List Addr
  | .removeHead, node => node.toList
  | _, _ => []

/-- `prepare` of a list of the event. -/
def RxThread.prepare (rx : RxThread) : ListOp Addr → Head → Dest → Bool
  | .init, .contrib _ dest => Function.update rx.prepared dest true
  | _, _ => rx.prepared

section

-- what stands at the place of `m_body` behind a list head, read as an index
variable (garbage : Head → Nat)

/-- `node->m_body.getIndex ()`. -/
def getIndex : Addr → Nat
  | .inr index => index
  | .inl head => garbage head

/-- A step of the receive thread, `none` where it is not at it. -/
def rxStep (s : Threads) : RxAct → Option Threads
  | .receive index =>
      if s.rx.busy.isNone ∧ index ∈ s.driver then
        some { s with
          driver := s.driver.erase index
          rx := { s.rx with hand := .inr index :: s.rx.hand } }
      else none
  | .call list op =>
      if s.rx.busy.isNone ∧ s.rx.uses op list ∧ ∀ node ∈ op.given, node ∈ s.rx.hand then
        some { s with rx := { s.rx with
          hand := s.rx.hand.diff op.given
          prepared := s.rx.prepare op list
          busy := some (op, op.accesses (.inl list)) } }
      else none
  | .access =>
      match s.rx.busy with
      | some (op, p) =>
          let (p, links) := p.step s.links
          some { s with links, rx := { s.rx with busy := some (op, p) } }
      | none => none
  | .return =>
      match s.rx.busy with
      | some (op, .done node) =>
          some { s with rx := { s.rx with hand := op.taken node ++ s.rx.hand, busy := none } }
      | _ => none
  | .free node =>
      if s.rx.busy.isNone ∧ node ∈ s.rx.hand then
        some { s with
          driver := getIndex garbage node :: s.driver
          rx := { s.rx with hand := s.rx.hand.erase node } }
      else none
  | .allocate =>
      match s.rx.busy, s.rx.event, s.pool.pop with
      | none, none, (pool, some event) =>
          some { s with pool, rx := { s.rx with event := some event, prepared := fun _ => false } }
      | _, _, _ => none
  | .trigger sequence =>
      match s.rx.event with
      | some event => some { s with sequence := Function.update s.sequence event sequence }
      | none => none
  | .post =>
      match s.rx.event with
      | some event =>
          if s.rx.busy.isNone ∧ ∀ dest, s.rx.prepared dest then
            some { s with
              txReqQueue := (s.txReqQueue.push event).1
              rx := { s.rx with event := none } }
          else none
      | none => none

/-! ## The transmit thread -/

/-- What becomes of an event: it is not sent when `_blowOffTxEth` is set, else over TCP or RSSI,
wholly or not. -/
inductive Transfer where
  | blowOff
  | tcp (sent : Bool)
  | rssi (sent : Bool)
deriving DecidableEq

/-- The buffers on a list, for at most `bCount` nodes. -/
def buffersOn (bCount : Nat) (m : LinkCell → Addr) (h : Head) : List Nat :=
  (walk (fun p => m (.flnk p)) (.inl h) (bCount + 1) (.inl h)).map (getIndex garbage)

/-- The statistics of an event that was sent. -/
def TxThread.record (tx : TxThread) (currSeqId : BitVec 32) : TxThread :=
  let deltaSeqId := currSeqId - tx.txSeqId
  { tx with
    dropSeqCnt :=
      if 0 < tx.txCount ∧ 1 < deltaSeqId then tx.dropSeqCnt + (deltaSeqId - 1) else tx.dropSeqCnt
    txSeqId := currSeqId
    txCount := tx.txCount + 1
    pc := .pop }

/-- The loop over a list is left at `node`. -/
def Threads.leaveLoop (s : Threads) (job : Job) (idx : Dest) (node : Addr) : Threads :=
  let list := Head.contrib job.event idx
  { s with
    history := { s.history with walks := s.history.walks ++ [(list, node)] }
    tx := { s.tx with pc := .prepare job idx (ListOp.init.accesses (.inl list)) } }

/-- A step of the transmit thread, `none` where it waits or has left the program. -/
def txStep (bCount : Nat) (transfer : Transfer) (s : Threads) : Option Threads :=
  match s.tx.pc with
  | .pop =>
      match s.txReqQueue.pop with
      | (txReqQueue, some event) =>
          let bufs := fun dest => buffersOn garbage bCount s.links (.contrib event dest)
          some { s with
            txReqQueue
            tx := { s.tx with pc := .send ⟨event, bufs, s.sequence event, false⟩ } }
      | _ => none
  | .send job =>
      match transfer with
      | .blowOff =>
          some { s with tx := { s.tx with pc := .first { job with sent := false } 0, returned := [] } }
      | .tcp sent =>
          some { s with tx := { s.tx with pc := .first { job with sent } 0, returned := [] } }
      | .rssi sent =>
          -- the driver returns the buffers
          some { s with
            driver := s.driver ++ (job.bufs 0 ++ job.bufs 1)
            tx := { s.tx with pc := .deallocate { job with sent } } }
  | .first job idx =>
      let node := s.links (.flnk (.inl (.contrib job.event idx)))
      some { s with tx := { s.tx with pc := .test job idx node 0 } }
  | .test job idx node count =>
      if node = .inl (.contrib job.event idx) then some (s.leaveLoop job idx node)
      else
        let index := getIndex garbage node
        if 900 < index then some { s with tx := { s.tx with pc := .exited } }
        else
          let count := if index < 8 then count + 1 else count
          if 40 < count then some (s.leaveLoop job idx node)
          else
            some { s with
              driver := index :: s.driver
              tx := { s.tx with
                pc := .next job idx node count
                returned := s.tx.returned ++ [index] } }
  | .next job idx node count =>
      some { s with tx := { s.tx with pc := .test job idx (s.links (.flnk node)) count } }
  | .prepare job idx (.done _) =>
      if idx = 0 then some { s with tx := { s.tx with pc := .first job 1 } }
      else
        let freed := (job.bufs 0 ++ job.bufs 1, s.tx.returned)
        some { s with
          history := { s.history with frees := s.history.frees ++ [freed] }
          tx := { s.tx with pc := .deallocate job } }
  | .prepare job idx rest =>
      let (rest, links) := rest.step s.links
      some { s with links, tx := { s.tx with pc := .prepare job idx rest } }
  | .deallocate job =>
      some { s with
        pool := (s.pool.push job.event).1
        tx := { s.tx with pc := if job.sent then .record job else .pop } }
  | .record job =>
      let currSeqId := s.sequence job.event
      some { s with
        history := { s.history with updates := s.history.updates ++ [(job.sequence, currSeqId)] }
        tx := s.tx.record currSeqId }
  | .exited => none

/-! ## Runs -/

/-- A step of either thread. -/
inductive ThreadStep where
  | rx (act : RxAct)
  | tx (transfer : Transfer)

def Threads.step (bCount : Nat) (s : Threads) (a : ThreadStep) : Option Threads :=
  match s.tx.pc, a with
  | .exited, _ => none
  | _, .rx act => rxStep garbage s act
  | _, .tx transfer => txStep garbage bCount transfer s

/-- The states of the runs from `s` whose steps all meet `ok`. -/
inductive Threads.Run (bCount : Nat) (ok : Threads → ThreadStep → Prop) (s : Threads) :
    Threads → Prop where
  | refl : Run bCount ok s s
  | tail {t u : Threads} (a : ThreadStep) : Run bCount ok s t → ok t a →
      t.step garbage bCount a = some u → Run bCount ok s u

end

end ProtoDune.Daq
