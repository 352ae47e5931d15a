import ProtoDune.Daq.ListStore
import ProtoDune.Lib.WindowSelect

/-!
# `DaqBuffer.cpp`: latency lists and event building

The memory the receive thread works on, the latency lists, and the methods of
`Event` that decide what becomes of a packet: `evaluate` for one packet and
`seedAndDrain` for the packets already on the latency lists.

Loops over lists are given `fuel`; running out of it is reported as
`Stop.hang`, so that a proof that a call returns also shows that it ends.
-/

namespace ProtoDune.Daq

open WindowSelect

/-- A contributor, one per DMA destination; there are `MAX_DEST = 2`. -/
abbrev Dest := Fin 2

/-- The numerals of `Dest`. -/
scoped instance dest_neZero : @NeZero Nat Zero.ofOfNat0 2 := Nat.instNeZeroSucc

/-- The lists of the program: `latency[ictb]`, and `m_list[dest]` of the event
objects. -/
inductive Head where
  | latency (ictb : Dest)
  | contrib (event : Nat) (dest : Dest)
deriving DecidableEq

/-- An address of a link word: a list head, or the node `fbs[index]`. -/
abbrev Addr := Head ⊕ Nat

/-- The ways a call does not return: the `exit (-1)` of `Event::evaluate`, that of
`postEventAndReset`, a trap (a null pointer, a division by zero), or a loop that
does not end. -/
inductive Stop where
  | evaluateExit
  | postExit
  | trap
  | hang
deriving DecidableEq

/-- The body of the node `fbs[index]`; its index never changes. -/
structure FrameBuffer where
  tsRange : Span Nat
  size : Nat
  status : Nat

/-- The memory of the receive thread, and the indices given back to the DMA
driver, the latest last. -/
structure Memory where
  links : Links Addr
  body : Nat → FrameBuffer
  remaining : Dest → Int
  returned : List Nat

namespace Memory

/-- `node->m_body._ts_range`. A head has no body: the code never reads one. -/
def tsRange (m : Memory) : Addr → Span Nat
  | .inr index => (m.body index).tsRange
  | .inl _ => ⟨0, 0⟩

/-- `fbs[index].m_body.setTimeRange`, which also clears the status. -/
def setTimeRange (m : Memory) (index : Nat) (time : Span Nat) : Memory :=
  let fb := { m.body index with tsRange := time, status := 0 }
  { m with body := Function.update m.body index fb }

/-- `dmaRetIndex (fd, node->m_body.getIndex ())`. -/
def dmaRetIndex (m : Memory) : Addr → Memory
  | .inr index => { m with returned := m.returned ++ [index] }
  | .inl _ => m

def initList (m : Memory) (h : Head) : Memory :=
  { m with links := m.links.init (.inl h) }

def insertTail (m : Memory) (h : Head) (node : Addr) : Memory :=
  { m with links := (m.links.insertTail (.inl h) node).1 }

def insertHead (m : Memory) (h : Head) (node : Addr) : Memory :=
  { m with links := (m.links.insertHead (.inl h) node).1 }

def removeHead (m : Memory) (h : Head) : Memory × Option Addr :=
  let (links, node) := m.links.removeHead (.inl h)
  ({ m with links }, node)

/-- `list->m_remaining += n`. -/
def addRemaining (m : Memory) (ictb : Dest) (n : Int) : Memory :=
  { m with remaining := Function.update m.remaining ictb (m.remaining ictb + n) }

end Memory

/-! ## `LatencyList` -/

namespace LatencyList

/-- The number of packets a latency list keeps. -/
def Depth : Int := 10 - 1

/-- `resetToEmpty`. -/
def resetToEmpty (m : Memory) (ictb : Dest) : Memory :=
  { m with remaining := Function.update m.remaining ictb Depth }

/-- `replace`: append `node`, and free the oldest node when the list is full. -/
def replace (m : Memory) (ictb : Dest) (node : Addr) : Except Stop Memory :=
  let m := m.insertTail (.latency ictb) node
  if m.remaining ictb ≤ 0 then
    match m.removeHead (.latency ictb) with
    | (m, some node) => .ok (m.dmaRetIndex node)
    -- the code would dereference the null pointer
    | (_, none) => .error .trap
  else
    .ok (m.addRemaining ictb (-1))

end LatencyList

/-! ## `Event` -/

/-- The action codes of `evaluate`, a bit mask. -/
abbrev ACTION_M_NONE : Nat := 0
abbrev ACTION_M_POST : Nat := 1
abbrev ACTION_M_FREE : Nat := 2
abbrev ACTION_M_ADDTOLATENCY : Nat := 4

/-- An event object of the pool. Its lists are `Head.contrib id dest`. -/
structure Event where
  id : Nat
  /-- `m_limits`, the window of the event -/
  limits : Span Nat
  /-- `m_trigger.m_timestamp` and `m_trigger.m_sequence` -/
  trgTime : Nat
  trgSequence : Nat
  trgNode : Dest → Option Addr
  trgNpkt : Dest → Nat
  nctbs : Nat
  /-- While building, the mask of incomplete contributors. -/
  ctbs : BitVec 32
  npkts : Dest → Nat

/-- `1 << dest`. -/
def ctbMask (dest : Dest) : BitVec 32 := 1#32 <<< dest.val

/-- `Event::prepare`. -/
def Event.prepare (m : Memory) (ev : Event) (dest : Dest) : Memory × Event :=
  (m.initList (.contrib ev.id dest),
    { ev with
      trgNode := Function.update ev.trgNode dest none
      npkts := Function.update ev.npkts dest 0 })

/-- `Event::setWindow`. -/
def Event.setWindow (ev : Event) (beg fin : Nat) : Event :=
  { ev with limits := ⟨beg, fin⟩ }

/-- `Event::scanForTriggerNode` from `scanNode`, which is `scanNpkt` nodes into
`list`: the node that holds the trigger time, and its number. -/
def scanForTriggerNode (m : Memory) (list : Head) (trgTime : Nat) :
    Nat → Addr → Nat → Except Stop (Option (Addr × Nat))
  | 0, _, _ => .error .hang
  | fuel + 1, scanNode, scanNpkt =>
      if (m.tsRange scanNode).beg ≤ trgTime then
        .ok (some (scanNode, scanNpkt % 2 ^ 16))
      else if scanNode = m.links.blnk (.inl list) then
        .ok none
      else
        scanForTriggerNode m list trgTime fuel (m.links.flnk scanNode) (scanNpkt + 1)

/-- The part of `evaluate` that records the packet with the trigger time, for a
packet `node` that was just appended as number `npkt`. -/
def Event.findTrigger (fuel : Nat) (m : Memory) (ev : Event) (node : Addr) (dest : Dest)
    (npkt : Nat) : Except Stop Event :=
  if ev.trgNode dest = none then
    let time := m.tsRange node
    if ev.trgTime < time.beg then do
      let list := Head.contrib ev.id dest
      let found ← scanForTriggerNode m list ev.trgTime fuel (m.links.flnk (.inl list)) 0
      match found with
      | some (trgNode, trgNpkt) => .ok { ev with
          trgNode := Function.update ev.trgNode dest (some trgNode)
          trgNpkt := Function.update ev.trgNpkt dest trgNpkt }
      | none => .ok ev
    else if ev.trgTime ≤ time.fin then
      .ok { ev with
        trgNode := Function.update ev.trgNode dest (some node)
        trgNpkt := Function.update ev.trgNpkt dest npkt }
    else
      .ok ev
  else
    .ok ev

/-- `m_npkts[dest] = npkt + 1`, 16 bits wide. -/
def Event.countPacket (ev : Event) (dest : Dest) : Event :=
  { ev with npkts := Function.update ev.npkts dest ((ev.npkts dest + 1) % 2 ^ 16) }

/-- `m_nctbs += 1; m_ctbs &= ~ctb_mask`. -/
def Event.complete (ev : Event) (dest : Dest) : Event :=
  { ev with nctbs := ev.nctbs + 1, ctbs := ev.ctbs &&& ~~~(ctbMask dest) }

/-- `Event::evaluate`: what to do with the packet `node` of contributor `dest`,
and with the event. -/
def Event.evaluate (fuel : Nat) (m : Memory) (ev : Event) (node : Addr) (dest : Dest) :
    Except Stop (Memory × Event × Nat) :=
  if ev.ctbs &&& ctbMask dest = 0 then
    .ok (m, ev, ACTION_M_ADDTOLATENCY)
  else if (m.tsRange node).fin < ev.limits.beg then
    .ok (m, ev, ACTION_M_FREE)
  else if (m.tsRange node).beg ≤ ev.limits.fin then do
    let npkt := ev.npkts dest
    let m := m.insertTail (.contrib ev.id dest) node
    let ev ← (ev.countPacket dest).findTrigger fuel m node dest npkt
    if ev.limits.fin ≤ (m.tsRange node).fin then
      let ev := ev.complete dest
      if 2 < ev.nctbs then .error .evaluateExit
      else if ev.ctbs = 0 then .ok (m, ev, ACTION_M_POST)
      -- the code falls through to its last return
      else .ok (m, ev, ACTION_M_NONE)
    else
      .ok (m, ev, ACTION_M_NONE)
  else if ev.ctbs &&& ctbMask dest ≠ 0 then
    let ev := ev.complete dest
    if ev.ctbs = 0 then .ok (m, ev, ACTION_M_ADDTOLATENCY ||| ACTION_M_POST)
    else .ok (m, ev, ACTION_M_ADDTOLATENCY)
  else
    .ok (m, ev, ACTION_M_ADDTOLATENCY)

/-- The scan of one latency list in `seedAndDrain`; the flag says that the
event is to be posted. -/
def Event.seedContributor (fuel : Nat) (ictb : Dest) :
    Nat → Memory → Event → Except Stop (Memory × Event × Bool)
  | 0, _, _ => .error .hang
  | n + 1, m, ev =>
      match m.removeHead (.latency ictb) with
      | (m, none) => .ok (LatencyList.resetToEmpty m ictb, ev, false)
      | (m, some flnk) => do
          let (m, ev, action) ← ev.evaluate fuel m flnk ictb
          if action &&& ACTION_M_FREE ≠ 0 then
            seedContributor fuel ictb n ((m.dmaRetIndex flnk).addRemaining ictb 1) ev
          else if action &&& ACTION_M_ADDTOLATENCY ≠ 0 then
            let m := m.insertHead (.latency ictb) flnk
            .ok (m, ev, action &&& ACTION_M_POST ≠ 0)
          else
            let m := m.addRemaining ictb 1
            if action &&& ACTION_M_POST ≠ 0 then .ok (m, ev, true)
            else if ev.ctbs &&& ctbMask ictb = 0 then .ok (m, ev, false)
            else seedContributor fuel ictb n m ev

/-- The loop of `seedAndDrain` over the contributors still to be looked at. -/
def Event.seedLoop (fuel : Nat) : List Dest → Memory → Event →
    Except Stop (Memory × Event × Nat)
  | [], m, ev => .ok (m, ev, ACTION_M_NONE)
  | ictb :: ictbs, m, ev => do
      let (m, ev) := ev.prepare m ictb
      let (m, ev, post) ← Event.seedContributor fuel ictb fuel m ev
      if post then .ok (m, ev, ACTION_M_POST) else seedLoop fuel ictbs m ev

/-- `Event::seedAndDrain`: move the packets of the window from the latency lists
to the event, and free those before it. -/
def Event.seedAndDrain (fuel : Nat) (m : Memory) (ev : Event) (ctbs : BitVec 32) :
    Except Stop (Memory × Event × Nat) :=
  Event.seedLoop fuel [0, 1] m { ev with ctbs, nctbs := 0 }

end ProtoDune.Daq
