import ProtoDune.Daq.Event

/-!
# `DaqBuffer::rxRun`: the receive loop

One iteration of the loop: a `select` on the timing and data descriptors, then
the timing message, then the data packet, whichever are ready. The state holds
what survives an iteration, and two logs: the buffers handed out by the DMA
driver (`received`) and those given back to it (`mem.returned`).
-/

namespace ProtoDune.Daq

open WindowSelect

/-- `RunMode`. -/
inductive RunMode where
  | IDLE
  | EXTERNAL
  | SOFTWARE
deriving DecidableEq

/-- The part of `_config` the loop reads. -/
structure Config where
  runMode : RunMode
  blowOffDmaData : Bool
  pretrigger : Int
  posttrigger : Int
  period : Nat

/-- A message read from the timing channel. -/
structure TimingMsg where
  dest : Nat
  timestamp : Nat
  sequence : Nat
  tsw : BitVec 32

/-- `TimingMsg::is_trigger`: running, and a type of 8 or more. -/
def TimingMsg.isTrigger (tmsg : TimingMsg) : Bool := tmsg.tsw &&& 0xf8 = 0x88

/-- What `dmaReadIndex` delivers on the data channel, with the parts of the
packet the loop looks at: the low 24 bits of the word before the last, and the
time range. -/
structure DataMsg where
  index : Nat
  dest : Nat
  lastUser : BitVec 8
  rxSize : Nat
  trailer : BitVec 64
  tsRange : Span Nat

/-- The counters of the loop, 32 bits wide. -/
structure Counters where
  rxCount : Nat
  rxTotal : Nat
  rxErrors : Nat
  rxSequence : Nat
  triggers : Nat
  trgMsgCnt : Nat
  disTrgCnt : Nat

def inc32 (n : Nat) : Nat := (n + 1) % 2 ^ 32

/-- The state at the head of the loop. -/
structure RxState where
  mem : Memory
  event : Option Event
  trgActive : Bool
  /-- `FD_ISSET (timingFd, &fds)` -/
  timingSet : Bool
  runMode : RunMode
  blowOffDmaData : Bool
  softTriggerCnt : Nat
  counters : Counters
  /-- the transmit queue -/
  posted : List Event
  received : List Nat

/-- What one iteration is given: the configuration, what is ready on the two
channels, and the event object the pool hands out if one is allocated. -/
structure RxInput where
  cfg : Config
  timing : Option TimingMsg
  data : Option DataMsg
  alloc : Nat

/-- `DaqDmaDevice::TUserEOFE`. -/
def TUserEOFE : BitVec 8 := 1

/-- `TimingClockTicks::PER_FRAME`. -/
def PER_FRAME : Nat := 25 * 1024

/-- `FrameBuffer::Missing`. -/
def Missing : Nat := 1

/-- `_dataDma.free (index)`. -/
def Memory.free (m : Memory) (index : Nat) : Memory := m.dmaRetIndex (.inr index)

/-- `SoftTrigger::check`: the trigger time in the range, negative if there is
none. The remainder by a zero period traps. -/
def SoftTrigger.check (time : Span Nat) (period : Nat) : Except Stop Int :=
  if period = 0 then .error .trap
  else if time.fin % period < time.beg % period then
    let t := time.fin - time.fin % period
    .ok (if t < 2 ^ 63 then t else t - 2 ^ 64)
  else .ok (-1)

/-- The window of a trigger at `t`, in 64-bit arithmetic. -/
def triggerWindow (cfg : Config) (t : Nat) : Span Nat where
  beg := ((t - cfg.pretrigger) % 2 ^ 64).toNat
  fin := ((t + cfg.posttrigger) % 2 ^ 64).toNat

/-- `eventPool.allocate ()`, with the trigger and the window set. Every other
field is set by `seedAndDrain` before it is read. -/
def newEvent (cfg : Config) (alloc t sequence : Nat) : Event where
  id := alloc
  limits := triggerWindow cfg t
  trgTime := t
  trgSequence := sequence
  trgNode := fun _ => none
  trgNpkt := fun _ => 0
  nctbs := 0
  ctbs := 0
  npkts := fun _ => 0

namespace RxState

/-- `postEventAndReset`: check the contributor count and queue the event. `posted` has no end:
the result of the push to `_txReqQueue`, which the code ignores, is taken to be true. -/
def postEventAndReset (s : RxState) (ev : Event) : Except Stop RxState :=
  let ctbs := 3 &&& ~~~ev.ctbs
  if [0, 1, 1, 2][ctbs.toNat]? = some ev.nctbs then
    .ok { s with posted := s.posted ++ [{ ev with ctbs }] }
  else .error .postExit

/-- What follows the completion of an event: no event, and the timing channel
is listened to again. -/
def rearm (s : RxState) : RxState :=
  { s with event := none, trgActive := false, timingSet := true }

/-- `readTimingMsg`: the message, if it starts an event. -/
def readTimingMsg (s : RxState) (tmsg : TimingMsg) : RxState × Option TimingMsg :=
  if !s.blowOffDmaData ∧ s.runMode = .EXTERNAL ∧ tmsg.dest = 0xff then
    let c := { s.counters with triggers := inc32 s.counters.triggers }
    if tmsg.isTrigger then
      let c := { c with trgMsgCnt := inc32 c.trgMsgCnt }
      if !s.trgActive then ({ s with counters := c }, some tmsg)
      else ({ s with counters := { c with disTrgCnt := inc32 c.disTrgCnt } }, none)
    else ({ s with counters := c }, none)
  else (s, none)

/-- The timing half of an iteration. -/
def serviceTiming (bCount : Nat) (s : RxState) (cfg : Config) (alloc : Nat)
    (tmsg : TimingMsg) : Except Stop RxState :=
  match s.readTimingMsg tmsg with
  | (s, none) => .ok s
  | (s, some tmsg) => do
      let ev := newEvent cfg alloc tmsg.timestamp tmsg.sequence
      let (mem, ev, post) ← ev.seedAndDrain (bCount + 1) s.mem 3
      let s := { s with mem }
      if post ≠ 0 then do
        let s ← s.postEventAndReset ev
        .ok s.rearm
      else
        .ok { s with event := some ev, trgActive := true, timingSet := false }

/-- The software trigger, for a packet spanning `time`; the flag says that the
iteration ends here. -/
def softTrigger (bCount : Nat) (s : RxState) (cfg : Config) (alloc : Nat) (time : Span Nat) :
    Except Stop (RxState × Bool) :=
  if s.runMode = .SOFTWARE ∧ s.trgActive = false then do
    let triggerTime ← SoftTrigger.check time cfg.period
    if 0 ≤ triggerTime then
      let ev := newEvent cfg alloc triggerTime.toNat s.softTriggerCnt
      let (mem, ev, post) ← ev.seedAndDrain (bCount + 1) s.mem 3
      let s := { s with mem, softTriggerCnt := inc32 s.softTriggerCnt }
      if post ≠ 0 then do
        let s ← s.postEventAndReset ev
        .ok (s.rearm, true)
      else
        .ok ({ s with event := some ev, trgActive := true }, false)
    else .ok (s, false)
  else .ok (s, false)

/-- The disposition of a packet, once a complete event has been posted. -/
def settle (s : RxState) (index : Nat) (dest : Dest) (action : Nat) : Except Stop RxState :=
  if action &&& ACTION_M_FREE ≠ 0 then
    .ok { s with mem := s.mem.free index }
  else if action &&& ACTION_M_ADDTOLATENCY ≠ 0 then do
    let mem ← LatencyList.replace s.mem dest (.inr index)
    .ok { s with mem }
  else .ok s

/-- The disposition of a good packet, in the buffer `index`. -/
def dispatch (bCount : Nat) (s : RxState) (index : Nat) (dest : Dest) : Except Stop RxState :=
  if s.trgActive then
    match s.event with
    -- the code would call a method of a null pointer
    | none => .error .trap
    | some ev => do
        let (mem, ev, action) ← ev.evaluate (bCount + 1) s.mem (.inr index) dest
        let s := { s with mem, event := some ev }
        if action &&& ACTION_M_POST ≠ 0 then do
          let s ← s.postEventAndReset ev
          s.rearm.settle index dest action
        else s.settle index dest action
  else do
    let mem ← LatencyList.replace s.mem dest (.inr index)
    .ok { s with mem }

/-- Fill in the body of the frame buffer of a good packet. -/
def fillBody (s : RxState) (d : DataMsg) : RxState :=
  let m := s.mem.setTimeRange d.index d.tsRange
  let fb := m.body d.index
  let dt : Int := (d.tsRange.fin - d.tsRange.beg) % 2 ^ 64
  let status := if dt = PER_FRAME then fb.status else fb.status ||| Missing
  let c := s.counters
  { s with
    mem := { m with body := Function.update m.body d.index { fb with status, size := d.rxSize } }
    counters := { c with rxSequence := inc32 c.rxSequence } }

/-- A packet the loop has no objection to. -/
def goodData (bCount : Nat) (s : RxState) (cfg : Config) (alloc : Nat) (d : DataMsg)
    (dest : Dest) : Except Stop RxState := do
  let (s, done) ← (s.fillBody d).softTrigger bCount cfg alloc d.tsRange
  if done then .ok s else s.dispatch bCount d.index dest

/-- The counters of a packet that is looked at. -/
def countPacket (s : RxState) (d : DataMsg) : RxState :=
  let c := s.counters
  { s with counters := { c with
      rxCount := inc32 c.rxCount
      rxTotal := (c.rxTotal + d.rxSize) % 2 ^ 32
      rxSequence := inc32 c.rxSequence } }

/-- The counter of packets with an error. -/
def countError (s : RxState) : RxState :=
  { s with counters := { s.counters with rxErrors := inc32 s.counters.rxErrors } }

def freeBuffer (s : RxState) (index : Nat) : RxState := { s with mem := s.mem.free index }

/-- `select` cleared the timing descriptor: set it again if no trigger is active. -/
def relisten (s : RxState) : RxState :=
  if !s.trgActive then { s with timingSet := true } else s

/-- The data half of an iteration, after the buffer was received. -/
def serviceData (bCount : Nat) (s : RxState) (cfg : Config) (alloc : Nat) (d : DataMsg) :
    Except Stop RxState :=
  if d.dest = 2 then .ok (s.freeBuffer d.index)
  else
    let s := s.relisten
    if h : d.dest < 2 ∧ s.blowOffDmaData = false then
      let s := s.countPacket d
      if d.lastUser &&& TUserEOFE ≠ 0 then .ok (s.countError.freeBuffer d.index)
      else if (d.trailer &&& 0xffffff).toNat ≠ d.rxSize then
        .ok (s.countError.freeBuffer d.index)
      else s.goodData bCount cfg alloc d ⟨d.dest, h.1⟩
    else .ok (s.freeBuffer d.index)

/-- After `select`: the run mode may change between events, and the timing
descriptor is set if it was set and is ready. -/
def select (s : RxState) (inp : RxInput) : RxState :=
  let s := { s with timingSet := s.timingSet && inp.timing.isSome }
  if s.event.isNone then
    { s with runMode := inp.cfg.runMode, blowOffDmaData := inp.cfg.blowOffDmaData }
  else s

/-- The timing half, when the descriptor is set. -/
def timingHalf (bCount : Nat) (s : RxState) (inp : RxInput) : Except Stop RxState :=
  match s.timingSet, inp.timing with
  | true, some tmsg => s.serviceTiming bCount inp.cfg inp.alloc tmsg
  | _, _ => .ok s

/-- The data half, when a packet is ready. -/
def dataHalf (bCount : Nat) (s : RxState) (inp : RxInput) : Except Stop RxState :=
  match inp.data with
  | some d =>
      { s with received := s.received ++ [d.index] }.serviceData bCount inp.cfg inp.alloc d
  | none => .ok s

/-- **One iteration** of the loop. When nothing is ready `select` has failed. -/
def rxIter (bCount : Nat) (s : RxState) (inp : RxInput) : Except Stop RxState :=
  if (s.timingSet && inp.timing.isSome) || inp.data.isSome then do
    let s ← (s.select inp).timingHalf bCount inp
    s.dataHalf bCount inp
  else .ok s

/-- The state in which the loop is entered: both latency lists empty. -/
def start (body : Nat → FrameBuffer) (cfg : Config) : RxState where
  mem :=
    { links := ⟨id, id⟩
      body
      remaining := fun _ => LatencyList.Depth
      returned := [] }
  event := none
  trgActive := false
  timingSet := true
  runMode := cfg.runMode
  blowOffDmaData := cfg.blowOffDmaData
  softTriggerCnt := 0
  counters := ⟨0, 0, 0, 0, 0, 0, 0⟩
  posted := []
  received := []

end RxState

end ProtoDune.Daq
