import JLibSched.Lib.Transition
import JLibSched.Timer.Wheel

/-!
# The timer queue

Every section under the timer mutex is one step: `Arm`, `Disarm`, `Periodic::Start`,
`Periodic::Cancel`, the sections of `RunPeriodic` and `FinishPeriodic`, a round of the timer
thread's loop up to its wait or to the point where `FireStepLocked` drops the lock, and the same
for a worker's `PollFire`.  What `FireStepLocked` has collected is then in the hands of its
thread until that takes the lock again.  The timer thread keeps the lock between two rounds
when the first collected nothing; here others may come in between, which only adds runs.

The clock is read several times in a section.  A label says how much time passes before each
reading, so that time never runs backwards.  Times count from `epochNs`.

`Disarm` may be given any handle but one of a periodic: those are never handed out.  A handle that
`Arm` has returned becomes one only when its entry was reused `2 ^ 31` times since (`timers_end_once`
says that none does before), and that wrap is left out.
-/

namespace JLibSched.Timer

open Transition

/-- `tickNs`. -/
def tickNs : Nat := 1000000

/-- `kBatch`. -/
def kBatch : Nat := 64

/-- `TickFor`: rounded up. -/
def tickFor (ns : Nat) : Nat := (ns + tickNs - 1) / tickNs

/-- `PeriodicRecord`.  `runs` is the count of its wait group. -/
structure PeriodicRecord where
  interval : Nat
  due : Nat
  totalSkipped : Nat
  runs : Nat
  entry : Option Nat
  pendingSkipped : Nat
  inFlight : Bool
  cancelled : Bool
deriving DecidableEq, Repr

/-- The grid points of a record that have passed beyond `due`. -/
def PeriodicRecord.passed (x : PeriodicRecord) (now : Nat) : Nat := (now - x.due) / x.interval

/-- The first grid point still ahead. -/
def PeriodicRecord.nextDue (x : PeriodicRecord) (now : Nat) : Nat :=
  x.due + (x.passed now + 1) * x.interval

/-- The grid points a fire skips: those that have passed, and its own when an instance is in
flight. -/
def PeriodicRecord.skips (x : PeriodicRecord) (now : Nat) : Nat := x.passed now + x.inFlight.toNat

/-- What a fire does to the record. -/
def PeriodicRecord.fire (x : PeriodicRecord) (now : Nat) : PeriodicRecord :=
  { x with
    inFlight := true
    runs := if x.inFlight then x.runs else x.runs + 1
    pendingSkipped := x.pendingSkipped + x.skips now
    totalSkipped := x.totalSkipped + x.skips now
    due := x.nextDue now }

/-- The tick the timer thread sleeps toward. -/
inductive Sleep where
  | awake
  | until (tick : Nat)
  | forever
deriving DecidableEq, Repr

/-- What a fire step has collected. -/
structure Batch where
  ejects : List Eject
  fired : List Nat
deriving DecidableEq, Repr

structure State where
  wheel : Wheel
  record : Nat → PeriodicRecord
  records : Nat
  running : Bool
  sleepUntil : Sleep
  /-- A notification is pending for the timer thread. -/
  notified : Bool
  /-- `g_timerGateNs`. -/
  gate : Option Nat
  /-- The batches that the timer thread and the workers dispatch with the lock dropped. -/
  dispatching : Option Batch
  workers : List Batch
  /-- The clock. -/
  now : Nat

def initial : State where
  wheel := .empty
  record := fun _ => ⟨0, 0, 0, 0, none, 0, false, false⟩
  records := 0
  running := false
  sleepUntil := .awake
  notified := false
  gate := none
  dispatching := none
  workers := []
  now := 0

namespace State

/-- Time passes. -/
def pass (s : State) (ns : Nat) : State := { s with now := s.now + ns }

/-- `NowTick`. -/
def nowTick (s : State) : Nat := s.now / tickNs

/-- `PublishGateLocked`. -/
def publishGate (s : State) : State :=
  { s with gate := s.wheel.nextEventTick.map (· * tickNs) }

def setRecord (s : State) (r : Nat) (f : PeriodicRecord → PeriodicRecord) : State :=
  { s with record := Function.update s.record r (f (s.record r)) }

/-- `NextEventTick() < sleepUntil`, where the one may be minus one. -/
def wakes (next : Option Nat) : Sleep → Bool
  | .awake => false
  | .until tick => match next with
      | none => true
      | some next => next < tick
  | .forever => true

/-- The end of `Arm` and of `Periodic::Start`: wake the sleeper if its next event is earlier. -/
def notify (s : State) : State :=
  { s with notified := s.notified || wakes s.wheel.nextEventTick s.sleepUntil }

/-! ## `Arm` and `Disarm` -/

/-- A new entry on the wheel, and its index. -/
def insert (w : Wheel) (deadlineTick : Nat) (fill : Entry → Entry) : Wheel × Nat :=
  match w.acquireEntry with
  | (w, i) =>
    ({ (w.modify i fun e => { fill (Wheel.bump e) with deadlineTick := deadlineTick }).place i
        deadlineTick with armedCount := w.armedCount + 1 }, i)

/-- The deadline of an arm: its own time rounded up to a tick. -/
def deadlineFor (s : State) (gap : Nat) (delayNs : Int) : Nat :=
  if 0 < delayNs then tickFor (s.now + gap + delayNs.toNat) else s.nowTick

/-- `Arm`, with the time that passes before its first and its second look at the clock.  The
handle is an index and a generation. -/
def arm (s : State) (wait gap : Nat) (delayNs : Int) (eject : Eject) :
    State × Option (Nat × Nat) :=
  if eject.token = none then (s, none)
  else
    let s := s.pass wait
    let r := insert (s.wheel.advanceTo s.nowTick) (s.deadlineFor gap delayNs) fun e =>
      { e with eject := eject }
    ({ s.pass (if 0 < delayNs then gap else 0) with
        running := true, wheel := r.1 }.notify.publishGate,
      some (r.2, (r.1.entries r.2).generation))

/-- `Disarm`. -/
def disarm (s : State) (index generation : Nat) : State × Bool :=
  if s.wheel.size ≤ index then (s, false)
  else if (s.wheel.entries index).generation ≠ generation ∨ generation % 2 = 0 then (s, false)
  else ({ s with wheel := s.wheel.disarm index }.publishGate, true)

/-! ## Periodic tasks -/

/-- The interval of a record: at least one tick. -/
def intervalFor (intervalNs : Int) : Nat :=
  if intervalNs < tickNs then tickNs else intervalNs.toNat

/-- The first grid point. -/
def firstDue (s : State) (interval : Nat) (firstDelayNs : Int) : Nat :=
  s.now + (if firstDelayNs < 0 then interval else firstDelayNs.toNat)

/-- `Periodic::Start`, once the record has its interval and its first grid point. -/
def startRecord (s : State) (interval due : Nat) : State :=
  let r := insert (s.wheel.advanceTo s.nowTick) (tickFor due) fun e =>
    { e with periodic := some s.records }
  { s with
    running := true
    wheel := r.1
    record := Function.update s.record s.records ⟨interval, due, 0, 0, some r.2, 0, false, false⟩
    records := s.records + 1 }.notify.publishGate

/-- `Periodic::Start`. -/
def start (s : State) (wait gap : Nat) (intervalNs firstDelayNs : Int) : State :=
  if intervalNs ≤ 0 then s
  else ((s.pass wait).pass gap).startRecord (intervalFor intervalNs)
    ((s.pass wait).firstDue (intervalFor intervalNs) firstDelayNs)

/-- `CancelPeriodicLocked`. -/
def cancelPeriodic (s : State) (r : Nat) : State :=
  match (s.record r).entry with
  | none => s.setRecord r fun x => { x with cancelled := true }
  | some i =>
    { s.setRecord r fun x => { x with cancelled := true, entry := none } with
      wheel := s.wheel.disarm i }

/-- `Periodic::Cancel`. -/
def cancel (s : State) (r : Nat) : State := (s.cancelPeriodic r).publishGate

/-- `FirePeriodicLocked`: the entry moves to the next grid point, and whether an instance must
be launched. -/
def firePeriodic (s : State) (i r : Nat) : State × Bool :=
  ({ s.setRecord r (·.fire s.now) with
    wheel := s.wheel.refire i (tickFor ((s.record r).nextDue s.now)) }, !(s.record r).inFlight)

/-- The section of `RunPeriodic`. -/
def takeSkipped (s : State) (r : Nat) : State :=
  s.setRecord r fun x => { x with pendingSkipped := 0 }

/-- The section of `FinishPeriodic`. -/
def finishPeriodic (s : State) (r : Nat) (stop : Bool) : State :=
  (if stop then s.cancelPeriodic r else s).setRecord r fun x =>
    { x with inFlight := false, runs := x.runs - 1 }

/-! ## Firing -/

/-- The locals of the loop in `FireStepLocked`, and the times between its looks at the clock. -/
structure Collecting where
  state : State
  batch : Batch
  gaps : List Nat

/-- The loop's body for one entry, unless the batch is full. -/
def Collecting.visit (c : Collecting) (i : Nat) : Collecting :=
  if c.batch.ejects.length + c.batch.fired.length ≥ kBatch then c
  else if (c.state.wheel.entries i).deadlineTick ≤ c.state.wheel.currentTick then
    match (c.state.wheel.entries i).periodic with
    | some r =>
      let fired := (c.state.pass (c.gaps.headD 0)).firePeriodic i r
      { state := fired.1
        batch := if fired.2 then { c.batch with fired := c.batch.fired ++ [r] } else c.batch
        gaps := c.gaps.tail }
    | none =>
      { c with
        state := { c.state with wheel := c.state.wheel.disarm i }
        batch := { c.batch with
          ejects := c.batch.ejects ++ [(c.state.wheel.entries i).eject] } }
  else c

/-- The loop over the current slot of level zero. -/
def collect (s : State) (gaps : List Nat) : Collecting :=
  (s.wheel.heads 0 (s.wheel.currentTick % slots)).foldl Collecting.visit ⟨s, ⟨[], []⟩, gaps⟩

/-- `FireStepLocked` up to where it drops the lock. -/
def fireStep (s : State) (next : Nat) (gaps : List Nat) : State × Option Batch :=
  let c := { s with wheel := s.wheel.advanceTo next }.collect gaps
  if c.batch.ejects = [] ∧ c.batch.fired = [] then
    ({ c.state with
        wheel := { c.state.wheel with currentTick := c.state.wheel.currentTick + 1 } }.publishGate,
      none)
  else (c.state, some c.batch)

/-- A round of `Run`. -/
def run (s : State) (gaps : List Nat) : State :=
  match s.wheel.nextEventTick with
  | none =>
    { s with wheel := { s.wheel with currentTick := s.nowTick }, sleepUntil := .forever }
  | some next =>
    if s.nowTick < next then { s with sleepUntil := .until next }
    else
      let fired := s.fireStep next gaps
      { fired.1 with dispatching := fired.2 }

/-- `PollFire`. -/
def pollFire (s : State) (gaps : List Nat) : State × Bool :=
  match s.wheel.nextEventTick with
  | none => (s.publishGate, false)
  | some next =>
    if s.nowTick < next then (s.publishGate, false)
    else
      let fired := s.fireStep next gaps
      ({ fired.1 with workers := fired.2.toList ++ s.workers }, true)

end State

/-! ## The system -/

inductive Label where
  | arm (wait gap : Nat) (delayNs : Int) (eject : Eject)
  | disarm (index generation : Nat)
  | start (wait gap : Nat) (intervalNs firstDelayNs : Int)
  | cancel (r : Nat)
  | takeSkipped (r : Nat)
  | finish (r : Nat) (stop : Bool)
  /-- A round of the timer thread. -/
  | run (wait : Nat) (gaps : List Nat)
  /-- The timer thread's wait returns. -/
  | wake
  /-- The timer thread has dispatched its batch. -/
  | dispatched
  | pollFire (wait : Nat) (gaps : List Nat)
  /-- A worker has dispatched its batch. -/
  | pollDispatched (k : Nat)
deriving DecidableEq, Repr

def step (s : State) : Label → Option State
  | .arm wait gap delayNs eject => some (s.arm wait gap delayNs eject).1
  | .disarm index generation =>
    -- no handle of a periodic, and none that has come round to one
    if (s.wheel.entries index).generation = generation ∧ generation % 2 = 1 ∧
        (s.wheel.entries index).periodic ≠ none then none
    else some (s.disarm index generation).1
  | .start wait gap intervalNs firstDelayNs => some (s.start wait gap intervalNs firstDelayNs)
  | .cancel r => if r < s.records then some (s.cancel r) else none
  | .takeSkipped r =>
    if r < s.records ∧ (s.record r).inFlight then some (s.takeSkipped r) else none
  | .finish r stop =>
    if r < s.records ∧ (s.record r).inFlight then some (s.finishPeriodic r stop) else none
  | .run wait gaps =>
    if s.running ∧ s.sleepUntil = .awake ∧ s.dispatching = none then
      some ((s.pass wait).run gaps)
    else none
  | .wake =>
    if s.sleepUntil = .awake then none
    else some { s with sleepUntil := .awake, notified := false }
  | .dispatched =>
    if s.dispatching = none then none
    else some ({ s with dispatching := none }).publishGate
  | .pollFire wait gaps => some ((s.pass wait).pollFire gaps).1
  | .pollDispatched k =>
    if k < s.workers.length then some ({ s with workers := s.workers.eraseIdx k }).publishGate
    else none

end JLibSched.Timer
