import JLibSched.Timer.Steps

/-!
# What the timer queue has done

The timer queue with a log of what its sections have done, which no step looks at.  `FireStepLocked`
takes the entries one after another, and `visitEvents` says what each visit comes to.

An instance of a periodic begins when a fire launches it.  `LaunchPeriodic` may fail; otherwise
`RunPeriodic` takes the skipped count, calls the function, and ends in `FinishPeriodic`.
-/

namespace JLibSched.History

open Transition Timer Wheel

inductive Event where
  /-- `Arm` has returned the handle; the clock reading of the deadline, and the delay. -/
  | armed (index generation reading : Nat) (delayNs : Int)
  | disarmed (index generation : Nat) (result : Bool)
  /-- `FireStepLocked` has collected the entry. -/
  | collected (index generation now : Nat)
  | started (r index due interval : Nat)
  /-- `FirePeriodicLocked` for the grid point `due`, with its clock reading and what it returned. -/
  | fired (r due now : Nat) (launch : Bool)
  /-- `RunPeriodic` has taken the skipped count. -/
  | took (r skipped : Nat)
  | finished (r : Nat)
deriving DecidableEq, Repr

/-- The entry is taken for an arm or for a periodic. -/
def Event.acquires (i : Nat) : Event → Bool
  | .armed j _ _ _ | .started _ j _ _ => i = j
  | _ => false

/-! ## Events of the sections -/

/-- The visit of one entry. -/
def visitEvent (c : Timer.State.Collecting) (i : Nat) : List Event :=
  if c.batch.ejects.length + c.batch.fired.length ≥ kBatch then []
  else if (c.state.wheel.entries i).deadlineTick ≤ c.state.wheel.currentTick then
    match (c.state.wheel.entries i).periodic with
    | some r =>
      [.fired r (c.state.record r).due (c.state.now + c.gaps.headD 0) !(c.state.record r).inFlight]
    | none => [.collected i (c.state.wheel.entries i).generation c.state.now]
  else []

def visitEvents : List Nat → Timer.State.Collecting → List Event
  | [], _ => []
  | i :: rest, c => visitEvent c i ++ visitEvents rest (c.visit i)

/-- The loop of `FireStepLocked`. -/
def collectEvents (t : Timer.State) (gaps : List Nat) : List Event :=
  visitEvents (t.wheel.heads 0 (t.wheel.currentTick % slots)) ⟨t, ⟨[], []⟩, gaps⟩

/-- A round of `Run`, and `PollFire`. -/
def roundEvents (t : Timer.State) (gaps : List Nat) : List Event :=
  match t.wheel.nextEventTick with
  | none => []
  | some next =>
    if t.nowTick < next then [] else collectEvents { t with wheel := t.wheel.advanceTo next } gaps

def armEvents (t : Timer.State) (wait gap : Nat) (delayNs : Int) (eject : Eject) : List Event :=
  match (t.arm wait gap delayNs eject).2 with
  | none => []
  | some (index, generation) =>
    [.armed index generation (t.now + wait + if 0 < delayNs then gap else 0) delayNs]

def startEvents (t : Timer.State) (wait gap : Nat) (intervalNs firstDelayNs : Int) : List Event :=
  if intervalNs ≤ 0 then []
  else
    let interval := State.intervalFor intervalNs
    let due := (t.pass wait).firstDue interval firstDelayNs
    let t := (t.pass wait).pass gap
    [.started t.records (State.insert (t.wheel.advanceTo t.nowTick) (tickFor due) id).2 due interval]

/-- What a section of the timer queue comes to. -/
def events (t : Timer.State) : Timer.Label → List Event
  | .arm wait gap delayNs eject => armEvents t wait gap delayNs eject
  | .disarm index generation => [.disarmed index generation (t.disarm index generation).2]
  | .start wait gap intervalNs firstDelayNs => startEvents t wait gap intervalNs firstDelayNs
  | .run wait gaps | .pollFire wait gaps => roundEvents (t.pass wait) gaps
  | .cancel _ | .takeSkipped _ | .finish _ _ | .wake | .dispatched | .pollDispatched _ => []

/-! ## The system -/

/-- An instance, and whether `RunPeriodic` has taken the skipped count. -/
structure Instance where
  record : Nat
  begun : Bool
deriving DecidableEq, Repr

/-- The instance that an event launches. -/
def Event.launches : Event → Option Instance
  | .fired r _ _ true => some ⟨r, false⟩
  | _ => none

def launched (es : List Event) : List Instance := es.filterMap Event.launches

structure State where
  timer : Timer.State
  log : List Event
  instances : List Instance

def initial : State := ⟨Timer.initial, [], []⟩

inductive Label where
  /-- A section of the timer queue other than those of an instance. -/
  | timer (a : Timer.Label)
  /-- An instance comes to the section of `RunPeriodic`. -/
  | begins (k : Nat)
  /-- Its function has returned, or it found itself cancelled, and `FinishPeriodic` runs. -/
  | ends (k : Nat) (stop : Bool)
  /-- `LaunchPeriodic` has no task for it. -/
  | fails (k : Nat)
deriving DecidableEq, Repr

def isInstance : Timer.Label → Bool
  | .takeSkipped _ | .finish _ _ => true
  | _ => false

def step (s : State) : Label → Option State
  | .timer a =>
    if isInstance a then none
    else (Timer.step s.timer a).map fun t =>
      { timer := t
        log := s.log ++ events s.timer a
        instances := s.instances ++ launched (events s.timer a) }
  | .begins k =>
    match s.instances[k]? with
    | some ⟨r, false⟩ => some {
        timer := s.timer.takeSkipped r
        log := s.log ++ [.took r (s.timer.record r).pendingSkipped]
        instances := s.instances.set k ⟨r, true⟩ }
    | _ => none
  | .ends k stop =>
    match s.instances[k]? with
    | some ⟨r, true⟩ => some {
        timer := s.timer.finishPeriodic r stop
        log := s.log ++ [.finished r]
        instances := s.instances.eraseIdx k }
    | _ => none
  | .fails k =>
    match s.instances[k]? with
    | some ⟨r, false⟩ => some {
        timer := s.timer.finishPeriodic r false
        log := s.log ++ [.finished r]
        instances := s.instances.eraseIdx k }
    | _ => none

end JLibSched.History
