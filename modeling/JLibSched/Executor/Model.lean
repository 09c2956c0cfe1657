import JLibSched.Fiber.Handshake
import JLibSched.Task.Basic

/-!
# How a task runs and ends

The life of one task: it is queued, an executor takes it, discards it if it was cancelled before
it started, or runs its body, which may suspend and be resumed.  In the end `Done` is called on its
group and `FreeTask` on the task.  Who does that depends on the type: a coroutine's promise, the
executor that a fiber returns to, or the executor that called a native body.

The executors are the worker loop, spin-help (`TryRunStolenNativeTask`), and main out of the pool,
which takes its tasks from `mainQ` (`RunMainTask`) and hands those with a fiber to `RunHelped`.
Each access to the task is a step.  Other tasks and what else an executor does are left out.
-/

namespace JLibSched.Executor

open JLibSched.Fiber (Status)

/-- What is fixed for a run. -/
structure Setup where
  type : TaskType
  /-- The task has a group. -/
  waitGroup : Bool
  /-- The promise of a coroutine has an external node. -/
  dagNode : Bool
  /-- `MainMode::OutOfPool`. -/
  outOfPool : Bool
  /-- `Mode::Pinned`. -/
  pinForced : Bool
  workers : Nat

/-- `Pin`. -/
inductive Pin where
  | none
  | current
  | main
  | thread (worker : Nat)
deriving DecidableEq, Repr

/-- `TaskRecord::pinTo`. -/
inductive PinTo where
  | noPin
  | main
  | worker (index : Nat)
deriving DecidableEq, Repr

/-- Where the task is. -/
inductive Loc where
  | unborn
  /-- A deque, a normal inbox or the injector. -/
  | shared
  /-- The hi-pri inbox of a worker. -/
  | inbox (worker : Nat)
  | mainQ
  /-- With an executor. -/
  | hand
  /-- Suspended, and registered with whoever will wake it. -/
  | waiting
  /-- With a waker that puts it into a queue. -/
  | placing
  /-- After `FreeTask`. -/
  | gone
deriving DecidableEq, Repr

/-- What an executor is. -/
inductive Role where
  | worker (index : Nat)
  /-- `TryRunStolenNativeTask`, on a thread of the pool or not. -/
  | spinHelp (index : Option Nat)
  /-- `RunOneMainTask` or `ProcessMainThread`, out of the pool. -/
  | runMain
deriving DecidableEq, Repr

inductive Body where
  | fresh
  | running
  | suspended
  | finished
deriving DecidableEq, Repr

/-- What an executor is doing with the task. -/
inductive Pc where
  | idle
  /-- It has taken the task, before `DiscardIfCancelled`. -/
  | taken (by' : Role)
  /-- `DiscardIfCancelled` before `Done`. -/
  | discarding
  /-- `DiscardIfCancelled` before `FreeTask`. -/
  | discardFree
  /-- After `DiscardIfCancelled`. -/
  | passed (by' : Role)
  /-- The body runs on the executor's stack. -/
  | onStack (by' : Role)
  /-- The body runs on a fiber. -/
  | onFiber (by' : Role)
  /-- The fiber has announced that it leaves, and is about to switch. -/
  | leaving
  /-- `OnFiberReturned`. -/
  | returned
  /-- `OnFiberReturned` of a dead fiber, after `Done`. -/
  | releasing
  /-- `Complete` of a coroutine before `Done`, `FreeTask`, `SignalExternalNode` and its end. -/
  | completing (by' : Role)
  | completeFree (by' : Role)
  | completeSignal (by' : Role)
  | completed (by' : Role)
  /-- After a body that the executor has to end: before `Done` and before `FreeTask`. -/
  | executed
  | freeing
deriving DecidableEq, Repr

/-- What has been done with the task. -/
structure Ledger where
  /-- How often `Done`, `FreeTask` and `SignalExternalNode` were called, and the coroutine's frame
  destroyed. -/
  dones : Nat
  frees : Nat
  signals : Nat
  destroyed : Nat
  /-- `DiscardIfCancelled` discards the task. -/
  discarded : Bool
  /-- An executor has accessed the task after `FreeTask`. -/
  touched : Bool
deriving DecidableEq, Repr

structure State (n : Nat) where
  loc : Loc
  pc : Fin n → Pc
  started : Bool
  pinTo : PinTo
  /-- The status of `TaskRecord::fiber`. -/
  fiber : Option Status
  body : Body
  ledger : Ledger

def initial {n : Nat} : State n where
  loc := .unborn
  pc := fun _ => .idle
  started := false
  pinTo := .noPin
  fiber := none
  body := .fresh
  ledger := ⟨0, 0, 0, 0, false, false⟩

/-- What a body does next. -/
inductive Act where
  | finish
  | suspend (pin : Pin)
  | yield (pin : Pin)
deriving DecidableEq, Repr

inductive Label (n : Nat) where
  | push
  | pushMain
  | take (e : Fin n) (by' : Role)
  /-- An executor goes on; `cancelled` is what `IsTaskCancelled` answers. -/
  | advance (e : Fin n) (cancelled : Bool)
  /-- A reserved worker gives a stolen task back. -/
  | giveBack (e : Fin n)
  /-- There is no fiber for the task. -/
  | noFiber (e : Fin n)
  | body (e : Fin n) (act : Act)
  /-- `Fiber::Resume`, or the wake of a coroutine. -/
  | resume
  /-- A waker puts the task into a queue. -/
  | place
deriving DecidableEq, Repr

variable {n : Nat}

/-! ## Steps -/

/-- `StampPin`, on a thread that is worker `self` of the pool or none. -/
def stampPin (c : Setup) (self : Option Nat) (pin : Pin) : PinTo :=
  match if c.pinForced ∧ pin ≠ .main then .current else pin with
  | .none => .noPin
  | .main => .main
  | .current =>
    match self with
    | some worker => .worker worker
    | none => .noPin
  | .thread worker => if worker < c.workers then .worker worker else .noPin

/-- The worker a role belongs to. -/
def Role.self : Role → Option Nat
  | .worker index => some index
  | .spinHelp index => index
  | .runMain => none

/-- `PushMainQueue`. -/
def mainQueue (c : Setup) : Loc := if c.outOfPool then .mainQ else .inbox 0

/-- Where `ResumeFiber`, `YieldFiber` and `Requeue` put a task. -/
def placeOf (c : Setup) : PinTo → Loc
  | .noPin => .shared
  | .main => mainQueue c
  | .worker index => .inbox index

/-- What an executor of the role takes its tasks from. -/
def Takes (c : Setup) : Role → Loc → Prop
  | .worker index, loc => loc = .shared ∨ loc = .inbox index
  | .spinHelp _, loc => loc = .shared ∧ c.type = .coroutine
  | .runMain, loc => loc = .mainQ

instance (c : Setup) : (role : Role) → (loc : Loc) → Decidable (Takes c role loc)
  | .worker index, loc => inferInstanceAs (Decidable (loc = .shared ∨ loc = .inbox index))
  | .spinHelp _, loc => inferInstanceAs (Decidable (loc = .shared ∧ c.type = .coroutine))
  | .runMain, loc => inferInstanceAs (Decidable (loc = .mainQ))

/-- An executor goes on at `pc`. -/
def State.go (s : State n) (e : Fin n) (pc : Pc) : State n :=
  { s with pc := Function.update s.pc e pc }

/-- An executor accesses the task. -/
def Ledger.touch (l : Ledger) : Ledger := { l with touched := l.touched || decide (0 < l.frees) }

def State.touch (s : State n) : State n := { s with ledger := s.ledger.touch }

/-- `Done` on the group of the task, if it has one. -/
def State.done (c : Setup) (s : State n) : State n :=
  { s with ledger := { s.ledger.touch with dones := s.ledger.dones + c.waitGroup.toNat } }

/-- `FreeTask`. -/
def State.free (s : State n) : State n :=
  { s with
    ledger := { s.ledger.touch with frees := s.ledger.frees + 1 }
    loc := .gone }

/-- `SignalExternalNode` on the node of the coroutine, if it has one. -/
def State.signal (c : Setup) (s : State n) : State n :=
  { s with ledger := { s.ledger with signals := s.ledger.signals + c.dagNode.toNat } }

/-- The frame of the coroutine is destroyed. -/
def State.destroy (s : State n) : State n :=
  { s with ledger := { s.ledger with destroyed := s.ledger.destroyed + 1 } }

/-- `DiscardIfCancelled` finds the task cancelled. -/
def State.discard (s : State n) : State n :=
  { s with ledger := { s.ledger.touch with discarded := true } }

/-- The executor goes on after the body of a coroutine has suspended or finished: `RunMainTask`
ends the task, the others leave it alone. -/
def Role.afterCoroutine : Role → Pc
  | .runMain => .executed
  | .worker _ | .spinHelp _ => .idle

/-- From `DiscardIfCancelled` to the body. -/
def enter (c : Setup) (s : State n) (e : Fin n) (role : Role) : State n :=
  let s := s.touch
  match role with
  | .runMain =>
    if s.started ∧ s.fiber.isSome then
      { s.go e (.onFiber .runMain) with fiber := some .running, body := .running }
    else { s.go e (.onStack .runMain) with body := .running }
  | .worker _ | .spinHelp _ =>
    match c.type with
    | .coroutine | .native => { s.go e (.onStack role) with started := true, body := .running }
    | .fiber =>
      { s.go e (.onFiber role) with
        started := true, fiber := some .running, body := .running }

/-- `OnFiberReturned`. -/
def onFiberReturned (c : Setup) (s : State n) (e : Fin n) : State n :=
  match s.fiber with
  | some .dead => (s.done c).go e .releasing
  | some .wantsYield =>
    { s.touch.go e .idle with fiber := some .ready, loc := placeOf c s.pinTo }
  | some .wantsSuspend => { s.go e .idle with fiber := some .suspended, loc := .waiting }
  | some .suspendSignaled =>
    { s.touch.go e .idle with fiber := some .ready, loc := placeOf c s.pinTo }
  | _ => s.go e .idle

def advance (c : Setup) (s : State n) (e : Fin n) (cancelled : Bool) : Option (State n) :=
  match s.pc e with
  | .taken role =>
    some (if !s.started && cancelled then s.discard.go e .discarding
      else s.touch.go e (.passed role))
  | .discarding => some ((s.done c).go e .discardFree)
  | .discardFree => some (s.free.go e .idle)
  | .passed role => some (enter c s e role)
  | .leaving => some (s.go e .returned)
  | .returned => some (onFiberReturned c s e)
  | .releasing => some { s.free.go e .idle with fiber := none }
  | .completing role => some ((s.done c).go e (.completeFree role))
  | .completeFree role => some (s.free.go e (.completeSignal role))
  | .completeSignal role => some ((s.signal c).go e (.completed role))
  | .completed role => some (s.destroy.go e role.afterCoroutine)
  | .executed => some ((s.done c).go e .freeing)
  | .freeing => some (s.free.go e .idle)
  | .idle | .onStack _ | .onFiber _ => none

/-- The body of the task, which executor `e` runs, takes its next action. -/
def bodyStep (c : Setup) (s : State n) (e : Fin n) (act : Act) : Option (State n) :=
  match s.pc e, act with
  | .onFiber _, .finish =>
    some { s.touch.go e .leaving with fiber := some .dead, body := .finished }
  | .onFiber role, .suspend pin =>
    some { s.touch.go e .leaving with
      pinTo := stampPin c role.self pin, fiber := some .wantsSuspend, body := .suspended }
  | .onFiber role, .yield pin =>
    some { s.touch.go e .leaving with
      pinTo := stampPin c role.self pin, fiber := some .wantsYield, body := .suspended }
  | .onStack role, .finish =>
    some { s.touch.go e (if c.type = .coroutine then .completing role else .executed) with
      body := .finished }
  | .onStack role, .suspend pin =>
    -- `ArmResume`, and the awaiter registers the task
    if c.type = .coroutine then
      some { s.touch.go e role.afterCoroutine with
        pinTo := stampPin c role.self pin, body := .suspended, loc := .waiting }
    else none
  | _, _ => none

/-- A waker calls `Fiber::Resume`, or wakes a coroutine. -/
def resume (c : Setup) (s : State n) : Option (State n) :=
  match c.type with
  | .coroutine => if s.loc = .waiting then some { s with loc := .placing } else none
  | .native => none
  | .fiber =>
    match s.fiber with
    | some .suspended => some { s with fiber := some .ready, loc := .placing }
    | some .wantsSuspend => some { s with fiber := some .suspendSignaled }
    | _ => some s

def step (c : Setup) (s : State n) : Label n → Option (State n)
  | .push => if s.loc = .unborn then some { s with loc := .shared } else none
  | .pushMain => if s.loc = .unborn then some { s with loc := mainQueue c } else none
  | .take e role =>
    if s.pc e = .idle ∧ Takes c role s.loc then some { s.go e (.taken role) with loc := .hand }
    else none
  | .advance e cancelled => advance c s e cancelled
  | .giveBack e =>
    match s.pc e with
    | .passed (.worker _) => some { s.touch.go e .idle with loc := placeOf c s.pinTo }
    | _ => none
  | .noFiber e =>
    match s.pc e with
    | .passed (.worker index) =>
      if c.type = .fiber ∧ s.fiber = none then
        -- main in the pool is worker 0 and gives the task back to itself
        some { s.touch.go e .idle with
          started := true
          loc := if c.outOfPool = false ∧ index = 0 then mainQueue c else placeOf c s.pinTo }
      else none
    | _ => none
  | .body e act => bodyStep c s e act
  | .resume => resume c s
  | .place =>
    if s.loc = .placing then
      -- `WakeTask`
      some { s with loc := if s.started then placeOf c s.pinTo else .shared }
    else none

end JLibSched.Executor
