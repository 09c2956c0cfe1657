import JLibSched.Wait.Cancellation

/-!
# `SchedulerSemaphore`

A wait that finds a permit takes it; any other fiber or coroutine joins the queue.  `Signal` serves
the oldest waiter, and banks its permit when nobody waits.  Cancellable waits test their token
before the section and again in it, before they join.

Each section under `spinLock` is one step, and a result is written and its waiter woken in one.
What counts permits and waits beside `permits` (`signals`, `dropped`, `acquired`, `unpaid`), and
`history`, is kept for what is proved: no step looks at it.
-/

namespace JLibSched.Semaphore

open Transition WaitQueue Cancel Wait

inductive Place where
  | idle
  /-- `Wait` of a thread without a fiber: it tries again and again. -/
  | spin
  /-- `WaitCancellable` or `AcquireAwaiterCancellable` after the first token test. -/
  | checked
  /-- `WaitCancellable` of a thread without a fiber. -/
  | tryOrTest
  | tokenTest
  | signalTest
  | signalSkip
  | signalGrant
  /-- A `Signal` that has woken a cancelled waiter and looks on. -/
  | signalAgain
  | cancelWaiters
deriving DecidableEq, Repr

def desk : Desk Place where
  test := .signalTest
  skip := .signalSkip
  grant := .signalGrant
  again := .signalAgain
  done := .idle
  sweep := .cancelWaiters
  test_skip := by decide
  test_grant := by decide
  skip_grant := by decide

abbrev Pc (n : Nat) := Wait.Pc n Place

structure State (n : Nat) where
  line : Queue n Place
  permits : Int
  tasks : Tasks n
  signals : Nat
  /-- Signals that found `permits` at `maxPermits`. -/
  dropped : Nat
  /-- Waits that returned as acquired. -/
  acquired : Nat
  /-- Those of them that took no permit and were granted none. -/
  unpaid : Nat
  history : History n

def initial {n : Nat} (permits : Int) (tasks : Tasks n) : State n where
  line := .empty .idle
  permits := permits
  tasks := tasks
  signals := 0
  dropped := 0
  acquired := 0
  unpaid := 0
  history := .none n

inductive Label (n : Nat) where
  /-- `Wait` of a fiber. -/
  | wait (p : Fin n)
  /-- `Wait` of a thread without a fiber. -/
  | waitBare (p : Fin n)
  /-- The first token test of `WaitCancellable` and of `AcquireAwaiterCancellable`. -/
  | waitCancellable (p : Fin n)
  /-- After it, the section of a fiber, or `WaitAsyncEnqueue` with a result. -/
  | enqueue (p : Fin n)
  /-- After it, the loop of a thread without a fiber. -/
  | cancellableBare (p : Fin n)
  /-- `AcquireAwaiter`: `WaitAsyncEnqueue` without a result. -/
  | acquireAsync (p : Fin n)
  | tryWait (p : Fin n)
  | signal (p : Fin n)
  /-- `CancelWaiters`, for one scope or for all waiters. -/
  | cancelWaiters (p : Fin n) (tok : Nat)
  /-- A call takes its next step. -/
  | advance (p : Fin n)
  /-- Scopes are opened, cancelled and closed, and tasks change. -/
  | tasks (tasks : Tasks n)

variable {n : Nat}

/-! ## Steps -/

def State.go (s : State n) (p : Fin n) (place : Place) : State n :=
  { s with line := s.line.set p (.stands place) }

/-- A wait takes a permit and returns. -/
def State.acquire (s : State n) (p : Fin n) : State n :=
  { s.go p .idle with permits := s.permits - 1, acquired := s.acquired + 1 }

/-- `Try_Wait`, and where the party goes on without a permit. -/
def State.tryWait (s : State n) (p : Fin n) (failed : Place) : State n :=
  if s.permits > 0 then s.acquire p else s.go p failed

/-- The section of `Wait`. -/
def State.wait (s : State n) (p : Fin n) : State n :=
  if s.permits > 0 then s.acquire p else { s with line := s.line.join p ⟨false, kNone⟩ }

/-- `WaitAsyncEnqueue`, and the section of `WaitCancellable`, which has a result. -/
def State.waitAsyncEnqueue (s : State n) (p : Fin n) (result : Bool) : State n :=
  if s.permits > 0 then s.acquire p
  else if s.tasks.isTaskCancelled p then
    -- without a result the caller takes this for a permit
    if result then s.go p .idle
    else { s.go p .idle with acquired := s.acquired + 1, unpaid := s.unpaid + 1 }
  else { s with line := s.line.join p ⟨result, s.tasks.token p⟩ }

/-- The section of `Signal`. -/
def State.signal (maxPermits : Int) (s : State n) (p : Fin n) : State n :=
  match s.line.queue with
  | [] =>
    if s.permits < maxPermits then { s.go p .idle with permits := s.permits + 1 }
    else { s.go p .idle with dropped := s.dropped + 1 }
  | w :: rest => { s with line := s.line.pop p .signalTest w rest }

/-- A party wakes a waiter with a result. -/
def State.wake (s : State n) (u w : Fin n) (result : WaitResult) (pc : Pc n) : State n :=
  { s with line := Wait.wake s.line u w result pc }

/-- A waiter that was woken returns. -/
def State.back (s : State n) (p : Fin n) (wake : Wake) : State n :=
  { s.go p .idle with
    acquired := if wake = ⟨true, .cancelled⟩ then s.acquired else s.acquired + 1
    history := s.history.back p wake }

def advance (maxPermits : Int) (s : State n) (p : Fin n) : Option (State n) :=
  match s.line.pc p with
  | .stands .spin => some (s.tryWait p .spin)
  | .stands .tryOrTest => some (s.tryWait p .tokenTest)
  | .stands .tokenTest => some (s.go p (if s.tasks.isTaskCancelled p then .idle else .tryOrTest))
  | .stands .signalAgain => some (s.signal maxPermits p)
  | .stands _ => none
  | .holds .signalTest w =>
    some { s with
      line := s.line.set p
        (.holds (if skips s.tasks s.line w then .signalSkip else .signalGrant) w) }
  | .holds .signalSkip w => some (s.wake p w .cancelled (.stands .signalAgain))
  | .holds .signalGrant w => some (s.wake p w .ok (.stands .idle))
  | .holds _ _ => none
  | .walks .cancelWaiters (w :: rest) => some (s.wake p w .cancelled (.walks .cancelWaiters rest))
  | .walks .cancelWaiters [] => some (s.go p .idle)
  | .walks _ _ => none
  | .woken wake => some (s.back p wake)
  | .asleep _ => none

def step (maxPermits : Int) (s : State n) : Label n → Option (State n)
  | .wait p => if s.line.pc p = .stands .idle then some (s.wait p) else none
  | .waitBare p => if s.line.pc p = .stands .idle then some (s.go p .spin) else none
  | .waitCancellable p =>
    if s.line.pc p = .stands .idle then
      some (s.go p (if s.tasks.isTaskCancelled p then .idle else .checked))
    else none
  | .enqueue p =>
    if s.line.pc p = .stands .checked then some (s.waitAsyncEnqueue p true) else none
  | .cancellableBare p =>
    if s.line.pc p = .stands .checked then some (s.go p .tryOrTest) else none
  | .acquireAsync p =>
    if s.line.pc p = .stands .idle then some (s.waitAsyncEnqueue p false) else none
  | .tryWait p => if s.line.pc p = .stands .idle then some (s.tryWait p .idle) else none
  | .signal p =>
    if s.line.pc p = .stands .idle then
      some { s.signal maxPermits p with signals := s.signals + 1 }
    else none
  | .cancelWaiters p tok =>
    if s.line.pc p = .stands .idle then
      some { s with
        line := s.line.takeIf p .cancelWaiters (covers s.tasks s.line tok)
        history := s.history.sweep s.tasks s.line tok }
    else none
  | .advance p => advance maxPermits s p
  | .tasks tasks =>
    some { s with
      tasks := tasks
      history := s.history.scopes s.tasks.slots tasks.slots }

end JLibSched.Semaphore
