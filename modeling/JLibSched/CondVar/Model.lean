import JLibSched.Mutex.Calls
import JLibSched.Wait.Cancellation

/-!
# `SchedulerConditionVariable`

A `Wait` of a fiber joins the queue, releases the mutex, switches to the scheduler, and locks the
mutex again after it was woken.  It may be woken before it has switched.  A thread without a fiber
joins no queue: it unlocks the mutex and locks it again.

The mutex is the one of the mutex's own model: a `Wait` calls its `Unlock` and `Lock`, and its other
users call what they like.  Each section under `spinLock` is one step.  `answers`, `cancelled` and
`history` are kept for what is proved: no step looks at them.
-/

namespace JLibSched.CondVar

open Transition WaitQueue Cancel Wait

inductive Place where
  | idle
  /-- `WaitCancellable` after the first token test. -/
  | checked
  /-- `Wait` and `WaitCancellable` of a thread without a fiber. -/
  | bare
  | bareCancellable
  | notifyTest
  | notifySkip
  | notifyGrant
  /-- A `Notify_One` that has woken a cancelled waiter and looks on. -/
  | notifyAgain
  | notifyAll
  | cancelWaiters
deriving DecidableEq, Repr

def desk : Desk Place where
  test := .notifyTest
  skip := .notifySkip
  grant := .notifyGrant
  again := .notifyAgain
  done := .idle
  sweep := .cancelWaiters
  test_skip := by decide
  test_grant := by decide
  skip_grant := by decide

abbrev Pc (n : Nat) := Wait.Pc n Place

/-- Where a wait stands with the mutex. -/
inductive Phase where
  | outside
  /-- It has joined the queue and calls `mutex.Unlock` next. -/
  | releasing
  | unlocking
  /-- It has switched to the scheduler. -/
  | suspended
  | locking
deriving DecidableEq, Repr

structure State (n : Nat) where
  mutex : Mutex.State n
  line : Queue n Place
  phase : Fin n → Phase
  /-- What the waits of a party have returned, the last one first. -/
  answers : Fin n → List WaitResult
  /-- The task was cancelled at some time since its last wait began. -/
  cancelled : Fin n → Bool
  history : History n

def initial {n : Nat} (tasks : Tasks n) : State n where
  mutex := Mutex.initial tasks
  line := .empty .idle
  phase := fun _ => .outside
  answers := fun _ => []
  cancelled := tasks.isTaskCancelled
  history := .none n

inductive Label (n : Nat) where
  /-- `Wait` of a fiber. -/
  | wait (p : Fin n)
  /-- The first token test of `WaitCancellable`. -/
  | waitCancellable (p : Fin n)
  /-- After it, the section of a fiber. -/
  | enqueue (p : Fin n)
  /-- `Wait` or `WaitCancellable` of a thread without a fiber. -/
  | waitBare (p : Fin n) (cancellable : Bool)
  | notifyOne (p : Fin n)
  | notifyAll (p : Fin n)
  /-- `CancelWaiters`, for one scope or for all waiters. -/
  | cancelWaiters (p : Fin n) (tok : Nat)
  /-- A notifier or a `CancelWaiters` takes its next step. -/
  | advance (p : Fin n)
  /-- A wait calls the mutex, switches, or returns. -/
  | proceed (p : Fin n)
  /-- A step of the mutex. -/
  | mutex (a : Mutex.Label n)
  /-- Scopes are opened, cancelled and closed, and tasks change. -/
  | tasks (tasks : Tasks n)

variable {n : Nat}

def State.tasks (s : State n) : Tasks n := s.mutex.tasks

/-- The party has no call in progress. -/
def State.Ready (s : State n) (p : Fin n) : Prop :=
  s.line.pc p = .stands .idle ∧ s.phase p = .outside ∧ Mutex.AtRest (s.mutex.line.pc p)

instance (s : State n) (p : Fin n) : Decidable (s.Ready p) :=
  inferInstanceAs (Decidable (s.line.pc p = .stands .idle ∧ s.phase p = .outside ∧
    Mutex.AtRest (s.mutex.line.pc p)))

/-- The party holds the mutex and has no call in progress. -/
def State.MayWait (s : State n) (p : Fin n) : Prop :=
  s.line.pc p = .stands .idle ∧ s.phase p = .outside ∧ s.mutex.line.pc p = .stands .holding

instance (s : State n) (p : Fin n) : Decidable (s.MayWait p) :=
  inferInstanceAs (Decidable (s.line.pc p = .stands .idle ∧ s.phase p = .outside ∧
    s.mutex.line.pc p = .stands .holding))

/-- A step of the mutex that is no wait's: a call is begun by a party that is ready. -/
def State.Allows (s : State n) (a : Mutex.Label n) : Prop :=
  a.setsTasks = false ∧ ∀ p ∈ a.starts, s.Ready p

instance (s : State n) (a : Mutex.Label n) : Decidable (s.Allows a) :=
  inferInstanceAs (Decidable (a.setsTasks = false ∧ ∀ p ∈ a.starts, s.Ready p))

/-! ## Steps -/

def State.go (s : State n) (p : Fin n) (place : Place) : State n :=
  { s with line := s.line.set p (.stands place) }

def State.enter (s : State n) (p : Fin n) (phase : Phase) : State n :=
  { s with phase := Function.update s.phase p phase }

/-- A wait begins. -/
def State.begin (s : State n) (p : Fin n) : State n :=
  { s with cancelled := Function.update s.cancelled p (s.tasks.isTaskCancelled p) }

/-- A wait returns. -/
def State.answer (s : State n) (p : Fin n) (result : WaitResult) : State n :=
  { s.go p .idle with
    phase := Function.update s.phase p .outside
    answers := Function.update s.answers p (result :: s.answers p) }

/-- A waiter joins the queue. -/
def State.join (s : State n) (p : Fin n) (node : Node) : State n :=
  { s.enter p .releasing with line := s.line.join p node }

/-- A wait calls the mutex. -/
def State.call (s : State n) (a : Mutex.Label n) (p : Fin n) (phase : Phase) : Option (State n) :=
  (Mutex.step s.mutex a).map fun mutex => { s.enter p phase with mutex := mutex }

/-- The section of `Notify_One`. -/
def State.notifyOne (s : State n) (p : Fin n) : State n :=
  match s.line.queue with
  | [] => s.go p .idle
  | w :: rest => { s with line := s.line.pop p .notifyTest w rest }

/-- A party wakes a waiter with a result. -/
def State.wake (s : State n) (u w : Fin n) (result : WaitResult) (pc : Pc n) : State n :=
  { s with line := Wait.wake s.line u w result pc }

def advance (s : State n) (p : Fin n) : Option (State n) :=
  match s.line.pc p with
  | .stands .notifyAgain => some (s.notifyOne p)
  | .stands _ => none
  | .holds .notifyTest w =>
    some { s with
      line := s.line.set p
        (.holds (if skips s.tasks s.line w then .notifySkip else .notifyGrant) w) }
  | .holds .notifySkip w => some (s.wake p w .cancelled (.stands .notifyAgain))
  | .holds .notifyGrant w => some (s.wake p w .ok (.stands .idle))
  | .holds _ _ => none
  | .walks .notifyAll (w :: rest) =>
    some (s.wake p w (if skips s.tasks s.line w then .cancelled else .ok) (.walks .notifyAll rest))
  | .walks .cancelWaiters (w :: rest) => some (s.wake p w .cancelled (.walks .cancelWaiters rest))
  | .walks .notifyAll [] | .walks .cancelWaiters [] => some (s.go p .idle)
  | .walks _ _ => none
  | .woken _ | .asleep _ => none

/-- `mutex.Lock` has returned, and so does the wait. -/
def State.back (s : State n) (p : Fin n) : Option (State n) :=
  match s.line.pc p with
  | .woken wake =>
    some { s.answer p (if wake = ⟨true, .cancelled⟩ then .cancelled else .ok) with
      history := s.history.back p wake }
  | .stands .bareCancellable =>
    some (s.answer p (if s.tasks.isTaskCancelled p then .cancelled else .ok))
  | .stands .bare => some (s.answer p .ok)
  | _ => none

def proceed (s : State n) (p : Fin n) : Option (State n) :=
  match s.phase p with
  | .outside => none
  | .releasing => s.call (.unlock p) p .unlocking
  | .unlocking =>
    if Mutex.AtRest (s.mutex.line.pc p) then
      match s.line.pc p with
      | .stands _ => s.call (.lockBare p) p .locking
      | _ => some (s.enter p .suspended)
    else none
  | .suspended =>
    match s.line.pc p with
    | .woken _ => s.call (.lock p) p .locking
    | _ => none
  | .locking => if Mutex.AtRest (s.mutex.line.pc p) then s.back p else none

def step (s : State n) : Label n → Option (State n)
  | .wait p => if s.MayWait p then some ((s.begin p).join p ⟨false, kNone⟩) else none
  | .waitCancellable p =>
    if s.MayWait p then
      some (if s.tasks.isTaskCancelled p then (s.begin p).answer p .cancelled
        else (s.begin p).go p .checked)
    else none
  | .enqueue p =>
    if s.line.pc p = .stands .checked then
      some (if s.tasks.isTaskCancelled p then s.answer p .cancelled
        else s.join p ⟨true, s.tasks.token p⟩)
    else none
  | .waitBare p cancellable =>
    if s.MayWait p then
      if cancellable && s.tasks.isTaskCancelled p then some ((s.begin p).answer p .cancelled)
      else
        ((s.begin p).go p (if cancellable then .bareCancellable else .bare)).call (.unlock p) p
          .unlocking
    else none
  | .notifyOne p => if s.Ready p then some (s.notifyOne p) else none
  | .notifyAll p =>
    if s.Ready p then some { s with line := s.line.takeIf p .notifyAll fun _ => true } else none
  | .cancelWaiters p tok =>
    if s.Ready p then
      some { s with
        line := s.line.takeIf p .cancelWaiters (covers s.tasks s.line tok)
        history := s.history.sweep s.tasks s.line tok }
    else none
  | .advance p => advance s p
  | .proceed p => proceed s p
  | .mutex a =>
    if s.Allows a then (Mutex.step s.mutex a).map fun mutex => { s with mutex := mutex } else none
  | .tasks tasks =>
    some { s with
      mutex := { s.mutex with tasks := tasks }
      cancelled := fun p => s.cancelled p || tasks.isTaskCancelled p
      history := s.history.scopes s.tasks.slots tasks.slots }

end JLibSched.CondVar
