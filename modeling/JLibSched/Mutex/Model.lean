import JLibSched.Wait.Serving

/-!
# `SchedulerMutex`

Fibers and coroutines that find the mutex locked join a queue, and `Unlock` hands the lock to the
first of them while `locked` stays set.  A cancellable waiter whose task was cancelled is woken
with `Cancelled` instead, and `Unlock` looks on.  `CancelWaiters` takes the waiters of a scope off
in one section and wakes them afterwards.  Threads without a fiber block on a condition variable
of their own and try again when they are notified.

Each section under `spinLock` is one step, and so is each access to `bareWaiters` and `bareMtx`.
A result is written just before the wake, and only the woken waiter reads it, so both are one
step.  `Resume` and `WakeTask` wake their waiter once, also one that is still on its way to sleep.
`lockHolder` and `t_heldMutexes` are only read for diagnostics and are left out.
-/

namespace JLibSched.Mutex

open Transition WaitQueue Cancel Wait

inductive Place where
  | idle
  /-- `LockCancellable` or `LockAwaiterCancellable` after the token test. -/
  | checked
  /-- The form of `LockCancellable` for a thread without a fiber. -/
  | spin
  | spinTest
  | holding
  /-- `Lock` of a thread without a fiber, after its first `Try_Lock`. -/
  | bareCount
  | bareLock
  | bareTry
  | bareFailed
  | bareBlocked
  | bareNotified
  | bareGot
  | bareLeave
  | unlockPop
  | unlockTest
  | unlockSkip
  | unlockGrant
  | unlockBare
  | unlockMtx
  | unlockNotify
  | cancelWaiters
deriving DecidableEq, Repr

def desk : Desk Place where
  test := .unlockTest
  skip := .unlockSkip
  grant := .unlockGrant
  again := .unlockPop
  done := .idle
  sweep := .cancelWaiters
  test_skip := by decide
  test_grant := by decide
  skip_grant := by decide

abbrev Pc (n : Nat) := Wait.Pc n Place

structure State (n : Nat) where
  line : Queue n Place
  locked : Bool
  bareWaiters : Nat
  /-- The thread that holds `bareMtx`. -/
  bareMtx : Option (Fin n)
  tasks : Tasks n
  /-- The scopes that had been cancelled when a `CancelWaiters` of theirs went through the
  queue. -/
  swept : List Nat

def initial (tasks : Tasks n) : State n where
  line := .empty .idle
  locked := false
  bareWaiters := 0
  bareMtx := none
  tasks := tasks
  swept := []

inductive Label (n : Nat) where
  /-- `Lock` of a fiber, or `LockAsyncEnqueue` without a result. -/
  | lock (p : Fin n)
  /-- The token test of `LockCancellable` and of `LockAwaiterCancellable`. -/
  | lockCancellable (p : Fin n)
  /-- After it, the section of a fiber, or `LockAsyncEnqueue` with a result. -/
  | enqueue (p : Fin n)
  /-- After it, the loop of a thread without a fiber. -/
  | spin (p : Fin n)
  | tryLock (p : Fin n)
  /-- `Lock` of a thread without a fiber. -/
  | lockBare (p : Fin n)
  | unlock (p : Fin n)
  /-- `CancelWaiters`, for one scope or for all waiters. -/
  | cancelWaiters (p : Fin n) (tok : Nat)
  /-- A call takes its next step. -/
  | advance (p : Fin n)
  /-- `notify_one`, which may choose among the blocked threads. -/
  | notify (p : Fin n) (w : Option (Fin n))
  /-- A condition variable may wake a thread for no reason. -/
  | spurious (p : Fin n)
  /-- Scopes are opened, cancelled and closed, and tasks change. -/
  | tasks (tasks : Tasks n)

variable {n : Nat}

/-! ## Steps -/

def State.go (s : State n) (p : Fin n) (place : Place) : State n :=
  { s with line := s.line.set p (.stands place) }

/-- `next->result && IsTaskCancelled(...)`, for a waiter that was taken off. -/
def State.skips (s : State n) (w : Fin n) : Bool := Wait.skips s.tasks s.line w

/-- The predicate of `CancelWaiters`. -/
def State.covers (s : State n) (tok : Nat) (w : Fin n) : Bool := Wait.covers s.tasks s.line tok w

/-- A party wakes a waiter with a result. -/
def State.wake (s : State n) (u w : Fin n) (result : WaitResult) (pc : Pc n) : State n :=
  { s with line := Wait.wake s.line u w result pc }

/-- The section of `Lock`, `LockCancellable` and `LockAsyncEnqueue`. -/
def State.section (s : State n) (p : Fin n) (node : Node) : State n :=
  if s.locked then { s with line := s.line.join p node }
  else { s.go p .holding with locked := true }

/-- `Try_Lock`, and where the party goes on. -/
def State.tryLock (s : State n) (p : Fin n) (got failed : Place) : State n :=
  if s.locked then s.go p failed else { s.go p got with locked := true }

/-- The next step of a party that carries nobody. -/
def placeStep (s : State n) (p : Fin n) : Place → Option (State n)
  | .spin => some (s.tryLock p .holding .spinTest)
  | .spinTest => some (s.go p (if s.tasks.isTaskCancelled p then .idle else .spin))
  | .bareCount => some { s.go p .bareLock with bareWaiters := s.bareWaiters + 1 }
  | .bareLock | .bareNotified =>
    if s.bareMtx = none then some { s.go p .bareTry with bareMtx := some p } else none
  | .bareTry => some (s.tryLock p .bareGot .bareFailed)
  | .bareFailed => some { s.go p .bareBlocked with bareMtx := none }
  | .bareGot => some { s.go p .bareLeave with bareMtx := none }
  | .bareLeave => some { s.go p .holding with bareWaiters := s.bareWaiters - 1 }
  | .unlockPop =>
    match s.line.queue with
    | [] => some { s.go p .unlockBare with locked := false }
    | w :: rest => some { s with line := s.line.pop p .unlockTest w rest }
  | .unlockBare => some (s.go p (if s.bareWaiters ≠ 0 then .unlockMtx else .idle))
  -- locks `bareMtx` and unlocks it again
  | .unlockMtx => if s.bareMtx = none then some (s.go p .unlockNotify) else none
  | _ => none

def advance (s : State n) (p : Fin n) : Option (State n) :=
  match s.line.pc p with
  | .stands place => placeStep s p place
  | .holds .unlockTest w =>
    some { s with
      line := s.line.set p (.holds (if s.skips w then .unlockSkip else .unlockGrant) w) }
  | .holds .unlockSkip w => some (s.wake p w .cancelled (.stands .unlockPop))
  | .holds .unlockGrant w => some (s.wake p w .ok (.stands .idle))
  | .holds _ _ => none
  | .walks .cancelWaiters (w :: rest) => some (s.wake p w .cancelled (.walks .cancelWaiters rest))
  | .walks .cancelWaiters [] => some (s.go p .idle)
  | .walks _ _ => none
  | .woken wake => some (s.go p (if wake = ⟨true, .cancelled⟩ then .idle else .holding))
  | .asleep _ => none

def step (s : State n) : Label n → Option (State n)
  | .lock p => if s.line.pc p = .stands .idle then some (s.section p ⟨false, kNone⟩) else none
  | .lockCancellable p =>
    if s.line.pc p = .stands .idle then
      some (s.go p (if s.tasks.isTaskCancelled p then .idle else .checked))
    else none
  | .enqueue p =>
    if s.line.pc p = .stands .checked then some (s.section p ⟨true, s.tasks.token p⟩) else none
  | .spin p => if s.line.pc p = .stands .checked then some (s.go p .spin) else none
  | .tryLock p => if s.line.pc p = .stands .idle then some (s.tryLock p .holding .idle) else none
  | .lockBare p =>
    if s.line.pc p = .stands .idle then some (s.tryLock p .holding .bareCount) else none
  | .unlock p => if s.line.pc p = .stands .holding then some (s.go p .unlockPop) else none
  | .cancelWaiters p tok =>
    if s.line.pc p = .stands .idle then
      some { s with
        line := s.line.takeIf p .cancelWaiters (s.covers tok)
        swept := if Marked s.tasks.slots tok then tok :: s.swept else s.swept }
    else none
  | .advance p => advance s p
  | .notify p w =>
    if s.line.pc p = .stands .unlockNotify then
      match w with
      | some w =>
        if s.line.pc w = .stands .bareBlocked then some ((s.go w .bareNotified).go p .idle)
        else none
      | none =>
        if ∀ w, s.line.pc w ≠ .stands .bareBlocked then some (s.go p .idle) else none
    else none
  | .spurious p =>
    if s.line.pc p = .stands .bareBlocked then some (s.go p .bareNotified) else none
  | .tasks tasks => some { s with tasks := tasks }

end JLibSched.Mutex
