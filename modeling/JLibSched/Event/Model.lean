import JLibSched.Cancel.Token
import JLibSched.Lib.DoublyLinked
import JLibSched.Lib.WaitQueue
import JLibSched.Wait.Sweep

/-!
# `Event`

Tasks that wait on an event are linked through `waitNext` and `waitPrev` of their records.  Whoever
unlinks a task under the lock wakes it afterwards; `SignalAll` and a `CancelWaiters` for all take
the whole list, and a `CancelWaiters` of a scope unlinks the tasks of that scope one by one and
threads them onto a chain through the same field.

Each section under `lock_` is one step, and so is each turn of `WakeChain` up to the wake and the
wake itself.  The links of a task that does not wait belong to its next wait: they change at any
time.  `waits`, `wakes`, `answers` and `swept` are kept for what is proved: no step looks at them.
-/

namespace JLibSched.Event

open Transition WaitQueue Cancel Links Wait

/-- What a party is doing. -/
inductive Pc (n : Nat) where
  | idle
  /-- `WaitOnEventCancellable` after its own test. -/
  | checked
  /-- `WaitOnEvent`, `WaitOnEventArmed` or `EventAwaiter` after the test. -/
  | tested
  /-- `AddWaiter` before its section. -/
  | adding
  | parked
  | woken (cancel : Bool)
  /-- It does not wait and is about to look at its token again. -/
  | returning
  /-- `SignalAll` that has seen a waiter. -/
  | detaching
  /-- `WakeChain` before a task. -/
  | walking (cancel : Bool) (t : Option (Fin n))
  /-- `WakeChain` that has read the link of the task and cleared its links. -/
  | waking (cancel : Bool) (t : Fin n) (next : Option (Fin n))
deriving DecidableEq, Repr

structure State (n : Nat) where
  /-- `waitNext` and `waitPrev` of the tasks, `head_` and `tail_`. -/
  links : Doubly (Fin n)
  pc : Fin n → Pc n
  tasks : Tasks n
  /-- How often a task was linked, and how often it was woken. -/
  waits : Fin n → Nat
  wakes : Fin n → Nat
  /-- What the waits of a task have returned, the last one first.  `WaitOnEvent` returns nothing. -/
  answers : Fin n → List WaitResult
  /-- The scopes that had been cancelled when a `CancelWaiters` of theirs went through the list, and
  have not ended since. -/
  swept : List Nat

def initial {n : Nat} (tasks : Tasks n) : State n where
  links := ⟨fun _ => none, fun _ => none, none, none⟩
  pc := fun _ => .idle
  tasks := tasks
  waits := fun _ => 0
  wakes := fun _ => 0
  answers := fun _ => []
  swept := []

inductive Label (n : Nat) where
  /-- The test of `WaitOnEvent`, `WaitOnEventArmed` or `EventAwaiter`. -/
  | waitOnEvent (p : Fin n)
  | waitOnEventCancellable (p : Fin n)
  | signalAll (p : Fin n)
  /-- `CancelWaiters`, for one scope or for all tasks. -/
  | cancelWaiters (p : Fin n) (tok : Nat)
  /-- A call takes its next step. -/
  | advance (p : Fin n)
  /-- Another wait uses the links of a task. -/
  | reuse (p : Fin n) (next prev : Option (Fin n))
  /-- Scopes are opened, cancelled and closed, and parties that do nothing here take other tasks. -/
  | tasks (tasks : Tasks n)

variable {n : Nat}

/-! ## Steps -/

def State.go (s : State n) (p : Fin n) (pc : Pc n) : State n :=
  { s with pc := Function.update s.pc p pc }

/-- `WaitOnEvent`, up to its test. -/
def State.test (s : State n) (p : Fin n) : State n :=
  s.go p (if s.tasks.isTaskCancelled p then .returning else .tested)

/-- A wait returns. -/
def State.answer (s : State n) (p : Fin n) (result : WaitResult) : State n :=
  { s.go p .idle with answers := Function.update s.answers p (result :: s.answers p) }

/-- The section of `AddWaiter`. -/
def State.addWaiter (s : State n) (p : Fin n) : State n :=
  { s.go p .parked with
    links := s.links.pushBack p
    waits := Function.update s.waits p (s.waits p + 1) }

/-- `DetachAll`, before a `WakeChain`. -/
def State.detachAll (s : State n) (p : Fin n) (cancel : Bool) : State n :=
  { s.go p (.walking cancel s.links.head) with
    links := { s.links with head := none, tail := none } }

/-- The loop of `CancelWaiters`: from task `t` on it unlinks those that are selected, and threads
them onto the chain of victims.  `fuel` bounds the turns. -/
def unlinkLoop (select : Fin n → Bool) : Nat → Doubly (Fin n) → Option (Fin n) →
    Option (Fin n) → Option (Fin n) → Option (Doubly (Fin n) × Option (Fin n))
  | _, links, victims, _, none => some (links, victims)
  | 0, _, _, _, some _ => none
  | fuel + 1, links, victims, victimsTail, some t =>
    let next := links.next t
    if select t then
      let links := (links.unlink t).write t none none
      match victimsTail with
      | some v =>
        unlinkLoop select fuel { links with next := Function.update links.next v (some t) }
          victims (some t) next
      | none => unlinkLoop select fuel links (some t) (some t) next
    else unlinkLoop select fuel links victims victimsTail next

/-- The predicate of `CancelWaiters`. -/
def State.within (s : State n) (tok : Nat) (t : Fin n) : Bool :=
  isWithin s.tasks.slots (s.tasks.token t) tok

def State.cancelWaiters (s : State n) (p : Fin n) (tok : Nat) : Option (State n) :=
  if tok = kNone then some (s.detachAll p true)
  else
    (unlinkLoop (s.within tok) n s.links none none s.links.head).map fun (links, victims) =>
      { s.go p (.walking true victims) with
        links := links
        swept := if Marked s.tasks.slots tok then tok :: s.swept else s.swept }

/-- `Wake`. -/
def State.wake (s : State n) (cancel : Bool) (t : Fin n) : State n :=
  { s.go t (.woken cancel) with
    tasks := if cancel then { s.tasks with direct := Function.update s.tasks.direct t true }
      else s.tasks
    wakes := Function.update s.wakes t (s.wakes t + 1) }

def advance (s : State n) (p : Fin n) : Option (State n) :=
  match s.pc p with
  | .checked => some (s.test p)
  | .tested =>
    some { s.go p .adding with
      links := { s.links with next := Function.update s.links.next p none } }
  | .adding => some (s.addWaiter p)
  | .detaching => some (s.detachAll p false)
  | .walking _ none => some (s.go p .idle)
  | .walking cancel (some t) =>
    some { s.go p (.waking cancel t (s.links.next t)) with links := s.links.write t none none }
  | .waking cancel t next => some ((s.wake cancel t).go p (.walking cancel next))
  | .woken _ | .returning =>
    some (s.answer p (if s.tasks.isTaskCancelled p then .cancelled else .ok))
  | .idle | .parked => none

/-- In a call the task of a party is the same, and its token was written before. -/
def State.KeepsTasks (s : State n) (tasks : Tasks n) : Prop :=
  ∀ p, s.pc p ≠ .idle → tasks.token p = s.tasks.token p ∧ tasks.direct p = s.tasks.direct p

instance (s : State n) (tasks : Tasks n) : Decidable (s.KeepsTasks tasks) :=
  inferInstanceAs (Decidable (∀ p, s.pc p ≠ .idle →
    tasks.token p = s.tasks.token p ∧ tasks.direct p = s.tasks.direct p))

def step (s : State n) : Label n → Option (State n)
  | .waitOnEvent p => if s.pc p = .idle then some (s.test p) else none
  | .waitOnEventCancellable p =>
    if s.pc p = .idle then
      some (if s.tasks.isTaskCancelled p then s.answer p .cancelled else s.go p .checked)
    else none
  | .signalAll p =>
    if s.pc p = .idle then some (s.go p (if s.links.head.isSome then .detaching else .idle))
    else none
  | .cancelWaiters p tok => if s.pc p = .idle then s.cancelWaiters p tok else none
  | .advance p => advance s p
  | .reuse p next prev =>
    if s.pc p = .adding ∨ s.pc p = .parked then none
    else some { s with links := s.links.write p next prev }
  | .tasks tasks =>
    if s.KeepsTasks tasks then
      some { s with
        tasks := tasks
        swept := stillAlive s.swept s.tasks.slots tasks.slots }
    else none

end JLibSched.Event
