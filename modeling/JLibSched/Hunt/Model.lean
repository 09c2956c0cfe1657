import JLibSched.Idle.Stack
import JLibSched.Park.Model

/-!
# The hunt

A compute worker that looks for work is counted in `searching_`.  It leaves the count to run a body,
and if it was the last it wakes a worker from the idle stack; and it leaves to park, which the last
one may not.  Work that a worker puts on its own deque wakes nobody, so this is what finds it.

The model is the pool of `MainMode::OutOfPool` while it runs: the counter, the idle stack with its
calls, and the loop of each compute worker from the hunt to the block and back.  Any thread may wake
any worker at any time, and the threads that place work pop an idle worker when they find
`SearchingCount()` zero, and wake it.  Main in the pool is not part of it: that one hunts as a worker
does, but blocks on a word of its own and never stands on the idle stack, so a last hunter that leaves
for a body does not find it.

`PopIdleWorker` within the `LeaveHunt` of worker `q` runs as thread `q` of the stack, and that of the
`k`-th placing thread as thread `n + k`.  There are fewer than `2 ^ 32` workers, so the counter does
not wrap.
-/

namespace JLibSched.Hunt

open Transition
open Park (Word)

/-- Where a compute worker is. -/
inductive Phase where
  | hunting
  /-- `TryLeaveHuntForPark` has loaded the count. -/
  | tryLeave (cur : Nat)
  /-- The exchange of `WS_NOTIFIED` for `WS_EMPTY`. -/
  | consume
  | publish
  /-- Somebody had notified it. -/
  | consumeAgain
  | register
  | registering
  /-- The loads before that of the count. -/
  | recheck
  | recheckSearching
  /-- It takes the publication back, and itself off the stack first. -/
  | undo
  | undoing
  | undoWord
  | undoNotified
  | blocked
  /-- The loop around the wait has ended. -/
  | awake
  | unregister
  | unregistering
  /-- `EnterHunt`. -/
  | enter
  /-- `LeaveHunt` was the last to leave, and looks for an idle worker. -/
  | handoff
  /-- It runs a body. -/
  | body
deriving DecidableEq, Repr

structure State (n : Nat) where
  /-- The idle stack; its `parked` says whether `word` is `WS_PARKED`. -/
  stack : Idle.State n
  /-- `workerState`. -/
  word : Fin n → Word
  searching : Nat
  phase : Fin n → Phase
  /-- The thread is in `PopIdleWorker` in order to place work, or about to wake whom it got. -/
  placing : Nat → Bool

def initial (n : Nat) : State n where
  stack := Idle.initial n
  word := fun _ => .empty
  searching := 0
  phase := fun _ => .body
  placing := fun _ => false

inductive Label (n : Nat) where
  /-- The worker's next step; a weak exchange may fail, and a load may find work. -/
  | worker (q : Fin n) (answer : Bool)
  /-- A worker goes back to the hunt after a body. -/
  | enterHunt (q : Fin n)
  | leaveHunt (q : Fin n)
  | wake (q : Fin n)
  /-- `PickNextWorker` of a placing thread, from its load of the count, and its wake. -/
  | place (k : Nat)
  | placed (k : Nat)
  /-- The next step of a `PopIdleWorker`. -/
  | popper (p : Nat) (fails : Bool)
deriving DecidableEq, Repr

variable {n : Nat}

def State.go (s : State n) (q : Fin n) (phase : Phase) : State n :=
  { s with phase := Function.update s.phase q phase }

def State.setWord (s : State n) (q : Fin n) (word : Word) : State n :=
  { s with
    word := Function.update s.word q word
    stack := { s.stack with
      parked := Function.update s.stack.parked q (decide (word = Word.parked)) } }

def State.exchange (s : State n) (q : Fin n) (expected desired : Word)
    (success failure : Phase) : State n :=
  if s.word q = expected then (s.setWord q desired).go q success else s.go q failure

/-- A step of the stack. -/
def State.stackStep (s : State n) (a : Idle.Label n) : Option (State n) :=
  (Idle.step s.stack a).map fun stack => { s with stack := stack }

/-- The worker that a `PopIdleWorker` has returned is woken. -/
def State.notify (s : State n) : Option (Fin n) → State n
  | some q => s.setWord q .notified
  | none => s

def workerStep (s : State n) (q : Fin n) (answer : Bool) : Option (State n) :=
  match s.phase q with
  | .hunting => some (s.go q (.tryLeave s.searching))
  | .tryLeave cur =>
    some (if cur ≤ 1 then s.go q .hunting
      else if s.searching = cur ∧ answer = false then
        { s with searching := cur - 1 }.go q .consume
      -- the failed exchange has loaded the count
      else s.go q (.tryLeave s.searching))
  | .consume => some (s.exchange q .notified .empty .enter .publish)
  | .publish => some (s.exchange q .empty .parked .register .consumeAgain)
  | .consumeAgain => some (s.exchange q .notified .empty .enter .enter)
  | .register => (s.stackStep (.register q)).map fun s => s.go q .registering
  | .registering =>
    if s.stack.worker q = .idle then some (s.go q .recheck) else s.stackStep (.worker q answer)
  | .recheck => some (s.go q (if answer then .undo else .recheckSearching))
  | .recheckSearching => some (s.go q (if s.searching = 0 then .undo else .blocked))
  | .undo => (s.stackStep (.unregister q)).map fun s => s.go q .undoing
  | .undoing =>
    if s.stack.worker q = .idle then some (s.go q .undoWord) else s.stackStep (.worker q answer)
  | .undoWord => some (s.exchange q .parked .empty .enter .undoNotified)
  | .undoNotified => some (s.exchange q .notified .empty .enter .enter)
  | .blocked => if s.word q = .parked then none else some (s.go q .awake)
  | .awake => some (s.exchange q .notified .empty .unregister .unregister)
  | .unregister => (s.stackStep (.unregister q)).map fun s => s.go q .unregistering
  | .unregistering =>
    if s.stack.worker q = .idle then some (s.go q .enter) else s.stackStep (.worker q answer)
  | .enter => some ({ s with searching := s.searching + 1 }.go q .hunting)
  | .handoff =>
    match s.stack.popper q with
    | .returned r => some ((s.notify r).go q .body)
    | _ => none
  | .body => none

def step (s : State n) : Label n → Option (State n)
  | .worker q answer => workerStep s q answer
  | .enterHunt q =>
    if s.phase q = .body then some ({ s with searching := s.searching + 1 }.go q .hunting)
    else none
  | .leaveHunt q =>
    if s.phase q = .hunting then
      let left := { s with searching := s.searching - 1 }
      if s.searching = 1 then (left.stackStep (.pop q)).map fun s => s.go q .handoff
      else some (left.go q .body)
    else none
  | .wake q => some (s.setWord q .notified)
  | .place k =>
    if s.placing k = false ∧ s.searching = 0 then
      (s.stackStep (.pop (n + k))).map fun s =>
        { s with placing := Function.update s.placing k true }
    else none
  | .placed k =>
    match s.placing k, s.stack.popper (n + k) with
    | true, .returned r =>
      some { s.notify r with placing := Function.update s.placing k false }
    | _, _ => none
  | .popper p fails => s.stackStep (.popper p fails)

/-- Every exchange of a `PopIdleWorker` comes in time. -/
def soon (s : State n) : Label n → Prop
  | .popper p _ => (s.stack.popper p).InTime s.stack.changes
  | _ => True

instance (s : State n) (a : Label n) : Decidable (soon s a) :=
  match a with
  | .popper p _ => inferInstanceAs (Decidable ((s.stack.popper p).InTime s.stack.changes))
  | .worker _ _ | .enterHunt _ | .leaveHunt _ | .wake _ | .place _ | .placed _ => isTrue trivial

/-! ## What is to hold -/

/-- The worker is counted. -/
def Phase.Searches : Phase → Prop
  | .hunting | .tryLeave _ => True
  | _ => False

instance : DecidablePred Phase.Searches := fun phase =>
  match phase with
  | .hunting | .tryLeave _ => isTrue trivial
  | .consume | .publish | .consumeAgain | .register | .registering | .recheck | .recheckSearching
  | .undo | .undoing | .undoWord | .undoNotified | .blocked | .awake | .unregister
  | .unregistering | .enter | .handoff | .body => isFalse id

/-- The worker has left to park and not blocked, or has been woken and is not yet back. -/
def Phase.Passing : Phase → Prop
  | .consume | .publish | .consumeAgain | .register | .registering | .recheck | .recheckSearching
  | .undo | .undoing | .undoWord | .undoNotified | .awake | .unregister | .unregistering
  | .enter => True
  | _ => False

/-- The worker is on its way, or blocked and woken. -/
def State.Transit (s : State n) (q : Fin n) : Prop :=
  (s.phase q).Passing ∨ s.phase q = .blocked ∧ s.word q ≠ .parked

/-- The thread of the stack belongs to a call that has not ended. -/
def State.Busy (s : State n) (p : Nat) : Prop :=
  (∃ q : Fin n, p = q ∧ s.phase q = .handoff) ∨ ∃ k, p = n + k ∧ s.placing k = true

/-- The `PopIdleWorker` has taken the worker off the stack. -/
def Carries (q : Fin n) : Idle.PopPc n → Prop
  | .clearLinked q' | .takeArmed q' | .subCount q' | .checkState q' | .returned (some q') => q' = q
  | _ => False

/-- Nobody is in `LeaveHunt`, on the way to block or back from it, or between popping a worker and
waking it. -/
structure State.Settled (s : State n) : Prop where
  leaving : ∀ q, s.phase q ≠ .handoff
  transit : ∀ q, ¬ s.Transit q
  popping : ∀ p q, s.Busy p → ¬ Carries q (s.stack.popper p)

/-- The counter counts the hunters, and once there is none, nobody is left parked. -/
structure State.Watched (s : State n) : Prop where
  counts : s.searching = (Finset.univ.filter fun q => (s.phase q).Searches).card
  nobody : s.Settled → s.searching = 0 → ∀ q, s.phase q ≠ .blocked

end JLibSched.Hunt
