import JLibSched.Lib.Parking
import JLibSched.Lib.Transition

/-!
# Parking

A worker that finds nothing blocks on a word of its own: a pool worker on `workerState`, main in the
pool on `mainWait`.  It publishes that it will, looks at everything once more and blocks while the
word stays so.  `PushTo` and its siblings push, raise `hasQueuedWork` and exchange the word, and
`Wake` calls the kernel only if the exchange met a worker that had published.

The inboxes are lists of pushes in the order of the exchanges of `head_`.  A push that has not stored
its link yet is in its inbox, but `pop` does not get it; `quiescent` may say no to an empty inbox, and
never yes to another.  What the worker reads beside the inboxes, its flag, its word and `running` is
the answer that a step is given.

`K` never parks: it goes round again where a compute worker gives up its place in the hunt.
-/

namespace JLibSched.Park

open Transition

/-- Who blocks: a compute worker on `workerState`, or main on `mainWait`. -/
inductive Role where
  | compute
  | main
deriving DecidableEq, Repr

/-- `WS_EMPTY`, `WS_NOTIFIED` and `WS_PARKED`; `kWaitRunning`, `kWaitKicked` and `kWaitWaiting`. -/
inductive Word where
  | empty
  | notified
  | parked
deriving DecidableEq, Repr

/-- The inboxes of the worker. -/
inductive Inbox where
  | hiPri
  | normal
deriving DecidableEq, Repr

/-- One load of a check that keeps the worker up. -/
inductive Check where
  /-- `running` is false. -/
  | stopped
  /-- `ctx->Done()`. -/
  | ctxDone
  /-- The worker's own deque is not empty. -/
  | deque
  | hasQueuedWork
  /-- The inbox is not `quiescent`. -/
  | inbox (b : Inbox)
  /-- The injector is not idle. -/
  | injector
  /-- `SearchingCount()` is zero. -/
  | searching
deriving DecidableEq, Repr

/-- The check before the worker leaves the hunt. -/
def preChecks : List Check := [.hasQueuedWork, .inbox .hiPri, .inbox .normal, .injector]

/-- The check between the publication and the block. -/
def Role.rechecks : Role → List Check
  | .compute => [.stopped, .deque, .hasQueuedWork, .inbox .hiPri, .inbox .normal, .injector,
      .searching]
  | .main => [.stopped, .ctxDone, .deque, .hasQueuedWork, .inbox .hiPri, .inbox .normal, .injector]

/-- Where the worker is in its loop. -/
inductive Pc where
  /-- The condition of the loop. -/
  | top
  /-- It takes what it finds, and runs it. -/
  | pass
  /-- `YieldFiber` of a task that is pinned to it, before the link and before the mark. -/
  | yieldLink (serial : Nat)
  | yieldMark
  /-- It has found nothing, and tests `hasQueuedWork`. -/
  | testQueued
  | clearQueued
  | testRunning
  | testPaused
  | preCheck (rest : List Check)
  /-- Something keeps it up: it tests `running` and goes round again. -/
  | kept
  /-- It tests `running` and its deque, and leaves the hunt. -/
  | leaveHunt
  /-- The exchange of `WS_NOTIFIED` for `WS_EMPTY`. -/
  | consume
  | publish
  /-- Somebody had notified it: the exchange of `WS_NOTIFIED`, or main's store. -/
  | consumeAgain
  /-- Registers on the idle stack, or on the group that main waits for. -/
  | register
  | recheck (rest : List Check)
  /-- It takes the publication back. -/
  | undo
  /-- The second exchange of that. -/
  | undoNotified
  /-- The loop around the wait: the load of the word, and that of `running`. -/
  | testWord
  | testAgain
  /-- The call of the kernel, which compares the word. -/
  | wait
  | asleep
  /-- The loop has ended. -/
  | awake
  | testStop
  | exited
deriving DecidableEq, Repr

/-- Why somebody wakes the worker. -/
inductive Cause where
  | push (b : Inbox) (serial : Nat)
  /-- `RequestStop` has cleared `running`. -/
  | stop
  /-- `NotifyHolder`, `LeaveHunt`, `ResumeAll` and so on. -/
  | other
deriving DecidableEq, Repr

/-- Where another thread is. -/
inductive PartyPc where
  | idle
  /-- Its push has exchanged `head_` and not stored the link. -/
  | link (b : Inbox) (serial : Nat)
  /-- `MarkQueuedWork`. -/
  | mark (cause : Cause)
  /-- The exchange of `Wake`. -/
  | wake (cause : Cause)
  /-- `FutexWakeOne`. -/
  | futexWake
deriving DecidableEq, Repr

structure State (n : Nat) where
  /-- `workerState`, or `mainWait`. -/
  word : Word
  hasQueuedWork : Bool
  running : Bool
  /-- The push that each task of an inbox came with. -/
  inbox : Inbox → List Nat
  /-- How many pushes there have been. -/
  pushes : Nat
  worker : Pc
  party : Fin n → PartyPc

def initial (n : Nat) : State n where
  word := .empty
  hasQueuedWork := false
  running := true
  inbox := fun _ => []
  pushes := 0
  worker := .top
  party := fun _ => .idle

inductive Label (n : Nat) where
  /-- The worker's next step, with the answer to what it reads outside of the state. -/
  | worker (answer : Bool)
  /-- A `pop` of the worker. -/
  | pop (b : Inbox)
  /-- `YieldFiber` on the worker, up to the exchange of `head_`. -/
  | yield
  /-- Main returns from `Worker`, and calls it again. -/
  | leave
  | enter
  /-- `PushTo`, `PushTarget` or `PushBatch`, up to the exchange of `head_`, with so many more tasks. -/
  | push (p : Fin n) (b : Inbox) (more : Nat)
  /-- `NotifyHolder`, before its mark. -/
  | hold (p : Fin n)
  /-- `NotifyWorker`, before its exchange. -/
  | notify (p : Fin n)
  /-- `RequestStop`, up to its store. -/
  | stop (p : Fin n)
  | party (p : Fin n)
deriving DecidableEq, Repr

variable {n : Nat}

def State.go (s : State n) (pc : Pc) : State n := { s with worker := pc }

def State.setParty (s : State n) (p : Fin n) (pc : PartyPc) : State n :=
  { s with party := Function.update s.party p pc }

def State.enqueue (s : State n) (b : Inbox) (more : Nat) : State n :=
  { s with
    inbox := Function.update s.inbox b (s.inbox b ++ List.replicate (more + 1) s.pushes)
    pushes := s.pushes + 1 }

/-- The push has stored its link. -/
def State.Linked (s : State n) (b : Inbox) (serial : Nat) : Prop :=
  ∀ p, s.party p ≠ .link b serial

instance (s : State n) (b : Inbox) (serial : Nat) : Decidable (s.Linked b serial) :=
  inferInstanceAs (Decidable (∀ p, s.party p ≠ .link b serial))

/-- What a load of a check comes to. -/
def Check.hits (s : State n) (answer : Bool) : Check → Bool
  | .stopped => !s.running
  | .hasQueuedWork => s.hasQueuedWork
  | .inbox b => !(s.inbox b).isEmpty || answer
  | .ctxDone | .deque | .injector | .searching => answer

/-- The exchange of one value of the word for another. -/
def State.exchange (s : State n) (expected desired : Word) (success failure : Pc) : State n :=
  if s.word = expected then { s with word := desired }.go success else s.go failure

/-- The worker's loop, from the end of a pass in which it found nothing. -/
def workerStep (role : Role) (s : State n) (answer : Bool) : Option (State n) :=
  match s.worker with
  | .top => some (s.go (if s.running then .pass else .exited))
  | .pass => some (s.go .testQueued)
  | .yieldLink _ => some (s.go .yieldMark)
  | .yieldMark => some ({ s with hasQueuedWork := true }.go .pass)
  | .testQueued => some (s.go (if s.hasQueuedWork then .clearQueued else .testRunning))
  | .clearQueued => some ({ s with hasQueuedWork := false }.go .top)
  | .testRunning => some (s.go (if s.running then .testPaused else .kept))
  | .testPaused => some (s.go (if answer then .leaveHunt else .preCheck preChecks))
  | .preCheck [] => some (s.go .leaveHunt)
  | .preCheck (check :: rest) =>
    some (s.go (if check.hits s answer then .kept else .preCheck rest))
  | .kept => some (s.go (if s.running then .top else .exited))
  -- the deque, the gates and the hunt decide whether the worker goes on to park
  | .leaveHunt =>
    some (s.go (if s.running then
      if answer then (if role = .compute then .consume else .publish) else .top
      else .exited))
  | .consume => some (s.exchange .notified .empty .top .publish)
  | .publish => some (s.exchange .empty .parked .register .consumeAgain)
  | .consumeAgain =>
    match role with
    | .compute => some (s.exchange .notified .empty .top .top)
    | .main => some ({ s with word := .empty }.go .top)
  | .register => some (s.go (.recheck role.rechecks))
  | .recheck [] => some (s.go .testWord)
  | .recheck (check :: rest) =>
    some (s.go (if check.hits s answer then .undo else .recheck rest))
  | .undo =>
    match role with
    | .compute => some (s.exchange .parked .empty .testStop .undoNotified)
    | .main => some ({ s with word := .empty }.go .testStop)
  | .undoNotified => some (s.exchange .notified .empty .testStop .testStop)
  | .testWord =>
    some (s.go (if s.word = Word.parked then (if role = .compute then .testAgain else .wait)
      else .awake))
  | .testAgain => some (s.go (if s.running then .wait else .awake))
  | .wait => some (s.go (if s.word = Word.parked then .asleep else .testWord))
  -- the kernel may wake it without a reason
  | .asleep => if answer then some (s.go .testWord) else none
  | .awake =>
    match role with
    | .compute => some (s.exchange .notified .empty .testStop .testStop)
    | .main => some ({ s with word := .empty }.go .testStop)
  | .testStop => some (s.go (if s.running then .top else .exited))
  | .exited => none

/-- A push, the mark and the wake of another thread. -/
def partyStep (s : State n) (p : Fin n) : Option (State n) :=
  match s.party p with
  | .idle => none
  | .link b serial => some (s.setParty p (.mark (.push b serial)))
  | .mark cause => some ({ s with hasQueuedWork := true }.setParty p (.wake cause))
  | .wake _ =>
    some ({ s with word := .notified }.setParty p
      (if s.word = Word.parked then .futexWake else .idle))
  | .futexWake =>
    some ({ s with worker := if s.worker = Pc.asleep then .testWord else s.worker }.setParty p .idle)

def step (role : Role) (s : State n) : Label n → Option (State n)
  | .worker answer => workerStep role s answer
  | .pop b =>
    match s.worker, s.inbox b with
    | .pass, serial :: rest =>
      if s.Linked b serial then some { s with inbox := Function.update s.inbox b rest } else none
    | _, _ => none
  | .yield =>
    if s.worker = .pass then some ((s.enqueue .hiPri 0).go (.yieldLink s.pushes)) else none
  | .leave =>
    if role = .main ∧ (s.worker = .pass ∨ s.worker = .leaveHunt) then some (s.go .exited) else none
  | .enter => if role = .main ∧ s.worker = .exited then some (s.go .top) else none
  | .push p b more =>
    if s.party p = .idle then some ((s.enqueue b more).setParty p (.link b s.pushes)) else none
  | .hold p => if s.party p = .idle then some (s.setParty p (.mark .other)) else none
  | .notify p => if s.party p = .idle then some (s.setParty p (.wake .other)) else none
  | .stop p =>
    if s.party p = .idle then some ({ s with running := false }.setParty p (.wake .stop)) else none
  | .party p => partyStep s p

end JLibSched.Park
