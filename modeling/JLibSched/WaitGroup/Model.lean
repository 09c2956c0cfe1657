import JLibSched.Lib.Transition
import Mathlib.Tactic

/-!
# The wait group

`WaitGroup` counts outstanding tasks.  A completer calls `Done`; a waiter waits until the
count is zero.  Every atomic access of the group and every section under its mutex is one
step, and any thread may move at any time.

The word `n` packs the count in its low thirty bits and the waiter bit above them.  `waking`
is raised before a completer decrements and lowered after it has taken everything it needs,
so that a waiter that leaves through `Settle` does not leave while a completer still has an
access to make.

There are six kinds of waiter.  A fiber and a coroutine register the task with `AddWaiter`
and are resumed out of a wake list.  A blocked thread, main out of the pool, a bare polling
thread and main in the pool look at the count themselves and leave through `Settle`.

The Treiber list `taskWaiters` is a list with the head pointer first.  A compare-exchange on
the head compares head pointers and not whole lists, as the code does.
-/

namespace JLibSched.WaitGroup

/-! ## The counter word -/

/-- `WAITER_BIT`. -/
def waiterBit : Nat := 0x40000000

/-- `COUNT_MASK`. -/
def countMask : Nat := waiterBit - 1

/-- `~WAITER_BIT`, as a 32-bit word. -/
def notWaiterBit : Nat := 0xBFFFFFFF

/-- The count held in a word. -/
def countOf (n : Nat) : Nat := n &&& countMask

/-- The waiter bit of a word. -/
def hasWaiterBit (n : Nat) : Bool := n &&& waiterBit != 0

/-! ## State -/

/-- The word a blocked thread sleeps on: `kWaitRunning`, `kWaitWaiting`, `kWaitKicked`. -/
inductive WaitWord where
  | running
  | waiting
  | kicked
deriving DecidableEq, Repr

/-- The fields of a `WaitGroup` for waiters named by `W`. -/
structure Group (W : Type) where
  /-- Count and waiter bit. -/
  n : Nat
  /-- Completers between their mark and the release of it. -/
  waking : Nat
  /-- Registered tasks, the head pointer first. -/
  taskWaiters : List W
  /-- Main in the pool, when it blocks on this group. -/
  threadWaiter : Option W
  /-- Blocked threads, guarded by the mutex. -/
  blockedThreads : List W

/-- Where a call of `Done` stands.  The last step but one leaves only local copies. -/
inductive DonePc (W : Type) where
  /-- Not called yet. -/
  | idle
  /-- `waking` is raised, the decrement comes next. -/
  | marked
  /-- `DoneBegin` will answer false, the mark is still to be lowered. -/
  | unmark
  /-- `DoneBegin` answered true, the locked section of `WakeAll` comes next. -/
  | wakeAll
  /-- Past the lock: the words to kick, main's word and the tasks to wake. -/
  | wake (threads : List W) (mainWord : Option W) (tasks : List W)
deriving DecidableEq

/-- How a waiter waits. -/
inductive WaiterKind where
  /-- A fiber in `WaitFor`. -/
  | fiber
  /-- A coroutine in `WaitGroupAwaiter`. -/
  | coroutine
  /-- A thread in `BlockThread`. -/
  | blockThread
  /-- Main out of the pool, in `OutOfPoolMainWait`. -/
  | outOfPoolMain
  /-- A thread with no slot, polling in `WaitFor`. -/
  | barePoll
  /-- Main in the pool, in `Worker` with a wait context. -/
  | inPoolMain
deriving DecidableEq, Repr

/-- Where the waiting thread stands. -/
inductive WaiterPc (W : Type) where
  /-- `await_ready` loads the count. -/
  | awaitReady
  /-- `AddWaiter` loads the list head. -/
  | addLoad
  /-- `AddWaiter` compare-exchanges against the head it saw. -/
  | addCas (head : Option W)
  /-- `AddWaiter` sets the waiter bit. -/
  | addBit
  /-- `WakeAllDirect` takes the list. -/
  | directTake
  /-- `WakeAllDirect` clears the waiter bit. -/
  | directClear (tasks : List W)
  /-- `WakeAllDirect` wakes what it took. -/
  | directWake (tasks : List W)
  /-- `AddWaiter` has returned. -/
  | suspended
  /-- `BlockThread` stores WAITING in its word. -/
  | blockStore
  /-- `BlockThread`'s locked section. -/
  | blockRegister
  /-- `BlockThread` sleeps on its word. -/
  | blockSleep
  /-- `BlockThread` loads the count after a kick. -/
  | blockRecheck
  /-- `OutOfPoolMainWait` loads the count at its loop head. -/
  | mainPoll
  /-- `OutOfPoolMainWait` stores WAITING. -/
  | mainStore
  /-- `OutOfPoolMainWait`'s registering section. -/
  | mainRegister
  /-- Decides whether to sleep. -/
  | mainQuiet (registered : Bool)
  /-- Sleeps on the word. -/
  | mainSleep (registered : Bool)
  /-- Stores RUNNING. -/
  | mainRunning (registered : Bool)
  /-- Takes its word off `blockedThreads`. -/
  | mainUnregister
  /-- `WaitFor` of a bare thread loads the count. -/
  | barePoll
  /-- `Worker` on main evaluates the wait context. -/
  | workerPoll
  /-- Publishes WAITING in main's word. -/
  | workerPublish
  /-- Stores its word in `threadWaiter`. -/
  | workerStore
  /-- Sets the waiter bit. -/
  | workerBit
  /-- Re-evaluates the wait context. -/
  | workerRecheck
  /-- Sleeps on main's word. -/
  | workerSleep
  /-- Stores RUNNING. -/
  | workerRunning
  /-- Takes its word off `threadWaiter` on the way out. -/
  | workerExit
  /-- `Settle` loads `waking`. -/
  | settleSpin
  /-- `Settle` passes the mutex. -/
  | settleLock
  /-- Nothing left to do. -/
  | left
deriving DecidableEq

/-- One waiter: how it waits, where it stands, its wait word, whether a wake list named it
and whether its wait has returned. -/
structure Waiter (W : Type) where
  kind : WaiterKind
  pc : WaiterPc W
  word : WaitWord
  woken : Bool
  returned : Bool
deriving DecidableEq

/-- A group with `dones` calls of `Done` and `waiters` waiters. -/
structure State (dones waiters : Nat) where
  group : Group (Fin waiters)
  done : Fin dones → DonePc (Fin waiters)
  waiter : Fin waiters → Waiter (Fin waiters)

/-- Whose turn it is.  The flag of a waiter's step settles what the group does not decide: a
weak compare-exchange that fails though it could succeed, or main going to sleep. -/
inductive Label (dones waiters : Nat) where
  | done (i : Fin dones)
  | waiter (w : Fin waiters) (choice : Bool)
  /-- The scheduler runs a woken task again. -/
  | resume (w : Fin waiters)
deriving DecidableEq

/-! ## Where a wait starts -/

/-- The first step of each kind of wait. -/
def WaiterKind.entry {W : Type} : WaiterKind → WaiterPc W
  | .fiber => .addLoad
  | .coroutine => .awaitReady
  | .blockThread => .blockStore
  | .outOfPoolMain => .mainPoll
  | .barePoll => .barePoll
  | .inPoolMain => .workerPoll

/-- A waiter that has not started. -/
def Waiter.initial {W : Type} (kind : WaiterKind) : Waiter W :=
  { kind, pc := kind.entry, word := .running, woken := false, returned := false }

/-- A group raised to `count`, nobody has moved. -/
def initial (count dones : Nat) {waiters : Nat} (kinds : Fin waiters → WaiterKind) :
    State dones waiters where
  group := { n := count, waking := 0, taskWaiters := [], threadWaiter := none,
             blockedThreads := [] }
  done := fun _ => .idle
  waiter := fun w => Waiter.initial (kinds w)

/-! ## Completion -/

/-- The locked section of `WakeAll`.  `releaseMark` is true for every call made by `Done`. -/
def Group.wakeAllLocked {W : Type} (g : Group W) (releaseMark : Bool) : Group W :=
  { g with
    n := g.n &&& notWaiterBit
    waking := if releaseMark then g.waking - 1 else g.waking
    taskWaiters := []
    blockedThreads := [] }

/-- What a step does to a waiter other than the one that moves: `KickWaitWord` on its word or
`WakeWaiter` on its task. -/
inductive Signal (W : Type) where
  | none
  | kick (w : W)
  | wake (w : W)

/-- One step of a call of `Done`: the group, the call and the signal after it. -/
def doneMove {W : Type} (g : Group W) : DonePc W → Option (Group W × DonePc W × Signal W)
  | .idle => some ({ g with waking := g.waking + 1 }, .marked, .none)
  | .marked =>
    let old := g.n
    if countOf old = 1 ∧ hasWaiterBit old then some ({ g with n := old - 1 }, .wakeAll, .none)
    else some ({ g with n := old - 1 }, .unmark, .none)
  | .unmark => some ({ g with waking := g.waking - 1 }, .wake [] none [], .none)
  | .wakeAll =>
    some (g.wakeAllLocked true, .wake g.blockedThreads g.threadWaiter g.taskWaiters, .none)
  | .wake (t :: threads) mainWord tasks => some (g, .wake threads mainWord tasks, .kick t)
  | .wake [] (some t) tasks => some (g, .wake [] none tasks, .kick t)
  | .wake [] none (t :: tasks) => some (g, .wake [] none tasks, .wake t)
  | .wake [] none [] => none

/-- The next step of this call reads or writes the group. -/
def DonePc.touchesGroup {W : Type} : DonePc W → Bool
  | .idle | .marked | .unmark | .wakeAll => true
  | .wake _ _ _ => false

/-! ## Waiting -/

/-- `v[i] = v.back(); v.pop_back()` at the first place that holds `w`. -/
def swapRemove {W : Type} [DecidableEq W] (v : List W) (w : W) : List W :=
  match v.getLast? with
  | none => v
  | some back => if w ∈ v then (v.set (v.idxOf w) back).dropLast else v

/-- One step of the waiting thread of `w`: the group, its own record and the signal after it. -/
def waiterMove {W : Type} [DecidableEq W] (g : Group W) (w : W) (me : Waiter W)
    (choice : Bool) : Option (Group W × Waiter W × Signal W) :=
  match me.pc with
  | .awaitReady =>
    some (g, { me with pc := if countOf g.n ≠ 0 then .addLoad else .settleSpin }, .none)
  | .addLoad => some (g, { me with pc := .addCas g.taskWaiters.head? }, .none)
  | .addCas head =>
    if g.taskWaiters.head? = head ∧ choice then
      some ({ g with taskWaiters := w :: g.taskWaiters }, { me with pc := .addBit }, .none)
    else some (g, { me with pc := .addCas g.taskWaiters.head? }, .none)
  | .addBit =>
    some ({ g with n := g.n ||| waiterBit },
      { me with pc := if countOf g.n = 0 then .directTake else .suspended }, .none)
  | .directTake =>
    some ({ g with taskWaiters := [] },
      { me with pc := if g.taskWaiters = [] then .suspended else .directClear g.taskWaiters },
      .none)
  | .directClear tasks =>
    some ({ g with n := g.n &&& notWaiterBit }, { me with pc := .directWake tasks }, .none)
  | .directWake [] => some (g, { me with pc := .suspended }, .none)
  | .directWake (t :: tasks) => some (g, { me with pc := .directWake tasks }, .wake t)
  | .suspended => none
  | .blockStore => some (g, { me with word := .waiting, pc := .blockRegister }, .none)
  | .blockRegister =>
    if countOf g.n = 0 then
      some ({ g with n := g.n ||| waiterBit }, { me with pc := .settleSpin }, .none)
    else
      some ({ g with n := g.n ||| waiterBit, blockedThreads := g.blockedThreads ++ [w] },
        { me with pc := .blockSleep }, .none)
  | .blockSleep =>
    if me.word = .waiting then none else some (g, { me with pc := .blockRecheck }, .none)
  | .blockRecheck =>
    some (g, { me with pc := if countOf g.n = 0 then .settleSpin else .blockStore }, .none)
  | .mainPoll =>
    -- the flag is false while there is main work to run or attempts are left
    some (g, { me with pc := if countOf g.n = 0 then .settleSpin
      else if choice then .mainStore else .mainPoll }, .none)
  | .mainStore => some (g, { me with word := .waiting, pc := .mainRegister }, .none)
  | .mainRegister =>
    if countOf g.n = 0 then
      some ({ g with n := g.n ||| waiterBit }, { me with pc := .mainQuiet false }, .none)
    else
      some ({ g with n := g.n ||| waiterBit, blockedThreads := g.blockedThreads ++ [w] },
        { me with pc := .mainQuiet true }, .none)
  | .mainQuiet registered =>
    -- the flag is `mainQ.quiescent()` and `poolActive`
    some (g, { me with pc := if registered ∧ choice then .mainSleep registered
      else .mainRunning registered }, .none)
  | .mainSleep registered =>
    if me.word = .waiting then none
    else some (g, { me with pc := .mainRunning registered }, .none)
  | .mainRunning registered =>
    some (g, { me with word := .running,
                       pc := if registered then .mainUnregister else .mainPoll }, .none)
  | .mainUnregister =>
    some ({ g with blockedThreads := swapRemove g.blockedThreads w },
      { me with pc := .mainPoll }, .none)
  | .barePoll =>
    some (g, { me with pc := if countOf g.n = 0 then .settleSpin else .barePoll }, .none)
  | .workerPoll =>
    some (g, { me with pc := if countOf g.n = 0 then .workerExit
      else if choice then .workerPublish else .workerPoll }, .none)
  | .workerPublish =>
    if me.word = .running then
      some (g, { me with word := .waiting, pc := .workerStore }, .none)
    else some (g, { me with word := .running, pc := .workerPoll }, .none)
  | .workerStore => some ({ g with threadWaiter := some w }, { me with pc := .workerBit }, .none)
  | .workerBit =>
    some ({ g with n := g.n ||| waiterBit }, { me with pc := .workerRecheck }, .none)
  | .workerRecheck =>
    some (g, { me with pc := if countOf g.n ≠ 0 ∧ choice then .workerSleep
      else .workerRunning }, .none)
  | .workerSleep =>
    if me.word = .waiting then none else some (g, { me with pc := .workerRunning }, .none)
  | .workerRunning => some (g, { me with word := .running, pc := .workerPoll }, .none)
  | .workerExit =>
    some ({ g with threadWaiter := if g.threadWaiter = some w then none else g.threadWaiter },
      { me with pc := .settleSpin }, .none)
  | .settleSpin =>
    some (g, { me with pc := if g.waking = 0 then .settleLock else .settleSpin }, .none)
  | .settleLock => some (g, { me with pc := .left, returned := true }, .none)
  | .left => none

/-- A woken task runs again.  A fiber must have switched out first; a coroutine's frame is
suspended before it registers, so it may run while its own `AddWaiter` is still going. -/
def resumeMove {W : Type} [DecidableEq W] (me : Waiter W) : Option (Waiter W) :=
  if me.woken ∧ ¬ me.returned then
    match me.kind with
    | .fiber => if me.pc = .suspended then some { me with returned := true } else none
    | .coroutine => some { me with returned := true }
    | _ => none
  else none

/-! ## Steps of the system -/

section Steps

variable {dones waiters : Nat}

/-- The waiters after a signal. -/
def Signal.apply (f : Fin waiters → Waiter (Fin waiters)) :
    Signal (Fin waiters) → Fin waiters → Waiter (Fin waiters)
  | .none => f
  | .kick w => Function.update f w { f w with word := .kicked }
  | .wake w => Function.update f w { f w with woken := true }

def doneStep (s : State dones waiters) (i : Fin dones) : Option (State dones waiters) :=
  (doneMove s.group (s.done i)).map fun (g, pc, signal) =>
    { group := g
      done := Function.update s.done i pc
      waiter := signal.apply s.waiter }

def waiterStep (s : State dones waiters) (w : Fin waiters) (choice : Bool) :
    Option (State dones waiters) :=
  (waiterMove s.group w (s.waiter w) choice).map fun (g, me, signal) =>
    { group := g
      done := s.done
      waiter := signal.apply (Function.update s.waiter w me) }

def resumeStep (s : State dones waiters) (w : Fin waiters) : Option (State dones waiters) :=
  (resumeMove (s.waiter w)).map fun me =>
    { s with waiter := Function.update s.waiter w me }

/-- One step of the system. -/
def step (s : State dones waiters) : Label dones waiters → Option (State dones waiters)
  | .done i => doneStep s i
  | .waiter w choice => waiterStep s w choice
  | .resume w => resumeStep s w

end Steps

end JLibSched.WaitGroup
