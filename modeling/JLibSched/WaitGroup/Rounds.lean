import JLibSched.WaitGroup.DestroySafety

/-!
# The wait group over many rounds

`WaitGroup.Model` follows one round: the count is raised once and goes down to zero.  Here it
is raised at any moment, as `RunCounted` does on a group that others already wait on, and the
group is used round after round.

The waiting threads take the same steps as before.  A completer takes finer ones.  The locked
section of `WakeAll` is five accesses, and between two of them a thread that does not need the
mutex may move: `AddWaiter` and `WakeAllDirect` take no lock.  The sections of `BlockThread`
and `OutOfPoolMainWait` have one access of a shared word each and stay one step, taken while
the mutex is free.

Every wait and every call of `Done` has an index of its own, and there are as many of them as
a run needs.  `owed` counts the increments whose `Done` has not been called.  `wakes` and
`zeroSince` are not in the code: how often a wake list has named a wait, and whether the count
has been zero since its task was pushed.
-/

namespace JLibSched.WaitGroup.Rounds

open Transition

/-! ## State -/

/-- Where a call of `Done` stands, one access of the group a step. -/
inductive DonePc (W : Type) where
  /-- Not called yet. -/
  | idle
  /-- `waking` is raised, the decrement comes next. -/
  | marked
  /-- `DoneBegin` will answer false, the mark is still to be lowered. -/
  | unmark
  /-- `WakeAll` waits for the mutex, then takes `blockedThreads`. -/
  | lock
  /-- Loads `threadWaiter`. -/
  | loadMain (threads : List W)
  /-- Takes the list of tasks. -/
  | takeTasks (threads : List W) (mainWord : Option W)
  /-- Clears the waiter bit. -/
  | clearBit (threads : List W) (mainWord : Option W) (tasks : List W)
  /-- Lowers `waking`. -/
  | lowerMark (threads : List W) (mainWord : Option W) (tasks : List W)
  /-- Gives the mutex back. -/
  | unlock (threads : List W) (mainWord : Option W) (tasks : List W)
  /-- Past the lock: the words to kick, main's word and the tasks to wake. -/
  | wake (threads : List W) (mainWord : Option W) (tasks : List W)
deriving DecidableEq

structure State (dones waiters : Nat) where
  group : Group (Fin waiters)
  /-- A completer holds the mutex. -/
  locked : Bool
  done : Fin dones → DonePc (Fin waiters)
  waiter : Fin waiters → Waiter (Fin waiters)
  /-- The wait has been called. -/
  begun : Fin waiters → Bool
  /-- Increments whose `Done` has not been called. -/
  owed : Nat
  wakes : Fin waiters → Nat
  zeroSince : Fin waiters → Bool

inductive Label (dones waiters : Nat) where
  /-- `n.fetch_add(k)`. -/
  | add (k : Nat)
  /-- A wait is called. -/
  | wait (w : Fin waiters)
  | done (i : Fin dones)
  | waiter (w : Fin waiters) (choice : Bool)
  /-- The scheduler runs a woken task again. -/
  | resume (w : Fin waiters)
  /-- `WakeMain`, for a task pushed to main. -/
  | wakeMain (w : Fin waiters)
deriving DecidableEq

/-- A fresh group, nobody has called anything. -/
def initial (dones : Nat) {waiters : Nat} (kinds : Fin waiters → WaiterKind) :
    State dones waiters where
  group := { n := 0, waking := 0, taskWaiters := [], threadWaiter := none, blockedThreads := [] }
  locked := false
  done := fun _ => .idle
  waiter := fun w => Waiter.initial (kinds w)
  begun := fun _ => false
  owed := 0
  wakes := fun _ => 0
  zeroSince := fun _ => false

/-! ## Steps -/

/-- One step of a call of `Done`: the group, the mutex, the call and the signal after it. -/
def doneMove {W : Type} (g : Group W) (locked : Bool) :
    DonePc W → Option (Group W × Bool × DonePc W × Signal W)
  | .idle => some ({ g with waking := g.waking + 1 }, locked, .marked, .none)
  | .marked =>
    if countOf g.n = 1 ∧ hasWaiterBit g.n then
      some ({ g with n := g.n - 1 }, locked, .lock, .none)
    else some ({ g with n := g.n - 1 }, locked, .unmark, .none)
  | .unmark => some ({ g with waking := g.waking - 1 }, locked, .wake [] none [], .none)
  | .lock =>
    if locked then none
    else some ({ g with blockedThreads := [] }, true, .loadMain g.blockedThreads, .none)
  | .loadMain threads => some (g, locked, .takeTasks threads g.threadWaiter, .none)
  | .takeTasks threads mainWord =>
    some ({ g with taskWaiters := [] }, locked, .clearBit threads mainWord g.taskWaiters, .none)
  | .clearBit threads mainWord tasks =>
    some ({ g with n := g.n &&& notWaiterBit }, locked, .lowerMark threads mainWord tasks, .none)
  | .lowerMark threads mainWord tasks =>
    some ({ g with waking := g.waking - 1 }, locked, .unlock threads mainWord tasks, .none)
  | .unlock threads mainWord tasks => some (g, false, .wake threads mainWord tasks, .none)
  | .wake (t :: threads) mainWord tasks => some (g, locked, .wake threads mainWord tasks, .kick t)
  | .wake [] (some t) tasks => some (g, locked, .wake [] none tasks, .kick t)
  | .wake [] none (t :: tasks) => some (g, locked, .wake [] none tasks, .wake t)
  | .wake [] none [] => none

/-- The waiting thread needs the mutex for its next step. -/
def needsMutex {W : Type} : WaiterPc W → Bool
  | .blockRegister | .mainRegister | .mainUnregister | .settleLock => true
  | _ => false

/-- The task of this wait has been pushed. -/
def pushed {W : Type} : WaiterPc W → Bool
  | .addBit | .directTake | .directClear _ | .directWake _ | .suspended => true
  | _ => false

section Steps

variable {dones waiters : Nat}

/-- A wake named in a signal is counted. -/
def countWake (wakes : Fin waiters → Nat) : Signal (Fin waiters) → Fin waiters → Nat
  | .wake t => Function.update wakes t (wakes t + 1)
  | _ => wakes

/-- Notes for every pushed task whether the count is zero now. -/
def note (s : State dones waiters) : State dones waiters :=
  { s with
    zeroSince := fun w => s.zeroSince w || (pushed (s.waiter w).pc && countOf s.group.n == 0) }

def move (s : State dones waiters) : Label dones waiters → Option (State dones waiters)
  | .add k =>
    -- a count above `COUNT_MASK` would run into the waiter bit
    if countOf s.group.n + k ≤ countMask then
      some { s with group := { s.group with n := s.group.n + k }, owed := s.owed + k }
    else none
  | .wait w => if s.begun w then none else some { s with begun := Function.update s.begun w true }
  | .done i =>
    if s.done i = .idle ∧ s.owed = 0 then none
    else (doneMove s.group s.locked (s.done i)).map fun (g, locked, pc, signal) =>
      { s with
        group := g
        locked := locked
        done := Function.update s.done i pc
        waiter := signal.apply s.waiter
        owed := if s.done i = .idle then s.owed - 1 else s.owed
        wakes := countWake s.wakes signal }
  | .waiter w choice =>
    if s.begun w ∧ (needsMutex (s.waiter w).pc → s.locked = false) then
      (waiterMove s.group w (s.waiter w) choice).map fun (g, me, signal) =>
        { s with
          group := g
          waiter := signal.apply (Function.update s.waiter w me)
          wakes := countWake s.wakes signal }
    else none
  | .resume w =>
    (resumeMove (s.waiter w)).map fun me =>
      { s with waiter := Function.update s.waiter w me }
  | .wakeMain w =>
    if (s.waiter w).kind = .outOfPoolMain ∨ (s.waiter w).kind = .inPoolMain then
      some { s with waiter := (Signal.kick w).apply s.waiter }
    else none

def step (s : State dones waiters) (a : Label dones waiters) : Option (State dones waiters) :=
  (move s a).map note

end Steps

/-! ## Calls in progress -/

/-- The call has been made and has not returned. -/
def DonePc.inProgress {W : Type} : DonePc W → Bool
  | .idle | .wake [] none [] => false
  | _ => true

/-- `AddWaiter`, or the `WakeAllDirect` inside it, has been called and has not returned. -/
def adding {W : Type} : WaiterPc W → Bool
  | .addLoad | .addCas _ | .addBit | .directTake | .directClear _ | .directWake _ => true
  | _ => false

/-- The thread stands in `blockedThreads`, or has been taken out of it by a wake, and sleeps, is
about to, or has not stored to its word since. -/
def asleep {W : Type} : WaiterPc W → Bool
  | .blockSleep | .mainQuiet true | .mainSleep true | .mainRunning true => true
  | _ => false

/-! ## What one step can do -/

section Moves

variable {W : Type} {g g' : Group W} {locked locked' : Bool} {signal : Signal W}

inductive DoneMove (g : Group W) (locked : Bool) :
    DonePc W → Group W → Bool → DonePc W → Signal W → Prop where
  | mark : DoneMove g locked .idle { g with waking := g.waking + 1 } locked .marked .none
  | last (one : countOf g.n = 1) (bit : hasWaiterBit g.n = true) :
      DoneMove g locked .marked { g with n := g.n - 1 } locked .lock .none
  | decrement (other : ¬ (countOf g.n = 1 ∧ hasWaiterBit g.n = true)) :
      DoneMove g locked .marked { g with n := g.n - 1 } locked .unmark .none
  | unmark :
      DoneMove g locked .unmark { g with waking := g.waking - 1 } locked (.wake [] none []) .none
  | lock (free : locked = false) :
      DoneMove g locked .lock { g with blockedThreads := [] } true
        (.loadMain g.blockedThreads) .none
  | loadMain {threads : List W} :
      DoneMove g locked (.loadMain threads) g locked (.takeTasks threads g.threadWaiter) .none
  | takeTasks {threads : List W} {mainWord : Option W} :
      DoneMove g locked (.takeTasks threads mainWord) { g with taskWaiters := [] } locked
        (.clearBit threads mainWord g.taskWaiters) .none
  | clearBit {threads : List W} {mainWord : Option W} {tasks : List W} :
      DoneMove g locked (.clearBit threads mainWord tasks) { g with n := g.n &&& notWaiterBit }
        locked (.lowerMark threads mainWord tasks) .none
  | lowerMark {threads : List W} {mainWord : Option W} {tasks : List W} :
      DoneMove g locked (.lowerMark threads mainWord tasks) { g with waking := g.waking - 1 }
        locked (.unlock threads mainWord tasks) .none
  | unlock {threads : List W} {mainWord : Option W} {tasks : List W} :
      DoneMove g locked (.unlock threads mainWord tasks) g false (.wake threads mainWord tasks)
        .none
  | kick {t : W} {threads : List W} {mainWord : Option W} {tasks : List W} :
      DoneMove g locked (.wake (t :: threads) mainWord tasks) g locked
        (.wake threads mainWord tasks) (.kick t)
  | kickMain {t : W} {tasks : List W} :
      DoneMove g locked (.wake [] (some t) tasks) g locked (.wake [] none tasks) (.kick t)
  | wake {t : W} {tasks : List W} :
      DoneMove g locked (.wake [] none (t :: tasks)) g locked (.wake [] none tasks) (.wake t)

theorem DoneMove.of_doneMove {pc pc' : DonePc W}
    (moved : doneMove g locked pc = some (g', locked', pc', signal)) :
    DoneMove g locked pc g' locked' pc' signal := by
  cases pc with
  | idle =>
    cases moved
    exact .mark
  | marked =>
    simp only [doneMove] at moved
    split at moved
    · rename_i last
      cases moved
      exact .last last.1 last.2
    · rename_i other
      cases moved
      exact .decrement other
  | unmark =>
    cases moved
    exact .unmark
  | lock =>
    simp only [doneMove] at moved
    split at moved
    · cases moved
    · rename_i free
      cases moved
      exact .lock (by simpa using free)
  | loadMain threads =>
    cases moved
    exact .loadMain
  | takeTasks threads mainWord =>
    cases moved
    exact .takeTasks
  | clearBit threads mainWord tasks =>
    cases moved
    exact .clearBit
  | lowerMark threads mainWord tasks =>
    cases moved
    exact .lowerMark
  | unlock threads mainWord tasks =>
    cases moved
    exact .unlock
  | wake threads mainWord tasks =>
    cases threads with
    | cons t threads =>
      cases moved
      exact .kick
    | nil =>
      cases mainWord with
      | some t =>
        cases moved
        exact .kickMain
      | none =>
        cases tasks with
        | cons t tasks =>
          cases moved
          exact .wake
        | nil => cases moved

/-- A step of a waiting thread, as far as the lists of the group are concerned. -/
inductive WaiterMove (g : Group W) (w : W) (me : Waiter W) [DecidableEq W] :
    Group W → Waiter W → Signal W → Prop where
  | push {head : Option W} (here : me.pc = .addCas head) :
      WaiterMove g w me { g with taskWaiters := w :: g.taskWaiters } { me with pc := .addBit }
        .none
  | sawZero (here : me.pc = .addBit) (zero : countOf g.n = 0) :
      WaiterMove g w me { g with n := g.n ||| waiterBit } { me with pc := .directTake } .none
  | sawCount (here : me.pc = .addBit) (count : countOf g.n ≠ 0) :
      WaiterMove g w me { g with n := g.n ||| waiterBit } { me with pc := .suspended } .none
  | tookNone (here : me.pc = .directTake) (empty : g.taskWaiters = []) :
      WaiterMove g w me g { me with pc := .suspended } .none
  | took (here : me.pc = .directTake) (some : g.taskWaiters ≠ []) :
      WaiterMove g w me { g with taskWaiters := [] } { me with pc := .directClear g.taskWaiters }
        .none
  | clear {tasks : List W} (here : me.pc = .directClear tasks) :
      WaiterMove g w me { g with n := g.n &&& notWaiterBit } { me with pc := .directWake tasks }
        .none
  | wake {t : W} {tasks : List W} (here : me.pc = .directWake (t :: tasks)) :
      WaiterMove g w me g { me with pc := .directWake tasks } (.wake t)
  | finish (here : me.pc = .directWake []) :
      WaiterMove g w me g { me with pc := .suspended } .none
  | register {pc' : WaiterPc W} (here : me.pc = .blockRegister ∨ me.pc = .mainRegister)
      (count : countOf g.n ≠ 0) (after : pc' = .blockSleep ∨ pc' = .mainQuiet true) :
      WaiterMove g w me
        { g with n := g.n ||| waiterBit, blockedThreads := g.blockedThreads ++ [w] }
        { me with pc := pc' } .none
  | unregister (here : me.pc = .mainUnregister) :
      WaiterMove g w me { g with blockedThreads := swapRemove g.blockedThreads w }
        { me with pc := .mainPoll } .none
  | other {g' : Group W} {me' : Waiter W} (before : pushed me.pc = false)
      (after : pushed me'.pc = false) (tasks : g'.taskWaiters = g.taskWaiters)
      (threads : g'.blockedThreads = g.blockedThreads)
      (word : g'.n = g.n ∨ g'.n = g.n ||| waiterBit)
      (woken : me'.woken = me.woken)
      (returned : me'.returned = true → me.returned = true ∨ me'.pc = .left)
      (left : me.pc ≠ .left)
      (sleeps : asleep me'.pc = true → asleep me.pc = true ∧ me'.word = me.word) :
      WaiterMove g w me g' me' .none

theorem WaiterMove.of_waiterMove [DecidableEq W] {w : W} {me me' : Waiter W} {choice : Bool}
    (moved : waiterMove g w me choice = some (g', me', signal)) :
    WaiterMove g w me g' me' signal := by
  unfold waiterMove at moved
  split at moved
  case h_3 head here =>
    split at moved
    · cases moved
      exact .push here
    · cases moved
      exact .other (by simp [here, pushed]) rfl rfl rfl (.inl rfl) rfl .inl (by simp [here])
        (by simp [asleep])
  case h_4 here =>
    cases moved
    by_cases zero : countOf g.n = 0
    · simp only [zero, if_true]
      exact .sawZero here zero
    · simp only [zero, if_false]
      exact .sawCount here zero
  case h_5 here =>
    cases moved
    by_cases empty : g.taskWaiters = []
    · simp only [empty, if_true]
      have same : ({ g with taskWaiters := [] } : Group W) = g := by rw [← empty]
      rw [same]
      exact .tookNone here empty
    · simp only [empty, if_false]
      exact .took here empty
  case h_6 tasks here =>
    cases moved
    exact .clear here
  case h_7 here =>
    cases moved
    exact .finish here
  case h_8 t tasks here =>
    cases moved
    exact .wake here
  case h_11 here =>
    split at moved
    · cases moved
      exact .other (by simp [here, pushed]) rfl rfl rfl (.inr rfl) rfl .inl (by simp [here])
        (by simp [asleep])
    · rename_i count
      cases moved
      exact .register (.inl here) count (.inl rfl)
  case h_16 here =>
    split at moved
    · cases moved
      exact .other (by simp [here, pushed]) rfl rfl rfl (.inr rfl) rfl .inl (by simp [here])
        (by simp [asleep])
    · rename_i count
      cases moved
      exact .register (.inr here) count (.inr rfl)
  case h_20 here =>
    cases moved
    exact .unregister here
  -- What is left touches neither list; a thread that sleeps here slept before.
  all_goals rename_i here
  all_goals first
    | cases moved
    | (split at moved <;> cases moved)
  all_goals
    refine .other (by simp [here, pushed]) ?_ rfl rfl ?_ rfl ?_ (by simp [here]) ?_ <;>
      grind [pushed, asleep]

end Moves

end JLibSched.WaitGroup.Rounds
