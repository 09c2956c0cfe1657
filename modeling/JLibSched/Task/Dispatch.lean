import JLibSched.Lib.Transition
import JLibSched.Task.Basic

/-!
# Dispatching a task

A task waits in some queue until a thread takes it.  The thread discards a task that is cancelled
and has not started, and otherwise runs it, for which a fiber task needs a fiber.  A worker marks
the task as started before it looks for the fiber and leaves the mark when it finds none, so a
task that has been through this is not discarded any more (`cancelled_discarded_iff`).
-/

namespace JLibSched.Dispatch

open Transition

/-- What a task tells when it ends. -/
structure Task where
  type : TaskType
  /-- The task is the body of a `TaskDAG` node. -/
  node : Bool
  waitGroup : Bool

/-- Who takes the task out of its queue. -/
inductive Runner where
  /-- `Thread::Worker`, with a task that a reserved worker stole or not. -/
  | worker (stolenHere : Bool)
  /-- `RunHelped` on main's helper. -/
  | helper
  /-- `RunOneMainTask` and `ProcessMainThread`. -/
  | main
  /-- `TryRunStolenNativeTask`, for coroutines only. -/
  | spinHelp
deriving DecidableEq, Repr

inductive Place where
  | queued
  /-- Before `DiscardIfCancelled`. -/
  | taken (r : Runner)
  /-- `DiscardIfCancelled` has let the task pass. -/
  | passed (r : Runner)
  | entered
  | discarded
deriving DecidableEq, Repr

structure State where
  place : Place
  started : Bool
  /-- `IsTaskCancelled`. -/
  cancelled : Bool
  /-- `record->fiber`. -/
  fiber : Bool
  /-- How often the body was entered. -/
  entries : Nat
  /-- How often the node was told. -/
  nodeTold : Nat
  /-- How often the group was told. -/
  groupTold : Nat
  freed : Nat
  /-- A worker has found no fiber for the task. -/
  starved : Bool
deriving DecidableEq, Repr

def initial : State where
  place := .queued
  started := false
  cancelled := false
  fiber := false
  entries := 0
  nodeTold := 0
  groupTold := 0
  freed := 0
  starved := false

inductive Label where
  | cancel
  | take (r : Runner)
  | check
  /-- The rest of the attempt: whether a fiber is found, and whether I/O has reached a reserved
  worker. -/
  | go (found busy : Bool)
deriving DecidableEq, Repr

/-- `DiscardIfCancelled`, once it comes to discard. -/
def State.discard (s : State) (task : Task) : State :=
  { s with
    place := .discarded
    nodeTold := s.nodeTold + if task.node then 1 else 0
    groupTold := s.groupTold + if task.waitGroup then 1 else 0
    freed := s.freed + 1 }

def State.enter (s : State) (fiber : Bool) : State :=
  { s with place := .entered, entries := s.entries + 1, fiber := fiber }

/-- `Thread::Worker` after its check. -/
def goWorker (task : Task) (s : State) (stolenHere found busy : Bool) : State :=
  if stolenHere && busy then { s with place := .queued }
  else
    let s := { s with started := true }
    match task.type with
    | .coroutine | .native => s.enter false
    | .fiber =>
      if s.fiber || found then s.enter true
      else { s with place := .queued, starved := true }

/-- `RunHelped` after its check. -/
def goHelper (task : Task) (s : State) (found : Bool) : State :=
  match task.type with
  | .coroutine | .native => { s with started := true }.enter false
  | .fiber =>
    if s.fiber || found then { s with started := true }.enter true else { s with place := .queued }

/-- `RunMainTask`. -/
def goMain (task : Task) (s : State) (found : Bool) : State :=
  if s.started && s.fiber then goHelper task s found else s.enter false

def step (task : Task) (s : State) : Label → Option State
  | .cancel => some { s with cancelled := true }
  | .take r =>
    if s.place = .queued ∧ (r = .spinHelp → task.type = .coroutine) then
      some { s with place := .taken r }
    else none
  | .check =>
    match s.place with
    | .taken r =>
      if s.started = false ∧ s.cancelled = true then some (s.discard task)
      else some { s with place := .passed r }
    | _ => none
  | .go found busy =>
    match s.place with
    | .passed (.worker stolenHere) => some (goWorker task s stolenHere found busy)
    | .passed .helper => some (goHelper task s found)
    | .passed .main => some (goMain task s found)
    | .passed .spinHelp => some ({ s with started := true }.enter false)
    | _ => none

/-- The next attempt, whoever makes it, drops the task: the body is not entered, the node and the
group are told once, and the task is freed once. -/
def Discards (task : Task) (s : State) : Prop :=
  ∀ r, (r = .spinHelp → task.type = .coroutine) →
    ∃ t u, step task s (.take r) = some t ∧ step task t .check = some u ∧ u.place = .discarded ∧
      u.entries = 0 ∧ u.nodeTold = (if task.node then 1 else 0) ∧
      u.groupTold = (if task.waitGroup then 1 else 0) ∧ u.freed = 1

/-! ## Attempts that come to nothing -/

/-- Until the body is entered, nothing has been told, and the mark is that of a worker without a
fiber. -/
structure Fresh (s : State) : Prop where
  entries : s.entries = 0
  nodeTold : s.nodeTold = 0
  groupTold : s.groupTold = 0
  freed : s.freed = 0
  started : s.started = s.starved

def Inv (s : State) : Prop :=
  match s.place with
  | .queued | .taken _ | .passed _ => Fresh s
  | .entered | .discarded => True

variable {task : Task} {s t : State}

theorem initial_inv : Inv initial := ⟨rfl, rfl, rfl, rfl, rfl⟩

theorem Fresh.move (fresh : Fresh s) (place : Place) : Inv { s with place := place } := by
  cases place with
  | queued | taken | passed => exact ⟨fresh.entries, fresh.nodeTold, fresh.groupTold, fresh.freed,
      fresh.started⟩
  | entered | discarded => trivial

theorem Inv.cancel (inv : Inv s) : Inv { s with cancelled := true } := by
  unfold Inv at *
  cases place : s.place with
  | queued | taken | passed =>
    rw [place] at inv
    exact ⟨inv.entries, inv.nodeTold, inv.groupTold, inv.freed, inv.started⟩
  | entered | discarded => trivial

theorem Fresh.goWorker (fresh : Fresh s) (stolenHere found busy : Bool) :
    Inv (goWorker task s stolenHere found busy) := by
  unfold Dispatch.goWorker
  split
  · exact fresh.move .queued
  · simp only
    split
    · trivial
    · trivial
    · split
      · trivial
      · exact ⟨fresh.entries, fresh.nodeTold, fresh.groupTold, fresh.freed, rfl⟩

theorem Fresh.goHelper (fresh : Fresh s) (found : Bool) : Inv (goHelper task s found) := by
  unfold Dispatch.goHelper
  split
  · trivial
  · trivial
  · split
    · trivial
    · exact fresh.move .queued

theorem Fresh.goMain (fresh : Fresh s) (found : Bool) : Inv (goMain task s found) := by
  unfold Dispatch.goMain
  split
  · exact fresh.goHelper found
  · trivial

theorem Inv.step {a : Label} (inv : Inv s) (stepped : step task s a = some t) : Inv t := by
  cases a with
  | cancel =>
    cases stepped
    exact inv.cancel
  | take r =>
    simp only [Dispatch.step] at stepped
    split at stepped
    · rename_i may
      cases stepped
      rw [Inv, may.1] at inv
      exact Fresh.move inv (.taken r)
    · cases stepped
  | check =>
    simp only [Dispatch.step] at stepped
    split at stepped
    · rename_i r taken
      rw [Inv, taken] at inv
      split at stepped
      · cases stepped
        trivial
      · cases stepped
        exact Fresh.move inv (.passed r)
    · cases stepped
  | go found busy =>
    simp only [Dispatch.step] at stepped
    split at stepped
    · rename_i passed
      cases stepped
      rw [Inv, passed] at inv
      exact Fresh.goWorker inv _ _ _
    · rename_i passed
      cases stepped
      rw [Inv, passed] at inv
      exact Fresh.goHelper inv _
    · rename_i passed
      cases stepped
      rw [Inv, passed] at inv
      exact Fresh.goMain inv _
    · cases stepped
      trivial
    · cases stepped

theorem queued_fresh (reach : Reach (step task) anyStep initial s) (queued : s.place = .queued) :
    Fresh s := by
  have inv : Inv s := reach.invariant initial_inv fun inv _ stepped => inv.step stepped
  unfold Inv at inv
  rwa [queued] at inv

/-- A cancelled task that waits for its next attempt is discarded by it exactly when no worker has
looked for a fiber for it in vain. -/
theorem cancelled_discarded_iff (task : Task) (s : State)
    (reach : Reach (step task) anyStep initial s) (queued : s.place = .queued)
    (cancelled : s.cancelled = true) : Discards task s ↔ s.starved = false := by
  have fresh := queued_fresh reach queued
  constructor
  · intro discards
    obtain ⟨t, u, taken, checked, discarded, -⟩ := discards (.worker false) (by simp)
    simp only [step, queued, reduceCtorEq, false_implies, and_self, if_true] at taken
    cases taken
    simp only [step] at checked
    split at checked
    · rename_i fails
      exact fresh.started ▸ fails.1
    · cases checked
      cases discarded
  · intro fed r may
    refine ⟨{ s with place := .taken r }, { s with place := .taken r }.discard task, ?_, ?_, rfl,
      fresh.entries, ?_, ?_, ?_⟩
    · exact if_pos ⟨queued, may⟩
    · exact if_pos ⟨fresh.started.trans fed, cancelled⟩
    · simp [State.discard, fresh.nodeTold]
    · simp [State.discard, fresh.groupTold]
    · simp [State.discard, fresh.freed]

/-- A fiber task with a group, and no node. -/
def plain : Task := ⟨.fiber, false, true⟩

/-- Main's helper finds no fiber and gives the task back, and it is cancelled. -/
def helpedLabels : List Label := [.take .helper, .check, .go false false, .cancel]

def helped : State := (run (step plain) anyStep initial helpedLabels).getD initial

theorem helped_reach : Reach (step plain) anyStep initial helped :=
  Reach.of_isSome helpedLabels (by decide)

theorem helped_discarded_iff : Discards plain helped ↔ helped.starved = false :=
  cancelled_discarded_iff plain helped helped_reach (by decide) (by decide)

/-- A worker finds no fiber and gives the task back, and it is cancelled. -/
def starvingLabels : List Label := [.take (.worker false), .check, .go false false, .cancel]

def starving : State := (run (step plain) anyStep initial starvingLabels).getD initial

theorem starving_reach : Reach (step plain) anyStep initial starving :=
  Reach.of_isSome starvingLabels (by decide)

/-- The next attempt takes the task for one that has started. -/
theorem cancelled_not_discarded : ¬ ∀ (task : Task) (s : State),
    Reach (step task) anyStep initial s → s.place = .queued → s.cancelled = true →
      Discards task s := by
  intro discards
  obtain ⟨t, u, taken, checked, discarded, -⟩ :=
    discards plain starving starving_reach (by decide) (by decide) (.worker false) (by simp)
  have begun : step plain starving (.take (.worker false)) =
      some { starving with place := .taken (.worker false) } := by decide
  rw [begun] at taken
  cases taken
  have passed : step plain { starving with place := .taken (.worker false) } .check =
      some { starving with place := .passed (.worker false) } := by decide
  rw [passed] at checked
  cases checked
  cases discarded

end JLibSched.Dispatch
