import JLibSched.CondVar.Moves
import JLibSched.Semaphore.Cancellation

/-!
# Cancelling the waiters of a condition variable

Like a wait of the semaphore, a cancellable one tests its token again in the section in which it
joins the queue, so that no `CancelWaiters` of its scope misses it.
-/

namespace JLibSched.CondVar

open Transition WaitQueue Cancel Wait

variable {n : Nat} {tasks : Tasks n} {s t : State n} {a : Label n} {p : Fin n}

/-- The scopes of queued waiters stay alive. -/
def scopesAlive (s : State n) : Label n → Prop
  | .tasks tasks => ScopesAlive s.line s.tasks.slots tasks.slots
  | _ => True

instance (s : State n) (a : Label n) : Decidable (scopesAlive s a) :=
  match a with
  | .tasks tasks => inferInstanceAs (Decidable (ScopesAlive s.line s.tasks.slots tasks.slots))
  | .wait _ | .waitCancellable _ | .enqueue _ | .waitBare _ _ | .notifyOne _ | .notifyAll _
  | .cancelWaiters _ _ | .advance _ | .proceed _ | .mutex _ => isTrue trivial

/-- What a step does to the queue and to the history of its `CancelWaiters`. -/
theorem Move.recorded (move : Move s t) (kept : Kept desk s.line) :
    Recorded desk s.tasks t.tasks s.line t.line s.history t.history := by
  have shared := move.shared
  -- a party moves that carries nobody and was not woken
  have turn {p : Fin n} (pc : Pc n) (calm : Calm (s.line.pc p))
      (moved : t.line.pc = Function.update s.line.pc p pc) (still : t.line.clock = s.line.clock)
      (frame : Frame s t) : Recorded desk s.tasks t.tasks s.line t.line s.history t.history :=
    .keep frame.tasks shared still
      (fun r between => between.turn pc moved calm.free.1 calm.awake) frame.history
  have stands {p : Fin n} {place : Place} (here : s.line.pc p = .stands place) :
      Calm (s.line.pc p) := by
    rw [here]
    exact calm_stands
  cases move with
  | other line frame =>
    refine .keep frame.tasks shared (by rw [line]) (fun r between => ?_) frame.history
    rw [line]
    exact between
  | tasks line history => exact .scopes line history
  | go _ _ _ here line _ frame | quit _ _ here _ line frame | pop _ _ _ _ here _ line frame
  | takeAll _ here line frame =>
    exact turn _ (stands here) (by rw [line]; rfl) (by rw [line]; rfl) frame
  | join p place node here line _ alert frame =>
    exact .join p node frame.tasks (stands here) alert line frame.history
  | test p w here line frame =>
    exact .keep frame.tasks shared (by rw [line]; rfl)
      (fun r between => between.test _ (by rw [line]; rfl) here) frame.history
  | wake p w result pc waking line frame =>
    refine .keep frame.tasks shared (by rw [line]; rfl) (fun r between => ?_) frame.history
    rw [line]
    exact between.wake kept waking
  | finish p place here line frame =>
    exact turn _ (by rw [here]; exact ⟨⟨rfl, rfl⟩, nofun⟩) (by rw [line]; rfl)
      (by rw [line]; rfl) frame
  | sweep p tok here line tasks history =>
    exact .sweep p tok tasks (stands here) line history
  | back p wake here line tasks history => exact .back p wake .idle tasks here line history

/-! ## Steps that leave the tasks alone -/

theorem notifyOne_tasks : (s.notifyOne p).tasks = s.tasks := by
  unfold State.notifyOne
  split <;> rfl

theorem advance_tasks (stepped : advance s p = some t) : t.tasks = s.tasks := by
  unfold advance at stepped
  split at stepped
  all_goals cases stepped
  · exact notifyOne_tasks
  all_goals rfl

theorem call_tasks {b : Mutex.Label n} {phase : Phase} (keeps : b.setsTasks = false)
    (called : s.call b p phase = some t) : t.tasks = s.tasks := by
  unfold State.call at called
  obtain ⟨mutex, stepped, rfl⟩ := Option.map_eq_some_iff.mp called
  exact Mutex.step_tasks stepped keeps

theorem back_tasks (stepped : s.back p = some t) : t.tasks = s.tasks := by
  unfold State.back at stepped
  split at stepped
  all_goals cases stepped
  all_goals rfl

theorem proceed_tasks (stepped : proceed s p = some t) : t.tasks = s.tasks := by
  unfold proceed at stepped
  split at stepped
  case h_1 => cases stepped
  case h_2 => exact call_tasks rfl stepped
  case h_3 =>
    split at stepped
    · split at stepped
      · exact call_tasks rfl stepped
      · cases stepped
        rfl
    · cases stepped
  case h_4 =>
    split at stepped
    · exact call_tasks rfl stepped
    · cases stepped
  case h_5 =>
    split at stepped
    · exact back_tasks stepped
    · cases stepped

theorem step_scopesAlive (stepped : step s a = some t) (allowed : scopesAlive s a) :
    ScopesAlive s.line s.tasks.slots t.tasks.slots := by
  have same (tasks : t.tasks = s.tasks) : ScopesAlive s.line s.tasks.slots t.tasks.slots := by
    rw [tasks]
    exact ScopesAlive.refl
  cases a with
  | tasks tasks =>
    cases stepped
    exact allowed
  | advance p => exact same (advance_tasks stepped)
  | proceed p => exact same (proceed_tasks stepped)
  | mutex b =>
    simp only [step] at stepped
    split at stepped
    · rename_i allowed
      obtain ⟨mutex, called, rfl⟩ := Option.map_eq_some_iff.mp stepped
      exact same (Mutex.step_tasks called allowed.1)
    · cases stepped
  | waitBare p cancellable =>
    simp only [step] at stepped
    split at stepped
    · split at stepped
      · cases stepped
        exact same rfl
      · exact same (Eq.trans (call_tasks rfl stepped) rfl)
    · cases stepped
  | waitCancellable p | enqueue p =>
    simp only [step] at stepped
    split at stepped
    · cases stepped
      refine same ?_
      split <;> rfl
    · cases stepped
  | notifyOne p =>
    simp only [step] at stepped
    split at stepped
    · cases stepped
      exact same notifyOne_tasks
    · cases stepped
  | wait p | notifyAll p | cancelWaiters p tok =>
    simp only [step] at stepped
    split at stepped
    · cases stepped
      exact same rfl
    · cases stepped

/-- As long as the scopes of queued waiters stay alive, their cancellation is not lost. -/
theorem cancelInv_of_reach (reach : Reach step scopesAlive (initial tasks) s) :
    CancelInv desk s.tasks s.line s.history := by
  refine reach.invariant (I := fun s => CancelInv desk s.tasks s.line s.history)
    (empty_cancelInv _ _) fun inv allowed stepped => ?_
  exact inv.step ((step_move stepped).recorded inv.kept) (step_scopesAlive stepped allowed)

/-- Cancellation is lost neither by a semaphore nor by a condition variable. -/
theorem cancelled_waiters_return {m : Nat} {maxPermits permits : Int} {tasks' : Tasks m}
    {sem : Semaphore.State m} {cv : State n}
    (semRun : Reach (Semaphore.step maxPermits) Semaphore.scopesAlive
      (Semaphore.initial permits tasks') sem)
    (cvRun : Reach step scopesAlive (initial tasks) cv) :
    NotLost Semaphore.desk sem.tasks sem.line sem.history ∧
      NotLost desk cv.tasks cv.line cv.history :=
  ⟨(Semaphore.cancelInv_of_reach semRun).notLost, (cancelInv_of_reach cvRun).notLost⟩

/-- One scope, which the task of party 0 belongs to. -/
def oneScope : Tasks 2 := { noScopes 2 with token := fun p => if p = 0 then 0 else kNone }

/-- The same scope, cancelled. -/
def oneCancelled : Tasks 2 := { oneScope with slots := (cancelVia oneScope.slots 0).1 }

/-- Party 0 waits, its scope is cancelled and swept, and it returns. -/
def sweptSemLabels : List (Semaphore.Label 2) :=
  [.waitCancellable 0, .enqueue 0, .tasks oneCancelled, .cancelWaiters 1 0, .advance 1, .advance 1,
    .advance 0]

def sweptSem : Semaphore.State 2 :=
  (run (Semaphore.step 1) Semaphore.scopesAlive (Semaphore.initial 0 oneScope)
    sweptSemLabels).getD (Semaphore.initial 0 oneScope)

/-- The same on a condition variable: there it locks the mutex before it returns. -/
def sweptLabels : List (Label 2) :=
  [.mutex (.lock 0), .waitCancellable 0, .enqueue 0, .tasks oneCancelled, .cancelWaiters 1 0,
    .advance 1, .advance 1, .proceed 0, .mutex (.advance 0), .mutex (.advance 0), .proceed 0,
    .proceed 0, .proceed 0]

def swept : State 2 := (run step scopesAlive (initial oneScope) sweptLabels).getD (initial oneScope)

theorem swept_notLost : sweptSem.history.removed.answered 0 = 1 ∧ sweptSem.history.swept = [0] ∧
    swept.answers 0 = [.cancelled] ∧ swept.history.removed.answered 0 = 1 ∧
      NotLost Semaphore.desk sweptSem.tasks sweptSem.line sweptSem.history ∧
        NotLost desk swept.tasks swept.line swept.history :=
  ⟨by decide +kernel, by decide +kernel, by decide +kernel, by decide +kernel,
    cancelled_waiters_return (Reach.of_isSome sweptSemLabels (by decide +kernel))
      (Reach.of_isSome sweptLabels (by decide +kernel))⟩

end JLibSched.CondVar
