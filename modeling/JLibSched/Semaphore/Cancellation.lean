import JLibSched.Semaphore.Moves

/-!
# Cancelling the waiters of a semaphore

A cancellable wait tests its token again in the section in which it joins the queue.  So a
`CancelWaiters` of its scope either finds it there or comes early enough for that test, and each
waiter that a `CancelWaiters` takes off returns `Cancelled`.
-/

namespace JLibSched.Semaphore

open Transition WaitQueue Cancel Wait

variable {n : Nat} {maxPermits permits : Int} {tasks : Tasks n} {s t : State n} {a : Label n}
  {p : Fin n}

/-- The scopes of queued waiters stay alive. -/
def scopesAlive (s : State n) : Label n → Prop
  | .tasks tasks => ScopesAlive s.line s.tasks.slots tasks.slots
  | _ => True

instance (s : State n) (a : Label n) : Decidable (scopesAlive s a) :=
  match a with
  | .tasks tasks => inferInstanceAs (Decidable (ScopesAlive s.line s.tasks.slots tasks.slots))
  | .wait _ | .waitBare _ | .waitCancellable _ | .enqueue _ | .cancellableBare _ | .acquireAsync _
  | .tryWait _ | .signal _ | .cancelWaiters _ _ | .advance _ => isTrue trivial

/-- What a step does to the queue and to the history of its `CancelWaiters`. -/
theorem Move.recorded (move : Move maxPermits s t) (kept : Kept desk s.line) :
    Recorded desk s.tasks t.tasks s.line t.line s.history t.history := by
  have shared := move.shared
  -- a party moves that carries nobody and was not woken
  have turn {p : Fin n} {place : Place} (pc : Pc n) (here : s.line.pc p = .stands place)
      (moved : t.line.pc = Function.update s.line.pc p pc) (still : t.line.clock = s.line.clock)
      (frame : Frame s t) : Recorded desk s.tasks t.tasks s.line t.line s.history t.history :=
    .keep frame.tasks shared still
      (fun r between => between.turn pc moved (by rw [here]; rfl) (by rw [here]; exact nofun))
      frame.history
  cases move with
  | tasks line _ _ history => exact .scopes line history
  | go _ _ _ here line _ _ _ _ frame | acquire _ _ here _ _ line _ _ frame
  | bank _ _ here _ line _ _ frame | pop _ _ _ _ here _ line _ _ frame =>
    exact turn _ here (by rw [line]; rfl) (by rw [line]; rfl) frame
  | join p place node here _ _ line _ _ alert frame =>
    exact .join p node frame.tasks (by rw [here]; exact calm_stands) alert line frame.history
  | test p w here line _ _ frame =>
    exact .keep frame.tasks shared (by rw [line]; rfl)
      (fun r between => between.test _ (by rw [line]; rfl) here) frame.history
  | wake p w result pc waking _ line _ _ frame =>
    refine .keep frame.tasks shared (by rw [line]; rfl) (fun r between => ?_) frame.history
    rw [line]
    exact between.wake kept waking
  | finish p here line _ _ frame =>
    exact .keep frame.tasks shared (by rw [line]; rfl)
      (fun r between => between.turn _ (by rw [line]; rfl) (by rw [here]; rfl)
        (by rw [here]; exact nofun)) frame.history
  | sweep p tok here line _ _ tasks history =>
    exact .sweep p tok tasks (by rw [here]; exact calm_stands) line history
  | back p wake here line _ _ tasks history => exact .back p wake .idle tasks here line history

/-! ## Steps that leave the tasks alone -/

theorem tryWait_tasks {failed : Place} : (s.tryWait p failed).tasks = s.tasks := by
  unfold State.tryWait
  split <;> rfl

theorem wait_tasks : (s.wait p).tasks = s.tasks := by
  unfold State.wait
  split <;> rfl

theorem waitAsyncEnqueue_tasks {result : Bool} :
    (s.waitAsyncEnqueue p result).tasks = s.tasks := by
  unfold State.waitAsyncEnqueue
  split
  · rfl
  · split
    · split <;> rfl
    · rfl

theorem signal_tasks : (s.signal maxPermits p).tasks = s.tasks := by
  unfold State.signal
  split
  · split <;> rfl
  · rfl

theorem advance_tasks (stepped : advance maxPermits s p = some t) : t.tasks = s.tasks := by
  unfold advance at stepped
  split at stepped
  all_goals cases stepped
  · exact tryWait_tasks
  · exact tryWait_tasks
  · rfl
  · exact signal_tasks
  all_goals rfl

theorem step_scopesAlive (stepped : step maxPermits s a = some t) (allowed : scopesAlive s a) :
    ScopesAlive s.line s.tasks.slots t.tasks.slots := by
  have same (tasks : t.tasks = s.tasks) : ScopesAlive s.line s.tasks.slots t.tasks.slots := by
    rw [tasks]
    exact ScopesAlive.refl
  cases a with
  | tasks tasks =>
    cases stepped
    exact allowed
  | advance p => exact same (advance_tasks stepped)
  | wait p | waitBare p | waitCancellable p | enqueue p | cancellableBare p | acquireAsync p
  | tryWait p | signal p | cancelWaiters p tok =>
    simp only [step] at stepped
    split at stepped
    · cases stepped
      first
        | exact same wait_tasks
        | exact same waitAsyncEnqueue_tasks
        | exact same tryWait_tasks
        | exact same signal_tasks
        | exact same rfl
    · cases stepped

/-- As long as the scopes of queued waiters stay alive, their cancellation is not lost. -/
theorem cancelInv_of_reach
    (reach : Reach (step maxPermits) scopesAlive (initial permits tasks) s) :
    CancelInv desk s.tasks s.line s.history := by
  refine reach.invariant (I := fun s => CancelInv desk s.tasks s.line s.history)
    (empty_cancelInv _ _) fun inv allowed stepped => ?_
  exact inv.step ((step_move stepped).recorded inv.kept) (step_scopesAlive stepped allowed)

end JLibSched.Semaphore
