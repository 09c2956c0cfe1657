import JLibSched.Mutex.Exclusion

/-!
# Cancelling the waiters of a mutex

`LockCancellable` tests its token before it takes `spinLock`, and joins the queue without another
test.  A scope that is cancelled in between, and whose `CancelWaiters` goes through the queue then,
misses the waiter.  In runs where no waiter joins the queue so late, no waiter of a swept scope is
in the queue.
-/

namespace JLibSched.Mutex

open Transition WaitQueue Cancel Wait

variable {n : Nat} {s t : State n} {a : Label n} {p u w : Fin n}

/-- No cancellable waiter in the queue lies within a scope that was cancelled and swept. -/
def NoneLost (s : State n) : Prop :=
  ∀ w ∈ s.line.queue, ∀ node, s.line.node w = some node → node.cancellable = true →
    ∀ tok ∈ s.swept, isWithin s.tasks.slots node.token tok = false

/-- A cancellable waiter that finds the mutex locked lies within no scope that was cancelled and
swept since its test, and the scopes of queued waiters stay alive. -/
def inTime (s : State n) : Label n → Prop
  | .enqueue p => s.locked = true →
      ∀ tok ∈ s.swept, isWithin s.tasks.slots (s.tasks.token p) tok = false
  | .tasks tasks => ∀ w ∈ s.line.queue, ∀ node ∈ s.line.node w,
      Alive s.tasks.slots tasks.slots node.token
  | _ => True

instance (s : State n) (a : Label n) : Decidable (inTime s a) :=
  match a with
  | .enqueue p => inferInstanceAs (Decidable (s.locked = true →
      ∀ tok ∈ s.swept, isWithin s.tasks.slots (s.tasks.token p) tok = false))
  | .tasks tasks => inferInstanceAs (Decidable (∀ w ∈ s.line.queue, ∀ node ∈ s.line.node w,
      Alive s.tasks.slots tasks.slots node.token))
  | .lock _ | .lockCancellable _ | .spin _ | .tryLock _ | .lockBare _ | .unlock _
  | .cancelWaiters _ _ | .advance _ | .notify _ _ | .spurious _ => isTrue trivial

/-- The queue gets no new waiter, and the scopes are as they were. -/
structure Shrinks (s t : State n) : Prop where
  tasks : t.tasks = s.tasks
  swept : t.swept = s.swept
  queue : ∀ w ∈ t.line.queue, w ∈ s.line.queue ∧ t.line.node w = s.line.node w

theorem Shrinks.noneLost (shrinks : Shrinks s t) (none : NoneLost s) : NoneLost t := by
  intro w mem node here cancellable tok swept
  obtain ⟨before, same⟩ := shrinks.queue w mem
  rw [same] at here
  rw [shrinks.swept] at swept
  rw [shrinks.tasks]
  exact none w before node here cancellable tok swept

/-- A party moves that does not sleep. -/
theorem Inv.shrinks (inv : Inv s) (pc : Pc n) (tasks : t.tasks = s.tasks)
    (swept : t.swept = s.swept) (queue : ∀ w ∈ t.line.queue, w ∈ s.line.queue)
    (moved : t.line.pc = Function.update s.line.pc p pc) (awake : (s.line.pc p).sleeps = 0) :
    Shrinks s t where
  tasks := tasks
  swept := swept
  queue w mem := by
    have before := queue w mem
    have asleep := inv.kept.sound.queued before
    have apart : w ≠ p := by
      rintro rfl
      omega
    refine ⟨before, ?_⟩
    unfold Line.node
    rw [moved, Function.update_of_ne apart]

theorem Inv.shrinks_wake (inv : Inv s) {result : WaitResult} {pc : Pc n}
    (carried : w ∈ (s.line.pc u).hand) : Shrinks s (s.wake u w result pc) where
  tasks := rfl
  swept := rfl
  queue r mem := by
    have asleep := inv.kept.sound.queued (w := r) mem
    have awake := Pc.sleeps_of_hand carried
    have notU : r ≠ u := by
      rintro rfl
      omega
    have notW : r ≠ w := by
      rintro rfl
      exact inv.kept.sound.not_queued carried mem
    refine ⟨mem, ?_⟩
    unfold Line.node State.wake Wait.wake
    simp only [Line.wake, Line.set]
    rw [Function.update_of_ne notU, Function.update_of_ne notW]

theorem Inv.shrinks_go (inv : Inv s) {place : Place} (awake : (s.line.pc p).sleeps = 0) :
    Shrinks s (s.go p place) :=
  inv.shrinks (.stands place) rfl rfl (fun _ => id) rfl awake

theorem Inv.shrinks_tryLock (inv : Inv s) {got failed : Place}
    (awake : (s.line.pc p).sleeps = 0) : Shrinks s (s.tryLock p got failed) := by
  unfold State.tryLock
  split
  · exact inv.shrinks_go awake
  · exact inv.shrinks (.stands got) rfl rfl (fun _ => id) rfl awake

theorem Inv.shrinks_placeStep (inv : Inv s) {place : Place} (awake : (s.line.pc p).sleeps = 0)
    (stepped : placeStep s p place = some t) : Shrinks s t := by
  cases place with
  | idle | checked | holding | bareBlocked | unlockTest | unlockSkip | unlockGrant | unlockNotify
  | cancelWaiters => cases stepped
  | spin | bareTry =>
    cases stepped
    exact inv.shrinks_tryLock awake
  | spinTest | unlockBare =>
    cases stepped
    exact inv.shrinks_go awake
  | bareCount | bareFailed | bareGot | bareLeave =>
    cases stepped
    exact inv.shrinks (.stands _) rfl rfl (fun _ => id) rfl awake
  | bareLock | bareNotified | unlockMtx =>
    simp only [placeStep] at stepped
    split at stepped
    · cases stepped
      exact inv.shrinks (.stands _) rfl rfl (fun _ => id) rfl awake
    · cases stepped
  | unlockPop =>
    simp only [placeStep] at stepped
    cases first : s.line.queue with
    | nil =>
      rw [first] at stepped
      cases stepped
      exact inv.shrinks (.stands _) rfl rfl (fun _ => id) rfl awake
    | cons w rest =>
      rw [first] at stepped
      cases stepped
      refine inv.shrinks (.holds .unlockTest w) rfl rfl (fun r mem => ?_) rfl awake
      rw [first]
      exact List.mem_cons_of_mem _ mem

theorem Inv.shrinks_advance (inv : Inv s) (stepped : advance s p = some t) : Shrinks s t := by
  unfold advance at stepped
  cases here : s.line.pc p with
  | stands place =>
    rw [here] at stepped
    exact inv.shrinks_placeStep (by rw [here]; rfl) stepped
  | asleep node =>
    rw [here] at stepped
    cases stepped
  | woken wake =>
    rw [here] at stepped
    cases stepped
    exact inv.shrinks_go (by rw [here]; rfl)
  | holds place w =>
    rw [here] at stepped
    cases place with
    | unlockTest =>
      cases stepped
      exact inv.shrinks (.holds _ w) rfl rfl (fun _ => id) rfl (by rw [here]; rfl)
    | unlockSkip =>
      cases stepped
      exact inv.shrinks_wake (by rw [here]; exact List.mem_cons_self)
    | unlockGrant =>
      cases stepped
      exact inv.shrinks_wake (by rw [here]; exact List.mem_cons_self)
    | _ => cases stepped
  | walks place chain =>
    rw [here] at stepped
    cases place with
    | cancelWaiters =>
      cases chain with
      | nil =>
        cases stepped
        exact inv.shrinks_go (by rw [here]; rfl)
      | cons w rest =>
        cases stepped
        exact inv.shrinks_wake (by rw [here]; exact List.mem_cons_self)
    | _ => cases chain <;> cases stepped

/-- A waiter joins. -/
theorem NoneLost.section (none : NoneLost s) (inv : Inv s) {place : Place} {node : Node}
    (here : s.line.pc p = .stands place)
    (late : s.locked = true → node.cancellable = true →
      ∀ tok ∈ s.swept, isWithin s.tasks.slots node.token tok = false) :
    NoneLost (s.section p node) := by
  unfold State.section
  split
  · rename_i taken
    intro w mem node' asleep cancellable tok swept
    rcases List.mem_append.mp mem with before | last
    · have sleeps := inv.kept.sound.queued before
      have apart : w ≠ p := by
        rintro rfl
        rw [here] at sleeps
        cases sleeps
      refine none w before node' ?_ cancellable tok swept
      unfold Line.node at asleep ⊢
      simp only [Line.join] at asleep
      rw [Function.update_of_ne apart] at asleep
      exact asleep
    · obtain rfl := List.mem_singleton.mp last
      unfold Line.node at asleep
      simp only [Line.join] at asleep
      rw [Function.update_self] at asleep
      cases asleep
      exact late taken cancellable tok swept
  · refine Shrinks.noneLost ?_ none
    exact inv.shrinks (.stands .holding) rfl rfl (fun _ => id) rfl (by rw [here]; rfl)

theorem NoneLost.cancelWaiters (none : NoneLost s) (inv : Inv s) {tok : Nat}
    (here : s.line.pc p = .stands .idle) :
    NoneLost { s with
      line := s.line.takeIf p .cancelWaiters (s.covers tok)
      swept := if Cancel.Marked s.tasks.slots tok then tok :: s.swept else s.swept } := by
  intro w mem node asleep cancellable other swept
  obtain ⟨before, stays⟩ := List.mem_filter.mp mem
  have sleeps := inv.kept.sound.queued before
  have apart : w ≠ p := by
    rintro rfl
    rw [here] at sleeps
    cases sleeps
  have known : s.line.node w = some node := by
    unfold Line.node at asleep ⊢
    simp only [Line.takeIf, Line.set] at asleep
    rw [Function.update_of_ne apart] at asleep
    exact asleep
  have old := none w before node known cancellable other
  simp only at swept
  split at swept
  · rcases List.mem_cons.mp swept with rfl | mem'
    · -- the sweep has left the waiter in the queue
      unfold State.covers covers at stays
      rw [known, Option.any_some, cancellable] at stays
      simp only [Bool.true_and, Bool.not_eq_true', Bool.or_eq_false_iff] at stays
      exact stays.2
    · exact old mem'
  · exact old swept

theorem NoneLost.step (none : NoneLost s) (inv : Inv s) (late : inTime s a)
    (stepped : step s a = some t) : NoneLost t := by
  cases a with
  | tasks tasks =>
    cases stepped
    intro w mem node asleep cancellable tok swept
    have alive := late w mem node asleep
    rw [alive.isWithin_eq]
    exact none w mem node asleep cancellable tok swept
  | advance p => exact (inv.shrinks_advance stepped).noneLost none
  | notify p w =>
    simp only [Mutex.step] at stepped
    split at stepped
    · rename_i here
      have awake : (s.line.pc p).sleeps = 0 := by
        rw [here]
        rfl
      cases w with
      | none =>
        simp only at stepped
        split at stepped
        · cases stepped
          exact (inv.shrinks_go awake).noneLost none
        · cases stepped
      | some w =>
        simp only at stepped
        split at stepped
        · rename_i there
          cases stepped
          have first : NoneLost (s.go w .bareNotified) :=
            (inv.shrinks_go (by rw [there]; rfl)).noneLost none
          intro r mem node asleep
          have sleeps := inv.kept.sound.queued mem
          have notP : r ≠ p := by
            rintro rfl
            omega
          refine first r mem node ?_
          unfold Line.node at asleep ⊢
          simp only [State.go, Line.set] at asleep ⊢
          rw [Function.update_of_ne notP] at asleep
          exact asleep
        · cases stepped
    · cases stepped
  | lock p =>
    simp only [Mutex.step] at stepped
    split at stepped
    · rename_i here
      cases stepped
      exact none.section inv here fun _ absurd => by cases absurd
    · cases stepped
  | enqueue p =>
    simp only [Mutex.step] at stepped
    split at stepped
    · rename_i here
      cases stepped
      exact none.section inv here fun locked _ => late locked
    · cases stepped
  | lockCancellable p | spin p | unlock p | spurious p =>
    simp only [Mutex.step] at stepped
    split at stepped
    · rename_i here
      cases stepped
      exact (inv.shrinks_go (by rw [here]; rfl)).noneLost none
    · cases stepped
  | tryLock p | lockBare p =>
    simp only [Mutex.step] at stepped
    split at stepped
    · rename_i here
      cases stepped
      exact (inv.shrinks_tryLock (by rw [here]; rfl)).noneLost none
    · cases stepped
  | cancelWaiters p tok =>
    simp only [Mutex.step] at stepped
    split at stepped
    · rename_i here
      cases stepped
      exact none.cancelWaiters inv here
    · cases stepped

/-- As long as no waiter joins the queue too late, no cancelled waiter is left in it. -/
theorem cancellation_not_lost {tasks : Tasks n}
    (reach : Reach step inTime (initial tasks) s) : NoneLost s := by
  refine reach.invariant_of (fun reach => inv_of_reach (reach.weaken fun _ => trivial)) ?_
    fun inv none late stepped => none.step inv late stepped
  intro w absurd
  cases absurd

/-- One scope, which the task of party 1 belongs to. -/
def oneScope : Tasks 3 := { noScopes 3 with token := fun p => if p = 1 then 0 else kNone }

/-- The same scope, cancelled. -/
def oneCancelled : Tasks 3 := { oneScope with slots := (cancelVia oneScope.slots 0).1 }

/-- Party 1 is in the queue before its scope is cancelled and swept. -/
def sweptInTimeLabels : List (Label 3) :=
  [.lock 0, .lockCancellable 1, .enqueue 1, .tasks oneCancelled, .cancelWaiters 2 0]

def sweptInTime : State 3 := (run step inTime (initial oneScope) sweptInTimeLabels).getD
  (initial oneScope)

theorem sweptInTime_noneLost : sweptInTime.swept = [0] ∧ NoneLost sweptInTime :=
  ⟨by decide +kernel, cancellation_not_lost (Reach.of_isSome sweptInTimeLabels (by decide +kernel))⟩

/-- Party 1 tests its token, then its scope is cancelled and swept, and then it joins the queue. -/
def lostLabels : List (Label 3) :=
  [.lock 0, .lockCancellable 1, .tasks oneCancelled, .cancelWaiters 2 0, .advance 2, .enqueue 1]

def lost : State 3 := (run step anyStep (initial oneScope) lostLabels).getD (initial oneScope)

/-- A `CancelWaiters` of the scope has returned, and a waiter of it is in the queue. -/
theorem lost_waiter : Reach step anyStep (initial oneScope) lost ∧
    lost.line.pc 2 = .stands .idle ∧ lost.swept = [0] ∧ ¬ NoneLost lost := by
  refine ⟨Reach.of_isSome lostLabels (by decide +kernel), by decide +kernel, by decide +kernel, ?_⟩
  intro none
  have outside := none 1 (by decide +kernel) ⟨true, 0⟩ (by decide +kernel) rfl 0 (by decide +kernel)
  have within : isWithin lost.tasks.slots 0 0 = true := by decide +kernel
  rw [within] at outside
  cases outside

end JLibSched.Mutex
