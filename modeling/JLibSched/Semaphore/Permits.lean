import JLibSched.Semaphore.Moves

/-!
# Where the permits are

The permits and the signals are what is banked, dropped, acquired or granted, up to the waits that
returned as acquired without a permit (`balanced`).  Those are `AcquireAwaiter`s of a cancelled
task that found no permit: `WaitAsyncEnqueue` tells such a wait nothing.
-/

namespace JLibSched.Semaphore

open Transition WaitQueue Cancel Wait

variable {n : Nat} {maxPermits permits : Int} {tasks : Tasks n} {s t : State n} {a : Label n}
  {p : Fin n}

/-- The balance of a state, with what is on its way. -/
structure Balanced (permits : Int) (s : State n) : Prop where
  kept : Kept desk s.line
  due : s.balance + s.line.total underway = permits

theorem initial_balanced (permits : Int) (tasks : Tasks n) :
    Balanced permits (initial permits tasks) where
  kept := empty_kept _
  due := by
    simp [State.balance, initial, Line.total, Line.empty, underway, inFlight, granted,
      Place.inFlight]

/-- A waker that has a permit gives it to its waiter. -/
theorem underway_waking (kept : Kept desk s.line) {w : Fin n} {result : WaitResult} {pc : Pc n}
    (waking : Waking desk s.tasks s.line p w result pc)
    (kind : ∀ place chain, s.line.pc p = .walks place chain → place = .cancelWaiters) :
    underway (.woken ⟨(s.line.node w).any (·.cancellable), result⟩ : Pc n) + underway pc =
      underway (s.line.pc p) := by
  cases waking with
  | granted here =>
    rw [here]
    simp [underway, inFlight, granted, desk, Place.inFlight]
  | skipped here =>
    rw [kept.skipped here, here]
    simp [underway, inFlight, granted, desk, Place.inFlight]
  | victim here =>
    rw [kept.victim here, here]
    simp [underway, inFlight, granted]
  | everyone other here => exact absurd (kind _ _ here) other

theorem underway_stands {place : Place} (here : s.line.pc p = .stands place) :
    underway (s.line.pc p) = place.inFlight := by
  rw [here]
  rfl

theorem Move.balanced (move : Move maxPermits s t) (inv : Balanced permits s) :
    Balanced permits t := by
  refine ⟨move.shared.kept inv.kept, ?_⟩
  have due := inv.due
  cases move with
  | tasks line _ balance =>
    rw [line, balance]
    exact due
  | go p place place' here line before after _ balance =>
    have moved := Line.total_set (q := s.line) (u := p) underway (.stands place')
    rw [underway_stands here, before, ← line,
      show underway (.stands place' : Pc n) = place'.inFlight from rfl, after] at moved
    omega
  | acquire p place here before some line _ balance =>
    have moved := Line.total_set (q := s.line) (u := p) underway (.stands .idle)
    rw [underway_stands here, before, ← line,
      show underway (.stands .idle : Pc n) = 0 from rfl] at moved
    omega
  | join p place node here before none line _ balance =>
    have moved : t.line.total underway + underway (s.line.pc p) = s.line.total underway +
        underway (.asleep node) := Line.total_update underway (by rw [line]; rfl)
    rw [underway_stands here, before, show underway (.asleep node : Pc n) = 0 from rfl] at moved
    omega
  | bank p place here empty line _ balance =>
    have moved := Line.total_set (q := s.line) (u := p) underway (.stands .idle)
    rw [underway_stands here, ← line, show underway (.stands .idle : Pc n) = 0 from rfl] at moved
    omega
  | pop p w place rest here first line _ balance =>
    have moved : t.line.total underway + underway (s.line.pc p) = s.line.total underway +
        underway (.holds .signalTest w) := Line.total_update underway (by rw [line]; rfl)
    rw [underway_stands here, show underway (.holds .signalTest w : Pc n) = 1 from rfl] at moved
    omega
  | test p w here line _ balance =>
    have moved := Line.total_set (q := s.line) (u := p) underway
      (.holds (if skips s.tasks s.line w then .signalSkip else .signalGrant) w)
    rw [here, ← line] at moved
    change _ + 1 = _ + 1 at moved
    omega
  | wake p w result pc waking kind line _ balance =>
    obtain ⟨node, asleep⟩ := waking.asleep inv.kept.sound
    have moved := Line.total_wake (q := s.line) underway
      ⟨(s.line.node w).any (·.cancellable), result⟩ pc (waking.apart inv.kept.sound)
    have shared := underway_waking inv.kept waking kind
    rw [asleep, show underway (.asleep node : Pc n) = 0 from rfl] at moved
    change Line.total underway (Wait.wake s.line p w result pc) + _ + _ = _ at moved
    rw [← line] at moved
    omega
  | finish p here line _ balance =>
    have moved := Line.total_set (q := s.line) (u := p) underway (.stands .idle)
    rw [here, ← line] at moved
    change _ + 0 = _ + 0 at moved
    omega
  | sweep p tok here line _ balance =>
    have moved : t.line.total underway + underway (s.line.pc p) = s.line.total underway +
        underway (.walks .cancelWaiters (s.line.queue.filter (covers s.tasks s.line tok))) :=
      Line.total_update underway (by rw [line]; rfl)
    rw [here] at moved
    change _ + 0 = _ + 0 at moved
    omega
  | back p wake here line _ balance =>
    have moved := Line.total_set (q := s.line) (u := p) underway (.stands .idle)
    rw [here, ← line, show underway (.stands .idle : Pc n) = 0 from rfl,
      show underway (.woken wake : Pc n) = granted (.woken wake : Pc n) from
        Nat.zero_add _] at moved
    omega

theorem balanced_of_reach (reach : Reach (step maxPermits) anyStep (initial permits tasks) s) :
    Balanced permits s :=
  reach.invariant (initial_balanced permits tasks) fun inv _ stepped =>
    (step_move stepped).balanced inv

/-! ## Waits that take no permit -/

/-- An `AcquireAwaiter` finds a permit, or its task is not cancelled. -/
def paid (s : State n) : Label n → Prop
  | .acquireAsync p => s.permits > 0 ∨ s.tasks.isTaskCancelled p = false
  | _ => True

instance (s : State n) (a : Label n) : Decidable (paid s a) :=
  match a with
  | .acquireAsync p =>
    inferInstanceAs (Decidable (s.permits > 0 ∨ s.tasks.isTaskCancelled p = false))
  | .wait _ | .waitBare _ | .waitCancellable _ | .enqueue _ | .cancellableBare _ | .tryWait _
  | .signal _ | .cancelWaiters _ _ | .advance _ | .tasks _ => isTrue trivial

@[simp] theorem go_unpaid (place : Place) : (s.go p place).unpaid = s.unpaid := rfl

@[simp] theorem acquire_unpaid : (s.acquire p).unpaid = s.unpaid := rfl

@[simp] theorem tryWait_unpaid (failed : Place) : (s.tryWait p failed).unpaid = s.unpaid := by
  unfold State.tryWait
  split <;> rfl

@[simp] theorem wait_unpaid : (s.wait p).unpaid = s.unpaid := by
  unfold State.wait
  split <;> rfl

@[simp] theorem signal_unpaid : (s.signal maxPermits p).unpaid = s.unpaid := by
  unfold State.signal
  split
  · split <;> rfl
  · rfl

theorem waitAsyncEnqueue_unpaid (result : Bool)
    (pays : result = true ∨ s.permits > 0 ∨ s.tasks.isTaskCancelled p = false) :
    (s.waitAsyncEnqueue p result).unpaid = s.unpaid := by
  unfold State.waitAsyncEnqueue
  split
  · rfl
  · rename_i none
    split
    · rename_i cancelled
      rcases pays with rfl | some | not
      · rfl
      · exact absurd some none
      · rw [not] at cancelled
        cases cancelled
    · rfl

theorem advance_unpaid (stepped : advance maxPermits s p = some t) : t.unpaid = s.unpaid := by
  unfold advance at stepped
  split at stepped
  all_goals cases stepped
  all_goals first | rfl | simp

theorem step_unpaid (pays : paid s a) (stepped : step maxPermits s a = some t) :
    t.unpaid = s.unpaid := by
  cases a with
  | tasks tasks =>
    cases stepped
    rfl
  | advance p => exact advance_unpaid stepped
  | enqueue p =>
    simp only [step] at stepped
    split at stepped
    · cases stepped
      exact waitAsyncEnqueue_unpaid true (.inl rfl)
    · cases stepped
  | acquireAsync p =>
    simp only [step] at stepped
    split at stepped
    · cases stepped
      exact waitAsyncEnqueue_unpaid false (.inr pays)
    · cases stepped
  | _ =>
    simp only [step] at stepped
    split at stepped
    · cases stepped
      first | rfl | simp
    · cases stepped

/-- Unless a wait was let through without a permit, the permits and the signals are all accounted
for. -/
theorem conserved_iff_paid (reach : Reach (step maxPermits) anyStep (initial permits tasks) s)
    (quiet : ∀ p, inFlight (s.line.pc p) = 0) :
    permits + s.signals = s.permits + s.dropped + s.acquired + s.line.total granted ↔
      s.unpaid = 0 := by
  have due := (balanced_of_reach reach).due
  have still : s.line.total underway = s.line.total granted := by
    refine Finset.sum_congr rfl fun p _ => ?_
    unfold underway
    rw [quiet, Nat.zero_add]
  rw [still] at due
  unfold State.balance at due
  omega

/-- With every `AcquireAwaiter` paid for, no permit is lost or made up. -/
theorem permits_conserved (reach : Reach (step maxPermits) paid (initial permits tasks) s) :
    s.unpaid = 0 ∧ ((∀ p, inFlight (s.line.pc p) = 0) →
      permits + s.signals = s.permits + s.dropped + s.acquired + s.line.total granted) := by
  have none : s.unpaid = 0 :=
    reach.invariant (I := fun s => s.unpaid = 0) rfl fun none pays stepped =>
      (step_unpaid pays stepped).trans none
  exact ⟨none, fun quiet => (conserved_iff_paid (reach.weaken fun _ => trivial) quiet).mpr none⟩

/-- A permit is handed to a waiter, and a second signal is dropped. -/
def handedLabels : List (Label 2) :=
  [.acquireAsync 0, .signal 1, .advance 1, .advance 1, .signal 1, .signal 1]

def handed : State 2 := (run (step 1) paid (initial 0 (noScopes 2)) handedLabels).getD
  (initial 0 (noScopes 2))

theorem handed_conserved : handed.dropped = 1 ∧ handed.line.total granted = 1 ∧
    handed.unpaid = 0 ∧ (0 : Int) + handed.signals =
      handed.permits + handed.dropped + handed.acquired + handed.line.total granted :=
  have reach : Reach (step 1) paid (initial 0 (noScopes 2)) handed :=
    Reach.of_isSome handedLabels (by decide +kernel)
  have conserved := permits_conserved reach
  ⟨by decide +kernel, by decide +kernel, conserved.1, conserved.2 (by decide +kernel)⟩

/-- A cancelled task awaits a permit where there is none, and goes on as if it had one. -/
def freeRideLabels : List (Label 1) :=
  [.tasks { noScopes 1 with direct := fun _ => true }, .acquireAsync 0]

def freeRide : State 1 := (run (step 1) anyStep (initial 0 (noScopes 1)) freeRideLabels).getD
  (initial 0 (noScopes 1))

theorem freeRide_not_conserved :
    Reach (step 1) anyStep (initial 0 (noScopes 1)) freeRide ∧
      (∀ p, inFlight (freeRide.line.pc p) = 0) ∧
        (0 : Int) + freeRide.signals ≠ freeRide.permits + freeRide.dropped + freeRide.acquired +
          freeRide.line.total granted :=
  ⟨Reach.of_isSome freeRideLabels (by decide +kernel), by decide +kernel, by decide +kernel⟩

end JLibSched.Semaphore
