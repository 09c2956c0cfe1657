import JLibSched.Semaphore.Moves

/-!
# The waiters of a semaphore

Nobody waits beside a free permit, each waiter is woken once by whoever took it off, the oldest is
taken first, and a `Signal` goes on over cancelled waiters until it has served one or has found the
queue empty.  It banks its permit then, unless another one has filled `permits` up to `maxPermits`
in the meantime.
-/

namespace JLibSched.Semaphore

open Transition WaitQueue Cancel Wait

variable {n : Nat} {maxPermits permits : Int} {tasks : Tasks n} {s t : State n} {a : Label n}
  {p : Fin n}

/-- What holds between steps. -/
structure SemaphoreOk (maxPermits : Int) (s : State n) : Prop where
  free : s.permits > 0 → s.line.queue = []
  bound : s.permits ≤ maxPermits
  /-- Each waiter is in the queue or with one party that took it off, and each wait is ended by one
  wake. -/
  waiters : s.line.Sound

/-- A `Signal` banks its permit if there is room. -/
def Banks (maxPermits : Int) (s t : State n) : Prop :=
  s.line.queue = [] ∧ t.permits = if s.permits < maxPermits then s.permits + 1 else s.permits

/-- What becomes of the signals in a step. -/
structure Signalled (maxPermits : Int) (s : State n) (a : Label n) (t : State n) : Prop where
  /-- A new one takes the oldest waiter, or it banks its permit. -/
  first : ∀ p, a = .signal p → Banks maxPermits s t ∨
    ∃ w rest, s.line.queue = w :: rest ∧ t.line.pc p = .holds .signalTest w
  /-- One that was under way goes on until it has served a waiter or banks its permit. -/
  goesOn : ∀ u, inFlight (s.line.pc u) = 1 → inFlight (t.line.pc u) = 1 ∨
    s.line.pc u = .stands .signalAgain ∧ Banks maxPermits s t ∨
    ∃ w node, s.line.pc u = .holds .signalGrant w ∧ s.line.pc w = .asleep node ∧
      t.line.pc w = .woken ⟨node.cancellable, .ok⟩

structure Inv (maxPermits : Int) (s : State n) : Prop where
  kept : Kept desk s.line
  free : s.permits > 0 → s.line.queue = []
  bound : s.permits ≤ maxPermits

theorem initial_inv (bound : permits ≤ maxPermits) (tasks : Tasks n) :
    Inv maxPermits (initial permits tasks) where
  kept := empty_kept _
  free _ := rfl
  bound := bound

theorem Move.permits_free (move : Move maxPermits s t) (inv : Inv maxPermits s)
    (some : t.permits > 0) : t.line.queue = [] := by
  have free := inv.free
  cases move with
  | tasks line permits =>
    rw [line]
    exact free (permits ▸ some)
  | go p place place' here line _ _ permits =>
    rw [line]
    exact free (permits ▸ some)
  | acquire p place here _ before line permits =>
    rw [line]
    exact free before
  | join p place node here _ none line permits => exact absurd (permits ▸ some) none
  | bank p place here empty line =>
    rw [line]
    exact empty
  | pop p w place rest here first line permits =>
    rw [free (permits ▸ some)] at first
    cases first
  | test p w here line permits =>
    rw [line]
    exact free (permits ▸ some)
  | wake p w result pc waking kind line permits =>
    rw [line]
    exact free (permits ▸ some)
  | finish p here line permits =>
    rw [line]
    exact free (permits ▸ some)
  | sweep p tok here line permits =>
    rw [line]
    simp only [Line.takeIf, Line.set, free (permits ▸ some), List.filter_nil]
  | back p wake here line permits =>
    rw [line]
    exact free (permits ▸ some)

theorem Move.bound (move : Move maxPermits s t) (inv : Inv maxPermits s) :
    t.permits ≤ maxPermits := by
  have bound := inv.bound
  cases move with
  | tasks _ permits | test _ _ _ _ permits | finish _ _ _ permits | sweep _ _ _ _ permits
  | back _ _ _ _ permits => exact permits ▸ bound
  | go _ _ _ _ _ _ _ permits | join _ _ _ _ _ _ _ permits | pop _ _ _ _ _ _ _ permits
  | wake _ _ _ _ _ _ _ permits => exact permits ▸ bound
  | acquire _ _ _ _ _ _ permits =>
    rw [permits]
    omega
  | bank _ _ _ _ _ permits =>
    rw [permits]
    split <;> omega

theorem Inv.step (inv : Inv maxPermits s) (stepped : step maxPermits s a = some t) :
    Inv maxPermits t where
  kept := (step_move stepped).shared.kept inv.kept
  free := (step_move stepped).permits_free inv
  bound := (step_move stepped).bound inv

theorem inv_of_reach (bound : permits ≤ maxPermits)
    (reach : Reach (step maxPermits) anyStep (initial permits tasks) s) : Inv maxPermits s :=
  reach.invariant (initial_inv bound tasks) fun inv _ stepped => inv.step stepped

/-! ## Signals -/

/-- The section of a signal. -/
theorem signal_served (s : State n) (p : Fin n) : Banks maxPermits s (s.signal maxPermits p) ∨
    ∃ w rest, s.line.queue = w :: rest ∧
      (s.signal maxPermits p).line.pc p = .holds .signalTest w := by
  unfold State.signal
  cases queue : s.line.queue with
  | nil =>
    refine .inl ⟨queue, ?_⟩
    simp only
    split <;> rfl
  | cons w rest => exact .inr ⟨w, rest, rfl, Function.update_self _ _ _⟩

/-- A party that is no signal moves. -/
theorem goesOn_of_update (pc : Pc n) (moved : t.line.pc = Function.update s.line.pc p pc)
    (calm : inFlight (s.line.pc p) = 0 ∨ inFlight pc = 1) (u : Fin n)
    (here : inFlight (s.line.pc u) = 1) : inFlight (t.line.pc u) = 1 := by
  rw [moved]
  rcases eq_or_ne u p with rfl | other
  · rw [Function.update_self]
    rcases calm with none | still
    · rw [none] at here
      cases here
    · exact still
  · rw [Function.update_of_ne other]
    exact here

theorem inFlight_stands {place : Place} (here : s.line.pc p = .stands place)
    (calm : place.inFlight = 0) : inFlight (s.line.pc p) = 0 := by
  rw [here]
  exact calm

theorem Move.goesOn (move : Move maxPermits s t) (kept : Kept desk s.line) (u : Fin n)
    (here : inFlight (s.line.pc u) = 1) : inFlight (t.line.pc u) = 1 ∨
      s.line.pc u = .stands .signalAgain ∧ Banks maxPermits s t ∨
      ∃ w node, s.line.pc u = .holds .signalGrant w ∧ s.line.pc w = .asleep node ∧
        t.line.pc w = .woken ⟨node.cancellable, .ok⟩ := by
  cases move with
  | tasks line =>
    rw [line]
    exact .inl here
  | go p place place' stands line before | acquire p place stands before some line
  | join p place node stands before none line =>
    exact .inl (goesOn_of_update (p := p) _ (by rw [line]; rfl)
      (.inl (inFlight_stands stands before)) u here)
  | bank p place stands empty line permits =>
    rcases eq_or_ne u p with rfl | other
    · rw [stands] at here
      cases place with
      | signalAgain => exact .inr (.inl ⟨stands, empty, permits⟩)
      | _ => cases here
    · rw [line]
      simp only [Line.set]
      rw [Function.update_of_ne other]
      exact .inl here
  | pop p w place rest stands first line =>
    exact .inl (goesOn_of_update (p := p) (.holds .signalTest w) (by rw [line]; rfl)
      (.inr rfl) u here)
  | test p w holds line =>
    exact .inl (goesOn_of_update (p := p) (.holds _ w) (by rw [line]; rfl) (.inr rfl) u
      here)
  | wake p w result pc waking kind line =>
    obtain ⟨node, asleep⟩ := waking.asleep kept.sound
    obtain ⟨atP, atW, others⟩ := waking.parties kept asleep
    rw [← line] at atP atW others
    rcases eq_or_ne u p with rfl | notP
    · cases waking with
      | skipped =>
        rw [atP]
        exact .inl rfl
      | granted there => exact .inr (.inr ⟨w, node, there, asleep, atW⟩)
      | victim there | everyone _ there =>
        rw [there] at here
        cases here
    · have notW : u ≠ w := by
        rintro rfl
        rw [asleep] at here
        cases here
      rw [others u notP notW]
      exact .inl here
  | finish p walks line =>
    exact .inl (goesOn_of_update (p := p) _ (by rw [line]; rfl)
      (.inl (by rw [walks]; rfl)) u here)
  | sweep p tok stands line =>
    exact .inl (goesOn_of_update (p := p) _ (by rw [line]; rfl)
      (.inl (by rw [stands]; rfl)) u here)
  | back p wake woken line =>
    exact .inl (goesOn_of_update (p := p) _ (by rw [line]; rfl)
      (.inl (by rw [woken]; rfl)) u here)

theorem step_first (stepped : step maxPermits s a = some t) (p : Fin n) (signal : a = .signal p) :
    Banks maxPermits s t ∨
      ∃ w rest, s.line.queue = w :: rest ∧ t.line.pc p = .holds .signalTest w := by
  subst signal
  simp only [Semaphore.step] at stepped
  split at stepped
  · cases stepped
    exact signal_served s p
  · cases stepped

/-- The waiters of a semaphore are served in every run. -/
theorem waiters_served (bound : permits ≤ maxPermits)
    (reach : Reach (step maxPermits) anyStep (initial permits tasks) s) :
    SemaphoreOk maxPermits s ∧ ∀ a t, step maxPermits s a = some t →
      Handed desk s.tasks s.line t.line ∧ Signalled maxPermits s a t := by
  have inv := inv_of_reach bound reach
  refine ⟨⟨inv.free, inv.bound, inv.kept.sound⟩, fun a t stepped => ?_⟩
  have move := step_move stepped
  exact ⟨move.shared.handed inv.kept, step_first stepped, move.goesOn inv.kept⟩

/-- Party 0 waits and is cancelled, and the signal of party 1 wakes it.  Before that signal looks
again, party 2 signals too. -/
def overtakenLabels : List (Label 3) :=
  [.waitCancellable 0, .enqueue 0, .tasks { noScopes 3 with direct := fun p => p = 0 }, .signal 1,
    .advance 1, .advance 1, .signal 2]

def overtaken : State 3 := (run (step 1) anyStep (initial 0 (noScopes 3)) overtakenLabels).getD
  (initial 0 (noScopes 3))

theorem overtaken_served : SemaphoreOk 1 overtaken ∧ ∀ a t, step 1 overtaken a = some t →
    Handed desk overtaken.tasks overtaken.line t.line ∧ Signalled 1 overtaken a t :=
  waiters_served (by decide : (0 : Int) ≤ 1)
    (Reach.of_isSome overtakenLabels (by decide +kernel))

/-- The first signal has met only a cancelled waiter, and it banks nothing. -/
theorem overtaken_drops : Reach (step 1) anyStep (initial 0 (noScopes 3)) overtaken ∧
    overtaken.line.pc 1 = .stands .signalAgain ∧
      overtaken.line.pc 0 = .woken ⟨true, .cancelled⟩ ∧
        ((step 1 overtaken (.advance 1)).map fun t => (t.line.pc 1, t.permits)) =
          some (.stands .idle, overtaken.permits) :=
  ⟨Reach.of_isSome overtakenLabels (by decide +kernel), by decide +kernel, by decide +kernel,
    by decide +kernel⟩

end JLibSched.Semaphore
