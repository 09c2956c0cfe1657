import JLibSched.CondVar.Reasons
import JLibSched.Mutex.Handover

/-!
# The waiters of a condition variable

Each waiter is woken once, by whoever took it off.  A `Notify_One` passes over cancelled waiters
until it has woken one that was not, or finds the queue empty; a `Notify_All` wakes all that were
in the queue.  Every wait returns with the mutex.
-/

namespace JLibSched.CondVar

open Transition WaitQueue Cancel Wait

variable {n : Nat} {tasks : Tasks n} {s t : State n} {a : Label n} {p q u : Fin n}

structure Inv (s : State n) : Prop where
  mutex : Mutex.Inv s.mutex
  kept : Kept desk s.line
  phases : Phases s
  told : Told s

theorem initial_inv (tasks : Tasks n) : Inv (initial tasks) where
  mutex := Mutex.initial_inv tasks
  kept := empty_kept _
  phases := initial_phases tasks
  told := initial_told tasks

theorem call_mutex {s' : State n} {b : Mutex.Label n} {phase : Phase} (inv : Mutex.Inv s'.mutex)
    (called : s'.call b p phase = some t) : Mutex.Inv t.mutex := by
  unfold State.call at called
  obtain ⟨mutex, stepped, rfl⟩ := Option.map_eq_some_iff.mp called
  exact inv.step stepped

theorem proceed_mutex (inv : Mutex.Inv s.mutex) (stepped : proceed s p = some t) :
    Mutex.Inv t.mutex := by
  unfold proceed at stepped
  split at stepped
  case h_1 => cases stepped
  case h_2 => exact call_mutex inv stepped
  case h_3 =>
    split at stepped
    · split at stepped
      · exact call_mutex inv stepped
      · cases stepped
        exact inv
    · cases stepped
  case h_4 =>
    split at stepped
    · exact call_mutex inv stepped
    · cases stepped
  case h_5 =>
    split at stepped
    · unfold State.back at stepped
      split at stepped
      all_goals cases stepped
      all_goals exact inv
    · cases stepped

/-- A step does nothing to the mutex, or what a step of the mutex does. -/
theorem step_mutex (inv : Mutex.Inv s.mutex) (stepped : step s a = some t) :
    Mutex.Inv t.mutex := by
  cases a with
  | tasks tasks =>
    cases stepped
    exact inv.step (a := .tasks tasks) rfl
  | advance p =>
    rw [advance_line stepped]
    exact inv
  | proceed p => exact proceed_mutex inv stepped
  | mutex b =>
    simp only [step] at stepped
    split at stepped
    · obtain ⟨mutex, called, rfl⟩ := Option.map_eq_some_iff.mp stepped
      exact inv.step called
    · cases stepped
  | waitBare p cancellable =>
    simp only [step] at stepped
    split at stepped
    · split at stepped
      · cases stepped
        exact inv
      · have began : Mutex.Inv ((s.begin p).go p
            (if cancellable then .bareCancellable else .bare)).mutex := inv
        exact call_mutex began stepped
    · cases stepped
  | notifyOne p =>
    simp only [step] at stepped
    split at stepped
    · cases stepped
      rw [notifyOne_line]
      exact inv
    · cases stepped
  | waitCancellable p | enqueue p =>
    simp only [step] at stepped
    split at stepped
    · cases stepped
      split
      · exact inv
      · exact inv
    · cases stepped
  | wait p | notifyAll p | cancelWaiters p tok =>
    simp only [step] at stepped
    split at stepped
    · cases stepped
      exact inv
    · cases stepped

theorem Inv.step (inv : Inv s) (stepped : step s a = some t) : Inv t := by
  have move := step_move stepped
  have kept := move.shared.kept inv.kept
  exact {
    mutex := step_mutex inv.mutex stepped
    kept := kept
    phases := inv.phases.step inv.mutex inv.kept stepped
    told := move.told (step_noted stepped) inv.kept kept inv.told }

theorem inv_of_reach (reach : Reach step anyStep (initial tasks) s) : Inv s :=
  reach.invariant (initial_inv tasks) fun inv _ stepped => inv.step stepped

/-! ## Notifiers -/

/-- A `Notify_One` that is under way. -/
def Notifying : Pc n → Prop
  | .holds _ _ => True
  | .stands place => place = .notifyAgain
  | _ => False

/-- What becomes of the notifiers in a step. -/
structure Notified (s : State n) (a : Label n) (t : State n) : Prop where
  /-- A new `Notify_One` takes the oldest waiter, if there is one. -/
  first : ∀ p, a = .notifyOne p → s.line.queue = [] ∨
    ∃ w rest, s.line.queue = w :: rest ∧ t.line.pc p = .holds .notifyTest w
  /-- One that is under way goes on until it has served a waiter or finds the queue empty. -/
  goesOn : ∀ u, Notifying (s.line.pc u) → Notifying (t.line.pc u) ∨
    s.line.pc u = .stands .notifyAgain ∧ s.line.queue = [] ∨
    ∃ w node, s.line.pc u = .holds .notifyGrant w ∧ s.line.pc w = .asleep node ∧
      t.line.pc w = .woken ⟨node.cancellable, .ok⟩ ∧ t.line.pc u = .stands .idle
  /-- A `Notify_All` takes all waiters. -/
  all : ∀ p, a = .notifyAll p → t.line.queue = [] ∧ t.line.pc p = .walks .notifyAll s.line.queue
  /-- It goes on until it has woken each of them. -/
  walks : ∀ u w rest, s.line.pc u = .walks .notifyAll (w :: rest) → t.line.pc u = s.line.pc u ∨
    t.line.pc u = .walks .notifyAll rest ∧ ∃ node, s.line.pc w = .asleep node ∧
      t.line.pc w = .woken ⟨node.cancellable, if skips s.tasks s.line w then .cancelled else .ok⟩

theorem step_first (stepped : step s a = some t) (p : Fin n) (notify : a = .notifyOne p) :
    s.line.queue = [] ∨
      ∃ w rest, s.line.queue = w :: rest ∧ t.line.pc p = .holds .notifyTest w := by
  subst notify
  simp only [CondVar.step] at stepped
  split at stepped
  · cases stepped
    unfold State.notifyOne
    cases queue : s.line.queue with
    | nil => exact .inl rfl
    | cons w rest => exact .inr ⟨w, rest, rfl, Function.update_self _ _ _⟩
  · cases stepped

theorem step_all (stepped : step s a = some t) (p : Fin n) (notify : a = .notifyAll p) :
    t.line.queue = [] ∧ t.line.pc p = .walks .notifyAll s.line.queue := by
  subst notify
  simp only [CondVar.step] at stepped
  split at stepped
  · cases stepped
    simp only [Line.takeIf, Line.set]
    rw [Function.update_self]
    simp
  · cases stepped

/-- A party moves that is no notifier, or stays one. -/
theorem goesOn_of_update (pc : Pc n) (moved : t.line.pc = Function.update s.line.pc p pc)
    (calm : ¬ Notifying (s.line.pc p) ∨ Notifying pc) (u : Fin n)
    (here : Notifying (s.line.pc u)) : Notifying (t.line.pc u) := by
  rw [moved]
  rcases eq_or_ne u p with rfl | other
  · rw [Function.update_self]
    exact calm.resolve_left (not_not.mpr here)
  · rw [Function.update_of_ne other]
    exact here

theorem Move.goesOn (move : Move s t) (kept : Kept desk s.line) (u : Fin n)
    (here : Notifying (s.line.pc u)) : Notifying (t.line.pc u) ∨
      s.line.pc u = .stands .notifyAgain ∧ s.line.queue = [] ∨
      ∃ w node, s.line.pc u = .holds .notifyGrant w ∧ s.line.pc w = .asleep node ∧
        t.line.pc w = .woken ⟨node.cancellable, .ok⟩ ∧ t.line.pc u = .stands .idle := by
  cases move with
  | other line | tasks line =>
    rw [line]
    exact .inl here
  | go p place place' stands line outside =>
    exact .inl (goesOn_of_update (p := p) _ (by rw [line]; rfl)
      (.inl (by rw [stands]; exact outside)) u here)
  | join p place node stands line outside =>
    exact .inl (goesOn_of_update (p := p) (.asleep node) (by rw [line]; rfl)
      (.inl (by rw [stands]; exact outside)) u here)
  | quit p place stands empty line =>
    rcases eq_or_ne u p with rfl | other
    · rw [stands] at here
      exact .inr (.inl ⟨here ▸ stands, empty⟩)
    · rw [line]
      simp only [Line.set]
      rw [Function.update_of_ne other]
      exact .inl here
  | pop p w place rest stands first line =>
    exact .inl (goesOn_of_update (p := p) (.holds .notifyTest w) (by rw [line]; rfl)
      (.inr trivial) u here)
  | test p w holds line =>
    exact .inl (goesOn_of_update (p := p) (.holds _ w) (by rw [line]; rfl) (.inr trivial) u here)
  | wake p w result pc waking line =>
    obtain ⟨node, asleep⟩ := waking.asleep kept.sound
    obtain ⟨atP, atW, others⟩ := waking.parties kept asleep
    rw [← line] at atP atW others
    rcases eq_or_ne u p with rfl | notP
    · cases waking with
      | skipped =>
        rw [atP]
        exact .inl rfl
      | granted there => exact .inr (.inr ⟨w, node, there, asleep, atW, atP⟩)
      | victim there | everyone _ there =>
        rw [there] at here
        exact here.elim
    · have notW : u ≠ w := by
        rintro rfl
        rw [asleep] at here
        exact here.elim
      rw [others u notP notW]
      exact .inl here
  | finish p place walks line =>
    exact .inl (goesOn_of_update (p := p) _ (by rw [line]; rfl) (.inl (by rw [walks]; exact id))
      u here)
  | sweep p tok stands line | takeAll p stands line =>
    exact .inl (goesOn_of_update (p := p) (.walks _ _) (by rw [line]; rfl)
      (.inl (by rw [stands]; exact fun absurd => by cases absurd)) u here)
  | back p wake woken line =>
    exact .inl (goesOn_of_update (p := p) _ (by rw [line]; rfl) (.inl (by rw [woken]; exact id))
      u here)

theorem Move.walks (move : Move s t) (kept : Kept desk s.line) (u w : Fin n)
    (rest : List (Fin n)) (here : s.line.pc u = .walks .notifyAll (w :: rest)) :
    t.line.pc u = s.line.pc u ∨
      t.line.pc u = .walks .notifyAll rest ∧ ∃ node, s.line.pc w = .asleep node ∧
        t.line.pc w =
          .woken ⟨node.cancellable, if skips s.tasks s.line w then .cancelled else .ok⟩ := by
  -- another party moves
  have turn {p : Fin n} (pc : Pc n) (moved : t.line.pc = Function.update s.line.pc p pc)
      (other : s.line.pc p ≠ .walks .notifyAll (w :: rest)) : t.line.pc u = s.line.pc u := by
    have apart : u ≠ p := by
      rintro rfl
      exact other here
    rw [moved, Function.update_of_ne apart]
  cases move with
  | other line | tasks line => exact .inl (by rw [line])
  | go p place place' stands line | quit p place stands empty line =>
    exact .inl (turn (p := p) _ (by rw [line]; rfl) (by rw [stands]; exact nofun))
  | join p place node stands line =>
    exact .inl (turn (p := p) (.asleep node) (by rw [line]; rfl) (by rw [stands]; exact nofun))
  | pop p r place rest' stands first line =>
    exact .inl (turn (p := p) (.holds _ r) (by rw [line]; rfl) (by rw [stands]; exact nofun))
  | test p r holds line =>
    exact .inl (turn (p := p) (.holds _ r) (by rw [line]; rfl) (by rw [holds]; exact nofun))
  | finish p place walks line =>
    exact .inl (turn (p := p) _ (by rw [line]; rfl) (by rw [walks]; exact nofun))
  | sweep p tok stands line | takeAll p stands line =>
    exact .inl (turn (p := p) (.walks _ _) (by rw [line]; rfl) (by rw [stands]; exact nofun))
  | back p wake woken line =>
    exact .inl (turn (p := p) _ (by rw [line]; rfl) (by rw [woken]; exact nofun))
  | wake p r result pc waking line =>
    obtain ⟨node, asleep⟩ := waking.asleep kept.sound
    obtain ⟨atP, atR, others⟩ := waking.parties kept asleep
    rw [← line] at atP atR others
    rcases eq_or_ne u p with rfl | notP
    · cases waking with
      | skipped there | granted there | victim there =>
        rw [here] at there
        cases there
      | everyone _ there =>
        rw [here] at there
        cases there
        exact .inr ⟨atP, node, asleep, atR⟩
    · have notR : u ≠ r := by
        rintro rfl
        rw [here] at asleep
        cases asleep
      exact .inl (others u notP notR)

/-! ## Every run -/

/-- What holds between steps. -/
structure CondVarOk (s : State n) : Prop where
  /-- At most one party has the mutex. -/
  exclusive : ∀ p q, s.mutex.line.pc p = .stands .holding → s.mutex.line.pc q = .stands .holding →
    p = q
  /-- Each waiter is in the queue or with one party that took it off, and each wait is ended by one
  wake. -/
  waiters : s.line.Sound
  /-- A wait of a fiber is one of them, or was woken, from before it releases the mutex. -/
  published : ∀ p, s.phase p = .releasing ∨ s.phase p = .unlocking ∨ s.phase p = .suspended →
    (∃ node, s.line.pc p = .asleep node) ∨ (∃ wake, s.line.pc p = .woken wake) ∨
      s.line.pc p = .stands .bare ∨ s.line.pc p = .stands .bareCancellable
  /-- It has the mutex until it calls `Unlock`. -/
  releasing : ∀ p, s.phase p = .releasing → s.mutex.line.pc p = .stands .holding

theorem kind_waits {pc : Pc n} (here : kind pc = .waits) : ∃ node, pc = .asleep node := by
  cases pc with
  | asleep node => exact ⟨node, rfl⟩
  | stands place => cases place <;> cases here
  | woken | holds | walks => cases here

theorem kind_woken {pc : Pc n} (here : kind pc = .woken) : ∃ wake, pc = .woken wake := by
  cases pc with
  | woken wake => exact ⟨wake, rfl⟩
  | stands place => cases place <;> cases here
  | asleep | holds | walks => cases here

theorem kind_bare {pc : Pc n} (here : kind pc = .bare) :
    pc = .stands .bare ∨ pc = .stands .bareCancellable := by
  cases pc with
  | stands place =>
    cases place with
    | bare => exact .inl rfl
    | bareCancellable => exact .inr rfl
    | _ => cases here
  | asleep | woken | holds | walks => cases here

theorem Phases.published (phases : Phases s) (p : Fin n)
    (inside : s.phase p = .releasing ∨ s.phase p = .unlocking ∨ s.phase p = .suspended) :
    (∃ node, s.line.pc p = .asleep node) ∨ (∃ wake, s.line.pc p = .woken wake) ∨
      s.line.pc p = .stands .bare ∨ s.line.pc p = .stands .bareCancellable := by
  have ok := phases p
  cases here : kind (s.line.pc p) with
  | waits => exact .inl (kind_waits here)
  | woken => exact .inr (.inl (kind_woken here))
  | bare => exact .inr (.inr (kind_bare here))
  | outside | checked =>
    rw [here] at ok
    rcases inside with phase | phase | phase
    · rw [phase] at ok
      exact ok.elim
    · rw [phase] at ok
      exact ok.elim
    · rw [phase] at ok
      exact ok.elim

theorem Phases.releasing (phases : Phases s) (p : Fin n) (phase : s.phase p = .releasing) :
    s.mutex.line.pc p = .stands .holding := by
  have ok := phases p
  rw [phase] at ok
  cases here : kind (s.line.pc p) with
  | waits | woken =>
    rw [here] at ok
    exact ok
  | outside | checked | bare =>
    rw [here] at ok
    exact ok.elim

theorem Inv.ok (inv : Inv s) : CondVarOk s where
  exclusive p q mine yours :=
    Mutex.Inv.exclusive inv.mutex (by rw [mine]; rfl) (by rw [yours]; rfl)
  waiters := inv.kept.sound
  published := inv.phases.published
  releasing := inv.phases.releasing

/-- The condition variable serves its users in every run. -/
theorem condVar_serves (reach : Reach step anyStep (initial tasks) s) :
    CondVarOk s ∧ ∀ a t, step s a = some t →
      Handed desk s.tasks s.line t.line ∧ Notified s a t ∧ ∀ p, Answers s t p := by
  have inv := inv_of_reach reach
  refine ⟨inv.ok, fun a t stepped => ?_⟩
  have move := step_move stepped
  refine ⟨move.shared.handed inv.kept, ?_, fun p => step_answers inv.phases inv.told stepped⟩
  exact {
    first := step_first stepped
    goesOn := move.goesOn inv.kept
    all := step_all stepped
    walks := move.walks inv.kept }

/-- Party 0 waits and is cancelled, and party 1 waits after it. -/
def foundLabels : List (Label 4) :=
  [.mutex (.lock 0), .waitCancellable 0, .enqueue 0, .proceed 0, .mutex (.advance 0),
    .mutex (.advance 0), .proceed 0, .mutex (.lock 1), .wait 1,
    .tasks { noScopes 4 with direct := fun p => p = 0 }]

def found : State 4 :=
  (run step anyStep (initial (noScopes 4)) foundLabels).getD (initial (noScopes 4))

theorem found_serves : found.line.queue = [0, 1] ∧ CondVarOk found ∧
    ∀ a t, step found a = some t →
      Handed desk found.tasks found.line t.line ∧ Notified found a t ∧ ∀ p, Answers found t p :=
  ⟨by decide +kernel, condVar_serves (Reach.of_isSome foundLabels (by decide +kernel))⟩

/-- The `Notify_One` of party 2 wakes the cancelled waiter, and while it has dropped the queue lock
party 3 takes the other one off. -/
def overtakenLabels : List (Label 4) :=
  [.notifyOne 2, .advance 2, .advance 2, .notifyOne 3, .advance 2]

def overtaken : State 4 := (run step anyStep found overtakenLabels).getD found

/-- An event has cancelled the task of party 0, which has no token, before it waits. -/
def direct : Tasks 1 := { noScopes 1 with direct := fun _ => true }

def directLabels : List (Label 1) := [.mutex (.lock 0), .waitCancellable 0]

def told : State 1 := (run step anyStep (initial direct) directLabels).getD (initial direct)

/-- A `Notify_One` has found a waiter that is not cancelled in the queue, and it has returned
without waking one; a wait reports `Cancelled` though its token was not cancelled and no
`CancelWaiters` took it off. -/
theorem overtaken_and_direct :
    (found.line.queue = [0, 1] ∧ skips found.tasks found.line 1 = false ∧
      (run step anyStep found overtakenLabels).isSome = true ∧
      overtaken.line.pc 2 = .stands .idle ∧ overtaken.line.pc 1 = .asleep ⟨false, kNone⟩) ∧
    ((run step anyStep (initial direct) directLabels).isSome = true ∧
      told.answers 0 = [.cancelled] ∧
      cancelled told.tasks.slots (told.tasks.token 0) = false ∧
      told.history.removed.removed 0 = 0) :=
  ⟨⟨by decide +kernel, by decide +kernel, by decide +kernel, by decide +kernel, by decide +kernel⟩,
    by decide +kernel, by decide +kernel, by decide +kernel, by decide +kernel⟩

end JLibSched.CondVar
