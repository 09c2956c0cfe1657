import JLibSched.CondVar.Phases

/-!
# What a wait returns with

A wait has the mutex when it returns, and it reports `Cancelled` only if its task was cancelled
since it began, or a `CancelWaiters` took it off.
-/

namespace JLibSched.CondVar

open Transition WaitQueue Cancel Wait

variable {n : Nat} {s t : State n} {a : Label n} {p r w : Fin n}

/-- A waiter has a reason to be told that it was cancelled. -/
def Reason (s : State n) (w : Fin n) : Prop :=
  s.cancelled w = true ∨ s.history.removed.off w = true

structure Told (s : State n) : Prop where
  seen : ∀ p, s.tasks.isTaskCancelled p = true → s.cancelled p = true
  carried : ∀ u, Cancelling desk (s.line.pc u) → ∀ w ∈ (s.line.pc u).hand, Reason s w
  told : ∀ p, s.line.pc p = .woken ⟨true, .cancelled⟩ → Reason s p

theorem initial_told (tasks : Tasks n) : Told (initial tasks) where
  seen _ := id
  carried u cancelling := by
    rcases cancelling with ⟨w, absurd⟩ | ⟨chain, absurd⟩
    · cases absurd
    · cases absurd
  told p absurd := by cases absurd

/-- What a step notes of the cancelled tasks. -/
structure Noted (s t : State n) : Prop where
  seen : (∀ p, s.tasks.isTaskCancelled p = true → s.cancelled p = true) →
    ∀ p, t.tasks.isTaskCancelled p = true → t.cancelled p = true
  grows : ∀ w, s.line.pc w ≠ .stands .idle → s.cancelled w = true → t.cancelled w = true

theorem Noted.same (tasks : t.tasks = s.tasks) (cancelled : t.cancelled = s.cancelled) :
    Noted s t where
  seen seen p := by
    rw [tasks, cancelled]
    exact seen p
  grows w _ := by
    rw [cancelled]
    exact id

/-- A wait begins. -/
theorem Noted.begin (ready : s.line.pc p = .stands .idle) (tasks : t.tasks = s.tasks)
    (cancelled : t.cancelled = (s.begin p).cancelled) : Noted s t where
  seen seen r := by
    rw [tasks, cancelled]
    simp only [State.begin]
    rcases eq_or_ne r p with rfl | other
    · rw [Function.update_self]
      exact id
    · rw [Function.update_of_ne other]
      exact seen r
  grows w awake := by
    have other : w ≠ p := by
      rintro rfl
      exact awake ready
    rw [cancelled]
    simp only [State.begin]
    rw [Function.update_of_ne other]
    exact id

theorem call_noted {s' : State n} {b : Mutex.Label n} {phase : Phase} (keeps : b.setsTasks = false)
    (called : s'.call b p phase = some t) : t.tasks = s'.tasks ∧ t.cancelled = s'.cancelled := by
  unfold State.call at called
  obtain ⟨mutex, stepped, rfl⟩ := Option.map_eq_some_iff.mp called
  exact ⟨Mutex.step_tasks stepped keeps, rfl⟩

theorem proceed_noted (stepped : proceed s p = some t) : Noted s t := by
  have call {b : Mutex.Label n} {phase : Phase} (keeps : b.setsTasks = false)
      (called : s.call b p phase = some t) : Noted s t := by
    obtain ⟨tasks, cancelled⟩ := call_noted keeps called
    exact .same tasks cancelled
  unfold proceed at stepped
  split at stepped
  case h_1 => cases stepped
  case h_2 => exact call rfl stepped
  case h_3 =>
    split at stepped
    · split at stepped
      · exact call rfl stepped
      · cases stepped
        exact .same rfl rfl
    · cases stepped
  case h_4 =>
    split at stepped
    · exact call rfl stepped
    · cases stepped
  case h_5 =>
    split at stepped
    · unfold State.back at stepped
      split at stepped
      all_goals cases stepped
      all_goals exact .same rfl rfl
    · cases stepped

theorem step_noted (stepped : step s a = some t) : Noted s t := by
  cases a with
  | tasks tasks =>
    cases stepped
    constructor
    case seen =>
      intro _ p cancelled
      exact Bool.or_eq_true _ _ |>.mpr (.inr cancelled)
    case grows =>
      intro w _ cancelled
      exact Bool.or_eq_true _ _ |>.mpr (.inl cancelled)
  | advance p =>
    rw [advance_line stepped]
    exact .same rfl rfl
  | proceed p => exact proceed_noted stepped
  | mutex b =>
    simp only [step] at stepped
    split at stepped
    · rename_i allowed
      obtain ⟨mutex, called, rfl⟩ := Option.map_eq_some_iff.mp stepped
      exact .same (Mutex.step_tasks called allowed.1) rfl
    · cases stepped
  | wait p =>
    simp only [step] at stepped
    split at stepped
    · rename_i ready
      cases stepped
      exact .begin ready.1 rfl rfl
    · cases stepped
  | waitCancellable p =>
    simp only [step] at stepped
    split at stepped
    · rename_i ready
      cases stepped
      split
      · exact .begin ready.1 rfl rfl
      · exact .begin ready.1 rfl rfl
    · cases stepped
  | enqueue p =>
    simp only [step] at stepped
    split at stepped
    · cases stepped
      split
      · exact .same rfl rfl
      · exact .same rfl rfl
    · cases stepped
  | waitBare p cancellable =>
    simp only [step] at stepped
    split at stepped
    · rename_i ready
      split at stepped
      · cases stepped
        exact .begin ready.1 rfl rfl
      · obtain ⟨tasks, cancelled⟩ := call_noted rfl stepped
        exact .begin ready.1 tasks cancelled
    · cases stepped
  | notifyOne p =>
    simp only [step] at stepped
    split at stepped
    · cases stepped
      rw [notifyOne_line]
      exact .same rfl rfl
    · cases stepped
  | notifyAll p | cancelWaiters p tok =>
    simp only [step] at stepped
    split at stepped
    · cases stepped
      exact .same rfl rfl
    · cases stepped

/-- A waiter keeps its reason until its wait is over. -/
theorem Move.reason (move : Move s t) (noted : Noted s t) (before : s.line.pc w ≠ .stands .idle)
    (after : t.line.pc w ≠ .stands .idle) (reason : Reason s w) : Reason t w := by
  rcases reason with cancelled | off
  · exact .inl (noted.grows w before cancelled)
  · refine .inr ?_
    have same (frame : Frame s t) : t.history.removed.off w = true := by
      rw [frame.history]
      exact off
    cases move with
    | tasks line history =>
      rw [history]
      exact off
    | sweep p tok here line tasks history =>
      rw [history]
      exact Bool.or_eq_true _ _ |>.mpr (.inl off)
    | back p wake here line tasks history =>
      have other : w ≠ p := by
        rintro rfl
        rw [line] at after
        exact after (Function.update_self _ _ _)
      rw [history]
      exact (Function.update_of_ne other _ _).trans off
    | other _ frame | go _ _ _ _ _ _ frame | join _ _ _ _ _ _ _ frame | quit _ _ _ _ _ frame
    | pop _ _ _ _ _ _ _ frame | test _ _ _ _ frame | wake _ _ _ _ _ _ frame
    | finish _ _ _ _ frame | takeAll _ _ _ frame => exact same frame

theorem Move.told (move : Move s t) (noted : Noted s t) (kept : Kept desk s.line)
    (kept' : Kept desk t.line) (inv : Told s) : Told t := by
  have seen := noted.seen inv.seen
  have keep {r : Fin n} (before : s.line.pc r ≠ .stands .idle)
      (after : t.line.pc r ≠ .stands .idle) (reason : Reason s r) : Reason t r :=
    move.reason noted before after reason
  have carried {u w : Fin n} (mem : w ∈ (s.line.pc u).hand) (mem' : w ∈ (t.line.pc u).hand)
      (reason : Reason s w) : Reason t w := by
    have asleep := kept.sound.carried mem
    have asleep' := kept'.sound.carried mem'
    refine keep (fun idle => ?_) (fun idle => ?_) reason
    · rw [idle] at asleep
      cases asleep
    · rw [idle] at asleep'
      cases asleep'
  have woken {r : Fin n} {wake : Wake} (here : s.line.pc r = .woken wake)
      (there : t.line.pc r = .woken wake) (reason : Reason s r) : Reason t r :=
    keep (by rw [here]; exact nofun) (by rw [there]; exact nofun) reason
  -- one party moves and wakes nobody
  have turn {p : Fin n} (pc : Pc n) (moved : t.line.pc = Function.update s.line.pc p pc)
      (new : Cancelling desk pc → ∀ w ∈ pc.hand, Reason t w) (awake : ∀ wake, pc ≠ .woken wake) :
      Told t := by
    refine ⟨seen, fun u cancelling w mem => ?_, fun r here => ?_⟩
    · rcases eq_or_ne u p with rfl | other
      · rw [moved, Function.update_self] at cancelling mem
        exact new cancelling w mem
      · have mem' := mem
        rw [moved, Function.update_of_ne other] at cancelling mem
        exact carried mem mem' (inv.carried u cancelling w mem)
    · have there := here
      rw [moved] at here
      rcases eq_or_ne r p with rfl | other
      · rw [Function.update_self] at here
        exact absurd here (awake _)
      · rw [Function.update_of_ne other] at here
        exact woken here there (inv.told r here)
  have stands {p : Fin n} {place : Place}
      (moved : t.line.pc = Function.update s.line.pc p (.stands place)) : Told t := by
    refine turn _ moved (fun cancelling => ?_) nofun
    rcases cancelling with ⟨w, absurd⟩ | ⟨chain, absurd⟩
    · cases absurd
    · cases absurd
  have calm (line : t.line = s.line) : Told t := by
    refine ⟨seen, fun u cancelling w mem => ?_, fun r here => ?_⟩
    · have mem' := mem
      rw [line] at cancelling mem
      exact carried mem mem' (inv.carried u cancelling w mem)
    · have there := here
      rw [line] at here
      exact woken here there (inv.told r here)
  cases move with
  | other line frame => exact calm line
  | tasks line history => exact calm line
  | go p place place' here line => exact stands (by rw [line]; rfl)
  | quit p place here empty line => exact stands (by rw [line]; rfl)
  | finish p place here line => exact stands (by rw [line]; rfl)
  | back p wake here line => exact stands (by rw [line]; rfl)
  | join p place node here line =>
    exact turn (.asleep node) (by rw [line]; rfl) (fun _ _ absurd => by cases absurd) nofun
  | pop p w place rest here first line =>
    refine turn (.holds .notifyTest w) (by rw [line]; rfl) (fun cancelling => ?_) nofun
    rcases cancelling with ⟨r, absurd⟩ | ⟨chain, absurd⟩
    · cases absurd
    · cases absurd
  | test p w here line frame =>
    refine turn (.holds (if skips s.tasks s.line w then .notifySkip else .notifyGrant) w)
      (by rw [line]; rfl) (fun cancelling r mem => ?_) nofun
    obtain rfl := List.mem_singleton.mp mem
    have skipped : skips s.tasks s.line r = true := by
      by_contra not
      rw [if_neg not] at cancelling
      rcases cancelling with ⟨r, absurd⟩ | ⟨chain, absurd⟩
      · cases absurd
      · cases absurd
    refine .inl (seen r ?_)
    rw [frame.tasks]
    exact Bool.and_elim_right skipped
  | sweep p tok here line tasks history =>
    refine turn (.walks .cancelWaiters (s.line.queue.filter (covers s.tasks s.line tok)))
      (by rw [line]; rfl) (fun _ r mem => .inr ?_) nofun
    rw [history]
    exact Bool.or_eq_true _ _ |>.mpr (.inr (decide_eq_true mem))
  | takeAll p here line =>
    refine turn (.walks .notifyAll (s.line.queue.filter fun _ => true)) (by rw [line]; rfl)
      (fun cancelling => ?_) nofun
    rcases cancelling with ⟨r, absurd⟩ | ⟨chain, absurd⟩
    · cases absurd
    · cases absurd
  | wake p w result pc waking line frame =>
    obtain ⟨node, asleep⟩ := waking.asleep kept.sound
    obtain ⟨atP, atW, others⟩ := waking.parties kept asleep
    rw [← line] at atP atW others
    refine ⟨seen, fun u cancelling r mem => ?_, fun r here => ?_⟩
    · rcases eq_or_ne u p with rfl | notP
      · have mem' := mem
        rw [atP] at cancelling mem
        have carries : r ∈ (s.line.pc u).hand := by
          rw [waking.hand]
          exact List.mem_cons_of_mem _ mem
        exact carried carries mem' (inv.carried u (waking.cancelling cancelling) r carries)
      · have notW : u ≠ w := by
          rintro rfl
          rw [atW] at mem
          cases mem
        have mem' := mem
        rw [others u notP notW] at cancelling mem
        exact carried mem mem' (inv.carried u cancelling r mem)
    · rcases eq_or_ne r w with rfl | notW
      · -- the one that is woken
        have there := here
        rw [atW] at here
        obtain ⟨-, rfl⟩ := Wake.mk.inj (Pc.woken.inj here)
        have reason : Reason s r := by
          rcases waking.told with cancelling | skipped
          · exact inv.carried p cancelling r waking.mem
          · exact .inl (inv.seen r (Bool.and_elim_right skipped))
        exact keep (by rw [asleep]; exact nofun) (by rw [there]; exact nofun) reason
      · have notP : r ≠ p := by
          rintro rfl
          rw [atP] at here
          exact waking.not_woken _ here
        have there := here
        rw [others r notP notW] at here
        exact woken here there (inv.told r here)

/-! ## Returning -/

/-- A wait of the party returns in the step. -/
structure Returns (s t : State n) (p : Fin n) (result : WaitResult) : Prop where
  answer : t.answers p = result :: s.answers p
  /-- It has the mutex. -/
  holds : t.mutex.line.pc p = .stands .holding
  reason : result = .cancelled → t.cancelled p = true ∨ s.history.removed.off p = true

/-- A wait of the party has returned, with the mutex, or its answers are as they were. -/
def Answers (s t : State n) (p : Fin n) : Prop :=
  t.answers p = s.answers p ∨ ∃ result, Returns s t p result

theorem answers_same (same : t.answers = s.answers) : Answers s t r :=
  .inl (by rw [same])

/-- One wait returns. -/
theorem answers_answer {result : WaitResult}
    (answered : t.answers = Function.update s.answers p (result :: s.answers p))
    (mutex : t.mutex = s.mutex) (holds : s.mutex.line.pc p = .stands .holding)
    (reason : result = .cancelled → t.cancelled p = true ∨ s.history.removed.off p = true) :
    Answers s t r := by
  rcases eq_or_ne r p with rfl | other
  · refine .inr ⟨result, ?_, mutex ▸ holds, reason⟩
    rw [answered, Function.update_self]
  · refine .inl ?_
    rw [answered, Function.update_of_ne other]

theorem call_answers {s' : State n} {b : Mutex.Label n} {phase : Phase}
    (called : s'.call b p phase = some t) : t.answers = s'.answers := by
  unfold State.call at called
  obtain ⟨mutex, stepped, rfl⟩ := Option.map_eq_some_iff.mp called
  rfl

theorem back_answers (told : Told s) (holds : s.mutex.line.pc p = .stands .holding)
    (stepped : s.back p = some t) : Answers s t r := by
  unfold State.back at stepped
  split at stepped
  · rename_i wake here
    cases stepped
    refine answers_answer (p := p) rfl rfl holds fun cancelled => ?_
    split at cancelled
    · rename_i same
      subst same
      exact told.told p here
    · cases cancelled
  · rename_i here
    cases stepped
    refine answers_answer (p := p) rfl rfl holds fun cancelled => ?_
    split at cancelled
    · rename_i task
      exact .inl (told.seen p task)
    · cases cancelled
  · cases stepped
    exact answers_answer (p := p) rfl rfl holds fun absurd => by cases absurd
  · cases stepped

theorem proceed_answers (phases : Phases s) (told : Told s) (stepped : proceed s p = some t) :
    Answers s t r := by
  have ok := phases p
  unfold proceed at stepped
  split at stepped
  case h_1 => cases stepped
  case h_2 => exact answers_same (call_answers stepped)
  case h_3 =>
    split at stepped
    · split at stepped
      · exact answers_same (call_answers stepped)
      · cases stepped
        exact .inl rfl
    · cases stepped
  case h_4 =>
    split at stepped
    · exact answers_same (call_answers stepped)
    · cases stepped
  case h_5 phase =>
    rw [phase] at ok
    split at stepped
    · rename_i rest
      have inLock : Mutex.InLock (s.mutex.line.pc p) := by
        cases here : kind (s.line.pc p) with
        | woken | bare =>
          rw [here] at ok
          exact ok
        | outside | checked | waits =>
          rw [here] at ok
          exact ok.elim
      exact back_answers told (inLock.holding rest) stepped
    · cases stepped

theorem step_answers (phases : Phases s) (told : Told s) (stepped : step s a = some t) :
    Answers s t r := by
  cases a with
  | tasks tasks =>
    cases stepped
    exact .inl rfl
  | advance p =>
    rw [advance_line stepped]
    exact .inl rfl
  | proceed p => exact proceed_answers phases told stepped
  | mutex b =>
    simp only [step] at stepped
    split at stepped
    · obtain ⟨mutex, called, rfl⟩ := Option.map_eq_some_iff.mp stepped
      exact .inl rfl
    · cases stepped
  | wait p =>
    simp only [step] at stepped
    split at stepped
    · cases stepped
      exact .inl rfl
    · cases stepped
  | waitCancellable p =>
    simp only [step] at stepped
    split at stepped
    · rename_i ready
      cases stepped
      split
      · rename_i cancelled
        refine answers_answer (p := p) rfl rfl ready.2.2 fun _ => .inl ?_
        exact (Function.update_self _ _ _).trans cancelled
      · exact .inl rfl
    · cases stepped
  | enqueue p =>
    simp only [step] at stepped
    split at stepped
    · rename_i here
      cases stepped
      split
      · rename_i cancelled
        exact answers_answer (p := p) rfl rfl (phases.holding here).2
          fun _ => .inl (told.seen p cancelled)
      · exact .inl rfl
    · cases stepped
  | waitBare p cancellable =>
    simp only [step] at stepped
    split at stepped
    · rename_i ready
      split at stepped
      · rename_i both
        cases stepped
        refine answers_answer (p := p) rfl rfl ready.2.2 fun _ => .inl ?_
        exact (Function.update_self _ _ _).trans (Bool.and_elim_right both)
      · exact .inl (congrFun (call_answers stepped) r)
    · cases stepped
  | notifyOne p =>
    simp only [step] at stepped
    split at stepped
    · cases stepped
      rw [notifyOne_line]
      exact .inl rfl
    · cases stepped
  | notifyAll p | cancelWaiters p tok =>
    simp only [step] at stepped
    split at stepped
    · cases stepped
      exact .inl rfl
    · cases stepped

end JLibSched.CondVar
