import JLibSched.CondVar.Moves

/-!
# Where a wait stands

A wait has the mutex when it begins, gives it away while it is in the queue or already woken, and
has it again when it returns.  What the other parties do does not disturb it.
-/

namespace JLibSched.CondVar

open Transition WaitQueue Cancel Wait

variable {n : Nat}

/-- What a party has to do with the queue. -/
inductive Kind where
  | outside
  | checked
  | waits
  | woken
  /-- It waits without a fiber. -/
  | bare
deriving DecidableEq, Repr

def kind : Pc n → Kind
  | .stands .checked => .checked
  | .stands .bare | .stands .bareCancellable => .bare
  | .asleep _ => .waits
  | .woken _ => .woken
  | .stands _ | .holds _ _ | .walks _ _ => .outside

/-- What a party in a phase does on the queue and in the mutex. -/
def PhaseOk : Phase → Kind → Mutex.Pc n → Prop
  | .outside, .outside, _ => True
  | .outside, .checked, pc => pc = .stands .holding
  | .releasing, .waits, pc | .releasing, .woken, pc => pc = .stands .holding
  | .unlocking, .waits, pc | .unlocking, .woken, pc | .unlocking, .bare, pc => Mutex.InUnlock pc
  | .suspended, .waits, pc | .suspended, .woken, pc => pc = .stands .idle
  | .locking, .woken, pc | .locking, .bare, pc => Mutex.InLock pc
  | _, _, _ => False

/-- A waiter may be woken. -/
def Rises (k k' : Kind) : Prop := k' = k ∨ k = .waits ∧ k' = .woken

theorem PhaseOk.keep {phase : Phase} {k k' : Kind} {pc pc' : Mutex.Pc n} (ok : PhaseOk phase k pc)
    (rises : Rises k k') (keeps : Mutex.Keeps pc pc') : PhaseOk phase k' pc' := by
  have first : PhaseOk phase k pc' := by
    cases phase with
    | outside =>
      cases k with
      | outside => trivial
      | checked => exact (keeps.rest (.inr ok)).trans ok
      | waits | woken | bare => exact ok.elim
    | releasing =>
      cases k with
      | waits | woken => exact (keeps.rest (.inr ok)).trans ok
      | outside | checked | bare => exact ok.elim
    | unlocking =>
      cases k with
      | waits | woken | bare => exact keeps.unlock ok
      | outside | checked => exact ok.elim
    | suspended =>
      cases k with
      | waits | woken => exact (keeps.rest (.inl ok)).trans ok
      | outside | checked | bare => exact ok.elim
    | locking =>
      cases k with
      | woken | bare => exact keeps.lock ok
      | outside | checked | waits => exact ok.elim
  rcases rises with same | ⟨rfl, rfl⟩
  · exact same ▸ first
  · cases phase with
    | outside | locking => exact first.elim
    | releasing | unlocking | suspended => exact first

variable {s t : State n} {a : Label n} {p r : Fin n}

def Phases (s : State n) : Prop :=
  ∀ p, PhaseOk (s.phase p) (kind (s.line.pc p)) (s.mutex.line.pc p)

theorem initial_phases (tasks : Tasks n) : Phases (initial tasks) := fun _ => trivial

/-- What a step does to a party that does not move. -/
structure Undisturbed (s t : State n) (r : Fin n) : Prop where
  phase : t.phase r = s.phase r
  rises : Rises (kind (s.line.pc r)) (kind (t.line.pc r))
  keeps : Mutex.Keeps (s.mutex.line.pc r) (t.mutex.line.pc r)

theorem Phases.turn (phases : Phases s) (p : Fin n) (others : ∀ r, r ≠ p → Undisturbed s t r)
    (mine : PhaseOk (t.phase p) (kind (t.line.pc p)) (t.mutex.line.pc p)) : Phases t := by
  intro r
  rcases eq_or_ne r p with rfl | other
  · exact mine
  · have undisturbed := others r other
    rw [undisturbed.phase]
    exact (phases r).keep undisturbed.rises undisturbed.keeps

/-- One party moves on the queue, and changes its phase. -/
theorem undisturbed_of_update (pc : Pc n) (phase : Phase)
    (moved : t.line.pc = Function.update s.line.pc p pc)
    (entered : t.phase = Function.update s.phase p phase)
    (mutex : Mutex.Keeps (s.mutex.line.pc r) (t.mutex.line.pc r)) (other : r ≠ p) :
    Undisturbed s t r where
  phase := by rw [entered, Function.update_of_ne other]
  rises := .inl (by rw [moved, Function.update_of_ne other])
  keeps := mutex

/-- What a party that carries waiters does. -/
theorem advance_rises (kept : Kept desk s.line) (stepped : advance s p = some t) (r : Fin n) :
    Rises (kind (s.line.pc r)) (kind (t.line.pc r)) := by
  -- one party moves and stays outside
  have turn {pc : Pc n} (moved : t.line.pc = Function.update s.line.pc p pc)
      (before : kind (s.line.pc p) = .outside) (after : kind pc = .outside) :
      Rises (kind (s.line.pc r)) (kind (t.line.pc r)) := by
    refine .inl ?_
    rw [moved]
    rcases eq_or_ne r p with rfl | other
    · rw [Function.update_self, after, before]
    · rw [Function.update_of_ne other]
  have wakes {w : Fin n} {result : WaitResult} {pc : Pc n}
      (waking : Waking desk s.tasks s.line p w result pc)
      (line : t.line = wake s.line p w result pc)
      (before : kind (s.line.pc p) = .outside) (after : kind pc = .outside) :
      Rises (kind (s.line.pc r)) (kind (t.line.pc r)) := by
    obtain ⟨node, asleep⟩ := waking.asleep kept.sound
    obtain ⟨atP, atW, others⟩ := waking.parties kept asleep
    rw [line]
    rcases eq_or_ne r p with rfl | notP
    · rw [atP, before, after]
      exact .inl rfl
    · rcases eq_or_ne r w with rfl | notW
      · rw [asleep, atW]
        exact .inr ⟨rfl, rfl⟩
      · rw [others r notP notW]
        exact .inl rfl
  unfold advance at stepped
  cases here : s.line.pc p with
  | stands place =>
    rw [here] at stepped
    cases place with
    | notifyAgain =>
      cases stepped
      unfold State.notifyOne at turn ⊢
      split at turn
      · have quit : kind (.stands .idle : Pc n) = .outside := rfl
        exact turn rfl (by rw [here]; rfl) quit
      · exact turn rfl (by rw [here]; rfl) rfl
    | _ => cases stepped
  | asleep | woken =>
    rw [here] at stepped
    cases stepped
  | holds place w =>
    rw [here] at stepped
    cases place with
    | notifyTest =>
      cases stepped
      exact turn rfl (by rw [here]; rfl) rfl
    | notifySkip =>
      cases stepped
      exact wakes (.skipped here) rfl (by rw [here]; rfl) rfl
    | notifyGrant =>
      cases stepped
      exact wakes (.granted here) rfl (by rw [here]; rfl) rfl
    | _ => cases stepped
  | walks place chain =>
    rw [here] at stepped
    cases place with
    | cancelWaiters =>
      cases chain with
      | nil =>
        cases stepped
        exact turn rfl (by rw [here]; rfl) rfl
      | cons w rest =>
        cases stepped
        exact wakes (.victim here) rfl (by rw [here]; rfl) rfl
    | notifyAll =>
      cases chain with
      | nil =>
        cases stepped
        exact turn rfl (by rw [here]; rfl) rfl
      | cons w rest =>
        cases stepped
        exact wakes (.everyone (by decide) here) rfl (by rw [here]; rfl) rfl
    | _ => cases chain <;> cases stepped

theorem notifyOne_line : s.notifyOne p = { s with line := (s.notifyOne p).line } := by
  unfold State.notifyOne
  split <;> rfl

/-- Only the queue and its parties change then. -/
theorem advance_line (stepped : advance s p = some t) : t = { s with line := t.line } := by
  unfold advance at stepped
  split at stepped
  all_goals cases stepped
  · exact notifyOne_line
  all_goals rfl

/-- A wait returns. -/
theorem Phases.answer (phases : Phases s) (p : Fin n) (result : WaitResult) :
    Phases (s.answer p result) := by
  refine phases.turn p (fun r other => ?_) ?_
  · exact undisturbed_of_update (.stands .idle) .outside rfl rfl (.same rfl) other
  · simp only [State.answer, State.go, Line.set]
    rw [Function.update_self, Function.update_self]
    trivial

theorem Phases.join (phases : Phases s) (node : Node)
    (holding : s.mutex.line.pc p = .stands .holding) : Phases (s.join p node) := by
  refine phases.turn p (fun r other => ?_) ?_
  · exact undisturbed_of_update (.asleep node) .releasing rfl rfl (.same rfl) other
  · simp only [State.join, State.enter, Line.join]
    rw [Function.update_self, Function.update_self]
    exact holding

/-- A cancellable wait is checked while its party holds the mutex. -/
theorem Phases.holding (phases : Phases s) (here : s.line.pc p = .stands .checked) :
    s.phase p = .outside ∧ s.mutex.line.pc p = .stands .holding := by
  have ok := phases p
  rw [here] at ok
  cases phase : s.phase p with
  | outside =>
    rw [phase] at ok
    exact ⟨rfl, ok⟩
  | _ =>
    rw [phase] at ok
    exact ok.elim

/-- A party that has no call in progress begins one. -/
theorem Phases.call (phases : Phases s) {b : Mutex.Label n} (inv : Mutex.Inv s.mutex)
    (starts : b.starts = some p) {phase : Phase} (called : s.call b p phase = some t)
    (mine : ∀ pc, Mutex.step s.mutex b = some pc →
      PhaseOk phase (kind (s.line.pc p)) (pc.line.pc p)) :
    Phases t := by
  unfold State.call at called
  obtain ⟨mutex, stepped, rfl⟩ := Option.map_eq_some_iff.mp called
  refine phases.turn p (fun r other => ?_) ?_
  · refine ⟨Function.update_of_ne other _ _, .inl rfl, Mutex.step_keeps inv stepped ?_⟩
    rw [starts]
    exact fun same => other (Option.some.inj same).symm
  · simp only [State.enter]
    rw [Function.update_self]
    exact mine mutex stepped

theorem Phases.proceed (phases : Phases s) (inv : Mutex.Inv s.mutex)
    (stepped : proceed s p = some t) : Phases t := by
  have ok := phases p
  unfold CondVar.proceed at stepped
  split at stepped
  case h_1 => cases stepped
  case h_2 phase =>
    refine phases.call inv rfl stepped fun m unlocked => ?_
    have inUnlock := Mutex.unlock_inUnlock unlocked
    rw [phase] at ok
    cases here : kind (s.line.pc p) with
    | waits | woken => exact inUnlock
    | outside | checked | bare =>
      rw [here] at ok
      exact ok.elim
  case h_3 phase =>
    rw [phase] at ok
    split at stepped
    · rename_i rest
      split at stepped
      · rename_i place here
        refine phases.call inv rfl stepped fun m locked => ?_
        have inLock := Mutex.lockBare_inLock locked
        rw [here] at ok ⊢
        cases place with
        | bare | bareCancellable => exact inLock
        | _ => exact ok.elim
      · rename_i queued
        cases stepped
        refine phases.turn p (fun r other => ?_) ?_
        · exact ⟨Function.update_of_ne other _ _, .inl rfl, .same rfl⟩
        · simp only [State.enter]
          rw [Function.update_self]
          cases here : s.line.pc p with
          | stands place => exact (queued place here).elim
          | asleep | woken =>
            rw [here] at ok
            exact Mutex.InUnlock.idle ok rest
          | holds | walks =>
            rw [here] at ok
            exact ok.elim
    · cases stepped
  case h_4 phase =>
    split at stepped
    · rename_i wake here
      refine phases.call inv rfl stepped fun m locked => ?_
      rw [here]
      exact Mutex.lock_inLock locked
    · cases stepped
  case h_5 phase =>
    split at stepped
    · unfold State.back at stepped
      split at stepped
      · rename_i wake here
        cases stepped
        exact phases.answer p (if wake = ⟨true, .cancelled⟩ then .cancelled else .ok)
      · cases stepped
        exact phases.answer p _
      · cases stepped
        exact phases.answer p _
      · cases stepped
    · cases stepped

theorem Phases.step (phases : Phases s) (inv : Mutex.Inv s.mutex) (kept : Kept desk s.line)
    (stepped : step s a = some t) : Phases t := by
  -- a party that stays outside moves on the queue
  have outside {p : Fin n} (pc : Pc n) (line : Queue n Place) (history : History n)
      (here : s.phase p = .outside) (moved : line.pc = Function.update s.line.pc p pc)
      (after : kind pc = .outside) :
      Phases { s with line := line, history := history } := by
    refine phases.turn p (fun r other => ?_) ?_
    · exact ⟨rfl, .inl (by simp only; rw [moved, Function.update_of_ne other]), .same rfl⟩
    · simp only
      rw [here, moved, Function.update_self, after]
      trivial
  cases a with
  | tasks tasks =>
    cases stepped
    exact phases
  | advance p =>
    have line := advance_line stepped
    intro r
    rw [line]
    exact (phases r).keep (advance_rises kept stepped r) (.same rfl)
  | proceed p => exact phases.proceed inv stepped
  | mutex b =>
    simp only [CondVar.step] at stepped
    split at stepped
    · rename_i allowed
      obtain ⟨mutex, called, rfl⟩ := Option.map_eq_some_iff.mp stepped
      intro r
      by_cases starts : b.starts = some r
      · have ready := allowed.2 r starts
        simp only
        rw [ready.1, ready.2.1]
        trivial
      · exact (phases r).keep (.inl rfl) (Mutex.step_keeps inv called starts)
    · cases stepped
  | wait p =>
    simp only [CondVar.step] at stepped
    split at stepped
    · rename_i ready
      cases stepped
      have begun : Phases (s.begin p) := phases
      exact begun.join _ ready.2.2
    · cases stepped
  | waitCancellable p =>
    simp only [CondVar.step] at stepped
    split at stepped
    · rename_i ready
      cases stepped
      have begun : Phases (s.begin p) := phases
      split
      · exact begun.answer p _
      · refine phases.turn p (fun r other => ?_) ?_
        · refine ⟨rfl, .inl ?_, .same rfl⟩
          simp only [State.go, Line.set]
          rw [Function.update_of_ne other]
          rfl
        · simp only [State.go, Line.set, State.begin]
          rw [ready.2.1, Function.update_self]
          exact ready.2.2
    · cases stepped
  | enqueue p =>
    simp only [CondVar.step] at stepped
    split at stepped
    · rename_i here
      cases stepped
      split
      · exact phases.answer p _
      · exact phases.join _ (phases.holding here).2
    · cases stepped
  | waitBare p cancellable =>
    simp only [CondVar.step] at stepped
    split at stepped
    · have begun : Phases (s.begin p) := phases
      split at stepped
      · cases stepped
        exact begun.answer p _
      · unfold State.call at stepped
        obtain ⟨mutex, called, rfl⟩ := Option.map_eq_some_iff.mp stepped
        refine phases.turn p (fun r other => ?_) ?_
        · refine undisturbed_of_update (.stands _) .unlocking rfl rfl ?_ other
          exact Mutex.step_keeps inv called fun same => other (Option.some.inj same).symm
        · simp only [State.enter, State.go, Line.set]
          rw [Function.update_self, Function.update_self]
          have inUnlock := Mutex.unlock_inUnlock called
          cases cancellable with
          | true => exact inUnlock
          | false => exact inUnlock
    · cases stepped
  | notifyOne p =>
    simp only [CondVar.step] at stepped
    split at stepped
    · rename_i ready
      cases stepped
      unfold State.notifyOne
      split
      · exact outside (.stands .idle) _ _ ready.2.1 rfl rfl
      · exact outside (.holds .notifyTest _) _ _ ready.2.1 rfl rfl
    · cases stepped
  | notifyAll p =>
    simp only [CondVar.step] at stepped
    split at stepped
    · rename_i ready
      cases stepped
      exact outside (.walks .notifyAll _) _ _ ready.2.1 rfl rfl
    · cases stepped
  | cancelWaiters p tok =>
    simp only [CondVar.step] at stepped
    split at stepped
    · rename_i ready
      cases stepped
      exact outside (.walks .cancelWaiters _) _ _ ready.2.1 rfl rfl
    · cases stepped

end JLibSched.CondVar
