import JLibSched.Mutex.Moves

/-!
# Who has the mutex

The lock has one owner while `locked` is set and none otherwise, and nobody waits for a free
mutex.  Each waiter is woken once, by the `Unlock` or the `CancelWaiters` that took it off; it is
told `Ok` when it gets the lock, and `Cancelled` only if it is cancellable.
-/

namespace JLibSched.Mutex

open Transition WaitQueue Cancel Wait

variable {n : Nat} {s t : State n} {a : Label n} {p u w : Fin n}

structure Inv (s : State n) : Prop where
  kept : Kept desk s.line
  owned : s.line.total owns = if s.locked then 1 else 0
  free : s.locked = false → s.line.queue = []

theorem initial_inv (tasks : Tasks n) : Inv (initial tasks) where
  kept := empty_kept _
  owned := by simp [initial, Line.total, Line.empty, owns, Place.owns]
  free _ := rfl

/-- What the waiter and the waker own together does not change. -/
theorem owns_waking (inv : Inv s) {result : WaitResult} {pc : Pc n}
    (waking : Waking desk s.tasks s.line u w result pc)
    (kind : ∀ place chain, s.line.pc u = .walks place chain → place = .cancelWaiters) :
    owns (.woken ⟨(s.line.node w).any (·.cancellable), result⟩ : Pc n) + owns pc =
      owns (s.line.pc u) := by
  cases waking with
  | granted here =>
    rw [here]
    simp [owns, desk, Place.owns]
  | skipped here =>
    rw [inv.kept.skipped here, here]
    simp [owns, desk, Place.owns]
  | victim here =>
    rw [inv.kept.victim here, here]
    simp [owns]
  | everyone other here => exact absurd (kind _ _ here) other

theorem Move.owned (move : Move s t) (inv : Inv s) :
    t.line.total owns = if t.locked then 1 else 0 := by
  have owned := inv.owned
  cases move with
  | tasks line locked =>
    rw [line, locked]
    exact owned
  | go p place place' here line locked same =>
    have moved := Line.total_set (q := s.line) (u := p) owns (.stands place')
    rw [here, ← line] at moved
    simp only [owns, same] at moved
    rw [locked]
    omega
  | notify p w here there line locked =>
    have apart : p ≠ w := by
      rintro rfl
      rw [here] at there
      cases there
    have first := Line.total_set (q := s.line) (u := w) owns (.stands .bareNotified)
    have second := Line.total_set (q := s.line.set w (.stands .bareNotified)) (u := p) owns
      (.stands .idle)
    have still : (s.line.set w (.stands .bareNotified)).pc p = .stands .unlockNotify :=
      (Function.update_of_ne apart _ _).trans here
    rw [there] at first
    rw [still, ← line] at second
    simp only [owns, Place.owns] at first second
    rw [locked]
    omega
  | acquire p place place' here line free locked before after =>
    have moved := Line.total_set (q := s.line) (u := p) owns (.stands place')
    rw [here, ← line] at moved
    simp only [owns, before, after] at moved
    rw [free] at owned
    rw [locked]
    simp only [if_true, Bool.false_eq_true, if_false] at owned ⊢
    omega
  | join p place node here before line taken locked =>
    have moved : t.line.total owns + owns (s.line.pc p) = s.line.total owns +
        owns (.asleep node) := Line.total_update owns (by rw [line]; rfl)
    rw [here] at moved
    simp only [owns, before] at moved
    rw [taken] at owned
    rw [locked]
    omega
  | release p here none line locked =>
    have moved := Line.total_set (q := s.line) (u := p) owns (.stands .unlockBare)
    have most : s.line.total owns ≤ 1 := by
      rw [owned]
      split <;> omega
    rw [here, ← line] at moved
    simp only [owns, Place.owns] at moved
    rw [locked]
    simp only [Bool.false_eq_true, if_false]
    omega
  | pop p w rest here first line locked =>
    have moved : t.line.total owns + owns (s.line.pc p) = s.line.total owns +
        owns (.holds .unlockTest w) := Line.total_update owns (by rw [line]; rfl)
    rw [here] at moved
    simp only [owns, Place.owns] at moved
    rw [locked]
    omega
  | test p w here line locked =>
    have moved := Line.total_set (q := s.line) (u := p) owns
      (.holds (if s.skips w then .unlockSkip else .unlockGrant) w)
    rw [here, ← line] at moved
    simp only [owns] at moved
    rw [locked]
    omega
  | wake p w result pc waking line locked kind =>
    obtain ⟨node, asleep⟩ := waking.asleep inv.kept.sound
    have moved := Line.total_wake (q := s.line) owns
      ⟨(s.line.node w).any (·.cancellable), result⟩ pc (waking.apart inv.kept.sound)
    have shared := owns_waking inv waking kind
    rw [asleep] at moved
    change Line.total owns (Wait.wake s.line p w result pc) + _ + _ = _ at moved
    rw [← line] at moved
    simp only [show owns (.asleep node : Pc n) = 0 from rfl] at moved
    rw [locked]
    omega
  | finish p here line locked =>
    have moved := Line.total_set (q := s.line) (u := p) owns (.stands .idle)
    rw [here, ← line] at moved
    simp only [owns, Place.owns] at moved
    rw [locked]
    omega
  | take p tok here line locked =>
    have moved : t.line.total owns + owns (s.line.pc p) = s.line.total owns +
        owns (.walks .cancelWaiters (s.line.queue.filter (s.covers tok))) :=
      Line.total_update owns (by rw [line]; rfl)
    rw [here] at moved
    simp only [owns, Place.owns] at moved
    rw [locked]
    omega
  | back p wake here line locked =>
    have moved := Line.total_set (q := s.line) (u := p) owns
      (.stands (if wake = ⟨true, .cancelled⟩ then .idle else .holding))
    have same : owns (.stands (if wake = ⟨true, .cancelled⟩ then .idle else .holding) : Pc n) =
        owns (s.line.pc p) := by
      rw [here]
      change Place.owns _ = if wake = ⟨true, .cancelled⟩ then 0 else 1
      split <;> rfl
    rw [← line, same] at moved
    rw [locked]
    omega

theorem Move.free (move : Move s t) (inv : Inv s) (free : t.locked = false) :
    t.line.queue = [] := by
  have empty := inv.free
  cases move with
  | tasks line locked =>
    rw [line]
    exact empty (locked.symm.trans free)
  | go p place place' here line locked =>
    rw [line]
    exact empty (locked.symm.trans free)
  | notify p w here there line locked =>
    rw [line]
    exact empty (locked.symm.trans free)
  | acquire p place place' here line before locked =>
    rw [free] at locked
    cases locked
  | join p place node here _ line taken locked =>
    rw [free] at locked
    cases locked
  | release p here none line =>
    rw [line]
    exact none
  | pop p w rest here first line locked =>
    rw [empty (locked.symm.trans free)] at first
    cases first
  | test p w here line locked =>
    rw [line]
    exact empty (locked.symm.trans free)
  | wake p w result pc waking line locked =>
    rw [line]
    exact empty (locked.symm.trans free)
  | finish p here line locked =>
    rw [line]
    exact empty (locked.symm.trans free)
  | take p tok here line locked =>
    rw [line]
    simp only [Line.takeIf, Line.set, empty (locked.symm.trans free), List.filter_nil]
  | back p wake here line locked =>
    rw [line]
    exact empty (locked.symm.trans free)

theorem Inv.step (inv : Inv s) (stepped : step s a = some t) : Inv t where
  kept := (step_move stepped).shared.kept inv.kept
  owned := (step_move stepped).owned inv
  free := (step_move stepped).free inv

theorem inv_of_reach {tasks : Tasks n} (reach : Reach step anyStep (initial tasks) s) : Inv s :=
  reach.invariant (initial_inv tasks) fun inv _ stepped => inv.step stepped

end JLibSched.Mutex
