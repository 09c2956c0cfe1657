import JLibSched.Mutex.Model

/-!
# What a step of the mutex can do

Every step is one of a few moves of the queue and of `locked`.  The lock is owned from the moment
`locked` is set: by the party that set it, by its `Unlock` while that looks for a waiter, and by
the waiter that was woken with it.
-/

namespace JLibSched.Mutex

open Transition WaitQueue Cancel Wait

/-- One for a party that has the lock. -/
def Place.owns : Place → Nat
  | .holding | .bareGot | .bareLeave | .unlockPop => 1
  | _ => 0

def owns {n : Nat} : Pc n → Nat
  | .stands place => place.owns
  | .holds _ _ => 1
  | .woken wake => if wake = ⟨true, .cancelled⟩ then 0 else 1
  | .asleep _ | .walks _ _ => 0

variable {n : Nat}

/-- What becomes of the queue and of `locked` in a step. -/
inductive Move (s t : State n) : Prop where
  | tasks (line : t.line = s.line) (locked : t.locked = s.locked)
  | go (p : Fin n) (place place' : Place) (here : s.line.pc p = .stands place)
      (line : t.line = s.line.set p (.stands place')) (locked : t.locked = s.locked)
      (owns : place'.owns = place.owns) (other : place ≠ .unlockPop)
  | notify (p w : Fin n) (here : s.line.pc p = .stands .unlockNotify)
      (there : s.line.pc w = .stands .bareBlocked)
      (line : t.line = (s.line.set w (.stands .bareNotified)).set p (.stands .idle))
      (locked : t.locked = s.locked)
  | acquire (p : Fin n) (place place' : Place) (here : s.line.pc p = .stands place)
      (line : t.line = s.line.set p (.stands place')) (free : s.locked = false)
      (locked : t.locked = true) (before : place.owns = 0) (after : place'.owns = 1)
  | join (p : Fin n) (place : Place) (node : Node) (here : s.line.pc p = .stands place)
      (before : place.owns = 0) (line : t.line = s.line.join p node) (taken : s.locked = true)
      (locked : t.locked = true)
  | release (p : Fin n) (here : s.line.pc p = .stands .unlockPop) (none : s.line.queue = [])
      (line : t.line = s.line.set p (.stands .unlockBare)) (locked : t.locked = false)
  | pop (p w : Fin n) (rest : List (Fin n)) (here : s.line.pc p = .stands .unlockPop)
      (first : s.line.queue = w :: rest) (line : t.line = s.line.pop p .unlockTest w rest)
      (locked : t.locked = s.locked)
  | test (p w : Fin n) (here : s.line.pc p = .holds .unlockTest w)
      (line : t.line = s.line.set p
        (.holds (if s.skips w then .unlockSkip else .unlockGrant) w))
      (locked : t.locked = s.locked)
  | wake (p w : Fin n) (result : WaitResult) (pc : Pc n)
      (waking : Waking desk s.tasks s.line p w result pc)
      (line : t.line = Wait.wake s.line p w result pc) (locked : t.locked = s.locked)
      (kind : ∀ place chain, s.line.pc p = .walks place chain → place = .cancelWaiters)
  | finish (p : Fin n) (here : s.line.pc p = .walks .cancelWaiters [])
      (line : t.line = s.line.set p (.stands .idle)) (locked : t.locked = s.locked)
  | take (p : Fin n) (tok : Nat) (here : s.line.pc p = .stands .idle)
      (line : t.line = s.line.takeIf p .cancelWaiters (s.covers tok))
      (locked : t.locked = s.locked)
  | back (p : Fin n) (wake : Wake) (here : s.line.pc p = .woken wake)
      (line : t.line = s.line.set p
        (.stands (if wake = ⟨true, .cancelled⟩ then .idle else .holding)))
      (locked : t.locked = s.locked)

variable {s t : State n} {a : Label n} {p : Fin n}

theorem section_move {place : Place} (here : s.line.pc p = .stands place) (out : place.owns = 0)
    (node : Node) : Move s (s.section p node) := by
  unfold State.section
  split
  · rename_i taken
    exact .join p place node here out rfl taken taken
  · rename_i free
    exact .acquire p place .holding here rfl (Bool.eq_false_iff.mpr free) rfl out rfl

theorem tryLock_move {place got failed : Place} (here : s.line.pc p = .stands place)
    (out : place.owns = 0) (wins : got.owns = 1) (loses : failed.owns = 0) :
    Move s (s.tryLock p got failed) := by
  unfold State.tryLock
  split
  · refine .go p place failed here rfl rfl (loses.trans out.symm) ?_
    rintro rfl
    cases out
  · rename_i free
    exact .acquire p place got here rfl (Bool.eq_false_iff.mpr free) rfl out wins

theorem placeStep_move {place : Place} (here : s.line.pc p = .stands place)
    (stepped : placeStep s p place = some t) : Move s t := by
  cases place with
  | idle | checked | holding | bareBlocked | unlockTest | unlockSkip | unlockGrant | unlockNotify
  | cancelWaiters => cases stepped
  | spin =>
    cases stepped
    exact tryLock_move here rfl rfl rfl
  | spinTest =>
    cases stepped
    exact .go p .spinTest _ here rfl rfl (by split <;> rfl) (by decide)
  | bareTry =>
    cases stepped
    exact tryLock_move here rfl rfl rfl
  | bareCount | bareFailed | bareGot | bareLeave =>
    cases stepped
    exact .go p _ _ here rfl rfl rfl (by decide)
  | bareLock | bareNotified | unlockMtx =>
    simp only [placeStep] at stepped
    split at stepped
    · cases stepped
      exact .go p _ _ here rfl rfl rfl (by decide)
    · cases stepped
  | unlockPop =>
    simp only [placeStep] at stepped
    cases first : s.line.queue with
    | nil =>
      rw [first] at stepped
      cases stepped
      exact .release p here first rfl rfl
    | cons w rest =>
      rw [first] at stepped
      cases stepped
      exact .pop p w rest here first rfl rfl
  | unlockBare =>
    cases stepped
    exact .go p .unlockBare _ here rfl rfl (by split <;> rfl) (by decide)

theorem advance_move (stepped : advance s p = some t) : Move s t := by
  unfold advance at stepped
  cases here : s.line.pc p with
  | stands place =>
    rw [here] at stepped
    exact placeStep_move here stepped
  | asleep node =>
    rw [here] at stepped
    cases stepped
  | woken wake =>
    rw [here] at stepped
    cases stepped
    exact .back p wake here rfl rfl
  | holds place w =>
    rw [here] at stepped
    cases place with
    | unlockTest =>
      cases stepped
      exact .test p w here rfl rfl
    | unlockSkip =>
      cases stepped
      exact .wake p w _ _ (.skipped here) rfl rfl (by simp [here])
    | unlockGrant =>
      cases stepped
      exact .wake p w _ _ (.granted here) rfl rfl (by simp [here])
    | _ => cases stepped
  | walks place chain =>
    rw [here] at stepped
    cases place with
    | cancelWaiters =>
      cases chain with
      | nil =>
        cases stepped
        exact .finish p here rfl rfl
      | cons w rest =>
        cases stepped
        exact .wake p w _ _ (.victim here) rfl rfl (by simp [here])
    | _ => cases chain <;> cases stepped

theorem step_move (stepped : step s a = some t) : Move s t := by
  cases a with
  | tasks tasks =>
    cases stepped
    exact .tasks rfl rfl
  | advance p => exact advance_move stepped
  | notify p w =>
    simp only [step] at stepped
    split at stepped
    · rename_i here
      cases w with
      | none =>
        simp only at stepped
        split at stepped
        · cases stepped
          exact .go p _ _ here rfl rfl rfl (by decide)
        · cases stepped
      | some w =>
        simp only at stepped
        split at stepped
        · rename_i there
          cases stepped
          exact .notify p w here there rfl rfl
        · cases stepped
    · cases stepped
  | lock p | enqueue p =>
    simp only [step] at stepped
    split at stepped
    · rename_i here
      cases stepped
      exact section_move here rfl _
    · cases stepped
  | lockCancellable p =>
    simp only [step] at stepped
    split at stepped
    · rename_i here
      cases stepped
      exact .go p .idle _ here rfl rfl (by split <;> rfl) (by decide)
    · cases stepped
  | tryLock p | lockBare p =>
    simp only [step] at stepped
    split at stepped
    · rename_i here
      cases stepped
      exact tryLock_move here rfl rfl rfl
    · cases stepped
  | spin p | unlock p | spurious p =>
    simp only [step] at stepped
    split at stepped
    · rename_i here
      cases stepped
      exact .go p _ _ here rfl rfl rfl (by decide)
    · cases stepped
  | cancelWaiters p tok =>
    simp only [step] at stepped
    split at stepped
    · rename_i here
      cases stepped
      exact .take p tok here rfl rfl
    · cases stepped

/-- For the queue and its parties it is one of the moves that the primitives share. -/
theorem Move.shared (move : Move s t) : Wait.Move desk s.tasks s.line t.line := by
  have stand (place : Place) : Free (.stands place : Pc n) := ⟨rfl, rfl⟩
  cases move with
  | tasks line => exact .same line
  | go p place place' here line | acquire p place place' here line =>
    rw [line]
    exact .go (free_stands here) (stand _)
  | release p here none line =>
    rw [line]
    exact .go (free_stands here) (stand _)
  | finish p here line =>
    rw [line]
    exact .go (by rw [here]; exact ⟨rfl, rfl⟩) (stand _)
  | back p wake here line =>
    rw [line]
    exact .go (by rw [here]; exact ⟨rfl, rfl⟩) (stand _)
  | notify p w here there line =>
    refine .calm (by rw [line]; rfl) (by rw [line]; rfl) (by rw [line]; rfl) (by rw [line]; rfl)
      (by rw [line]; rfl) fun q => ?_
    rw [line]
    simp only [Line.set]
    rcases eq_or_ne q p with rfl | other
    · rw [Function.update_self]
      exact .inr ⟨free_stands here, stand _⟩
    · rw [Function.update_of_ne other]
      rcases eq_or_ne q w with rfl | other'
      · rw [Function.update_self]
        exact .inr ⟨free_stands there, stand _⟩
      · exact .inl (Function.update_of_ne other' _ _)
  | join p place node here _ line => exact .join p node (free_stands here) line
  | pop p w rest here first line => exact .pop p w rest (free_stands here) first line
  | test p w here line => exact .test p w here line
  | wake p w result pc waking line => exact .wake p w result pc waking line
  | take p tok here line => exact .sweep p tok (free_stands here) line

end JLibSched.Mutex
