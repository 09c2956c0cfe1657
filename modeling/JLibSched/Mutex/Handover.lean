import JLibSched.Mutex.Bare

/-!
# The mutex as its users see it

`MutexOk` is what holds between steps, and `Handed` and `Given` are what a step does: an `Unlock`
takes the oldest waiter off, passes over those that were cancelled, and gives the lock to the first
that was not, or frees it when nobody is left.
-/

namespace JLibSched.Mutex

open Transition WaitQueue Cancel Wait

variable {n : Nat} {s t : State n} {a : Label n} {p q u w : Fin n}

/-- An `Unlock` is in progress. -/
def Unlocking : Pc n → Prop
  | .holds _ _ => True
  | .stands place =>
    place = .unlockPop ∨ place = .unlockBare ∨ place = .unlockMtx ∨ place = .unlockNotify
  | _ => False

/-- An `Unlock` that still has the lock. -/
def Gives : Pc n → Prop
  | .holds _ _ => True
  | .stands place => place = .unlockPop
  | _ => False

structure MutexOk (s : State n) : Prop where
  /-- At most one party has the lock, its `Unlock` included until that has given it away. -/
  exclusive : ∀ p q, owns (s.line.pc p) = 1 → owns (s.line.pc q) = 1 → p = q
  owned : s.locked = true ↔ ∃ p, owns (s.line.pc p) = 1
  free : s.locked = false → s.line.queue = []
  /-- Each waiter is in the queue or with one party that took it off, and each wait is ended by one
  wake. -/
  waiters : s.line.Sound
  blocked : s.locked = false → (∀ u, ¬ Unlocking (s.line.pc u)) →
    (∃ p, s.line.pc p = .stands .bareBlocked) →
      ∃ p, s.line.pc p = .stands .bareNotified ∨ s.line.pc p = .stands .bareTry

/-- What an `Unlock` does in a step. -/
structure Given (s t : State n) : Prop where
  /-- It goes on until it has given the lock to a waiter or freed it. -/
  gives : ∀ u, Gives (s.line.pc u) → Gives (t.line.pc u) ∨ t.locked = false ∨
    ∃ w node, s.line.pc w = .asleep node ∧ t.line.pc w = .woken ⟨node.cancellable, .ok⟩
  /-- It frees the mutex when nobody waits. -/
  released : s.locked = true → t.locked = false →
    ∃ u, s.line.pc u = .stands .unlockPop ∧ s.line.queue = [] ∧ t.line.pc u = .stands .unlockBare

theorem Inv.exclusive (inv : Inv s) (mine : owns (s.line.pc p) = 1) (yours : owns (s.line.pc q) = 1) :
    p = q := by
  by_contra apart
  have both : owns (s.line.pc p) + owns (s.line.pc q) ≤ s.line.total owns :=
    Finset.add_le_sum (f := fun j => owns (s.line.pc j)) (fun _ _ => Nat.zero_le _)
      (Finset.mem_univ p) (Finset.mem_univ q) apart
  have owned := inv.owned
  split at owned <;> omega

theorem Place.owns_le (place : Place) : place.owns ≤ 1 := by
  cases place <;> decide

theorem owns_le (pc : Pc n) : owns pc ≤ 1 := by
  cases pc with
  | stands place => exact place.owns_le
  | asleep | walks => exact Nat.zero_le 1
  | holds => exact Nat.le_refl 1
  | woken wake =>
    change (if wake = ⟨true, .cancelled⟩ then 0 else 1) ≤ 1
    split <;> omega

theorem Inv.owned_iff (inv : Inv s) : s.locked = true ↔ ∃ p, owns (s.line.pc p) = 1 := by
  have owned := inv.owned
  constructor
  · intro locked
    rw [locked, if_pos rfl] at owned
    by_contra nobody
    have zero : s.line.total owns = 0 := by
      refine Finset.sum_eq_zero fun p _ => ?_
      have most := owns_le (s.line.pc p)
      have not : owns (s.line.pc p) ≠ 1 := fun here => nobody ⟨p, here⟩
      omega
    omega
  · rintro ⟨p, here⟩
    have bound := Line.le_total owns s.line p
    by_contra free
    rw [if_neg free] at owned
    omega

theorem BareInv.blocked (inv : BareInv s) (free : s.locked = false)
    (calm : ∀ u, ¬ Unlocking (s.line.pc u)) (blocked : s.line.pc p = .stands .bareBlocked) :
    ∃ p, s.line.pc p = .stands .bareNotified ∨ s.line.pc p = .stands .bareTry := by
  have waits : (s.role p).waits = true := by
    rw [role_eq blocked]
    rfl
  have stands {u : Fin n} (some : s.role u ≠ .none) : ∃ place, s.line.pc u = .stands place := by
    cases here : s.line.pc u with
    | stands place => exact ⟨place, rfl⟩
    | _ => exact absurd (role_eq here) some
  rcases inv.watched free ⟨p, waits⟩ with ⟨u, alert⟩ | ⟨⟨u, noting⟩, -⟩
  · obtain ⟨place, here⟩ := stands (u := u) (fun none => by rw [none] at alert; cases alert)
    have quiet := calm u
    rw [role_eq here] at alert
    rw [here] at quiet
    cases place with
    | bareNotified => exact ⟨u, .inl here⟩
    | bareTry => exact ⟨u, .inr here⟩
    | unlockBare => exact absurd (.inr (.inl rfl)) quiet
    | unlockMtx => exact absurd (.inr (.inr (.inl rfl))) quiet
    | _ => cases alert
  · obtain ⟨place, here⟩ := stands (u := u) (fun none => by rw [none] at noting; cases noting)
    have quiet := calm u
    rw [role_eq here] at noting
    rw [here] at quiet
    cases place with
    | unlockNotify => exact absurd (.inr (.inr (.inr rfl))) quiet
    | _ => cases noting

/-! ## Every step -/

/-- What a party that is no `Unlock` does gives nothing away. -/
theorem Given.keep (others : ∀ u, Gives (s.line.pc u) → t.line.pc u = s.line.pc u)
    (locked : s.locked = true → t.locked = true) : Given s t where
  gives u here := .inl (by rw [others u here]; exact here)
  released taken free := by
    rw [locked taken] at free
    cases free

/-- The same for one party that moves. -/
theorem Given.turn (pc : Pc n) (moved : t.line.pc = Function.update s.line.pc p pc)
    (keeps : ¬ Gives (s.line.pc p)) (locked : s.locked = true → t.locked = true) :
    Given s t := by
  refine .keep (fun u here => ?_) locked
  have other : u ≠ p := by
    rintro rfl
    exact keeps here
  rw [moved, Function.update_of_ne other]

theorem Move.given (move : Move s t) (inv : Inv s) : Given s t := by
  cases move with
  | tasks line locked => exact .keep (fun u _ => by rw [line]) (locked.trans ·)
  | go p place place' here line locked owns other =>
    exact .turn (p := p) _ (by rw [line]; rfl) (by rw [here]; exact other) (locked.trans ·)
  | notify p w here there line locked =>
    refine .keep (fun u gives => ?_) (locked.trans ·)
    have notP : u ≠ p := by
      rintro rfl
      rw [here] at gives
      cases gives
    have notW : u ≠ w := by
      rintro rfl
      rw [there] at gives
      cases gives
    rw [line]
    simp only [Line.set]
    rw [Function.update_of_ne notP, Function.update_of_ne notW]
  | acquire p place place' here line free locked before
  | join p place node here before line taken locked =>
    refine .turn (p := p) _ (by rw [line]; rfl) ?_ (fun _ => locked)
    rw [here]
    rintro rfl
    cases before
  | release p here none line locked =>
    constructor
    case gives => exact fun _ _ => .inr (.inl locked)
    case released =>
      exact fun _ _ => ⟨p, here, none, by rw [line]; exact Function.update_self _ _ _⟩
  | pop p w rest here first line locked =>
    constructor
    case gives =>
      intro u gives
      rw [line]
      simp only [Line.pop, Line.set]
      rcases eq_or_ne u p with rfl | other
      · rw [Function.update_self]
        exact .inl trivial
      · rw [Function.update_of_ne other]
        exact .inl gives
    case released =>
      intro taken free
      rw [locked, taken] at free
      cases free
  | test p w here line locked =>
    constructor
    case gives =>
      intro u gives
      rw [line]
      simp only [Line.set]
      rcases eq_or_ne u p with rfl | other
      · rw [Function.update_self]
        exact .inl trivial
      · rw [Function.update_of_ne other]
        exact .inl gives
    case released =>
      intro taken free
      rw [locked, taken] at free
      cases free
  | wake p w result pc waking line locked kind =>
    obtain ⟨node, asleep⟩ := waking.asleep inv.kept.sound
    obtain ⟨atP, atW, others⟩ := waking.parties inv.kept asleep
    rw [← line] at atP atW others
    constructor
    case gives =>
      intro u gives
      rcases eq_or_ne u p with rfl | notP
      · cases waking with
        | skipped here =>
          rw [atP]
          exact .inl rfl
        | granted here => exact .inr (.inr ⟨w, node, asleep, atW⟩)
        | victim here =>
          rw [here] at gives
          exact gives.elim
        | everyone other here =>
          rw [here] at gives
          exact gives.elim
      · have notW : u ≠ w := by
          rintro rfl
          rw [asleep] at gives
          exact gives.elim
        rw [others u notP notW]
        exact .inl gives
    case released =>
      intro taken free
      rw [locked, taken] at free
      cases free
  | finish p here line locked | back p wake here line locked =>
    exact .turn (p := p) _ (by rw [line]; rfl) (by rw [here]; exact id) (locked.trans ·)
  | take p tok here line locked =>
    exact .turn (p := p) _ (by rw [line]; rfl) (by rw [here]; rintro ⟨⟩) (locked.trans ·)

/-! ## Every run -/

/-- The mutex serves its users in every run. -/
theorem mutex_serves {tasks : Tasks n} (reach : Reach step anyStep (initial tasks) s) :
    MutexOk s ∧ ∀ a t, step s a = some t → Handed desk s.tasks s.line t.line ∧ Given s t := by
  have inv := inv_of_reach reach
  have bare := bare_of_reach reach
  constructor
  · exact {
      exclusive := fun p q => inv.exclusive
      owned := inv.owned_iff
      free := inv.free
      waiters := inv.kept.sound
      blocked := fun free calm ⟨p, here⟩ => bare.blocked free calm here }
  · intro a t stepped
    have move := step_move stepped
    exact ⟨move.shared.handed inv.kept, move.given inv⟩

/-- Party 1 waits and is cancelled, party 2 waits after it, and party 0 unlocks. -/
def passedOnLabels : List (Label 3) :=
  [.lock 0, .lockCancellable 1, .enqueue 1, .lock 2,
    .tasks { noScopes 3 with direct := fun p => p = 1 },
    .unlock 0, .advance 0, .advance 0, .advance 0, .advance 0, .advance 0, .advance 0]

def passedOn : State 3 :=
  (run step anyStep (initial (noScopes 3)) passedOnLabels).getD (initial (noScopes 3))

theorem passedOn_serves : passedOn.line.pc 1 = .woken ⟨true, .cancelled⟩ ∧
    passedOn.line.pc 2 = .woken ⟨false, .ok⟩ ∧ MutexOk passedOn ∧
      ∀ a t, step passedOn a = some t →
        Handed desk passedOn.tasks passedOn.line t.line ∧ Given passedOn t :=
  ⟨by decide +kernel, by decide +kernel,
    mutex_serves (Reach.of_isSome passedOnLabels (by decide +kernel))⟩

end JLibSched.Mutex
