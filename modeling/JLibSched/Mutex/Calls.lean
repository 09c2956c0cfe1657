import JLibSched.Mutex.Exclusion

/-!
# What a call of the mutex leaves its party with

A `Lock` that cannot be cancelled ends with the mutex, and an `Unlock` ends without it.  What other
parties do in between brings neither call off its way (`Keeps`).
-/

namespace JLibSched.Mutex

open Transition WaitQueue Cancel Wait

variable {n : Nat}

/-- The party whose call a step begins. -/
def Label.starts : Label n → Option (Fin n)
  | .lock p | .lockCancellable p | .tryLock p | .lockBare p | .unlock p | .cancelWaiters p _ =>
    some p
  | .enqueue _ | .spin _ | .advance _ | .notify _ _ | .spurious _ | .tasks _ => none

def Label.setsTasks : Label n → Bool
  | .tasks _ => true
  | _ => false

/-- No call of the party is in progress. -/
def AtRest (pc : Pc n) : Prop := pc = .stands .idle ∨ pc = .stands .holding

instance (pc : Pc n) : Decidable (AtRest pc) :=
  inferInstanceAs (Decidable (pc = .stands .idle ∨ pc = .stands .holding))

def Place.inLock : Place → Bool
  | .holding | .bareCount | .bareLock | .bareTry | .bareFailed | .bareBlocked | .bareNotified
  | .bareGot | .bareLeave => true
  | _ => false

def Place.inUnlock : Place → Bool
  | .idle | .unlockPop | .unlockBare | .unlockMtx | .unlockNotify => true
  | _ => false

/-- In a `Lock` that cannot be cancelled, or done with it. -/
def InLock : Pc n → Prop
  | .stands place => place.inLock = true
  | .asleep node => node.cancellable = false
  | .woken wake => wake.cancellable = false
  | .holds _ _ | .walks _ _ => False

/-- In an `Unlock`, or done with it. -/
def InUnlock : Pc n → Prop
  | .stands place => place.inUnlock = true
  | .holds _ _ => True
  | .asleep _ | .woken _ | .walks _ _ => False

theorem InLock.holding {pc : Pc n} (inLock : InLock pc) (rest : AtRest pc) :
    pc = .stands .holding := by
  rcases rest with rfl | rfl
  · cases inLock
  · rfl

theorem InUnlock.idle {pc : Pc n} (inUnlock : InUnlock pc) (rest : AtRest pc) :
    pc = .stands .idle := by
  rcases rest with rfl | rfl
  · rfl
  · cases inUnlock

/-- What a step that begins no call of a party does to it. -/
structure Keeps (pc pc' : Pc n) : Prop where
  lock : InLock pc → InLock pc'
  unlock : InUnlock pc → InUnlock pc'
  rest : AtRest pc → pc' = pc

theorem Keeps.same {pc pc' : Pc n} (same : pc' = pc) : Keeps pc pc' := by
  subst same
  exact ⟨id, id, fun _ => rfl⟩

theorem Keeps.trans {pc pc' pc'' : Pc n} (first : Keeps pc pc') (second : Keeps pc' pc'') :
    Keeps pc pc'' where
  lock inLock := second.lock (first.lock inLock)
  unlock inUnlock := second.unlock (first.unlock inUnlock)
  rest rest := by
    have same := first.rest rest
    rw [second.rest (same ▸ rest), same]

/-- It stands at a place. -/
def standing : Pc n → Bool
  | .stands _ => true
  | _ => false

theorem AtRest.standing {pc : Pc n} (rest : AtRest pc) : standing pc = true := by
  rcases rest with rfl | rfl
  · rfl
  · rfl

/-- A party that does not stand is not at rest. -/
theorem Keeps.busy {pc pc' : Pc n} (busy : standing pc = false) (lock : InLock pc → InLock pc')
    (unlock : InUnlock pc → InUnlock pc') : Keeps pc pc' where
  lock := lock
  unlock := unlock
  rest rest := by
    rw [rest.standing] at busy
    cases busy

/-- A place that is neither in a `Lock` that cannot be cancelled nor in an `Unlock`. -/
theorem Keeps.leave {place : Place} {pc' : Pc n} (lock : place.inLock = false)
    (unlock : place.inUnlock = false) (busy : place ≠ .idle ∧ place ≠ .holding) :
    Keeps (.stands place) pc' where
  lock inLock := by
    rw [show place.inLock = true from inLock] at lock
    cases lock
  unlock inUnlock := by
    rw [show place.inUnlock = true from inUnlock] at unlock
    cases unlock
  rest rest := by
    rcases rest with absurd | absurd
    · exact (busy.1 (Pc.stands.inj absurd)).elim
    · exact (busy.2 (Pc.stands.inj absurd)).elim

/-- A party in a call goes from one place to another. -/
theorem Keeps.places {place place' : Place} (lock : place.inLock = true → place'.inLock = true)
    (unlock : place.inUnlock = true → place'.inUnlock = true) (idle : place ≠ .idle)
    (holding : place ≠ .holding) : Keeps (.stands place : Pc n) (.stands place') where
  lock := lock
  unlock := unlock
  rest rest := by
    rcases rest with absurd | absurd
    · exact (idle (Pc.stands.inj absurd)).elim
    · exact (holding (Pc.stands.inj absurd)).elim

variable {s t : State n} {a : Label n} {p u w : Fin n}

/-- One party moves. -/
theorem keeps_of_update (pc : Pc n) (moved : t.line.pc = Function.update s.line.pc u pc)
    (keeps : Keeps (s.line.pc u) pc) (p : Fin n) : Keeps (s.line.pc p) (t.line.pc p) := by
  rw [moved]
  rcases eq_or_ne p u with rfl | other
  · rw [Function.update_self]
    exact keeps
  · rw [Function.update_of_ne other]
    exact .same rfl

/-- Another party begins a call. -/
theorem keeps_of_ne (pc : Pc n) (moved : t.line.pc = Function.update s.line.pc u pc)
    (other : p ≠ u) : Keeps (s.line.pc p) (t.line.pc p) := by
  rw [moved, Function.update_of_ne other]
  exact .same rfl

theorem tryLock_keeps {place got failed : Place} (here : s.line.pc u = .stands place)
    (won : Keeps (.stands place : Pc n) (.stands got))
    (lost : Keeps (.stands place : Pc n) (.stands failed)) (p : Fin n) :
    Keeps (s.line.pc p) ((s.tryLock u got failed).line.pc p) := by
  unfold State.tryLock
  split
  · exact keeps_of_update _ rfl (by rw [here]; exact lost) p
  · exact keeps_of_update _ rfl (by rw [here]; exact won) p

theorem placeStep_keeps {place : Place} (here : s.line.pc u = .stands place)
    (stepped : placeStep s u place = some t) (p : Fin n) :
    Keeps (s.line.pc p) (t.line.pc p) := by
  -- from one place of a call to the next
  have next {place' : Place} (keeps : Keeps (.stands place : Pc n) (.stands place'))
      (moved : t.line.pc = Function.update s.line.pc u (.stands place')) :
      Keeps (s.line.pc p) (t.line.pc p) :=
    keeps_of_update _ moved (by rw [here]; exact keeps) p
  cases place with
  | idle | checked | holding | bareBlocked | unlockTest | unlockSkip | unlockGrant | unlockNotify
  | cancelWaiters => cases stepped
  | spin | bareTry =>
    cases stepped
    exact tryLock_keeps here (.places (by decide) (by decide) (by decide) (by decide))
      (.places (by decide) (by decide) (by decide) (by decide)) p
  | spinTest =>
    cases stepped
    exact next (.places (fun absurd => by cases absurd) (fun absurd => by cases absurd) (by decide)
      (by decide)) rfl
  | bareCount | bareFailed | bareGot | bareLeave =>
    cases stepped
    exact next (.places (by decide) (by decide) (by decide) (by decide)) rfl
  | bareLock | bareNotified | unlockMtx =>
    simp only [placeStep] at stepped
    split at stepped
    · cases stepped
      exact next (.places (by decide) (by decide) (by decide) (by decide)) rfl
    · cases stepped
  | unlockPop =>
    simp only [placeStep] at stepped
    split at stepped
    · cases stepped
      exact next (.places (by decide) (by decide) (by decide) (by decide)) rfl
    · rename_i w rest first
      cases stepped
      refine keeps_of_update (.holds .unlockTest w) rfl ?_ p
      rw [here]
      refine ⟨fun absurd => (by cases absurd), fun _ => trivial, fun rest => ?_⟩
      rcases rest with absurd | absurd
      · cases absurd
      · cases absurd
  | unlockBare =>
    cases stepped
    exact next (.places (fun absurd => by cases absurd) (by split <;> exact fun _ => rfl) (by decide)
      (by decide)) rfl

/-- A waker goes on, and its waiter is woken. -/
theorem Waking.keeps (kept : Kept desk s.line) {result : WaitResult} {pc : Pc n}
    (waking : Waking desk s.tasks s.line u w result pc) (keeps : Keeps (s.line.pc u) pc)
    (p : Fin n) : Keeps (s.line.pc p) ((s.wake u w result pc).line.pc p) := by
  obtain ⟨node, asleep⟩ := waking.asleep kept.sound
  obtain ⟨atU, atW, others⟩ := waking.parties kept asleep
  change Keeps (s.line.pc p) ((Wait.wake s.line u w result pc).pc p)
  rcases eq_or_ne p u with rfl | notU
  · rw [atU]
    exact keeps
  · rcases eq_or_ne p w with rfl | notW
    · rw [atW, asleep]
      exact .busy rfl id False.elim
    · rw [others p notU notW]
      exact .same rfl

theorem advance_keeps (kept : Kept desk s.line) (stepped : advance s u = some t) (p : Fin n) :
    Keeps (s.line.pc p) (t.line.pc p) := by
  unfold advance at stepped
  cases here : s.line.pc u with
  | stands place =>
    rw [here] at stepped
    exact placeStep_keeps here stepped p
  | asleep node =>
    rw [here] at stepped
    cases stepped
  | woken wake =>
    rw [here] at stepped
    cases stepped
    refine keeps_of_update (.stands _) rfl ?_ p
    rw [here]
    refine .busy rfl (fun plain => ?_) False.elim
    rw [if_neg]
    · rfl
    · rintro rfl
      cases plain
  | holds place w =>
    rw [here] at stepped
    cases place with
    | unlockTest =>
      cases stepped
      refine keeps_of_update (.holds _ w) rfl ?_ p
      rw [here]
      exact .busy rfl False.elim fun _ => trivial
    | unlockSkip =>
      cases stepped
      refine Waking.keeps kept (.skipped here) ?_ p
      rw [here]
      exact .busy rfl False.elim fun _ => rfl
    | unlockGrant =>
      cases stepped
      refine Waking.keeps kept (.granted here) ?_ p
      rw [here]
      exact .busy rfl False.elim fun _ => rfl
    | _ => cases stepped
  | walks place chain =>
    rw [here] at stepped
    cases place with
    | cancelWaiters =>
      cases chain with
      | nil =>
        cases stepped
        refine keeps_of_update (.stands .idle) rfl ?_ p
        rw [here]
        exact .busy rfl False.elim False.elim
      | cons w rest =>
        cases stepped
        refine Waking.keeps kept (.victim here) ?_ p
        rw [here]
        exact .busy rfl False.elim False.elim
    | _ => cases chain <;> cases stepped

theorem step_keeps (inv : Inv s) (stepped : step s a = some t) (other : a.starts ≠ some p) :
    Keeps (s.line.pc p) (t.line.pc p) := by
  have apart {u : Fin n} (starts : a.starts = some u) : p ≠ u := by
    rintro rfl
    exact other starts
  cases a with
  | tasks tasks =>
    cases stepped
    exact .same rfl
  | advance u => exact advance_keeps inv.kept stepped p
  | notify u w =>
    simp only [step] at stepped
    split at stepped
    · rename_i here
      cases w with
      | none =>
        simp only at stepped
        split at stepped
        · cases stepped
          exact keeps_of_update (.stands .idle) rfl
            (by rw [here]; exact .places (by decide) (by decide) (by decide) (by decide)) p
        · cases stepped
      | some w =>
        simp only at stepped
        split at stepped
        · rename_i there
          cases stepped
          have apart : u ≠ w := by
            rintro rfl
            rw [here] at there
            cases there
          have still : (s.go w .bareNotified).line.pc u = .stands .unlockNotify :=
            (Function.update_of_ne apart _ _).trans here
          have first : Keeps (s.line.pc p) ((s.go w .bareNotified).line.pc p) :=
            keeps_of_update (.stands .bareNotified) rfl
              (by rw [there]; exact .places (by decide) (by decide) (by decide) (by decide)) p
          exact first.trans (keeps_of_update (.stands .idle) rfl
            (by rw [still]; exact .places (by decide) (by decide) (by decide) (by decide)) p)
        · cases stepped
    · cases stepped
  | lock u =>
    simp only [step] at stepped
    split at stepped
    · cases stepped
      unfold State.section
      split
      · exact keeps_of_ne (.asleep _) rfl (apart rfl)
      · exact keeps_of_ne (.stands .holding) rfl (apart rfl)
    · cases stepped
  | enqueue u =>
    simp only [step] at stepped
    split at stepped
    · rename_i here
      cases stepped
      unfold State.section
      split
      · exact keeps_of_update (.asleep _) rfl
          (by rw [here]; exact .leave (by decide) (by decide) (by decide)) p
      · exact keeps_of_update (.stands .holding) rfl
          (by rw [here]; exact .places (by decide) (by decide) (by decide) (by decide)) p
    · cases stepped
  | spin u | spurious u =>
    simp only [step] at stepped
    split at stepped
    · rename_i here
      cases stepped
      exact keeps_of_update (.stands _) rfl
        (by rw [here]; exact .places (by decide) (by decide) (by decide) (by decide)) p
    · cases stepped
  | lockCancellable u | unlock u =>
    simp only [step] at stepped
    split at stepped
    · cases stepped
      exact keeps_of_ne (.stands _) rfl (apart rfl)
    · cases stepped
  | tryLock u | lockBare u =>
    simp only [step] at stepped
    split at stepped
    · cases stepped
      unfold State.tryLock
      split
      · exact keeps_of_ne (.stands _) rfl (apart rfl)
      · exact keeps_of_ne (.stands _) rfl (apart rfl)
    · cases stepped
  | cancelWaiters u tok =>
    simp only [step] at stepped
    split at stepped
    · cases stepped
      exact keeps_of_ne (.walks _ _) rfl (apart rfl)
    · cases stepped

theorem lock_inLock (stepped : step s (.lock p) = some t) : InLock (t.line.pc p) := by
  simp only [step] at stepped
  split at stepped
  · cases stepped
    unfold State.section
    split
    · simp only [Line.join]
      rw [Function.update_self]
      rfl
    · simp only [State.go, Line.set]
      rw [Function.update_self]
      rfl
  · cases stepped

theorem lockBare_inLock (stepped : step s (.lockBare p) = some t) : InLock (t.line.pc p) := by
  simp only [step] at stepped
  split at stepped
  · cases stepped
    unfold State.tryLock
    split
    · simp only [State.go, Line.set]
      rw [Function.update_self]
      rfl
    · simp only [State.go, Line.set]
      rw [Function.update_self]
      rfl
  · cases stepped

theorem unlock_inUnlock (stepped : step s (.unlock p) = some t) : InUnlock (t.line.pc p) := by
  simp only [step] at stepped
  split at stepped
  · cases stepped
    simp only [State.go, Line.set]
    rw [Function.update_self]
    rfl
  · cases stepped

/-! ## Steps that leave the tasks alone -/

theorem section_tasks {node : Node} : (s.section p node).tasks = s.tasks := by
  unfold State.section
  split <;> rfl

theorem tryLock_tasks {got failed : Place} : (s.tryLock p got failed).tasks = s.tasks := by
  unfold State.tryLock
  split <;> rfl

theorem placeStep_tasks {place : Place} (stepped : placeStep s p place = some t) :
    t.tasks = s.tasks := by
  cases place with
  | idle | checked | holding | bareBlocked | unlockTest | unlockSkip | unlockGrant | unlockNotify
  | cancelWaiters => cases stepped
  | spin | bareTry =>
    cases stepped
    exact tryLock_tasks
  | spinTest | bareCount | bareFailed | bareGot | bareLeave | unlockBare =>
    cases stepped
    rfl
  | bareLock | bareNotified | unlockMtx =>
    simp only [placeStep] at stepped
    split at stepped
    · cases stepped
      rfl
    · cases stepped
  | unlockPop =>
    simp only [placeStep] at stepped
    split at stepped
    · cases stepped
      rfl
    · cases stepped
      rfl

theorem advance_tasks (stepped : advance s p = some t) : t.tasks = s.tasks := by
  unfold advance at stepped
  split at stepped
  case h_1 => exact placeStep_tasks stepped
  all_goals cases stepped
  all_goals rfl

/-- Only one label changes the tasks. -/
theorem step_tasks (stepped : step s a = some t) (other : a.setsTasks = false) :
    t.tasks = s.tasks := by
  cases a with
  | tasks tasks => cases other
  | advance p => exact advance_tasks stepped
  | notify p w =>
    simp only [step] at stepped
    split at stepped
    · split at stepped
      all_goals
        split at stepped <;> cases stepped
        rfl
    · cases stepped
  | lock p | enqueue p =>
    simp only [step] at stepped
    split at stepped
    · cases stepped
      exact section_tasks
    · cases stepped
  | tryLock p | lockBare p =>
    simp only [step] at stepped
    split at stepped
    · cases stepped
      exact tryLock_tasks
    · cases stepped
  | lockCancellable p | spin p | unlock p | cancelWaiters p tok | spurious p =>
    simp only [step] at stepped
    split at stepped
    · cases stepped
      rfl
    · cases stepped

end JLibSched.Mutex
