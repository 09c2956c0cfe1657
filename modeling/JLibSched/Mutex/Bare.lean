import JLibSched.Mutex.Exclusion

/-!
# Threads that block on `bareCv`

A thread that has to block counts itself in `bareWaiters` before it looks at `locked` under
`bareMtx`, and an `Unlock` that frees the mutex looks at the counter afterwards and passes
`bareMtx` before it notifies.  So while the mutex is free, a thread that blocks or is about to has
somebody to count on: a thread that will try, or an `Unlock` that will notify.
-/

namespace JLibSched.Mutex

open Transition WaitQueue Cancel Wait

/-- What a party has to do with `bareMtx` and `bareCv`. -/
inductive Role where
  | none
  | queued
  | trying
  | failed
  | blocked
  | notified
  | got
  | leaving
  /-- An `Unlock` that has freed the mutex and has yet to pass `bareMtx`. -/
  | calling
  /-- An `Unlock` that is about to notify. -/
  | noting
deriving DecidableEq, Repr

def Place.role : Place → Role
  | .bareLock => .queued
  | .bareTry => .trying
  | .bareFailed => .failed
  | .bareBlocked => .blocked
  | .bareNotified => .notified
  | .bareGot => .got
  | .bareLeave => .leaving
  | .unlockBare | .unlockMtx => .calling
  | .unlockNotify => .noting
  | _ => .none

def role {n : Nat} : Pc n → Role
  | .stands place => place.role
  | _ => .none

/-- One for a thread that `bareWaiters` counts. -/
def Role.counted : Role → Nat
  | .queued | .trying | .failed | .blocked | .notified | .got | .leaving => 1
  | _ => 0

/-- The same for what a party is doing. -/
def counted {n : Nat} (pc : Pc n) : Nat := (role pc).counted

/-- It holds `bareMtx`. -/
def Role.locks : Role → Bool
  | .trying | .failed | .got => true
  | _ => false

/-- It blocks, or is about to. -/
def Role.waits : Role → Bool
  | .failed | .blocked => true
  | _ => false

/-- It will try, or make another one try. -/
def Role.alert : Role → Bool
  | .trying | .notified | .calling => true
  | _ => false

variable {n : Nat} {s t : State n} {a : Label n} {p q w : Fin n}

def State.role (s : State n) (p : Fin n) : Role := Mutex.role (s.line.pc p)

/-- Somebody will see to the blocked threads. -/
def Watched (s : State n) : Prop :=
  (∃ p, (s.role p).alert = true) ∨ (∃ p, s.role p = .noting) ∧ ∀ p, s.role p ≠ .failed

structure BareInv (s : State n) : Prop where
  counted : s.line.total counted = s.bareWaiters
  mtx : ∀ p, s.bareMtx = some p ↔ (s.role p).locks = true
  watched : s.locked = false → (∃ p, (s.role p).waits = true) → Watched s

theorem initial_bare (tasks : Tasks n) : BareInv (initial tasks) where
  counted := by
    simp [initial, Line.total, Line.empty, Mutex.counted, role, Place.role, Role.counted]
  mtx p := ⟨fun absurd => (by cases absurd), fun absurd => (by cases absurd)⟩
  watched _ waits := by
    obtain ⟨p, absurd⟩ := waits
    cases absurd

/-- Nobody's role changes. -/
theorem BareInv.quiet (inv : BareInv s) (role : ∀ p, t.role p = s.role p)
    (bareWaiters : t.bareWaiters = s.bareWaiters) (bareMtx : t.bareMtx = s.bareMtx)
    (free : t.locked = false → s.locked = false) : BareInv t where
  counted := by
    rw [bareWaiters, ← inv.counted]
    exact Finset.sum_congr rfl fun p _ => congrArg Role.counted (role p)
  mtx p := by
    rw [bareMtx, role]
    exact inv.mtx p
  watched unlocked waits := by
    simp only [role] at waits
    unfold Watched
    simp only [role]
    exact inv.watched (free unlocked) waits

/-- One party's role changes. -/
theorem BareInv.turn (inv : BareInv s) (pc : Pc n)
    (moved : t.line.pc = Function.update s.line.pc p pc)
    (counted : t.bareWaiters + (s.role p).counted = s.bareWaiters + (role pc).counted)
    (mtx : t.bareMtx = s.bareMtx ∧ (role pc).locks = (s.role p).locks ∨
      s.bareMtx = none ∧ t.bareMtx = some p ∧ (role pc).locks = true ∨
      (s.role p).locks = true ∧ t.bareMtx = none ∧ (role pc).locks = false)
    (watched : t.locked = false → (∃ p, (t.role p).waits = true) → Watched t) : BareInv t where
  counted := by
    have turned := Line.total_update Mutex.counted moved
    rw [inv.counted] at turned
    change t.line.total Mutex.counted + (s.role p).counted =
      s.bareWaiters + (Mutex.role pc).counted at turned
    omega
  mtx q := by
    have mine : (t.role p).locks = (role pc).locks := by
      unfold State.role
      rw [moved, Function.update_self]
    have others (q : Fin n) (other : q ≠ p) : t.role q = s.role q := by
      unfold State.role
      rw [moved, Function.update_of_ne other]
    have before := inv.mtx q
    rcases eq_or_ne q p with rfl | other
    · rw [mine]
      rcases mtx with ⟨same, locks⟩ | ⟨-, taken, locks⟩ | ⟨-, dropped, locks⟩
      · rw [same, locks]
        exact before
      · simp [taken, locks]
      · simp [dropped, locks]
    · rw [others q other]
      rcases mtx with ⟨same, -⟩ | ⟨free, taken, -⟩ | ⟨held, dropped, -⟩
      · rw [same]
        exact before
      · rw [free] at before
        rw [taken, ← before]
        simp [other.symm]
      · rw [(inv.mtx p).mpr held] at before
        rw [dropped, ← before]
        simp [other.symm]
  watched := watched

theorem State.role_self {pc : Pc n} (moved : t.line.pc = Function.update s.line.pc p pc) :
    t.role p = Mutex.role pc := by
  unfold State.role
  rw [moved, Function.update_self]

theorem State.role_of_ne {pc : Pc n} (moved : t.line.pc = Function.update s.line.pc p pc)
    (other : q ≠ p) : t.role q = s.role q := by
  unfold State.role
  rw [moved, Function.update_of_ne other]

theorem State.role_go (s : State n) (p : Fin n) (place : Place) :
    (s.go p place).role p = place.role := by
  have moved : (s.go p place).line.pc = Function.update s.line.pc p (.stands place) := rfl
  exact State.role_self moved

theorem State.role_go_of_ne {place : Place} (other : q ≠ p) :
    (s.go p place).role q = s.role q := by
  have moved : (s.go p place).line.pc = Function.update s.line.pc p (.stands place) := rfl
  exact State.role_of_ne moved other

/-- What is left to show when one party's role changes while the mutex is free. -/
theorem BareInv.watch (inv : BareInv s) (pc : Pc n)
    (moved : t.line.pc = Function.update s.line.pc p pc) (free : s.locked = false)
    (calm : (role pc).waits = true → (s.role p).waits = true)
    (alert : (s.role p).alert = true → (role pc).alert = true ∨ (role pc) = .noting ∧
      (∀ q, s.role q ≠ .failed))
    (note : s.role p ≠ .noting) (fails : role pc ≠ .failed)
    (waits : ∃ q, (t.role q).waits = true) : Watched t := by
  have before : ∃ q, (s.role q).waits = true := by
    obtain ⟨q, here⟩ := waits
    rcases eq_or_ne q p with rfl | other
    · rw [State.role_self moved] at here
      exact ⟨q, calm here⟩
    · rw [State.role_of_ne moved other] at here
      exact ⟨q, here⟩
  have noFailed (none : ∀ q, s.role q ≠ .failed) (q : Fin n) : t.role q ≠ .failed := by
    rcases eq_or_ne q p with rfl | other
    · rw [State.role_self moved]
      exact fails
    · rw [State.role_of_ne moved other]
      exact none q
  rcases inv.watched free before with ⟨q, here⟩ | ⟨⟨q, here⟩, none⟩
  · rcases eq_or_ne q p with rfl | other
    · rcases alert here with still | ⟨noting, none⟩
      · exact .inl ⟨q, by rw [State.role_self moved]; exact still⟩
      · exact .inr ⟨⟨q, by rw [State.role_self moved]; exact noting⟩, noFailed none⟩
    · exact .inl ⟨q, by rw [State.role_of_ne moved other]; exact here⟩
  · rcases eq_or_ne q p with rfl | other
    · exact absurd here note
    · exact .inr ⟨⟨q, by rw [State.role_of_ne moved other]; exact here⟩, noFailed none⟩

/-- With `bareWaiters` zero nobody waits. -/
theorem BareInv.nobody (inv : BareInv s) (zero : s.bareWaiters = 0) (p : Fin n) :
    (s.role p).waits = false := by
  have bound := Line.le_total Mutex.counted s.line p
  rw [inv.counted, zero] at bound
  change (s.role p).counted ≤ 0 at bound
  cases here : s.role p <;> rw [here] at bound <;> first | rfl | exact absurd bound (by decide)

/-- While nobody holds `bareMtx`, nobody has failed to get the mutex under it. -/
theorem BareInv.noFailed (inv : BareInv s) (free : s.bareMtx = none) (p : Fin n) :
    s.role p ≠ .failed := by
  intro failed
  have held := (inv.mtx p).mpr (by rw [failed]; rfl)
  rw [free] at held
  cases held

/-! ## Every step -/

/-- A party moves and its role stays. -/
theorem BareInv.still (inv : BareInv s) (pc : Pc n)
    (moved : t.line.pc = Function.update s.line.pc p pc) (role : Mutex.role pc = s.role p)
    (bareWaiters : t.bareWaiters = s.bareWaiters) (bareMtx : t.bareMtx = s.bareMtx)
    (free : t.locked = false → s.locked = false) : BareInv t := by
  refine inv.quiet (fun q => ?_) bareWaiters bareMtx free
  rcases eq_or_ne q p with rfl | other
  · rw [State.role_self moved]
    exact role
  · exact State.role_of_ne moved other

theorem role_eq {pc : Pc n} (here : s.line.pc p = pc) : s.role p = role pc := by
  unfold State.role
  rw [here]

theorem BareInv.section (inv : BareInv s) {place : Place} (here : s.line.pc p = .stands place)
    (none : place.role = .none) (node : Node) : BareInv (s.section p node) := by
  have now := role_eq here
  unfold State.section
  split
  · rename_i taken
    refine inv.still (.asleep node) rfl (now.trans none).symm rfl rfl fun unlocked => ?_
    rw [taken] at unlocked
    cases unlocked
  · exact inv.still (.stands .holding) rfl (now.trans none).symm rfl rfl
      fun absurd => by cases absurd

theorem BareInv.tryLock (inv : BareInv s) {place got failed : Place}
    (here : s.line.pc p = .stands place) (none : place.role = .none) (wins : got.role = .none)
    (loses : failed.role = .none) : BareInv (s.tryLock p got failed) := by
  have now := role_eq here
  unfold State.tryLock
  split
  · exact inv.still (.stands failed) rfl (loses.trans (now.trans none).symm) rfl rfl id
  · exact inv.still (.stands got) rfl (wins.trans (now.trans none).symm) rfl rfl
      fun absurd => by cases absurd

/-- `Try_Lock` under `bareMtx`. -/
theorem BareInv.bareTry (inv : BareInv s) (here : s.line.pc p = .stands .bareTry) :
    BareInv (s.tryLock p .bareGot .bareFailed) := by
  have now : s.role p = .trying := role_eq here
  unfold State.tryLock
  split
  · rename_i taken
    refine inv.turn (.stands .bareFailed) rfl (by rw [now]; rfl) (.inl ⟨rfl, by rw [now]; rfl⟩)
      fun unlocked => ?_
    rw [show (s.go p .bareFailed).locked = s.locked from rfl, taken] at unlocked
    cases unlocked
  · exact inv.turn (.stands .bareGot) rfl (by rw [now]; rfl) (.inl ⟨rfl, by rw [now]; rfl⟩)
      fun absurd => by cases absurd

theorem BareInv.placeStep (inv : BareInv s) {place : Place} (here : s.line.pc p = .stands place)
    (stepped : placeStep s p place = some t) : BareInv t := by
  have now := role_eq here
  cases place with
  | idle | checked | holding | bareBlocked | unlockTest | unlockSkip | unlockGrant | unlockNotify
  | cancelWaiters => cases stepped
  | spin =>
    cases stepped
    exact inv.tryLock here rfl rfl rfl
  | spinTest =>
    cases stepped
    refine inv.still (.stands _) rfl (Eq.trans ?_ now.symm) rfl rfl id
    split <;> rfl
  | bareTry =>
    cases stepped
    exact inv.bareTry here
  | bareCount =>
    cases stepped
    refine inv.turn (.stands .bareLock) rfl (by rw [now]; rfl) (.inl ⟨rfl, by rw [now]; rfl⟩)
      fun free => inv.watch (.stands .bareLock) rfl free ?_ ?_ ?_ ?_
    all_goals simp [now, role, Place.role, Role.waits, Role.alert]
  | bareLock | bareNotified =>
    simp only [Mutex.placeStep] at stepped
    split at stepped
    · rename_i mtx
      cases stepped
      refine inv.turn (.stands .bareTry) rfl (by rw [now]; rfl) (.inr (.inl ⟨mtx, rfl, rfl⟩))
        fun free => inv.watch (.stands .bareTry) rfl free ?_ ?_ ?_ ?_
      all_goals simp [now, role, Place.role, Role.waits, Role.alert]
    · cases stepped
  | bareFailed =>
    cases stepped
    refine inv.turn (.stands .bareBlocked) rfl (by rw [now]; rfl)
      (.inr (.inr ⟨by rw [now]; rfl, rfl, rfl⟩))
      fun free => inv.watch (.stands .bareBlocked) rfl free ?_ ?_ ?_ ?_
    all_goals simp [now, role, Place.role, Role.waits, Role.alert]
  | bareGot =>
    cases stepped
    refine inv.turn (.stands .bareLeave) rfl (by rw [now]; rfl)
      (.inr (.inr ⟨by rw [now]; rfl, rfl, rfl⟩))
      fun free => inv.watch (.stands .bareLeave) rfl free ?_ ?_ ?_ ?_
    all_goals simp [now, role, Place.role, Role.waits, Role.alert]
  | bareLeave =>
    cases stepped
    have counts := Line.le_total Mutex.counted s.line p
    rw [inv.counted] at counts
    change (s.role p).counted ≤ s.bareWaiters at counts
    refine inv.turn (.stands .holding) rfl ?_ (.inl ⟨rfl, by rw [now]; rfl⟩)
      fun free => inv.watch (.stands .holding) rfl free ?_ ?_ ?_ ?_
    · rw [now] at counts ⊢
      simp only [role, Place.role, Role.counted] at counts ⊢
      omega
    all_goals simp [now, role, Place.role, Role.waits, Role.alert]
  | unlockPop =>
    simp only [Mutex.placeStep] at stepped
    cases first : s.line.queue with
    | nil =>
      rw [first] at stepped
      cases stepped
      refine inv.turn (.stands .unlockBare) rfl (by rw [now]; rfl)
        (.inl ⟨rfl, by rw [now]; rfl⟩) fun _ _ => .inl ⟨p, ?_⟩
      exact congrArg Role.alert (State.role_go s p .unlockBare)
    | cons w rest =>
      rw [first] at stepped
      cases stepped
      exact inv.still (.holds .unlockTest w) rfl now.symm rfl rfl id
  | unlockBare =>
    cases stepped
    by_cases some : s.bareWaiters ≠ 0
    · rw [if_pos some]
      exact inv.still (.stands .unlockMtx) rfl now.symm rfl rfl id
    · rw [if_neg some]
      have nobody := inv.nobody (not_not.mp some)
      refine inv.turn (.stands .idle) rfl (by rw [now]; rfl) (.inl ⟨rfl, by rw [now]; rfl⟩)
        fun free waits => ?_
      obtain ⟨q, here⟩ := waits
      rcases eq_or_ne q p with rfl | other
      · rw [State.role_go] at here
        cases here
      · rw [State.role_go_of_ne other, nobody q] at here
        cases here
  | unlockMtx =>
    simp only [Mutex.placeStep] at stepped
    split at stepped
    · rename_i mtx
      cases stepped
      refine inv.turn (.stands .unlockNotify) rfl (by rw [now]; rfl)
        (.inl ⟨rfl, by rw [now]; rfl⟩)
        fun free => inv.watch (.stands .unlockNotify) rfl free ?_
          (fun _ => .inr ⟨rfl, inv.noFailed mtx⟩) ?_ ?_
      all_goals simp [now, role, Place.role, Role.waits]
    · cases stepped

theorem BareInv.wake (inv : BareInv s) {result : WaitResult} {pc : Pc n}
    (asleep : s.role w = .none) (here : s.role p = .none) (rests : role pc = .none) :
    BareInv (s.wake p w result pc) := by
  refine inv.quiet (fun q => ?_) rfl rfl id
  unfold State.role State.wake Wait.wake
  simp only [Line.wake, Line.set]
  rcases eq_or_ne q p with rfl | other
  · rw [Function.update_self]
    exact rests.trans here.symm
  · rw [Function.update_of_ne other]
    rcases eq_or_ne q w with rfl | other'
    · rw [Function.update_self]
      exact asleep.symm
    · rw [Function.update_of_ne other']

theorem BareInv.advance (inv : BareInv s) (known : Inv s) (stepped : advance s p = some t) :
    BareInv t := by
  have sleeper {w : Fin n} (mem : w ∈ (s.line.pc p).hand) : s.role w = .none := by
    obtain ⟨node, asleep⟩ := Pc.asleep_of_sleeps (known.kept.sound.carried mem)
    exact role_eq asleep
  unfold Mutex.advance at stepped
  cases here : s.line.pc p with
  | stands place =>
    rw [here] at stepped
    exact inv.placeStep here stepped
  | asleep node =>
    rw [here] at stepped
    cases stepped
  | woken wake =>
    rw [here] at stepped
    cases stepped
    refine inv.still (.stands _) rfl (Eq.trans ?_ (role_eq here).symm) rfl rfl id
    split <;> rfl
  | holds place w =>
    rw [here] at stepped
    cases place with
    | unlockTest =>
      cases stepped
      exact inv.still (.holds _ w) rfl (role_eq here).symm rfl rfl id
    | unlockSkip | unlockGrant =>
      cases stepped
      exact inv.wake (sleeper (by rw [here]; exact List.mem_cons_self)) (role_eq here) rfl
    | _ => cases stepped
  | walks place chain =>
    rw [here] at stepped
    cases place with
    | cancelWaiters =>
      cases chain with
      | nil =>
        cases stepped
        exact inv.still (.stands .idle) rfl (role_eq here).symm rfl rfl id
      | cons w rest =>
        cases stepped
        exact inv.wake (sleeper (by rw [here]; exact List.mem_cons_self)) (role_eq here) rfl
    | _ => cases chain <;> cases stepped

theorem BareInv.notify (inv : BareInv s) (here : s.line.pc p = .stands .unlockNotify)
    (there : s.line.pc w = .stands .bareBlocked) :
    BareInv ((s.go w .bareNotified).go p .idle) := by
  have apart : p ≠ w := by
    rintro rfl
    rw [here] at there
    cases there
  have nowP : s.role p = .noting := role_eq here
  have nowW : s.role w = .blocked := role_eq there
  have first : BareInv (s.go w .bareNotified) := by
    refine inv.turn (.stands .bareNotified) rfl (by rw [nowW]; rfl) (.inl ⟨rfl, by rw [nowW]; rfl⟩)
      fun free => inv.watch (.stands .bareNotified) rfl free ?_ ?_ ?_ ?_
    all_goals simp [nowW, role, Place.role, Role.waits, Role.alert]
  have still : (s.go w .bareNotified).role p = .noting :=
    (State.role_go_of_ne apart).trans nowP
  refine first.turn (.stands .idle) rfl (by rw [still]; rfl) (.inl ⟨rfl, by rw [still]; rfl⟩)
    fun _ _ => .inl ⟨w, ?_⟩
  rw [State.role_go_of_ne apart.symm, State.role_go]
  rfl

/-- With nobody to notify, nobody counted on it. -/
theorem BareInv.notifyNone (inv : BareInv s) (here : s.line.pc p = .stands .unlockNotify)
    (none : ∀ w, s.line.pc w ≠ .stands .bareBlocked) : BareInv (s.go p .idle) := by
  have now : s.role p = .noting := role_eq here
  have idle : (s.go p .idle).role p = .none := State.role_go s p .idle
  have others {q : Fin n} (other : q ≠ p) : (s.go p .idle).role q = s.role q :=
    State.role_go_of_ne other
  refine inv.turn (.stands .idle) rfl (by rw [now]; rfl) (.inl ⟨rfl, by rw [now]; rfl⟩)
    fun free waits => ?_
  have before : ∃ q, (s.role q).waits = true := by
    obtain ⟨q, there⟩ := waits
    rcases eq_or_ne q p with rfl | other
    · rw [idle] at there
      cases there
    · rw [others other] at there
      exact ⟨q, there⟩
  rcases inv.watched free before with ⟨q, alert⟩ | ⟨-, noFailed⟩
  · have other : q ≠ p := by
      rintro rfl
      rw [now] at alert
      cases alert
    exact .inl ⟨q, by rw [others other]; exact alert⟩
  · obtain ⟨q, waits⟩ := before
    cases role : s.role q with
    | failed => exact absurd role (noFailed q)
    | blocked =>
      cases there : s.line.pc q with
      | stands place =>
        have known : place.role = .blocked := (role_eq there).symm.trans role
        cases place with
        | bareBlocked => exact absurd there (none q)
        | _ => cases known
      | _ =>
        rw [role_eq there] at role
        cases role
    | _ =>
      rw [role] at waits
      cases waits

theorem BareInv.step (inv : BareInv s) (known : Inv s) (stepped : step s a = some t) :
    BareInv t := by
  cases a with
  | tasks tasks =>
    cases stepped
    exact inv.quiet (fun _ => rfl) rfl rfl id
  | advance p => exact inv.advance known stepped
  | notify p w =>
    simp only [Mutex.step] at stepped
    split at stepped
    · rename_i here
      cases w with
      | none =>
        simp only at stepped
        split at stepped
        · rename_i none
          cases stepped
          exact inv.notifyNone here none
        · cases stepped
      | some w =>
        simp only at stepped
        split at stepped
        · rename_i there
          cases stepped
          exact inv.notify here there
        · cases stepped
    · cases stepped
  | lock p | enqueue p =>
    simp only [Mutex.step] at stepped
    split at stepped
    · rename_i here
      cases stepped
      exact inv.section here rfl _
    · cases stepped
  | lockCancellable p =>
    simp only [Mutex.step] at stepped
    split at stepped
    · rename_i here
      cases stepped
      refine inv.still (.stands _) rfl (Eq.trans ?_ (role_eq here).symm) rfl rfl id
      split <;> rfl
    · cases stepped
  | tryLock p | lockBare p =>
    simp only [Mutex.step] at stepped
    split at stepped
    · rename_i here
      cases stepped
      exact inv.tryLock here rfl rfl rfl
    · cases stepped
  | spin p | unlock p =>
    simp only [Mutex.step] at stepped
    split at stepped
    · rename_i here
      cases stepped
      exact inv.still (.stands _) rfl (role_eq here).symm rfl rfl id
    · cases stepped
  | spurious p =>
    simp only [Mutex.step] at stepped
    split at stepped
    · rename_i here
      have now : s.role p = .blocked := role_eq here
      cases stepped
      refine inv.turn (.stands .bareNotified) rfl (by rw [now]; rfl)
        (.inl ⟨rfl, by rw [now]; rfl⟩)
        fun free => inv.watch (.stands .bareNotified) rfl free ?_ ?_ ?_ ?_
      all_goals simp [now, role, Place.role, Role.waits, Role.alert]
    · cases stepped
  | cancelWaiters p tok =>
    simp only [Mutex.step] at stepped
    split at stepped
    · rename_i here
      cases stepped
      exact inv.still (.walks .cancelWaiters _) rfl (role_eq here).symm rfl rfl id
    · cases stepped

theorem bare_of_reach {tasks : Tasks n} (reach : Reach step anyStep (initial tasks) s) :
    BareInv s :=
  reach.invariant_of inv_of_reach (initial_bare tasks) fun known inv _ stepped =>
    inv.step known stepped

end JLibSched.Mutex
