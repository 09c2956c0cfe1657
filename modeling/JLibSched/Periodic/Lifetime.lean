import JLibSched.Periodic.Model

/-!
# How long the record lives

Every instance but one is idle, and the record is deleted once at most.  A wait that ends while an
instance is in the section of `FinishPeriodic`, past its decrement, deletes the record before the
instance has read its flags (`raced`); no other access meets a deleted record.  Where no wait ends
then, none does, and the record is deleted unless it was detached and still runs.
-/

namespace JLibSched.Periodic

open Transition

/-! ## What goes with the place of an instance -/

/-- The instance is counted in `runs`. -/
@[simp] def Pc.counts : Pc → Nat
  | .launch | .queued | .run _ | .finish _ | .done | .marked => 1
  | _ => 0

@[simp] def Pc.marks : Pc → Nat
  | .marked | .unmark | .wake _ => 1
  | .flags w => if w then 1 else 0
  | _ => 0

@[simp] def Pc.flies : Pc → Bool
  | .launch | .queued | .run _ | .finish _ => true
  | _ => false

@[simp] def Pc.locks : Pc → Bool
  | .done | .marked | .unmark | .flags _ => true
  | _ => false

/-- The instance will call `WakeAll`. -/
@[simp] def Pc.wakes : Pc → Bool
  | .flags w => w
  | .wake _ => true
  | _ => false

/-- The instance will not delete the record unless it is detached. -/
@[simp] def Pc.keeps : Pc → Bool
  | .free => false
  | .wake f => !f
  | _ => true

/-- The instance is past its decrement: at rest, or when `late` holds in the section. -/
@[simp] def Pc.Past (late : Prop) : Pc → Prop
  | .idle => True
  | .unmark => late
  | .flags w => late ∧ w = false
  | _ => False

/-- What goes with the place of the thread with the handle, where the instance is at `p`; it may still
be in its section once the wait has ended, or the record is deleted, where `late` says so. -/
@[simp] def Fits (late : Owner → Prop) (p : Pc) (cancelled detached waiterBit : Bool) (freed : Nat) :
    Owner → Prop
  | .idle => detached = false ∧ freed = 0 ∧ p.keeps = true ∧ p.wakes = false ∧
      (waiterBit = true → cancelled = true ∧ p.counts = 0)
  | .poll _ => detached = false ∧ freed = 0 ∧ p.keeps = true ∧ cancelled = true
  | .settle _ => detached = false ∧ freed = 0 ∧ p.keeps = true ∧ cancelled = true ∧ p.counts = 0
  | .fetchOr _ => detached = false ∧ freed = 0 ∧ p.keeps = true ∧ cancelled = true ∧
      p.wakes = false ∧ (waiterBit = true → p.counts = 0)
  | .suspended _ => detached = false ∧ freed = 0 ∧ p.keeps = true ∧ cancelled = true ∧
      (p.counts = 1 ∧ waiterBit = true ∨ p.wakes = true)
  | .joined destroys =>
    detached = false ∧ freed = 0 ∧ cancelled = true ∧ p.Past (late (.joined destroys))
  | .free => detached = true ∧ freed = 0 ∧ cancelled = true ∧ p = .idle
  | .gone =>
    detached = false ∧ freed = 1 ∧ cancelled = true ∧ p.Past (late .gone) ∨
      detached = true ∧ p.wakes = false ∧ (p = .free → cancelled = true) ∧
        (waiterBit = true → cancelled = true ∧ p.counts = 0) ∧
        freed = if cancelled = true ∧ p = .idle then 1 else 0

/-- Whether the record was deleted, as far as the flags and the places say. -/
def State.Fits (late : Owner → Prop) (s : State) (p : Pc) : Prop :=
  Periodic.Fits late p s.cancelled s.detached s.waiterBit s.freed s.owner

/-- What holds as long as no access was bad, with all instances but `i` idle. -/
structure Inv (late : Owner → Prop) (s : State) (i : Nat) : Prop where
  bad : s.bad = none
  others : ∀ j, j ≠ i → s.inst j = .idle
  count : s.count = (s.inst i).counts
  waking : s.waking = (s.inst i).marks
  inFlight : s.inFlight = (s.inst i).flies
  locked : s.locked = if (s.inst i).locks then some i else none
  armed : s.armed = true → s.cancelled = false
  fits : s.Fits late (s.inst i)

/-- An instance in `FinishPeriodic` has met a deleted record after its decrement. -/
structure Raced (s : State) : Prop where
  site : s.bad = some .unmark ∨ s.bad = some .flags
  freed : s.freed = 1
  count : ∀ i, (s.inst i).counts = 0

variable {late : Owner → Prop} {s t : State} {i j : Nat} {a : Label} {site : Site} {next : Option State}

theorem Raced.stops (raced : Raced s) : step s a = none := by
  rcases raced.site with here | here
  · simp [step, here]
  · simp [step, here]

theorem initial_inv : Inv late initial 0 where
  bad := rfl
  others := fun _ _ => rfl
  count := rfl
  waking := rfl
  inFlight := rfl
  locked := rfl
  armed := fun _ => rfl
  fits := by simp [State.Fits, initial]

/-- A record that was deleted is accessed where an instance is late, or not at all. -/
theorem Inv.freed (inv : Inv late s i) : s.freed = 0 ∨ s.freed = 1 ∧ s.owner = .gone ∧
    (s.inst i).Past (late .gone) ∧ s.armed = false := by
  have fits := inv.fits
  have armed := inv.armed
  unfold State.Fits at fits
  cases owner : s.owner with
  | gone =>
    simp only [owner, Periodic.Fits] at fits
    rcases fits with ⟨-, freed, cancelled, past⟩ | ⟨-, -, -, -, freed⟩
    · refine .inr ⟨freed, rfl, past, ?_⟩
      simpa [cancelled] using armed
    · by_cases ended : s.cancelled = true ∧ s.inst i = .idle
      · refine .inr ⟨by rw [freed, if_pos ended], rfl, by simp [ended.2], ?_⟩
        simpa [ended.1] using armed
      · exact .inl (by rw [freed, if_neg ended])
  | idle => simp_all
  | poll => simp_all
  | settle => simp_all
  | fetchOr => simp_all
  | suspended => simp_all
  | joined => simp_all
  | free => simp_all

theorem touch_cases (stepped : s.touch site next = some t) :
    s.freed = 0 ∧ next = some t ∨ s.freed ≠ 0 ∧ t = { s with bad := some site } := by
  unfold State.touch at stepped
  split at stepped
  · exact .inl ⟨‹_›, stepped⟩
  · exact .inr ⟨‹_›, (Option.some.inj stepped).symm⟩

theorem touch_alive (alive : s.freed = 0) : s.touch site next = next := if_pos alive

/-- After a step the state is as before it, or an access met a deleted record. -/
def Good (late : Owner → Prop) (t : State) : Prop :=
  (∃ i, Inv late t i) ∨ late .gone ∧ Raced t

/-- An instance that is not late meets a record that was not deleted. -/
theorem Inv.alive (inv : Inv late s i) (early : ¬ (s.inst i).Past (late .gone)) : s.freed = 0 := by
  rcases inv.freed with alive | ⟨-, -, past, -⟩
  · exact alive
  · exact absurd past early

/-- The active instance takes a step that the thread with the handle does not see. -/
theorem Inv.moves (inv : Inv late s i) {pc : Pc} (insts : t.inst = Function.update s.inst i pc)
    (bad : t.bad = s.bad)
    (count : t.count = pc.counts) (waking : t.waking = pc.marks) (inFlight : t.inFlight = pc.flies)
    (locked : t.locked = if pc.locks then some i else none)
    (armed : t.armed = true → t.cancelled = false) (fits : t.Fits late pc) :
    Inv late t i where
  bad := bad.trans inv.bad
  others j other := by
    rw [insts, Function.update_of_ne other]
    exact inv.others j other
  count := by rw [count, insts, Function.update_self]
  waking := by rw [waking, insts, Function.update_self]
  inFlight := by rw [inFlight, insts, Function.update_self]
  locked := by rw [locked, insts, Function.update_self]
  armed := armed
  fits := by
    rw [insts, Function.update_self]
    exact fits

theorem Pc.counted {p : Pc} (counts : p.counts = 1) : p.wakes = false ∧ p.keeps = true ∧
    (∀ late, ¬ p.Past late) ∧ p ≠ .idle ∧ p ≠ .free := by
  cases p <;> simp_all

/-! ## Steps of the active instance -/

section

variable {cancelled detached waiterBit : Bool} {freed : Nat} {owner : Owner}

/-- Before its decrement the instance may go on, and cancel the record. -/
theorem Fits.counted {p q : Pc} {cancelled' : Bool}
    (fits : Fits late p cancelled detached waiterBit freed owner) (counts : p.counts = 1)
    (counts' : q.counts = 1) (more : cancelled = true → cancelled' = true) :
    Fits late q cancelled' detached waiterBit freed owner := by
  obtain ⟨wakes, keeps, early, moving, stays⟩ := Pc.counted counts
  obtain ⟨wakes', keeps', early', moving', stays'⟩ := Pc.counted counts'
  cases owner <;> simp_all

/-- The decrement comes to zero under the waiter bit, and the instance will wake the joiner. -/
theorem Fits.reaches (fits : Fits late .marked cancelled detached waiterBit freed owner)
    (bit : waiterBit = true) :
    Fits late (.flags true) cancelled detached waiterBit freed owner := by
  cases owner <;> simp_all

/-- Without the bit it wakes nobody. -/
theorem Fits.passes (fits : Fits late .marked cancelled detached waiterBit freed owner)
    (bit : waiterBit = false) :
    Fits late .unmark cancelled detached waiterBit freed owner := by
  cases owner <;> simp_all

theorem Fits.unmarked (fits : Fits late .unmark cancelled detached waiterBit freed owner)
    (alive : freed = 0) :
    Fits late (.flags false) cancelled detached waiterBit freed owner := by
  cases owner <;> simp_all

/-- A record that is waited for is not deleted by the instance. -/
theorem Fits.leaves (fits : Fits late (.flags true) cancelled detached waiterBit freed owner) :
    (detached && cancelled) = false ∧
      Fits late (.wake false) cancelled detached waiterBit freed owner := by
  cases owner <;> simp_all

/-- The last one to leave deletes the record. -/
theorem Fits.ends (fits : Fits late (.flags false) cancelled detached waiterBit freed owner)
    (alive : freed = 0) (ended : (detached && cancelled) = true) :
    Fits late .free cancelled detached waiterBit freed owner := by
  cases owner <;> simp_all

theorem Fits.rests (fits : Fits late (.flags false) cancelled detached waiterBit freed owner)
    (alive : freed = 0) (running : (detached && cancelled) = false) :
    Fits late .idle cancelled detached waiterBit freed owner := by
  cases owner <;> simp_all

theorem Fits.keeps {free : Bool}
    (fits : Fits late (.wake free) cancelled detached waiterBit freed owner) : free = false := by
  cases owner <;> simp_all

theorem Fits.deleted (fits : Fits late .free cancelled detached waiterBit freed owner) :
    Fits late .idle cancelled detached waiterBit (freed + 1) owner := by
  cases owner <;> simp_all

end

/-- A late instance meets a deleted record. -/
theorem Inv.raced (inv : Inv late s i) (dead : s.freed ≠ 0) (moving : s.inst i ≠ .idle)
    (here : site = .unmark ∨ site = .flags) : late .gone ∧ Raced { s with bad := some site } := by
  rcases inv.freed with alive | ⟨freed, -, past, -⟩
  · exact absurd alive dead
  · refine ⟨?_, here.imp (congrArg some) (congrArg some), freed, fun j => ?_⟩
    · cases pc : s.inst i <;> simp_all
    · rcases eq_or_ne j i with rfl | other
      · cases pc : s.inst j <;> simp_all
      · simp only [inv.others j other, Pc.counts]

theorem Inv.advance (inv : Inv late s i) {ok : Bool} (stepped : s.advance j ok = some t) :
    Good late t := by
  obtain rfl : j = i := by
    by_contra other
    simp [State.advance, inv.others j other] at stepped
  have fits := inv.fits
  have counted := inv.count
  have waking := inv.waking
  have inFlight := inv.inFlight
  have locked := inv.locked
  have armed := inv.armed
  cases pc : s.inst j with
  | idle => simp [State.advance, pc] at stepped
  | launch =>
    have alive := inv.alive (by simp [pc])
    simp only [State.advance, pc, State.touch, alive, if_true, Option.some.injEq] at stepped
    subst stepped
    rw [pc] at fits counted waking inFlight locked
    cases ok with
    | true =>
      exact .inl ⟨j, inv.moves rfl rfl counted waking inFlight locked armed (fits.counted rfl rfl id)⟩
    | false =>
      exact .inl ⟨j, inv.moves rfl rfl counted waking inFlight locked armed (fits.counted rfl rfl id)⟩
  | queued =>
    have alive := inv.alive (by simp [pc])
    rw [pc] at fits counted waking inFlight locked
    simp only [State.advance, pc, State.touch, alive, if_true, locked] at stepped
    cases stepped
    exact .inl ⟨j, inv.moves rfl rfl counted waking inFlight locked armed (fits.counted rfl rfl id)⟩
  | run cancelled =>
    have alive := inv.alive (by simp [pc])
    rw [pc] at fits counted waking inFlight locked
    simp only [State.advance, pc, State.touch, alive, if_true] at stepped
    cases stepped
    exact .inl ⟨j, inv.moves rfl rfl counted waking inFlight locked armed (fits.counted rfl rfl id)⟩
  | finish stop =>
    have alive := inv.alive (by simp [pc])
    rw [pc] at fits counted waking inFlight locked
    simp only [State.advance, pc, State.touch, alive, if_true, locked] at stepped
    cases stop with
    | true =>
      cases stepped
      exact .inl ⟨j, inv.moves rfl rfl counted waking rfl rfl nofun (fits.counted rfl rfl fun _ => rfl)⟩
    | false =>
      cases stepped
      exact .inl ⟨j, inv.moves rfl rfl counted waking rfl rfl armed (fits.counted rfl rfl id)⟩
  | done =>
    have alive := inv.alive (by simp [pc])
    rw [pc] at fits counted waking inFlight locked
    simp only [State.advance, pc, State.touch, alive, if_true] at stepped
    cases stepped
    refine .inl ⟨j, inv.moves rfl rfl counted ?_ inFlight locked armed (fits.counted rfl rfl id)⟩
    exact congrArg (· + 1) waking
  | marked =>
    have alive := inv.alive (by simp [pc])
    rw [pc] at fits counted waking inFlight locked
    have one : s.count = 1 := counted
    simp only [State.advance, pc, State.touch, alive, if_true, one, true_and] at stepped
    cases bit : s.waiterBit with
    | true =>
      simp only [bit, if_true] at stepped
      cases stepped
      exact .inl ⟨j, inv.moves rfl rfl rfl waking inFlight locked armed (fits.reaches bit)⟩
    | false =>
      simp only [bit, Bool.false_eq_true, if_false] at stepped
      cases stepped
      exact .inl ⟨j, inv.moves rfl rfl rfl waking inFlight locked armed (fits.passes bit)⟩
  | unmark =>
    simp only [State.advance, pc] at stepped
    rcases touch_cases stepped with ⟨alive, same⟩ | ⟨dead, rfl⟩
    · cases same
      rw [pc] at fits counted waking inFlight locked
      have zero : s.waking - 1 = 0 := by rw [waking]; rfl
      exact .inl ⟨j, inv.moves rfl rfl counted zero inFlight locked armed (fits.unmarked alive)⟩
    · exact .inr (inv.raced dead (by simp [pc]) (.inl rfl))
  | flags wake =>
    simp only [State.advance, pc] at stepped
    rcases touch_cases stepped with ⟨alive, same⟩ | ⟨dead, rfl⟩
    · cases same
      rw [pc] at fits counted waking inFlight locked
      cases wake with
      | true =>
        obtain ⟨stays, waits⟩ := fits.leaves
        rw [stays]
        exact .inl ⟨j, inv.moves rfl rfl counted waking inFlight rfl armed waits⟩
      | false =>
        cases ended : s.detached && s.cancelled with
        | true =>
          have ends := fits.ends alive ended
          exact .inl ⟨j, inv.moves rfl rfl counted waking inFlight rfl armed ends⟩
        | false =>
          have rests := fits.rests alive ended
          exact .inl ⟨j, inv.moves rfl rfl counted waking inFlight rfl armed rests⟩
    · exact .inr (inv.raced dead (by simp [pc]) (.inr rfl))
  | wake free =>
    have alive := inv.alive (by simp [pc])
    rw [pc] at fits counted waking inFlight locked
    simp only [State.advance, pc, State.touch, alive, if_true] at stepped
    obtain rfl : free = false := fits.keeps
    cases stepped
    have zero : s.waking - 1 = 0 := by rw [waking]; rfl
    refine .inl ⟨j, inv.moves rfl rfl counted zero inFlight locked armed ?_⟩
    simp only [State.Fits, State.go, State.wakeAll] at fits ⊢
    cases owner : s.owner <;> simp_all
  | free =>
    rw [pc] at fits counted waking inFlight locked
    simp only [State.advance, pc] at stepped
    cases stepped
    exact .inl ⟨j, inv.moves rfl rfl counted waking inFlight locked armed fits.deleted⟩

/-- What a run keeps to, where no instance is to be late. -/
def Allowed (late : Owner → Prop) (s : State) (a : Label) : Prop :=
  (∀ destroys, ¬ late (.joined destroys) → patient s a) ∧
    (late (.joined true) → ¬ late .gone → spared s a)

/-- The thread with the handle takes a step, and the instances stay where they are. -/
theorem Inv.stays (inv : Inv late s i) (insts : t.inst = s.inst) (bad : t.bad = s.bad) (count : t.count = s.count)
    (waking : t.waking = s.waking) (inFlight : t.inFlight = s.inFlight)
    (locked : t.locked = s.locked) (armed : t.armed = true → t.cancelled = false)
    (fits : t.Fits late (s.inst i)) : Inv late t i where
  bad := bad.trans inv.bad
  others j other := by rw [insts, inv.others j other]
  count := by rw [count, insts, inv.count]
  waking := by rw [waking, insts, inv.waking]
  inFlight := by rw [inFlight, insts, inv.inFlight]
  locked := by rw [locked, insts, inv.locked]
  armed := armed
  fits := by
    rw [insts]
    exact fits

/-- The record is there as long as the handle is. -/
theorem Inv.held (inv : Inv late s i) (here : s.owner ≠ .gone) : s.freed = 0 := by
  rcases inv.freed with alive | ⟨-, gone, -⟩
  · exact alive
  · exact absurd gone here

theorem Inv.fire (inv : Inv late s i) (armed : s.armed = true) (unlocked : s.locked = none)
    (stepped : s.touch .fire (s.firePeriodic j) = some t) : ∃ i, Inv late t i := by
  have alive : s.freed = 0 := by
    rcases inv.freed with alive | ⟨-, -, -, off⟩
    · exact alive
    · rw [off] at armed
      cases armed
  have fits := inv.fits
  simp only [State.touch, alive, if_true, State.firePeriodic] at stepped
  cases flying : s.inFlight with
  | true =>
    simp only [flying, if_true] at stepped
    cases stepped
    exact ⟨i, inv⟩
  | false =>
    simp only [flying, Bool.false_eq_true, if_false] at stepped
    split at stepped
    · cases stepped
      have uncancelled := inv.armed armed
      -- an instance that has left the section either wakes a joiner or deletes the record
      have resting : s.inst i = .idle := by
        have locked := inv.locked
        have inFlight := inv.inFlight
        simp only [State.Fits] at fits
        cases pc : s.inst i <;> cases owner : s.owner <;> simp_all
      have counted := inv.count
      have waking := inv.waking
      rw [resting] at counted waking fits
      refine ⟨j, ⟨inv.bad, ?_, ?_, ?_, ?_, ?_, inv.armed, ?_⟩⟩
      · intro k other
        simp only [State.go, Function.update_of_ne other]
        rcases eq_or_ne k i with rfl | apart
        · exact resting
        · exact inv.others k apart
      · simp [State.go, counted]
      · simp [State.go, waking]
      · simp [State.go]
      · simp [State.go, unlocked]
      · simp only [State.Fits, State.go, Function.update_self] at fits ⊢
        cases owner : s.owner <;> simp_all
    · cases stepped

theorem Inv.cancel (inv : Inv late s i) (owner : s.owner = .idle) :
    Inv late s.cancelPeriodic i := by
  refine inv.stays rfl rfl rfl rfl rfl rfl nofun ?_
  have fits := inv.fits
  simp only [State.Fits, State.cancelPeriodic, owner, Periodic.Fits] at fits ⊢
  simp_all

theorem Inv.join (inv : Inv late s i) (owner : s.owner = .idle) (cancelled : s.cancelled = true)
    (fiber destroys : Bool) : Inv late (s.join fiber destroys) i := by
  refine inv.stays rfl rfl rfl rfl rfl rfl inv.armed ?_
  have fits := inv.fits
  simp only [State.Fits, State.join, owner, Periodic.Fits] at fits ⊢
  cases fiber <;> simp_all

theorem Inv.detach (inv : Inv late s i) (owner : s.owner = .idle) (unlocked : s.locked = none) :
    Inv late { s with
      detached := true
      owner := if s.cancelled && !s.inFlight then .free else .gone } i := by
  refine inv.stays rfl rfl rfl rfl rfl rfl inv.armed ?_
  have fits := inv.fits
  have inFlight := inv.inFlight
  have locked := inv.locked
  simp only [State.Fits, owner, Periodic.Fits] at fits ⊢
  cases cancelled : s.cancelled <;> cases pc : s.inst i <;> simp_all

/-- An instance past its decrement that does not hold the mutex is at rest. -/
theorem Inv.past (inv : Inv late s i) {now : Prop} (past : (s.inst i).Past True)
    (unlocked : ¬ now → s.locked = none) : (s.inst i).Past now := by
  have locked := inv.locked
  by_cases holds : now
  · cases pc : s.inst i <;> simp_all
  · have free := unlocked holds
    cases pc : s.inst i <;> simp_all

theorem Inv.advanceOwner (inv : Inv late s i) {register : Bool}
    (allowed : Allowed late s (.owner register))
    (stepped : s.advanceOwner register = some t) : Inv late t i := by
  have fits := inv.fits
  have counted := inv.count
  have waking := inv.waking
  have locked := inv.locked
  cases owner : s.owner with
  | idle => simp [State.advanceOwner, owner] at stepped
  | poll destroys =>
    have alive := inv.held (by simp [owner])
    simp only [State.advanceOwner, owner, State.touch, alive, if_true] at stepped
    simp only [State.Fits, owner] at fits
    cases register with
    | true =>
      cases stepped
      refine inv.stays rfl rfl rfl rfl rfl rfl inv.armed ?_
      simp_all [State.Fits]
    | false =>
      simp only [Bool.false_eq_true, if_false] at stepped
      split at stepped
      · rename_i zero
        cases stepped
        obtain ⟨undetached, unfreed, keeps, cancelled⟩ := fits
        exact inv.stays rfl rfl rfl rfl rfl rfl inv.armed
          ⟨undetached, rfl, keeps, cancelled, counted.symm.trans zero⟩
      · cases stepped
  | settle destroys =>
    have alive := inv.held (by simp [owner])
    simp only [State.advanceOwner, owner, State.touch, alive, if_true] at stepped
    simp only [State.Fits, owner] at fits
    split at stepped
    · rename_i quiet
      cases stepped
      obtain ⟨undetached, -, keeps, cancelled, uncounted⟩ := fits
      have past : (s.inst i).Past True := by
        cases pc : s.inst i <;> simp_all
      refine inv.stays rfl rfl rfl rfl rfl rfl inv.armed
        ⟨undetached, rfl, cancelled, inv.past past fun early => ?_⟩
      simpa [patient, owner, Owner.ends] using allowed.1 destroys early
    · cases stepped
  | fetchOr destroys =>
    have alive := inv.held (by simp [owner])
    simp only [State.advanceOwner, owner, State.touch, alive, if_true] at stepped
    simp only [State.Fits, owner] at fits
    split at stepped
    · rename_i zero
      cases stepped
      obtain ⟨undetached, -, keeps, cancelled, wakes, -⟩ := fits
      have past : (s.inst i).Past True := by
        cases pc : s.inst i <;> simp_all
      refine inv.stays rfl rfl rfl rfl rfl rfl inv.armed
        ⟨undetached, rfl, cancelled, inv.past past fun early => ?_⟩
      simpa [patient, owner, Owner.ends, zero] using allowed.1 destroys early
    · cases stepped
      refine inv.stays rfl rfl rfl rfl rfl rfl inv.armed ?_
      cases pc : s.inst i <;> simp_all [State.Fits]
  | suspended destroys => simp [State.advanceOwner, owner] at stepped
  | joined destroys =>
    simp only [State.advanceOwner, owner] at stepped
    simp only [State.Fits, owner] at fits
    cases destroys with
    | true =>
      cases stepped
      obtain ⟨undetached, alive, cancelled, past⟩ := fits
      refine inv.stays rfl rfl rfl rfl rfl rfl inv.armed ?_
      refine .inl ⟨undetached, congrArg (· + 1) alive, cancelled, ?_⟩
      by_cases waits : late (.joined true)
      · have past : (s.inst i).Past True := by simpa [waits] using past
        exact inv.past past fun early => allowed.2 waits early owner (by simp)
      · cases pc : s.inst i <;> simp_all
    | false =>
      cases stepped
      refine inv.stays rfl rfl rfl rfl rfl rfl inv.armed ?_
      cases pc : s.inst i <;> simp_all [State.Fits]
  | free =>
    simp only [State.advanceOwner, owner] at stepped
    cases stepped
    refine inv.stays rfl rfl rfl rfl rfl rfl inv.armed ?_
    simp_all [State.Fits]
  | gone => simp [State.advanceOwner, owner] at stepped

theorem Inv.step (inv : Inv late s i) (allowed : Allowed late s a)
    (stepped : step s a = some t) : Good late t := by
  unfold Periodic.step at stepped
  split at stepped
  · cases stepped
  cases a with
  | fire j =>
    simp only at stepped
    split at stepped
    · rename_i may
      exact .inl (inv.fire may.1 may.2 stepped)
    · cases stepped
  | advance j ok => exact inv.advance stepped
  | cancel =>
    simp only at stepped
    split at stepped
    · rename_i may
      rw [touch_alive (inv.held (by simp [may.1]))] at stepped
      cases stepped
      exact .inl ⟨i, inv.cancel may.1⟩
    · cases stepped
  | join fiber =>
    simp only at stepped
    split at stepped
    · rename_i may
      rw [touch_alive (inv.held (by simp [may.1]))] at stepped
      cases stepped
      exact .inl ⟨i, inv.join may.1 may.2 fiber false⟩
    · cases stepped
  | destroy fiber =>
    simp only at stepped
    split at stepped
    · rename_i may
      rw [touch_alive (inv.held (by simp [may.1]))] at stepped
      cases stepped
      exact .inl ⟨i, (inv.cancel may.1).join may.1 rfl fiber true⟩
    · cases stepped
  | detach =>
    simp only at stepped
    split at stepped
    · rename_i may
      rw [touch_alive (inv.held (by simp [may.1]))] at stepped
      cases stepped
      exact .inl ⟨i, inv.detach may.1 may.2⟩
    · cases stepped
  | owner register => exact .inl ⟨i, inv.advanceOwner allowed stepped⟩

/-- In every run the record is deleted once at most, not before the decrement of an instance, and
met after it was deleted only in `FinishPeriodic` past the decrement. -/
theorem record_lifetime (reach : Reach step anyStep initial s) :
    s.freed ≤ 1 ∧ (∀ i, (s.inst i).counts = 1 → s.freed = 0) ∧
      ∀ site, s.bad = some site → site = .unmark ∨ site = .flags := by
  have good : Good (fun _ => True) s := by
    refine reach.invariant (I := Good fun _ => True) (.inl ⟨0, initial_inv⟩) ?_
    rintro s t a (⟨i, inv⟩ | ⟨-, raced⟩) - stepped
    · exact inv.step ⟨fun _ early => absurd trivial early, fun _ early => absurd trivial early⟩ stepped
    · rw [raced.stops] at stepped
      cases stepped
  rcases good with ⟨i, inv⟩ | ⟨-, raced⟩
  · refine ⟨?_, fun j counted => ?_, fun site bad => ?_⟩
    · rcases inv.freed with alive | ⟨freed, -⟩
      · omega
      · omega
    · rcases eq_or_ne j i with rfl | other
      · exact inv.alive ((Pc.counted counted).2.2.1 _)
      · rw [inv.others j other] at counted
        cases counted
    · rw [inv.bad] at bad
      cases bad
  · refine ⟨raced.freed.le, fun j counted => ?_, fun site bad => ?_⟩
    · rw [raced.count j] at counted
      cases counted
    · rcases raced.site with here | here
      · rw [here] at bad
        exact .inl (Option.some.inj bad).symm
      · rw [here] at bad
        exact .inr (Option.some.inj bad).symm

/-! A callback returns while the destructor polls the group: the instance has decremented it, the
waiter settles and deletes the record, and the flags are read from it. -/

def racedLabels : List Label :=
  [.fire 0, .advance 0 true, .advance 0 true, .destroy false, .advance 0 true, .advance 0 true,
    .advance 0 true, .advance 0 true, .advance 0 true, .owner false, .owner false, .owner false,
    .advance 0 true]

def raced : State := (run step anyStep initial racedLabels).getD initial

theorem raced_lifetime : raced.bad = some .flags ∧ raced.freed ≤ 1 ∧
    (∀ i, (raced.inst i).counts = 1 → raced.freed = 0) ∧
      ∀ site, raced.bad = some site → site = .unmark ∨ site = .flags :=
  ⟨by decide +kernel, record_lifetime (Reach.of_isSome racedLabels (by decide +kernel))⟩

/-- The record is deleted once, after the last instance, and nothing meets it then. -/
structure Sound (s : State) : Prop where
  untouched : s.bad = none
  once : s.freed ≤ 1
  inFlight : ∀ i, s.inst i ≠ .idle → s.freed = 0
  deleted : (∀ i, s.inst i = .idle) → s.owner = .gone →
    (s.freed = 1 ↔ (s.detached = true → s.cancelled = true))

theorem Inv.sound (inv : Inv late s i) (early : ¬ late .gone) : Sound s where
  untouched := inv.bad
  once := by
    rcases inv.freed with alive | ⟨freed, -⟩
    · omega
    · omega
  inFlight j moving := by
    rcases eq_or_ne j i with rfl | other
    · refine inv.alive fun past => ?_
      cases pc : s.inst j <;> simp_all
    · exact absurd (inv.others j other) moving
  deleted resting gone := by
    have fits := inv.fits
    simp only [State.Fits, gone, Fits, resting i] at fits
    cases detached : s.detached with
    | false => simp_all
    | true => cases cancelled : s.cancelled <;> simp_all

/-- Where no wait ends while an instance holds the mutex, no deleted record is met, and a record whose
handle is gone was deleted as soon as no instance is left, unless it was detached and not cancelled. -/
theorem record_deleted (reach : Reach step patient initial s) :
    s.bad = none ∧ s.freed ≤ 1 ∧ ((∀ i, s.inst i = .idle) → s.owner = .gone →
      (s.freed = 1 ↔ (s.detached = true → s.cancelled = true))) := by
  have good : ∃ i, Inv (fun _ => False) s i := by
    refine reach.invariant (I := fun s => ∃ i, Inv (fun _ => False) s i) ⟨0, initial_inv⟩ ?_
    rintro s t a ⟨i, inv⟩ allowed stepped
    rcases inv.step ⟨fun _ _ => allowed, fun waits => waits.elim⟩ stepped with kept | ⟨late, -⟩
    · exact kept
    · exact late.elim
  obtain ⟨i, inv⟩ := good
  have sound := inv.sound id
  exact ⟨sound.untouched, sound.once, sound.deleted⟩

/-- The waiter settles after the instance has read the flags. -/
def settledLabels : List Label :=
  [.fire 0, .advance 0 true, .advance 0 true, .destroy false, .advance 0 true, .advance 0 true,
    .advance 0 true, .advance 0 true, .advance 0 true, .owner false, .advance 0 true, .owner false,
    .owner false]

def settled : State := (run step patient initial settledLabels).getD initial

theorem settled_deleted : settled.owner = .gone ∧ settled.freed = 1 ∧ settled.bad = none ∧
    settled.freed ≤ 1 ∧ ((∀ i, settled.inst i = .idle) → settled.owner = .gone →
      (settled.freed = 1 ↔ (settled.detached = true → settled.cancelled = true))) :=
  ⟨by decide +kernel, by decide +kernel,
    record_deleted (Reach.of_isSome settledLabels (by decide +kernel))⟩

/-- Where the destructor does not delete the record within a section, it is deleted in time. -/
theorem record_deleted_in_time (reach : Reach step spared initial s) : Sound s := by
  have good : ∃ i, Inv (· ≠ .gone) s i := by
    refine reach.invariant (I := fun s => ∃ i, Inv (· ≠ .gone) s i) ⟨0, initial_inv⟩ ?_
    rintro s t a ⟨i, inv⟩ allowed stepped
    rcases inv.step ⟨fun _ early => absurd nofun early, fun _ _ => allowed⟩ stepped with kept | ⟨late, -⟩
    · exact kept
    · exact absurd rfl late
  obtain ⟨i, inv⟩ := good
  exact inv.sound fun late => late rfl

/-- The wait ends within the section, and the record is deleted after it. -/
def sparedLabels : List Label := racedLabels.take 11 ++ [.advance 0 true, .owner false]

def sparing : State := (run step spared initial sparedLabels).getD initial

theorem sparing_sound : sparing.owner = .gone ∧ sparing.freed = 1 ∧ Sound sparing :=
  ⟨by decide +kernel, by decide +kernel,
    record_deleted_in_time (Reach.of_isSome sparedLabels (by decide +kernel))⟩

theorem raced_unsound : ¬ ∀ s, Reach step anyStep initial s → Sound s := by
  intro sound
  have bad := (sound raced (Reach.of_isSome racedLabels (by decide +kernel))).untouched
  revert bad
  decide +kernel

end JLibSched.Periodic
