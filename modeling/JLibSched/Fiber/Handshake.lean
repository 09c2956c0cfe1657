import JLibSched.Lib.Transition
import Mathlib.Tactic

/-!
# Suspending and resuming a fiber

A fiber suspends in three steps: it announces it (`BeginSuspend`), registers somewhere, and
switches out; then `OnFiberReturned` runs on its scheduler thread.  `Resume` may be called from
the announcement on.  Whoever moves `status` off the suspension places the task: a `Resume` that
finds the fiber suspended, or `OnFiberReturned` when a `Resume` came before it.

A round is what follows one `BeginSuspend`.  A `Resume` call belongs to the round it is made in,
but it may be slow and meet the `status` of a later one.
-/

namespace JLibSched.Fiber

open Transition

/-- `FiberStatus`. -/
inductive Status where
  | ready
  | running
  | wantsYield
  | wantsSuspend
  | suspendSignaled
  | suspended
  | transferred
  | dead
deriving DecidableEq, Repr

/-- Where the fiber is. -/
inductive FiberPc where
  | running
  /-- After `BeginSuspend`: it registers, and is about to switch out. -/
  | leaving
  | out
deriving DecidableEq, Repr

/-- Where `OnFiberReturned` stands for the current round. -/
inductive ReturnPc where
  | notYet
  | load
  | exchange
  /-- The exchange found `suspendSignaled`: store `ready`. -/
  | store
  /-- `ResumeFiber`. -/
  | place
  | done
deriving DecidableEq, Repr

/-- Where a call of `Resume` stands, and the round it was made in. -/
inductive ResumePc where
  | notCalled
  | load (round : Nat)
  | exchangeSuspended (round : Nat)
  /-- `RequeueResume`. -/
  | place (round : Nat)
  | exchangeWants (round : Nat)
  | returned (round : Nat)
deriving DecidableEq, Repr

structure State where
  status : Status
  fiber : FiberPc
  returning : ReturnPc
  resume : Nat → ResumePc
  /-- How often `BeginSuspend` was called. -/
  round : Nat
  /-- Places in the queues that hold the task. -/
  pending : Nat
  /-- How often the task was placed, by rounds. -/
  placed : Nat → Nat

/-- A fiber that runs and was never suspended. -/
def initial : State where
  status := .running
  fiber := .running
  returning := .done
  resume := fun _ => .notCalled
  round := 0
  pending := 0
  placed := fun _ => 0

inductive Label where
  | beginSuspend
  | switchOut
  | onFiberReturned
  /-- A worker takes the task from its queue and switches to the fiber. -/
  | run
  | call (w : Nat)
  | resume (w : Nat)
deriving DecidableEq, Repr

/-! ## Steps -/

def State.setResume (s : State) (w : Nat) (pc : ResumePc) : State :=
  { s with resume := Function.update s.resume w pc }

/-- The task goes to a queue. -/
def State.place (s : State) : State :=
  { s with
    pending := s.pending + 1
    placed := Function.update s.placed s.round (s.placed s.round + 1) }

/-- The part of `OnFiberReturned` that is about a suspension. -/
def returnStep (s : State) : Option State :=
  match s.returning with
  | .load =>
    match s.status with
    -- a finished fiber or a yield, which is not what these rounds do
    | .dead | .wantsYield => none
    | _ => some { s with returning := .exchange }
  | .exchange =>
    if s.status = .wantsSuspend then some { s with status := .suspended, returning := .done }
    else if s.status = .suspendSignaled then some { s with returning := .store }
    else some { s with returning := .done }
  | .store => some { s with status := .ready, returning := .place }
  | .place => some { s.place with returning := .done }
  | .notYet | .done => none

/-- `Resume`. -/
def resumeStep (s : State) (w : Nat) : Option State :=
  match s.resume w with
  | .load r =>
    match s.status with
    | .suspended => some (s.setResume w (.exchangeSuspended r))
    | .wantsSuspend => some (s.setResume w (.exchangeWants r))
    | _ => some (s.setResume w (.returned r))
  | .exchangeSuspended r =>
    if s.status = .suspended then some ({ s with status := .ready }.setResume w (.place r))
    else some (s.setResume w (.returned r))
  | .place r => some (s.place.setResume w (.returned r))
  | .exchangeWants r =>
    if s.status = .wantsSuspend then
      some ({ s with status := .suspendSignaled }.setResume w (.returned r))
    else some (s.setResume w (.load r))
  | .notCalled | .returned _ => none

def step (s : State) : Label → Option State
  | .beginSuspend =>
    if s.fiber = .running then
      some { s with
        status := .wantsSuspend
        fiber := .leaving
        returning := .notYet
        round := s.round + 1 }
    else none
  | .switchOut =>
    if s.fiber = .leaving then some { s with fiber := .out, returning := .load } else none
  | .onFiberReturned => returnStep s
  | .run =>
    if s.pending ≠ 0 then
      some { s with status := .running, fiber := .running, pending := s.pending - 1 }
    else none
  | .call w =>
    if s.fiber ≠ .running ∧ s.resume w = .notCalled then some (s.setResume w (.load s.round))
    else none
  | .resume w => resumeStep s w

/-! ## What a placed task is -/

/-- `OnFiberReturned` has finished in this round. -/
def Returned (s : State) (r : Nat) : Prop := r < s.round ∨ r = s.round ∧ s.returning = .done

/-- Some `Resume` call of the round has returned. -/
def Answered (s : State) (r : Nat) : Prop := ∃ w, s.resume w = .returned r

/-- A `Resume` call has moved the fiber to `ready` and has yet to place the task. -/
def Placing (s : State) : Prop := ∃ w r, s.resume w = .place r

/-- The task is placed at most once in a round and not before the fiber has switched out.  Once a
`Resume` of the round and `OnFiberReturned` are through, it has been placed, or a single `Resume`
that moved the fiber to `ready` is about to. -/
structure Placed (s : State) : Prop where
  once : ∀ r, s.placed r ≤ 1
  late : s.fiber = .leaving → s.placed s.round = 0 ∧ s.pending = 0 ∧ ¬ Placing s
  complete : ∀ r, 0 < r → Answered s r → Returned s r →
    s.placed r = 1 ∨ r = s.round ∧ s.placed r = 0 ∧ Placing s
  single : ∀ w w' r r', s.resume w = .place r → s.resume w' = .place r' → w = w'

/-! ## Invariant -/

/-- Where a round stands. -/
inductive Phase where
  /-- The fiber runs. -/
  | running
  /-- No `Resume` has come, and `OnFiberReturned` is not through. -/
  | leaving
  /-- A `Resume` came before `OnFiberReturned`. -/
  | signaled
  /-- `OnFiberReturned` is about to place the task. -/
  | returning
  /-- Nobody has come, and `OnFiberReturned` is through. -/
  | suspended
  /-- A `Resume` is about to place the task. -/
  | placing
  /-- The task is in a queue. -/
  | queued
deriving DecidableEq, Repr

def Phase.status : Phase → Status
  | .running => .running
  | .leaving => .wantsSuspend
  | .signaled => .suspendSignaled
  | .suspended => .suspended
  | .returning | .placing | .queued => .ready

/-- Where the fiber and `OnFiberReturned` may be in a phase. -/
def Phase.Fits (f : FiberPc) (ret : ReturnPc) : Phase → Prop
  | .running => f = .running ∧ ret = .done
  | .leaving => f = .leaving ∧ ret = .notYet ∨ f = .out ∧ (ret = .load ∨ ret = .exchange)
  | .signaled =>
    f = .leaving ∧ ret = .notYet ∨ f = .out ∧ (ret = .load ∨ ret = .exchange ∨ ret = .store)
  | .returning => f = .out ∧ ret = .place
  | .suspended | .placing | .queued => f = .out ∧ ret = .done

/-- What a phase says of the whole state. -/
structure Stands (s : State) (phase : Phase) : Prop where
  status : s.status = phase.status
  fits : phase.Fits s.fiber s.returning
  pending : s.pending = if phase = .queued then 1 else 0
  placing : Placing s ↔ phase = .placing
  placed : 0 < s.round →
    s.placed s.round = if phase = .running ∨ phase = .queued then 1 else 0

structure Inv (s : State) (phase : Phase) : Prop where
  stands : Stands s phase
  past : ∀ r, 0 < r → r < s.round → s.placed r = 1
  future : ∀ r, s.round < r ∨ r = 0 → s.placed r = 0
  begun : s.fiber ≠ .running → 0 < s.round
  single : ∀ w w' r r', s.resume w = .place r → s.resume w' = .place r' → w = w'
  answered : phase = .leaving ∨ phase = .suspended → ¬ Answered s s.round
  /-- The tags of the calls that are under way. -/
  tags : ∀ w r, s.resume w = .load r ∨ s.resume w = .exchangeSuspended r ∨
    s.resume w = .exchangeWants r ∨ s.resume w = .place r ∨ s.resume w = .returned r →
      r ≤ s.round
  saw : ∀ w, s.resume w = .exchangeSuspended s.round → phase ≠ .leaving

theorem initial_inv : Inv initial .running where
  stands := {
    status := rfl
    fits := ⟨rfl, rfl⟩
    pending := rfl
    placing := ⟨fun ⟨w, r, absurd⟩ => (by cases absurd), fun absurd => (by cases absurd)⟩
    placed := fun positive => absurd positive (Nat.lt_irrefl 0) }
  past r _ less := absurd less (Nat.not_lt_zero r)
  future _ _ := rfl
  begun absurd := (absurd rfl).elim
  single w w' r r' absurd := by cases absurd
  answered absurd := by simp at absurd
  tags w r absurd := by simp [initial] at absurd
  saw w absurd := by cases absurd

variable {s t : State} {phase : Phase} {a : Label}

theorem Inv.placed (inv : Inv s phase) : Placed s where
  once r := by
    rcases Nat.eq_zero_or_pos r with rfl | positive
    · rw [inv.future 0 (.inr rfl)]
      omega
    · rcases Nat.lt_trichotomy r s.round with before | rfl | after
      · rw [inv.past r positive before]
      · rw [inv.stands.placed positive]
        split <;> omega
      · rw [inv.future r (.inl after)]
        omega
  late leaving := by
    have begun := inv.begun (by rw [leaving]; simp)
    have fits := inv.stands.fits
    rw [leaving] at fits
    have placed := inv.stands.placed begun
    have pending := inv.stands.pending
    rw [inv.stands.placing]
    cases phase <;> simp [Phase.Fits] at fits placed pending ⊢ <;> exact ⟨placed, pending⟩
  complete r positive answered returned := by
    rcases returned with before | ⟨rfl, done⟩
    · exact .inl (inv.past r positive before)
    · have fits := inv.stands.fits
      rw [done] at fits
      rw [inv.stands.placed positive, inv.stands.placing]
      have unanswered := inv.answered
      cases phase with
      | running | queued => exact .inl rfl
      | placing => exact .inr ⟨rfl, rfl, rfl⟩
      | suspended => exact absurd answered (unanswered (.inr rfl))
      | leaving | signaled | returning => simp [Phase.Fits] at fits
  single := inv.single

/-! ## Steps of the fiber -/

/-- No `Resume` call moves. -/
theorem Inv.fiber (inv : Inv s phase) {phase' : Phase} (same : t.resume = s.resume)
    (round : t.round = s.round) (begun : t.fiber ≠ .running → 0 < s.round)
    (stands : Stands t phase') (placed : ∀ r, r ≠ s.round → t.placed r = s.placed r)
    (zero : s.round = 0 → t.placed 0 = 0)
    (answered : phase' = .leaving ∨ phase' = .suspended → phase = .leaving ∨ phase = .suspended)
    (saw : phase' = .leaving → phase = .leaving) : Inv t phase' where
  stands := stands
  past r positive less := by
    rw [round] at less
    rw [placed r (Nat.ne_of_lt less)]
    exact inv.past r positive less
  future r out := by
    rw [round] at out
    rcases out with after | rfl
    · rw [placed r (Nat.ne_of_gt after)]
      exact inv.future r (.inl after)
    · rcases eq_or_ne s.round 0 with none | some
      · exact zero none
      · rw [placed 0 some.symm]
        exact inv.future 0 (.inr rfl)
  begun := fun away => round ▸ begun away
  single := same ▸ inv.single
  answered left := by
    have unanswered := inv.answered (answered left)
    unfold Answered at unanswered ⊢
    rw [same, round]
    exact unanswered
  tags w r tag := by
    rw [round]
    rw [same] at tag
    exact inv.tags w r tag
  saw w here left := by
    rw [same, round] at here
    exact inv.saw w here (saw left)

theorem Stands.placing_same (stands : Stands s phase) {phase' : Phase}
    (same : t.resume = s.resume) (kept : phase = .placing ↔ phase' = .placing) :
    Placing t ↔ phase' = .placing := by
  unfold Placing
  rw [same]
  exact stands.placing.trans kept

theorem Inv.beginSuspend (inv : Inv s phase) (here : s.fiber = .running) :
    ∃ phase', Inv { s with
      status := .wantsSuspend
      fiber := .leaving
      returning := .notYet
      round := s.round + 1 } phase' := by
  have stands := inv.stands
  have fits := stands.fits
  rw [here] at fits
  obtain rfl : phase = .running := by
    cases phase <;> simp [Phase.Fits] at fits ⊢
  refine ⟨.leaving, ?_⟩
  constructor
  case stands =>
    exact {
      status := rfl
      fits := .inl ⟨rfl, rfl⟩
      pending := stands.pending
      placing := stands.placing_same rfl (by simp)
      placed := fun _ => inv.future (s.round + 1) (.inl (Nat.lt_succ_self _)) }
  case past =>
    intro r positive less
    rcases Nat.lt_succ_iff_lt_or_eq.mp less with before | rfl
    · exact inv.past r positive before
    · exact stands.placed positive
  case future =>
    intro r out
    exact inv.future r (out.imp_left fun after => Nat.lt_of_succ_lt after)
  case begun => exact fun _ => Nat.succ_pos _
  case single => exact inv.single
  case answered =>
    rintro - ⟨w, here⟩
    have bound := inv.tags w (s.round + 1) (.inr (.inr (.inr (.inr here))))
    omega
  case tags => exact fun w r tag => Nat.le_succ_of_le (inv.tags w r tag)
  case saw =>
    intro w here
    have bound := inv.tags w (s.round + 1) (.inr (.inl here))
    omega

theorem Inv.switchOut (inv : Inv s phase) (here : s.fiber = .leaving) :
    Inv { s with fiber := .out, returning := .load } phase := by
  have stands := inv.stands
  have fits := stands.fits
  rw [here] at fits
  refine inv.fiber rfl rfl (fun _ => inv.begun (by rw [here]; simp)) ⟨stands.status, ?_,
    stands.pending, stands.placing, stands.placed⟩ (fun _ _ => rfl)
    (fun _ => inv.future 0 (.inr rfl)) id id
  cases phase <;> simp [Phase.Fits] at fits ⊢

theorem Inv.run (inv : Inv s phase) (here : s.pending ≠ 0) :
    ∃ phase', Inv { s with
      status := .running, fiber := .running, pending := s.pending - 1 } phase' := by
  have stands := inv.stands
  have pending := stands.pending
  obtain rfl : phase = .queued := by
    by_contra other
    rw [if_neg other] at pending
    exact here pending
  rw [if_pos rfl] at pending
  have fits := stands.fits
  refine ⟨.running, inv.fiber rfl rfl (fun absurd => (absurd rfl).elim) ⟨rfl, ⟨rfl, fits.2⟩, ?_,
    stands.placing_same rfl (by simp), stands.placed⟩ (fun _ _ => rfl)
    (fun _ => inv.future 0 (.inr rfl)) (by simp) (by simp)⟩
  rw [pending]
  rfl

/-! ## `OnFiberReturned` -/

theorem Inv.returnStep (inv : Inv s phase) (stepped : returnStep s = some t) :
    ∃ phase', Inv t phase' := by
  have stands := inv.stands
  have fits := stands.fits
  have status := stands.status
  have zero : s.round = 0 → s.placed 0 = 0 := fun _ => inv.future 0 (.inr rfl)
  unfold Fiber.returnStep at stepped
  cases here : s.returning with
  | notYet | done =>
    rw [here] at stepped
    cases stepped
  | load =>
    rw [here] at stepped fits
    have out : s.fiber = .out := by cases phase <;> simp [Phase.Fits] at fits <;> exact fits
    have begun := inv.begun (by rw [out]; simp)
    refine ⟨phase, ?_⟩
    obtain rfl : t = { s with returning := .exchange } := by
      dsimp only at stepped
      split at stepped
      · cases stepped
      · cases stepped
      · exact (Option.some.inj stepped).symm
    refine inv.fiber rfl rfl (fun _ => begun) ⟨status, ?_, stands.pending, stands.placing,
      stands.placed⟩ (fun _ _ => rfl) zero id id
    cases phase <;> simp [Phase.Fits] at fits ⊢ <;> exact fits
  | exchange =>
    rw [here] at stepped fits
    have out : s.fiber = .out := by cases phase <;> simp [Phase.Fits] at fits <;> exact fits
    have begun := inv.begun (by rw [out]; simp)
    cases phase with
    | running | returning | suspended | placing | queued => simp [Phase.Fits] at fits
    | leaving =>
      have wants : s.status = .wantsSuspend := status
      rw [if_pos wants] at stepped
      cases stepped
      exact ⟨.suspended, inv.fiber rfl rfl (fun _ => begun) ⟨rfl, ⟨out, rfl⟩, stands.pending,
        stands.placing_same rfl (by simp), stands.placed⟩ (fun _ _ => rfl) zero (by simp)
        (by simp)⟩
    | signaled =>
      have signaled : s.status = .suspendSignaled := status
      rw [if_neg (by rw [signaled]; simp), if_pos signaled] at stepped
      cases stepped
      exact ⟨.signaled, inv.fiber rfl rfl (fun _ => begun) ⟨status, .inr ⟨out, .inr (.inr rfl)⟩,
        stands.pending, stands.placing, stands.placed⟩ (fun _ _ => rfl) zero id id⟩
  | store =>
    rw [here] at stepped fits
    cases stepped
    obtain ⟨rfl, out⟩ : phase = .signaled ∧ s.fiber = .out := by
      cases phase <;> simp [Phase.Fits] at fits ⊢
      exact fits
    have begun := inv.begun (by rw [out]; simp)
    exact ⟨.returning, inv.fiber rfl rfl (fun _ => begun) ⟨rfl, ⟨out, rfl⟩, stands.pending,
      stands.placing_same rfl (by simp), stands.placed⟩ (fun _ _ => rfl) zero (by simp)
      (by simp)⟩
  | place =>
    rw [here] at stepped fits
    cases stepped
    obtain ⟨rfl, out⟩ : phase = .returning ∧ s.fiber = .out := by
      cases phase <;> simp [Phase.Fits] at fits ⊢
      exact fits
    have begun := inv.begun (by rw [out]; simp)
    have placed := stands.placed begun
    have pending := stands.pending
    refine ⟨.queued, inv.fiber rfl rfl (fun _ => begun) ⟨status, ⟨out, rfl⟩, ?_,
      stands.placing_same rfl (by simp), fun _ => ?_⟩
      (fun r other => Function.update_of_ne other _ _) (fun none => ?_) (by simp) (by simp)⟩
    · simp only [State.place, pending]
      rfl
    · simp only [State.place, Function.update_self, placed]
      rfl
    · omega

/-! ## `Resume` -/

theorem Placing_setResume (s : State) (w : Nat) (pc : ResumePc) (was : ∀ r, s.resume w ≠ .place r)
    (is : ∀ r, pc ≠ .place r) : Placing (s.setResume w pc) ↔ Placing s := by
  constructor
  · rintro ⟨v, r, here⟩
    simp only [State.setResume] at here
    rcases eq_or_ne v w with rfl | other
    · rw [Function.update_self] at here
      exact absurd here (is r)
    · rw [Function.update_of_ne other] at here
      exact ⟨v, r, here⟩
  · rintro ⟨v, r, here⟩
    rcases eq_or_ne v w with rfl | other
    · exact absurd here (was r)
    · exact ⟨v, r, by simp only [State.setResume, Function.update_of_ne other]; exact here⟩

/-- A `Resume` call moves, and the status may. -/
theorem Inv.resumed (inv : Inv s phase) {phase' : Phase} {w : Nat} (pc : ResumePc)
    (resume : t.resume = Function.update s.resume w pc) (fiber : t.fiber = s.fiber)
    (round : t.round = s.round) (stands : Stands t phase')
    (placed : ∀ r, r ≠ s.round ∨ s.round = 0 → t.placed r = s.placed r)
    (alone : ∀ r, pc = .place r → ¬ Placing s)
    (tag : ∀ r, pc = .load r ∨ pc = .exchangeSuspended r ∨ pc = .exchangeWants r ∨
      pc = .place r ∨ pc = .returned r → r ≤ s.round)
    (answered : phase' = .leaving ∨ phase' = .suspended →
      pc ≠ .returned s.round ∧ (phase = .leaving ∨ phase = .suspended))
    (saw : phase' = .leaving → pc ≠ .exchangeSuspended s.round ∧ phase = .leaving) :
    Inv t phase' where
  stands := stands
  past r positive less := by
    rw [round] at less
    rw [placed r (.inl (Nat.ne_of_lt less))]
    exact inv.past r positive less
  future r out := by
    rw [round] at out
    rw [placed r ?_]
    · exact inv.future r out
    · rcases out with after | rfl
      · exact .inl (Nat.ne_of_gt after)
      · rcases eq_or_ne s.round 0 with none | some
        · exact .inr none
        · exact .inl some.symm
  begun away := by
    rw [round]
    exact inv.begun (fiber ▸ away)
  single v v' r r' mine yours := by
    rw [resume] at mine yours
    rcases eq_or_ne w v with rfl | other <;> rcases eq_or_ne w v' with rfl | other'
    · rfl
    · rw [Function.update_self] at mine
      rw [Function.update_of_ne other'.symm] at yours
      exact absurd ⟨v', r', yours⟩ (alone r mine)
    · rw [Function.update_self] at yours
      rw [Function.update_of_ne other.symm] at mine
      exact absurd ⟨v, r, mine⟩ (alone r' yours)
    · rw [Function.update_of_ne other.symm] at mine
      rw [Function.update_of_ne other'.symm] at yours
      exact inv.single v v' r r' mine yours
  answered left := by
    rintro ⟨v, here⟩
    rw [resume, round] at here
    rcases eq_or_ne v w with rfl | other
    · rw [Function.update_self] at here
      exact (answered left).1 here
    · rw [Function.update_of_ne other] at here
      exact inv.answered (answered left).2 ⟨v, here⟩
  tags v r here := by
    rw [round]
    rw [resume] at here
    rcases eq_or_ne v w with rfl | other
    · rw [Function.update_self] at here
      exact tag r here
    · rw [Function.update_of_ne other] at here
      exact inv.tags v r here
  saw v here left := by
    rw [resume, round] at here
    rcases eq_or_ne v w with rfl | other
    · rw [Function.update_self] at here
      exact (saw left).1 here
    · rw [Function.update_of_ne other] at here
      exact inv.saw v here (saw left).2

/-- Only a `Resume` call's place changes, and it has nothing to do with placing. -/
theorem Inv.setResume (inv : Inv s phase) {w : Nat} {pc : ResumePc}
    (was : ∀ r, s.resume w ≠ .place r) (is : ∀ r, pc ≠ .place r)
    (tag : ∀ r, pc = .load r ∨ pc = .exchangeSuspended r ∨ pc = .exchangeWants r ∨
      pc = .returned r → r ≤ s.round)
    (answered : phase = .leaving ∨ phase = .suspended → pc ≠ .returned s.round)
    (saw : phase = .leaving → pc ≠ .exchangeSuspended s.round) : Inv (s.setResume w pc) phase := by
  have stands := inv.stands
  refine inv.resumed pc rfl rfl rfl ⟨stands.status, stands.fits, stands.pending,
    (Placing_setResume s _ _ was is).trans stands.placing, stands.placed⟩ (fun _ _ => rfl)
    (fun r absurd' => absurd absurd' (is r)) (fun r here => ?_)
    (fun left => ⟨answered left, left⟩) (fun left => ⟨saw left, left⟩)
  rcases here with here | here | here | here | here
  · exact tag r (.inl here)
  · exact tag r (.inr (.inl here))
  · exact tag r (.inr (.inr (.inl here)))
  · exact absurd here (is r)
  · exact tag r (.inr (.inr (.inr here)))

theorem Inv.call (inv : Inv s phase) {w : Nat} (here : s.resume w = .notCalled) :
    Inv (s.setResume w (.load s.round)) phase := by
  refine inv.setResume (by simp [here]) (by simp) (fun r tag => ?_) (by simp) (by simp)
  simp only [ResumePc.load.injEq, reduceCtorEq, or_false] at tag
  omega

theorem Inv.resumeStep (inv : Inv s phase) {w : Nat} (stepped : resumeStep s w = some t) :
    ∃ phase', Inv t phase' := by
  have stands := inv.stands
  have status := stands.status
  unfold Fiber.resumeStep at stepped
  cases here : s.resume w with
  | notCalled | returned _ =>
    rw [here] at stepped
    cases stepped
  | load r =>
    have tag : r ≤ s.round := inv.tags w r (.inl here)
    rw [here] at stepped
    dsimp only at stepped
    split at stepped
    · rename_i suspended
      cases stepped
      refine ⟨phase, inv.setResume (by simp [here]) (by simp) (by simpa using tag) (by simp)
        fun left => ?_⟩
      rw [left, suspended] at status
      cases status
    · cases stepped
      exact ⟨phase, inv.setResume (by simp [here]) (by simp) (by simpa using tag) (by simp)
        (by simp)⟩
    · rename_i awake wants
      cases stepped
      refine ⟨phase, inv.setResume (by simp [here]) (by simp) (by simpa using tag) (fun left => ?_)
        (by simp)⟩
      rcases left with left | left
      · exact absurd (status.trans (by rw [left]; rfl)) wants
      · exact absurd (status.trans (by rw [left]; rfl)) awake
  | exchangeSuspended r =>
    have tag : r ≤ s.round := inv.tags w r (.inr (.inl here))
    rw [here] at stepped
    dsimp only at stepped
    split at stepped
    · rename_i suspended
      cases stepped
      obtain rfl : phase = .suspended := by
        rw [suspended] at status
        cases phase <;> cases status
        rfl
      have fits := stands.fits
      have begun := inv.begun (by rw [fits.1]; simp)
      refine ⟨.placing, inv.resumed (.place r) rfl rfl rfl ⟨rfl, fits, stands.pending, ?_,
        stands.placed⟩ (fun _ _ => rfl) (fun _ _ => ?_) (by simpa using tag) (by simp) (by simp)⟩
      · exact ⟨fun _ => rfl, fun _ => ⟨w, r, Function.update_self w _ _⟩⟩
      · rw [stands.placing]
        simp
    · rename_i awake
      cases stepped
      refine ⟨phase, inv.setResume (by simp [here]) (by simp) (by simpa using tag) (fun left => ?_)
        (by simp)⟩
      rcases left with left | left
      · -- it saw the suspension, in an earlier round
        rintro same
        cases same
        exact inv.saw w here left
      · exact absurd (status.trans (by rw [left]; rfl)) awake
  | place r =>
    have tag : r ≤ s.round := inv.tags w r (.inr (.inr (.inr (.inl here))))
    rw [here] at stepped
    cases stepped
    obtain rfl : phase = .placing := stands.placing.mp ⟨w, r, here⟩
    have fits := stands.fits
    have begun := inv.begun (by rw [fits.1]; simp)
    have pending := stands.pending
    have placed := stands.placed begun
    refine ⟨.queued, inv.resumed (.returned r) rfl rfl rfl ⟨status, fits, ?_, ?_, fun _ => ?_⟩
      (fun j other => ?_) (by simp) (by simpa using tag) (by simp) (by simp)⟩
    · simp only [State.setResume, State.place, pending]
      rfl
    · -- it was the only one
      constructor
      · rintro ⟨v, j, other⟩
        simp only [State.setResume, State.place] at other
        rcases eq_or_ne v w with rfl | apart
        · rw [Function.update_self] at other
          cases other
        · rw [Function.update_of_ne apart] at other
          exact absurd (inv.single v w j r other here) apart
      · simp
    · simp only [State.setResume, State.place, Function.update_self, placed]
      rfl
    · rcases other with other | none
      · exact Function.update_of_ne other _ _
      · omega
  | exchangeWants r =>
    have tag : r ≤ s.round := inv.tags w r (.inr (.inr (.inl here)))
    rw [here] at stepped
    dsimp only at stepped
    split at stepped
    · rename_i wants
      cases stepped
      obtain rfl : phase = .leaving := by
        rw [wants] at status
        cases phase <;> cases status
        rfl
      have fits := stands.fits
      refine ⟨.signaled, inv.resumed (.returned r) rfl rfl rfl ⟨rfl, ?_, stands.pending, ?_,
        stands.placed⟩ (fun _ _ => rfl) (by simp) (by simpa using tag) (by simp) (by simp)⟩
      · exact fits.imp_right fun out => ⟨out.1, out.2.imp_right .inl⟩
      · have same := Placing_setResume { s with status := .suspendSignaled } w
          (.returned r) (by simp [here]) (by simp)
        exact same.trans (stands.placing.trans (by simp))
    · cases stepped
      exact ⟨phase, inv.setResume (by simp [here]) (by simp) (by simpa using tag) (by simp)
        (by simp)⟩

/-! ## Every run -/

theorem Inv.step (inv : Inv s phase) (stepped : step s a = some t) : ∃ phase', Inv t phase' := by
  cases a with
  | beginSuspend =>
    simp only [Fiber.step] at stepped
    split at stepped
    · rename_i here
      cases stepped
      exact inv.beginSuspend here
    · cases stepped
  | switchOut =>
    simp only [Fiber.step] at stepped
    split at stepped
    · rename_i here
      cases stepped
      exact ⟨phase, inv.switchOut here⟩
    · cases stepped
  | onFiberReturned => exact inv.returnStep stepped
  | run =>
    simp only [Fiber.step] at stepped
    split at stepped
    · rename_i here
      cases stepped
      exact inv.run here
    · cases stepped
  | call w =>
    simp only [Fiber.step] at stepped
    split at stepped
    · rename_i here
      cases stepped
      exact ⟨phase, inv.call here.2⟩
    · cases stepped
  | resume w => exact inv.resumeStep stepped

/-- The handshake places the task as `Placed` says, whenever the `Resume` calls come. -/
theorem handshake_placed {s : State} (reach : Reach step anyStep initial s) : Placed s := by
  have inv : ∃ phase, Inv s phase := by
    refine reach.invariant (I := fun s => ∃ phase, Inv s phase) ⟨_, initial_inv⟩ ?_
    rintro s t a ⟨phase, inv⟩ - stepped
    exact inv.step stepped
  obtain ⟨phase, inv⟩ := inv
  exact inv.placed

/-- Two calls meet after the switch-out: one has moved the fiber to `ready`, and the other has
found it so and returned. -/
def overtakingLabels : List Label :=
  [.beginSuspend, .call 0, .call 1, .switchOut, .onFiberReturned, .onFiberReturned, .resume 0,
    .resume 0, .resume 1]

def overtaking : State := (run step anyStep initial overtakingLabels).getD initial

theorem overtaking_placed : Placed overtaking :=
  handshake_placed (Reach.of_isSome overtakingLabels (by decide +kernel))

/-- A `Resume` of the round and `OnFiberReturned` are through, and the task is in no queue. -/
theorem answered_not_placed :
    Reach step anyStep initial overtaking ∧ Answered overtaking 1 ∧ Returned overtaking 1 ∧
      overtaking.placed 1 = 0 :=
  ⟨Reach.of_isSome overtakingLabels (by decide +kernel), ⟨1, by decide +kernel⟩,
    .inr ⟨by decide +kernel, by decide +kernel⟩, by decide +kernel⟩

end JLibSched.Fiber
