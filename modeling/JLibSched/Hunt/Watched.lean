import JLibSched.Hunt.Model

/-!
# Somebody is always looking

While there is no hunter, whoever is left parked is somebody's business: the last hunter is still
looking for a worker to wake, some worker is on its way to the hunt or away from it, or a parked
worker has been taken off the stack and will be woken.  When a `LeaveHunt` finds the stack empty,
the parked workers have all been taken off it.

A worker blocks only over a count that is not zero, and it is armed by then; so it stays armed until
a `PopIdleWorker` disarms it, which then finds it parked and returns it.
-/

namespace JLibSched.Hunt

open Transition
open Park (Word)

variable {n : Nat} {s t : State n} {l : List (Fin n)} {a : Label n} {q : Fin n} {p : Nat}

/-! ## Invariant -/

/-- How much of the count is the worker's. -/
def Phase.weight (phase : Phase) : Nat := if phase.Searches then 1 else 0

theorem Phase.Passing.weight {phase : Phase} (passing : phase.Passing) : phase.weight = 0 := by
  cases phase with
  | hunting | tryLeave => exact passing.elim
  | _ => rfl

/-- The worker is in one of its calls on the stack. -/
def Phase.InCall : Phase → Prop
  | .registering | .undoing | .unregistering => True
  | _ => False

/-- The word may say that the worker is parked. -/
def Phase.Published : Phase → Prop
  | .register | .registering | .recheck | .recheckSearching | .undo | .undoing | .undoWord
  | .blocked => True
  | _ => False

theorem Phase.Published.passing {phase : Phase} (published : phase.Published)
    (running : phase ≠ .blocked) : phase.Passing := by
  cases phase with
  | register | registering | recheck | recheckSearching | undo | undoing | undoWord => trivial
  | blocked => exact absurd rfl running
  | _ => exact published.elim

/-- The worker has armed its node, and has not disarmed it. -/
def Phase.Registered : Phase → Prop
  | .registering | .recheck | .recheckSearching | .blocked => True
  | _ => False

/-- The `PopIdleWorker` is under way. -/
def Moving : Idle.PopPc n → Prop
  | .idle | .returned _ => False
  | _ => True

/-- The `PopIdleWorker` has disarmed the worker. -/
def Took (q : Fin n) : Idle.PopPc n → Prop
  | .subCount q' | .checkState q' | .returned (some q') => q' = q
  | _ => False

def State.Sleeps (s : State n) (q : Fin n) : Prop := s.phase q = .blocked ∧ s.word q = .parked

/-- Some call has disarmed the worker, and has not woken it. -/
def State.Taken (s : State n) (q : Fin n) : Prop := ∃ p, s.Busy p ∧ Took q (s.stack.popper p)

/-- What will bring a parked worker back. -/
inductive State.Responsible (s : State n) : Prop
  | handing (q : Fin n) (here : s.phase q = .handoff) (moving : Moving (s.stack.popper q))
  | passing (q : Fin n) (transit : s.Transit q)
  | taken (q : Fin n) (sleeps : s.Sleeps q) (taken : s.Taken q)
  | removing (q : Fin n) (sleeps : s.Sleeps q) (armed : s.stack.armed q = true)
      (removing : Idle.Removing s.stack q)

structure Inv (s : State n) (l : List (Fin n)) : Prop where
  stack : Idle.Inv s.stack l
  parked : ∀ q, s.stack.parked q = decide (s.word q = .parked)
  calls : ∀ q, ¬ (s.phase q).InCall → s.stack.worker q = .idle
  published : ∀ q, s.word q = .parked → (s.phase q).Published
  moving : ∀ p, Moving (s.stack.popper p) → s.Busy p
  taken : ∀ q, (s.phase q).Registered → s.word q = .parked → s.stack.armed q = false → s.Taken q
  counted : s.searching = ∑ q, (s.phase q).weight
  responsible : s.searching = 0 → (∃ q, s.Sleeps q) → s.Responsible

theorem initial_inv : Inv (initial n) [] where
  stack := Idle.initial_inv
  parked q := rfl
  calls q _ := rfl
  published q absurd := by cases absurd
  moving p absurd := absurd.elim
  taken q absurd := absurd.elim
  counted := by
    simp [initial, Phase.weight, Phase.Searches]
  responsible _ sleeper := by
    obtain ⟨q, blocked, -⟩ := sleeper
    cases blocked

theorem Took.carries {pc : Idle.PopPc n} (took : Took q pc) : Carries q pc := by
  cases pc with
  | returned r =>
    cases r with
    | some q' => exact took
    | none => exact took.elim
  | subCount | checkState => exact took
  | idle | loadHead | loadNext | swap | clearLinked | takeArmed => exact took.elim

theorem Inv.watched (inv : Inv s l) : s.Watched where
  counts := by
    rw [inv.counted, Finset.card_filter]
    rfl
  nobody settled zero q blocked := by
    have parked : s.word q = .parked := by
      by_contra other
      exact settled.transit q (.inr ⟨blocked, other⟩)
    cases inv.responsible zero ⟨q, blocked, parked⟩ with
    | handing q' here _ => exact settled.leaving q' here
    | passing q' transit => exact settled.transit q' transit
    | taken q' _ taken =>
      obtain ⟨p, busy, took⟩ := taken
      exact settled.popping p q' busy took.carries
    | removing q' _ _ removing =>
      obtain ⟨p, clearing | taking⟩ := removing
      · refine settled.popping p q' (inv.moving p ?_) ?_ <;> rw [clearing] <;> trivial
      · refine settled.popping p q' (inv.moving p ?_) ?_ <;> rw [taking] <;> trivial

/-! ## A worker moves -/

/-- A worker moves and is on its way, or somebody hunts. -/
def Keeps (t : State n) (q : Fin n) : Prop := t.searching ≠ 0 ∨ t.Transit q

theorem Keeps.responsible (keeps : Keeps t q) (zero : t.searching = 0) : t.Responsible :=
  .passing q (keeps.resolve_left fun hunts => hunts zero)

/-- The count goes with the phases. -/
theorem counted_go (counted : s.searching = ∑ q, (s.phase q).weight) (phase : Phase)
    (searching : t.searching + (s.phase q).weight = s.searching + phase.weight)
    (phases : t.phase = Function.update s.phase q phase) :
    t.searching = ∑ q, (t.phase q).weight := by
  have sum := sum_update Phase.weight s.phase q phase
  rw [phases]
  omega

/-- Who is in `LeaveHunt` or places work stays in it. -/
theorem Busy.congr (busy : s.Busy p) (placing : t.placing = s.placing)
    (handoff : ∀ q, s.phase q = .handoff → t.phase q = .handoff) : t.Busy p := by
  rcases busy with ⟨q, rfl, here⟩ | ⟨k, rfl, here⟩
  · exact .inl ⟨q, rfl, handoff q here⟩
  · exact .inr ⟨k, rfl, placing ▸ here⟩

/-- A worker changes its place, its word and its node, and the count. -/
theorem Inv.workerMoves (inv : Inv s l) {l' : List (Fin n)} (phase : Phase) (word : Word)
    (stack : Idle.Inv t.stack l')
    (phases : t.phase = Function.update s.phase q phase)
    (words : t.word = Function.update s.word q word)
    (parked : t.stack.parked = Function.update s.stack.parked q (decide (word = .parked)))
    (workers : ∀ r, r ≠ q → t.stack.worker r = s.stack.worker r)
    (armed : ∀ r, r ≠ q → t.stack.armed r = s.stack.armed r)
    (popper : t.stack.popper = s.stack.popper) (placing : t.placing = s.placing)
    (searching : t.searching + (s.phase q).weight = s.searching + phase.weight)
    (handoff : s.phase q ≠ .handoff)
    (calls : ¬ phase.InCall → t.stack.worker q = .idle)
    (published : word = .parked → phase.Published)
    (taken : phase.Registered → word = .parked → t.stack.armed q = false → s.Taken q)
    (keeps : Keeps t q) : Inv t l' := by
  have at_q : t.phase q = phase := by rw [phases, Function.update_self]
  have word_q : t.word q = word := by rw [words, Function.update_self]
  have apart (r : Fin n) (other : r ≠ q) : t.phase r = s.phase r ∧ t.word r = s.word r := by
    rw [phases, words, Function.update_of_ne other, Function.update_of_ne other]
    exact ⟨rfl, rfl⟩
  have busy (p : Nat) (busy : s.Busy p) : t.Busy p := by
    refine Busy.congr busy placing fun r here => ?_
    have other : r ≠ q := by
      rintro rfl
      exact handoff here
    rw [(apart r other).1, here]
  have takes (r : Fin n) (taken : s.Taken r) : t.Taken r := by
    obtain ⟨p, isBusy, took⟩ := taken
    exact ⟨p, busy p isBusy, by rw [popper]; exact took⟩
  constructor
  case stack => exact stack
  case parked =>
    intro r
    rw [parked, words]
    rcases eq_or_ne r q with rfl | other
    · rw [Function.update_self, Function.update_self]
    · rw [Function.update_of_ne other, Function.update_of_ne other]
      exact inv.parked r
  case calls =>
    intro r outside
    rcases eq_or_ne r q with rfl | other
    · rw [at_q] at outside
      exact calls outside
    · rw [(apart r other).1] at outside
      rw [workers r other]
      exact inv.calls r outside
  case published =>
    intro r isParked
    rcases eq_or_ne r q with rfl | other
    · rw [word_q] at isParked
      rw [at_q]
      exact published isParked
    · rw [(apart r other).2] at isParked
      rw [(apart r other).1]
      exact inv.published r isParked
  case moving =>
    intro p moving
    rw [popper] at moving
    exact busy p (inv.moving p moving)
  case taken =>
    intro r registered isParked disarmed
    rcases eq_or_ne r q with rfl | other
    · rw [at_q] at registered
      rw [word_q] at isParked
      exact takes r (taken registered isParked disarmed)
    · rw [(apart r other).1] at registered
      rw [(apart r other).2] at isParked
      rw [armed r other] at disarmed
      exact takes r (inv.taken r registered isParked disarmed)
  case counted => exact counted_go inv.counted phase searching phases
  case responsible => exact fun zero _ => keeps.responsible zero

/-- A worker changes its place only. -/
theorem Inv.goes (inv : Inv s l) {old phase : Phase} (here : s.phase q = old)
    (weight : phase.weight = old.weight) (handoff : old ≠ .handoff)
    (calls : old.InCall → s.stack.worker q = .idle)
    (published : s.word q = .parked → old.Published → phase.Published)
    (registered : phase.Registered → old.Registered)
    (keeps : s.searching ≠ 0 ∨ phase.Passing) : Inv (s.go q phase) l := by
  subst here
  refine inv.workerMoves _ _ inv.stack rfl (Function.update_eq_self q s.word).symm ?_
    (fun _ _ => rfl) (fun _ _ => rfl) rfl rfl ?_ handoff (fun _ => ?_)
    (fun isParked => published isParked (inv.published q isParked)) ?_ ?_
  · simp only [State.go]
    rw [← inv.parked q, Function.update_eq_self]
  · simp only [State.go]
    omega
  · by_cases within : (s.phase q).InCall
    · exact calls within
    · exact inv.calls q within
  · intro isRegistered isParked disarmed
    exact inv.taken q (registered isRegistered) isParked disarmed
  · refine keeps.imp_right fun passing => .inl ?_
    simp only [State.go, Function.update_self]
    exact passing

/-- The stack with another word of a worker. -/
theorem Inv.setParked (inv : Inv s l) (value : Bool) :
    Idle.Inv { s.stack with parked := Function.update s.stack.parked q value } l := by
  obtain ⟨l', kept⟩ := inv.stack.step (a := .setState q value) trivial rfl
  have same : l' = l := kept.leads.unique inv.stack.leads
  exact same ▸ kept

/-- A worker that does not hunt exchanges its word, and is on its way then. -/
theorem Inv.exchange (inv : Inv s l) {expected desired : Word} {old success failure : Phase}
    (here : s.phase q = old) (away : old.weight = 0) (handoff : old ≠ .handoff)
    (outside : ¬ old.InCall) (success_published : desired = .parked → success.Published)
    (failure_published : s.word q ≠ expected → s.word q = .parked → old.Published →
      failure.Published)
    (success_registered : ¬ success.Registered) (failure_registered : ¬ failure.Registered)
    (success_passing : success.Passing) (failure_passing : failure.Passing) :
    Inv (s.exchange q expected desired success failure) l := by
  unfold State.exchange
  split
  · subst here
    refine inv.workerMoves _ _ (inv.setParked _) rfl rfl rfl (fun _ _ => rfl) (fun _ _ => rfl) rfl
      rfl ?_ handoff (fun _ => inv.calls q outside) success_published
      (fun registered => absurd registered success_registered) (.inr (.inl ?_))
    · simp only [State.go, State.setWord]
      rw [away, success_passing.weight]
    · simp only [State.go, Function.update_self]
      exact success_passing
  · rename_i other
    exact inv.goes here (failure_passing.weight.trans away.symm) handoff
      (fun within => absurd within outside) (failure_published other)
      (fun registered => absurd registered failure_registered) (.inr failure_passing)

/-! ## A worker's calls on the stack -/

theorem worker_frame {x : Idle.State n} {fails : Bool}
    (stepped : Idle.step s.stack (.worker q fails) = some x) :
    x.parked = s.stack.parked ∧ x.armed = s.stack.armed ∧ x.popper = s.stack.popper ∧
      ∀ r, r ≠ q → x.worker r = s.stack.worker r := by
  simp only [Idle.step, Idle.workerStep] at stepped
  cases here : s.stack.worker q with
  | idle =>
    simp only [here] at stepped
    cases stepped
  | checkLinked | swap =>
    simp only [here] at stepped
    split at stepped <;> cases stepped <;>
      exact ⟨rfl, rfl, rfl, fun r other => Function.update_of_ne other _ _⟩
  | mark | loadHead | setNext =>
    simp only [here] at stepped
    obtain rfl := Option.some.inj stepped
    exact ⟨rfl, rfl, rfl, fun r other => Function.update_of_ne other _ _⟩
  | addCount | subCount =>
    simp only [here] at stepped
    obtain ⟨count, rfl⟩ : ∃ count, x = { s.stack with idleCount := count }.setWorker q .idle :=
      ⟨_, (Option.some.inj stepped).symm⟩
    exact ⟨rfl, rfl, rfl, fun r other => Function.update_of_ne other _ _⟩

/-- The call takes a step. -/
theorem Inv.callStep (inv : Inv s l) {fails : Bool} (within : (s.phase q).InCall)
    (passing : (s.phase q).Passing) (stepped : s.stackStep (.worker q fails) = some t) :
    ∃ l', Inv t l' := by
  obtain ⟨x, moved, rfl⟩ := Option.map_eq_some_iff.mp stepped
  obtain ⟨l', kept⟩ := inv.stack.step (a := .worker q fails) trivial moved
  obtain ⟨parked, armed, popper, workers⟩ := worker_frame moved
  refine ⟨l', inv.workerMoves (s.phase q) (s.word q) kept
    (Function.update_eq_self _ _).symm (Function.update_eq_self _ _).symm ?_ workers
    (fun r _ => congrFun armed r) popper rfl rfl ?_ (fun outside => absurd within outside)
    (inv.published q) ?_ (.inr (.inl passing))⟩
  · rw [← inv.parked q, Function.update_eq_self]
    exact parked
  · intro here
    rw [here] at within
    exact within
  · intro registered isParked disarmed
    rw [show x.armed = s.stack.armed from armed] at disarmed
    exact inv.taken q registered isParked disarmed

/-- `RegisterIdleWorker` arms the worker. -/
theorem Inv.register (inv : Inv s l) (here : s.phase q = .register)
    (stepped : ((s.stackStep (.register q)).map fun s => s.go q .registering) = some t) :
    ∃ l', Inv t l' := by
  obtain ⟨u, called, rfl⟩ := Option.map_eq_some_iff.mp stepped
  obtain ⟨x, moved, rfl⟩ := Option.map_eq_some_iff.mp called
  obtain ⟨l', kept⟩ := inv.stack.step (a := .register q) trivial moved
  simp only [Idle.step] at moved
  split at moved
  · cases moved
    refine ⟨l', inv.workerMoves _ (s.word q) kept rfl (Function.update_eq_self _ _).symm ?_
      (fun r other => Function.update_of_ne other _ _)
      (fun r other => Function.update_of_ne other _ _) rfl rfl ?_ (by simp [here])
      (fun outside => absurd trivial outside) (fun _ => trivial) ?_ (.inr (.inl ?_))⟩
    · rw [← inv.parked q]
      exact (Function.update_eq_self _ _).symm
    · simp [State.go, here, Phase.weight, Phase.Searches]
    · intro _ _ disarmed
      simp [State.go, Idle.State.setWorker] at disarmed
    · simp [State.go, Phase.Passing]
  · cases moved

/-- `UnregisterIdleWorker` disarms the worker, which is on its way back. -/
theorem Inv.unregister (inv : Inv s l) (phase : Phase) (here : (s.phase q).Passing)
    (within : phase.InCall) (passing : phase.Passing) (unregistered : ¬ phase.Registered)
    (published : s.word q = .parked → phase.Published)
    (stepped : ((s.stackStep (.unregister q)).map fun s => s.go q phase) = some t) :
    ∃ l', Inv t l' := by
  obtain ⟨u, called, rfl⟩ := Option.map_eq_some_iff.mp stepped
  obtain ⟨x, moved, rfl⟩ := Option.map_eq_some_iff.mp called
  obtain ⟨l', kept⟩ := inv.stack.step (a := .unregister q) trivial moved
  simp only [Idle.step] at moved
  split at moved
  · cases moved
    refine ⟨l', inv.workerMoves _ (s.word q) kept rfl (Function.update_eq_self _ _).symm ?_
      (fun r other => Function.update_of_ne other _ _)
      (fun r other => Function.update_of_ne other _ _) rfl rfl ?_ ?_
      (fun outside => absurd within outside) published
      (fun registered => absurd registered unregistered) (.inr (.inl ?_))⟩
    · rw [← inv.parked q]
      exact (Function.update_eq_self _ _).symm
    · simp only [State.go]
      rw [here.weight, passing.weight]
    · intro handing
      rw [handing] at here
      exact here
    · simp only [State.go, Function.update_self]
      exact passing
  · cases moved

/-! ## Steps in which nobody is parked or comes back -/

/-- The worker has no call on the stack, no publication and no node. -/
def Phase.Plain : Phase → Prop
  | .hunting | .handoff | .body => True
  | _ => False

theorem Phase.Plain.outside {phase : Phase} (plain : phase.Plain) :
    ¬ phase.InCall ∧ ¬ phase.Published ∧ ¬ phase.Registered ∧ ¬ phase.Passing ∧
      phase ≠ .blocked := by
  cases phase with
  | hunting | handoff | body => exact ⟨id, id, id, id, Phase.noConfusion⟩
  | _ => exact plain.elim

/-- The words are as before, and a worker that moves goes from one plain place to another. -/
structure Calm (s t : State n) : Prop where
  words : t.word = s.word
  phases : ∀ q, t.phase q = s.phase q ∨ (s.phase q).Plain ∧ (t.phase q).Plain

theorem Calm.sleeps (calm : Calm s t) : t.Sleeps q ↔ s.Sleeps q := by
  unfold State.Sleeps
  rw [calm.words]
  rcases calm.phases q with same | ⟨before, after⟩
  · rw [same]
  · exact iff_of_false (fun sleeps => after.outside.2.2.2.2 sleeps.1)
      fun sleeps => before.outside.2.2.2.2 sleeps.1

theorem Calm.transit (calm : Calm s t) (transit : s.Transit q) : t.Transit q := by
  rcases calm.phases q with same | ⟨before, -⟩
  · rw [State.Transit, same, calm.words]
    exact transit
  · rcases transit with passing | blocked
    · exact absurd passing before.outside.2.2.2.1
    · exact absurd blocked.1 before.outside.2.2.2.2

theorem Inv.calm (inv : Inv s l) (calm : Calm s t) {l' : List (Fin n)} (kept : Idle.Inv t.stack l')
    (parked : t.stack.parked = s.stack.parked) (worker : t.stack.worker = s.stack.worker)
    (moving : ∀ p, Moving (t.stack.popper p) → t.Busy p)
    (takes : ∀ q, s.word q = .parked → s.Taken q → t.Taken q)
    (disarms : ∀ q, t.stack.armed q = false → s.stack.armed q = false ∨ t.Taken q)
    (counted : t.searching = ∑ q, (t.phase q).weight)
    (responsible : t.searching = 0 → (∃ q, s.Sleeps q) → t.Responsible) : Inv t l' where
  stack := kept
  parked := by
    rw [parked, calm.words]
    exact inv.parked
  calls q outside := by
    rw [worker]
    refine inv.calls q fun within => ?_
    rcases calm.phases q with same | ⟨before, -⟩
    · exact outside (same ▸ within)
    · exact before.outside.1 within
  published q isParked := by
    have published := inv.published q (calm.words ▸ isParked)
    rcases calm.phases q with same | ⟨before, -⟩
    · exact same ▸ published
    · exact absurd published before.outside.2.1
  moving := moving
  taken q registered isParked disarmed := by
    have isParked : s.word q = .parked := calm.words ▸ isParked
    rcases calm.phases q with same | ⟨-, after⟩
    · rcases disarms q disarmed with before | taken
      · exact takes q isParked (inv.taken q (same ▸ registered) isParked before)
      · exact taken
    · exact absurd registered after.outside.2.2.1
  counted := counted
  responsible zero sleeper := responsible zero (sleeper.imp fun _ => calm.sleeps.mp)

/-! ## Calls of PopIdleWorker begin and end -/

/-- A thread of the stack is at work for one call only. -/
theorem Inv.resting (inv : Inv s l) (idle : ¬ s.Busy p) : ¬ Moving (s.stack.popper p) :=
  fun moving => idle (inv.moving p moving)

theorem Inv.wakes (inv : Inv s l) : Inv (s.setWord q .notified) l where
  stack := inv.setParked _
  parked r := by
    rcases eq_or_ne r q with rfl | other
    · simp [State.setWord]
    · simp [State.setWord, other, inv.parked r]
  calls := inv.calls
  published r isParked := by
    simp only [State.setWord] at isParked
    rcases eq_or_ne r q with rfl | other
    · rw [Function.update_self] at isParked
      cases isParked
    · rw [Function.update_of_ne other] at isParked
      exact inv.published r isParked
  moving := inv.moving
  taken r registered isParked disarmed := by
    simp only [State.setWord] at isParked
    rcases eq_or_ne r q with rfl | other
    · rw [Function.update_self] at isParked
      cases isParked
    · rw [Function.update_of_ne other] at isParked
      exact inv.taken r registered isParked disarmed
  counted := inv.counted
  responsible zero sleeper := by
    -- a sleeper that is woken is on its way
    have woken (r : Fin n) (sleeps : s.Sleeps r) (same : r = q) :
        (s.setWord q .notified).Transit r := by
      subst same
      refine .inr ⟨sleeps.1, ?_⟩
      simp [State.setWord]
    have others (r : Fin n) (sleeps : s.Sleeps r) (other : r ≠ q) :
        (s.setWord q .notified).Sleeps r :=
      ⟨sleeps.1, (Function.update_of_ne other _ _).trans sleeps.2⟩
    have asleep : ∃ r, s.Sleeps r := by
      obtain ⟨r, blocked, isParked⟩ := sleeper
      refine ⟨r, blocked, ?_⟩
      rcases eq_or_ne r q with rfl | other
      · simp [State.setWord] at isParked
      · exact (Function.update_of_ne other _ _).symm.trans isParked
    cases inv.responsible zero asleep with
    | handing r here moving => exact .handing r here moving
    | passing r transit =>
      refine .passing r (transit.imp_right fun ⟨blocked, awake⟩ => ⟨blocked, ?_⟩)
      rcases eq_or_ne r q with rfl | other
      · simp [State.setWord]
      · exact fun isParked => awake ((Function.update_of_ne other _ _).symm.trans isParked)
    | taken r sleeps taken =>
      rcases eq_or_ne r q with same | other
      · exact .passing r (woken r sleeps same)
      · exact .taken r (others r sleeps other) taken
    | removing r sleeps armed removing =>
      rcases eq_or_ne r q with same | other
      · exact .passing r (woken r sleeps same)
      · exact .removing r (others r sleeps other) armed removing

/-- A call has returned, and whom it returned has been woken. -/
theorem Inv.ends (inv : Inv s l) {r : Option (Fin n)} (returned : s.stack.popper p = .returned r)
    (woken : ∀ v, r = some v → s.word v ≠ .parked) (stack : t.stack = s.stack)
    (words : t.word = s.word) (searching : t.searching = s.searching)
    (phases : ∀ q, t.phase q = s.phase q ∨
      p = q ∧ s.phase q = .handoff ∧ t.phase q = .body)
    (busy : ∀ p', p' ≠ p → s.Busy p' → t.Busy p') : Inv t l := by
  have calm : Calm s t := by
    refine ⟨words, fun q => (phases q).imp_right ?_⟩
    rintro ⟨-, here, body⟩
    rw [here, body]
    exact ⟨trivial, trivial⟩
  have weighs (q : Fin n) : (t.phase q).weight = (s.phase q).weight := by
    rcases phases q with same | ⟨-, here, body⟩
    · rw [same]
    · rw [here, body]
      rfl
  -- whoever is parked is in another call
  have takes (q : Fin n) (isParked : s.word q = .parked) (taken : s.Taken q) : t.Taken q := by
    obtain ⟨p', isBusy, took⟩ := taken
    have apart : p' ≠ p := by
      rintro rfl
      rw [returned] at took
      cases r with
      | none => exact took
      | some v => exact woken v rfl (show s.word v = .parked from took ▸ isParked)
    exact ⟨p', busy p' apart isBusy, by rw [stack]; exact took⟩
  refine inv.calm calm (stack ▸ inv.stack) (by rw [stack]) (by rw [stack]) (fun p' moving => ?_)
    takes (fun q disarmed => .inl (stack ▸ disarmed)) ?_ fun zero sleeper => ?_
  · rw [stack] at moving
    refine busy p' ?_ (inv.moving p' moving)
    rintro rfl
    rw [returned] at moving
    exact moving
  · rw [searching, inv.counted]
    exact Finset.sum_congr rfl fun q _ => (weighs q).symm
  · cases inv.responsible (searching ▸ zero) sleeper with
    | handing q here moving =>
      refine .handing q ((phases q).elim (fun same => same.trans here) ?_) (stack ▸ moving)
      rintro ⟨rfl, -, -⟩
      rw [returned] at moving
      exact moving.elim
    | passing q transit => exact .passing q (calm.transit transit)
    | taken q here taken => exact .taken q (calm.sleeps.mpr here) (takes q here.2 taken)
    | removing q here armed removing =>
      exact .removing q (calm.sleeps.mpr here) (stack ▸ armed) (stack ▸ removing)

theorem Inv.notify (inv : Inv s l) (r : Option (Fin n)) : Inv (s.notify r) l := by
  cases r with
  | some v => exact inv.wakes
  | none => exact inv

/-- A call ends over whom it has woken. -/
theorem notify_woken {r : Option (Fin n)}
    (returned : s.stack.popper p = .returned r) :
    (s.notify r).stack.popper p = .returned r ∧ ∀ v, r = some v → (s.notify r).word v ≠ .parked := by
  cases r with
  | some v =>
    refine ⟨returned, ?_⟩
    rintro v' ⟨⟩
    simp [State.notify, State.setWord]
  | none => exact ⟨returned, nofun⟩

theorem notify_phase (r : Option (Fin n)) :
    (s.notify r).phase = s.phase ∧ (s.notify r).placing = s.placing := by
  cases r with
  | some v => exact ⟨rfl, rfl⟩
  | none => exact ⟨rfl, rfl⟩

theorem Inv.handed (inv : Inv s l) {r : Option (Fin n)} (here : s.phase q = .handoff)
    (returned : s.stack.popper q = .returned r) : Inv ((s.notify r).go q .body) l := by
  obtain ⟨still, woken⟩ := notify_woken returned
  have phases := (notify_phase (s := s) r).1
  refine (inv.notify r).ends still woken rfl rfl rfl (fun v => ?_) ?_
  · simp only [State.go]
    rcases eq_or_ne v q with rfl | other
    · exact .inr ⟨rfl, phases ▸ here, Function.update_self _ _ _⟩
    · exact .inl (Function.update_of_ne other _ _)
  · rintro p apart (⟨v, rfl, handing⟩ | placing)
    · have other : v ≠ q := fun same => apart (same ▸ rfl)
      exact .inl ⟨v, rfl, (Function.update_of_ne other _ _).trans handing⟩
    · exact .inr placing

theorem Inv.placed (inv : Inv s l) {k : Nat} {r : Option (Fin n)}
    (returned : s.stack.popper (n + k) = .returned r) :
    Inv { s.notify r with placing := Function.update s.placing k false } l := by
  obtain ⟨still, woken⟩ := notify_woken returned
  have placing := (notify_phase (s := s) r).2
  refine (inv.notify r).ends still woken rfl rfl rfl (fun v => .inl rfl) ?_
  rintro p apart (handing | ⟨k', rfl, isPlacing⟩)
  · exact .inl handing
  · have other : k' ≠ k := fun same => apart (same ▸ rfl)
    exact .inr ⟨k', rfl, (Function.update_of_ne other _ _).trans (placing ▸ isPlacing)⟩

/-- A call begins, and with it the search of the last hunter or of a thread that places work. -/
theorem Inv.starts (inv : Inv s l) {x : Idle.State n} (idle : ¬ s.Busy p)
    (begun : Idle.step s.stack (.pop p) = some x) (stack : t.stack = x)
    (words : t.word = s.word)
    (phases : ∀ q, t.phase q = s.phase q ∨ s.phase q = .hunting ∧ t.phase q = .handoff)
    (busy : ∀ p', p' = p ∨ s.Busy p' → t.Busy p')
    (counted : t.searching = ∑ q, (t.phase q).weight)
    (handing : t.searching = 0 → s.searching = 0 ∨ ∃ q : Fin n, p = q ∧ t.phase q = .handoff) :
    ∃ l', Inv t l' := by
  obtain ⟨l', kept⟩ := inv.stack.step (a := .pop p) trivial begun
  have popped : x = s.stack.setPopper p .loadHead := by
    simp only [Idle.step] at begun
    split at begun
    · exact (Option.some.inj begun).symm
    · exact (Option.some.inj begun).symm
    · cases begun
  subst popped
  have calm : Calm s t := by
    refine ⟨words, fun q => (phases q).imp_right ?_⟩
    rintro ⟨here, hands⟩
    rw [here, hands]
    exact ⟨trivial, trivial⟩
  have apart (p' : Nat) (other : p' ≠ p) : t.stack.popper p' = s.stack.popper p' := by
    rw [stack]
    exact Function.update_of_ne other _ _
  have begins : t.stack.popper p = .loadHead := by
    rw [stack]
    exact Function.update_self _ _ _
  have takes (q : Fin n) (taken : s.Taken q) : t.Taken q := by
    obtain ⟨p', isBusy, took⟩ := taken
    have other : p' ≠ p := fun same => idle (same ▸ isBusy)
    exact ⟨p', busy p' (.inr isBusy), (apart p' other).symm ▸ took⟩
  refine ⟨l', inv.calm calm (stack ▸ kept) (by rw [stack]; rfl) (by rw [stack]; rfl)
    (fun p' moving => ?_) (fun q _ => takes q) (fun q disarmed => .inl ?_) counted
    fun zero sleeper => ?_⟩
  · rcases eq_or_ne p' p with same | other
    · exact busy p' (.inl same)
    · rw [apart p' other] at moving
      exact busy p' (.inr (inv.moving p' moving))
  · rw [stack] at disarmed
    exact disarmed
  · rcases handing zero with before | ⟨q, rfl, here⟩
    · cases inv.responsible before sleeper with
      | handing q here moving =>
        have other : (q : Nat) ≠ p := fun same => idle (same ▸ .inl ⟨q, rfl, here⟩)
        refine .handing q ?_ ((apart q other).symm ▸ moving)
        rcases phases q with same | ⟨hunts, -⟩
        · exact same.trans here
        · rw [here] at hunts
          cases hunts
      | passing q transit => exact .passing q (calm.transit transit)
      | taken q here taken => exact .taken q (calm.sleeps.mpr here) (takes q taken)
      | removing q here armed removing =>
        obtain ⟨p', clears⟩ := removing
        have other : p' ≠ p := by
          rintro rfl
          refine inv.resting idle ?_
          rcases clears with clears | clears <;> rw [clears] <;> trivial
        refine .removing q (calm.sleeps.mpr here) (by rw [stack]; exact armed) ⟨p', ?_⟩
        rw [apart p' other]
        exact clears
    · exact .handing q here (begins.symm ▸ trivial)

/-! ## PopIdleWorker takes a step -/

/-- What a step of a call may do: it disarms only the worker it takes, and forgets a worker only
when that is not parked. -/
structure Pops (s : State n) (p : Nat) (x : Idle.State n) (pc : Idle.PopPc n) : Prop where
  parked : x.parked = s.stack.parked
  worker : x.worker = s.stack.worker
  popper : x.popper = Function.update s.stack.popper p pc
  moving : Moving (s.stack.popper p)
  disarms : ∀ q, x.armed q = false → s.stack.armed q = false ∨ Took q pc
  removes : ∀ q, s.stack.popper p = .clearLinked q ∨ s.stack.popper p = .takeArmed q →
    s.stack.armed q = true → x.armed q = true ∧ pc = .takeArmed q ∨ Took q pc
  arms : ∀ q, s.stack.armed q = true → x.armed q = true ∨ Took q pc
  takes : ∀ q, s.word q = .parked → Took q (s.stack.popper p) → Took q pc

theorem Inv.pops (inv : Inv s l) {x : Idle.State n} {pc : Idle.PopPc n} {l' : List (Fin n)}
    (kept : Idle.Inv x l') (pops : Pops s p x pc)
    (returns : Moving pc ∨ ∀ q, s.Sleeps q → State.Responsible { s with stack := x }) :
    Inv { s with stack := x } l' := by
  have apart (p' : Nat) (other : p' ≠ p) : x.popper p' = s.stack.popper p' := by
    rw [pops.popper]
    exact Function.update_of_ne other _ _
  have at_p : x.popper p = pc := by
    rw [pops.popper]
    exact Function.update_self _ _ _
  have takes (q : Fin n) (isParked : s.word q = .parked) (taken : s.Taken q) :
      State.Taken { s with stack := x } q := by
    obtain ⟨p', isBusy, took⟩ := taken
    refine ⟨p', isBusy, ?_⟩
    rcases eq_or_ne p' p with rfl | other
    · exact at_p.symm ▸ pops.takes q isParked took
    · exact (apart p' other).symm ▸ took
  have took (q : Fin n) (took : Took q pc) : State.Taken { s with stack := x } q :=
    ⟨p, inv.moving p pops.moving, at_p.symm ▸ took⟩
  have disarms (q : Fin n) (disarmed : x.armed q = false) :
      s.stack.armed q = false ∨ State.Taken { s with stack := x } q :=
    (pops.disarms q disarmed).imp_right (took q)
  refine inv.calm (t := { s with stack := x }) ⟨rfl, fun _ => .inl rfl⟩ kept pops.parked pops.worker
    (fun p' moving => ?_) takes disarms inv.counted fun zero sleeper => ?_
  · rcases eq_or_ne p' p with rfl | other
    · exact inv.moving p' pops.moving
    · exact inv.moving p' (apart p' other ▸ moving)
  · obtain ⟨r, sleeps⟩ := sleeper
    rcases returns with moving | ends
    · cases inv.responsible zero ⟨r, sleeps⟩ with
      | handing q here before =>
        refine .handing q here ?_
        rcases eq_or_ne (q : Nat) p with same | other
        · rw [← same] at at_p
          exact at_p.symm ▸ moving
        · exact (apart q other).symm ▸ before
      | passing q transit => exact .passing q transit
      | taken q here taken => exact .taken q here (takes q here.2 taken)
      | removing q here armed removing =>
        obtain ⟨p', clears⟩ := removing
        rcases eq_or_ne p' p with rfl | other
        · rcases pops.removes q clears armed with ⟨still, next⟩ | now
          · exact .removing q here still ⟨p', .inr (at_p.trans next)⟩
          · exact .taken q here (took q now)
        · rcases pops.arms q armed with still | now
          · exact .removing q here still ⟨p', (apart p' other).symm ▸ clears⟩
          · exact .taken q here (took q now)
    · exact ends r sleeps

/-- Once the stack is empty, a parked worker has been taken off it. -/
theorem Inv.popperEmpty (inv : Inv s l) (empty : s.stack.top.index = none)
    (sleeps : s.Sleeps q) : s.stack.armed q = false ∧ s.Taken q ∨
      s.stack.armed q = true ∧ Idle.Removing s.stack q := by
  have nobody : l = [] := by
    cases l with
    | nil => rfl
    | cons v rest =>
      have leads := inv.stack.leads
      rw [empty] at leads
      cases leads.1
  cases armed : s.stack.armed q with
  | false =>
    have registered : (s.phase q).Registered := by
      rw [sleeps.1]
      trivial
    exact .inl ⟨rfl, inv.taken q registered sleeps.2 armed⟩
  | true =>
    have rests : (s.stack.worker q).Rests := by
      rw [inv.calls q (by rw [sleeps.1]; exact id)]
      trivial
    refine .inr ⟨rfl, (inv.stack.armed q rests armed).resolve_left fun mem => ?_⟩
    rw [nobody] at mem
    cases mem

/-- A step that changes no worker's node. -/
theorem Pops.of_armed {x : Idle.State n} {pc : Idle.PopPc n} (parked : x.parked = s.stack.parked)
    (worker : x.worker = s.stack.worker)
    (popper : x.popper = Function.update s.stack.popper p pc)
    (moving : Moving (s.stack.popper p)) (armed : x.armed = s.stack.armed)
    (removes : ∀ q, s.stack.popper p = .clearLinked q ∨ s.stack.popper p = .takeArmed q →
      pc = .takeArmed q)
    (takes : ∀ q, s.word q = .parked → Took q (s.stack.popper p) → Took q pc) :
    Pops s p x pc where
  parked := parked
  worker := worker
  popper := popper
  moving := moving
  disarms _ disarmed := .inl (armed ▸ disarmed)
  removes q clears isArmed := .inl ⟨armed ▸ isArmed, removes q clears⟩
  arms _ isArmed := .inl (armed ▸ isArmed)
  takes := takes

theorem Inv.popStep (inv : Inv s l) {fails : Bool} (soon : Hunt.soon s (.popper p fails))
    (stepped : s.stackStep (.popper p fails) = some t) : ∃ l', Inv t l' := by
  obtain ⟨x, moved, rfl⟩ := Option.map_eq_some_iff.mp stepped
  obtain ⟨l', kept⟩ := inv.stack.step (a := .popper p fails) soon moved
  refine ⟨l', ?_⟩
  simp only [Idle.step, Idle.popStep] at moved
  cases here : s.stack.popper p with
  | idle | returned =>
    simp only [here] at moved
    cases moved
  | loadHead =>
    simp only [here] at moved
    cases first : s.stack.top.index with
    | none =>
      simp only [first] at moved
      cases moved
      have pops : Pops s p (s.stack.setPopper p (.returned none)) (.returned none) :=
        .of_armed rfl rfl rfl (by rw [here]; trivial) rfl (by simp [here]) (by simp [here, Took])
      refine inv.pops kept pops (.inr fun q sleeps => ?_)
      have apart (p' : Nat) (pc : Idle.PopPc n) (busy : s.stack.popper p' = pc)
          (other : pc ≠ .loadHead) :
          (s.stack.setPopper p (.returned none)).popper p' = pc := by
        refine (Function.update_of_ne ?_ _ _).trans busy
        rintro rfl
        exact other (busy.symm.trans here)
      rcases inv.popperEmpty first sleeps with ⟨-, p', busy, took⟩ | ⟨armed, p', clears⟩
      · refine .taken q sleeps ⟨p', busy, ?_⟩
        have same := apart p' _ rfl fun loads => by
          rw [loads] at took
          exact took
        exact same.symm ▸ took
      · refine .removing q sleeps armed ⟨p', clears.imp (fun at_p => ?_) fun at_p => ?_⟩
        · exact apart p' _ at_p (by simp)
        · exact apart p' _ at_p (by simp)
    | some q =>
      simp only [first] at moved
      cases moved
      exact inv.pops kept (.of_armed rfl rfl rfl (by rw [here]; trivial) rfl (by simp [here])
        (by simp [here, Took])) (.inl trivial)
  | loadNext =>
    simp only [here] at moved
    cases moved
    exact inv.pops kept (.of_armed rfl rfl rfl (by rw [here]; trivial) rfl (by simp [here])
      (by simp [here, Took])) (.inl trivial)
  | swap =>
    simp only [here] at moved
    split at moved <;> cases moved <;>
      exact inv.pops kept (.of_armed rfl rfl rfl (by rw [here]; trivial) rfl (by simp [here])
        (by simp [here, Took])) (.inl trivial)
  | clearLinked =>
    simp only [here] at moved
    cases moved
    exact inv.pops kept (.of_armed rfl rfl rfl (by rw [here]; trivial) rfl
      (by simp [here]) (by simp [here, Took])) (.inl trivial)
  | takeArmed q =>
    simp only [here] at moved
    obtain rfl := Option.some.inj moved
    have pops : Pops s p
        ({ s.stack with armed := Function.update s.stack.armed q false }.setPopper p
          (if s.stack.armed q then .subCount q else .loadHead))
        (if s.stack.armed q then .subCount q else .loadHead) := {
      parked := rfl
      worker := rfl
      popper := rfl
      moving := by
        rw [here]
        trivial
      disarms := fun r disarmed => by
        rcases eq_or_ne r q with rfl | other
        · cases armed : s.stack.armed r with
          | false => exact .inl rfl
          | true => exact .inr (by simp [Took])
        · exact .inl ((Function.update_of_ne other _ _).symm.trans disarmed)
      removes := fun r clears armed => by
        rw [here] at clears
        obtain rfl : q = r := by simpa using clears
        exact .inr (by simp [armed, Took])
      arms := fun r armed => by
        rcases eq_or_ne r q with rfl | other
        · exact .inr (by simp [armed, Took])
        · exact .inl ((Function.update_of_ne other _ _).trans armed)
      takes := fun r _ took => by
        rw [here] at took
        exact took.elim }
    refine inv.pops kept pops (.inl ?_)
    split <;> trivial
  | subCount q =>
    simp only [here] at moved
    obtain ⟨count, rfl⟩ : ∃ count, x = { s.stack with idleCount := count }.setPopper p
        (.checkState q) := ⟨_, (Option.some.inj moved).symm⟩
    exact inv.pops kept (.of_armed rfl rfl rfl (by rw [here]; trivial) rfl (by simp [here])
      (by simp [here, Took])) (.inl trivial)
  | checkState q =>
    simp only [here] at moved
    cases moved
    have pops : Pops s p
        (s.stack.setPopper p (if s.stack.parked q then .returned (some q) else .loadHead))
        (if s.stack.parked q then .returned (some q) else .loadHead) := by
      refine .of_armed rfl rfl rfl (by rw [here]; trivial) rfl (by simp [here]) ?_
      intro r isParked took
      rw [here] at took
      obtain rfl : q = r := took
      rw [if_pos ((inv.parked q).trans (decide_eq_true isParked))]
      exact rfl
    by_cases isParked : s.stack.parked q
    · refine inv.pops kept pops (.inr fun _ _ => ?_)
      have word : s.word q = .parked := of_decide_eq_true ((inv.parked q).symm.trans isParked)
      by_cases blocked : s.phase q = .blocked
      · refine .taken q ⟨blocked, word⟩ ⟨p, inv.moving p (by rw [here]; trivial), ?_⟩
        simp [Idle.State.setPopper, isParked, Took]
      · -- it is parked and has not blocked, so it is on its way
        exact .passing q (.inl ((inv.published q word).passing blocked))
    · refine inv.pops kept pops (.inl ?_)
      rw [if_neg isParked]
      trivial

/-! ## The run -/

/-- A worker that searches is counted. -/
theorem Inv.searching_ne_zero (inv : Inv s l) (searches : (s.phase q).Searches) :
    s.searching ≠ 0 := by
  have weight : (s.phase q).weight = 1 := if_pos searches
  have counts : (s.phase q).weight ≤ ∑ q, (s.phase q).weight :=
    Finset.single_le_sum (f := fun q => (s.phase q).weight) (fun _ _ => Nat.zero_le _)
      (Finset.mem_univ q)
  have total := inv.counted
  omega

/-- A worker comes to the hunt. -/
theorem Inv.enters (inv : Inv s l) {old : Phase} (here : s.phase q = old) (away : old.weight = 0)
    (handoff : old ≠ .handoff) (outside : ¬ old.InCall) (unpublished : ¬ old.Published) :
    Inv ({ s with searching := s.searching + 1 }.go q .hunting) l := by
  subst here
  refine inv.workerMoves _ _ inv.stack rfl (Function.update_eq_self q s.word).symm ?_
    (fun _ _ => rfl) (fun _ _ => rfl) rfl rfl ?_ handoff (fun _ => inv.calls q outside)
    (fun isParked => absurd (inv.published q isParked) unpublished)
    (fun absurd => absurd.elim) (.inl ?_)
  · rw [← inv.parked q, Function.update_eq_self]
    rfl
  · simp only [State.go]
    rw [away]
    rfl
  · simp [State.go]

/-- A worker leaves the hunt, and it was not the last. -/
theorem Inv.leaves (inv : Inv s l) {phase : Phase} {count : Nat} (searches : (s.phase q).Searches)
    (left : count + 1 = s.searching) (some_left : count ≠ 0) (away : phase.weight = 0)
    (unregistered : ¬ phase.Registered) :
    Inv ({ s with searching := count }.go q phase) l := by
  have outside : ¬ (s.phase q).InCall ∧ s.phase q ≠ .handoff ∧ ¬ (s.phase q).Published := by
    cases at_q : s.phase q with
    | hunting | tryLeave => exact ⟨id, Phase.noConfusion, id⟩
    | _ =>
      rw [at_q] at searches
      exact searches.elim
  refine inv.workerMoves _ _ inv.stack rfl (Function.update_eq_self q s.word).symm ?_
    (fun _ _ => rfl) (fun _ _ => rfl) rfl rfl ?_ outside.2.1 (fun _ => inv.calls q outside.1)
    (fun isParked => absurd (inv.published q isParked) outside.2.2)
    (fun registered => absurd registered unregistered) (.inl some_left)
  · rw [← inv.parked q, Function.update_eq_self]
    rfl
  · simp only [State.go]
    rw [away, Phase.weight, if_pos searches]
    exact left

theorem Inv.workerStep (inv : Inv s l) {answer : Bool}
    (stepped : Hunt.workerStep s q answer = some t) : ∃ l', Inv t l' := by
  have unparked (unpublished : ¬ (s.phase q).Published) : s.word q ≠ .parked :=
    fun isParked => unpublished (inv.published q isParked)
  simp only [Hunt.workerStep] at stepped
  cases here : s.phase q with
  | hunting =>
    simp only [here] at stepped
    cases stepped
    have hunts : s.searching ≠ 0 := inv.searching_ne_zero (q := q) (by rw [here]; trivial)
    exact ⟨l, inv.goes here rfl (by simp) False.elim (fun _ => False.elim) id (.inl hunts)⟩
  | tryLeave cur =>
    simp only [here] at stepped
    have hunts : s.searching ≠ 0 := inv.searching_ne_zero (q := q) (by rw [here]; trivial)
    split at stepped
    · cases stepped
      exact ⟨l, inv.goes here rfl (by simp) False.elim (fun _ => False.elim) id (.inl hunts)⟩
    · rename_i several
      split at stepped
      · rename_i same
        cases stepped
        exact ⟨l, inv.leaves (by rw [here]; trivial) (by omega) (by omega) rfl id⟩
      · cases stepped
        exact ⟨l, inv.goes here rfl (by simp) False.elim (fun _ => False.elim) id (.inl hunts)⟩
  | consume | publish | consumeAgain | awake =>
    simp only [here] at stepped
    cases stepped
    exact ⟨l, inv.exchange here rfl (by simp) id (by simp [Phase.Published])
      (fun _ _ => False.elim) id id trivial trivial⟩
  | register =>
    simp only [here] at stepped
    exact inv.register here stepped
  | registering =>
    simp only [here] at stepped
    split at stepped
    · rename_i idle
      cases stepped
      exact ⟨l, inv.goes here rfl (by simp) (fun _ => idle) (fun _ => id) id (.inr trivial)⟩
    · exact inv.callStep (by rw [here]; trivial) (by rw [here]; trivial) stepped
  | recheck =>
    simp only [here] at stepped
    cases stepped
    cases answer with
    | false =>
      exact ⟨l, inv.goes here rfl (by simp) False.elim (fun _ => id) id (.inr trivial)⟩
    | true =>
      exact ⟨l, inv.goes here rfl (by simp) False.elim (fun _ => id) False.elim (.inr trivial)⟩
  | recheckSearching =>
    simp only [here] at stepped
    cases stepped
    split
    · exact ⟨l, inv.goes here rfl (by simp) False.elim (fun _ => id) False.elim (.inr trivial)⟩
    · -- somebody hunts when it blocks
      rename_i hunts
      exact ⟨l, inv.goes here rfl (by simp) False.elim (fun _ => id) id (.inl hunts)⟩
  | undo =>
    simp only [here] at stepped
    exact inv.unregister .undoing (by rw [here]; trivial) trivial trivial id
      (fun _ => trivial) stepped
  | undoing =>
    simp only [here] at stepped
    split at stepped
    · rename_i idle
      cases stepped
      exact ⟨l, inv.goes here rfl (by simp) (fun _ => idle) (fun _ => id) False.elim
        (.inr trivial)⟩
    · exact inv.callStep (by rw [here]; trivial) (by rw [here]; trivial) stepped
  | undoWord =>
    simp only [here] at stepped
    cases stepped
    exact ⟨l, inv.exchange here rfl (by simp) id (by simp)
      (fun other isParked => absurd isParked other) id id trivial trivial⟩
  | undoNotified =>
    simp only [here] at stepped
    cases stepped
    exact ⟨l, inv.exchange here rfl (by simp) id (by simp) (fun _ _ => False.elim) id id trivial
      trivial⟩
  | blocked =>
    simp only [here] at stepped
    split at stepped
    · cases stepped
    · rename_i woken
      cases stepped
      exact ⟨l, inv.goes here rfl (by simp) False.elim (fun isParked => absurd isParked woken)
        False.elim (.inr trivial)⟩
  | unregister =>
    simp only [here] at stepped
    exact inv.unregister .unregistering (by rw [here]; trivial) trivial trivial id
      (fun isParked => absurd isParked (unparked (by rw [here]; exact id))) stepped
  | unregistering =>
    simp only [here] at stepped
    split at stepped
    · rename_i idle
      cases stepped
      exact ⟨l, inv.goes here rfl (by simp) (fun _ => idle) (fun _ => False.elim) False.elim
        (.inr trivial)⟩
    · exact inv.callStep (by rw [here]; trivial) (by rw [here]; trivial) stepped
  | enter =>
    simp only [here] at stepped
    cases stepped
    exact ⟨l, inv.enters here rfl (by simp) id id⟩
  | handoff =>
    simp only [here] at stepped
    cases returned : s.stack.popper q with
    | returned r =>
      simp only [returned] at stepped
      cases stepped
      exact ⟨l, inv.handed here returned⟩
    | _ =>
      simp only [returned] at stepped
      cases stepped
  | body =>
    simp only [here] at stepped
    cases stepped

theorem Inv.leaveHunt (inv : Inv s l) (stepped : Hunt.step s (.leaveHunt q) = some t) :
    ∃ l', Inv t l' := by
  simp only [Hunt.step] at stepped
  split at stepped
  case isFalse => cases stepped
  rename_i here
  have hunts : s.searching ≠ 0 := inv.searching_ne_zero (q := q) (by rw [here]; trivial)
  split at stepped
  · rename_i last
    obtain ⟨u, called, rfl⟩ := Option.map_eq_some_iff.mp stepped
    obtain ⟨x, begun, rfl⟩ := Option.map_eq_some_iff.mp called
    have idle : ¬ s.Busy q := by
      rintro (⟨v, same, handing⟩ | ⟨k, same, -⟩)
      · obtain rfl : q = v := Fin.ext same
        rw [here] at handing
        cases handing
      · have small := q.isLt
        omega
    have counted := counted_go inv.counted (t := State.go
        { s with stack := x, searching := s.searching - 1 } q .handoff) (q := q)
      .handoff (by
        simp only [State.go]
        rw [here]
        simp [Phase.weight, Phase.Searches, last]) rfl
    refine inv.starts idle begun rfl rfl (fun v => ?_) ?_ counted
      fun _ => .inr ⟨q, rfl, Function.update_self _ _ _⟩
    · simp only [State.go]
      rcases eq_or_ne v q with rfl | other
      · exact .inr ⟨here, Function.update_self _ _ _⟩
      · exact .inl (Function.update_of_ne other _ _)
    · rintro p (rfl | busy)
      · exact .inl ⟨q, rfl, Function.update_self _ _ _⟩
      · refine Busy.congr busy rfl fun v handing => ?_
        refine (Function.update_of_ne ?_ _ _).trans handing
        rintro rfl
        rw [here] at handing
        cases handing
  · rename_i several
    cases stepped
    exact ⟨l, inv.leaves (by rw [here]; trivial) (by omega) (by omega) rfl id⟩

theorem Inv.place (inv : Inv s l) {k : Nat} (stepped : Hunt.step s (.place k) = some t) :
    ∃ l', Inv t l' := by
  simp only [Hunt.step] at stepped
  split at stepped
  case isFalse => cases stepped
  rename_i guard
  obtain ⟨free, -⟩ := guard
  obtain ⟨u, called, rfl⟩ := Option.map_eq_some_iff.mp stepped
  obtain ⟨x, begun, rfl⟩ := Option.map_eq_some_iff.mp called
  have idle : ¬ s.Busy (n + k) := by
    rintro (⟨v, same, -⟩ | ⟨k', same, placing⟩)
    · have small := v.isLt
      omega
    · obtain rfl : k = k' := by omega
      rw [free] at placing
      cases placing
  refine inv.starts idle begun rfl rfl (fun v => .inl rfl) ?_ inv.counted fun zero => .inl zero
  rintro p (rfl | handing | ⟨k', rfl, placing⟩)
  · exact .inr ⟨k, rfl, Function.update_self _ _ _⟩
  · exact .inl handing
  · refine .inr ⟨k', rfl, ?_⟩
    rcases eq_or_ne k' k with rfl | other
    · exact Function.update_self _ _ _
    · exact (Function.update_of_ne other _ _).trans placing

theorem Inv.step (inv : Inv s l) (soon : Hunt.soon s a) (stepped : Hunt.step s a = some t) :
    ∃ l', Inv t l' := by
  cases a with
  | worker q answer => exact inv.workerStep stepped
  | enterHunt q =>
    simp only [Hunt.step] at stepped
    split at stepped
    · rename_i here
      cases stepped
      exact ⟨l, inv.enters here rfl (by simp) id id⟩
    · cases stepped
  | leaveHunt q => exact inv.leaveHunt stepped
  | wake q =>
    cases stepped
    exact ⟨l, inv.wakes⟩
  | place k => exact inv.place stepped
  | placed k =>
    simp only [Hunt.step] at stepped
    split at stepped
    · rename_i placing returned
      cases stepped
      exact ⟨l, inv.placed returned⟩
    · cases stepped
  | popper p fails => exact inv.popStep soon stepped

/-- With main out of the pool the counter counts the hunters, and over a count of zero no worker stays
parked. -/
theorem hunt_watched {s : State n} (reach : Reach step soon (initial n) s) : s.Watched := by
  have inv : ∃ l, Inv s l := by
    refine reach.invariant (I := fun s => ∃ l, Inv s l) ⟨[], initial_inv⟩ ?_
    rintro s t a ⟨l, inv⟩ soon stepped
    exact inv.step soon stepped
  obtain ⟨l, inv⟩ := inv
  exact inv.watched

/-- Worker 1 parks over the count of worker 0, which then leaves for a body, is the last, and wakes
it. -/
def handedOverLabels : List (Label 2) :=
  List.flatten [[.enterHunt 0, .enterHunt 1], List.replicate 5 (.worker 1 false),
    List.replicate 6 (.worker 1 false), List.replicate 3 (.worker 1 false),
    [.leaveHunt 0], List.replicate 7 (.popper 0 false), [.worker 0 false]]

def handedOver : State 2 := (run step soon (initial 2) handedOverLabels).getD (initial 2)

theorem handedOver_watched : handedOver.searching = 0 ∧ handedOver.phase 1 = .blocked ∧
    handedOver.word 1 = .notified ∧ handedOver.Watched :=
  ⟨by decide +kernel, by decide +kernel, by decide +kernel,
    hunt_watched (Reach.of_isSome handedOverLabels (by decide +kernel))⟩

end JLibSched.Hunt
