import JLibSched.Executor.Model
import JLibSched.Lib.Transition

/-!
# Every task ends once

At most one executor is with the task at any time: whoever hands it on does not come back to it.
That holds as long as no coroutine gets to main out of the pool.  `RunMainTask` ends whatever it
has executed, also a coroutine, which ends itself or is only suspended.
-/

namespace JLibSched.Executor

open Transition JLibSched.Fiber

variable {n : Nat} {c : Setup} {s t : State n} {a : Label n} {e : Fin n} {role : Role}

/-- Main out of the pool is not asked to run a coroutine. -/
def offMain (c : Setup) (_ : State n) : Label n → Prop
  | .pushMain | .body _ (.suspend .main) => c.outOfPool = true → c.type ≠ .coroutine
  | _ => True

instance (c : Setup) (s : State n) : (a : Label n) → Decidable (offMain c s a)
  | .pushMain | .body _ (.suspend .main) =>
    inferInstanceAs (Decidable (c.outOfPool = true → c.type ≠ .coroutine))
  | .push | .take _ _ | .advance _ _ | .giveBack _ | .noFiber _ | .resume | .place
  | .body _ .finish | .body _ (.yield _) | .body _ (.suspend .none) | .body _ (.suspend .current)
  | .body _ (.suspend (.thread _)) => isTrue trivial

/-! ## What holds of the task -/

/-- Nothing has been done with the task but running it. -/
def Alive (s : State n) : Prop := s.ledger = ⟨0, 0, 0, 0, false, false⟩

/-- `Done` was called after the body had finished. -/
def Done (c : Setup) (s : State n) : Prop := s.ledger = ⟨c.waitGroup.toNat, 0, 0, 0, false, false⟩

/-- The task was freed after that. -/
def Freed (c : Setup) (s : State n) (signals destroyed : Nat) : Prop :=
  s.ledger = ⟨c.waitGroup.toNat, 1, signals, destroyed, false, false⟩

/-- The task is discarded. -/
def Discarded (s : State n) (dones frees : Nat) : Prop :=
  s.ledger = ⟨dones, frees, 0, 0, true, false⟩

/-- The task may be run. -/
structure Ready (c : Setup) (s : State n) : Prop where
  alive : Alive s
  body : s.body = .fresh ∨ s.body = .suspended ∧ s.started = true
  fiber : s.fiber = none ∨ c.type = .fiber ∧ s.fiber = some .ready
  /-- A fiber that was suspended is still there. -/
  kept : c.type = .fiber → s.body = .suspended → s.fiber = some .ready

/-- The task waits to be woken. -/
structure Waiting (c : Setup) (s : State n) : Prop where
  alive : Alive s
  body : s.body = .suspended
  started : s.started = true
  fiber : s.fiber = if c.type = .fiber then some .suspended else none

/-- The life of the task is over. -/
inductive Over (c : Setup) (s : State n) : Prop where
  | finished (body : s.body = .finished) (signals destroyed : Nat)
      (freed : Freed c s signals destroyed)
      (reports : c.type = .coroutine → signals = c.dagNode.toNat ∧ destroyed = 1)
  | discarded (body : s.body = .fresh) (discarded : Discarded s c.waitGroup.toNat 1)

/-- An executor that may run the task. -/
def Suits (c : Setup) : Role → Prop
  | .worker _ => True
  | .spinHelp _ => c.type = .coroutine
  | .runMain => c.type ≠ .coroutine

/-- While no executor is with the task. -/
def RestOk (c : Setup) (s : State n) : Prop :=
  match s.loc with
  | .unborn | .shared | .inbox _ | .placing => Ready c s
  | .mainQ => Ready c s ∧ c.type ≠ .coroutine
  | .waiting => Waiting c s
  | .hand => False
  | .gone => Over c s

/-- While an executor is with the task. -/
def PcOk (c : Setup) (s : State n) : Pc → Prop
  | .idle => False
  | .taken role | .passed role => s.loc = .hand ∧ Ready c s ∧ Suits c role
  | .discarding => s.loc = .hand ∧ Discarded s 0 0 ∧ s.body = .fresh
  | .discardFree => s.loc = .hand ∧ Discarded s c.waitGroup.toNat 0 ∧ s.body = .fresh
  | .onStack role => s.loc = .hand ∧ Alive s ∧ Suits c role ∧
      (c.type = .coroutine → s.started = true ∧ s.fiber = none)
  | .onFiber _ => s.loc = .hand ∧ Alive s ∧ c.type = .fiber ∧ s.started = true
  | .leaving | .returned => s.loc = .hand ∧ Alive s ∧ c.type = .fiber ∧ s.started = true ∧
      (s.fiber = some .dead ∧ s.body = .finished ∨
        s.body = .suspended ∧ (s.fiber = some .wantsYield ∨ s.fiber = some .wantsSuspend ∨
          s.fiber = some .suspendSignaled))
  | .executed => s.loc = .hand ∧ Alive s ∧ c.type ≠ .coroutine ∧ s.body = .finished
  | .releasing | .freeing => s.loc = .hand ∧ Done c s ∧
      c.type ≠ .coroutine ∧ s.body = .finished
  | .completing role => s.loc = .hand ∧ Alive s ∧ Suits c role ∧ c.type = .coroutine ∧
      s.body = .finished
  | .completeFree role => s.loc = .hand ∧ Done c s ∧ Suits c role ∧
      c.type = .coroutine ∧ s.body = .finished
  | .completeSignal role => s.loc = .gone ∧ Freed c s 0 0 ∧ Suits c role ∧
      c.type = .coroutine ∧ s.body = .finished
  | .completed role => s.loc = .gone ∧
      Freed c s c.dagNode.toNat 0 ∧ Suits c role ∧
      c.type = .coroutine ∧ s.body = .finished

structure Inv (c : Setup) (s : State n) : Prop where
  /-- At most one executor is with the task. -/
  alone : ∀ e, s.pc e ≠ .idle → PcOk c s (s.pc e) ∧ ∀ r, r ≠ e → s.pc r = .idle
  rest : (∀ e, s.pc e = .idle) → RestOk c s
  /-- A coroutine is not on its way to main out of the pool. -/
  routed : c.outOfPool = true → c.type = .coroutine → s.pinTo ≠ .main
  asleep : s.fiber = some .suspended → s.loc = .waiting

theorem initial_ready : Ready c (initial : State n) where
  alive := rfl
  body := .inl rfl
  fiber := .inl rfl
  kept _ absurd := by cases absurd

theorem initial_inv : Inv c (initial : State n) where
  alone e busy := absurd rfl busy
  rest _ := initial_ready
  routed _ _ absurd := by cases absurd
  asleep absurd := by cases absurd

theorem PcOk.loc {pc : Pc} (ok : PcOk c s pc) : s.loc = .hand ∨ s.loc = .gone := by
  cases pc with
  | idle => exact ok.elim
  | completeSignal | completed => exact .inr ok.1
  | _ => exact .inl ok.1

theorem Inv.awake (inv : Inv c s) (busy : s.pc e ≠ .idle) : s.fiber ≠ some .suspended := by
  intro asleep
  have waits := inv.asleep asleep
  rcases (inv.alone e busy).1.loc with here | here
  · rw [waits] at here
    cases here
  · rw [waits] at here
    cases here

/-- A queued or waiting task is with no executor. -/
theorem Inv.idle (inv : Inv c s) (hand : s.loc ≠ .hand) (gone : s.loc ≠ .gone) (e : Fin n) :
    s.pc e = .idle := by
  by_contra busy
  exact (inv.alone e busy).1.loc.elim hand gone

/-! ## Steps -/

theorem Alive.touch (alive : Alive s) : Alive s.touch := by
  unfold Alive at alive ⊢
  simp only [State.touch]
  rw [alive]
  rfl

theorem Alive.done (alive : Alive s) : Done c (s.done c) := by
  unfold Alive at alive
  unfold Done
  simp only [State.done]
  rw [alive]
  simp [Ledger.touch]

theorem Alive.discard (alive : Alive s) : Discarded s.discard 0 0 := by
  unfold Alive at alive
  unfold Discarded
  simp only [State.discard]
  rw [alive]
  rfl

theorem Discarded.done (discarded : Discarded s 0 0) :
    Discarded (s.done c) c.waitGroup.toNat 0 := by
  unfold Discarded at discarded ⊢
  simp only [State.done]
  rw [discarded]
  simp [Ledger.touch]

theorem Discarded.free {dones : Nat} (discarded : Discarded s dones 0) :
    Discarded s.free dones 1 := by
  unfold Discarded at discarded ⊢
  simp only [State.free]
  rw [discarded]
  rfl

theorem Done.free (done : Done c s) : Freed c s.free 0 0 := by
  unfold Done at done
  unfold Freed
  simp only [State.free]
  rw [done]
  rfl

theorem Freed.signal (freed : Freed c s 0 0) : Freed c (s.signal c) c.dagNode.toNat 0 := by
  unfold Freed at freed ⊢
  simp only [State.signal]
  rw [freed, Nat.zero_add]

theorem Freed.destroy {signals : Nat} (freed : Freed c s signals 0) :
    Freed c s.destroy signals 1 := by
  unfold Freed at freed ⊢
  simp only [State.destroy]
  rw [freed]

/-- The executor that is with the task goes on. -/
theorem Inv.goes (inv : Inv c s) (busy : s.pc e ≠ .idle) {pc : Pc}
    (moved : t.pc = Function.update s.pc e pc) (ok : PcOk c t pc)
    (awake : t.fiber ≠ some .suspended)
    (routed : c.outOfPool = true → c.type = .coroutine → t.pinTo ≠ .main) : Inv c t where
  alone r busy' := by
    have others := (inv.alone e busy).2
    rw [moved] at busy' ⊢
    rcases eq_or_ne r e with rfl | other
    · rw [Function.update_self]
      exact ⟨ok, fun q apart => by rw [Function.update_of_ne apart, others q apart]⟩
    · rw [Function.update_of_ne other] at busy'
      exact absurd (others r other) busy'
  rest idle := by
    have here := idle e
    rw [moved, Function.update_self] at here
    subst here
    exact ok.elim
  routed := routed
  asleep absurd := (awake absurd).elim

/-- The executor that is with the task leaves it. -/
theorem Inv.leaves (inv : Inv c s) (busy : s.pc e ≠ .idle)
    (moved : t.pc = Function.update s.pc e .idle) (ok : RestOk c t)
    (asleep : t.fiber = some .suspended → t.loc = .waiting)
    (routed : c.outOfPool = true → c.type = .coroutine → t.pinTo ≠ .main) : Inv c t := by
  have idle (r : Fin n) : t.pc r = .idle := by
    rw [moved]
    rcases eq_or_ne r e with rfl | other
    · rw [Function.update_self]
    · rw [Function.update_of_ne other]
      exact (inv.alone e busy).2 r other
  exact ⟨fun r busy' => absurd (idle r) busy', fun _ => ok, routed, asleep⟩

theorem mainQueue_ready (ready : Ready c s) (loc : s.loc = mainQueue c)
    (other : c.outOfPool = true → c.type ≠ .coroutine) : RestOk c s := by
  unfold mainQueue at loc
  unfold RestOk
  split at loc
  · rw [loc]
    exact ⟨ready, other ‹_›⟩
  · rw [loc]
    exact ready

theorem place_ready (ready : Ready c s) (loc : s.loc = placeOf c s.pinTo)
    (routed : c.outOfPool = true → c.type = .coroutine → s.pinTo ≠ .main) : RestOk c s := by
  cases pinTo : s.pinTo with
  | noPin =>
    rw [pinTo] at loc
    unfold RestOk
    rw [loc]
    exact ready
  | worker index =>
    rw [pinTo] at loc
    unfold RestOk
    rw [loc]
    exact ready
  | main =>
    rw [pinTo] at loc
    exact mainQueue_ready ready loc fun out coroutine => routed out coroutine pinTo

theorem stampPin_main {self : Option Nat} {pin : Pin} (other : pin ≠ .main) :
    stampPin c self pin ≠ .main := by
  unfold stampPin
  split
  · decide
  · rename_i same
    split at same
    · cases same
    · exact absurd same other
  · split
    · exact fun absurd => by cases absurd
    · decide
  · split
    · exact fun absurd => by cases absurd
    · decide

theorem suspend_routed {self : Option Nat} {pin : Pin} (allowed : offMain c s (.body e (.suspend pin)))
    (out : c.outOfPool = true) (coroutine : c.type = .coroutine) :
    stampPin c self pin ≠ .main := by
  refine stampPin_main ?_
  rintro rfl
  exact allowed out coroutine

theorem Ready.no_fiber (ready : Ready c s) (other : c.type ≠ .fiber) : s.fiber = none :=
  ready.fiber.resolve_right fun fiber => other fiber.1

theorem Inv.enter (inv : Inv c s) (here : s.pc e = .passed role) (loc : s.loc = .hand)
    (ready : Ready c s) (suits : Suits c role) : Inv c (enter c s e role) := by
  have busy : s.pc e ≠ .idle := by
    rw [here]
    exact fun absurd => by cases absurd
  have alive := ready.alive.touch
  -- the executor calls the body of a coroutine or a native task
  have call (plain : c.type ≠ .fiber) : Inv c { s.touch.go e (.onStack role) with
      started := true, body := .running } :=
    inv.goes busy rfl ⟨loc, alive, suits, fun _ => ⟨rfl, ready.no_fiber plain⟩⟩ (inv.awake busy)
      inv.routed
  have switch (fiber : c.type = .fiber) : Inv c { s.touch.go e (.onFiber role) with
      started := true, fiber := some .running, body := .running } :=
    inv.goes busy rfl ⟨loc, alive, fiber, rfl⟩ (fun absurd => by cases absurd) inv.routed
  unfold Executor.enter
  cases role with
  | runMain =>
    simp only
    split
    · rename_i resumed
      refine inv.goes busy rfl ⟨loc, alive, ?_, resumed.1⟩ (fun absurd => by cases absurd)
        inv.routed
      by_contra other
      have some' := resumed.2
      rw [show s.touch.fiber = none from ready.no_fiber other] at some'
      cases some'
    · exact inv.goes busy rfl ⟨loc, alive, suits, fun coroutine => absurd coroutine suits⟩
        (inv.awake busy) inv.routed
  | worker index | spinHelp index =>
    simp only
    split
    · exact call (by simp [*])
    · exact call (by simp [*])
    · exact switch ‹_›

/-- An executor that is doing something is not idle. -/
theorem busy_of_pc {pc : Pc} (here : s.pc e = pc) (other : pc ≠ .idle) : s.pc e ≠ .idle := by
  rw [here]
  exact other

/-- Where a coroutine is left by an executor that may run it. -/
theorem afterCoroutine_idle (suits : Suits c role) (coroutine : c.type = .coroutine) :
    role.afterCoroutine = .idle := by
  cases role with
  | runMain => exact absurd coroutine suits
  | worker index | spinHelp index => rfl

theorem Inv.onFiberReturned (inv : Inv c s) (here : s.pc e = .returned) :
    Inv c (onFiberReturned c s e) := by
  have busy := busy_of_pc here (by decide)
  have ok := (inv.alone e busy).1
  rw [here] at ok
  obtain ⟨loc, alive, fiber, started, status⟩ := ok
  -- the fiber goes back into a queue
  have ready (suspended : s.body = .suspended) :
      Inv c { s.touch.go e .idle with fiber := some .ready, loc := placeOf c s.pinTo } := by
    refine inv.leaves busy rfl (place_ready ?_ rfl inv.routed) (fun absurd => by cases absurd)
      inv.routed
    exact ⟨alive.touch, .inr ⟨suspended, started⟩, .inr ⟨fiber, rfl⟩, fun _ _ => rfl⟩
  unfold Executor.onFiberReturned
  rcases status with ⟨dead, finished⟩ | ⟨suspended, yields | suspends | signaled⟩
  · rw [dead]
    have other : c.type ≠ .coroutine := by
      rw [fiber]
      decide
    exact inv.goes busy rfl ⟨loc, alive.done, other, finished⟩ (inv.awake busy) inv.routed
  · rw [yields]
    exact ready suspended
  · rw [suspends]
    refine inv.leaves busy rfl ?_ (fun _ => rfl) inv.routed
    exact ⟨alive, suspended, started, by rw [if_pos fiber]⟩
  · rw [signaled]
    exact ready suspended

theorem Inv.advance (inv : Inv c s) {cancelled : Bool}
    (stepped : advance c s e cancelled = some t) : Inv c t := by
  have ok := fun busy => (inv.alone e busy).1
  unfold Executor.advance at stepped
  cases here : s.pc e with
  | idle | onStack | onFiber =>
    rw [here] at stepped
    cases stepped
  | taken role =>
    rw [here] at stepped ok
    obtain ⟨loc, ready, suits⟩ := ok (fun absurd => by cases absurd)
    have busy := busy_of_pc here (fun absurd => by cases absurd)
    cases stepped
    split
    · rename_i discards
      have fresh : s.body = .fresh := by
        refine ready.body.resolve_right fun suspended => ?_
        rw [suspended.2] at discards
        cases discards
      exact inv.goes busy rfl ⟨loc, ready.alive.discard, fresh⟩ (inv.awake busy) inv.routed
    · have touched : Ready c (s.touch.go e (.passed role)) :=
        ⟨ready.alive.touch, ready.body, ready.fiber, ready.kept⟩
      exact inv.goes busy rfl ⟨loc, touched, suits⟩ (inv.awake busy) inv.routed
  | discarding =>
    rw [here] at stepped ok
    obtain ⟨loc, discarded, fresh⟩ := ok (by decide)
    cases stepped
    have busy := busy_of_pc here (by decide)
    exact inv.goes busy rfl ⟨loc, discarded.done, fresh⟩ (inv.awake busy) inv.routed
  | discardFree =>
    rw [here] at stepped ok
    obtain ⟨loc, discarded, fresh⟩ := ok (by decide)
    cases stepped
    have busy := busy_of_pc here (by decide)
    exact inv.leaves busy rfl (Over.discarded fresh discarded.free)
      (fun here => absurd here (inv.awake busy)) inv.routed
  | passed role =>
    rw [here] at stepped ok
    obtain ⟨loc, ready, suits⟩ := ok (fun absurd => by cases absurd)
    cases stepped
    exact inv.enter here loc ready suits
  | leaving =>
    rw [here] at stepped ok
    have returned := ok (by decide)
    cases stepped
    have busy := busy_of_pc here (by decide)
    exact inv.goes busy rfl returned (inv.awake busy) inv.routed
  | returned =>
    rw [here] at stepped
    cases stepped
    exact inv.onFiberReturned here
  | releasing =>
    rw [here] at stepped ok
    obtain ⟨loc, done, other, finished⟩ := ok (by decide)
    cases stepped
    have busy := busy_of_pc here (by decide)
    exact inv.leaves busy rfl
      (Over.finished finished 0 0 done.free fun coroutine => absurd coroutine other)
      (fun absurd => by cases absurd) inv.routed
  | completing _ | executed =>
    rw [here] at stepped ok
    obtain ⟨loc, alive, rest⟩ := ok (fun absurd => by cases absurd)
    cases stepped
    have busy := busy_of_pc here fun absurd => by cases absurd
    exact inv.goes busy rfl ⟨loc, alive.done, rest⟩ (inv.awake busy) inv.routed
  | completeFree role =>
    rw [here] at stepped ok
    obtain ⟨loc, done, rest⟩ := ok (fun absurd => by cases absurd)
    cases stepped
    have busy := busy_of_pc here fun absurd => by cases absurd
    exact inv.goes busy rfl ⟨rfl, done.free, rest⟩ (inv.awake busy) inv.routed
  | completeSignal role =>
    rw [here] at stepped ok
    obtain ⟨loc, freed, rest⟩ := ok (fun absurd => by cases absurd)
    cases stepped
    have busy := busy_of_pc here fun absurd => by cases absurd
    exact inv.goes busy rfl ⟨loc, freed.signal, rest⟩ (inv.awake busy) inv.routed
  | completed role =>
    rw [here] at stepped ok
    obtain ⟨loc, freed, suits, coroutine, finished⟩ := ok (fun absurd => by cases absurd)
    cases stepped
    rw [afterCoroutine_idle suits coroutine]
    have busy := busy_of_pc here fun absurd => by cases absurd
    refine inv.leaves busy rfl ?_ (fun here => absurd here (inv.awake busy)) inv.routed
    unfold RestOk
    rw [show (s.destroy.go e .idle).loc = .gone from loc]
    exact .finished finished _ _ freed.destroy fun _ => ⟨rfl, rfl⟩
  | freeing =>
    rw [here] at stepped ok
    obtain ⟨loc, done, other, finished⟩ := ok (by decide)
    cases stepped
    have busy := busy_of_pc here (by decide)
    exact inv.leaves busy rfl
      (Over.finished finished 0 0 done.free fun coroutine => absurd coroutine other)
      (fun here => absurd here (inv.awake busy)) inv.routed

theorem Inv.bodyStep (inv : Inv c s) {act : Act} (allowed : offMain c s (.body e act))
    (stepped : bodyStep c s e act = some t) : Inv c t := by
  have ok := fun busy => (inv.alone e busy).1
  unfold Executor.bodyStep at stepped
  cases here : s.pc e with
  | onFiber role =>
    rw [here] at stepped ok
    obtain ⟨loc, alive, fiber, started⟩ := ok (fun absurd => by cases absurd)
    have busy := busy_of_pc here (fun absurd => by cases absurd)
    have thread (coroutine : c.type = .coroutine) : False := by
      rw [coroutine] at fiber
      cases fiber
    cases act with
    | finish =>
      cases stepped
      exact inv.goes busy rfl ⟨loc, alive.touch, fiber, started, .inl ⟨rfl, rfl⟩⟩
        (fun absurd => by cases absurd) inv.routed
    | suspend pin =>
      cases stepped
      exact inv.goes busy rfl
        ⟨loc, alive.touch, fiber, started, .inr ⟨rfl, .inr (.inl rfl)⟩⟩
        (fun absurd => by cases absurd) fun _ coroutine => (thread coroutine).elim
    | yield pin =>
      cases stepped
      exact inv.goes busy rfl ⟨loc, alive.touch, fiber, started, .inr ⟨rfl, .inl rfl⟩⟩
        (fun absurd => by cases absurd) fun _ coroutine => (thread coroutine).elim
  | onStack role =>
    rw [here] at stepped ok
    obtain ⟨loc, alive, suits, called⟩ := ok (fun absurd => by cases absurd)
    have busy := busy_of_pc here (fun absurd => by cases absurd)
    cases act with
    | finish =>
      cases stepped
      split
      · exact inv.goes busy rfl ⟨loc, alive.touch, suits, ‹_›, rfl⟩ (inv.awake busy) inv.routed
      · exact inv.goes busy rfl ⟨loc, alive.touch, ‹_›, rfl⟩ (inv.awake busy) inv.routed
    | suspend pin =>
      simp only at stepped
      split at stepped
      · rename_i coroutine
        cases stepped
        rw [afterCoroutine_idle suits coroutine]
        obtain ⟨started, none⟩ := called coroutine
        refine inv.leaves busy rfl ?_ (fun here => absurd here (inv.awake busy))
          fun out _ => suspend_routed allowed out coroutine
        refine ⟨alive.touch, rfl, started, ?_⟩
        rw [if_neg (by rw [coroutine]; decide)]
        exact none
      · cases stepped
    | yield pin => cases stepped
  | _ =>
    rw [here] at stepped
    cases stepped

/-- A task that may be run has announced no suspension. -/
theorem Ready.not_leaving (ready : Ready c s) : s.fiber ≠ some .wantsSuspend := by
  intro wants
  rcases ready.fiber with none | ⟨-, other⟩
  · rw [wants] at none
    cases none
  · rw [wants] at other
    cases other

/-- A waker comes before the fiber has switched. -/
theorem PcOk.signal {pc : Pc} (ok : PcOk c s pc) (fiber : c.type = .fiber)
    (wants : s.fiber = some .wantsSuspend) :
    PcOk c { s with fiber := some .suspendSignaled } pc := by
  cases pc with
  | taken | passed => exact absurd wants ok.2.1.not_leaving
  | onStack =>
    obtain ⟨loc, alive, suits, called⟩ := ok
    refine ⟨loc, alive, suits, fun coroutine => ?_⟩
    rw [coroutine] at fiber
    cases fiber
  | leaving | returned =>
    obtain ⟨loc, alive, kind, started, status⟩ := ok
    refine ⟨loc, alive, kind, started, .inr ⟨?_, .inr (.inr rfl)⟩⟩
    rcases status with ⟨dead, -⟩ | ⟨suspended, -⟩
    · rw [wants] at dead
      cases dead
    · exact suspended
  | _ => exact ok

theorem RestOk.signal (ok : RestOk c s) (wants : s.fiber = some .wantsSuspend) :
    RestOk c { s with fiber := some .suspendSignaled } := by
  unfold RestOk at ok ⊢
  simp only
  split at ok
  · exact absurd wants ok.not_leaving
  · exact absurd wants ok.not_leaving
  · exact absurd wants ok.not_leaving
  · exact absurd wants ok.not_leaving
  · exact absurd wants ok.1.not_leaving
  · have status := ok.fiber
    rw [wants] at status
    split at status
    all_goals cases status
  · exact ok
  · cases ok with
    | finished body signals destroyed freed reports =>
      exact .finished body signals destroyed freed reports
    | discarded body discarded => exact .discarded body discarded

theorem Inv.resume (inv : Inv c s) (stepped : resume c s = some t) : Inv c t := by
  unfold Executor.resume at stepped
  split at stepped
  · rename_i coroutine
    split at stepped
    · rename_i waits
      cases stepped
      have idle := inv.idle (by rw [waits]; decide) (by rw [waits]; decide)
      have rest := inv.rest idle
      unfold RestOk at rest
      rw [waits] at rest
      have none : s.fiber = none := by
        rw [rest.fiber, if_neg (by rw [coroutine]; decide)]
      refine ⟨fun e busy => absurd (idle e) busy, fun _ => ?_, inv.routed, fun asleep => ?_⟩
      · refine ⟨rest.alive, .inr ⟨rest.body, rest.started⟩, .inl none, fun fiber => ?_⟩
        rw [coroutine] at fiber
        cases fiber
      · rw [none] at asleep
        cases asleep
    · cases stepped
  · cases stepped
  · rename_i fiber
    split at stepped
    · rename_i asleep
      cases stepped
      have waits := inv.asleep asleep
      have idle := inv.idle (by rw [waits]; decide) (by rw [waits]; decide)
      have rest := inv.rest idle
      unfold RestOk at rest
      rw [waits] at rest
      refine ⟨fun e busy => absurd (idle e) busy, fun _ => ?_, inv.routed, fun absurd => ?_⟩
      · exact ⟨rest.alive, .inr ⟨rest.body, rest.started⟩, .inr ⟨fiber, rfl⟩, fun _ _ => rfl⟩
      · cases absurd
    · rename_i wants
      cases stepped
      refine ⟨fun e busy => ?_, fun idle => (inv.rest idle).signal wants, inv.routed,
        fun absurd => ?_⟩
      · obtain ⟨ok, others⟩ := inv.alone e busy
        exact ⟨ok.signal fiber wants, others⟩
      · cases absurd
    · cases stepped
      exact inv

/-- While no executor is with the task, it moves. -/
theorem Inv.moves (inv : Inv c s) (idle : ∀ e, s.pc e = .idle) (pc : t.pc = s.pc)
    (ok : RestOk c t) (fiber : t.fiber ≠ some .suspended) (pinTo : t.pinTo = s.pinTo) :
    Inv c t where
  alone e busy := by
    rw [pc] at busy
    exact absurd (idle e) busy
  rest _ := ok
  routed := by
    rw [pinTo]
    exact inv.routed
  asleep absurd := (fiber absurd).elim

theorem Ready.awake (ready : Ready c s) : s.fiber ≠ some .suspended := by
  intro asleep
  rcases ready.fiber with none | ⟨-, other⟩
  · rw [asleep] at none
    cases none
  · rw [asleep] at other
    cases other

/-- An executor takes a task that it may run. -/
theorem takes_ready (ok : RestOk c s) (takes : Takes c role s.loc) :
    Ready c s ∧ Suits c role := by
  unfold RestOk at ok
  cases role with
  | worker index =>
    rcases takes with loc | loc
    · rw [loc] at ok
      exact ⟨ok, trivial⟩
    · rw [loc] at ok
      exact ⟨ok, trivial⟩
  | spinHelp index =>
    obtain ⟨loc, coroutine⟩ := takes
    rw [loc] at ok
    exact ⟨ok, coroutine⟩
  | runMain =>
    rw [show s.loc = .mainQ from takes] at ok
    exact ok

theorem Inv.take (inv : Inv c s) (takes : Takes c role s.loc) :
    Inv c { s.go e (.taken role) with loc := .hand } := by
  have idle : ∀ r, s.pc r = .idle := by
    cases role with
    | worker index =>
      rcases takes with loc | loc
      · exact inv.idle (by rw [loc]; decide) (by rw [loc]; decide)
      · exact inv.idle (by rw [loc]; exact fun absurd => by cases absurd)
          (by rw [loc]; exact fun absurd => by cases absurd)
    | spinHelp index => exact inv.idle (by rw [takes.1]; decide) (by rw [takes.1]; decide)
    | runMain =>
      have loc : s.loc = .mainQ := takes
      exact inv.idle (by rw [loc]; decide) (by rw [loc]; decide)
  obtain ⟨ready, suits⟩ := takes_ready (inv.rest idle) takes
  constructor
  case alone =>
    intro r busy
    simp only [State.go] at busy ⊢
    rcases eq_or_ne r e with rfl | other
    · rw [Function.update_self]
      refine ⟨⟨rfl, ⟨ready.alive, ready.body, ready.fiber, ready.kept⟩, suits⟩, fun q apart => ?_⟩
      rw [Function.update_of_ne apart, idle q]
    · rw [Function.update_of_ne other] at busy
      exact absurd (idle r) busy
  case rest =>
    intro absurd
    have here := absurd e
    simp only [State.go] at here
    rw [Function.update_self] at here
    cases here
  case routed => exact inv.routed
  case asleep => exact fun absurd => (ready.awake absurd).elim

/-- A worker puts the task back. -/
theorem Inv.back (inv : Inv c s) {index : Nat} (here : s.pc e = .passed (.worker index))
    {started : Bool} {loc : Loc} (kept : s.started = true → started = true)
    (queued : ∀ t : State n, Ready c t → t.loc = loc → t.pinTo = s.pinTo → RestOk c t) :
    Inv c { s.touch.go e .idle with started := started, loc := loc } := by
  have busy := busy_of_pc here fun absurd => by cases absurd
  have ok := (inv.alone e busy).1
  rw [here] at ok
  obtain ⟨-, ready, -⟩ := ok
  refine inv.leaves busy rfl (queued _ ?_ rfl rfl) (fun here => absurd here (inv.awake busy))
    inv.routed
  exact ⟨ready.alive.touch, ready.body.imp id fun suspended => ⟨suspended.1, kept suspended.2⟩,
    ready.fiber, ready.kept⟩

theorem Inv.place_back (inv : Inv c s) (ready : Ready c t) (loc : t.loc = placeOf c s.pinTo)
    (pinTo : t.pinTo = s.pinTo) : RestOk c t :=
  place_ready ready (by rw [loc, pinTo]) (by rw [pinTo]; exact inv.routed)

/-- The task goes from its creator or its waker to a queue. -/
theorem Inv.queue (inv : Inv c s) (outside : s.loc = .unborn ∨ s.loc = .placing) {loc : Loc}
    (queued : Ready c { s with loc := loc } → RestOk c { s with loc := loc }) :
    Inv c { s with loc := loc } := by
  have free : s.loc ≠ .hand ∧ s.loc ≠ .gone := by
    rcases outside with here | here
    all_goals
      rw [here]
      decide
  have idle := inv.idle free.1 free.2
  have ready : Ready c s := by
    have ok := inv.rest idle
    unfold RestOk at ok
    rcases outside with here | here
    all_goals
      rw [here] at ok
      exact ok
  exact inv.moves idle rfl (queued ⟨ready.alive, ready.body, ready.fiber, ready.kept⟩) ready.awake
    rfl

theorem Inv.step (inv : Inv c s) (allowed : offMain c s a) (stepped : step c s a = some t) :
    Inv c t := by
  cases a with
  | advance e cancelled => exact inv.advance stepped
  | body e act => exact inv.bodyStep allowed stepped
  | resume => exact inv.resume stepped
  | take e role =>
    simp only [Executor.step] at stepped
    split at stepped
    · rename_i takes
      cases stepped
      exact inv.take takes.2
    · cases stepped
  | push =>
    simp only [Executor.step] at stepped
    split at stepped
    · rename_i unborn
      cases stepped
      exact inv.queue (.inl unborn) id
    · cases stepped
  | pushMain =>
    simp only [Executor.step] at stepped
    split at stepped
    · rename_i unborn
      cases stepped
      exact inv.queue (.inl unborn) fun ready => mainQueue_ready ready rfl allowed
    · cases stepped
  | giveBack e =>
    simp only [Executor.step] at stepped
    split at stepped
    · rename_i here
      cases stepped
      exact inv.back here id fun t ready loc pinTo => inv.place_back ready loc pinTo
    · cases stepped
  | noFiber e =>
    simp only [Executor.step] at stepped
    split at stepped
    · rename_i here
      split at stepped
      · rename_i fiber
        cases stepped
        refine inv.back here (fun _ => rfl) fun t ready loc pinTo => ?_
        split at loc
        · refine mainQueue_ready ready loc fun _ => ?_
          rw [fiber.1]
          decide
        · exact inv.place_back ready loc pinTo
      · cases stepped
    · cases stepped
  | place =>
    simp only [Executor.step] at stepped
    split at stepped
    · rename_i placing
      cases stepped
      by_cases started : s.started = true
      · rw [if_pos started]
        exact inv.queue (.inr placing) fun ready => inv.place_back ready rfl rfl
      · rw [if_neg started]
        exact inv.queue (.inr placing) id
    · cases stepped

theorem inv_of_reach (reach : Reach (Executor.step c) (offMain c) initial s) : Inv c s :=
  reach.invariant initial_inv fun inv allowed stepped => inv.step allowed stepped

/-! ## The end of a task -/

/-- What is promised of every task. -/
structure Completes (c : Setup) (s : State n) : Prop where
  done : s.ledger.dones ≤ c.waitGroup.toNat
  free : s.ledger.frees ≤ 1
  /-- Neither comes before the body has finished, or the unstarted task was discarded. -/
  after : 0 < s.ledger.dones ∨ 0 < s.ledger.frees →
    s.body = .finished ∨ s.ledger.discarded = true ∧ s.body = .fresh
  untouched : s.ledger.touched = false
  /-- In the end both were called. -/
  ended : s.loc = .gone → s.ledger.dones = c.waitGroup.toNat ∧ s.ledger.frees = 1
  /-- An executor that has the task goes on, and is the only one. -/
  goesOn : s.loc = .hand → ∃ e, (∀ r, r ≠ e → s.pc r = .idle) ∧
    ((step c s (.advance e false)).isSome = true ∨ (step c s (.body e .finish)).isSome = true)

theorem Completes.of {dones frees signals destroyed : Nat} {discarded : Bool}
    (ledger : s.ledger = ⟨dones, frees, signals, destroyed, discarded, false⟩)
    (done : dones ≤ c.waitGroup.toNat)
    (free : frees = 0 ∧ s.loc ≠ .gone ∨ frees = 1 ∧ dones = c.waitGroup.toNat)
    (after : dones = 0 ∧ frees = 0 ∨ s.body = .finished ∨ discarded = true ∧ s.body = .fresh)
    (goesOn : s.loc = .hand → ∃ e, (∀ r, r ≠ e → s.pc r = .idle) ∧
      ((step c s (.advance e false)).isSome = true ∨ (step c s (.body e .finish)).isSome = true)) :
    Completes c s where
  done := by
    rw [ledger]
    exact done
  free := by
    rw [ledger]
    change frees ≤ 1
    omega
  after some' := by
    rw [ledger] at some' ⊢
    rcases after with ⟨none, none'⟩ | ended
    · rw [none, none'] at some'
      exact some'.elim (fun absurd => by cases absurd) fun absurd => by cases absurd
    · exact ended
  untouched := by rw [ledger]
  ended gone := by
    rw [ledger]
    rcases free with ⟨-, other⟩ | ⟨once, all⟩
    · exact absurd gone other
    · exact ⟨all, once⟩
  goesOn := goesOn

/-- An executor with the task is never stuck. -/
theorem goes_on (c : Setup) (busy : s.pc e ≠ .idle) :
    (step c s (.advance e false)).isSome = true ∨ (step c s (.body e .finish)).isSome = true := by
  simp only [Executor.step, Executor.advance, Executor.bodyStep]
  cases here : s.pc e with
  | idle => exact absurd here busy
  | onStack | onFiber => exact .inr rfl
  | _ => exact .inl rfl

theorem Completes.of_alive (alive : Alive s) (loc : s.loc ≠ .gone)
    (goesOn : s.loc = .hand → ∃ e, (∀ r, r ≠ e → s.pc r = .idle) ∧
      ((step c s (.advance e false)).isSome = true ∨ (step c s (.body e .finish)).isSome = true)) :
    Completes c s :=
  .of alive (Nat.zero_le _) (.inl ⟨rfl, loc⟩) (.inl ⟨rfl, rfl⟩) goesOn

theorem RestOk.completes (rest : RestOk c s) : Completes c s := by
  unfold RestOk at rest
  have stays {loc : Loc} (here : s.loc = loc) (other : loc ≠ .hand) :
      s.loc = .hand → ∃ e, (∀ r, r ≠ e → s.pc r = .idle) ∧
        ((step c s (.advance e false)).isSome = true ∨
          (step c s (.body e .finish)).isSome = true) :=
    fun absurd => (other (here.symm.trans absurd)).elim
  cases loc : s.loc with
  | hand =>
    rw [loc] at rest
    exact rest.elim
  | gone =>
    rw [loc] at rest
    cases rest with
    | finished body signals destroyed freed reports =>
      exact .of freed le_rfl (.inr ⟨rfl, rfl⟩) (.inr (.inl body)) (stays loc (by decide))
    | discarded body discarded =>
      exact .of discarded le_rfl (.inr ⟨rfl, rfl⟩) (.inr (.inr ⟨rfl, body⟩))
        (stays loc (by decide))
  | mainQ =>
    rw [loc] at rest
    exact .of_alive rest.1.alive (by rw [loc]; decide) (stays loc (by decide))
  | waiting =>
    rw [loc] at rest
    exact .of_alive rest.alive (by rw [loc]; decide) (stays loc (by decide))
  | unborn | shared | placing =>
    rw [loc] at rest
    exact .of_alive rest.alive (by rw [loc]; decide) (stays loc (by decide))
  | inbox worker =>
    rw [loc] at rest
    exact .of_alive rest.alive (by rw [loc]; exact fun absurd => by cases absurd)
      (stays loc fun absurd => by cases absurd)

theorem PcOk.completes {pc : Pc} (ok : PcOk c s pc)
    (goesOn : ∃ e, (∀ r, r ≠ e → s.pc r = .idle) ∧
      ((step c s (.advance e false)).isSome = true ∨ (step c s (.body e .finish)).isSome = true)) :
    Completes c s := by
  have hand (loc : s.loc = .hand) : s.loc ≠ .gone := by
    rw [loc]
    decide
  have on : s.loc = .hand → ∃ e, (∀ r, r ≠ e → s.pc r = .idle) ∧
      ((step c s (.advance e false)).isSome = true ∨
        (step c s (.body e .finish)).isSome = true) := fun _ => goesOn
  cases pc with
  | idle => exact ok.elim
  | taken | passed => exact .of_alive ok.2.1.alive (hand ok.1) on
  | onStack | onFiber | leaving | returned | executed | completing =>
    exact .of_alive ok.2.1 (hand ok.1) on
  | discarding =>
    obtain ⟨loc, discarded, fresh⟩ := ok
    exact .of discarded (Nat.zero_le _) (.inl ⟨rfl, hand loc⟩) (.inl ⟨rfl, rfl⟩) on
  | discardFree =>
    obtain ⟨loc, discarded, fresh⟩ := ok
    exact .of discarded le_rfl (.inl ⟨rfl, hand loc⟩) (.inr (.inr ⟨rfl, fresh⟩)) on
  | releasing | freeing =>
    obtain ⟨loc, done, -, finished⟩ := ok
    exact .of done le_rfl (.inl ⟨rfl, hand loc⟩) (.inr (.inl finished)) on
  | completeFree =>
    obtain ⟨loc, done, -, -, finished⟩ := ok
    exact .of done le_rfl (.inl ⟨rfl, hand loc⟩) (.inr (.inl finished)) on
  | completeSignal | completed =>
    obtain ⟨loc, freed, -, -, finished⟩ := ok
    exact .of freed le_rfl (.inr ⟨rfl, rfl⟩) (.inr (.inl finished)) on

/-- Every task ends once, if main out of the pool is asked to run no coroutine. -/
theorem completes_once (reach : Reach (Executor.step c) (offMain c) initial s) :
    Completes c s := by
  have inv := inv_of_reach reach
  by_cases idle : ∀ e, s.pc e = .idle
  · exact (inv.rest idle).completes
  · push Not at idle
    obtain ⟨e, busy⟩ := idle
    obtain ⟨ok, others⟩ := inv.alone e busy
    exact ok.completes ⟨e, others, goes_on c busy⟩

/-- A task of the type, on a pool of one worker and main out of it. -/
def mainApart (type : TaskType) : Setup where
  type := type
  waitGroup := true
  dagNode := false
  outOfPool := true
  pinForced := false
  workers := 1

/-- A fiber that a worker has started is resumed on main and ends there. -/
def helpedLabels : List (Label 2) :=
  [.push, .take 0 (.worker 0), .advance 0 false, .advance 0 false, .body 0 (.suspend .main),
    .resume, .advance 0 false, .advance 0 false, .take 1 .runMain, .advance 1 false,
    .advance 1 false, .body 1 .finish, .advance 1 false, .advance 1 false, .advance 1 false]

def helped : State 2 :=
  (run (step (mainApart .fiber)) (offMain (mainApart .fiber)) initial helpedLabels).getD initial

theorem helped_completes : helped.loc = .gone ∧ Completes (mainApart .fiber) helped :=
  ⟨by decide +kernel, completes_once (Reach.of_isSome helpedLabels (by decide +kernel))⟩

/-- A coroutine that a worker has started is resumed on main and ends there. -/
def endedTwiceLabels : List (Label 2) :=
  [.push, .take 0 (.worker 0), .advance 0 false, .advance 0 false, .body 0 (.suspend .main),
    .resume, .place, .take 1 .runMain, .advance 1 false, .advance 1 false, .body 1 .finish,
    .advance 1 false, .advance 1 false, .advance 1 false, .advance 1 false, .advance 1 false,
    .advance 1 false]

def endedTwice : State 2 :=
  (run (step (mainApart .coroutine)) anyStep initial endedTwiceLabels).getD initial

/-- Its promise has ended the task, and then `RunMainTask` has. -/
theorem coroutine_ends_twice :
    Reach (Executor.step (mainApart .coroutine)) anyStep initial endedTwice ∧
      endedTwice.ledger = ⟨2, 2, 0, 1, false, true⟩ ∧
      ¬ Completes (mainApart .coroutine) endedTwice := by
  have ledger : endedTwice.ledger = ⟨2, 2, 0, 1, false, true⟩ := by decide +kernel
  refine ⟨Reach.of_isSome endedTwiceLabels (by decide +kernel), ledger, fun completes => ?_⟩
  have untouched := completes.untouched
  rw [ledger] at untouched
  cases untouched

end JLibSched.Executor
