import JLibSched.WaitGroup.Model

/-!
# Who may still touch a group whose waiter has left

A waiter owns its group and may destroy it when its wait returns.  So after that no step of
a call of `Done` may access the group: every call must be past its last access, the locked
section of `WakeAll` or the lowering of `waking` in `DoneBegin`.

A waiter that leaves through `Settle` has seen the count at zero and `waking` at zero, in
this order.  The count at zero says that every `Done` has decremented, `waking` at zero that
every one of them has given up its mark, so all of them are past their last access
(`quiet_of_zero`).

A task registered by `AddWaiter` does not settle.  It runs as soon as a wake list names it.
The step that takes the list sees the count at zero, but another completer may stand between
its decrement and the lowering of its mark.  `TakenQuietly` says that no such completer
exists when a list that holds a task is taken, and `returned_quiet` that under it no call
touches the group of a waiter that has returned.  Without it the group of a returned fiber is
written to (`fiber_returned_touched`).
-/

namespace JLibSched.WaitGroup

open Transition

/-! ## The counter word -/

@[simp] theorem countOf_or_waiterBit (n : Nat) : countOf (n ||| waiterBit) = countOf n := by
  have disjoint : waiterBit &&& countMask = 0 := by decide
  simp [countOf, Nat.and_or_distrib_right, disjoint]

@[simp] theorem countOf_and_notWaiterBit (n : Nat) :
    countOf (n &&& notWaiterBit) = countOf n := by
  have absorbed : notWaiterBit &&& countMask = countMask := by decide
  simp [countOf, Nat.and_assoc, absorbed]

theorem countOf_eq_mod (n : Nat) : countOf n = n % 2 ^ 30 :=
  Nat.and_two_pow_sub_one_eq_mod n 30

theorem countOf_pred {n : Nat} (pos : 0 < countOf n) : countOf (n - 1) + 1 = countOf n := by
  rw [countOf_eq_mod] at *
  rw [countOf_eq_mod]
  omega

variable {count dones waiters : Nat}

/-! ## Counting the completers -/

/-- One for a call that has decremented. -/
@[simp] def DonePc.decremented {W : Type} : DonePc W → Nat
  | .idle | .marked => 0
  | .unmark | .wakeAll | .wake _ _ _ => 1

/-- One for a call that holds a mark in `waking`. -/
@[simp] def DonePc.mark {W : Type} : DonePc W → Nat
  | .idle | .wake _ _ _ => 0
  | .marked | .unmark | .wakeAll => 1

/-- The count and `waking`, as the completers have left them. -/
structure Counted (count : Nat) (s : State dones waiters) : Prop where
  total : countOf s.group.n + ∑ i, (s.done i).decremented = count
  marks : s.group.waking = ∑ i, (s.done i).mark

/-- No call of `Done` has an access of the group left. -/
def Quiet (s : State dones waiters) : Prop :=
  ∀ i, (s.done i).touchesGroup = false

theorem DonePc.decremented_le_one {W : Type} (pc : DonePc W) : pc.decremented ≤ 1 := by
  cases pc <;> simp [DonePc.decremented]

theorem sum_decremented_le (done : Fin dones → DonePc (Fin waiters)) :
    ∑ i, (done i).decremented ≤ dones := by
  calc ∑ i, (done i).decremented
      ≤ ∑ _i : Fin dones, 1 := Finset.sum_le_sum fun i _ => (done i).decremented_le_one
    _ = dones := by simp

/-- A call that has not decremented leaves room below the number of calls. -/
theorem sum_decremented_lt {done : Fin dones → DonePc (Fin waiters)} {i : Fin dones}
    (waiting : (done i).decremented = 0) : ∑ j, (done j).decremented < dones := by
  have moved := sum_update DonePc.decremented done i .unmark
  have bound := sum_decremented_le (Function.update done i .unmark)
  have one : (DonePc.unmark : DonePc (Fin waiters)).decremented = 1 := rfl
  omega

/-- At count zero and with no mark held, every call is past its last access. -/
theorem quiet_of_zero {s : State dones waiters} (counted : Counted count s)
    (enough : dones ≤ count) (zero : countOf s.group.n = 0) (unmarked : s.group.waking = 0) :
    Quiet s := by
  intro i
  have noMark : (s.done i).mark = 0 := by
    have := le_sum DonePc.mark s.done i
    rw [← counted.marks, unmarked] at this
    omega
  have decremented : (s.done i).decremented ≠ 0 := by
    intro none
    have := sum_decremented_lt none
    have := counted.total
    omega
  cases pc : s.done i <;> simp_all [DonePc.mark, DonePc.decremented, DonePc.touchesGroup]

/-! ## What one step can do -/

/-- Past the lock a call works on its local copies. -/
theorem doneMove_wake {W : Type} {g g' : Group W} {threads : List W} {mainWord : Option W}
    {tasks : List W} {pc' : DonePc W} {signal : Signal W}
    (moved : doneMove g (.wake threads mainWord tasks) = some (g', pc', signal)) :
    g' = g ∧ ∃ threads' mainWord' tasks', pc' = .wake threads' mainWord' tasks' := by
  rcases threads with _ | ⟨_, threads⟩
  · rcases mainWord with _ | t
    · rcases tasks with _ | ⟨_, tasks⟩
      · cases moved
      · cases moved; exact ⟨rfl, _, _, _, rfl⟩
    · cases moved; exact ⟨rfl, _, _, _, rfl⟩
  · cases moved; exact ⟨rfl, _, _, _, rfl⟩

/-- A step of `Done` moves the count with its own decrement and `waking` with its own mark. -/
theorem doneMove_counts {W : Type} {g g' : Group W} {pc pc' : DonePc W} {signal : Signal W}
    (moved : doneMove g pc = some (g', pc', signal))
    (room : pc.decremented = 0 → 0 < countOf g.n) (held : pc.mark ≤ g.waking) :
    countOf g'.n + pc'.decremented = countOf g.n + pc.decremented ∧
      g'.waking + pc.mark = g.waking + pc'.mark := by
  cases pc with
  | idle =>
    simp only [doneMove, Option.some.injEq, Prod.mk.injEq] at moved
    obtain ⟨rfl, rfl, -⟩ := moved
    simp
  | marked =>
    have pred := countOf_pred (room rfl)
    simp only [doneMove] at moved
    split at moved <;>
    · simp only [Option.some.injEq, Prod.mk.injEq] at moved
      obtain ⟨rfl, rfl, -⟩ := moved
      simp [pred]
  | unmark =>
    simp only [doneMove, Option.some.injEq, Prod.mk.injEq] at moved
    obtain ⟨rfl, rfl, -⟩ := moved
    simp only [DonePc.mark] at held
    simp [Nat.sub_add_cancel held]
  | wakeAll =>
    simp only [doneMove, Option.some.injEq, Prod.mk.injEq] at moved
    obtain ⟨rfl, rfl, -⟩ := moved
    simp only [DonePc.mark] at held
    simp [Group.wakeAllLocked, Nat.sub_add_cancel held]
  | wake threads mainWord tasks =>
    obtain ⟨rfl, _, _, _, rfl⟩ := doneMove_wake moved
    exact ⟨rfl, rfl⟩

/-- A waiter leaves the count and `waking` as they are. -/
theorem waiterMove_counts {W : Type} [DecidableEq W] {g g' : Group W} {w : W}
    {me me' : Waiter W} {choice : Bool} {signal : Signal W}
    (moved : waiterMove g w me choice = some (g', me', signal)) :
    countOf g'.n = countOf g.n ∧ g'.waking = g.waking := by
  unfold waiterMove at moved
  split at moved <;> (try split at moved) <;>
    simp only [Option.some.injEq, Prod.mk.injEq, reduceCtorEq] at moved <;>
    obtain ⟨rfl, -, -⟩ := moved <;> simp

/-- A waiter at this point has seen the count at zero. -/
def WaiterPc.sawZero {W : Type} : WaiterPc W → Bool
  | .directTake | .settleSpin | .workerExit => true
  | _ => false

theorem waiterMove_sawZero {W : Type} [DecidableEq W] {g g' : Group W} {w : W}
    {me me' : Waiter W} {choice : Bool} {signal : Signal W}
    (moved : waiterMove g w me choice = some (g', me', signal))
    (saw : me'.pc.sawZero) : me.pc.sawZero ∨ countOf g.n = 0 := by
  unfold waiterMove at moved
  split at moved <;> (try split at moved) <;>
    simp only [Option.some.injEq, Prod.mk.injEq, reduceCtorEq] at moved <;>
    obtain ⟨-, rfl, -⟩ := moved <;> cases choice <;> simp_all [WaiterPc.sawZero]

/-! ## Who has been let go -/

/-- A waiter past this point may leave, or is about to name one that may. -/
def WaiterPc.released {W : Type} : WaiterPc W → Bool
  | .directClear _ | .directWake (_ :: _) | .settleLock | .left => true
  | _ => false

def Waiter.released {W : Type} (me : Waiter W) : Bool :=
  me.woken || me.returned || me.pc.released

/-- A call past its lock with a task to wake. -/
def DonePc.released {W : Type} : DonePc W → Bool
  | .wake _ _ (_ :: _) => true
  | _ => false

def Signal.isWake {W : Type} : Signal W → Bool
  | .wake _ => true
  | _ => false

/-- Only the locked section of `WakeAll` lets a registered task go. -/
theorem doneMove_released {W : Type} {g g' : Group W} {pc pc' : DonePc W} {signal : Signal W}
    (moved : doneMove g pc = some (g', pc', signal))
    (released : pc'.released ∨ signal.isWake) :
    pc.released ∨ (pc = .wakeAll ∧ g.taskWaiters ≠ []) := by
  cases pc with
  | idle => cases moved; simp [DonePc.released, Signal.isWake] at released
  | marked =>
    simp only [doneMove] at moved
    split at moved <;> cases moved <;> simp [DonePc.released, Signal.isWake] at released
  | unmark => cases moved; simp [DonePc.released, Signal.isWake] at released
  | wakeAll =>
    cases moved
    rcases tasks : g.taskWaiters with _ | ⟨t, rest⟩
    · simp [DonePc.released, Signal.isWake, tasks] at released
    · exact Or.inr ⟨rfl, by simp⟩
  | wake threads mainWord tasks =>
    rcases tasks with _ | ⟨t, rest⟩
    · rcases threads with _ | ⟨_, threads⟩
      · rcases mainWord with _ | t <;> cases moved
        simp [DonePc.released, Signal.isWake] at released
      · cases moved
        simp [DonePc.released, Signal.isWake] at released
    · exact Or.inl rfl

/-- A waiter lets a task go by taking the list, and itself by seeing `waking` at zero. -/
theorem waiterMove_released {W : Type} [DecidableEq W] {g g' : Group W} {w : W}
    {me me' : Waiter W} {choice : Bool} {signal : Signal W}
    (moved : waiterMove g w me choice = some (g', me', signal))
    (released : me'.released ∨ signal.isWake) :
    me.released ∨ (me.pc = .directTake ∧ g.taskWaiters ≠ []) ∨
      (me.pc = .settleSpin ∧ g.waking = 0) := by
  unfold waiterMove at moved
  split at moved <;> (try split at moved) <;>
    simp only [Option.some.injEq, Prod.mk.injEq, reduceCtorEq] at moved <;>
    obtain ⟨-, rfl, rfl⟩ := moved <;> cases choice <;>
    simp_all [Waiter.released, WaiterPc.released, Signal.isWake]

theorem resumeMove_released {W : Type} [DecidableEq W] {me me' : Waiter W}
    (moved : resumeMove me = some me') : me.released := by
  unfold resumeMove at moved
  split at moved
  · rename_i woken
    simp [Waiter.released, woken.1]
  · cases moved

theorem resumeMove_pc {W : Type} [DecidableEq W] {me me' : Waiter W}
    (moved : resumeMove me = some me') : me'.pc = me.pc := by
  unfold resumeMove at moved
  split at moved
  · split at moved
    · split at moved <;> cases moved
      rfl
    · cases moved
      rfl
    · cases moved
  · cases moved

/-! ## The step function, inverted -/

theorem step_done {s t : State dones waiters} {i : Fin dones}
    (stepped : step s (.done i) = some t) :
    ∃ g pc signal, doneMove s.group (s.done i) = some (g, pc, signal) ∧
      t = ⟨g, Function.update s.done i pc, signal.apply s.waiter⟩ := by
  simp only [step, doneStep, Option.map_eq_some_iff] at stepped
  obtain ⟨⟨g, pc, signal⟩, moved, rfl⟩ := stepped
  exact ⟨g, pc, signal, moved, rfl⟩

theorem step_waiter {s t : State dones waiters} {w : Fin waiters} {choice : Bool}
    (stepped : step s (.waiter w choice) = some t) :
    ∃ g me signal, waiterMove s.group w (s.waiter w) choice = some (g, me, signal) ∧
      t = ⟨g, s.done, signal.apply (Function.update s.waiter w me)⟩ := by
  simp only [step, waiterStep, Option.map_eq_some_iff] at stepped
  obtain ⟨⟨g, me, signal⟩, moved, rfl⟩ := stepped
  exact ⟨g, me, signal, moved, rfl⟩

theorem step_resume {s t : State dones waiters} {w : Fin waiters}
    (stepped : step s (.resume w) = some t) :
    ∃ me, resumeMove (s.waiter w) = some me ∧
      t = ⟨s.group, s.done, Function.update s.waiter w me⟩ := by
  simp only [step, resumeStep, Option.map_eq_some_iff] at stepped
  obtain ⟨me, moved, rfl⟩ := stepped
  exact ⟨me, moved, rfl⟩

/-! ## Invariants of a run -/

/-- A list that holds a task is taken only when no other completer holds a mark: one mark, its
own, for the locked section of `WakeAll`, none for `WakeAllDirect`. -/
def TakenQuietly (s : State dones waiters) : Label dones waiters → Prop
  | .done i => s.done i = .wakeAll → s.group.taskWaiters ≠ [] → s.group.waking = 1
  | .waiter w _ => (s.waiter w).pc = .directTake → s.group.taskWaiters ≠ [] →
      s.group.waking = 0
  | .resume _ => True

instance (s : State dones waiters) : ∀ a, Decidable (TakenQuietly s a)
  | .done i => inferInstanceAs (Decidable (s.done i = .wakeAll → _ → _))
  | .waiter w _ => inferInstanceAs (Decidable ((s.waiter w).pc = .directTake → _ → _))
  | .resume _ => isTrue trivial

theorem initial_counted (count dones : Nat) (kinds : Fin waiters → WaiterKind)
    (fits : count ≤ countMask) : Counted count (initial count dones kinds) where
  total := by
    have small : count < 2 ^ 30 := by
      have : countMask < 2 ^ 30 := by decide
      omega
    have whole : countOf count = count := by rw [countOf_eq_mod, Nat.mod_eq_of_lt small]
    simp [initial, whole]
  marks := by simp [initial]

theorem step_counted {s t : State dones waiters} {a : Label dones waiters}
    (enough : dones ≤ count) (counted : Counted count s) (stepped : step s a = some t) :
    Counted count t := by
  cases a with
  | done i =>
    obtain ⟨g, pc, signal, moved, rfl⟩ := step_done stepped
    have room : (s.done i).decremented = 0 → 0 < countOf s.group.n := by
      intro waiting
      have := sum_decremented_lt waiting
      have := counted.total
      omega
    have held : (s.done i).mark ≤ s.group.waking := by
      rw [counted.marks]
      exact le_sum DonePc.mark s.done i
    obtain ⟨total, marks⟩ := doneMove_counts moved room held
    have sums := sum_update DonePc.decremented s.done i pc
    have sumMarks := sum_update DonePc.mark s.done i pc
    have := counted.total
    have := counted.marks
    exact ⟨by simp only; omega, by simp only; omega⟩
  | waiter w choice =>
    obtain ⟨g, me, signal, moved, rfl⟩ := step_waiter stepped
    obtain ⟨sameCount, sameWaking⟩ := waiterMove_counts moved
    exact ⟨by simpa only [sameCount] using counted.total,
      by simpa only [sameWaking] using counted.marks⟩
  | resume w =>
    obtain ⟨me, moved, rfl⟩ := step_resume stepped
    exact ⟨counted.total, counted.marks⟩

/-- Whoever acts on a count of zero still finds it there. -/
structure ZeroSeen (s : State dones waiters) : Prop where
  wakeAll : ∀ i, s.done i = .wakeAll → countOf s.group.n = 0
  waiter : ∀ w, (s.waiter w).pc.sawZero → countOf s.group.n = 0

theorem signal_apply_pc (signal : Signal (Fin waiters)) (f : Fin waiters → Waiter (Fin waiters))
    (w : Fin waiters) : (signal.apply f w).pc = (f w).pc := by
  cases signal with
  | none => rfl
  | kick v => by_cases same : w = v <;> simp [Signal.apply, same]
  | wake v => by_cases same : w = v <;> simp [Signal.apply, same]

theorem signal_apply_released {signal : Signal (Fin waiters)}
    {f : Fin waiters → Waiter (Fin waiters)} {w : Fin waiters}
    (released : (signal.apply f w).released) : (f w).released ∨ signal.isWake := by
  cases signal with
  | none => exact Or.inl released
  | kick v =>
    by_cases same : w = v
    · subst same
      simpa [Signal.apply, Waiter.released, Signal.isWake] using released
    · simpa [Signal.apply, same, Signal.isWake] using released
  | wake v => exact Or.inr rfl

theorem doneMove_wakeAll {W : Type} {g g' : Group W} {pc pc' : DonePc W} {signal : Signal W}
    (moved : doneMove g pc = some (g', pc', signal)) (wakes : pc' = .wakeAll) :
    countOf g.n = 1 ∧ pc = .marked := by
  subst wakes
  cases pc with
  | idle => cases moved
  | marked =>
    simp only [doneMove] at moved
    split at moved
    · rename_i last
      exact ⟨last.1, rfl⟩
    · cases moved
  | unmark => cases moved
  | wakeAll => cases moved
  | wake threads mainWord tasks =>
    obtain ⟨-, _, _, _, absurdPc⟩ := doneMove_wake moved
    cases absurdPc

/-- A call that has decremented stays so. -/
theorem doneMove_decremented {W : Type} {g g' : Group W} {pc pc' : DonePc W}
    {signal : Signal W} (moved : doneMove g pc = some (g', pc', signal))
    (decremented : pc.decremented = 1) : pc'.decremented = 1 := by
  cases pc with
  | idle => simp at decremented
  | marked => simp at decremented
  | unmark => cases moved; rfl
  | wakeAll => cases moved; rfl
  | wake threads mainWord tasks =>
    obtain ⟨-, _, _, _, rfl⟩ := doneMove_wake moved
    rfl

/-- At count zero every call has decremented. -/
theorem Counted.all_decremented {s : State dones waiters} (enough : dones ≤ count)
    (counted : Counted count s) (zero : countOf s.group.n = 0) (i : Fin dones) :
    (s.done i).decremented = 1 := by
  have notWaiting : (s.done i).decremented ≠ 0 := by
    intro waiting
    have := sum_decremented_lt waiting
    have := counted.total
    omega
  have := (s.done i).decremented_le_one
  omega

theorem step_keeps_zero {s t : State dones waiters} {a : Label dones waiters}
    (enough : dones ≤ count) (counted : Counted count s) (zero : countOf s.group.n = 0)
    (stepped : step s a = some t) : countOf t.group.n = 0 := by
  have after := step_counted enough counted stepped
  have total := after.total
  have allDone : ∀ i, (t.done i).decremented = 1 := by
    cases a with
    | done i =>
      obtain ⟨g, pc, signal, moved, rfl⟩ := step_done stepped
      intro j
      by_cases same : j = i
      · subst same
        simpa using doneMove_decremented moved (counted.all_decremented enough zero j)
      · simpa [same] using counted.all_decremented enough zero j
    | waiter w choice =>
      obtain ⟨g, me, signal, moved, rfl⟩ := step_waiter stepped
      intro i
      exact counted.all_decremented enough zero i
    | resume w =>
      obtain ⟨me, moved, rfl⟩ := step_resume stepped
      intro i
      exact counted.all_decremented enough zero i
  have before : ∑ i, (s.done i).decremented = ∑ i, (t.done i).decremented :=
    Finset.sum_congr rfl fun i _ => by
      rw [allDone i, counted.all_decremented enough zero i]
  have := counted.total
  omega

theorem initial_zeroSeen (count dones : Nat) (kinds : Fin waiters → WaiterKind) :
    ZeroSeen (initial count dones kinds) where
  wakeAll := by simp [initial]
  waiter := by
    intro w saw
    cases kind : kinds w <;>
      simp [initial, Waiter.initial, WaiterKind.entry, WaiterPc.sawZero, kind] at saw

theorem step_zeroSeen {s t : State dones waiters} {a : Label dones waiters}
    (enough : dones ≤ count) (counted : Counted count s) (seen : ZeroSeen s)
    (stepped : step s a = some t) : ZeroSeen t := by
  have keeps := fun zero => step_keeps_zero enough counted zero stepped
  cases a with
  | done i =>
    have after := step_counted enough counted stepped
    obtain ⟨g, pc, signal, moved, rfl⟩ := step_done stepped
    refine ⟨fun j wakes => ?_, fun w saw => ?_⟩
    · by_cases same : j = i
      · subst same
        simp only [Function.update_self] at wakes
        obtain ⟨one, marked⟩ := doneMove_wakeAll moved wakes
        have counts := doneMove_counts moved (fun _ => by omega)
          (counted.marks ▸ le_sum DonePc.mark s.done j)
        simp only [wakes, marked, DonePc.decremented] at counts
        show countOf g.n = 0
        omega
      · simp only [Function.update_of_ne same] at wakes
        exact keeps (seen.wakeAll j wakes)
    · simp only [signal_apply_pc] at saw
      exact keeps (seen.waiter w saw)
  | waiter w choice =>
    obtain ⟨g, me, signal, moved, rfl⟩ := step_waiter stepped
    refine ⟨fun j wakes => keeps (seen.wakeAll j wakes), fun v saw => keeps ?_⟩
    simp only [signal_apply_pc] at saw
    by_cases same : v = w
    · subst same
      simp only [Function.update_self] at saw
      rcases waiterMove_sawZero moved saw with before | zero
      · exact seen.waiter v before
      · exact zero
    · simp only [Function.update_of_ne same] at saw
      exact seen.waiter v saw
  | resume w =>
    obtain ⟨me, moved, rfl⟩ := step_resume stepped
    refine ⟨seen.wakeAll, fun v saw => ?_⟩
    by_cases same : v = w
    · subst same
      simp only [Function.update_self] at saw
      exact seen.waiter v (resumeMove_pc moved ▸ saw)
    · simp only [Function.update_of_ne same] at saw
      exact seen.waiter v saw

/-- Somebody has been let go. -/
def Released (s : State dones waiters) : Prop :=
  (∃ w, (s.waiter w).released) ∨ ∃ i, (s.done i).released

theorem initial_not_released (count dones : Nat) (kinds : Fin waiters → WaiterKind) :
    ¬ Released (initial count dones kinds) := by
  rintro (⟨w, released⟩ | ⟨i, released⟩)
  · cases kind : kinds w <;>
      simp [initial, Waiter.initial, WaiterKind.entry, Waiter.released, WaiterPc.released,
        kind] at released
  · simp [initial, DonePc.released] at released

/-- The three steps that let somebody go: a list that holds a task is taken, under the lock
or directly, or a settling waiter sees `waking` at zero. -/
inductive Releases (s : State dones waiters) : Label dones waiters → Prop where
  | wakeAll {i : Fin dones} : s.done i = .wakeAll → s.group.taskWaiters ≠ [] →
      Releases s (.done i)
  | direct {w : Fin waiters} {choice : Bool} : (s.waiter w).pc = .directTake →
      s.group.taskWaiters ≠ [] → Releases s (.waiter w choice)
  | settle {w : Fin waiters} {choice : Bool} : (s.waiter w).pc = .settleSpin →
      s.group.waking = 0 → Releases s (.waiter w choice)

theorem step_released {s t : State dones waiters} {a : Label dones waiters}
    (stepped : step s a = some t) (released : Released t) : Released s ∨ Releases s a := by
  cases a with
  | done i =>
    obtain ⟨g, pc, signal, moved, rfl⟩ := step_done stepped
    have fromMove (h : pc.released ∨ signal.isWake) : Released s ∨ Releases s (.done i) := by
      rcases doneMove_released moved h with before | ⟨at_, tasks⟩
      · exact Or.inl (Or.inr ⟨i, before⟩)
      · exact Or.inr (.wakeAll at_ tasks)
    rcases released with ⟨w, released⟩ | ⟨j, released⟩
    · rcases signal_apply_released released with before | wakes
      · exact Or.inl (Or.inl ⟨w, before⟩)
      · exact fromMove (Or.inr wakes)
    · by_cases same : j = i
      · subst same
        simp only [Function.update_self] at released
        exact fromMove (Or.inl released)
      · simp only [Function.update_of_ne same] at released
        exact Or.inl (Or.inr ⟨j, released⟩)
  | waiter w choice =>
    obtain ⟨g, me, signal, moved, rfl⟩ := step_waiter stepped
    have fromMove (h : me.released ∨ signal.isWake) :
        Released s ∨ Releases s (.waiter w choice) := by
      rcases waiterMove_released moved h with before | ⟨at_, tasks⟩ | ⟨at_, zero⟩
      · exact Or.inl (Or.inl ⟨w, before⟩)
      · exact Or.inr (.direct at_ tasks)
      · exact Or.inr (.settle at_ zero)
    rcases released with ⟨v, released⟩ | ⟨j, released⟩
    · rcases signal_apply_released released with own | wakes
      · by_cases same : v = w
        · subst same
          simp only [Function.update_self] at own
          exact fromMove (Or.inl own)
        · simp only [Function.update_of_ne same] at own
          exact Or.inl (Or.inl ⟨v, own⟩)
      · exact fromMove (Or.inr wakes)
    · exact Or.inl (Or.inr ⟨j, released⟩)
  | resume w =>
    obtain ⟨me, moved, rfl⟩ := step_resume stepped
    exact Or.inl (Or.inl ⟨w, resumeMove_released moved⟩)

/-- Once every call is past its last access it stays so. -/
theorem step_quiet {s t : State dones waiters} {a : Label dones waiters}
    (quiet : Quiet s) (stepped : step s a = some t) : Quiet t := by
  cases a with
  | done i =>
    obtain ⟨g, pc, signal, moved, rfl⟩ := step_done stepped
    intro j
    by_cases same : j = i
    · subst same
      simp only [Function.update_self]
      have past := quiet j
      cases at_ : s.done j with
      | wake threads mainWord tasks =>
        rw [at_] at moved
        obtain ⟨-, _, _, _, rfl⟩ := doneMove_wake moved
        rfl
      | _ => simp [at_, DonePc.touchesGroup] at past
    · simp only [Function.update_of_ne same]
      exact quiet j
  | waiter w choice =>
    obtain ⟨g, me, signal, moved, rfl⟩ := step_waiter stepped
    exact quiet
  | resume w =>
    obtain ⟨me, moved, rfl⟩ := step_resume stepped
    exact quiet

/-- The step that lets somebody go leaves count and `waking` at zero, when it is allowed. -/
theorem release_quiet {s t : State dones waiters} {a : Label dones waiters}
    (enough : dones ≤ count) (counted : Counted count s) (seen : ZeroSeen s)
    (allowed : TakenQuietly s a) (stepped : step s a = some t) (releases : Releases s a) :
    Quiet t := by
  have after := step_counted enough counted stepped
  have keeps := fun zero => step_keeps_zero enough counted zero stepped
  cases releases with
  | @wakeAll i at_ tasks =>
    have one := allowed at_ tasks
    refine quiet_of_zero after enough (keeps (seen.wakeAll i at_)) ?_
    obtain ⟨g, pc, signal, moved, rfl⟩ := step_done stepped
    rw [at_] at moved
    cases moved
    simp [Group.wakeAllLocked, one]
  | @direct w choice at_ tasks =>
    refine quiet_of_zero after enough
      (keeps (seen.waiter w (by simp [at_, WaiterPc.sawZero]))) ?_
    obtain ⟨g, me, signal, moved, rfl⟩ := step_waiter stepped
    exact (waiterMove_counts moved).2.trans (allowed at_ tasks)
  | @settle w choice at_ zero =>
    refine quiet_of_zero after enough
      (keeps (seen.waiter w (by simp [at_, WaiterPc.sawZero]))) ?_
    obtain ⟨g, me, signal, moved, rfl⟩ := step_waiter stepped
    exact (waiterMove_counts moved).2.trans zero

/-- Everything the run keeps: the counts, whoever saw zero, and quiet after a release. -/
structure Inv (count : Nat) (s : State dones waiters) : Prop where
  counted : Counted count s
  seen : ZeroSeen s
  quiet : Released s → Quiet s

theorem reach_inv {kinds : Fin waiters → WaiterKind} (enough : dones ≤ count)
    (fits : count ≤ countMask) {s : State dones waiters}
    (reach : Reach step TakenQuietly (initial count dones kinds) s) : Inv count s := by
  refine Reach.invariant (I := Inv count) ?_ ?_ reach
  · exact ⟨initial_counted count dones kinds fits, initial_zeroSeen count dones kinds,
      fun released => absurd released (initial_not_released count dones kinds)⟩
  · intro s t a inv allowed stepped
    refine ⟨step_counted enough inv.counted stepped,
      step_zeroSeen enough inv.counted inv.seen stepped, fun released => ?_⟩
    rcases step_released stepped released with before | releases
    · exact step_quiet (inv.quiet before) stepped
    · exact release_quiet enough inv.counted inv.seen allowed stepped releases

/-! ## The theorem -/

/-- In a run whose wake lists are taken quietly, no call of `Done` touches the group of a
waiter that has returned, then or later. -/
theorem returned_quiet (count dones waiters : Nat) (kinds : Fin waiters → WaiterKind)
    (enough : dones ≤ count) (fits : count ≤ countMask) (s : State dones waiters)
    (reach : Reach step TakenQuietly (initial count dones kinds) s) (w : Fin waiters)
    (returned : (s.waiter w).returned) : ∀ i, (s.done i).touchesGroup = false :=
  (reach_inv enough fits reach).quiet (Or.inl ⟨w, by simp [Waiter.released, returned]⟩)

/-- A fiber registers, and both completers mark the group; the first one decrements and lowers its
mark before the second one takes the list and wakes the fiber, whose wait returns. -/
def fiberLeaves : List (Label 2 1) :=
  [.waiter 0 true, .waiter 0 true, .waiter 0 true, .done 0, .done 1, .done 0, .done 0,
   .done 1, .done 1, .done 1, .resume 0]

theorem fiber_returned_quiet :
    ∃ s : State 2 1, Reach step TakenQuietly (initial 2 2 fun _ => .fiber) s ∧
      (s.waiter 0).returned ∧ ∀ i, (s.done i).touchesGroup = false := by
  have ran : (run step TakenQuietly (initial 2 2 fun _ => .fiber) fiberLeaves).isSome := by
    decide
  obtain ⟨s, ran⟩ := Option.isSome_iff_exists.mp ran
  have reach : Reach step TakenQuietly (initial 2 2 fun _ => .fiber) s := Reach.of_run .start ran
  have returned : (s.waiter 0).returned := by
    cases ran
    decide
  exact ⟨s, reach, returned,
    returned_quiet 2 2 1 _ (by decide) (by decide) s reach 0 returned⟩

/-- Two calls of `Done` and a registered fiber: the first call decrements and stops before it
lowers its mark, the second takes the list and wakes the fiber, the fiber's wait returns. -/
def fiberLeavesEarly : List (Label 2 1) :=
  [.waiter 0 true, .waiter 0 true, .waiter 0 true,
   .done 0, .done 0,
   .done 1, .done 1, .done 1, .done 1,
   .resume 0]

theorem fiber_returned_touched :
    ∃ s : State 2 1, Reach step anyStep (initial 2 2 fun _ => .fiber) s ∧
      (s.waiter 0).returned ∧ (s.done 0).touchesGroup := by
  have ran : run step anyStep (initial 2 2 fun _ => .fiber) fiberLeavesEarly = some _ := rfl
  exact ⟨_, Reach.of_run .start ran, by decide, by decide⟩

/-! ## Waiters that settle

Without a registered task the condition says nothing, so a waiter that leaves through `Settle`
may always destroy the group. -/

/-- A kind of wait that never registers a task. -/
def WaiterKind.settles : WaiterKind → Bool
  | .fiber | .coroutine => false
  | .blockThread | .outOfPoolMain | .barePoll | .inPoolMain => true

/-- A point on the way to a registered task. -/
def WaiterPc.registers {W : Type} : WaiterPc W → Bool
  | .awaitReady | .addLoad | .addCas _ | .addBit | .directTake | .directClear _
  | .directWake _ | .suspended => true
  | _ => false

/-- No task is registered and nobody is about to register one. -/
structure NoTasks (s : State dones waiters) : Prop where
  empty : s.group.taskWaiters = []
  none : ∀ w, (s.waiter w).pc.registers = false

theorem waiterMove_noTasks {W : Type} [DecidableEq W] {g g' : Group W} {w : W}
    {me me' : Waiter W} {choice : Bool} {signal : Signal W}
    (moved : waiterMove g w me choice = some (g', me', signal))
    (none : me.pc.registers = false) :
    g'.taskWaiters = g.taskWaiters ∧ me'.pc.registers = false := by
  unfold waiterMove at moved
  split at moved <;> (try split at moved) <;>
    simp only [Option.some.injEq, Prod.mk.injEq, reduceCtorEq] at moved <;>
    obtain ⟨rfl, rfl, -⟩ := moved <;> cases choice <;> simp_all [WaiterPc.registers]

theorem doneMove_noTasks {W : Type} {g g' : Group W} {pc pc' : DonePc W} {signal : Signal W}
    (moved : doneMove g pc = some (g', pc', signal)) (empty : g.taskWaiters = []) :
    g'.taskWaiters = [] := by
  cases pc with
  | idle => cases moved; exact empty
  | marked =>
    simp only [doneMove] at moved
    split at moved <;> cases moved <;> exact empty
  | unmark => cases moved; exact empty
  | wakeAll => cases moved; rfl
  | wake threads mainWord tasks =>
    obtain ⟨rfl, -⟩ := doneMove_wake moved
    exact empty

theorem step_noTasks {s t : State dones waiters} {a : Label dones waiters}
    (noTasks : NoTasks s) (stepped : step s a = some t) : NoTasks t := by
  cases a with
  | done i =>
    obtain ⟨g, pc, signal, moved, rfl⟩ := step_done stepped
    refine ⟨doneMove_noTasks moved noTasks.empty, fun w => ?_⟩
    simp only [signal_apply_pc]
    exact noTasks.none w
  | waiter w choice =>
    obtain ⟨g, me, signal, moved, rfl⟩ := step_waiter stepped
    obtain ⟨same, none⟩ := waiterMove_noTasks moved (noTasks.none w)
    refine ⟨same.trans noTasks.empty, fun v => ?_⟩
    simp only [signal_apply_pc]
    by_cases own : v = w
    · subst own
      simpa using none
    · simpa [own] using noTasks.none v
  | resume w =>
    obtain ⟨me, moved, rfl⟩ := step_resume stepped
    refine ⟨noTasks.empty, fun v => ?_⟩
    by_cases own : v = w
    · subst own
      simpa [resumeMove_pc moved] using noTasks.none v
    · simpa [own] using noTasks.none v

/-- With no task registered every run takes its lists quietly. -/
theorem NoTasks.takenQuietly {s : State dones waiters} (noTasks : NoTasks s)
    (a : Label dones waiters) : TakenQuietly s a := by
  cases a with
  | done i => exact fun _ tasks => absurd noTasks.empty tasks
  | waiter w choice => exact fun _ tasks => absurd noTasks.empty tasks
  | resume w => trivial

theorem settling_reach (count dones : Nat) {kinds : Fin waiters → WaiterKind}
    (settles : ∀ w, (kinds w).settles) {s : State dones waiters}
    (reach : Reach step anyStep (initial count dones kinds) s) :
    NoTasks s ∧ Reach step TakenQuietly (initial count dones kinds) s := by
  refine Reach.invariant
    (I := fun s => NoTasks s ∧ Reach step TakenQuietly (initial count dones kinds) s)
    ⟨⟨rfl, fun w => ?_⟩, .start⟩ ?_ reach
  · have own := settles w
    cases kind : kinds w <;>
      simp [kind, WaiterKind.settles] at own <;>
      simp [initial, Waiter.initial, kind, WaiterKind.entry, WaiterPc.registers]
  · rintro s t a ⟨noTasks, reach⟩ - stepped
    exact ⟨step_noTasks noTasks stepped, reach.next (noTasks.takenQuietly a) stepped⟩

/-- A waiter that settles may destroy the group, whatever the interleaving. -/
theorem settled_quiet (enough : dones ≤ count) (fits : count ≤ countMask)
    {kinds : Fin waiters → WaiterKind} (settles : ∀ w, (kinds w).settles)
    {s : State dones waiters} (reach : Reach step anyStep (initial count dones kinds) s)
    {w : Fin waiters} (returned : (s.waiter w).returned) : Quiet s :=
  (reach_inv enough fits (settling_reach count dones settles reach).2).quiet
    (Or.inl ⟨w, by simp [Waiter.released, returned]⟩)

end JLibSched.WaitGroup
