import JLibSched.WaitGroup.Paced

/-!
# Who still registers on a group whose waiters have been resumed

`AddWaiter` pushes the task and only then touches the counter word; when it finds the count at
zero it takes the list as well.  A fiber does not run before its own call is over.  A coroutine
does: from the push on, any waker may take its task and run it on another thread, where it may
return and free the group.

So the group is safe while a list is taken only when every call that has put a task on it has
returned (`TakenRegistered`); `WakeAllDirect` itself need not count its own call.  Then a call
that still has an access to make has its task on the list (`Unreturned`), or holds a list with a
task that has not been woken.  Without it the last access of `AddWaiter` comes too late
(`coroutine_resumed_touched`).
-/

namespace JLibSched.WaitGroup.Rounds

open Transition

variable {dones waiters : Nat} {s t : State dones waiters} {a : Label dones waiters}

/-- The next step of `AddWaiter` or `WakeAllDirect` reads or writes the group. -/
def addTouches {W : Type} : WaiterPc W → Bool
  | .addLoad | .addCas _ | .addBit | .directTake | .directClear _ => true
  | _ => false

/-- When the list is taken, every call of `AddWaiter` that has a task on it has returned, the
call that takes it apart. -/
def TakenRegistered (s : State dones waiters) : Label dones waiters → Prop
  | .done i =>
    match s.done i with
    | .takeTasks _ _ => ∀ w ∈ s.group.taskWaiters, (s.waiter w).pc = .suspended
    | _ => True
  | .waiter v _ => (s.waiter v).pc = .directTake →
      ∀ w ∈ s.group.taskWaiters, w ≠ v → (s.waiter w).pc = .suspended
  | _ => True

theorem takenRegistered_done {s : State dones waiters} {i : Fin dones} :
    (match s.done i with
      | .takeTasks _ _ => s.group.taskWaiters.all fun w => decide ((s.waiter w).pc = .suspended)
      | _ => true) = true ↔ TakenRegistered s (.done i) := by
  simp only [TakenRegistered]
  split
  · simp only [List.all_eq_true, decide_eq_true_eq]
  · exact iff_of_true rfl trivial

theorem takenRegistered_waiter {s : State dones waiters} {v : Fin waiters} {choice : Bool} :
    ((s.waiter v).pc = .directTake → (s.group.taskWaiters.all fun w =>
      decide (w ≠ v → (s.waiter w).pc = .suspended)) = true) ↔
      TakenRegistered s (.waiter v choice) := by
  simp only [TakenRegistered, List.all_eq_true, decide_eq_true_eq]

instance (s : State dones waiters) : ∀ a, Decidable (TakenRegistered s a)
  | .done _ => decidable_of_iff _ takenRegistered_done
  | .waiter _ _ => decidable_of_iff _ takenRegistered_waiter
  | .add _ | .wait _ | .resume _ | .wakeMain _ => isTrue trivial

/-- A call that has pushed its task and will touch the counter or the list. -/
def unreturned {W : Type} : WaiterPc W → Bool
  | .addBit | .directTake => true
  | _ => false

/-- Its task is on the list. -/
def Unreturned (s : State dones waiters) : Prop :=
  ∀ w, unreturned (s.waiter w).pc = true → w ∈ s.group.taskWaiters

theorem Unreturned.done {i : Fin dones} (kept : Unreturned s)
    (allowed : TakenRegistered s (.done i)) (stepped : step s (.done i) = some t) :
    Unreturned t := by
  obtain ⟨g, locked, pc, signal, moved, -, rfl⟩ := step_done stepped
  intro w here
  simp only [note, apply_pc] at here ⊢
  have mem := kept w here
  simp only [TakenRegistered] at allowed
  generalize s.done i = before at moved allowed
  cases moved with
  | takeTasks =>
    rw [allowed w mem] at here
    cases here
  | _ => exact mem

theorem Unreturned.waiter {v : Fin waiters} {choice : Bool} (kept : Unreturned s)
    (allowed : TakenRegistered s (.waiter v choice))
    (stepped : step s (.waiter v choice) = some t) : Unreturned t := by
  obtain ⟨g, me, signal, moved, -, rfl⟩ := step_waiter stepped
  intro w here
  simp only [note, apply_pc] at here ⊢
  rcases eq_or_ne w v with rfl | other
  · rw [Function.update_self] at here
    cases moved with
    | push => exact List.mem_cons_self
    | sawZero before => exact kept w (by rw [before]; rfl)
    | register _ _ after => rcases after with rfl | rfl <;> cases here
    | other _ after =>
      cases pc : me.pc <;> simp_all [unreturned, pushed]
    | _ => cases here
  · rw [Function.update_of_ne other] at here
    have mem := kept w here
    cases moved with
    | push => exact List.mem_cons_of_mem _ mem
    | took before =>
      rw [allowed before w mem other] at here
      cases here
    | other _ _ tasks => exact tasks ▸ mem
    | _ => exact mem

theorem step_unreturned (kept : Unreturned s) (allowed : TakenRegistered s a)
    (stepped : step s a = some t) : Unreturned t := by
  cases a with
  | done i => exact kept.done allowed stepped
  | waiter v choice => exact kept.waiter allowed stepped
  | add k =>
    obtain ⟨-, rfl⟩ := step_add stepped
    exact kept
  | wait v =>
    obtain rfl := step_wait stepped
    exact kept
  | resume v =>
    obtain ⟨-, rfl⟩ := step_resume stepped
    intro w here
    refine kept w ?_
    simp only [note] at here
    rcases eq_or_ne w v with rfl | other
    · rwa [Function.update_self] at here
    · rwa [Function.update_of_ne other] at here
  | wakeMain v =>
    obtain rfl := step_wakeMain stepped
    intro w here
    simp only [note, apply_pc] at here
    exact kept w here

theorem reach_unreturned {kinds : Fin waiters → WaiterKind}
    (reach : Reach step TakenRegistered (initial dones kinds) s) : Unreturned s := by
  refine Reach.invariant (I := Unreturned) (fun w here => ?_)
    (fun kept allowed stepped => step_unreturned kept allowed stepped) reach
  cases kind : kinds w <;>
    simp [initial, Waiter.initial, kind, WaiterKind.entry, unreturned] at here

/-- A task in a list that has been taken has not been woken. -/
theorem Once.unwoken (once : Once s) {v w : Fin waiters} (mem : w ∈ takenBy (s.waiter v).pc) :
    pushed (s.waiter w).pc = true ∧ s.wakes w = 0 := by
  have whole := once.once w
  have mine := le_sum (fun x : Waiter (Fin waiters) => (takenBy x.pc).count w) s.waiter v
  have inside := List.count_pos_iff.mpr mem
  rw [places] at whole
  cases here : pushed (s.waiter w).pc with
  | true =>
    rw [here, Bool.toNat_true] at whole
    exact ⟨rfl, by omega⟩
  | false =>
    rw [here, Bool.toNat_false] at whole
    omega

/-- In a run whose lists are taken when the calls that filled them have returned: once every
wait that was called has returned, no call of `AddWaiter` touches the group, then or later. -/
theorem resumed_untouched (dones waiters : Nat) (kinds : Fin waiters → WaiterKind)
    (s : State dones waiters) (reach : Reach step TakenRegistered (initial dones kinds) s)
    (resumed : ∀ w, s.begun w = true → (s.waiter w).returned = true) :
    ∀ w, s.begun w = true → addTouches (s.waiter w).pc = false := by
  have once := reach_once reach
  -- who has returned was woken, and stands in no list any more
  have gone {w : Fin waiters} (begun : s.begun w = true) :
      (pushed (s.waiter w).pc = true ∧ s.wakes w = 1 ∧ w ∉ s.group.taskWaiters) ∨
        (s.waiter w).pc = .left := by
    refine (once.returned w (resumed w begun)).imp_left fun woken => ?_
    have whole := once.once w
    cases here : pushed (s.waiter w).pc with
    | true =>
      rw [here, Bool.toNat_true, places] at whole
      exact ⟨rfl, by omega, List.count_eq_zero.mp (by omega)⟩
    | false =>
      rw [here, Bool.toNat_false] at whole
      omega
  intro w begun
  rcases gone begun with ⟨here, woken, off⟩ | left
  · cases pc : (s.waiter w).pc with
    | addBit => exact absurd (reach_unreturned reach w (by rw [pc]; rfl)) off
    | directTake => exact absurd (reach_unreturned reach w (by rw [pc]; rfl)) off
    | directClear tasks =>
      obtain ⟨u, mem⟩ := List.exists_mem_of_ne_nil tasks (once.taken w tasks pc)
      obtain ⟨pushed', unwoken⟩ := once.unwoken (v := w) (w := u) (by rw [pc]; exact mem)
      rcases gone (once.begun u pushed') with ⟨-, one, -⟩ | out
      · omega
      · rw [out] at pushed'
        cases pushed'
    | addLoad | addCas => simp [pc, pushed] at here
    | _ => rfl
  · rw [left]
    rfl

/-- Two coroutines register, each call returns, the completer takes the list and wakes both. -/
def bothRegister : List (Label 1 2) :=
  List.flatten [
    [.add 1, .wait 0, .waiter 0 true, .waiter 0 true, .waiter 0 true, .waiter 0 true,
     .wait 1, .waiter 1 true, .waiter 1 true, .waiter 1 true, .waiter 1 true],
    List.replicate 10 (.done 0), [.resume 0, .resume 1]]

def bothResumed : State 1 2 :=
  (run step TakenRegistered (initial 1 fun _ => .coroutine) bothRegister).getD
    (initial 1 fun _ => .coroutine)

theorem coroutines_resumed_untouched :
    Reach step TakenRegistered (initial 1 fun _ => .coroutine) bothResumed ∧
      (∀ w, bothResumed.begun w = true ∧ (bothResumed.waiter w).returned = true) ∧
      ∀ w, bothResumed.begun w = true → addTouches (bothResumed.waiter w).pc = false := by
  have reach : Reach step TakenRegistered (initial 1 fun _ => .coroutine) bothResumed :=
    Reach.of_isSome bothRegister (by decide +kernel)
  have resumed : ∀ w, bothResumed.begun w = true ∧ (bothResumed.waiter w).returned = true := by
    decide +kernel
  exact ⟨reach, resumed,
    resumed_untouched 1 2 (fun _ => .coroutine) _ reach fun w _ => (resumed w).2⟩

/-- The first coroutine has pushed its task when the completer takes the list; both coroutines
are resumed before the first call sets the waiter bit. -/
def takenTooEarly : List (Label 1 2) :=
  List.flatten [
    [.add 1, .wait 1, .waiter 1 true, .waiter 1 true, .waiter 1 true, .waiter 1 true,
     .wait 0, .waiter 0 true, .waiter 0 true, .waiter 0 true],
    List.replicate 10 (.done 0), [.resume 0, .resume 1]]

theorem coroutine_resumed_touched :
    ∃ s : State 1 2, Reach step anyStep (initial 1 fun _ => .coroutine) s ∧
      (∀ w, s.begun w = true ∧ (s.waiter w).returned = true) ∧
      (∀ i, (s.done i).inProgress = false ∧ s.done i ≠ .idle) ∧
      addTouches (s.waiter 0).pc = true :=
  ⟨_, Reach.of_isSome takenTooEarly (by decide +kernel), by decide +kernel, by decide +kernel,
    by decide +kernel⟩

end JLibSched.WaitGroup.Rounds
