import JLibSched.WaitGroup.Rounds
import Mathlib.Data.Nat.Bitwise

/-!
# Each registered task is woken once

A task that has been pushed stands in one place: on the list of the group, in a list some
completer or some `WakeAllDirect` has taken, or in none once it has been woken.  This holds in
every run, whenever the count is raised.
-/

namespace JLibSched.WaitGroup.Rounds

open Transition

variable {dones waiters : Nat} {s t : State dones waiters} {a : Label dones waiters}

/-! ## Steps of the system -/

theorem step_done {i : Fin dones} (stepped : step s (.done i) = some t) :
    ∃ g locked pc signal, DoneMove s.group s.locked (s.done i) g locked pc signal ∧
      (s.done i = .idle → s.owed ≠ 0) ∧
      t = note { s with
        group := g
        locked := locked
        done := Function.update s.done i pc
        waiter := signal.apply s.waiter
        owed := if s.done i = .idle then s.owed - 1 else s.owed
        wakes := countWake s.wakes signal } := by
  obtain ⟨u, moved, rfl⟩ := Option.map_eq_some_iff.mp stepped
  simp only [move] at moved
  split at moved
  · cases moved
  · rename_i called
    obtain ⟨⟨g, locked, pc, signal⟩, found, rfl⟩ := Option.map_eq_some_iff.mp moved
    exact ⟨g, locked, pc, signal, .of_doneMove found, fun idle zero => called ⟨idle, zero⟩, rfl⟩

theorem step_waiter {w : Fin waiters} {choice : Bool}
    (stepped : step s (.waiter w choice) = some t) :
    ∃ g me signal, WaiterMove s.group w (s.waiter w) g me signal ∧ s.begun w = true ∧
      t = note { s with
        group := g
        waiter := signal.apply (Function.update s.waiter w me)
        wakes := countWake s.wakes signal } := by
  obtain ⟨u, moved, rfl⟩ := Option.map_eq_some_iff.mp stepped
  simp only [move] at moved
  split at moved
  · rename_i begun
    obtain ⟨⟨g, me, signal⟩, found, rfl⟩ := Option.map_eq_some_iff.mp moved
    exact ⟨g, me, signal, .of_waiterMove found, begun.1, rfl⟩
  · cases moved

theorem step_resume {w : Fin waiters} (stepped : step s (.resume w) = some t) :
    (s.waiter w).woken = true ∧
      t = note { s with
        waiter := Function.update s.waiter w { s.waiter w with returned := true } } := by
  obtain ⟨u, moved, rfl⟩ := Option.map_eq_some_iff.mp stepped
  obtain ⟨me, found, rfl⟩ := Option.map_eq_some_iff.mp moved
  unfold resumeMove at found
  split at found
  · rename_i woken
    refine ⟨woken.1, ?_⟩
    split at found
    · split at found <;> cases found
      rfl
    · cases found
      rfl
    · cases found
  · cases found

theorem step_add {k : Nat} (stepped : step s (.add k) = some t) :
    countOf s.group.n + k ≤ countMask ∧
      t = note { s with group := { s.group with n := s.group.n + k }, owed := s.owed + k } := by
  obtain ⟨u, moved, rfl⟩ := Option.map_eq_some_iff.mp stepped
  simp only [move] at moved
  split at moved
  · rename_i room
    cases moved
    exact ⟨room, rfl⟩
  · cases moved

theorem step_wait {w : Fin waiters} (stepped : step s (.wait w) = some t) :
    t = note { s with begun := Function.update s.begun w true } := by
  obtain ⟨u, moved, rfl⟩ := Option.map_eq_some_iff.mp stepped
  simp only [move] at moved
  split at moved <;> cases moved
  rfl

theorem step_wakeMain {w : Fin waiters} (stepped : step s (.wakeMain w) = some t) :
    t = note { s with waiter := (Signal.kick w).apply s.waiter } := by
  obtain ⟨u, moved, rfl⟩ := Option.map_eq_some_iff.mp stepped
  simp only [move] at moved
  split at moved <;> cases moved
  rfl

/-! ## The counter word -/

theorem countOf_add {n k : Nat} (room : countOf n + k ≤ countMask) :
    countOf (n + k) = countOf n + k := by
  have mask : countMask = 2 ^ 30 - 1 := by decide
  rw [countOf_eq_mod] at *
  rw [countOf_eq_mod]
  omega

theorem hasWaiterBit_eq (n : Nat) : hasWaiterBit n = n.testBit 30 := by
  have bit : waiterBit = 2 ^ 30 := by decide
  rw [hasWaiterBit, bit, Nat.and_two_pow]
  cases n.testBit 30 <;> decide

theorem hasWaiterBit_add {n k : Nat} (room : countOf n + k ≤ countMask) :
    hasWaiterBit (n + k) = hasWaiterBit n := by
  have mask : countMask = 2 ^ 30 - 1 := by decide
  rw [countOf_eq_mod] at room
  simp only [hasWaiterBit_eq, Nat.testBit_eq_decide_div_mod_eq]
  congr 2
  omega

theorem hasWaiterBit_pred {n : Nat} (positive : 0 < countOf n) :
    hasWaiterBit (n - 1) = hasWaiterBit n := by
  rw [countOf_eq_mod] at positive
  simp only [hasWaiterBit_eq, Nat.testBit_eq_decide_div_mod_eq]
  congr 2
  omega

@[simp] theorem hasWaiterBit_or (n : Nat) : hasWaiterBit (n ||| waiterBit) = true := by
  rw [hasWaiterBit_eq, Nat.testBit_or]
  have bit : waiterBit.testBit 30 = true := by decide
  rw [bit, Bool.or_true]

/-! ## Signals -/

@[simp] theorem apply_pc (signal : Signal (Fin waiters)) (f : Fin waiters → Waiter (Fin waiters))
    (w : Fin waiters) : (signal.apply f w).pc = (f w).pc := signal_apply_pc signal f w

@[simp] theorem apply_returned (signal : Signal (Fin waiters))
    (f : Fin waiters → Waiter (Fin waiters)) (w : Fin waiters) :
    (signal.apply f w).returned = (f w).returned := by
  cases signal with
  | none => rfl
  | kick v => by_cases same : w = v <;> simp [Signal.apply, same]
  | wake v => by_cases same : w = v <;> simp [Signal.apply, same]

/-- One for the wake of `w`. -/
def names (w : Fin waiters) : Signal (Fin waiters) → Nat
  | .wake v => if v = w then 1 else 0
  | _ => 0

theorem countWake_eq (wakes : Fin waiters → Nat) (signal : Signal (Fin waiters))
    (w : Fin waiters) : countWake wakes signal w = wakes w + names w signal := by
  cases signal with
  | none => rfl
  | kick v => rfl
  | wake v =>
    rcases eq_or_ne v w with rfl | other
    · simp [countWake, names]
    · simp [countWake, names, other, other.symm]

theorem apply_woken {signal : Signal (Fin waiters)} {f : Fin waiters → Waiter (Fin waiters)}
    {w : Fin waiters} (woken : (signal.apply f w).woken = true) :
    (f w).woken = true ∨ names w signal = 1 := by
  cases signal with
  | none => exact .inl woken
  | kick v =>
    by_cases same : w = v
    · subst same
      simpa [Signal.apply, names] using woken
    · simpa [Signal.apply, same, names] using woken
  | wake v =>
    by_cases same : w = v
    · subst same
      simp [names]
    · simpa [Signal.apply, same, names, Ne.symm same] using woken

/-! ## One place for each task -/

/-- The tasks a completer has taken and not yet woken. -/
def DonePc.tasks {W : Type} : DonePc W → List W
  | .clearBit _ _ tasks | .lowerMark _ _ tasks | .unlock _ _ tasks | .wake _ _ tasks => tasks
  | _ => []

/-- The tasks `WakeAllDirect` has taken and not yet woken. -/
def takenBy {W : Type} : WaiterPc W → List W
  | .directClear tasks | .directWake tasks => tasks
  | _ => []

/-- One for a call that will decrement. -/
def DonePc.counted {W : Type} : DonePc W → Nat
  | .marked => 1
  | _ => 0

/-- The lists a task stands in. -/
def places (s : State dones waiters) (w : Fin waiters) : Nat :=
  s.group.taskWaiters.count w + ∑ i, (s.done i).tasks.count w +
    ∑ v, (takenBy (s.waiter v).pc).count w

structure Once (s : State dones waiters) : Prop where
  once : ∀ w, places s w + s.wakes w = (pushed (s.waiter w).pc).toNat
  taken : ∀ w tasks, (s.waiter w).pc = .directClear tasks → tasks ≠ []
  woken : ∀ w, (s.waiter w).woken = true → s.wakes w ≠ 0
  returned : ∀ w, (s.waiter w).returned = true → s.wakes w ≠ 0 ∨ (s.waiter w).pc = .left
  begun : ∀ w, pushed (s.waiter w).pc = true → s.begun w = true
  counted : s.owed + ∑ i, (s.done i).counted = countOf s.group.n

theorem pushed_entry (kind : WaiterKind) : pushed (kind.entry : WaiterPc (Fin waiters)) = false := by
  cases kind <;> rfl

theorem takenBy_entry (kind : WaiterKind) : takenBy (kind.entry : WaiterPc (Fin waiters)) = [] := by
  cases kind <;> rfl

theorem initial_once (dones : Nat) (kinds : Fin waiters → WaiterKind) :
    Once (initial dones kinds) where
  once w := by simp [places, initial, Waiter.initial, pushed_entry, takenBy_entry, DonePc.tasks]
  taken w tasks here := by cases kind : kinds w <;> simp [initial, Waiter.initial, kind,
    WaiterKind.entry] at here
  woken w woken := by cases woken
  returned w returned := by cases returned
  begun w here := by simp [initial, Waiter.initial, pushed_entry] at here
  counted := by simp [initial, DonePc.counted, countOf]

/-- A step of a completer moves tasks from the list of the group to its own, and wakes one. -/
theorem DoneMove.tasks {g g' : Group (Fin waiters)} {locked locked' : Bool}
    {pc pc' : DonePc (Fin waiters)} {signal : Signal (Fin waiters)}
    (moved : DoneMove g locked pc g' locked' pc' signal) (w : Fin waiters) :
    g'.taskWaiters.count w + pc'.tasks.count w + names w signal =
      g.taskWaiters.count w + pc.tasks.count w := by
  cases moved <;> simp [DonePc.tasks, names, List.count_cons, Nat.add_assoc]

/-- A step of a waiting thread does so too, and may push its own task. -/
theorem WaiterMove.tasks {g g' : Group (Fin waiters)} {v : Fin waiters}
    {me me' : Waiter (Fin waiters)} {signal : Signal (Fin waiters)}
    (moved : WaiterMove g v me g' me' signal) (w : Fin waiters) :
    g'.taskWaiters.count w + (takenBy me'.pc).count w + names w signal +
        (if v = w then (pushed me.pc).toNat else 0) =
      g.taskWaiters.count w + (takenBy me.pc).count w +
        (if v = w then (pushed me'.pc).toNat else 0) := by
  have none {pc : WaiterPc (Fin waiters)} (outside : pushed pc = false) : takenBy pc = [] := by
    cases pc <;> simp_all [pushed, takenBy]
  cases moved with
  | push here => simp [here, takenBy, pushed, names, List.count_cons]
  | sawZero here zero => simp [here, takenBy, pushed, names]
  | sawCount here count => simp [here, takenBy, pushed, names]
  | tookNone here empty => simp [here, takenBy, pushed, names]
  | took here some => simp [here, takenBy, pushed, names]
  | clear here => simp [here, takenBy, pushed, names]
  | wake here =>
    simp only [here, takenBy, pushed, names, List.count_cons, beq_iff_eq]
    omega
  | finish here => simp [here, takenBy, pushed, names]
  | register here count after =>
    rcases here with here | here <;> rcases after with rfl | rfl <;>
      simp [here, takenBy, pushed, names]
  | unregister here => simp [here, takenBy, pushed, names]
  | other before after tasks =>
    simp [before, after, none before, none after, tasks, names]

/-- One for a call that is made by this step. -/
def DonePc.calls {W : Type} : DonePc W → Nat
  | .idle => 1
  | _ => 0

theorem DoneMove.count {g g' : Group (Fin waiters)} {locked locked' : Bool}
    {pc pc' : DonePc (Fin waiters)} {signal : Signal (Fin waiters)}
    (moved : DoneMove g locked pc g' locked' pc' signal) (positive : pc.counted ≤ countOf g.n) :
    countOf g'.n + pc.counted + pc.calls = countOf g.n + pc'.counted := by
  cases moved with
  | last | decrement =>
    have pred : countOf (g.n - 1) + 1 = countOf g.n := countOf_pred positive
    simp [DonePc.counted, DonePc.calls, pred]
  | _ => simp [DonePc.counted, DonePc.calls]

theorem WaiterMove.count {g g' : Group (Fin waiters)} {v : Fin waiters}
    {me me' : Waiter (Fin waiters)} {signal : Signal (Fin waiters)}
    (moved : WaiterMove g v me g' me' signal) : countOf g'.n = countOf g.n := by
  cases moved with
  | other _ _ _ _ word => rcases word with same | set <;> simp [*]
  | _ => simp

theorem WaiterMove.woken {g g' : Group (Fin waiters)} {v : Fin waiters}
    {me me' : Waiter (Fin waiters)} {signal : Signal (Fin waiters)}
    (moved : WaiterMove g v me g' me' signal) : me'.woken = me.woken := by
  cases moved with
  | other _ _ _ _ _ woken => exact woken
  | _ => rfl

/-- A waiting thread returns by leaving, and moves no more after it. -/
theorem WaiterMove.returned {g g' : Group (Fin waiters)} {v : Fin waiters}
    {me me' : Waiter (Fin waiters)} {signal : Signal (Fin waiters)}
    (moved : WaiterMove g v me g' me' signal) :
    me.pc ≠ .left ∧ (me'.returned = true → me.returned = true ∨ me'.pc = .left) := by
  cases moved with
  | other _ _ _ _ _ _ returned left => exact ⟨left, returned⟩
  | register here => exact ⟨by rcases here with here | here <;> simp [here], .inl⟩
  | _ => exact ⟨by simp [*], .inl⟩

theorem WaiterMove.directClear {g g' : Group (Fin waiters)} {v : Fin waiters}
    {me me' : Waiter (Fin waiters)} {signal : Signal (Fin waiters)} {tasks : List (Fin waiters)}
    (moved : WaiterMove g v me g' me' signal) (here : me'.pc = .directClear tasks) :
    me.pc = .directTake ∧ g.taskWaiters = tasks ∧ tasks ≠ [] := by
  cases moved with
  | took before some =>
    cases here
    exact ⟨before, rfl, some⟩
  | register before count after => rcases after with rfl | rfl <;> cases here
  | other before after =>
    rw [here] at after
    cases after
  | _ => cases here

/-- A completer finds its own count in the word. -/
theorem Once.counted_le (once : Once s) (i : Fin dones) :
    (s.done i).counted ≤ countOf s.group.n := by
  have mine := le_sum DonePc.counted s.done i
  have total := once.counted
  omega

theorem le_countWake (wakes : Fin waiters → Nat) (signal : Signal (Fin waiters))
    (w : Fin waiters) : wakes w ≤ countWake wakes signal w := by
  rw [countWake_eq]
  omega

theorem woken_countWake {wakes : Fin waiters → Nat} {signal : Signal (Fin waiters)}
    {f : Fin waiters → Waiter (Fin waiters)} {w : Fin waiters}
    (before : (f w).woken = true → wakes w ≠ 0) (woken : (signal.apply f w).woken = true) :
    countWake wakes signal w ≠ 0 := by
  rw [countWake_eq]
  rcases apply_woken woken with old | now
  · have := before old
    omega
  · omega

theorem Once.done {i : Fin dones} (once : Once s) (stepped : step s (.done i) = some t) :
    Once t := by
  obtain ⟨g, locked, pc, signal, moved, called, rfl⟩ := step_done stepped
  refine ⟨fun w => ?_, fun w tasks here => ?_, fun w here => ?_, fun w here => ?_,
    fun w here => ?_, ?_⟩
  · have before := once.once w
    have tasks := moved.tasks w
    have sums := sum_update (fun pc => (DonePc.tasks pc).count w) s.done i pc
    simp only [places, note, apply_pc, countWake_eq] at before ⊢
    omega
  · simp only [note, apply_pc] at here
    exact once.taken w tasks here
  · exact woken_countWake (once.woken w) here
  · simp only [note, apply_returned, apply_pc] at here ⊢
    have wakes := le_countWake s.wakes signal w
    exact (once.returned w here).imp_left fun before => by omega
  · simp only [note, apply_pc] at here
    exact once.begun w here
  · have total := once.counted
    have count := moved.count (once.counted_le i)
    have sums := sum_update DonePc.counted s.done i pc
    show (if s.done i = .idle then s.owed - 1 else s.owed) +
      ∑ j, (Function.update s.done i pc j).counted = countOf g.n
    split
    · rename_i idle
      have owed := called idle
      have one : (s.done i).calls = 1 := by rw [idle]; rfl
      omega
    · rename_i busy
      have none : (s.done i).calls = 0 := by
        cases here : s.done i with
        | idle => exact absurd here busy
        | _ => rfl
      omega

theorem Once.waiter {v : Fin waiters} {choice : Bool} (once : Once s)
    (stepped : step s (.waiter v choice) = some t) : Once t := by
  obtain ⟨g, me, signal, moved, begun, rfl⟩ := step_waiter stepped
  refine ⟨fun w => ?_, fun w tasks here => ?_, fun w here => ?_, fun w here => ?_,
    fun w here => ?_, ?_⟩
  · have before := once.once w
    have tasks := moved.tasks w
    have sums := sum_update (fun x : Waiter (Fin waiters) => (takenBy x.pc).count w) s.waiter v me
    simp only [places, note, apply_pc, countWake_eq] at before ⊢
    rcases eq_or_ne v w with rfl | other
    · simp only [if_true, Function.update_self] at tasks ⊢
      omega
    · simp only [other, if_false, Function.update_of_ne other.symm] at tasks ⊢
      omega
  · simp only [note, apply_pc] at here
    rcases eq_or_ne v w with rfl | other
    · rw [Function.update_self] at here
      exact (moved.directClear here).2.2
    · rw [Function.update_of_ne other.symm] at here
      exact once.taken w tasks here
  · refine woken_countWake (fun before => ?_) here
    rcases eq_or_ne v w with rfl | other
    · rw [Function.update_self, moved.woken] at before
      exact once.woken v before
    · rw [Function.update_of_ne other.symm] at before
      exact once.woken w before
  · simp only [note, apply_returned, apply_pc] at here ⊢
    have wakes := le_countWake s.wakes signal w
    rcases eq_or_ne v w with rfl | other
    · rw [Function.update_self] at here ⊢
      obtain ⟨present, keep⟩ := moved.returned
      refine (keep here).imp_left fun before => ?_
      have := (once.returned v before).resolve_right present
      omega
    · rw [Function.update_of_ne other.symm] at here ⊢
      exact (once.returned w here).imp_left fun before => by omega
  · simp only [note, apply_pc] at here ⊢
    rcases eq_or_ne v w with rfl | other
    · exact begun
    · rw [Function.update_of_ne other.symm] at here
      exact once.begun w here
  · simp only [note, moved.count]
    exact once.counted

/-- A step that leaves program counters and wakes alone. -/
theorem Once.frame {f : Fin waiters → Waiter (Fin waiters)} (once : Once s)
    (pc : ∀ w, (f w).pc = (s.waiter w).pc) (woken : ∀ w, (f w).woken = (s.waiter w).woken)
    (returned : ∀ w, (f w).returned = true → (s.waiter w).returned = true ∨ s.wakes w ≠ 0) :
    Once (note { s with waiter := f }) := by
  refine ⟨fun w => ?_, fun w tasks here => ?_, fun w here => ?_, fun w here => ?_,
    fun w here => ?_, once.counted⟩
  · have before := once.once w
    simp only [places, note, pc] at before ⊢
    exact before
  · simp only [note, pc] at here
    exact once.taken w tasks here
  · simp only [note, woken] at here
    exact once.woken w here
  · simp only [note, pc] at here ⊢
    rcases returned w here with before | now
    · exact once.returned w before
    · exact .inl now
  · simp only [note, pc] at here
    exact once.begun w here

theorem step_once (once : Once s) (stepped : step s a = some t) : Once t := by
  cases a with
  | done i => exact once.done stepped
  | waiter w choice => exact once.waiter stepped
  | add k =>
    obtain ⟨room, rfl⟩ := step_add stepped
    refine ⟨once.once, once.taken, once.woken, once.returned, once.begun, ?_⟩
    have total := once.counted
    simp only [note, countOf_add room]
    omega
  | wait w =>
    obtain rfl := step_wait stepped
    refine ⟨once.once, once.taken, once.woken, once.returned, fun v here => ?_, once.counted⟩
    simp only [note]
    rcases eq_or_ne v w with rfl | other
    · exact Function.update_self ..
    · rw [Function.update_of_ne other]
      exact once.begun v here
  | resume w =>
    obtain ⟨woken, rfl⟩ := step_resume stepped
    refine once.frame (fun v => ?_) (fun v => ?_) fun v returned => ?_ <;>
      rcases eq_or_ne v w with rfl | other
    · rw [Function.update_self]
    · rw [Function.update_of_ne other]
    · rw [Function.update_self]
    · rw [Function.update_of_ne other]
    · exact .inr (once.woken v woken)
    · rw [Function.update_of_ne other] at returned
      exact .inl returned
  | wakeMain w =>
    obtain rfl := step_wakeMain stepped
    refine once.frame (apply_pc _ _) (fun v => ?_) fun v returned => ?_
    · rcases eq_or_ne v w with rfl | other
      · simp [Signal.apply]
      · simp [Signal.apply, other]
    · rw [apply_returned] at returned
      exact .inl returned

theorem reach_once {ok : State dones waiters → Label dones waiters → Prop}
    {kinds : Fin waiters → WaiterKind} (reach : Reach step ok (initial dones kinds) s) : Once s :=
  Reach.invariant (I := Once) (initial_once dones kinds)
    (fun once _ stepped => step_once once stepped) reach

end JLibSched.WaitGroup.Rounds
