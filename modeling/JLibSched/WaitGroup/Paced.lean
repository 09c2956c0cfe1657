import JLibSched.WaitGroup.Wakes

/-!
# Raising the count under a wake

That no waiter is forgotten, or woken too early, depends on when the count is raised.  The
completer that took the count to zero and the `AddWaiter` that found it there both act on what
they saw: they take the list and clear the waiter bit without looking at the count again.
While the count is not raised under them (`NoWakePending`), it is still zero when they act
(`Paced`), and then a task on the list, or a sleeping thread, either has the waiter bit over a
count that is not zero or a completer that has yet to take it.

A raise under a pending wake breaks both promises (`raised_under_wake`): a task of the new round
is swept up by the wake of the old one, or has its waiter bit erased by it and sleeps on.
-/

namespace JLibSched.WaitGroup.Rounds

open Transition

variable {dones waiters : Nat} {s t : State dones waiters} {a : Label dones waiters}

/-! ## Whoever acts on a count of zero still finds it there -/

/-- The completer took the count to zero and has still to take the list. -/
def DonePc.preTake {W : Type} : DonePc W → Bool
  | .lock | .loadMain _ | .takeTasks _ _ => true
  | _ => false

/-- It has still to clear the waiter bit. -/
def DonePc.pending {W : Type} : DonePc W → Bool
  | .clearBit _ _ _ => true
  | pc => pc.preTake

/-- `AddWaiter` found the count at zero and has still to take the list, or to clear the bit. -/
def pendingDirect {W : Type} : WaiterPc W → Bool
  | .directTake | .directClear _ => true
  | _ => false

/-- The words a completer has taken and not yet kicked. -/
def DonePc.threads {W : Type} : DonePc W → List W
  | .loadMain threads | .takeTasks threads _ | .clearBit threads _ _ | .lowerMark threads _ _
  | .unlock threads _ _ | .wake threads _ _ => threads
  | _ => []

/-- The count is not raised from zero while a wake of the last round has still to take the list
or to clear the waiter bit. -/
def NoWakePending (s : State dones waiters) : Label dones waiters → Prop
  | .add _ => countOf s.group.n = 0 →
      (∀ i, (s.done i).pending = false) ∧ ∀ w, pendingDirect (s.waiter w).pc = false
  | _ => True

instance (s : State dones waiters) : ∀ a, Decidable (NoWakePending s a)
  | .add _ => inferInstanceAs (Decidable (_ → _))
  | .wait _ | .done _ | .waiter _ _ | .resume _ | .wakeMain _ => isTrue trivial

/-- The decrement to zero will see the waiter bit. -/
def Covered (s : State dones waiters) : Prop :=
  countOf s.group.n ≠ 0 ∧ hasWaiterBit s.group.n = true

structure Paced (s : State dones waiters) : Prop where
  done : ∀ i, (s.done i).pending = true → countOf s.group.n = 0
  direct : ∀ w, pendingDirect (s.waiter w).pc = true → countOf s.group.n = 0
  onList : ∀ w ∈ s.group.taskWaiters, (s.waiter w).pc = .addBit ∨
    (s.waiter w).pc = .directTake ∨ (s.waiter w).pc = .suspended
  listed : ∀ w ∈ s.group.taskWaiters, (s.waiter w).pc = .suspended →
    Covered s ∨ ∃ i, (s.done i).preTake = true
  slept : ∀ w, asleep (s.waiter w).pc = true → (s.waiter w).word = .waiting →
    (w ∈ s.group.blockedThreads ∧ (Covered s ∨ ∃ i, s.done i = .lock)) ∨
      ∃ i, w ∈ (s.done i).threads
  noted : ∀ w, pushed (s.waiter w).pc = true → countOf s.group.n = 0 → s.zeroSince w = true
  fair : ∀ w, pushed (s.waiter w).pc = true → w ∉ s.group.taskWaiters → s.zeroSince w = true

theorem initial_paced (dones : Nat) (kinds : Fin waiters → WaiterKind) :
    Paced (initial dones kinds) where
  done i here := by cases here
  direct w here := by simp [initial, countOf]
  onList w here := by cases here
  listed w here := by cases here
  slept w here := by cases kind : kinds w <;> simp [initial, Waiter.initial, kind,
    WaiterKind.entry, asleep] at here
  noted w here := by simp [initial, Waiter.initial, pushed_entry] at here
  fair w here := by simp [initial, Waiter.initial, pushed_entry] at here

theorem preTake_pending {W : Type} {pc : DonePc W} (before : pc.preTake = true) :
    pc.pending = true := by
  cases pc <;> simp_all [DonePc.preTake, DonePc.pending]

/-- The note of a pushed task. -/
theorem note_zeroSince {u : State dones waiters} {w : Fin waiters} :
    (note u).zeroSince w = true ↔ u.zeroSince w = true ∨
      (pushed (u.waiter w).pc = true ∧ countOf u.group.n = 0) := by
  simp [note]

/-- Only the thread itself is taken off the list of blocked threads. -/
theorem mem_swapRemove {W : Type} [DecidableEq W] {l : List W} {v w : W} (mem : v ∈ l)
    (other : v ≠ w) : v ∈ swapRemove l w := by
  unfold swapRemove
  rcases List.eq_nil_or_concat l with rfl | ⟨init, back, rfl⟩
  · cases mem
  rw [List.concat_eq_append] at mem ⊢
  rw [List.getLast?_concat]
  dsimp only
  split
  · by_cases inside : w ∈ init
    · have before : init.idxOf w < init.length := List.idxOf_lt_length_iff.mpr inside
      rw [List.idxOf_append_of_mem inside, List.set_append_left _ _ before, List.dropLast_concat]
      rcases List.mem_append.mp mem with old | last
      · obtain ⟨k, bound, rfl⟩ := List.getElem_of_mem old
        have apart : init.idxOf w ≠ k := by
          rintro same
          apply other
          simp only [← same]
          exact List.getElem_idxOf before
        refine List.mem_iff_getElem.mpr ⟨k, by simpa using bound, ?_⟩
        rw [List.getElem_set_ne apart]
      · rw [List.mem_singleton.mp last]
        exact List.mem_set before _
    · rename_i present
      obtain rfl : w = back := by simpa [inside] using present
      rw [List.idxOf_append_of_notMem inside]
      rcases List.mem_append.mp mem with old | last
      · simp [old]
      · exact absurd (List.mem_singleton.mp last) other
  · exact mem

theorem apply_word {signal : Signal (Fin waiters)} {f : Fin waiters → Waiter (Fin waiters)}
    {w : Fin waiters} (waiting : (signal.apply f w).word = .waiting) :
    (f w).word = .waiting ∧ signal ≠ .kick w := by
  cases signal with
  | none => exact ⟨waiting, by simp⟩
  | kick v =>
    rcases eq_or_ne w v with rfl | other
    · simp [Signal.apply] at waiting
    · simp only [Signal.apply, Function.update_of_ne other] at waiting
      exact ⟨waiting, by simpa using other.symm⟩
  | wake v =>
    refine ⟨?_, by simp⟩
    rcases eq_or_ne w v with rfl | other
    · simpa [Signal.apply] using waiting
    · simpa [Signal.apply, other] using waiting

section Moves

variable {g g' : Group (Fin waiters)} {locked locked' : Bool} {pc pc' : DonePc (Fin waiters)}
  {signal : Signal (Fin waiters)}

theorem DoneMove.count_le (moved : DoneMove g locked pc g' locked' pc' signal)
    (positive : pc.counted ≤ countOf g.n) : countOf g'.n ≤ countOf g.n := by
  cases moved with
  | last | decrement =>
    have pred : countOf (g.n - 1) + 1 = countOf g.n := countOf_pred positive
    exact Nat.le_of_succ_le (Nat.le_of_eq pred)
  | _ => simp

/-- A completer has a wake to make once it has taken the count to zero. -/
theorem DoneMove.pending (moved : DoneMove g locked pc g' locked' pc' signal)
    (positive : pc.counted ≤ countOf g.n) (later : pc'.pending = true) :
    pc.pending = true ∨ countOf g'.n = 0 := by
  cases moved with
  | last one =>
    have pred : countOf (g.n - 1) + 1 = countOf g.n := countOf_pred positive
    exact .inr (by dsimp only; omega)
  | lock | loadMain | takeTasks => exact .inl (by simp [DonePc.pending, DonePc.preTake])
  | _ => simp [DonePc.pending, DonePc.preTake] at later

/-- The list of tasks stays, or the completer takes it. -/
theorem DoneMove.list (moved : DoneMove g locked pc g' locked' pc' signal) :
    (g'.taskWaiters = g.taskWaiters ∧ (pc.preTake = true → pc'.preTake = true)) ∨
      (g'.taskWaiters = [] ∧ pc.pending = true) := by
  cases moved with
  | takeTasks => exact .inr ⟨rfl, by simp [DonePc.pending, DonePc.preTake]⟩
  | _ => exact .inl ⟨rfl, by simp [DonePc.preTake]⟩

/-- A covered waiter stays covered, or the completer has taken over. -/
theorem DoneMove.covered (moved : DoneMove g locked pc g' locked' pc' signal)
    (zero : pc.pending = true → countOf g.n = 0) (positive : pc.counted ≤ countOf g.n)
    (count : countOf g.n ≠ 0) (bit : hasWaiterBit g.n = true) :
    (countOf g'.n ≠ 0 ∧ hasWaiterBit g'.n = true) ∨ pc' = .lock := by
  cases moved with
  | last => exact .inr rfl
  | decrement other =>
    have pred : countOf (g.n - 1) + 1 = countOf g.n := countOf_pred positive
    have several : countOf g.n ≠ 1 := fun one => other ⟨one, bit⟩
    exact .inl ⟨by dsimp only; omega, by rw [hasWaiterBit_pred positive]; exact bit⟩
  | clearBit => exact absurd (zero (by simp [DonePc.pending])) count
  | _ => exact .inl ⟨count, bit⟩

/-- A blocked thread stays on its list, or the completer takes it. -/
theorem DoneMove.blocked (moved : DoneMove g locked pc g' locked' pc' signal) {w : Fin waiters}
    (mem : w ∈ g.blockedThreads) :
    (w ∈ g'.blockedThreads ∧ (pc = .lock → pc' = .lock)) ∨ w ∈ pc'.threads := by
  cases moved with
  | lock => exact .inr mem
  | _ => exact .inl ⟨mem, by simp⟩

/-- A word the completer has taken is kicked before it is dropped. -/
theorem DoneMove.threads (moved : DoneMove g locked pc g' locked' pc' signal) {w : Fin waiters}
    (mem : w ∈ pc.threads) : w ∈ pc'.threads ∨ signal = .kick w := by
  cases moved with
  | kick =>
    rcases List.mem_cons.mp mem with rfl | rest
    · exact .inr rfl
    · exact .inl rest
  | kickMain | wake | mark | last | decrement | unmark | lock => cases mem
  | _ => exact .inl mem

variable {v : Fin waiters} {me me' : Waiter (Fin waiters)}

theorem WaiterMove.pending (moved : WaiterMove g v me g' me' signal)
    (later : pendingDirect me'.pc = true) :
    pendingDirect me.pc = true ∨ countOf g.n = 0 := by
  cases moved with
  | sawZero here zero => exact .inr zero
  | took here => exact .inl (by rw [here]; rfl)
  | register here count after => rcases after with rfl | rfl <;> cases later
  | other before after =>
    refine absurd later ?_
    cases here : me'.pc <;> simp_all [pendingDirect, pushed]
  | _ => cases later

/-- The list of tasks stays, gets the thread's own task, or is taken. -/
theorem WaiterMove.list (moved : WaiterMove g v me g' me' signal) :
    (g'.taskWaiters = g.taskWaiters ∧ (pushed me'.pc = true → pushed me.pc = true)) ∨
      (g'.taskWaiters = v :: g.taskWaiters ∧ me'.pc = .addBit) ∨
      (g'.taskWaiters = [] ∧ pendingDirect me.pc = true ∧ pushed me.pc = true) := by
  cases moved with
  | push here => exact .inr (.inl ⟨rfl, rfl⟩)
  | took here => exact .inr (.inr ⟨rfl, by rw [here]; rfl, by rw [here]; rfl⟩)
  | register here count after =>
    exact .inl ⟨rfl, fun later => by rcases after with rfl | rfl <;> cases later⟩
  | unregister here => exact .inl ⟨rfl, fun later => by cases later⟩
  | other before after tasks =>
    exact .inl ⟨tasks, fun later => by rw [after] at later; cases later⟩
  | _ => exact .inl ⟨rfl, fun _ => by simp [*, pushed]⟩

/-- A task on the list waits for its own thread to set the bit or to take the list, or has been
registered over a count that is not zero. -/
theorem WaiterMove.onList (moved : WaiterMove g v me g' me' signal)
    (before : v ∈ g.taskWaiters → me.pc = .addBit ∨ me.pc = .directTake ∨ me.pc = .suspended)
    (mem : v ∈ g'.taskWaiters) :
    me'.pc = .addBit ∨ me'.pc = .directTake ∨
      (me'.pc = .suspended ∧ countOf g'.n ≠ 0 ∧ hasWaiterBit g'.n = true) := by
  cases moved with
  | push => exact .inl rfl
  | sawZero => exact .inr (.inl rfl)
  | sawCount here count => exact .inr (.inr ⟨rfl, by simpa using count, hasWaiterBit_or _⟩)
  | tookNone here empty =>
    rw [empty] at mem
    cases mem
  | took => cases mem
  | other outside _ tasks =>
    rcases before (tasks ▸ mem) with here | here | here <;> rw [here] at outside <;>
      cases outside
  | register here => rcases here with here | here <;> simp [here] at before <;> exact absurd mem before
  | _ here =>
    simp only [here, reduceCtorEq, or_self, imp_false] at before
    exact absurd mem before

/-- A covered waiter stays covered: the bit is cleared over a count of zero only. -/
theorem WaiterMove.covered (moved : WaiterMove g v me g' me' signal)
    (zero : pendingDirect me.pc = true → countOf g.n = 0)
    (count : countOf g.n ≠ 0) (bit : hasWaiterBit g.n = true) :
    countOf g'.n ≠ 0 ∧ hasWaiterBit g'.n = true := by
  refine ⟨moved.count ▸ count, ?_⟩
  cases moved with
  | clear here => exact absurd (zero (by rw [here]; rfl)) count
  | other _ _ _ _ word => rcases word with same | set <;> simp [*]
  | sawZero | sawCount | register => exact hasWaiterBit_or _
  | _ => exact bit

/-- Other blocked threads stay on their list. -/
theorem WaiterMove.blocked (moved : WaiterMove g v me g' me' signal) {w : Fin waiters}
    (mem : w ∈ g.blockedThreads) : w ∈ g'.blockedThreads ∨ (w = v ∧ asleep me'.pc = false) := by
  cases moved with
  | register => exact .inl (List.mem_append_left _ mem)
  | unregister =>
    rcases eq_or_ne w v with rfl | other
    · exact .inr ⟨rfl, rfl⟩
    · exact .inl (mem_swapRemove mem other)
  | other _ _ _ threads => exact .inl (threads ▸ mem)
  | _ => exact .inl mem

/-- A thread goes to sleep under the bit, over a count that is not zero. -/
theorem WaiterMove.slept (moved : WaiterMove g v me g' me' signal) (later : asleep me'.pc = true) :
    (asleep me.pc = true ∧ me'.word = me.word) ∨
      (v ∈ g'.blockedThreads ∧ countOf g'.n ≠ 0 ∧ hasWaiterBit g'.n = true) := by
  cases moved with
  | register here count =>
    exact .inr ⟨List.mem_append_right _ List.mem_cons_self, by simpa using count,
      hasWaiterBit_or _⟩
  | other _ _ _ _ _ _ _ _ sleeps => exact .inl (sleeps later)
  | _ => cases later

end Moves

/-- A pushed task that is off the list was off it before, or the count is zero. -/
theorem Paced.taken (paced : Paced s) (stepped : step s a = some t) {w : Fin waiters}
    (here : pushed (t.waiter w).pc = true) (off : w ∉ t.group.taskWaiters) :
    pushed (s.waiter w).pc = true ∧ (w ∉ s.group.taskWaiters ∨ countOf s.group.n = 0) := by
  cases a with
  | done i =>
    obtain ⟨g, locked, pc, signal, moved, -, rfl⟩ := step_done stepped
    simp only [note, apply_pc] at here off
    rcases moved.list with ⟨same, -⟩ | ⟨-, pending⟩
    · exact ⟨here, .inl (same ▸ off)⟩
    · exact ⟨here, .inr (paced.done i pending)⟩
  | waiter v choice =>
    obtain ⟨g, me, signal, moved, -, rfl⟩ := step_waiter stepped
    simp only [note, apply_pc] at here off
    have old : w ≠ v → pushed (s.waiter w).pc = true := fun other => by
      rwa [Function.update_of_ne other] at here
    rcases moved.list with ⟨same, keep⟩ | ⟨push, -⟩ | ⟨-, pending, before⟩
    · refine ⟨?_, .inl (same ▸ off)⟩
      rcases eq_or_ne w v with rfl | other
      · rw [Function.update_self] at here
        exact keep here
      · exact old other
    · rw [push, List.mem_cons, not_or] at off
      exact ⟨old off.1, .inl off.2⟩
    · refine ⟨?_, .inr (paced.direct v pending)⟩
      rcases eq_or_ne w v with rfl | other
      · exact before
      · exact old other
  | add k =>
    obtain ⟨-, rfl⟩ := step_add stepped
    exact ⟨here, .inl off⟩
  | wait v =>
    obtain rfl := step_wait stepped
    exact ⟨here, .inl off⟩
  | resume v =>
    obtain ⟨-, rfl⟩ := step_resume stepped
    refine ⟨?_, .inl off⟩
    simp only [note] at here
    rcases eq_or_ne w v with rfl | other
    · rwa [Function.update_self] at here
    · rwa [Function.update_of_ne other] at here
  | wakeMain v =>
    obtain rfl := step_wakeMain stepped
    simp only [note, apply_pc] at here
    exact ⟨here, .inl off⟩

theorem Paced.taken_zeroSince (paced : Paced s) (stepped : step s a = some t) {w : Fin waiters}
    (here : pushed (t.waiter w).pc = true) (off : w ∉ t.group.taskWaiters) :
    s.zeroSince w = true := by
  obtain ⟨before, out⟩ := paced.taken stepped here off
  exact out.elim (paced.fair w before) (paced.noted w before)

theorem Paced.done_step {i : Fin dones} (paced : Paced s) (once : Once s)
    (stepped : step s (.done i) = some t) : Paced t := by
  obtain ⟨g, locked, pc, signal, moved, called, rfl⟩ := step_done stepped
  have positive := once.counted_le i
  have zero (none : countOf s.group.n = 0) : countOf g.n = 0 :=
    Nat.le_zero.mp (none ▸ moved.count_le positive)
  refine ⟨fun j here => ?_, fun w here => ?_, fun w mem => ?_, fun w mem here => ?_,
    fun w here waiting => ?_, fun w here none => ?_, fun w here off => ?_⟩
  · simp only [note] at here ⊢
    rcases eq_or_ne j i with rfl | other
    · rw [Function.update_self] at here
      rcases moved.pending positive here with before | none
      · exact zero (paced.done j before)
      · exact none
    · rw [Function.update_of_ne other] at here
      exact zero (paced.done j here)
  · simp only [note, apply_pc] at here ⊢
    exact zero (paced.direct w here)
  · simp only [note, apply_pc] at mem ⊢
    rcases moved.list with ⟨same, -⟩ | ⟨empty, -⟩
    · exact paced.onList w (same ▸ mem)
    · rw [empty] at mem
      cases mem
  · simp only [note, apply_pc] at mem here ⊢
    rcases moved.list with ⟨same, preTake⟩ | ⟨empty, -⟩
    · rcases paced.listed w (same ▸ mem) here with covered | taker
      · rcases moved.covered (paced.done i) positive covered.1 covered.2 with still | lock
        · exact .inl still
        · exact .inr ⟨i, by rw [Function.update_self, lock]; rfl⟩
      · exact .inr (exists_update (P := fun pc => DonePc.preTake pc = true) taker preTake)
    · rw [empty] at mem
      cases mem
  · simp only [note, apply_pc] at here waiting ⊢
    obtain ⟨word, unkicked⟩ := apply_word waiting
    rcases paced.slept w here word with ⟨mem, reason⟩ | ⟨j, mem⟩
    · rcases moved.blocked mem with ⟨still, lock⟩ | taken
      · refine .inl ⟨still, ?_⟩
        rcases reason with covered | locker
        · rcases moved.covered (paced.done i) positive covered.1 covered.2 with still | lock
          · exact .inl still
          · exact .inr ⟨i, by rw [Function.update_self, lock]⟩
        · exact .inr (exists_update (P := fun pc => pc = DonePc.lock) locker lock)
      · exact .inr ⟨i, by rw [Function.update_self]; exact taken⟩
    · refine .inr (exists_update (P := fun pc => w ∈ DonePc.threads pc) ⟨j, mem⟩ fun mine => ?_)
      exact (moved.threads mine).resolve_right unkicked
  · exact note_zeroSince.mpr (.inr ⟨here, none⟩)
  · exact note_zeroSince.mpr (.inl (paced.taken_zeroSince stepped here off))

theorem Paced.waiter_step {v : Fin waiters} {choice : Bool} (paced : Paced s)
    (stepped : step s (.waiter v choice) = some t) : Paced t := by
  obtain ⟨g, me, signal, moved, -, rfl⟩ := step_waiter stepped
  have count := moved.count
  have covered (before : Covered s) : countOf g.n ≠ 0 ∧ hasWaiterBit g.n = true :=
    moved.covered (paced.direct v) before.1 before.2
  have listed {w : Fin waiters} (mem : w ∈ g.taskWaiters) (other : w ≠ v) :
      w ∈ s.group.taskWaiters := by
    rcases moved.list with ⟨same, -⟩ | ⟨push, -⟩ | ⟨empty, -⟩
    · exact same ▸ mem
    · rw [push] at mem
      exact (List.mem_cons.mp mem).resolve_left other
    · rw [empty] at mem
      cases mem
  refine ⟨fun j here => ?_, fun w here => ?_, fun w mem => ?_, fun w mem here => ?_,
    fun w here waiting => ?_, fun w here none => ?_, fun w here off => ?_⟩
  · exact count.trans (paced.done j here)
  · simp only [note, apply_pc] at here ⊢
    rw [count]
    rcases eq_or_ne w v with rfl | other
    · rw [Function.update_self] at here
      rcases moved.pending here with before | zero
      · exact paced.direct w before
      · exact zero
    · rw [Function.update_of_ne other] at here
      exact paced.direct w here
  · simp only [note, apply_pc] at mem ⊢
    rcases eq_or_ne w v with rfl | other
    · rw [Function.update_self]
      rcases moved.onList (paced.onList w) mem with bit | take | ⟨suspended, -⟩
      · exact .inl bit
      · exact .inr (.inl take)
      · exact .inr (.inr suspended)
    · rw [Function.update_of_ne other]
      exact paced.onList w (listed mem other)
  · simp only [note, apply_pc] at mem here ⊢
    rcases eq_or_ne w v with rfl | other
    · rw [Function.update_self] at here
      rcases moved.onList (paced.onList w) mem with bit | take | ⟨-, now⟩
      · rw [bit] at here
        cases here
      · rw [take] at here
        cases here
      · exact .inl now
    · rw [Function.update_of_ne other] at here
      exact (paced.listed w (listed mem other) here).imp_left covered
  · simp only [note, apply_pc] at here waiting ⊢
    obtain ⟨word, -⟩ := apply_word waiting
    have before (sleeps : asleep (s.waiter w).pc = true) (word : (s.waiter w).word = .waiting)
        (now : asleep (Function.update s.waiter v me w).pc = true) :
        (w ∈ g.blockedThreads ∧ ((countOf g.n ≠ 0 ∧ hasWaiterBit g.n = true) ∨
          ∃ i, s.done i = .lock)) ∨ ∃ i, w ∈ (s.done i).threads := by
      rcases paced.slept w sleeps word with ⟨mem, reason⟩ | taken
      · rcases moved.blocked mem with still | ⟨rfl, gone⟩
        · exact .inl ⟨still, reason.imp_left covered⟩
        · rw [Function.update_self, gone] at now
          cases now
      · exact .inr taken
    rcases eq_or_ne w v with rfl | other
    · have now := here
      rw [Function.update_self] at here word
      rcases moved.slept here with ⟨sleeps, same⟩ | ⟨mem, now⟩
      · exact before sleeps (same ▸ word) now
      · exact .inl ⟨mem, .inl now⟩
    · have now := here
      rw [Function.update_of_ne other] at here word
      exact before here word now
  · exact note_zeroSince.mpr (.inr ⟨here, none⟩)
  · exact note_zeroSince.mpr (.inl (paced.taken_zeroSince stepped here off))

theorem Paced.add_step {k : Nat} (paced : Paced s) (allowed : NoWakePending s (.add k))
    (stepped : step s (.add k) = some t) : Paced t := by
  obtain ⟨room, rfl⟩ := step_add stepped
  have count : countOf (s.group.n + k) = countOf s.group.n + k := countOf_add room
  have covered (before : Covered s) :
      countOf (s.group.n + k) ≠ 0 ∧ hasWaiterBit (s.group.n + k) = true := by
    refine ⟨?_, by rw [hasWaiterBit_add room]; exact before.2⟩
    have := before.1
    omega
  have idle (i : Fin dones) : (s.done i).pending = false := by
    cases pending : (s.done i).pending with
    | false => rfl
    | true => exact pending ▸ (allowed (paced.done i pending)).1 i
  refine ⟨fun i here => ?_, fun w here => ?_, paced.onList, fun w mem here => ?_,
    fun w here waiting => ?_, fun w here none => ?_, fun w here off => ?_⟩
  · have none := idle i
    rw [show (s.done i).pending = true from here] at none
    cases none
  · have none := (allowed (paced.direct w here)).2 w
    rw [show pendingDirect (s.waiter w).pc = true from here] at none
    cases none
  · rcases paced.listed w mem here with before | ⟨i, preTake⟩
    · exact .inl (covered before)
    · have pending := preTake_pending preTake
      rw [idle i] at pending
      cases pending
  · rcases paced.slept w here waiting with ⟨mem, before | ⟨i, lock⟩⟩ | taken
    · exact .inl ⟨mem, .inl (covered before)⟩
    · have pending := idle i
      rw [lock] at pending
      cases pending
    · exact .inr taken
  · exact note_zeroSince.mpr (.inr ⟨here, none⟩)
  · exact note_zeroSince.mpr (.inl (paced.fair w here off))

/-- A step that leaves the group, the completers and the program counters alone. -/
theorem Paced.frame {f : Fin waiters → Waiter (Fin waiters)} {begun : Fin waiters → Bool}
    (paced : Paced s) (pc : ∀ w, (f w).pc = (s.waiter w).pc)
    (word : ∀ w, (f w).word = .waiting → (s.waiter w).word = .waiting) :
    Paced (note { s with waiter := f, begun := begun }) := by
  refine ⟨paced.done, fun w here => ?_, fun w mem => ?_, fun w mem here => ?_,
    fun w here waiting => ?_, fun w here none => ?_, fun w here off => ?_⟩
  · simp only [note, pc] at here
    exact paced.direct w here
  · simp only [note, pc]
    exact paced.onList w mem
  · simp only [note, pc] at here
    exact paced.listed w mem here
  · simp only [note, pc] at here waiting
    exact paced.slept w here (word w waiting)
  · exact note_zeroSince.mpr (.inr ⟨here, none⟩)
  · simp only [note, pc] at here
    exact note_zeroSince.mpr (.inl (paced.fair w here off))

theorem step_paced (paced : Paced s) (once : Once s) (allowed : NoWakePending s a)
    (stepped : step s a = some t) : Paced t := by
  cases a with
  | done i => exact paced.done_step once stepped
  | waiter w choice => exact paced.waiter_step stepped
  | add k => exact paced.add_step allowed stepped
  | wait w =>
    obtain rfl := step_wait stepped
    exact paced.frame (fun _ => rfl) fun _ here => here
  | resume w =>
    obtain ⟨-, rfl⟩ := step_resume stepped
    refine paced.frame (fun v => ?_) fun v => ?_ <;> rcases eq_or_ne v w with rfl | other
    · rw [Function.update_self]
    · rw [Function.update_of_ne other]
    · rw [Function.update_self]
      exact id
    · rw [Function.update_of_ne other]
      exact id
  | wakeMain w =>
    obtain rfl := step_wakeMain stepped
    exact paced.frame (apply_pc _ _) fun v waiting => (apply_word waiting).1

theorem reach_paced {kinds : Fin waiters → WaiterKind}
    (reach : Reach step NoWakePending (initial dones kinds) s) : Paced s :=
  Reach.invariant_of (J := Once) (I := Paced) reach_once (initial_paced dones kinds)
    (fun once paced allowed stepped => step_paced paced once allowed stepped) reach

/-! ## Nobody is forgotten -/

/-- The count is zero and no `Done`, `WakeAll`, `WakeAllDirect` or `AddWaiter` is in progress. -/
structure AtRest (s : State dones waiters) : Prop where
  zero : countOf s.group.n = 0
  done : ∀ i, (s.done i).inProgress = false
  waiter : ∀ w, adding (s.waiter w).pc = false

instance (s : State dones waiters) : Decidable (AtRest s) :=
  decidable_of_iff (countOf s.group.n = 0 ∧ (∀ i, (s.done i).inProgress = false) ∧
      ∀ w, adding (s.waiter w).pc = false)
    ⟨fun h => ⟨h.1, h.2.1, h.2.2⟩, fun h => ⟨h.zero, h.done, h.waiter⟩⟩

theorem inProgress_of_preTake {W : Type} {pc : DonePc W} (rest : pc.inProgress = false) :
    pc.preTake = false ∧ pc ≠ .lock ∧ pc.tasks = [] ∧ pc.threads = [] := by
  cases pc with
  | idle => exact ⟨rfl, by simp, rfl, rfl⟩
  | wake threads mainWord tasks =>
    cases threads <;> cases mainWord <;> cases tasks <;>
      simp_all [DonePc.inProgress, DonePc.preTake, DonePc.tasks, DonePc.threads]
  | _ => cases rest

theorem suspended_of_rest {W : Type} {pc : WaiterPc W} (here : pushed pc = true)
    (rest : adding pc = false) : pc = .suspended := by
  cases pc <;> simp_all [pushed, adding]

theorem takenBy_of_rest {W : Type} {pc : WaiterPc W} (rest : adding pc = false) :
    takenBy pc = [] := by
  cases pc <;> simp_all [takenBy, adding]

/-- A state at rest has woken every registered task. -/
theorem Paced.all_woken (paced : Paced s) (once : Once s) (rest : AtRest s) {w : Fin waiters}
    (here : pushed (s.waiter w).pc = true) : s.wakes w = 1 := by
  have unlisted : w ∉ s.group.taskWaiters := by
    intro mem
    rcases paced.listed w mem (suspended_of_rest here (rest.waiter w)) with covered | ⟨i, taker⟩
    · exact covered.1 rest.zero
    · rw [(inProgress_of_preTake (rest.done i)).1] at taker
      cases taker
  have whole := once.once w
  have nowhere : places s w = 0 := by
    have done (i : Fin dones) : (s.done i).tasks.count w = 0 := by
      rw [(inProgress_of_preTake (rest.done i)).2.2.1]
      rfl
    have direct (v : Fin waiters) : (takenBy (s.waiter v).pc).count w = 0 := by
      rw [takenBy_of_rest (rest.waiter v)]
      rfl
    simp only [places, List.count_eq_zero_of_not_mem unlisted, done, direct,
      Finset.sum_const_zero, Nat.add_zero]
  rw [nowhere, here, Bool.toNat_true] at whole
  omega

/-- Nor does a registered thread sleep on. -/
theorem Paced.none_asleep (paced : Paced s) (rest : AtRest s) {w : Fin waiters}
    (here : asleep (s.waiter w).pc = true) : (s.waiter w).word ≠ .waiting := by
  intro waiting
  rcases paced.slept w here waiting with ⟨-, covered | ⟨i, lock⟩⟩ | ⟨i, mem⟩
  · exact covered.1 rest.zero
  · exact (inProgress_of_preTake (rest.done i)).2.1 lock
  · rw [(inProgress_of_preTake (rest.done i)).2.2.2] at mem
    cases mem

/-- When the count is raised at any moment but never from zero under a pending wake, a task is
woken only after the count has been zero since it was pushed, and at rest every registered task
has been woken. -/
theorem woken_after_zero (dones waiters : Nat) (kinds : Fin waiters → WaiterKind)
    (s : State dones waiters) (reach : Reach step NoWakePending (initial dones kinds) s) :
    (∀ w, s.wakes w ≠ 0 → s.zeroSince w = true) ∧
      (AtRest s → ∀ w, pushed (s.waiter w).pc = true → s.wakes w = 1) := by
  have once := reach_once reach
  have paced := reach_paced reach
  refine ⟨fun w woken => ?_, fun rest w => paced.all_woken once rest⟩
  have whole := once.once w
  have here : pushed (s.waiter w).pc = true := by
    cases out : pushed (s.waiter w).pc with
    | true => rfl
    | false =>
      rw [out, Bool.toNat_false] at whole
      omega
  refine paced.fair w here fun mem => ?_
  have listed := List.count_pos_iff.mpr mem
  rw [here, Bool.toNat_true, places] at whole
  omega

/-- A fiber registers over a count of one, which is raised over it; two completers take the count to
zero, and the second one wakes the fiber.  Then the count is raised again, and a second fiber
registers and is woken by a third completer. -/
def fiberWoken : List (Label 3 2) :=
  List.flatten [
    [.add 1, .wait 0, .waiter 0 true, .waiter 0 true, .waiter 0 true, .add 1],
    List.replicate 3 (.done 0), List.replicate 9 (.done 1),
    [.add 1, .wait 1, .waiter 1 true, .waiter 1 true, .waiter 1 true],
    List.replicate 9 (.done 2)]

theorem fiber_woken_after_zero :
    ∃ s : State 3 2, Reach step NoWakePending (initial 3 fun _ => .fiber) s ∧
      AtRest s ∧ ∀ w, pushed (s.waiter w).pc = true ∧ s.wakes w = 1 ∧ s.zeroSince w = true := by
  have reach : Reach step NoWakePending (initial 3 fun _ => .fiber) _ :=
    Reach.of_isSome fiberWoken (by decide +kernel)
  have rest : AtRest ((run step NoWakePending (initial 3 fun _ => .fiber) fiberWoken).getD
    (initial 3 fun _ => .fiber)) := by decide +kernel
  have registered : ∀ w, pushed (((run step NoWakePending (initial 3 fun _ => .fiber)
    fiberWoken).getD (initial 3 fun _ => .fiber)).waiter w).pc = true := by decide +kernel
  obtain ⟨after, all⟩ := woken_after_zero 3 2 _ _ reach
  refine ⟨_, reach, rest, fun w => ?_⟩
  have woken := all rest w (registered w)
  exact ⟨registered w, woken, after w (by rw [woken]; decide)⟩

/-- The completer has taken the count to zero and waits for the mutex. -/
def lastDone : List (Label 2 2) :=
  [.add 1, .wait 0, .waiter 0 true, .waiter 0 true, .waiter 0 true, .done 0, .done 0]

/-- The second fiber registers. -/
def secondFiber : List (Label 2 2) :=
  [.wait 1, .waiter 1 true, .waiter 1 true, .waiter 1 true]

/-- The count is raised under the wake, and the second fiber is swept up by it. -/
def sweptUp : List (Label 2 2) :=
  List.flatten [lastDone, [.add 1], secondFiber, List.replicate 7 (.done 0)]

/-- The second fiber registers after the list has been taken, and the wake erases its bit. -/
def bitErased : List (Label 2 2) :=
  List.flatten [lastDone, List.replicate 3 (.done 0), [.add 1], secondFiber,
    List.replicate 4 (.done 0), List.replicate 3 (.done 1)]

theorem raised_under_wake :
    (∃ s : State 2 2, Reach step anyStep (initial 2 fun _ => .fiber) s ∧
      s.wakes 1 ≠ 0 ∧ s.zeroSince 1 = false) ∧
    ∃ s : State 2 2, Reach step anyStep (initial 2 fun _ => .fiber) s ∧
      AtRest s ∧ pushed (s.waiter 1).pc = true ∧ s.wakes 1 = 0 :=
  ⟨⟨_, Reach.of_isSome sweptUp (by decide +kernel), by decide +kernel, by decide +kernel⟩,
    ⟨_, Reach.of_isSome bitErased (by decide +kernel), by decide +kernel, by decide +kernel, by decide +kernel⟩⟩

/-! ## Rounds kept apart -/

/-- The count is raised from zero only when every wait called so far has returned and no call
of `AddWaiter` or `Done` is in progress. -/
def RoundsApart (s : State dones waiters) : Label dones waiters → Prop
  | .add _ => countOf s.group.n = 0 →
      (∀ w, s.begun w = true → (s.waiter w).returned = true ∧ adding (s.waiter w).pc = false) ∧
        ∀ i, (s.done i).inProgress = false
  | _ => True

instance (s : State dones waiters) : ∀ a, Decidable (RoundsApart s a)
  | .add _ => inferInstanceAs (Decidable (_ → _))
  | .wait _ | .done _ | .waiter _ _ | .resume _ | .wakeMain _ => isTrue trivial

theorem RoundsApart.noWakePending (once : Once s) (allowed : RoundsApart s a) :
    NoWakePending s a := by
  cases a with
  | add k =>
    intro zero
    obtain ⟨waits, calls⟩ := allowed zero
    refine ⟨fun i => ?_, fun w => ?_⟩
    · have rest := calls i
      cases pending : (s.done i).pending with
      | false => rfl
      | true =>
        cases here : s.done i <;>
          simp_all [DonePc.pending, DonePc.preTake, DonePc.inProgress]
    · cases pending : pendingDirect (s.waiter w).pc with
      | false => rfl
      | true =>
        have here : pushed (s.waiter w).pc = true := by
          cases pc : (s.waiter w).pc <;> simp_all [pendingDirect, pushed]
        have rest := (waits w (once.begun w here)).2
        cases pc : (s.waiter w).pc <;> simp_all [pendingDirect, adding]
  | _ => trivial

theorem reach_apart {kinds : Fin waiters → WaiterKind}
    (reach : Reach step RoundsApart (initial dones kinds) s) :
    Reach step NoWakePending (initial dones kinds) s := by
  induction reach with
  | start => exact .start
  | next before allowed stepped ih =>
    exact ih.next (allowed.noWakePending (reach_once before)) stepped

/-- While a task has been taken and not woken, the count stays zero. -/
def TakenAtZero (s : State dones waiters) : Prop :=
  ∀ w, pushed (s.waiter w).pc = true → w ∉ s.group.taskWaiters → s.wakes w = 0 →
    countOf s.group.n = 0

theorem step_takenAtZero (zero : TakenAtZero s) (once : Once s) (paced : Paced s)
    (allowed : RoundsApart s a) (stepped : step s a = some t) : TakenAtZero t := by
  intro w here off unwoken
  obtain ⟨before, out⟩ := paced.taken stepped here off
  have now (unwoken : s.wakes w = 0) : countOf s.group.n = 0 :=
    out.elim (fun off => zero w before off unwoken) id
  cases a with
  | done i =>
    obtain ⟨g, locked, pc, signal, moved, -, rfl⟩ := step_done stepped
    have wakes := le_countWake s.wakes signal w
    have none := now (Nat.le_zero.mp (wakes.trans_eq unwoken))
    exact Nat.le_zero.mp (none ▸ moved.count_le (once.counted_le i))
  | waiter v choice =>
    obtain ⟨g, me, signal, moved, -, rfl⟩ := step_waiter stepped
    have wakes := le_countWake s.wakes signal w
    exact moved.count.trans (now (Nat.le_zero.mp (wakes.trans_eq unwoken)))
  | add k =>
    obtain ⟨-, rfl⟩ := step_add stepped
    -- its wait has not returned, so the count is not raised now
    have returned := ((allowed (now unwoken)).1 w (once.begun w before)).1
    rcases once.returned w returned with woken | left
    · exact absurd unwoken woken
    · rw [left] at before
      cases before
  | wait v =>
    obtain rfl := step_wait stepped
    exact now unwoken
  | resume v =>
    obtain ⟨-, rfl⟩ := step_resume stepped
    exact now unwoken
  | wakeMain v =>
    obtain rfl := step_wakeMain stepped
    exact now unwoken

theorem reach_takenAtZero {kinds : Fin waiters → WaiterKind}
    (reach : Reach step RoundsApart (initial dones kinds) s) : TakenAtZero s := by
  induction reach with
  | start =>
    intro w here
    simp [initial, Waiter.initial, pushed_entry] at here
  | next before allowed stepped ih =>
    exact step_takenAtZero ih (reach_once before) (reach_paced (reach_apart before)) allowed
      stepped

/-- The task named by a wake stands in a list that has been taken. -/
theorem Once.named (once : Once s) (stepped : step s a = some t) {w : Fin waiters}
    (woken : t.wakes w ≠ s.wakes w) :
    pushed (s.waiter w).pc = true ∧ w ∉ s.group.taskWaiters ∧ s.wakes w = 0 ∧ t.wakes w = 1 ∧
      countOf t.group.n = countOf s.group.n := by
  have whole := once.once w
  have bound := Bool.toNat_le (pushed (s.waiter w).pc)
  -- one place besides the list of the group is all there is
  have rest (one : 1 ≤ ∑ i, (s.done i).tasks.count w + ∑ v, (takenBy (s.waiter v).pc).count w) :
      pushed (s.waiter w).pc = true ∧ w ∉ s.group.taskWaiters ∧ s.wakes w = 0 := by
    rw [places] at whole
    refine ⟨?_, List.count_eq_zero.mp (by omega), by omega⟩
    cases out : pushed (s.waiter w).pc with
    | true => rfl
    | false =>
      rw [out, Bool.toNat_false] at whole
      omega
  cases a with
  | done i =>
    obtain ⟨g, locked, pc, signal, moved, -, rfl⟩ := step_done stepped
    have mine := le_sum (fun pc => (DonePc.tasks pc).count w) s.done i
    simp only [note, countWake_eq] at woken ⊢
    generalize s.done i = before at moved mine
    cases moved with
    | @wake u tasks =>
      have same : u = w := by
        by_contra other
        simp [names, other] at woken
      have inside : 1 ≤ (DonePc.wake [] none (u :: tasks)).tasks.count w := by
        simp [DonePc.tasks, same]
      obtain ⟨here, off, none⟩ := rest (by omega)
      exact ⟨here, off, none, by simp [names, same, none], rfl⟩
    | _ => exact absurd rfl woken
  | waiter v choice =>
    obtain ⟨g, me, signal, moved, -, rfl⟩ := step_waiter stepped
    have mine := le_sum (fun x : Waiter (Fin waiters) => (takenBy x.pc).count w) s.waiter v
    simp only [note, countWake_eq] at woken ⊢
    cases moved with
    | @wake u tasks here =>
      have same : u = w := by
        by_contra other
        simp [names, other] at woken
      have inside : 1 ≤ (takenBy (s.waiter v).pc).count w := by
        simp [here, takenBy, same]
      obtain ⟨here, off, none⟩ := rest (by omega)
      exact ⟨here, off, none, by simp [names, same, none], rfl⟩
    | _ => exact absurd rfl woken
  | add k =>
    obtain ⟨-, rfl⟩ := step_add stepped
    exact absurd rfl woken
  | wait v =>
    obtain rfl := step_wait stepped
    exact absurd rfl woken
  | resume v =>
    obtain ⟨-, rfl⟩ := step_resume stepped
    exact absurd rfl woken
  | wakeMain v =>
    obtain rfl := step_wakeMain stepped
    exact absurd rfl woken

/-- In rounds kept apart each registered task is woken exactly once, over a count of zero; at
rest no registered task is left and no registered thread sleeps. -/
theorem woken_once (dones waiters : Nat) (kinds : Fin waiters → WaiterKind)
    (s : State dones waiters) (reach : Reach step RoundsApart (initial dones kinds) s) :
    (∀ w, s.wakes w ≤ (pushed (s.waiter w).pc).toNat) ∧
    (∀ a t w, RoundsApart s a → step s a = some t → t.wakes w ≠ s.wakes w →
      s.wakes w = 0 ∧ t.wakes w = 1 ∧ countOf s.group.n = 0 ∧ countOf t.group.n = 0) ∧
    (AtRest s → (∀ w, pushed (s.waiter w).pc = true → s.wakes w = 1) ∧
      ∀ w, asleep (s.waiter w).pc = true → (s.waiter w).word ≠ .waiting) := by
  have once := reach_once reach
  have paced := reach_paced (reach_apart reach)
  refine ⟨fun w => ?_, fun a t w _ stepped woken => ?_, fun rest => ⟨fun w => ?_, fun w => ?_⟩⟩
  · have whole := once.once w
    omega
  · obtain ⟨here, off, none, one, same⟩ := once.named stepped woken
    have zero := reach_takenAtZero reach w here off none
    exact ⟨none, one, zero, same.trans zero⟩
  · exact paced.all_woken once rest
  · exact paced.none_asleep rest

/-- Two rounds.  A fiber registers while main goes to sleep, the completer wakes both; in the
second round a coroutine registers after the count has gone down and wakes itself. -/
def twoRounds : List (Label 2 3) :=
  List.flatten [
    [.add 1, .wait 0, .waiter 0 true, .waiter 0 true, .waiter 0 true,
     .wait 1, .waiter 1 true, .waiter 1 true, .waiter 1 true, .waiter 1 true],
    List.replicate 10 (.done 0),
    [.resume 0, .waiter 1 true, .waiter 1 true, .waiter 1 true, .waiter 1 true, .waiter 1 true,
     .waiter 1 true],
    [.add 1, .wait 2, .waiter 2 true, .waiter 2 true, .done 1, .done 1, .done 1],
    List.replicate 6 (.waiter 2 true)]

def roundKinds : Fin 3 → WaiterKind
  | 0 => .fiber
  | 1 => .outOfPoolMain
  | 2 => .coroutine

theorem twoRounds_woken_once :
    ∃ s : State 2 3, Reach step RoundsApart (initial 2 roundKinds) s ∧ AtRest s ∧
      s.wakes 0 = 1 ∧ s.wakes 2 = 1 ∧ s.wakes 1 ≤ 0 := by
  have reach : Reach step RoundsApart (initial 2 roundKinds) _ :=
    Reach.of_isSome twoRounds (by decide +kernel)
  have rest : AtRest ((run step RoundsApart (initial 2 roundKinds) twoRounds).getD
    (initial 2 roundKinds)) := by decide +kernel
  obtain ⟨most, -, all⟩ := woken_once 2 3 roundKinds _ reach
  exact ⟨_, reach, rest, (all rest).1 0 (by decide +kernel), (all rest).1 2 (by decide +kernel),
    (most 1).trans_eq (by decide +kernel)⟩

end JLibSched.WaitGroup.Rounds
