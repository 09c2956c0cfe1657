import JLibSched.Lib.Transition
import Mathlib.Data.Nat.Bitwise

/-!
# The rows of the hazard table

A worker's guard uses the row of its index in the pool.  A guard of any other thread uses one of the
64 rows behind those of the workers, which the thread claims on its first guard and keeps until
`ReleaseCurrentReader`.  The table is built once per process, for the workers that the pool has at
that moment.

Each access of an owner is one step.  A guard that finds no table has no row and is left out.
-/

namespace JLibSched.HazardRows

open Transition

def kExternalReaders : Nat := 64

/-- Where a thread is in `CurrentReader` or `ReleaseCurrentReader`. -/
inductive Pc where
  | idle
  /-- `EnsureTable` has returned. -/
  | current
  /-- It looks for its row. -/
  | find (i : Nat)
  /-- It looks for a free row. -/
  | claim (i : Nat)
  | release (i : Nat)
deriving DecidableEq, Repr

structure State where
  /-- `TaskScheduler::IsInitialized`, and `GetWorkerCount`. -/
  isInitialized : Bool
  workers : Nat
  /-- The worker count the table was built for. -/
  workerCount : Option Nat
  externalOwners : Nat → Nat
  /-- The thread of each worker of the pool, and the index of each thread that is a worker. -/
  thread : Nat → Option Nat
  qIndex : Nat → Option Nat
  /-- The row of the guard a thread has. -/
  reader : Nat → Option Nat
  pc : Nat → Pc

def initial : State where
  isInitialized := false
  workers := 0
  workerCount := none
  externalOwners _ := 0
  thread _ := none
  qIndex _ := none
  reader _ := none
  pc _ := .idle

inductive Label where
  | setInitialized (isInitialized : Bool)
  /-- The pool is being filled, or cleared. -/
  | setWorkers (count : Nat)
  /-- A thread becomes a worker, and stops being one. -/
  | start (t q : Nat)
  | stop (t : Nat)
  /-- `Init`, when the pool starts, and `Retire` and `Scan` of any thread. -/
  | ensureTable
  | openGuard (t : Nat)
  | closeGuard (t : Nat)
  /-- A `ThreadScope` ends. -/
  | releaseCurrentReader (t : Nat)
  | advance (t : Nat)
deriving DecidableEq, Repr

/-- `ThisThreadId`, for the hash of each thread's id. -/
def thisThreadId (hash : Nat → Nat) (t : Nat) : Nat := hash t ||| 1

def State.go (s : State) (t : Nat) (pc : Pc) : State := { s with pc := Function.update s.pc t pc }

/-- `EnsureTable`. -/
def State.ensureTable (s : State) : State :=
  if s.workerCount = none ∧ s.isInitialized = true then { s with workerCount := some s.workers } else s

/-- The guard has its row.  A second guard of a thread is fatal. -/
def State.takeRow (s : State) (t row : Nat) : Option State :=
  if s.reader t = none then some { s.go t .idle with reader := Function.update s.reader t (some row) }
  else none

/-- A step of `CurrentReader` or `ReleaseCurrentReader`. -/
def advance (hash : Nat → Nat) (s : State) (t : Nat) : Option State :=
  match s.workerCount with
  | none => none
  | some workerCount =>
    match s.pc t with
    | .idle => none
    | .current =>
      match s.qIndex t with
      | some qi => s.takeRow t qi
      | none => some (s.go t (.find 0))
    | .find i =>
      if i < kExternalReaders then
        if s.externalOwners i = thisThreadId hash t then s.takeRow t (workerCount + i)
        else some (s.go t (.find (i + 1)))
      else some (s.go t (.claim 0))
    | .claim i =>
      if i < kExternalReaders then
        if s.externalOwners i = 0 then
          { s with externalOwners := Function.update s.externalOwners i (thisThreadId hash t) }.takeRow t
            (workerCount + i)
        else some (s.go t (.claim (i + 1)))
      else none  -- running out of rows is fatal
    | .release i =>
      if i < kExternalReaders then
        if s.externalOwners i = thisThreadId hash t then
          some { s.go t .idle with externalOwners := Function.update s.externalOwners i 0 }
        else some (s.go t (.release (i + 1)))
      else some (s.go t .idle)

def step (hash : Nat → Nat) (s : State) : Label → Option State
  | .setInitialized isInitialized => some { s with isInitialized := isInitialized }
  | .setWorkers count => some { s with workers := count }
  | .start t q =>
    if s.pc t = .idle ∧ s.qIndex t = none ∧ q < s.workers ∧ s.thread q = none then
      some { s with
        thread := Function.update s.thread q (some t)
        qIndex := Function.update s.qIndex t (some q) }
    else none
  | .stop t =>
    match s.qIndex t with
    | some q =>
      if s.pc t = .idle then
        some { s with
          thread := Function.update s.thread q none
          qIndex := Function.update s.qIndex t none }
      else none
    | none => none
  | .ensureTable => some s.ensureTable
  | .openGuard t =>
    if s.pc t = .idle then
      if s.ensureTable.workerCount = none then some s  -- no row
      else some (s.ensureTable.go t .current)
    else none
  | .closeGuard t =>
    if s.pc t = .idle ∧ s.reader t ≠ none then
      some { s with reader := Function.update s.reader t none }
    else none
  | .releaseCurrentReader t =>
    if s.pc t = .idle then
      if s.workerCount = none then some s else some (s.go t (.release 0))
    else none
  | .advance t => advance hash s t

/-- A worker that asks for its row has one in the table. -/
def Inside : Pc → Option Nat → Option Nat → Prop
  | .current, some qi, some workerCount => qi < workerCount
  | _, _, _ => True

/-- A worker that asks for its row has one in the table, and a thread that stops being a worker or
gives its row back has no guard. -/
def rowsKept (s : State) : Label → Prop
  | .advance t => Inside (s.pc t) (s.qIndex t) s.workerCount
  | .stop t | .releaseCurrentReader t => s.reader t = none
  | _ => True

instance : ∀ pc qIndex workerCount, Decidable (Inside pc qIndex workerCount)
  | .current, some qi, some w => inferInstanceAs (Decidable (qi < w))
  | .current, some _, none | .current, none, _ | .idle, _, _ | .find _, _, _ | .claim _, _, _
  | .release _, _, _ => isTrue trivial

instance (s : State) : ∀ a, Decidable (rowsKept s a)
  | .advance t => inferInstanceAs (Decidable (Inside (s.pc t) (s.qIndex t) s.workerCount))
  | .stop t | .releaseCurrentReader t => inferInstanceAs (Decidable (s.reader t = none))
  | .setInitialized _ | .setWorkers _ | .start .. | .ensureTable | .openGuard _ | .closeGuard _ =>
    isTrue trivial

/-! ## Each row has one guard -/

variable {hash : Nat → Nat} {s s' : State} {t u r i w : Nat} {pc : Pc} {a : Label}

theorem thisThreadId_pos : thisThreadId hash t ≠ 0 := by
  have one : 1 ≤ hash t ||| 1 := Nat.right_le_or
  unfold thisThreadId
  omega

theorem thisThreadId_inj (apart : ∀ t u, hash t / 2 = hash u / 2 → t = u)
    (same : thisThreadId hash t = thisThreadId hash u) : t = u := by
  refine apart t u ?_
  have halves := congrArg (· / 2) same
  have half (x : Nat) : (x ||| 1) / 2 = x / 2 := by
    rw [Nat.or_div_two]
    exact Nat.or_zero _
  unfold thisThreadId at halves
  simp only [half] at halves
  exact halves

/-- The row is that of the worker's index, or one that the thread owns. -/
def Holds (hash : Nat → Nat) (s : State) (t r : Nat) : Prop :=
  ∃ w, s.workerCount = some w ∧ (r < w ∧ s.qIndex t = some r ∨
    ∃ i < kExternalReaders, r = w + i ∧ s.externalOwners i = thisThreadId hash t)

structure Inv (hash : Nat → Nat) (s : State) : Prop where
  workers : ∀ t q, s.qIndex t = some q → s.thread q = some t
  rows : ∀ t r, s.reader t = some r → Holds hash s t r
  /-- Who gives its row back has no guard. -/
  releasing : ∀ t i, s.pc t = .release i → s.reader t = none

theorem initial_inv : Inv hash initial where
  workers t q absurd := by cases absurd
  rows t r absurd := by cases absurd
  releasing t i absurd := by cases absurd

theorem Inv.go (inv : Inv hash s) (pc : Pc) (free : ∀ i, pc = .release i → s.reader t = none) :
    Inv hash (s.go t pc) where
  workers := inv.workers
  rows := inv.rows
  releasing u i here := by
    have here : Function.update s.pc t pc u = .release i := here
    rcases eq_or_ne u t with rfl | other
    · rw [Function.update_self] at here
      exact free i here
    · rw [Function.update_of_ne other] at here
      exact inv.releasing u i here

/-- A guard gets a row that its thread holds. -/
theorem Inv.takeRow (inv : Inv hash s) (holds : Holds hash s t r)
    (taken : s.takeRow t r = some s') : Inv hash s' := by
  obtain ⟨-, moved⟩ := Option.ite_none_right_eq_some.mp taken
  cases moved
  refine ⟨inv.workers, fun u r' has => ?_, fun u i here => ?_⟩
  · have has : Function.update s.reader t (some r) u = some r' := has
    rcases eq_or_ne u t with rfl | other
    · rw [Function.update_self] at has
      cases has
      exact holds
    · rw [Function.update_of_ne other] at has
      exact inv.rows u r' has
  · have here : Function.update s.pc t .idle u = .release i := here
    rcases eq_or_ne u t with rfl | other
    · rw [Function.update_self] at here
      cases here
    · rw [Function.update_of_ne other] at here
      exact (Function.update_of_ne other _ _).trans (inv.releasing u i here)

/-- An owner is written whose row nobody else uses. -/
theorem Inv.own (inv : Inv hash s) {owner : Nat}
    (unused : ∀ u r, s.reader u = some r → s.externalOwners i ≠ thisThreadId hash u) :
    Inv hash { s with externalOwners := Function.update s.externalOwners i owner } where
  workers := inv.workers
  rows u r has := by
    obtain ⟨w, built, own | ⟨k, inside, rfl, mine⟩⟩ := inv.rows u r has
    · exact ⟨w, built, .inl own⟩
    · have other : k ≠ i := by
        rintro rfl
        exact unused u _ has mine
      exact ⟨w, built, .inr ⟨k, inside, rfl, (Function.update_of_ne other _ _).trans mine⟩⟩
  releasing := inv.releasing

theorem Inv.advance (inv : Inv hash s) (apart : ∀ t u, hash t / 2 = hash u / 2 → t = u)
    (inside : Inside (s.pc t) (s.qIndex t) s.workerCount)
    (stepped : HazardRows.advance hash s t = some s') : Inv hash s' := by
  unfold HazardRows.advance at stepped
  cases built : s.workerCount with
  | none =>
    rw [built] at stepped
    cases stepped
  | some w =>
    rw [built] at stepped inside
    simp only at stepped
    cases here : s.pc t with
    | idle =>
      rw [here] at stepped
      cases stepped
    | current =>
      rw [here] at stepped inside
      cases index : s.qIndex t with
      | none =>
        rw [index] at stepped
        cases stepped
        exact inv.go _ fun i absurd => by cases absurd
      | some qi =>
        rw [index] at stepped inside
        exact inv.takeRow ⟨w, built, .inl ⟨inside, index⟩⟩ stepped
    | find i =>
      rw [here] at stepped
      simp only at stepped
      split at stepped
      · rename_i row
        split at stepped
        · rename_i mine
          exact inv.takeRow ⟨w, built, .inr ⟨i, row, rfl, mine⟩⟩ stepped
        · cases stepped
          exact inv.go _ fun i absurd => by cases absurd
      · cases stepped
        exact inv.go _ fun i absurd => by cases absurd
    | claim i =>
      rw [here] at stepped
      simp only at stepped
      split at stepped
      · rename_i row
        split at stepped
        · rename_i free
          have unused (u r : Nat) (_ : s.reader u = some r) :
              s.externalOwners i ≠ thisThreadId hash u := by
            rw [free]
            exact thisThreadId_pos.symm
          rw [← built] at stepped
          exact (inv.own unused).takeRow
            ⟨w, built, .inr ⟨i, row, rfl, Function.update_self _ _ _⟩⟩ stepped
        · cases stepped
          exact inv.go _ fun i absurd => by cases absurd
      · cases stepped
    | release i =>
      rw [here] at stepped
      simp only at stepped
      have none := inv.releasing t i here
      split at stepped
      · split at stepped
        · rename_i mine
          cases stepped
          have unused (u r : Nat) (has : s.reader u = some r) :
              s.externalOwners i ≠ thisThreadId hash u := by
            intro same
            obtain rfl := thisThreadId_inj apart (mine.symm.trans same)
            cases none.symm.trans has
          exact (inv.own unused).go _ fun i absurd => by cases absurd
        · cases stepped
          exact inv.go _ fun _ _ => none
      · cases stepped
        exact inv.go _ fun i absurd => by cases absurd

theorem Inv.ensureTable (inv : Inv hash s) : Inv hash s.ensureTable := by
  unfold State.ensureTable
  split
  · rename_i unbuilt
    refine ⟨inv.workers, fun t r has => ?_, inv.releasing⟩
    obtain ⟨w, built, -⟩ := inv.rows t r has
    cases unbuilt.1.symm.trans built
  · exact inv

theorem Inv.start {q : Nat} (inv : Inv hash s) (outside : s.qIndex t = none)
    (free : s.thread q = none) :
    Inv hash { s with
      thread := Function.update s.thread q (some t)
      qIndex := Function.update s.qIndex t (some q) } where
  workers u k index := by
    have index : Function.update s.qIndex t (some q) u = some k := index
    show Function.update s.thread q (some t) k = some u
    rcases eq_or_ne u t with rfl | other
    · rw [Function.update_self] at index
      cases index
      exact Function.update_self _ _ _
    · rw [Function.update_of_ne other] at index
      have before := inv.workers u k index
      have apart : k ≠ q := by
        rintro rfl
        cases free.symm.trans before
      exact (Function.update_of_ne apart _ _).trans before
  rows u r has := by
    obtain ⟨w, built, ⟨inside, index⟩ | own⟩ := inv.rows u r has
    · have other : u ≠ t := by
        rintro rfl
        cases outside.symm.trans index
      exact ⟨w, built, .inl ⟨inside, (Function.update_of_ne other _ _).trans index⟩⟩
    · exact ⟨w, built, .inr own⟩
  releasing := inv.releasing

theorem Inv.stop {q : Nat} (inv : Inv hash s) (index : s.qIndex t = some q)
    (none : s.reader t = none) :
    Inv hash { s with
      thread := Function.update s.thread q Option.none
      qIndex := Function.update s.qIndex t Option.none } where
  workers u k index' := by
    have index' : Function.update s.qIndex t Option.none u = some k := index'
    show Function.update s.thread q Option.none k = some u
    rcases eq_or_ne u t with rfl | other
    · rw [Function.update_self] at index'
      cases index'
    · rw [Function.update_of_ne other] at index'
      have before := inv.workers u k index'
      have apart : k ≠ q := by
        rintro rfl
        cases before.symm.trans (inv.workers t k index)
        exact other rfl
      exact (Function.update_of_ne apart _ _).trans before
  rows u r has := by
    have other : u ≠ t := by
      rintro rfl
      cases none.symm.trans has
    obtain ⟨w, built, ⟨inside, index'⟩ | own⟩ := inv.rows u r has
    · exact ⟨w, built, .inl ⟨inside, (Function.update_of_ne other _ _).trans index'⟩⟩
    · exact ⟨w, built, .inr own⟩
  releasing := inv.releasing

theorem Inv.closeGuard (inv : Inv hash s) :
    Inv hash { s with reader := Function.update s.reader t none } where
  workers := inv.workers
  rows u r has := by
    have has : Function.update s.reader t none u = some r := has
    rcases eq_or_ne u t with rfl | other
    · rw [Function.update_self] at has
      cases has
    · rw [Function.update_of_ne other] at has
      exact inv.rows u r has
  releasing u i here := by
    show Function.update s.reader t none u = none
    rcases eq_or_ne u t with rfl | other
    · exact Function.update_self _ _ _
    · exact (Function.update_of_ne other _ _).trans (inv.releasing u i here)

theorem Inv.step (inv : Inv hash s) (apart : ∀ t u, hash t / 2 = hash u / 2 → t = u)
    (kept : rowsKept s a) (stepped : HazardRows.step hash s a = some s') : Inv hash s' := by
  cases a with
  | setInitialized | setWorkers =>
    cases stepped
    exact ⟨inv.workers, inv.rows, inv.releasing⟩
  | start t q =>
    obtain ⟨⟨-, outside, -, free⟩, moved⟩ := Option.ite_none_right_eq_some.mp stepped
    cases moved
    exact inv.start outside free
  | stop t =>
    simp only [HazardRows.step] at stepped
    cases index : s.qIndex t with
    | none =>
      rw [index] at stepped
      cases stepped
    | some q =>
      rw [index] at stepped
      obtain ⟨-, moved⟩ := Option.ite_none_right_eq_some.mp stepped
      cases moved
      exact inv.stop index kept
  | ensureTable =>
    cases stepped
    exact inv.ensureTable
  | openGuard t =>
    obtain ⟨-, moved⟩ := Option.ite_none_right_eq_some.mp stepped
    split at moved
    · cases moved
      exact inv
    · cases moved
      exact inv.ensureTable.go _ fun i absurd => by cases absurd
  | closeGuard t =>
    obtain ⟨-, moved⟩ := Option.ite_none_right_eq_some.mp stepped
    cases moved
    exact inv.closeGuard
  | releaseCurrentReader t =>
    obtain ⟨-, moved⟩ := Option.ite_none_right_eq_some.mp stepped
    split at moved
    · cases moved
      exact inv
    · cases moved
      exact inv.go _ fun _ _ => kept
  | advance t => exact inv.advance apart kept stepped

theorem Inv.private_rows (inv : Inv hash s) (apart : ∀ t u, hash t / 2 = hash u / 2 → t = u)
    (mine : s.reader t = some r) (yours : s.reader u = some r) : t = u := by
  obtain ⟨w, built, own | own⟩ := inv.rows t r mine
  · obtain ⟨w', built', own' | ⟨i, -, row, -⟩⟩ := inv.rows u r yours
    · have same := (inv.workers t r own.2).symm.trans (inv.workers u r own'.2)
      cases same
      rfl
    · cases built.symm.trans built'
      omega
  · obtain ⟨i, -, row, owner⟩ := own
    obtain ⟨w', built', own' | ⟨k, -, row', owner'⟩⟩ := inv.rows u r yours
    · cases built.symm.trans built'
      omega
    · cases built.symm.trans built'
      have same : i = k := by omega
      subst same
      exact thisThreadId_inj apart (owner.symm.trans owner')

/-- While the workers' indices stay inside the table and nobody with a guard stops being a worker or
gives its row back, guards of two threads use different rows, and every row is in the table. -/
theorem rows_private (hash : Nat → Nat) (apart : ∀ t u, hash t / 2 = hash u / 2 → t = u) (s : State)
    (reach : Reach (HazardRows.step hash) rowsKept initial s) :
    (∀ t u r, s.reader t = some r → s.reader u = some r → t = u) ∧
      ∀ t r, s.reader t = some r → ∃ w, s.workerCount = some w ∧ r < w + kExternalReaders := by
  have inv : Inv hash s :=
    reach.invariant initial_inv fun inv kept stepped => inv.step apart kept stepped
  refine ⟨fun t u r => inv.private_rows apart, fun t r has => ?_⟩
  obtain ⟨w, built, own | ⟨i, inside, row, -⟩⟩ := inv.rows t r has
  · exact ⟨w, built, Nat.lt_add_right _ own.1⟩
  · exact ⟨w, built, by omega⟩

/-- A pool of two workers is followed by one with one; a worker and two other threads have guards. -/
def restartedLabels : List Label :=
  [.setInitialized true, .setWorkers 2, .ensureTable, .start 1 0, .start 2 1, .openGuard 2,
    .advance 2, .closeGuard 2, .stop 1, .stop 2, .setWorkers 1, .start 3 0, .openGuard 3, .advance 3,
    .openGuard 1, .advance 1] ++ List.replicate 66 (.advance 1) ++ [.openGuard 2, .advance 2] ++
  List.replicate 67 (.advance 2)

def restartedAt : State := (run (HazardRows.step (2 * ·)) rowsKept initial restartedLabels).getD initial

theorem restartedAt_private :
    restartedAt.reader 3 = some 0 ∧ restartedAt.reader 1 = some 2 ∧ restartedAt.reader 2 = some 3 ∧
      (∀ t u r, restartedAt.reader t = some r → restartedAt.reader u = some r → t = u) ∧
      ∀ t r, restartedAt.reader t = some r →
        ∃ w, restartedAt.workerCount = some w ∧ r < w + kExternalReaders :=
  ⟨by decide +kernel, by decide +kernel, by decide +kernel,
    rows_private (2 * ·) (fun t u same => by omega) restartedAt
      (Reach.of_isSome restartedLabels (by decide +kernel))⟩

/-- The pool of one worker is followed by one of two. -/
def largerLabels : List Label :=
  [.setInitialized true, .setWorkers 1, .openGuard 1, .advance 1] ++ List.replicate 66 (.advance 1) ++
  [.setWorkers 2, .start 2 0, .start 3 1, .openGuard 3, .advance 3]

def largerAt : State := (run (HazardRows.step (2 * ·)) anyStep initial largerLabels).getD initial

/-- Worker 1 uses the first row behind the one worker that the table was built for, and so does the
first thread that was no worker. -/
theorem larger_overlaps :
    Reach (HazardRows.step (2 * ·)) anyStep initial largerAt ∧
      largerAt.reader 1 = some 1 ∧ largerAt.reader 3 = some 1 :=
  ⟨Reach.of_isSome largerLabels (by decide +kernel), by decide +kernel, by decide +kernel⟩

end JLibSched.HazardRows
