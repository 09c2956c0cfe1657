import JLibSched.Idle.Stack
import JLibSched.Lib.Circular
import JLibSched.ParallelFor.Width

/-!
# Picking a worker for unplaced work

`PickNextWorker` takes a parked worker off the idle stack when nobody hunts, and otherwise looks
around from a counter for a worker that is neither on the idle stack nor away.  Which workers are on
the stack it reads off `idleLinked`, and that flag stays set on a worker that was woken directly.
When every worker looks taken, the counter decides, whoever it falls on
(`picks_away_iff`).
-/

namespace JLibSched.Placement

open Transition Links Idle

/-- `Lane`. -/
inductive Lane where
  | normal
  | lowLatency
deriving DecidableEq, Repr

/-- What the pool is started with. -/
structure Setup where
  workers : Nat
  /-- `Config::hotWorkers`. -/
  hotWorkers : Nat
  /-- `MainMode::InPool`. -/
  mainInPool : Bool

namespace Setup

def getHotWorkers (c : Setup) : Nat := ParallelFor.clampHotWorkersToPool c.workers c.hotWorkers

def reservedBase (c : Setup) : Nat :=
  if c.getHotWorkers ≤ c.workers then c.workers - c.getHotWorkers else 0

def isReservedIndex (c : Setup) (q : Nat) : Bool := decide (q ≥ c.reservedBase)

/-- `computeN`. -/
def computeN (c : Setup) : Nat :=
  if c.getHotWorkers < c.workers then c.workers - c.getHotWorkers else c.workers

end Setup

structure Pool (n : Nat) where
  idle : Idle.State n
  away : Fin n → Bool
  blockDepth : Fin n → Nat
  /-- The worker is in the park path, from its exchange to `WS_PARKED` on. -/
  parking : Fin n → Bool
  /-- `searching_.n`. -/
  searching : Nat
  /-- An `int`. -/
  nextWorker : Int
  nextHotWorker : Nat

def initial (n : Nat) : Pool n where
  idle := Idle.initial n
  away := fun _ => false
  blockDepth := fun _ => 0
  parking := fun _ => false
  searching := 0
  nextWorker := 0
  nextHotWorker := 0

inductive Label (n : Nat) where
  /-- A step in `RegisterIdleWorker`, `UnregisterIdleWorker` or a `PopIdleWorker`. -/
  | idle (a : Idle.Label n)
  /-- The worker's exchange to `WS_PARKED`. -/
  | park (q : Fin n)
  /-- `workerState` leaves `WS_PARKED`: a `NotifyWorker`, or the worker's own recheck. -/
  | notify (q : Fin n)
  /-- The worker leaves the park path. -/
  | awake (q : Fin n)
  | blockBegin (q : Fin n)
  | blockEnd (q : Fin n)
  /-- Hunters come and go. -/
  | hunt (searching : Nat)
  /-- Another `PickNextWorker` draws from a counter. -/
  | draw (lane : Lane)
deriving DecidableEq, Repr

variable {n : Nat}

/-- A worker is in the calls on its own index only while it parks. -/
def Pool.allows (s : Pool n) : Idle.Label n → Bool
  | .register q | .unregister q | .worker q _ => s.parking q
  | .pop _ | .popper _ _ => true
  | .setState _ _ => false

/-- What `fetch_add` leaves of an `int`. -/
def nextInt (k : Int) : Int := (k + 1).bmod (2 ^ 32)

/-- `nextWorker` as a `size_t`. -/
def Pool.start (s : Pool n) : Nat := (s.nextWorker % ParallelFor.SizeBound).toNat

/-- `BlockBegin`. -/
def blockBegin (c : Setup) (s : Pool c.workers) (q : Fin c.workers) : Pool c.workers :=
  { s with
    blockDepth := Function.update s.blockDepth q (s.blockDepth q + 1)
    away := if s.blockDepth q ≠ 0 ∨ c.isReservedIndex q then s.away
      else Function.update s.away q true }

/-- `BlockEnd`, after a `BlockBegin`. -/
def blockEnd (c : Setup) (s : Pool c.workers) (q : Fin c.workers) : Pool c.workers :=
  { s with
    blockDepth := Function.update s.blockDepth q (s.blockDepth q - 1)
    away := if s.blockDepth q - 1 ≠ 0 ∨ c.isReservedIndex q then s.away
      else Function.update s.away q false }

/-- A thread parks between tasks, so in no `BlockBegin`; main and the reserved workers do not
park. -/
def mayPark (c : Setup) (s : Pool c.workers) (q : Fin c.workers) : Bool :=
  !s.parking q && s.blockDepth q == 0 && decide ((q : Nat) < c.computeN) &&
    !(c.mainInPool && decide ((q : Nat) = 0))

def step (c : Setup) (s : Pool c.workers) : Label c.workers → Option (Pool c.workers)
  | .idle a =>
    if s.allows a then (Idle.step s.idle a).map fun idle => { s with idle := idle } else none
  | .park q =>
    if mayPark c s q then
      some { s with
        idle := { s.idle with parked := Function.update s.idle.parked q true }
        parking := Function.update s.parking q true }
    else none
  | .notify q =>
    some { s with idle := { s.idle with parked := Function.update s.idle.parked q false } }
  | .awake q =>
    if s.parking q && !s.idle.parked q && decide (s.idle.worker q = .idle) && !s.idle.armed q then
      some { s with parking := Function.update s.parking q false }
    else none
  | .blockBegin q => if s.parking q then none else some (blockBegin c s q)
  | .blockEnd q =>
    if s.parking q || s.blockDepth q == 0 then none else some (blockEnd c s q)
  | .hunt searching => some { s with searching := searching }
  | .draw .normal =>
    some { s with nextWorker := nextInt s.nextWorker }
  | .draw .lowLatency =>
    some { s with nextHotWorker := (s.nextHotWorker + 1) % ParallelFor.SizeBound }

/-! ## The calls as wholes -/

/-- One worker goes off the stack and loses its marks. -/
def takeTop (s : Idle.State n) (q : Fin n) : Idle.State n :=
  { s.move (s.next q) with
    idleLinked := Function.update s.idleLinked q false
    armed := Function.update s.armed q false
    idleCount := if s.armed q then (s.idleCount + (2 ^ 32 - 1)) % 2 ^ 32 else s.idleCount }

@[simp] theorem takeTop_parked (s : Idle.State n) (q : Fin n) : (takeTop s q).parked = s.parked := rfl

@[simp] theorem takeTop_next (s : Idle.State n) (q : Fin n) : (takeTop s q).next = s.next := rfl

@[simp] theorem takeTop_armed (s : Idle.State n) (q : Fin n) :
    (takeTop s q).armed = Function.update s.armed q false := rfl

@[simp] theorem takeTop_idleLinked (s : Idle.State n) (q : Fin n) :
    (takeTop s q).idleLinked = Function.update s.idleLinked q false := rfl

@[simp] theorem takeTop_popper (s : Idle.State n) (q : Fin n) : (takeTop s q).popper = s.popper := rfl

/-- `PopIdleWorker`, with nobody else at the stack, at most `fuel` times around its loop. -/
def popIdleWorker : Nat → Idle.State n → Option (Option (Fin n) × Idle.State n)
  | 0, _ => none
  | fuel + 1, s =>
    match s.top.index with
    | none => some (none, s)
    | some q =>
      if s.armed q && s.parked q then some (some q, takeTop s q)
      else popIdleWorker fuel (takeTop s q)

/-- A worker that the scan of `PickNextWorker` stops at. -/
def Pool.stops (s : Pool n) (q : Nat) : Bool :=
  if h : q < n then !s.idle.idleLinked ⟨q, h⟩ && !s.away ⟨q, h⟩ else false

/-- The worker that the scan looks at in its round `i`. -/
def scanned (computeN start i : Nat) : Nat := (start + i) % ParallelFor.SizeBound % computeN

/-- The scan of `PickNextWorker`, and what it falls back on. -/
def scan (computeN start : Nat) (s : Pool n) : Nat :=
  match (List.range computeN).find? fun i => s.stops (scanned computeN start i) with
  | some i => scanned computeN start i
  | none => start % computeN

/-- `PickNextWorker`. -/
def pickNextWorker (c : Setup) (fuel : Nat) (s : Pool c.workers) (lane : Lane) :
    Option (Nat × Pool c.workers) :=
  let n := c.workers
  if n = 0 then some (0, s)
  else
    let hotN := c.getHotWorkers
    let laneBase := if hotN < n then n - hotN else 0
    if lane = .lowLatency ∧ hotN ≠ 0 then
      some (laneBase + s.nextHotWorker % hotN,
        { s with nextHotWorker := (s.nextHotWorker + 1) % ParallelFor.SizeBound })
    else if c.computeN = 0 then some (0, s)
    else
      let start := s.start
      let s := { s with nextWorker := nextInt s.nextWorker }
      if s.searching = 0 then
        match popIdleWorker fuel s.idle with
        | none => none
        | some (found, idle) =>
          let s := { s with idle := idle }
          match found with
          | some q =>
            if (q : Nat) < c.computeN then some ((q : Nat), s) else some (scan c.computeN start s, s)
          | none => some (scan c.computeN start s, s)
      else some (scan c.computeN start s, s)

/-! ## The pick on a state -/

/-- A pick returns `q`. -/
def Picks (c : Setup) (s : Pool c.workers) (lane : Lane) (q : Nat) : Prop :=
  ∃ fuel t, pickNextWorker c fuel s lane = some (q, t)

def AwayAt (s : Pool n) (q : Nat) : Prop := ∃ h : q < n, s.away ⟨q, h⟩ = true

/-- The workers that a pick takes off the idle stack without finding one to wake. -/
def Popped (s : Pool n) (l : List (Fin n)) : Prop :=
  if s.searching = 0 then
    Leads s.idle.next s.idle.top.index l none ∧
      ∀ q ∈ l, ¬ (s.idle.armed q = true ∧ s.idle.parked q = true)
  else l = []

/-- Some compute worker is there, but the scan passes it by and the counter falls on one that is
away. -/
structure Overlooks (c : Setup) (s : Pool c.workers) : Prop where
  other : ∃ q : Fin c.workers, (q : Nat) < c.computeN ∧ s.away q = false
  home : AwayAt s (s.start % c.computeN)
  missed : ∃ l, Popped s l ∧ ∀ i < c.computeN, ∀ q : Fin c.workers,
    (q : Nat) = scanned c.computeN s.start i →
      s.away q = true ∨ (s.idle.idleLinked q = true ∧ q ∉ l)

/-! ## Popping -/

section Popping

variable {s t : Idle.State n} {l : List (Fin n)} {found : Option (Fin n)} {q : Fin n} {fuel : Nat}

/-- A call hands out a worker that stands armed and parked. -/
theorem popIdleWorker_some (popped : popIdleWorker fuel s = some (some q, t)) :
    s.armed q = true ∧ s.parked q = true := by
  induction fuel generalizing s with
  | zero => cases popped
  | succ fuel ih =>
    simp only [popIdleWorker] at popped
    split at popped
    · cases popped
    · rename_i r first
      split at popped
      · rename_i ready
        cases popped
        exact Bool.and_eq_true_iff.mp ready
      · obtain ⟨armed, parked⟩ := ih popped
        refine ⟨?_, parked⟩
        rcases eq_or_ne q r with rfl | other
        · simp at armed
        · simpa [other] using armed

/-- A call that hands out nobody has taken everybody off. -/
theorem popIdleWorker_none (popped : popIdleWorker fuel s = some (none, t)) :
    ∃ l, Leads s.next s.top.index l none ∧
      (∀ q ∈ l, ¬ (s.armed q = true ∧ s.parked q = true)) ∧
      ∀ q, t.idleLinked q = (s.idleLinked q && decide (q ∉ l)) := by
  induction fuel generalizing s with
  | zero => cases popped
  | succ fuel ih =>
    simp only [popIdleWorker] at popped
    split at popped
    · rename_i empty
      cases popped
      exact ⟨[], empty, by simp, by simp⟩
    · rename_i r first
      split at popped
      · cases popped
      · rename_i idle
        obtain ⟨l, leads, unready, linked⟩ := ih popped
        refine ⟨r :: l, leads_cons.mpr ⟨first, leads⟩, ?_, ?_⟩
        · intro q mem ready
          rcases eq_or_ne q r with rfl | other
          · exact idle (Bool.and_eq_true_iff.mpr ready)
          · have later := (List.mem_cons.mp mem).resolve_left other
            exact unready q later (by simpa [other] using ready)
        · intro q
          rw [linked q]
          rcases eq_or_ne q r with rfl | other
          · simp
          · simp [other]

/-- On a stack without anybody to wake, a call comes to the end of it. -/
theorem popIdleWorker_ends (leads : Leads s.next s.top.index l none)
    (unready : ∀ q ∈ l, ¬ (s.armed q = true ∧ s.parked q = true)) :
    ∃ t, popIdleWorker (l.length + 1) s = some (none, t) := by
  induction l generalizing s with
  | nil => exact ⟨s, by simp only [popIdleWorker, leads_nil.mp leads]⟩
  | cons q l ih =>
    obtain ⟨first, rest⟩ := leads_cons.mp leads
    have next : ∀ r ∈ l, ¬ ((takeTop s q).armed r = true ∧ (takeTop s q).parked r = true) := by
      intro r mem ready
      rcases eq_or_ne r q with rfl | other
      · simp at ready
      · exact unready r (List.mem_cons_of_mem _ mem) (by simpa [other] using ready)
    obtain ⟨t, popped⟩ := ih (s := takeTop s q) rest next
    refine ⟨t, ?_⟩
    have idle : ¬ (s.armed q && s.parked q) = true := fun ready =>
      unready q List.mem_cons_self (Bool.and_eq_true_iff.mp ready)
    rw [List.length_cons, popIdleWorker, first]
    simp only [if_neg idle]
    exact popped

/-- On a stack that is a list, a call returns. -/
theorem popIdleWorker_returns (leads : Leads s.next s.top.index l none) :
    ∃ r, popIdleWorker (l.length + 1) s = some r := by
  induction l generalizing s with
  | nil => exact ⟨(none, s), by simp only [popIdleWorker, leads_nil.mp leads]⟩
  | cons q l ih =>
    obtain ⟨first, rest⟩ := leads_cons.mp leads
    obtain ⟨r, popped⟩ := ih (s := takeTop s q) rest
    rw [List.length_cons, popIdleWorker, first]
    simp only
    split
    · exact ⟨_, rfl⟩
    · exact ⟨r, popped⟩

end Popping

/-! ## Who is away -/

/-- What the calls on the idle stack do to the marks of the workers. -/
structure Marks (s t : Idle.State n) (a : Idle.Label n) : Prop where
  parked : t.parked = s.parked
  armed : ∀ q, t.armed q = true → s.armed q = true ∨ a = .register q

theorem Marks.same {s t : Idle.State n} {a : Idle.Label n} (parked : t.parked = s.parked)
    (armed : t.armed = s.armed) : Marks s t a :=
  ⟨parked, fun q isArmed => .inl (by rwa [armed] at isArmed)⟩

theorem Marks.disarm {s t : Idle.State n} {a : Idle.Label n} {q : Fin n}
    (parked : t.parked = s.parked) (armed : t.armed = Function.update s.armed q false) :
    Marks s t a := by
  refine ⟨parked, fun r isArmed => .inl ?_⟩
  rw [armed] at isArmed
  rcases eq_or_ne r q with rfl | other
  · rw [Function.update_self] at isArmed
    cases isArmed
  · rwa [Function.update_of_ne other] at isArmed

theorem Marks.countWorker {s : Idle.State n} {a : Idle.Label n} (count : Nat) (q : Fin n)
    (pc : WorkerPc n) : Marks s ({ s with idleCount := count }.setWorker q pc) a :=
  .same rfl rfl

theorem Marks.countPopper {s : Idle.State n} {a : Idle.Label n} (count p : Nat) (pc : PopPc n) :
    Marks s ({ s with idleCount := count }.setPopper p pc) a :=
  .same rfl rfl

theorem workerStep_marks {s t : Idle.State n} {a : Idle.Label n} {q : Fin n} {fails : Bool}
    (stepped : workerStep s q fails = some t) : Marks s t a := by
  simp only [workerStep] at stepped
  split at stepped
  · split at stepped <;> cases stepped <;> exact .same rfl rfl
  · cases stepped
    exact .same rfl rfl
  · cases stepped
    exact .same rfl rfl
  · cases stepped
    exact .same rfl rfl
  · split at stepped <;> cases stepped <;> exact .same rfl rfl
  · cases stepped
    exact .countWorker ..
  · cases stepped
    exact .countWorker ..
  · cases stepped

theorem popStep_marks {s t : Idle.State n} {a : Idle.Label n} {p : Nat} {fails : Bool}
    (stepped : popStep s p fails = some t) : Marks s t a := by
  simp only [popStep] at stepped
  split at stepped
  · split at stepped <;> cases stepped <;> exact .same rfl rfl
  · cases stepped
    exact .same rfl rfl
  · split at stepped <;> cases stepped <;> exact .same rfl rfl
  · cases stepped
    exact .same rfl rfl
  · cases stepped
    exact .disarm rfl rfl
  · cases stepped
    exact .countPopper ..
  · cases stepped
    exact .same rfl rfl
  · cases stepped
  · cases stepped

theorem step_marks {s : Pool n} {t : Idle.State n} {a : Idle.Label n} (allowed : s.allows a = true)
    (stepped : Idle.step s.idle a = some t) : Marks s.idle t a := by
  cases a with
  | setState q parked => cases allowed
  | register q =>
    simp only [Idle.step] at stepped
    split at stepped
    · cases stepped
      refine ⟨rfl, fun r armed => ?_⟩
      rcases eq_or_ne r q with rfl | other
      · exact .inr rfl
      · simp only [State.setWorker, Function.update_of_ne other] at armed
        exact .inl armed
    · cases stepped
  | unregister q =>
    simp only [Idle.step] at stepped
    split at stepped
    · cases stepped
      exact .disarm rfl rfl
    · cases stepped
  | worker q fails => exact workerStep_marks stepped
  | pop p =>
    simp only [Idle.step] at stepped
    split at stepped
    · cases stepped
      exact .same rfl rfl
    · cases stepped
      exact .same rfl rfl
    · cases stepped
  | popper p fails => exact popStep_marks stepped

/-- A worker on its way to sleep is a compute worker and not in a blocking call. -/
structure Inv (c : Setup) (s : Pool c.workers) : Prop where
  back : ∀ q, s.blockDepth q = 0 → s.away q = false
  parked : ∀ q, s.idle.parked q = true → s.parking q = true
  parking : ∀ q, s.parking q = true → s.blockDepth q = 0 ∧ (q : Nat) < c.computeN
  armed : ∀ q, s.idle.armed q = true → (q : Nat) < c.computeN
  reserved : ∀ q : Fin c.workers, c.isReservedIndex q = true → s.away q = false

variable {c : Setup}

theorem initial_inv : Inv c (initial c.workers) where
  back q _ := rfl
  parked q absurd := by cases absurd
  parking q absurd := by cases absurd
  armed q absurd := by cases absurd
  reserved q _ := rfl

section Steps

variable {s t : Pool c.workers} {a : Label c.workers}

theorem Inv.idleStep (inv : Inv c s) {idle : Idle.State c.workers} {a : Idle.Label c.workers}
    (allowed : s.allows a = true) (stepped : Idle.step s.idle a = some idle) :
    Inv c { s with idle := idle } := by
  have marks := step_marks allowed stepped
  refine ⟨inv.back, fun q parked => ?_, inv.parking, fun q armed => ?_, inv.reserved⟩
  · rw [marks.parked] at parked
    exact inv.parked q parked
  · rcases marks.armed q armed with before | rfl
    · exact inv.armed q before
    · exact (inv.parking q allowed).2

theorem Inv.park (inv : Inv c s) {q : Fin c.workers} (may : mayPark c s q = true) :
    Inv c { s with
      idle := { s.idle with parked := Function.update s.idle.parked q true }
      parking := Function.update s.parking q true } := by
  simp only [mayPark, Bool.and_eq_true, beq_iff_eq, decide_eq_true_eq] at may
  obtain ⟨⟨⟨-, depth⟩, compute⟩, -⟩ := may
  refine ⟨inv.back, fun r parked => ?_, fun r parking => ?_, inv.armed, inv.reserved⟩
  · rcases eq_or_ne r q with rfl | other
    · exact Function.update_self ..
    · simp only [Function.update_of_ne other] at parked ⊢
      exact inv.parked r parked
  · rcases eq_or_ne r q with rfl | other
    · exact ⟨depth, compute⟩
    · simp only [Function.update_of_ne other] at parking
      exact inv.parking r parking

theorem Inv.blockBegin (inv : Inv c s) {q : Fin c.workers} (running : s.parking q = false) :
    Inv c (blockBegin c s q) := by
  refine ⟨fun r depth => ?_, inv.parked, fun r parking => ?_, inv.armed, fun r reserved => ?_⟩
  · rcases eq_or_ne r q with rfl | other
    · simp [Placement.blockBegin] at depth
    · simp only [Placement.blockBegin, Function.update_of_ne other] at depth ⊢
      split
      · exact inv.back r depth
      · rw [Function.update_of_ne other]
        exact inv.back r depth
  · have other : r ≠ q := by
      rintro rfl
      rw [Placement.blockBegin, running] at parking
      cases parking
    simp only [Placement.blockBegin, Function.update_of_ne other]
    exact inv.parking r parking
  · simp only [Placement.blockBegin]
    split
    · exact inv.reserved r reserved
    · rename_i own
      have other : r ≠ q := by
        rintro rfl
        exact own (.inr reserved)
      rw [Function.update_of_ne other]
      exact inv.reserved r reserved

theorem Inv.blockEnd (inv : Inv c s) {q : Fin c.workers} (running : s.parking q = false) :
    Inv c (blockEnd c s q) := by
  refine ⟨fun r depth => ?_, inv.parked, fun r parking => ?_, inv.armed, fun r reserved => ?_⟩
  · rcases eq_or_ne r q with rfl | other
    · simp only [Placement.blockEnd, Function.update_self] at depth ⊢
      split
      · rename_i kept
        exact inv.reserved r (kept.resolve_left fun deep => deep depth)
      · exact Function.update_self ..
    · simp only [Placement.blockEnd, Function.update_of_ne other] at depth ⊢
      split
      · exact inv.back r depth
      · rw [Function.update_of_ne other]
        exact inv.back r depth
  · have other : r ≠ q := by
      rintro rfl
      rw [Placement.blockEnd, running] at parking
      cases parking
    simp only [Placement.blockEnd, Function.update_of_ne other]
    exact inv.parking r parking
  · simp only [Placement.blockEnd]
    split
    · exact inv.reserved r reserved
    · rcases eq_or_ne r q with rfl | other
      · exact Function.update_self ..
      · rw [Function.update_of_ne other]
        exact inv.reserved r reserved

theorem Inv.step (inv : Inv c s) (stepped : step c s a = some t) : Inv c t := by
  cases a with
  | idle a =>
    simp only [Placement.step] at stepped
    split at stepped
    · rename_i allowed
      obtain ⟨idle, moved, rfl⟩ := Option.map_eq_some_iff.mp stepped
      exact inv.idleStep allowed moved
    · cases stepped
  | park q =>
    simp only [Placement.step] at stepped
    split at stepped
    · rename_i may
      cases stepped
      exact inv.park may
    · cases stepped
  | notify q =>
    cases stepped
    refine ⟨inv.back, fun r parked => ?_, inv.parking, inv.armed, inv.reserved⟩
    rcases eq_or_ne r q with rfl | other
    · simp at parked
    · simp only [Function.update_of_ne other] at parked
      exact inv.parked r parked
  | awake q =>
    simp only [Placement.step] at stepped
    split at stepped
    · rename_i woken
      cases stepped
      simp only [Bool.and_eq_true, Bool.not_eq_true'] at woken
      refine ⟨inv.back, fun r parked => ?_, fun r parking => ?_, inv.armed, inv.reserved⟩
      · have other : r ≠ q := by
          rintro rfl
          rw [woken.1.1.2] at parked
          cases parked
        simp only [Function.update_of_ne other]
        exact inv.parked r parked
      · rcases eq_or_ne r q with rfl | other
        · simp at parking
        · simp only [Function.update_of_ne other] at parking
          exact inv.parking r parking
    · cases stepped
  | blockBegin q =>
    simp only [Placement.step] at stepped
    split at stepped
    · cases stepped
    · rename_i running
      cases stepped
      exact inv.blockBegin (Bool.not_eq_true _ ▸ running)
  | blockEnd q =>
    simp only [Placement.step] at stepped
    split at stepped
    · cases stepped
    · rename_i running
      cases stepped
      simp only [Bool.or_eq_true, not_or] at running
      exact inv.blockEnd (Bool.not_eq_true _ ▸ running.1)
  | hunt searching =>
    cases stepped
    exact ⟨inv.back, inv.parked, inv.parking, inv.armed, inv.reserved⟩
  | draw lane =>
    cases lane <;> cases stepped <;>
      exact ⟨inv.back, inv.parked, inv.parking, inv.armed, inv.reserved⟩

theorem reach_inv (reach : Reach (Placement.step c) anyStep (initial c.workers) s) : Inv c s :=
  reach.invariant initial_inv fun inv _ stepped => inv.step stepped

/-! ## The pick -/

/-- The scan falls back on the counter when it stops nowhere. -/
theorem scan_away {computeN start : Nat} {s : Pool n} (away : AwayAt s (scan computeN start s)) :
    AwayAt s (start % computeN) ∧ ∀ i < computeN, s.stops (scanned computeN start i) = false := by
  unfold scan at away
  split at away
  · rename_i i found
    have stops := List.find?_some found
    obtain ⟨inside, blocked⟩ := away
    simp [Pool.stops, inside, blocked] at stops
  · rename_i nowhere
    refine ⟨away, fun i below => ?_⟩
    simpa using List.find?_eq_none.mp nowhere i (List.mem_range.mpr below)

theorem scan_home {computeN start : Nat} {s : Pool n}
    (nowhere : ∀ i < computeN, s.stops (scanned computeN start i) = false) :
    scan computeN start s = start % computeN := by
  have absent : (List.range computeN).find? (fun i => s.stops (scanned computeN start i)) = none :=
    List.find?_eq_none.mpr fun i mem => by simp [nowhere i (List.mem_range.mp mem)]
  unfold scan
  rw [absent]

/-- The marks that a pick goes by once it has popped. -/
theorem stops_false {s t : Pool n} {l : List (Fin n)} (away : t.away = s.away)
    (linked : ∀ q, t.idle.idleLinked q = (s.idle.idleLinked q && decide (q ∉ l))) (k : Nat) :
    t.stops k = false ↔ ∀ q : Fin n, (q : Nat) = k →
      s.away q = true ∨ (s.idle.idleLinked q = true ∧ q ∉ l) := by
  unfold Pool.stops
  split
  · rename_i inside
    rw [away, linked]
    constructor
    · rintro passed q rfl
      cases blocked : s.away q with
      | true => exact .inl rfl
      | false =>
        right
        simpa [blocked] using passed
    · intro passed
      rcases passed ⟨k, inside⟩ rfl with blocked | ⟨marked, out⟩
      · simp [blocked]
      · simp [marked, out]
  · rename_i outside
    refine ⟨?_, fun _ => rfl⟩
    rintro - q rfl
    exact absurd q.isLt outside

/-- What a pick for normal work comes to. -/
inductive Outcome (c : Setup) (s : Pool c.workers) : Nat → Prop where
  | nobody (none : c.computeN = 0) : Outcome c s 0
  | woken (q : Fin c.workers) (parked : s.idle.parked q = true) : Outcome c s q
  | scanned (t : Pool c.workers) (l : List (Fin c.workers)) (popped : Popped s l)
      (away : t.away = s.away)
      (linked : ∀ q, t.idle.idleLinked q = (s.idle.idleLinked q && decide (q ∉ l))) :
      Outcome c s (scan c.computeN s.start t)

theorem Inv.outcome (inv : Inv c s) {q : Nat} (picks : Picks c s .normal q) : Outcome c s q := by
  obtain ⟨fuel, t, picked⟩ := picks
  unfold pickNextWorker at picked
  simp only at picked
  split at picked
  · rename_i none
    cases picked
    refine .nobody ?_
    unfold Setup.computeN
    split <;> omega
  · rw [if_neg (fun absurd => by cases absurd.1)] at picked
    split at picked
    · rename_i none
      cases picked
      exact .nobody none
    · split at picked
      · rename_i quiet
        split at picked
        · cases picked
        · rename_i found idle popped
          split at picked
          · have ready := popIdleWorker_some popped
            rw [if_pos (inv.armed _ ready.1)] at picked
            cases picked
            exact .woken _ ready.2
          · cases picked
            obtain ⟨l, leads, unready, linked⟩ := popIdleWorker_none popped
            exact .scanned _ l (by rw [Popped, if_pos quiet]; exact ⟨leads, unready⟩) rfl linked
      · rename_i hunted
        cases picked
        exact .scanned _ [] (by rw [Popped, if_neg hunted]) rfl (by simp)

/-- A pick that finds nobody to wake goes by the marks. -/
theorem Popped.picks {l : List (Fin c.workers)} (popped : Popped s l) (positive : 0 < c.computeN) :
    ∃ t : Pool c.workers, Picks c s .normal (scan c.computeN s.start t) ∧ t.away = s.away ∧
      ∀ q, t.idle.idleLinked q = (s.idle.idleLinked q && decide (q ∉ l)) := by
  have workers : c.workers ≠ 0 := by
    intro none
    unfold Setup.computeN at positive
    split at positive <;> omega
  have unhurried : ¬ (Lane.normal = .lowLatency ∧ c.getHotWorkers ≠ 0) := fun absurd => by
    cases absurd.1
  have compute : c.computeN ≠ 0 := Nat.ne_of_gt positive
  unfold Popped at popped
  split at popped
  · rename_i quiet
    obtain ⟨leads, unready⟩ := popped
    obtain ⟨idle, ended⟩ := popIdleWorker_ends leads unready
    obtain ⟨l', leads', -, linked⟩ := popIdleWorker_none ended
    cases leads.unique leads'
    have picked : pickNextWorker c (l.length + 1) s .normal = some
        (scan c.computeN s.start
          { s with nextWorker := nextInt s.nextWorker, idle := idle },
          { s with nextWorker := nextInt s.nextWorker, idle := idle }) := by
      unfold pickNextWorker
      simp only [if_neg workers, if_neg unhurried, if_neg compute, if_pos quiet, ended]
    exact ⟨_, ⟨_, _, picked⟩, rfl, linked⟩
  · rename_i hunted
    subst popped
    have picked : pickNextWorker c 0 s .normal = some
        (scan c.computeN s.start
          { s with nextWorker := nextInt s.nextWorker },
          { s with nextWorker := nextInt s.nextWorker }) := by
      unfold pickNextWorker
      simp only [if_neg workers, if_neg unhurried, if_neg compute, if_neg hunted]
    exact ⟨_, ⟨_, _, picked⟩, rfl, by simp⟩

end Steps

/-- A pick lands on a worker that is away, with others there, exactly when the scan passes all of
them by and the counter falls on it. -/
theorem picks_away_iff (c : Setup) (s : Pool c.workers)
    (reach : Reach (step c) anyStep (initial c.workers) s) :
    (∀ q, Picks c s .normal q → AwayAt s q →
      ∀ w : Fin c.workers, (w : Nat) < c.computeN → s.away w = true) ↔ ¬ Overlooks c s := by
  have inv := reach_inv reach
  constructor
  · rintro placed ⟨⟨w, compute, there⟩, home, l, popped, missed⟩
    obtain ⟨t, picks, away, linked⟩ := popped.picks (Nat.zero_lt_of_lt compute)
    have nowhere : ∀ i < c.computeN, t.stops (scanned c.computeN s.start i) = false :=
      fun i below => (stops_false away linked _).mpr (missed i below)
    rw [scan_home nowhere] at picks
    have all := placed _ picks home w compute
    rw [there] at all
    cases all
  · intro seen q picks away w compute
    by_contra there
    have other : ∃ q : Fin c.workers, (q : Nat) < c.computeN ∧ s.away q = false :=
      ⟨w, compute, Bool.not_eq_true _ ▸ there⟩
    cases inv.outcome picks with
    | nobody none => exact absurd compute (by omega)
    | woken r parked =>
      obtain ⟨inside, blocked⟩ := away
      have free := inv.back r (inv.parking r (inv.parked r parked)).1
      rw [free] at blocked
      cases blocked
    | scanned t l popped same linked =>
      have blocked : AwayAt t (scan c.computeN s.start t) := by
        unfold AwayAt
        rwa [same]
      obtain ⟨home, nowhere⟩ := scan_away blocked
      refine seen ⟨other, ?_, l, popped, fun i below => ?_⟩
      · unfold AwayAt at home
        rwa [same] at home
      · exact (stops_false same linked _).mp (nowhere i below)


/-- Two compute workers. -/
abbrev pair : Setup := ⟨2, 0, false⟩

/-- Worker 0 parks, is woken directly and hunts, and worker 1 blocks. -/
def staleLabels : List (Label pair.workers) :=
  List.flatten [[.park 0, .idle (.register 0)], List.replicate 6 (.idle (.worker 0 false)),
    [.notify 0, .idle (.unregister 0), .idle (.worker 0 false), .awake 0, .hunt 1, .blockBegin 1,
      .draw .normal]]

def stale : Pool pair.workers :=
  (run (step pair) anyStep (initial pair.workers) staleLabels).getD (initial pair.workers)

theorem stale_reach : Reach (step pair) anyStep (initial pair.workers) stale :=
  Reach.of_isSome staleLabels (by decide +kernel)

/-- The same with the counter one further, so that it falls on worker 0. -/
def passedLabels : List (Label pair.workers) := staleLabels ++ [.draw .normal]

def passed : Pool pair.workers :=
  (run (step pair) anyStep (initial pair.workers) passedLabels).getD (initial pair.workers)

theorem passed_reach : Reach (step pair) anyStep (initial pair.workers) passed :=
  Reach.of_isSome passedLabels (by decide +kernel)

/-- On the one state both sides fail, on the other they hold. -/
theorem stale_picks_away_iff :
    ((∀ q, Picks pair stale .normal q → AwayAt stale q →
      ∀ w : Fin pair.workers, (w : Nat) < pair.computeN → stale.away w = true) ↔
      ¬ Overlooks pair stale) ∧
    ¬ Overlooks pair passed ∧ ∀ q, Picks pair passed .normal q → AwayAt passed q →
      ∀ w : Fin pair.workers, (w : Nat) < pair.computeN → passed.away w = true := by
  have there : passed.away 0 = false := by decide +kernel
  have falls : passed.start % pair.computeN = 0 := by decide +kernel
  have seen : ¬ Overlooks pair passed := by
    intro overlooks
    obtain ⟨inside, away⟩ := overlooks.home
    have same : (⟨passed.start % pair.computeN, inside⟩ : Fin pair.workers) = 0 := Fin.ext falls
    rw [same, there] at away
    cases away
  exact ⟨picks_away_iff pair stale stale_reach, seen,
    (picks_away_iff pair passed passed_reach).mpr seen⟩

/-- The mark that worker 0 was left with hides it, and the counter falls on worker 1. -/
theorem pick_lands_away : ¬ ∀ (c : Setup) (s : Pool c.workers),
    Reach (step c) anyStep (initial c.workers) s → ∀ q, Picks c s .normal q → AwayAt s q →
      ∀ w : Fin c.workers, (w : Nat) < c.computeN → s.away w = true := by
  intro placed
  have picked : (pickNextWorker pair 0 stale .normal).map Prod.fst = some 1 := by decide +kernel
  obtain ⟨⟨q, t⟩, picks, rfl⟩ := Option.map_eq_some_iff.mp picked
  have all := placed pair stale stale_reach 1 ⟨0, t, picks⟩ ⟨by decide, by decide +kernel⟩ 0
    (by decide)
  have there : stale.away 0 = false := by decide +kernel
  rw [there] at all
  cases all

/-! ## The calls step by step -/

/-- One round of the loop takes the first worker off. -/
theorem takeTop_steps {s : Idle.State n} {p : Nat} {q : Fin n} (begun : s.popper p = .loadHead)
    (first : s.top.index = some q) : Reach Idle.step anyStep s
      ((takeTop s q).setPopper p
        (if s.armed q && s.parked q then .returned (some q) else .loadHead)) := by
  have swapped : Reach Idle.step anyStep s
      ((s.move (s.next q)).setPopper p (.clearLinked q)) := by
    refine ((Reach.start.next (t := s.setPopper p (.loadNext s.top q s.changes))
      (a := .popper p false) trivial ?_).next
      (t := s.setPopper p (.swap s.top q (s.next q) s.changes)) (a := .popper p false) trivial
      ?_).next (a := .popper p false) trivial ?_
    · simp only [Idle.step, popStep, begun, first]
    · simp only [Idle.step, popStep, State.setPopper, Function.update_self, Function.update_idem]
    · simp [Idle.step, popStep, State.setPopper, State.move]
  have cleared := swapped.next (a := .popper p false) (t := ({ s.move (s.next q) with
    idleLinked := Function.update s.idleLinked q false }).setPopper p (.takeArmed q)) trivial
    (by simp [Idle.step, popStep, State.setPopper, State.move])
  cases armed : s.armed q with
  | false =>
    refine cleared.next (a := .popper p false) trivial ?_
    simp [Idle.step, popStep, State.setPopper, State.move, takeTop, armed]
  | true =>
    have disarmed := cleared.next (a := .popper p false) (t := ({ s.move (s.next q) with
      idleLinked := Function.update s.idleLinked q false
      armed := Function.update s.armed q false }).setPopper p (.subCount q)) trivial
      (by simp [Idle.step, popStep, State.setPopper, State.move, armed])
    refine (disarmed.next (a := .popper p false) (t := (takeTop s q).setPopper p
      (.checkState q)) trivial ?_).next (a := .popper p false) trivial ?_
    · simp [Idle.step, popStep, State.setPopper, State.move, takeTop, armed]
    · simp [Idle.step, popStep, State.setPopper, State.move, takeTop]

/-- A `PopIdleWorker` that nobody interferes with takes the steps of the model of the stack. -/
theorem popIdleWorker_steps {s t : Idle.State n} {p fuel : Nat} {found : Option (Fin n)}
    (begun : s.popper p = .loadHead) (popped : popIdleWorker fuel s = some (found, t)) :
    Reach Idle.step anyStep s (t.setPopper p (.returned found)) := by
  induction fuel generalizing s with
  | zero => cases popped
  | succ fuel ih =>
    simp only [popIdleWorker] at popped
    split at popped
    · rename_i empty
      cases popped
      refine Reach.start.next (a := .popper p false) trivial ?_
      simp only [Idle.step, popStep, begun, empty]
    · rename_i q first
      have round := takeTop_steps begun first
      split at popped
      · rename_i ready
        cases popped
        rwa [if_pos ready] at round
      · rename_i idle
        have again : (takeTop s q).popper p = .loadHead := by
          rw [takeTop_popper, begun]
        have same : (takeTop s q).setPopper p .loadHead = takeTop s q := by
          rw [State.setPopper, ← again, Function.update_eq_self]
        rw [if_neg idle, same] at round
        exact round.trans (ih again popped)

/-- Every `PopIdleWorker` makes its exchange in time. -/
def fewChanges {c : Setup} (s : Pool c.workers) : Label c.workers → Prop
  | .idle a => Idle.fewChanges s.idle a
  | _ => True

instance {c : Setup} (s : Pool c.workers) (a : Label c.workers) : Decidable (fewChanges s a) :=
  match a with
  | .idle a => inferInstanceAs (Decidable (Idle.fewChanges s.idle a))
  | .park _ | .notify _ | .awake _ | .blockBegin _ | .blockEnd _ | .hunt _ | .draw _ => isTrue trivial

/-- What a pool does to its idle stack is a run of the model of the stack. -/
theorem idle_reach {c : Setup} {s : Pool c.workers}
    (reach : Reach (step c) fewChanges (initial c.workers) s) :
    Reach Idle.step Idle.fewChanges (Idle.initial c.workers) s.idle := by
  induction reach with
  | start => exact .start
  | next before soon stepped ih =>
    rename_i s t a
    cases a with
    | idle a =>
      simp only [step] at stepped
      split at stepped
      · obtain ⟨idle, moved, rfl⟩ := Option.map_eq_some_iff.mp stepped
        exact ih.next soon moved
      · cases stepped
    | park q =>
      simp only [step] at stepped
      split at stepped
      · cases stepped
        exact ih.next (a := .setState q true) trivial rfl
      · cases stepped
    | notify q =>
      cases stepped
      exact ih.next (a := .setState q false) trivial rfl
    | awake q =>
      simp only [step] at stepped
      split at stepped
      · cases stepped
        exact ih
      · cases stepped
    | blockBegin q | blockEnd q =>
      simp only [step] at stepped
      split at stepped
      · cases stepped
      · cases stepped
        exact ih
    | hunt searching =>
      cases stepped
      exact ih
    | draw lane =>
      cases lane <;> cases stepped <;> exact ih

/-! ## A pick returns -/

theorem scan_lt {computeN start : Nat} {s : Pool n} (positive : 0 < computeN) :
    scan computeN start s < computeN := by
  unfold scan
  split <;> exact Nat.mod_lt _ positive

theorem computeN_pos {c : Setup} (positive : 0 < c.workers) : 0 < c.computeN := by
  unfold Setup.computeN Setup.getHotWorkers ParallelFor.clampHotWorkersToPool
  rw [if_neg (Nat.ne_of_gt positive)]
  split <;> split <;> omega

theorem computeN_le {c : Setup} : c.computeN ≤ c.workers := by
  unfold Setup.computeN
  split <;> omega

theorem getHotWorkers_lt {c : Setup} (positive : 0 < c.workers) : c.getHotWorkers < c.workers := by
  unfold Setup.getHotWorkers ParallelFor.clampHotWorkersToPool
  rw [if_neg (Nat.ne_of_gt positive)]
  split <;> omega

/-- A pick for normal work is a compute worker, and one for the latency lane a reserved one if there
are any. -/
theorem pick_lt {c : Setup} {s t : Pool c.workers} {lane : Lane} {fuel q : Nat}
    (positive : 0 < c.workers) (picked : pickNextWorker c fuel s lane = some (q, t)) :
    if lane = .lowLatency ∧ c.getHotWorkers ≠ 0 then c.reservedBase ≤ q ∧ q < c.workers
    else q < c.computeN := by
  have hot := getHotWorkers_lt positive
  have compute := computeN_pos positive
  unfold pickNextWorker at picked
  simp only [if_neg (Nat.ne_of_gt positive), if_neg (Nat.ne_of_gt compute)] at picked
  by_cases reserved : lane = .lowLatency ∧ c.getHotWorkers ≠ 0
  · rw [if_pos reserved, if_pos hot] at picked
    rw [if_pos reserved]
    have below := Nat.mod_lt s.nextHotWorker (Nat.pos_of_ne_zero reserved.2)
    cases picked
    unfold Setup.reservedBase
    rw [if_pos hot.le]
    omega
  · rw [if_neg reserved] at picked ⊢
    split at picked
    · split at picked
      · cases picked
      · split at picked
        · split at picked
          · rename_i inside
            cases picked
            exact inside
          · cases picked
            exact scan_lt compute
        · cases picked
          exact scan_lt compute
    · cases picked
      exact scan_lt compute

theorem pick_lt_workers {c : Setup} {s t : Pool c.workers} {lane : Lane} {fuel q : Nat}
    (positive : 0 < c.workers) (picked : pickNextWorker c fuel s lane = some (q, t)) :
    q < c.workers := by
  have bound := pick_lt positive picked
  have compute := computeN_le (c := c)
  split at bound
  · exact bound.2
  · omega

/-- A pick returns a worker, with at most one round for each that stands on the idle stack. -/
theorem pick_returns {c : Setup} {s : Pool c.workers} (positive : 0 < c.workers)
    (reach : Reach (step c) fewChanges (initial c.workers) s) (lane : Lane) :
    ∃ l : List (Fin c.workers), l.Nodup ∧ Leads s.idle.next s.idle.top.index l none ∧
      ∃ q t, pickNextWorker c (l.length + 1) s lane = some (q, t) ∧ q < c.workers := by
  obtain ⟨_, inv⟩ := Idle.inv_of_reach (idle_reach reach)
  obtain ⟨l, leads, nodup, -⟩ := inv.intact
  obtain ⟨⟨found, idle⟩, popped⟩ := popIdleWorker_returns leads
  have returned : ∃ r, pickNextWorker c (l.length + 1) s lane = some r := by
    unfold pickNextWorker
    simp only [popped]
    split
    · exact ⟨_, rfl⟩
    · split
      · exact ⟨_, rfl⟩
      · split
        · exact ⟨_, rfl⟩
        · split
          · split
            · split
              · exact ⟨_, rfl⟩
              · exact ⟨_, rfl⟩
            · exact ⟨_, rfl⟩
          · exact ⟨_, rfl⟩
  obtain ⟨⟨q, t⟩, picked⟩ := returned
  exact ⟨l, nodup, leads, q, t, picked, pick_lt_workers positive picked⟩

/-- Worker 0 has parked and stands on the stack. -/
def restingLabels : List (Label pair.workers) :=
  .park 0 :: .idle (.register 0) :: List.replicate 6 (.idle (.worker 0 false))

def resting : Pool pair.workers :=
  (run (step pair) fewChanges (initial pair.workers) restingLabels).getD (initial pair.workers)

theorem resting_returns : resting.idle.top.index = some 0 ∧ resting.searching = 0 ∧
    ∃ l : List (Fin pair.workers), l.Nodup ∧
      Leads resting.idle.next resting.idle.top.index l none ∧
      ∃ q t, pickNextWorker pair (l.length + 1) resting .normal = some (q, t) ∧ q < pair.workers :=
  ⟨by decide +kernel, by decide +kernel,
    pick_returns (by decide) (Reach.of_isSome restingLabels (by decide +kernel)) .normal⟩

end JLibSched.Placement
