import JLibSched.Lib.Links
import JLibSched.Lib.Transition
import Mathlib.Tactic

/-!
# The stack of idle workers

Parked workers stand on a Treiber stack of worker indices, from which `PopIdleWorker` takes one to
wake.  A worker that wakes by another route stays linked, so `RegisterIdleWorker` reuses a link
that is still there.  `idleLinked` says whether there is one; it is set before the push and cleared
after the pop, some steps later.

The top carries a version in its high 32 bits, which every change of it counts up.
-/

namespace JLibSched.Idle

open Transition Links

/-- `idleTop_`: a version, and the first worker on the stack. -/
structure Top (n : Nat) where
  version : Nat
  index : Option (Fin n)
deriving DecidableEq, Repr

/-- A pool has fewer than `2 ^ 32` workers (`num_workers` is an `unsigned int`), so an index and
the version share one word. -/
def Top.move {n : Nat} (head : Top n) (index : Option (Fin n)) : Top n :=
  ⟨(head.version + 1) % 2 ^ 32, index⟩

/-- Where a worker is in `RegisterIdleWorker` or `UnregisterIdleWorker` on its own index. -/
inductive WorkerPc (n : Nat) where
  | idle
  | checkLinked
  | mark
  | loadHead
  | setNext (head : Top n)
  | swap (head : Top n)
  | addCount
  | subCount
deriving DecidableEq, Repr

/-- Where a thread is in `PopIdleWorker`.  `since` counts the changes of the top before its head
was loaded. -/
inductive PopPc (n : Nat) where
  | idle
  | loadHead
  | loadNext (head : Top n) (q : Fin n) (since : Nat)
  | swap (head : Top n) (q : Fin n) (next : Option (Fin n)) (since : Nat)
  | clearLinked (q : Fin n)
  | takeArmed (q : Fin n)
  | subCount (q : Fin n)
  | checkState (q : Fin n)
  | returned (q : Option (Fin n))
deriving DecidableEq, Repr

structure State (n : Nat) where
  /-- `idleTop_`. -/
  top : Top n
  /-- `idleNodes_[q].next`. -/
  next : Fin n → Option (Fin n)
  /-- `idleNodes_[q].armed`. -/
  armed : Fin n → Bool
  idleLinked : Fin n → Bool
  idleCount : Nat
  /-- `workerState` is `WS_PARKED`. -/
  parked : Fin n → Bool
  worker : Fin n → WorkerPc n
  popper : Nat → PopPc n
  /-- How often the top was changed. -/
  changes : Nat

def initial (n : Nat) : State n where
  top := ⟨0, none⟩
  next := fun _ => none
  armed := fun _ => false
  idleLinked := fun _ => false
  idleCount := 0
  parked := fun _ => false
  worker := fun _ => .idle
  popper := fun _ => .idle
  changes := 0

inductive Label (n : Nat) where
  /-- `workerState` of a worker is changed, by anybody. -/
  | setState (q : Fin n) (parked : Bool)
  | register (q : Fin n)
  | unregister (q : Fin n)
  /-- The worker's call takes its next step; a weak compare-exchange may fail. -/
  | worker (q : Fin n) (fails : Bool)
  | pop (p : Nat)
  | popper (p : Nat) (fails : Bool)
deriving DecidableEq, Repr

variable {n : Nat}

/-! ## Steps -/

def State.setWorker (s : State n) (q : Fin n) (pc : WorkerPc n) : State n :=
  { s with worker := Function.update s.worker q pc }

def State.setPopper (s : State n) (p : Nat) (pc : PopPc n) : State n :=
  { s with popper := Function.update s.popper p pc }

/-- The top changes. -/
def State.move (s : State n) (index : Option (Fin n)) : State n :=
  { s with top := s.top.move index, changes := s.changes + 1 }

/-- The steps of `RegisterIdleWorker` after its store to `armed`, and the last one of
`UnregisterIdleWorker`. -/
def workerStep (s : State n) (q : Fin n) (fails : Bool) : Option (State n) :=
  match s.worker q with
  | .checkLinked =>
    if s.idleLinked q then some (s.setWorker q .idle) else some (s.setWorker q .mark)
  | .mark =>
    some ({ s with idleLinked := Function.update s.idleLinked q true }.setWorker q .loadHead)
  | .loadHead => some (s.setWorker q (.setNext s.top))
  | .setNext head =>
    some ({ s with next := Function.update s.next q head.index }.setWorker q (.swap head))
  | .swap head =>
    if s.top = head ∧ fails = false then some ((s.move (some q)).setWorker q .addCount)
    -- the failed exchange has loaded the top
    else some (s.setWorker q (.setNext s.top))
  | .addCount =>
    some ({ s with idleCount := (s.idleCount + 1) % 2 ^ 32 }.setWorker q .idle)
  | .subCount =>
    some ({ s with idleCount := (s.idleCount + (2 ^ 32 - 1)) % 2 ^ 32 }.setWorker q .idle)
  | .idle => none

/-- `PopIdleWorker`. -/
def popStep (s : State n) (p : Nat) (fails : Bool) : Option (State n) :=
  match s.popper p with
  | .loadHead =>
    match s.top.index with
    | none => some (s.setPopper p (.returned none))
    | some q => some (s.setPopper p (.loadNext s.top q s.changes))
  | .loadNext head q since => some (s.setPopper p (.swap head q (s.next q) since))
  | .swap head q next _ =>
    if s.top = head ∧ fails = false then some ((s.move next).setPopper p (.clearLinked q))
    else some (s.setPopper p .loadHead)
  | .clearLinked q =>
    some ({ s with idleLinked := Function.update s.idleLinked q false }.setPopper p (.takeArmed q))
  | .takeArmed q =>
    some ({ s with armed := Function.update s.armed q false }.setPopper p
      (if s.armed q then .subCount q else .loadHead))
  | .subCount q =>
    some ({ s with idleCount := (s.idleCount + (2 ^ 32 - 1)) % 2 ^ 32 }.setPopper p
      (.checkState q))
  | .checkState q => some (s.setPopper p (if s.parked q then .returned (some q) else .loadHead))
  | .idle | .returned _ => none

def step (s : State n) : Label n → Option (State n)
  | .setState q parked => some { s with parked := Function.update s.parked q parked }
  | .register q =>
    if s.worker q = .idle then
      some ({ s with armed := Function.update s.armed q true }.setWorker q .checkLinked)
    else none
  | .unregister q =>
    if s.worker q = .idle then
      some ({ s with armed := Function.update s.armed q false }.setWorker q
        (if s.armed q then .subCount else .idle))
    else none
  | .worker q fails => workerStep s q fails
  | .pop p =>
    match s.popper p with
    | .idle | .returned _ => some (s.setPopper p .loadHead)
    | _ => none
  | .popper p fails => popStep s p fails

/-- The exchange of a `PopIdleWorker` comes before `2 ^ 32` changes of the top since it loaded its
head. -/
def PopPc.InTime (changes : Nat) : PopPc n → Prop
  | .swap _ _ _ since => changes < since + 2 ^ 32
  | _ => True

instance (changes : Nat) (pc : PopPc n) : Decidable (pc.InTime changes) :=
  match pc with
  | .swap _ _ _ since => inferInstanceAs (Decidable (changes < since + 2 ^ 32))
  | .idle | .loadHead | .loadNext _ _ _ | .clearLinked _ | .takeArmed _ | .subCount _
  | .checkState _ | .returned _ => isTrue trivial

def fewChanges (s : State n) : Label n → Prop
  | .popper p _ => (s.popper p).InTime s.changes
  | _ => True

instance (s : State n) (a : Label n) : Decidable (fewChanges s a) :=
  match a with
  | .popper p _ => inferInstanceAs (Decidable ((s.popper p).InTime s.changes))
  | .setState _ _ | .register _ | .unregister _ | .worker _ _ | .pop _ => isTrue trivial

/-! ## What an intact stack is -/

/-- A `PopIdleWorker` has taken the worker off and has yet to take its `armed`. -/
def Removing (s : State n) (q : Fin n) : Prop :=
  ∃ p, s.popper p = .clearLinked q ∨ s.popper p = .takeArmed q

/-- The stack is a list without repetitions, and it holds every worker that stands parked and
armed after its `RegisterIdleWorker`, but those that are being taken. -/
def Intact (s : State n) : Prop :=
  ∃ l : List (Fin n), Leads s.next s.top.index l none ∧ l.Nodup ∧
    ∀ q, s.worker q = .idle → s.armed q = true → s.parked q = true → q ∈ l ∨ Removing s q

/-! ## Invariant -/

/-- The worker has set its flag and not made its push yet. -/
def WorkerPc.Pushing : WorkerPc n → Prop
  | .loadHead | .setNext _ | .swap _ => True
  | _ => False

/-- The worker is in no call that may still push. -/
def WorkerPc.Rests : WorkerPc n → Prop
  | .idle | .addCount | .subCount => True
  | _ => False

/-- A `PopIdleWorker` has taken the worker off and not cleared its flag yet. -/
def Clearing (s : State n) (q : Fin n) : Prop := ∃ p, s.popper p = .clearLinked q

/-- What a `PopIdleWorker` has read is still so, unless the top has changed. -/
def PopPc.Current (s : State n) : PopPc n → Prop
  | .loadNext head q since =>
    head.version = since % 2 ^ 32 ∧ since ≤ s.changes ∧
      (since = s.changes → s.top.index = some q)
  | .swap head q next since =>
    head.version = since % 2 ^ 32 ∧ since ≤ s.changes ∧
      (since = s.changes → s.top.index = some q ∧ s.next q = next)
  | _ => True

structure Inv (s : State n) (l : List (Fin n)) : Prop where
  leads : Leads s.next s.top.index l none
  nodup : l.Nodup
  version : s.top.version = s.changes % 2 ^ 32
  listed : ∀ q ∈ l, s.idleLinked q = true ∧ ¬ (s.worker q).Pushing ∧ ¬ Clearing s q
  pushing : ∀ q, (s.worker q).Pushing → s.idleLinked q = true ∧ ¬ Clearing s q
  clearing : ∀ q, Clearing s q → s.idleLinked q = true
  single : ∀ p p' q, s.popper p = .clearLinked q → s.popper p' = .clearLinked q → p = p'
  linked : ∀ q, s.idleLinked q = true → q ∈ l ∨ (s.worker q).Pushing ∨ Clearing s q
  marking : ∀ q, s.worker q = .mark → s.idleLinked q = false
  wrote : ∀ q head, s.worker q = .swap head → s.next q = head.index
  current : ∀ p, (s.popper p).Current s
  armed : ∀ q, (s.worker q).Rests → s.armed q = true → q ∈ l ∨ Removing s q

theorem initial_inv : Inv (initial n) [] where
  leads := rfl
  nodup := List.nodup_nil
  version := rfl
  listed q absurd := by cases absurd
  pushing q absurd := absurd.elim
  clearing q clearing := by
    obtain ⟨p, absurd⟩ := clearing
    cases absurd
  single p p' q absurd := by cases absurd
  linked q absurd := by cases absurd
  marking q absurd := by cases absurd
  wrote q head absurd := by cases absurd
  current p := trivial
  armed q _ absurd := by cases absurd

variable {s t : State n} {l : List (Fin n)} {a : Label n}

theorem Inv.intact (inv : Inv s l) : Intact s :=
  ⟨l, inv.leads, inv.nodup, fun q here armed _ => inv.armed q (here ▸ trivial) armed⟩

/-- The first worker on the stack stands on it. -/
theorem Inv.top_mem (inv : Inv s l) {q : Fin n} (first : s.top.index = some q) : q ∈ l := by
  have head := inv.leads.head
  rw [first] at head
  exact List.mem_of_mem_head? head

/-! ## Steps that leave the stack alone -/

/-- The part of the state that the stack is made of. -/
structure SameStack (s t : State n) : Prop where
  top : t.top = s.top
  next : t.next = s.next
  idleLinked : t.idleLinked = s.idleLinked
  changes : t.changes = s.changes

theorem PopPc.Current.congr {pc : PopPc n} (current : pc.Current s) (top : t.top = s.top)
    (next : t.next = s.next) (changes : t.changes = s.changes) : pc.Current t := by
  cases pc with
  | loadNext head q since =>
    obtain ⟨version, before, kept⟩ := current
    exact ⟨version, changes ▸ before, fun now => top ▸ kept (changes ▸ now)⟩
  | swap head q next' since =>
    obtain ⟨version, before, kept⟩ := current
    exact ⟨version, changes ▸ before, fun now => top ▸ next ▸ kept (changes ▸ now)⟩
  | _ => exact trivial

/-- Once the top has changed, nothing depends on what was read. -/
theorem PopPc.Current.moved {pc : PopPc n} (current : pc.Current s)
    (changed : t.changes = s.changes + 1) : pc.Current t := by
  cases pc with
  | loadNext head q since =>
    obtain ⟨version, before, -⟩ := current
    exact ⟨version, by omega, fun now => by omega⟩
  | swap head q next since =>
    obtain ⟨version, before, -⟩ := current
    exact ⟨version, by omega, fun now => by omega⟩
  | _ => exact trivial

/-- A worker moves. -/
theorem Inv.workerMoves (inv : Inv s l) (same : SameStack s t) {q : Fin n} (pc : WorkerPc n)
    (worker : t.worker = Function.update s.worker q pc) (popper : t.popper = s.popper)
    (others : ∀ r, r ≠ q → t.armed r = s.armed r)
    (pushing : pc.Pushing ↔ (s.worker q).Pushing) (marking : pc = .mark → s.idleLinked q = false)
    (wrote : ∀ head, pc = .swap head → s.next q = head.index)
    (armed : pc.Rests → t.armed q = true → q ∈ l ∨ Removing s q) : Inv t l := by
  have pushes (r : Fin n) : (t.worker r).Pushing ↔ (s.worker r).Pushing := by
    rw [worker]
    rcases eq_or_ne r q with rfl | other
    · rw [Function.update_self]
      exact pushing
    · rw [Function.update_of_ne other]
  have clears (r : Fin n) : Clearing t r ↔ Clearing s r := by
    unfold Clearing
    rw [popper]
  constructor
  case leads => exact same.next ▸ same.top ▸ inv.leads
  case nodup => exact inv.nodup
  case version => exact same.top ▸ same.changes ▸ inv.version
  case listed =>
    intro r mem
    rw [same.idleLinked, pushes, clears]
    exact inv.listed r mem
  case pushing =>
    intro r
    rw [same.idleLinked, pushes, clears]
    exact inv.pushing r
  case clearing =>
    intro r
    rw [same.idleLinked, clears]
    exact inv.clearing r
  case single => exact popper ▸ inv.single
  case linked =>
    intro r
    rw [same.idleLinked, pushes, clears]
    exact inv.linked r
  case marking =>
    intro r mark
    rw [worker] at mark
    rw [same.idleLinked]
    rcases eq_or_ne r q with rfl | other
    · rw [Function.update_self] at mark
      exact marking mark
    · rw [Function.update_of_ne other] at mark
      exact inv.marking r mark
  case wrote =>
    intro r head swap
    rw [worker] at swap
    rw [same.next]
    rcases eq_or_ne r q with rfl | other
    · rw [Function.update_self] at swap
      exact wrote head swap
    · rw [Function.update_of_ne other] at swap
      exact inv.wrote r head swap
  case current =>
    intro p
    rw [popper]
    exact (inv.current p).congr same.top same.next same.changes
  case armed =>
    intro r rests isArmed
    rw [worker] at rests
    unfold Removing
    rw [popper]
    rcases eq_or_ne r q with rfl | other
    · rw [Function.update_self] at rests
      exact armed rests isArmed
    · rw [Function.update_of_ne other] at rests
      rw [others r other] at isArmed
      exact inv.armed r rests isArmed

/-- A thread in `PopIdleWorker` moves, and no flag is cleared before or after. -/
theorem Inv.popperMoves (inv : Inv s l) (same : SameStack s t) {p : Nat} (pc : PopPc n)
    (popper : t.popper = Function.update s.popper p pc) (worker : t.worker = s.worker)
    (was : ∀ q, s.popper p ≠ .clearLinked q) (is : ∀ q, pc ≠ .clearLinked q)
    (current : pc.Current s) (armed : ∀ q, t.armed q = true → s.armed q = true)
    (took : ∀ q, s.popper p = .takeArmed q → t.armed q = false) : Inv t l := by
  have clears (p' : Nat) (q : Fin n) :
      t.popper p' = .clearLinked q ↔ s.popper p' = .clearLinked q := by
    rw [popper]
    rcases eq_or_ne p' p with rfl | other
    · rw [Function.update_self]
      exact ⟨fun absurd' => absurd absurd' (is q), fun absurd' => absurd absurd' (was q)⟩
    · rw [Function.update_of_ne other]
  have clearing (q : Fin n) : Clearing t q ↔ Clearing s q := exists_congr fun p' => clears p' q
  constructor
  case leads => exact same.next ▸ same.top ▸ inv.leads
  case nodup => exact inv.nodup
  case version => exact same.top ▸ same.changes ▸ inv.version
  case listed =>
    intro q mem
    rw [same.idleLinked, worker, clearing]
    exact inv.listed q mem
  case pushing =>
    intro q
    rw [same.idleLinked, worker, clearing]
    exact inv.pushing q
  case clearing =>
    intro q
    rw [same.idleLinked, clearing]
    exact inv.clearing q
  case single =>
    intro p₁ p₂ q one two
    exact inv.single p₁ p₂ q ((clears p₁ q).mp one) ((clears p₂ q).mp two)
  case linked =>
    intro q
    rw [same.idleLinked, worker, clearing]
    exact inv.linked q
  case marking => exact worker ▸ same.idleLinked ▸ inv.marking
  case wrote => exact worker ▸ same.next ▸ inv.wrote
  case current =>
    intro p'
    rw [popper]
    rcases eq_or_ne p' p with rfl | other
    · rw [Function.update_self]
      exact current.congr same.top same.next same.changes
    · rw [Function.update_of_ne other]
      exact (inv.current p').congr same.top same.next same.changes
  case armed =>
    intro q rests isArmed
    rw [worker] at rests
    refine (inv.armed q rests (armed q isArmed)).imp_right ?_
    rintro ⟨p', here⟩
    rcases eq_or_ne p' p with rfl | other
    · rcases here with here | here
      · exact absurd here (was q)
      · rw [took q here] at isArmed
        cases isArmed
    · refine ⟨p', ?_⟩
      rw [popper, Function.update_of_ne other]
      exact here

/-! ## `RegisterIdleWorker` -/

/-- A worker that is moved to another kind of place is not the one that stands at this kind. -/
theorem of_setWorker {A : WorkerPc n → Prop} {q r : Fin n} {pc : WorkerPc n} (never : ¬ A pc)
    (now : A ((s.setWorker q pc).worker r)) : r ≠ q ∧ A (s.worker r) := by
  have now : A (Function.update s.worker q pc r) := now
  rcases eq_or_ne r q with rfl | other
  · rw [Function.update_self] at now
    exact absurd now never
  · rw [Function.update_of_ne other] at now
    exact ⟨other, now⟩

theorem Inv.mark (inv : Inv s l) {q : Fin n} (here : s.worker q = .mark) :
    Inv ({ s with idleLinked := Function.update s.idleLinked q true }.setWorker q .loadHead) l := by
  have off := inv.marking q here
  have keeps (r : Fin n) (on : s.idleLinked r = true) : r ≠ q := by
    rintro rfl
    rw [off] at on
    cases on
  have calm : ¬ Clearing s q := fun clearing => keeps q (inv.clearing q clearing) rfl
  constructor
  case leads => exact inv.leads
  case nodup => exact inv.nodup
  case version => exact inv.version
  case listed =>
    intro r mem
    have listed := inv.listed r mem
    have other := keeps r listed.1
    simp only [State.setWorker, Function.update_of_ne other]
    exact listed
  case pushing =>
    intro r pushing
    simp only [State.setWorker] at pushing ⊢
    rcases eq_or_ne r q with rfl | other
    · exact ⟨Function.update_self _ _ _, calm⟩
    · rw [Function.update_of_ne other] at pushing ⊢
      exact inv.pushing r pushing
  case clearing =>
    intro r clearing
    have on := inv.clearing r clearing
    simp only [State.setWorker, Function.update_of_ne (keeps r on)]
    exact on
  case single => exact inv.single
  case linked =>
    intro r on
    simp only [State.setWorker] at on ⊢
    rcases eq_or_ne r q with rfl | other
    · rw [Function.update_self]
      exact .inr (.inl trivial)
    · rw [Function.update_of_ne other] at on ⊢
      exact inv.linked r on
  case marking =>
    intro r mark
    obtain ⟨other, mark⟩ := of_setWorker (A := (· = .mark)) (by simp) mark
    exact (Function.update_of_ne other _ _).trans (inv.marking r mark)
  case wrote =>
    exact fun r h swap => inv.wrote r h (of_setWorker (A := (· = .swap h)) (by simp) swap).2
  case current => exact fun p => (inv.current p).congr rfl rfl rfl
  case armed => exact fun r rests => inv.armed r (of_setWorker (A := WorkerPc.Rests) id rests).2

theorem Inv.setNext (inv : Inv s l) {q : Fin n} {head : Top n}
    (here : s.worker q = .setNext head) :
    Inv ({ s with next := Function.update s.next q head.index }.setWorker q (.swap head)) l := by
  have pushes : (s.worker q).Pushing := by
    rw [here]
    trivial
  have out : q ∉ l := fun mem => (inv.listed q mem).2.1 pushes
  have pushing (r : Fin n) :
      (Function.update s.worker q (.swap head) r).Pushing ↔ (s.worker r).Pushing := by
    rcases eq_or_ne r q with rfl | other
    · rw [Function.update_self, here]
      exact Iff.rfl
    · rw [Function.update_of_ne other]
  constructor
  case leads => exact inv.leads.write out _
  case nodup => exact inv.nodup
  case version => exact inv.version
  case listed =>
    intro r mem
    simp only [State.setWorker, pushing]
    exact inv.listed r mem
  case pushing =>
    intro r
    simp only [State.setWorker, pushing]
    exact inv.pushing r
  case clearing => exact inv.clearing
  case single => exact inv.single
  case linked =>
    intro r
    simp only [State.setWorker, pushing]
    exact inv.linked r
  case marking =>
    exact fun r mark => inv.marking r (of_setWorker (A := (· = .mark)) (by simp) mark).2
  case wrote =>
    intro r head' swap
    simp only [State.setWorker] at swap ⊢
    rcases eq_or_ne r q with rfl | other
    · rw [Function.update_self] at swap ⊢
      cases swap
      rfl
    · rw [Function.update_of_ne other] at swap ⊢
      exact inv.wrote r head' swap
  case current =>
    intro p
    have current := inv.current p
    change (s.popper p).Current _
    cases there : s.popper p with
    | swap head' r next since =>
      rw [there] at current
      obtain ⟨version, before, kept⟩ := current
      refine ⟨version, before, fun now => ⟨(kept now).1, ?_⟩⟩
      have other : r ≠ q := by
        rintro rfl
        exact out (inv.top_mem (kept now).1)
      exact (Function.update_of_ne other _ _).trans (kept now).2
    | loadNext head' r since =>
      rw [there] at current
      exact current
    | _ => exact trivial
  case armed => exact fun r rests => inv.armed r (of_setWorker (A := WorkerPc.Rests) id rests).2

/-- The push. -/
theorem Inv.push (inv : Inv s l) {q : Fin n} (here : s.worker q = .swap s.top) :
    Inv ((s.move (some q)).setWorker q .addCount) (q :: l) := by
  have pushes : (s.worker q).Pushing := by
    rw [here]
    trivial
  have out : q ∉ l := fun mem => (inv.listed q mem).2.1 pushes
  constructor
  case leads =>
    refine ⟨rfl, ?_⟩
    change Leads s.next (s.next q) l none
    rw [inv.wrote q _ here]
    exact inv.leads
  case nodup => exact List.nodup_cons.mpr ⟨out, inv.nodup⟩
  case version =>
    have version := inv.version
    simp only [State.setWorker, State.move, Top.move]
    omega
  case listed =>
    intro r mem
    simp only [State.setWorker, State.move]
    rcases eq_or_ne r q with rfl | other
    · rw [Function.update_self]
      exact ⟨(inv.pushing r pushes).1, id, (inv.pushing r pushes).2⟩
    · rw [Function.update_of_ne other]
      exact inv.listed r ((List.mem_cons.mp mem).resolve_left other)
  case pushing =>
    intro r pushing
    simp only [State.setWorker] at pushing
    rcases eq_or_ne r q with rfl | other
    · rw [Function.update_self] at pushing
      exact pushing.elim
    · rw [Function.update_of_ne other] at pushing
      exact inv.pushing r pushing
  case clearing => exact inv.clearing
  case single => exact inv.single
  case linked =>
    intro r on
    simp only [State.setWorker, State.move]
    rcases eq_or_ne r q with rfl | other
    · exact .inl List.mem_cons_self
    · rw [Function.update_of_ne other]
      exact (inv.linked r on).imp_left (List.mem_cons_of_mem _)
  case marking =>
    exact fun r mark => inv.marking r (of_setWorker (A := (· = .mark)) (by simp) mark).2
  case wrote =>
    exact fun r h swap => inv.wrote r h (of_setWorker (A := (· = .swap h)) (by simp) swap).2
  case current => exact fun p => (inv.current p).moved rfl
  case armed =>
    intro r rests armed
    simp only [State.setWorker] at rests
    rcases eq_or_ne r q with rfl | other
    · exact .inl List.mem_cons_self
    · rw [Function.update_of_ne other] at rests
      exact (inv.armed r rests armed).imp_left (List.mem_cons_of_mem _)

/-! ## `PopIdleWorker` -/

/-- The pop. -/
theorem Inv.take (inv : Inv s l) {p : Nat} {q : Fin n} {next : Option (Fin n)} {since : Nat}
    (here : s.popper p = .swap s.top q next since) (soon : s.changes < since + 2 ^ 32) :
    ∃ l', Inv ((s.move next).setPopper p (.clearLinked q)) l' := by
  have current := inv.current p
  rw [here] at current
  obtain ⟨version, before, kept⟩ := current
  have unchanged : since = s.changes := by
    have now := inv.version
    omega
  obtain ⟨first, link⟩ := kept unchanged
  have head := inv.leads.head
  rw [first] at head
  obtain ⟨l', rfl⟩ := List.head?_eq_some_iff.mp head
  obtain ⟨out, distinct⟩ := List.nodup_cons.mp inv.nodup
  have on := inv.listed q List.mem_cons_self
  have clearing (r : Fin n) (other : r ≠ q) :
      Clearing ((s.move next).setPopper p (.clearLinked q)) r ↔ Clearing s r := by
    refine exists_congr fun p' => ?_
    simp only [State.setPopper, State.move]
    rcases eq_or_ne p' p with rfl | apart
    · rw [Function.update_self, here]
      exact ⟨fun same => absurd (PopPc.clearLinked.inj same).symm other,
        fun absurd' => (by cases absurd')⟩
    · rw [Function.update_of_ne apart]
  refine ⟨l', ?_⟩
  constructor
  case leads =>
    have rest := inv.leads.2
    rw [link] at rest
    exact rest
  case nodup => exact distinct
  case version =>
    have version := inv.version
    simp only [State.setPopper, State.move, Top.move]
    omega
  case listed =>
    intro r mem
    have other : r ≠ q := by
      rintro rfl
      exact out mem
    rw [clearing r other]
    exact inv.listed r (List.mem_cons_of_mem _ mem)
  case pushing =>
    intro r pushing
    have other : r ≠ q := by
      rintro rfl
      exact on.2.1 pushing
    rw [clearing r other]
    exact inv.pushing r pushing
  case clearing =>
    intro r clears
    rcases eq_or_ne r q with rfl | other
    · exact on.1
    · exact inv.clearing r ((clearing r other).mp clears)
  case single =>
    intro p₁ p₂ r one two
    simp only [State.setPopper, State.move] at one two
    rcases eq_or_ne p₁ p with rfl | apart₁ <;> rcases eq_or_ne p₂ p₁ with rfl | apart₂
    · rfl
    · rw [Function.update_self] at one
      rw [Function.update_of_ne apart₂] at two
      cases one
      exact absurd ⟨p₂, two⟩ on.2.2
    · rfl
    · rw [Function.update_of_ne apart₁] at one
      rcases eq_or_ne p₂ p with rfl | apart₃
      · rw [Function.update_self] at two
        cases two
        exact absurd ⟨p₁, one⟩ on.2.2
      · rw [Function.update_of_ne apart₃] at two
        exact inv.single p₁ p₂ r one two
  case linked =>
    intro r isLinked
    rcases eq_or_ne r q with rfl | other
    · exact .inr (.inr ⟨p, Function.update_self _ _ _⟩)
    · rw [clearing r other]
      exact (inv.linked r isLinked).imp_left fun mem => (List.mem_cons.mp mem).resolve_left other
  case marking => exact inv.marking
  case wrote => exact inv.wrote
  case current =>
    intro p'
    simp only [State.setPopper]
    rcases eq_or_ne p' p with rfl | apart
    · rw [Function.update_self]
      exact trivial
    · rw [Function.update_of_ne apart]
      exact (inv.current p').moved rfl
  case armed =>
    intro r rests armed
    rcases eq_or_ne r q with rfl | other
    · exact .inr ⟨p, .inl (Function.update_self _ _ _)⟩
    · rcases inv.armed r rests armed with mem | ⟨p', removing⟩
      · exact .inl ((List.mem_cons.mp mem).resolve_left other)
      · refine .inr ⟨p', ?_⟩
        have apart : p' ≠ p := by
          rintro rfl
          rw [here] at removing
          simp at removing
        simp only [State.setPopper, State.move, Function.update_of_ne apart]
        exact removing

theorem Inv.clearLinked (inv : Inv s l) {p : Nat} {q : Fin n}
    (here : s.popper p = .clearLinked q) :
    Inv ({ s with idleLinked := Function.update s.idleLinked q false }.setPopper p
      (.takeArmed q)) l := by
  have clears : Clearing s q := ⟨p, here⟩
  have clearing (r : Fin n) (other : r ≠ q) :
      Clearing ({ s with idleLinked := Function.update s.idleLinked q false }.setPopper p
        (.takeArmed q)) r ↔ Clearing s r := by
    refine exists_congr fun p' => ?_
    simp only [State.setPopper]
    rcases eq_or_ne p' p with rfl | apart
    · rw [Function.update_self, here]
      exact ⟨fun absurd' => (by cases absurd'),
        fun same => absurd (PopPc.clearLinked.inj same).symm other⟩
    · rw [Function.update_of_ne apart]
  have done : ¬ Clearing ({ s with idleLinked := Function.update s.idleLinked q false }.setPopper p
      (.takeArmed q)) q := by
    rintro ⟨p', there⟩
    simp only [State.setPopper] at there
    rcases eq_or_ne p' p with rfl | apart
    · rw [Function.update_self] at there
      cases there
    · rw [Function.update_of_ne apart] at there
      exact apart (inv.single p' p q there here)
  constructor
  case leads => exact inv.leads
  case nodup => exact inv.nodup
  case version => exact inv.version
  case listed =>
    intro r mem
    have listed := inv.listed r mem
    have other : r ≠ q := by
      rintro rfl
      exact listed.2.2 clears
    rw [clearing r other]
    simp only [State.setPopper, Function.update_of_ne other]
    exact listed
  case pushing =>
    intro r pushing
    have pushes := inv.pushing r pushing
    have other : r ≠ q := by
      rintro rfl
      exact pushes.2 clears
    rw [clearing r other]
    simp only [State.setPopper, Function.update_of_ne other]
    exact pushes
  case clearing =>
    intro r still
    have other : r ≠ q := by
      rintro rfl
      exact done still
    rw [clearing r other] at still
    simp only [State.setPopper, Function.update_of_ne other]
    exact inv.clearing r still
  case single =>
    intro p₁ p₂ r one two
    simp only [State.setPopper] at one two
    rcases eq_or_ne p p₁ with rfl | apart₁
    · rw [Function.update_self] at one
      cases one
    · rcases eq_or_ne p p₂ with rfl | apart₂
      · rw [Function.update_self] at two
        cases two
      · rw [Function.update_of_ne apart₁.symm] at one
        rw [Function.update_of_ne apart₂.symm] at two
        exact inv.single p₁ p₂ r one two
  case linked =>
    intro r on
    simp only [State.setPopper] at on
    have other : r ≠ q := by
      rintro rfl
      rw [Function.update_self] at on
      cases on
    rw [clearing r other]
    rw [Function.update_of_ne other] at on
    exact inv.linked r on
  case marking =>
    intro r mark
    have off := inv.marking r mark
    simp only [State.setPopper]
    rcases eq_or_ne r q with rfl | other
    · exact Function.update_self _ _ _
    · rw [Function.update_of_ne other]
      exact off
  case wrote => exact inv.wrote
  case current =>
    intro p'
    simp only [State.setPopper]
    rcases eq_or_ne p' p with rfl | apart
    · rw [Function.update_self]
      exact trivial
    · rw [Function.update_of_ne apart]
      exact (inv.current p').congr rfl rfl rfl
  case armed =>
    intro r rests armed
    refine (inv.armed r rests armed).imp_right ?_
    rintro ⟨p', removing⟩
    refine ⟨p', ?_⟩
    simp only [State.setPopper]
    rcases eq_or_ne p' p with rfl | apart
    · rw [Function.update_self]
      rw [here] at removing
      rcases removing with same | absurd'
      · cases same
        exact .inr rfl
      · cases absurd'
    · rw [Function.update_of_ne apart]
      exact removing

/-! ## Every run -/

theorem Inv.workerStep (inv : Inv s l) {q : Fin n} {fails : Bool}
    (stepped : workerStep s q fails = some t) : ∃ l', Inv t l' := by
  unfold Idle.workerStep at stepped
  cases here : s.worker q with
  | idle =>
    rw [here] at stepped
    cases stepped
  | checkLinked =>
    simp only [here] at stepped
    split at stepped
    · rename_i on
      cases stepped
      refine ⟨l, inv.workerMoves ⟨rfl, rfl, rfl, rfl⟩ _ rfl rfl (fun _ _ => rfl) (by rw [here]; rfl)
        (by simp) (by simp) fun _ _ => ?_⟩
      rcases inv.linked q on with mem | pushing | ⟨p, clearing⟩
      · exact .inl mem
      · rw [here] at pushing
        exact pushing.elim
      · exact .inr ⟨p, .inl clearing⟩
    · rename_i off
      cases stepped
      exact ⟨l, inv.workerMoves ⟨rfl, rfl, rfl, rfl⟩ _ rfl rfl (fun _ _ => rfl)
        (by rw [here]; rfl) (fun _ => Bool.eq_false_iff.mpr off) (by simp) fun rests => rests.elim⟩
  | mark =>
    simp only [here] at stepped
    cases stepped
    exact ⟨l, inv.mark here⟩
  | loadHead =>
    simp only [here] at stepped
    cases stepped
    exact ⟨l, inv.workerMoves ⟨rfl, rfl, rfl, rfl⟩ _ rfl rfl (fun _ _ => rfl)
      (by rw [here]; rfl) (by simp) (by simp) fun rests => rests.elim⟩
  | setNext head =>
    simp only [here] at stepped
    cases stepped
    exact ⟨l, inv.setNext here⟩
  | swap head =>
    simp only [here] at stepped
    split at stepped
    · rename_i same
      obtain ⟨rfl, -⟩ := same
      cases stepped
      exact ⟨q :: l, inv.push here⟩
    · cases stepped
      exact ⟨l, inv.workerMoves ⟨rfl, rfl, rfl, rfl⟩ _ rfl rfl (fun _ _ => rfl)
        (by rw [here]; rfl) (by simp) (by simp) fun rests => rests.elim⟩
  | addCount | subCount =>
    simp only [here] at stepped
    obtain ⟨count, rfl⟩ : ∃ count, t = { s with idleCount := count }.setWorker q .idle :=
      ⟨_, (Option.some.inj stepped).symm⟩
    exact ⟨l, inv.workerMoves ⟨rfl, rfl, rfl, rfl⟩ _ rfl rfl (fun _ _ => rfl)
      (by rw [here]; rfl) (by simp) (by simp) fun _ => inv.armed q (here ▸ trivial)⟩

theorem Inv.popStep (inv : Inv s l) {p : Nat} {fails : Bool}
    (soon : (s.popper p).InTime s.changes) (stepped : popStep s p fails = some t) :
    ∃ l', Inv t l' := by
  unfold Idle.popStep at stepped
  have current := inv.current p
  cases here : s.popper p with
  | idle | returned =>
    rw [here] at stepped
    cases stepped
  | loadHead =>
    simp only [here] at stepped
    cases first : s.top.index with
    | none =>
      simp only [first] at stepped
      cases stepped
      exact ⟨l, inv.popperMoves ⟨rfl, rfl, rfl, rfl⟩ _ rfl rfl (by simp [here]) (by simp)
        trivial (fun _ => id) (by simp [here])⟩
    | some q =>
      simp only [first] at stepped
      cases stepped
      exact ⟨l, inv.popperMoves ⟨rfl, rfl, rfl, rfl⟩ _ rfl rfl (by simp [here]) (by simp)
        ⟨inv.version, Nat.le_refl _, fun _ => first⟩ (fun _ => id) (by simp [here])⟩
  | loadNext head q since =>
    rw [here] at current
    simp only [here] at stepped
    cases stepped
    exact ⟨l, inv.popperMoves ⟨rfl, rfl, rfl, rfl⟩ _ rfl rfl (by simp [here]) (by simp)
      ⟨current.1, current.2.1, fun now => ⟨current.2.2 now, rfl⟩⟩ (fun _ => id) (by simp [here])⟩
  | swap head q next since =>
    rw [here] at soon
    simp only [here] at stepped
    split at stepped
    · rename_i same
      obtain ⟨rfl, -⟩ := same
      cases stepped
      exact inv.take here soon
    · cases stepped
      exact ⟨l, inv.popperMoves ⟨rfl, rfl, rfl, rfl⟩ _ rfl rfl (by simp [here]) (by simp)
        trivial (fun _ => id) (by simp [here])⟩
  | clearLinked q =>
    simp only [here] at stepped
    cases stepped
    exact ⟨l, inv.clearLinked here⟩
  | takeArmed q =>
    simp only [here] at stepped
    cases stepped
    refine ⟨l, inv.popperMoves ⟨rfl, rfl, rfl, rfl⟩ _ rfl rfl (by simp [here]) ?_ ?_
      (fun r armed => ?_) fun r took => ?_⟩
    · intro r
      split <;> simp
    · split <;> exact trivial
    · simp only [State.setPopper] at armed
      rcases eq_or_ne r q with rfl | other
      · rw [Function.update_self] at armed
        cases armed
      · rw [Function.update_of_ne other] at armed
        exact armed
    · rw [here] at took
      cases took
      exact Function.update_self _ _ _
  | subCount q =>
    simp only [here] at stepped
    obtain ⟨count, rfl⟩ : ∃ count, t = { s with idleCount := count }.setPopper p
        (.checkState q) := ⟨_, (Option.some.inj stepped).symm⟩
    exact ⟨l, inv.popperMoves ⟨rfl, rfl, rfl, rfl⟩ _ rfl rfl (by simp [here]) (by simp) trivial
      (fun _ => id) (by simp [here])⟩
  | checkState q =>
    simp only [here] at stepped
    cases stepped
    refine ⟨l, inv.popperMoves ⟨rfl, rfl, rfl, rfl⟩ _ rfl rfl (by simp [here]) ?_ ?_ (fun _ => id)
      (by simp [here])⟩
    · intro r
      split <;> simp
    · split <;> exact trivial

theorem Inv.step (inv : Inv s l) (soon : fewChanges s a) (stepped : step s a = some t) :
    ∃ l', Inv t l' := by
  cases a with
  | setState q parked =>
    cases stepped
    exact ⟨l, inv.workerMoves ⟨rfl, rfl, rfl, rfl⟩ (s.worker q)
      (Function.update_eq_self _ _).symm rfl (fun _ _ => rfl) Iff.rfl (inv.marking q)
      (inv.wrote q) (inv.armed q)⟩
  | register q =>
    simp only [Idle.step] at stepped
    split at stepped
    · rename_i here
      cases stepped
      exact ⟨l, inv.workerMoves ⟨rfl, rfl, rfl, rfl⟩ _ rfl rfl
        (fun r other => Function.update_of_ne other _ _) (by rw [here]; rfl) (by simp) (by simp)
        fun rests => rests.elim⟩
    · cases stepped
  | unregister q =>
    simp only [Idle.step] at stepped
    split at stepped
    · rename_i here
      cases stepped
      refine ⟨l, inv.workerMoves ⟨rfl, rfl, rfl, rfl⟩ _ rfl rfl
        (fun r other => Function.update_of_ne other _ _) ?_ ?_ ?_ fun _ armed => ?_⟩
      · rw [here]
        split <;> exact Iff.rfl
      · split <;> simp
      · split <;> simp
      · simp only [State.setWorker, Function.update_self] at armed
        cases armed
    · cases stepped
  | worker q fails => exact inv.workerStep stepped
  | pop p =>
    simp only [Idle.step] at stepped
    cases here : s.popper p with
    | idle | returned =>
      simp only [here] at stepped
      cases stepped
      exact ⟨l, inv.popperMoves ⟨rfl, rfl, rfl, rfl⟩ _ rfl rfl (by simp [here]) (by simp)
        trivial (fun _ => id) (by simp [here])⟩
    | _ =>
      simp only [here] at stepped
      cases stepped
  | popper p fails => exact inv.popStep soon stepped

theorem inv_of_reach (reach : Reach step fewChanges (initial n) s) : ∃ l, Inv s l := by
  refine reach.invariant (I := fun s => ∃ l, Inv s l) ⟨[], initial_inv⟩ ?_
  rintro s t a ⟨l, inv⟩ soon stepped
  exact inv.step soon stepped

/-- The stack stays a list that holds the parked workers. -/
theorem idle_stack_intact {s : State n} (reach : Reach step fewChanges (initial n) s) :
    Intact s := by
  obtain ⟨l, inv⟩ := inv_of_reach reach
  exact inv.intact

/-- Worker 1 registers over worker 0, a thread takes it off and stalls, and it registers again over
the link that is still marked. -/
def stalledLabels : List (Label 2) :=
  List.flatten [[.setState 0 true, .register 0], List.replicate 6 (.worker 0 false),
    [.setState 1 true, .register 1], List.replicate 6 (.worker 1 false),
    [.pop 0], List.replicate 3 (.popper 0 false),
    [.unregister 1, .worker 1 false, .register 1, .worker 1 false]]

def stalled : State 2 := (run step fewChanges (initial 2) stalledLabels).getD (initial 2)

theorem stalled_intact : stalled.armed 1 = true ∧ stalled.worker 1 = .idle ∧ Intact stalled :=
  ⟨by decide +kernel, by decide +kernel,
    idle_stack_intact (Reach.of_isSome stalledLabels (by decide +kernel))⟩

end JLibSched.Idle
