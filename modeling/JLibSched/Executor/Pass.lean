import JLibSched.Lib.Transition
import JLibSched.Task.Basic

/-!
# The worker pass

`Thread::Worker` holds one task in its hand, `task_to_run`.  A pass runs what is in the hand and
then looks for the next task in about ten places, some of which restart the loop and some of which
fall through to the next.

The label of a step is what the step is told: whether the pool still runs, what a queue gives,
whether a task is cancelled.  Any step may be told anything.  Which deque is asked (the cursors, the
sticky victim, the mask of the seek, the sibling) is part of what it is told, and so is what
decides whether an empty pass parks.  An inbox of `Task*` may give a null pointer, which is `none`.
The message pump and the statistics are left out.
-/

namespace JLibSched.Pass

open Transition

/-- What is fixed for one call of `Worker`. -/
structure Config where
  isMain : Bool
  /-- There is a `ctx`. -/
  ctx : Bool
  countsAsHunter : Bool
  /-- The number of deques. -/
  nq : Nat
  /-- There are several groups of cores. -/
  grouped : Bool
  type : Nat → TaskType

/-- The three calls of `drainOwnInbox`. -/
inductive Site where
  | tick
  | mid
  | last
deriving DecidableEq, Repr

/-- The four steals of one pass. -/
inductive Probe where
  | cursor
  | seek
  | sibling
  | remote
deriving DecidableEq, Repr

inductive Pc where
  | top
  /-- At `DiscardIfCancelled`. -/
  | discard
  /-- A reserved worker looks whether I/O has come after its steal. -/
  | giveBack
  | start
  /-- At `coro->Execute`. -/
  | execute
  | native
  | fiber
  /-- The context switch is over. -/
  | returned
  /-- About to set `task_to_run` to null, and to restart the loop or to go on with the pass. -/
  | clear (restart : Bool)
  | pickup
  /-- The injector, for a reserved worker. -/
  | injectorK
  | tick
  | drain (site : Site)
  /-- `drainOwnInbox` pops. -/
  | fill (site : Site)
  | hiPri
  | injector
  | yielded
  | yieldedInbox
  | yieldedOwn
  | own
  | steal
  | probe (p : Probe)
  | scanned
  | gate
  | left
deriving DecidableEq, Repr

/-- What the pass does to tasks. -/
inductive Event where
  /-- `drainOwnInbox` pops. -/
  | popped (x : Option Nat)
  /-- It pushes on the worker's own deque. -/
  | staged (x : Option Nat)
  /-- It puts the last one into `task_to_run`. -/
  | drained (x : Option Nat)
  /-- Another place puts a task into `task_to_run`. -/
  | took (t : Nat)
  | executed (t : Nat)
  /-- The fiber of the task is entered. -/
  | handed (t : Nat)
  | discarded (t : Nat)
  | requeued (t : Nat)
  /-- `PushMainQueue`. -/
  | pushedMain (t : Nat)
deriving DecidableEq, Repr

structure State where
  pc : Pc
  /-- `task_to_run`. -/
  task : Option Nat
  coro : Option Nat
  batch : List (Option Nat)
  /-- `isReservedWorker`, which is read in every pass. -/
  reserved : Bool
  stolenOnK : Bool
  stolenHere : Bool
  yieldedLastPass : Bool
  isSearching : Bool
  fairPass : BitVec 32
  hit : Bool
  log : List Event
deriving DecidableEq

/-- The hunt is entered before the loop. -/
def initial (c : Config) : State where
  pc := .top
  task := none
  coro := none
  batch := []
  reserved := false
  stolenOnK := false
  stolenHere := false
  yieldedLastPass := false
  isSearching := c.countsAsHunter
  fairPass := 0
  hit := false
  log := []

/-- What a step is told. -/
structure Answer where
  running : Bool
  /-- `ctx->Done`. -/
  done : Bool
  reserved : Bool
  cancelled : Bool
  /-- No I/O has come. -/
  quiet : Bool
  /-- The task has a fiber, or gets one. -/
  fiber : Bool
  yielded : Bool
  /-- The probe is made. -/
  asks : Bool
  /-- What a queue gives. -/
  found : Option (Option Nat)
  /-- The pass leaves the hunt. -/
  parks : Bool
  /-- There is another pass. -/
  again : Bool
deriving DecidableEq, Repr

def batchSize : Nat := 64

def kFairTickEvery : Nat := 61

def State.goto (s : State) (pc : Pc) : State := { s with pc := pc }

/-- `task_to_run = t`, for a task from elsewhere than the inbox drain. -/
def State.take (s : State) (t : Nat) (pc : Pc) : State :=
  { s with task := some t, log := s.log ++ [.took t], pc := pc }

/-- The task in the hand is dealt with. -/
def State.settle (s : State) (e : Event) (pc : Pc) : State :=
  { s with log := s.log ++ [e], pc := pc }

/-- If the queue gives a task, it is taken and the loop is restarted. -/
def State.poll (s : State) (found : Option (Option Nat)) (pc : Pc) : State :=
  match found.join with
  | some t => s.take t .top
  | none => s.goto pc

/-- `++fairPass`, for a compute worker. -/
def State.count (s : State) : State :=
  if s.reserved then s else { s with fairPass := s.fairPass + 1 }

/-- Where `drainOwnInbox` returns to. -/
def Site.next : Site → Pc
  | .tick => .hiPri
  | .mid => .steal
  | .last => .gate

def Probe.next : Probe → Pc
  | .cursor => .probe .seek
  | .seek => .probe .sibling
  | .sibling => .probe .remote
  | .remote => .scanned

/-- What the state says on whether a probe is made. -/
def Probe.may (c : Config) (s : State) : Probe → Bool
  | .cursor => true
  | .seek | .sibling => !s.hit && !s.reserved
  | .remote => !s.hit && c.grouped

/-- `steal_if` has succeeded. -/
def State.hitWith (s : State) (x : Option Nat) (pc : Pc) : State :=
  { s with
    stolenOnK := s.stolenOnK || s.reserved
    task := x
    hit := true
    log := s.log ++ (x.map .took).toList
    pc := pc }

/-- All but the last of the batch go to the deque, and the last one to the hand. -/
def State.unload (s : State) (site : Site) : State :=
  match s.batch.getLast? with
  | none => s.goto site.next
  | some x =>
    { s with
      task := x
      batch := []
      log := s.log ++ (s.batch.dropLast.map .staged ++ [.drained x])
      pc := site.next }

/-- The step with a task in the hand. -/
def dispatch (c : Config) (s : State) (a : Answer) (t : Nat) : Pc → Option State
  | .discard =>
    let s := { s with isSearching := false, stolenHere := s.stolenOnK, stolenOnK := false }
    if a.cancelled then some (s.settle (.discarded t) (.clear true))
    else some (s.goto (if s.stolenHere then .giveBack else .start))
  | .giveBack =>
    if a.quiet then some (s.goto .start) else some (s.settle (.requeued t) (.clear true))
  | .start =>
    match c.type t with
    | .coroutine => some { s with coro := some t, task := none, pc := .execute }
    | .native => some (s.goto .native)
    | .fiber => some (s.goto .fiber)
  | .native => some (s.settle (.executed t) (.clear true))
  | .fiber =>
    if a.fiber then some (s.settle (.handed t) .returned)
    else if c.isMain then some (s.settle (.pushedMain t) (.clear true))
    else some (s.settle (.requeued t) (.clear true))
  | .returned =>
    some ({ s with yieldedLastPass := s.yieldedLastPass || a.yielded }.goto (.clear false))
  | .clear restart => some { s with task := none, pc := if restart then .top else .pickup }
  | _ => none

def step (c : Config) (s : State) (a : Answer) : Option State :=
  match s.pc with
  | .top =>
    if a.running = false ∨ c.ctx ∧ s.task = none ∧ a.done then some (s.goto .left)
    else some ({ s with reserved := a.reserved }.goto
      (if s.task = none then .pickup else .discard))
  | .execute => s.coro.map fun t => { s.settle (.executed t) .top with coro := none }
  | .pickup => some ({ s with isSearching := s.isSearching || c.countsAsHunter }.goto .injectorK)
  | .injectorK =>
    if s.task = none ∧ s.reserved then
      match a.found.join with
      | some t => some (s.take t .tick)
      | none => some (s.goto .tick)
    else some (s.goto .tick)
  | .tick =>
    let s := s.count
    some (s.goto (if s.task = none ∧ s.reserved = false ∧ s.fairPass.toNat % kFairTickEvery = 0
      then .drain .tick else .hiPri))
  | .drain site =>
    some (s.goto (if s.task ≠ none ∨ s.reserved then site.next else .fill site))
  | .fill site =>
    if s.batch.length < batchSize then
      match a.found with
      | some x => some { s with batch := s.batch ++ [x], log := s.log ++ [.popped x] }
      | none => some (s.unload site)
    else some (s.unload site)
  | .hiPri => some (if s.task = none then s.poll a.found .injector else s.goto .injector)
  | .injector =>
    some (if s.task = none ∧ s.reserved = false then s.poll a.found .yielded
      else s.goto .yielded)
  | .yielded =>
    if s.yieldedLastPass ∧ s.task = none then
      some ({ s with yieldedLastPass := false }.goto .yieldedInbox)
    else some (s.goto .own)
  | .yieldedInbox =>
    some (if s.reserved = false then s.poll a.found .yieldedOwn else s.goto .yieldedOwn)
  | .yieldedOwn => some (s.poll a.found .own)
  | .own => some (if s.task = none then s.poll a.found (.drain .mid) else s.goto (.drain .mid))
  | .steal =>
    if s.task = none ∧ (s.isSearching ∨ s.reserved) then
      if 1 < c.nq then some ({ s with hit := false }.goto (.probe .cursor))
      else some (s.goto .scanned)
    else some (s.goto (.drain .last))
  | .probe p =>
    if p.may c s ∧ a.asks then
      match a.found with
      | some x => some (s.hitWith x p.next)
      | none => some (s.goto p.next)
    else some (s.goto p.next)
  | .scanned => some (s.goto (if s.task = none then .drain .last else .top))
  | .gate =>
    if s.task ≠ none then some (s.goto .top)
    else some ({ s with isSearching := s.isSearching && !a.parks }.goto
      (if a.again then .top else .left))
  | .left => none
  | pc => s.task.bind fun t => dispatch c s a t pc

/-! ## What a step can do -/

/-- The task in the hand has been dealt with. -/
def Pc.settled : Pc → Bool
  | .returned | .clear _ => true
  | .top | .discard | .giveBack | .start | .execute | .native | .fiber | .pickup | .injectorK
  | .tick | .drain _ | .fill _ | .hiPri | .injector | .yielded | .yieldedInbox | .yieldedOwn
  | .own | .steal | .probe _ | .scanned | .gate | .left => false

/-- The task comes into the hand. -/
def Event.Takes (t : Nat) : Event → Prop
  | .took u => u = t
  | .drained x => x = some t
  | .popped _ | .staged _ | .executed _ | .handed _ | .discarded _ | .requeued _
  | .pushedMain _ => False

/-- The task is executed, handed to a fiber, discarded, or put back into a queue. -/
def Event.Settles (t : Nat) : Event → Prop
  | .executed u | .handed u | .discarded u | .requeued u | .pushedMain u => u = t
  | .popped _ | .staged _ | .took _ | .drained _ => False

instance (t : Nat) : DecidablePred (Event.Takes t)
  | .took u => inferInstanceAs (Decidable (u = t))
  | .drained x => inferInstanceAs (Decidable (x = some t))
  | .popped _ | .staged _ | .executed _ | .handed _ | .discarded _ | .requeued _
  | .pushedMain _ => isFalse id

instance (t : Nat) : DecidablePred (Event.Settles t)
  | .executed u | .handed u | .discarded u | .requeued u | .pushedMain u =>
    inferInstanceAs (Decidable (u = t))
  | .popped _ | .staged _ | .took _ | .drained _ => isFalse id

/-- What may be in the hand at a program counter. -/
def Pc.Fits (s : State) : Pc → Prop
  | .top | .tick | .drain _ | .hiPri | .injector | .yielded | .own | .steal | .scanned | .gate
  | .left => s.coro = none ∧ s.batch = []
  | .pickup | .injectorK | .yieldedInbox | .yieldedOwn =>
    s.task = none ∧ s.coro = none ∧ s.batch = []
  | .fill _ => s.task = none ∧ s.coro = none
  | .execute => s.task = none ∧ (∃ t, s.coro = some t) ∧ s.batch = []
  | .discard | .giveBack | .start | .native | .fiber =>
    (∃ t, s.task = some t) ∧ s.coro = none ∧ s.batch = []
  | .returned | .clear _ =>
    (∃ t e, s.task = some t ∧ s.log.getLast? = some e ∧ e.Settles t) ∧ s.coro = none ∧
      s.batch = []
  | .probe p => (p = .cursor ∨ s.hit = false → s.task = none) ∧ s.coro = none ∧ s.batch = []

variable {c : Config} {s s' : State} {a : Answer} {u : Nat}

/-- The program counter moves, and flags may change. -/
structure Moves (s s' : State) : Prop where
  task : s'.task = s.task
  coro : s'.coro = s.coro
  batch : s'.batch = s.batch
  log : s'.log = s.log
  settled : s'.pc.settled = s.pc.settled

/-- What one step does to the tasks that the pass holds. -/
inductive Effect (c : Config) (s s' : State) : Prop where
  | move (moves : Moves s s')
  | take (t : Nat) (before : s.task = none) (after : s'.task = some t) (coro : s'.coro = s.coro)
      (batch : s'.batch = s.batch) (log : s'.log = s.log ++ [.took t])
      (unsettled : s'.pc.settled = false)
  | settle (t : Nat) (e : Event) (before : s.task = some t) (after : s'.task = some t)
      (coro : s'.coro = s.coro) (batch : s'.batch = s.batch) (log : s'.log = s.log ++ [e])
      (settles : e.Settles t) (unsettled : s.pc.settled = false) (settled : s'.pc.settled = true)
  | clear (t : Nat) (before : s.task = some t) (settled : s.pc.settled = true)
      (after : s'.task = none) (coro : s'.coro = s.coro) (batch : s'.batch = s.batch)
      (log : s'.log = s.log)
  | resume (t : Nat) (before : s.task = some t) (unsettled : s.pc.settled = false)
      (coroutine : c.type t = .coroutine) (after : s'.task = none) (free : s.coro = none)
      (coro : s'.coro = some t) (batch : s'.batch = s.batch) (log : s'.log = s.log)
      (pc : s'.pc = .execute)
  | execute (t : Nat) (before : s.task = none) (after : s'.task = none) (held : s.coro = some t)
      (coro : s'.coro = none) (batch : s'.batch = s.batch) (log : s'.log = s.log ++ [.executed t])
  | pop (x : Option Nat) (before : s.task = none) (after : s'.task = none)
      (coro : s'.coro = s.coro) (batch : s'.batch = s.batch ++ [x])
      (log : s'.log = s.log ++ [.popped x])
  | unload (l : List (Option Nat)) (x : Option Nat) (before : s.task = none) (after : s'.task = x)
      (coro : s'.coro = s.coro) (full : s.batch = l ++ [x]) (batch : s'.batch = [])
      (log : s'.log = s.log ++ (l.map .staged ++ [.drained x]))
      (unsettled : s'.pc.settled = false)

theorem goto_moves (s : State) {pc : Pc} (settled : pc.settled = s.pc.settled) :
    Moves s (s.goto pc) :=
  ⟨rfl, rfl, rfl, rfl, settled⟩

/-- A queue is asked with an empty hand. -/
theorem poll_spec {found : Option (Option Nat)} {pc : Pc} (fits : pc.Fits (s.goto pc))
    (plain : pc.settled = false) (here : s.pc.settled = false) (empty : s.task = none)
    (free : s.coro = none) (unfilled : s.batch = []) :
    (s.poll found pc).pc.Fits (s.poll found pc) ∧ Effect c s (s.poll found pc) := by
  unfold State.poll
  split
  · rename_i t given
    exact ⟨⟨free, unfilled⟩, .take t empty rfl rfl rfl rfl rfl⟩
  · exact ⟨fits, .move (goto_moves s (plain.trans here.symm))⟩

theorem count_moves (s : State) {pc : Pc} (settled : pc.settled = s.pc.settled) :
    Moves s (s.count.goto pc) := by
  unfold State.count
  split
  · exact goto_moves s settled
  · exact ⟨rfl, rfl, rfl, rfl, settled⟩

theorem site_next (site : Site) : site.next.settled = false := by
  cases site with
  | tick | mid | last => rfl

theorem site_fits {site : Site} (free : s.coro = none) (unfilled : s.batch = []) :
    site.next.Fits s := by
  cases site with
  | tick | mid | last => exact ⟨free, unfilled⟩

theorem probe_next (p : Probe) : p.next.settled = false := by
  cases p with
  | cursor | seek | sibling | remote => rfl

theorem probe_fits {p : Probe} (empty : s.hit = false → s.task = none) (free : s.coro = none)
    (unfilled : s.batch = []) : p.next.Fits s := by
  cases p with
  | cursor | seek | sibling =>
    refine ⟨fun made => ?_, free, unfilled⟩
    rcases made with first | unhit
    · cases first
    · exact empty unhit
  | remote => exact ⟨free, unfilled⟩

/-- A probe is not made after a hit. -/
theorem probe_may {p : Probe} (may : p.may c s = true) : p = .cursor ∨ s.hit = false := by
  cases p with
  | cursor => exact .inl rfl
  | seek | sibling | remote =>
    simp only [Probe.may, Bool.and_eq_true, Bool.not_eq_true'] at may
    exact .inr may.1

theorem hit_effect {p : Probe} {x : Option Nat} (empty : s.task = none)
    (here : s.pc.settled = false) : Effect c s (s.hitWith x p.next) := by
  cases x with
  | none =>
    exact .move ⟨empty.symm, rfl, rfl, List.append_nil _, (probe_next p).trans here.symm⟩
  | some t => exact .take t empty rfl rfl rfl rfl (probe_next p)

theorem unload_spec {site : Site} (empty : s.task = none) (free : s.coro = none)
    (here : s.pc.settled = false) :
    (s.unload site).pc.Fits (s.unload site) ∧ Effect c s (s.unload site) := by
  unfold State.unload
  split
  · rename_i last
    have none : s.batch = [] := List.getLast?_eq_none_iff.mp last
    exact ⟨site_fits free none, .move (goto_moves s ((site_next site).trans here.symm))⟩
  · rename_i x last
    have full : s.batch = s.batch.dropLast ++ [x] :=
      (List.dropLast_append_getLast? x (Option.mem_def.mpr last)).symm
    exact ⟨site_fits free rfl, .unload s.batch.dropLast x empty rfl rfl full rfl rfl
      (site_next site)⟩

/-- The task in the hand is dealt with, and its event is the last one. -/
theorem settle_spec {t : Nat} {e : Event} {pc : Pc} (held : s.task = some t) (free : s.coro = none)
    (unfilled : s.batch = []) (unsettled : s.pc.settled = false) (settles : e.Settles t)
    (settled : pc = .returned ∨ ∃ restart, pc = .clear restart) :
    (s.settle e pc).pc.Fits (s.settle e pc) ∧ Effect c s (s.settle e pc) := by
  have last : (s.log ++ [e]).getLast? = some e := List.getLast?_concat ..
  rcases settled with rfl | ⟨restart, rfl⟩
  · exact ⟨⟨⟨t, e, held, last, settles⟩, free, unfilled⟩,
      .settle t e held held rfl rfl rfl settles unsettled rfl⟩
  · exact ⟨⟨⟨t, e, held, last, settles⟩, free, unfilled⟩,
      .settle t e held held rfl rfl rfl settles unsettled rfl⟩

theorem dispatch_spec {t : Nat} (held : s.task = some t) (fits : s.pc.Fits s)
    (stepped : dispatch c s a t s.pc = some s') : s'.pc.Fits s' ∧ Effect c s s' := by
  cases here : s.pc with
  | discard =>
    have unsettled : s.pc.settled = false := by rw [here]; rfl
    rw [here] at stepped fits
    simp only [dispatch] at stepped
    obtain ⟨-, free, unfilled⟩ := fits
    split at stepped
    · cases stepped
      exact ⟨⟨⟨t, .discarded t, held, List.getLast?_concat .., rfl⟩, free, unfilled⟩,
        .settle t _ held held rfl rfl rfl rfl unsettled rfl⟩
    · cases stepped
      cases stolen : s.stolenOnK with
      | false => exact ⟨⟨⟨t, held⟩, free, unfilled⟩, .move ⟨rfl, rfl, rfl, rfl, unsettled.symm⟩⟩
      | true => exact ⟨⟨⟨t, held⟩, free, unfilled⟩, .move ⟨rfl, rfl, rfl, rfl, unsettled.symm⟩⟩
  | giveBack =>
    have unsettled : s.pc.settled = false := by rw [here]; rfl
    rw [here] at stepped fits
    simp only [dispatch] at stepped
    obtain ⟨-, free, unfilled⟩ := fits
    split at stepped
    · cases stepped
      exact ⟨⟨⟨t, held⟩, free, unfilled⟩, .move (goto_moves s unsettled.symm)⟩
    · cases stepped
      exact settle_spec held free unfilled unsettled rfl (.inr ⟨true, rfl⟩)
  | start =>
    have unsettled : s.pc.settled = false := by rw [here]; rfl
    rw [here] at stepped fits
    simp only [dispatch] at stepped
    obtain ⟨-, free, unfilled⟩ := fits
    split at stepped
    · rename_i coroutine
      cases stepped
      exact ⟨⟨rfl, ⟨t, rfl⟩, unfilled⟩,
        .resume t held unsettled coroutine rfl free rfl rfl rfl rfl⟩
    · cases stepped
      exact ⟨⟨⟨t, held⟩, free, unfilled⟩, .move (goto_moves s unsettled.symm)⟩
    · cases stepped
      exact ⟨⟨⟨t, held⟩, free, unfilled⟩, .move (goto_moves s unsettled.symm)⟩
  | native =>
    have unsettled : s.pc.settled = false := by rw [here]; rfl
    rw [here] at stepped fits
    obtain ⟨-, free, unfilled⟩ := fits
    cases stepped
    exact settle_spec held free unfilled unsettled rfl (.inr ⟨true, rfl⟩)
  | fiber =>
    have unsettled : s.pc.settled = false := by rw [here]; rfl
    rw [here] at stepped fits
    simp only [dispatch] at stepped
    obtain ⟨-, free, unfilled⟩ := fits
    split at stepped
    · cases stepped
      exact settle_spec held free unfilled unsettled rfl (.inl rfl)
    · split at stepped
      · cases stepped
        exact settle_spec held free unfilled unsettled rfl (.inr ⟨true, rfl⟩)
      · cases stepped
        exact settle_spec held free unfilled unsettled rfl (.inr ⟨true, rfl⟩)
  | returned =>
    have settled : s.pc.settled = true := by rw [here]; rfl
    rw [here] at stepped fits
    cases stepped
    exact ⟨fits, .move ⟨rfl, rfl, rfl, rfl, settled.symm⟩⟩
  | clear restart =>
    have settled : s.pc.settled = true := by rw [here]; rfl
    rw [here] at stepped fits
    obtain ⟨-, free, unfilled⟩ := fits
    cases stepped
    refine ⟨?_, .clear t held settled rfl rfl rfl rfl⟩
    cases restart with
    | true => exact ⟨free, unfilled⟩
    | false => exact ⟨rfl, free, unfilled⟩
  | top | execute | pickup | injectorK | tick | drain | fill | hiPri | injector | yielded
  | yieldedInbox | yieldedOwn | own | steal | probe | scanned | gate | left =>
    rw [here] at stepped
    cases stepped

theorem step_spec (fits : s.pc.Fits s) (stepped : step c s a = some s') :
    s'.pc.Fits s' ∧ Effect c s s' := by
  have spec (t : Nat) (held : s.task = some t) (ran : dispatch c s a t s.pc = some s') :
      s'.pc.Fits s' ∧ Effect c s s' :=
    dispatch_spec held fits ran
  unfold step at stepped
  cases here : s.pc with
  | discard | giveBack | start | native | fiber | returned | clear restart =>
    rw [here] at stepped spec
    obtain ⟨t, held, ran⟩ := Option.bind_eq_some_iff.mp stepped
    exact spec t held ran
  | left =>
    rw [here] at stepped
    cases stepped
  | top =>
    have plain : s.pc.settled = false := by rw [here]; rfl
    rw [here] at stepped fits
    simp only at stepped
    split at stepped
    · cases stepped
      exact ⟨fits, .move (goto_moves s plain.symm)⟩
    · cases stepped
      by_cases hand : s.task = none
      · rw [if_pos hand]
        exact ⟨⟨hand, fits⟩, .move ⟨rfl, rfl, rfl, rfl, plain.symm⟩⟩
      · rw [if_neg hand]
        have held := Option.ne_none_iff_exists'.mp hand
        exact ⟨⟨held, fits⟩, .move ⟨rfl, rfl, rfl, rfl, plain.symm⟩⟩
  | execute =>
    rw [here] at stepped fits
    obtain ⟨t, held, rfl⟩ := Option.map_eq_some_iff.mp stepped
    obtain ⟨empty, -, unfilled⟩ := fits
    exact ⟨⟨rfl, unfilled⟩, .execute t empty empty held rfl rfl rfl⟩
  | pickup =>
    have plain : s.pc.settled = false := by rw [here]; rfl
    rw [here] at stepped fits
    cases stepped
    exact ⟨fits, .move ⟨rfl, rfl, rfl, rfl, plain.symm⟩⟩
  | injectorK =>
    have plain : s.pc.settled = false := by rw [here]; rfl
    rw [here] at stepped fits
    obtain ⟨empty, free, unfilled⟩ := fits
    simp only at stepped
    split at stepped
    · split at stepped
      · rename_i t given
        cases stepped
        exact ⟨⟨free, unfilled⟩, .take t empty rfl rfl rfl rfl rfl⟩
      · cases stepped
        exact ⟨⟨free, unfilled⟩, .move (goto_moves s plain.symm)⟩
    · cases stepped
      exact ⟨⟨free, unfilled⟩, .move (goto_moves s plain.symm)⟩
  | tick =>
    have plain : s.pc.settled = false := by rw [here]; rfl
    rw [here] at stepped fits
    obtain ⟨free, unfilled⟩ := fits
    have counted {pc : Pc} (same : pc.settled = false) : Moves s (s.count.goto pc) :=
      count_moves s (same.trans plain.symm)
    simp only at stepped
    cases stepped
    split
    · have moves : Moves s (s.count.goto (.drain .tick)) := counted rfl
      exact ⟨⟨moves.coro.trans free, moves.batch.trans unfilled⟩, .move moves⟩
    · have moves : Moves s (s.count.goto .hiPri) := counted rfl
      exact ⟨⟨moves.coro.trans free, moves.batch.trans unfilled⟩, .move moves⟩
  | drain site =>
    have plain : s.pc.settled = false := by rw [here]; rfl
    rw [here] at stepped fits
    cases stepped
    split
    · exact ⟨site_fits fits.1 fits.2, .move (goto_moves s ((site_next site).trans plain.symm))⟩
    · rename_i neither
      have empty : s.task = none := by
        by_contra held
        exact neither (.inl held)
      exact ⟨⟨empty, fits.1⟩, .move (goto_moves s plain.symm)⟩
  | fill site =>
    have plain : s.pc.settled = false := by rw [here]; rfl
    rw [here] at stepped fits
    obtain ⟨empty, free⟩ := fits
    simp only at stepped
    split at stepped
    · split at stepped
      · rename_i x given
        cases stepped
        exact ⟨⟨empty, free⟩, .pop x empty empty rfl rfl rfl⟩
      · cases stepped
        exact unload_spec empty free plain
    · cases stepped
      exact unload_spec empty free plain
  | hiPri | own =>
    have plain : s.pc.settled = false := by rw [here]; rfl
    rw [here] at stepped fits
    cases stepped
    split
    · rename_i empty
      exact poll_spec fits rfl plain empty fits.1 fits.2
    · exact ⟨fits, .move (goto_moves s plain.symm)⟩
  | injector =>
    have plain : s.pc.settled = false := by rw [here]; rfl
    rw [here] at stepped fits
    cases stepped
    split
    · rename_i both
      exact poll_spec fits rfl plain both.1 fits.1 fits.2
    · exact ⟨fits, .move (goto_moves s plain.symm)⟩
  | yielded =>
    have plain : s.pc.settled = false := by rw [here]; rfl
    rw [here] at stepped fits
    simp only at stepped
    split at stepped
    · rename_i both
      cases stepped
      exact ⟨⟨both.2, fits⟩, .move ⟨rfl, rfl, rfl, rfl, plain.symm⟩⟩
    · cases stepped
      exact ⟨fits, .move (goto_moves s plain.symm)⟩
  | yieldedInbox =>
    have plain : s.pc.settled = false := by rw [here]; rfl
    rw [here] at stepped fits
    cases stepped
    split
    · exact poll_spec fits rfl plain fits.1 fits.2.1 fits.2.2
    · exact ⟨fits, .move (goto_moves s plain.symm)⟩
  | yieldedOwn =>
    have plain : s.pc.settled = false := by rw [here]; rfl
    rw [here] at stepped fits
    cases stepped
    exact poll_spec fits.2 rfl plain fits.1 fits.2.1 fits.2.2
  | steal =>
    have plain : s.pc.settled = false := by rw [here]; rfl
    rw [here] at stepped fits
    simp only at stepped
    split at stepped
    · rename_i hunts
      split at stepped
      · cases stepped
        exact ⟨⟨fun _ => hunts.1, fits⟩, .move ⟨rfl, rfl, rfl, rfl, plain.symm⟩⟩
      · cases stepped
        exact ⟨fits, .move (goto_moves s plain.symm)⟩
    · cases stepped
      exact ⟨fits, .move (goto_moves s plain.symm)⟩
  | probe p =>
    have plain : s.pc.settled = false := by rw [here]; rfl
    rw [here] at stepped fits
    obtain ⟨unhit, free, unfilled⟩ := fits
    have missed : p.next.Fits (s.goto p.next) ∧ Effect c s (s.goto p.next) :=
      ⟨probe_fits (fun miss => unhit (.inr miss)) free unfilled,
        .move (goto_moves s ((probe_next p).trans plain.symm))⟩
    simp only at stepped
    split at stepped
    · rename_i made
      split at stepped
      · rename_i x given
        cases stepped
        refine ⟨probe_fits (fun miss => ?_) free unfilled, ?_⟩
        · cases miss
        · exact hit_effect (unhit (probe_may made.1)) plain
      · cases stepped
        exact missed
    · cases stepped
      exact missed
  | scanned =>
    have plain : s.pc.settled = false := by rw [here]; rfl
    rw [here] at stepped fits
    cases stepped
    split
    · exact ⟨fits, .move (goto_moves s plain.symm)⟩
    · exact ⟨fits, .move (goto_moves s plain.symm)⟩
  | gate =>
    have plain : s.pc.settled = false := by rw [here]; rfl
    rw [here] at stepped fits
    simp only at stepped
    split at stepped
    · cases stepped
      exact ⟨fits, .move (goto_moves s plain.symm)⟩
    · cases stepped
      split
      · exact ⟨fits, .move ⟨rfl, rfl, rfl, rfl, plain.symm⟩⟩
      · exact ⟨fits, .move ⟨rfl, rfl, rfl, rfl, plain.symm⟩⟩

/-! ## Every task is accounted for -/

/-- How many tasks `t` the pass holds that have not been dealt with. -/
def State.held (s : State) (t : Nat) : Nat :=
  (if s.task = some t ∧ s.pc.settled = false then 1 else 0) + if s.coro = some t then 1 else 0

/-- What the drain pops is staged, put into the hand, or still in the batch. -/
def Drains (s : State) : Prop :=
  ∀ x, s.log.count (.popped x) =
    s.log.count (.staged x) + s.log.count (.drained x) + s.batch.count x

/-- What comes into the hand is dealt with, or still held. -/
def Owes (s : State) : Prop :=
  ∀ t, s.log.countP (Event.Takes t) = s.log.countP (Event.Settles t) + s.held t

theorem count_staged (l : List (Option Nat)) (x : Option Nat) :
    (l.map Event.staged).count (.staged x) = l.count x :=
  List.count_map_of_injective l Event.staged (fun _ _ same => Event.staged.inj same) x

/-- Nothing but `staged` is in there. -/
theorem count_unstaged (l : List (Option Nat)) {e : Event} (other : ∀ x, e ≠ .staged x) :
    (l.map Event.staged).count e = 0 := by
  refine List.count_eq_zero.mpr fun mem => ?_
  obtain ⟨x, -, same⟩ := List.mem_map.mp mem
  exact other x same.symm

theorem countP_staged (l : List (Option Nat)) (t : Nat) :
    (l.map Event.staged).countP (Event.Takes t) = 0 ∧
      (l.map Event.staged).countP (Event.Settles t) = 0 := by
  refine ⟨List.countP_eq_zero.mpr fun e mem => ?_, List.countP_eq_zero.mpr fun e mem => ?_⟩
  · obtain ⟨x, -, rfl⟩ := List.mem_map.mp mem
    exact Bool.false_ne_true
  · obtain ⟨x, -, rfl⟩ := List.mem_map.mp mem
    exact Bool.false_ne_true

/-- An event that is not one of the drain does not count for it. -/
theorem Drains.append (drains : Drains s) {e : Event} (batch : s'.batch = s.batch)
    (log : s'.log = s.log ++ [e]) (other : ∀ x, e ≠ .popped x ∧ e ≠ .staged x ∧ e ≠ .drained x) :
    Drains s' := by
  intro x
  obtain ⟨popped, staged, drained⟩ := other x
  rw [log, batch, List.count_append, List.count_append, List.count_append,
    List.count_singleton, List.count_singleton, List.count_singleton,
    if_neg (by simpa using popped), if_neg (by simpa using staged),
    if_neg (by simpa using drained)]
  exact drains x

theorem Drains.effect (drains : Drains s) (effect : Effect c s s') : Drains s' := by
  cases effect with
  | move moves =>
    intro x
    rw [moves.log, moves.batch]
    exact drains x
  | clear t _ _ _ _ batch log =>
    intro x
    rw [log, batch]
    exact drains x
  | resume t _ _ _ _ _ _ batch log =>
    intro x
    rw [log, batch]
    exact drains x
  | take t _ _ _ batch log =>
    exact drains.append batch log fun x => by simp
  | settle t e _ _ _ batch log settles =>
    refine drains.append batch log fun x => ⟨?_, ?_, ?_⟩
    · rintro rfl
      exact settles
    · rintro rfl
      exact settles
    · rintro rfl
      exact settles
  | execute t _ _ _ _ batch log =>
    exact drains.append batch log fun x => by simp
  | pop y _ _ _ batch log =>
    intro x
    have before := drains x
    rw [log, batch]
    simp only [List.count_append, List.count_singleton, beq_iff_eq, Event.popped.injEq,
      reduceCtorEq, if_false]
    omega
  | unload l y _ _ _ full batch log =>
    intro x
    have before := drains x
    have none := count_unstaged l (e := .popped x) fun z => by simp
    have last := count_unstaged l (e := .drained x) fun z => by simp
    rw [full] at before
    rw [log, batch]
    simp only [List.count_append, List.count_singleton, beq_iff_eq, Event.drained.injEq,
      reduceCtorEq, if_false, List.count_nil, count_staged, none, last] at before ⊢
    omega

/-- One event more. -/
theorem countP_concat (log : List Event) (P : Event → Prop) [DecidablePred P] (e : Event) :
    (log ++ [e]).countP P = log.countP P + if P e then 1 else 0 := by
  rw [List.countP_append, List.countP_singleton]
  simp only [decide_eq_true_eq]

theorem countP_unload (log : List Event) (l : List (Option Nat)) (x : Option Nat) (t : Nat) :
    (log ++ (l.map Event.staged ++ [Event.drained x])).countP (Event.Takes t) =
        log.countP (Event.Takes t) + (if x = some t then 1 else 0) ∧
      (log ++ (l.map Event.staged ++ [Event.drained x])).countP (Event.Settles t) =
        log.countP (Event.Settles t) := by
  have staged := countP_staged l t
  constructor
  · rw [← List.append_assoc, countP_concat, List.countP_append, staged.1]
    rfl
  · rw [← List.append_assoc, countP_concat, List.countP_append, staged.2]
    rfl

/-- The hand, before it is dealt with. -/
theorem held_hand (held : s.task = some u) (unsettled : s.pc.settled = false) (t : Nat) :
    s.held t = (if u = t then 1 else 0) + if s.coro = some t then 1 else 0 := by
  unfold State.held
  rw [held, unsettled]
  simp only [Option.some.injEq, and_true]

theorem held_settled (settled : s.pc.settled = true) (t : Nat) :
    s.held t = if s.coro = some t then 1 else 0 := by
  unfold State.held
  rw [settled]
  simp only [reduceCtorEq, and_false, if_false, Nat.zero_add]

theorem held_empty (empty : s.task = none) (t : Nat) :
    s.held t = if s.coro = some t then 1 else 0 := by
  unfold State.held
  rw [empty]
  simp only [reduceCtorEq, false_and, if_false, Nat.zero_add]

theorem Event.takes_took (t u : Nat) : Event.Takes t (.took u) ↔ u = t := Iff.rfl

theorem Event.settles_executed (t u : Nat) : Event.Settles t (.executed u) ↔ u = t := Iff.rfl

/-- An event that settles a task settles no other one, and takes none. -/
theorem Event.Settles.only {e : Event} (settles : e.Settles u) (t : Nat) :
    (e.Settles t ↔ u = t) ∧ ¬ e.Takes t := by
  cases e with
  | executed v | handed v | discarded v | requeued v | pushedMain v =>
    cases settles
    exact ⟨Iff.rfl, id⟩
  | popped x | staged x | took v | drained x => exact settles.elim

theorem Owes.effect (owes : Owes s) (effect : Effect c s s') : Owes s' := by
  intro t
  have before := owes t
  cases effect with
  | move moves =>
    unfold State.held at before ⊢
    rw [moves.log, moves.task, moves.coro, moves.settled]
    exact before
  | take u empty after coro _ log unsettled =>
    rw [held_empty empty] at before
    rw [log, countP_concat, countP_concat, held_hand after unsettled, coro]
    simp only [Event.takes_took]
    have none : ¬ Event.Settles t (.took u) := id
    rw [if_neg none]
    omega
  | settle u e held after coro _ log settles unsettled settled =>
    obtain ⟨only, none⟩ := settles.only t
    rw [held_hand held unsettled] at before
    rw [log, countP_concat, countP_concat, held_settled settled, coro, if_neg none]
    simp only [only]
    omega
  | clear u held settled after coro _ log =>
    rw [held_settled settled] at before
    rw [log, held_empty after, coro]
    exact before
  | resume u held unsettled _ after free coro _ log =>
    rw [held_hand held unsettled, free] at before
    rw [log, held_empty after, coro]
    simp only [Option.some.injEq, reduceCtorEq, if_false] at before ⊢
    omega
  | execute u empty after held coro _ log =>
    rw [held_empty empty, held] at before
    have none : ¬ Event.Takes t (.executed u) := id
    rw [log, countP_concat, countP_concat, held_empty after, coro, if_neg none]
    simp only [Event.settles_executed, Option.some.injEq, reduceCtorEq, if_false] at before ⊢
    omega
  | pop y empty after coro _ log =>
    rw [held_empty empty] at before
    have none : ¬ Event.Takes t (.popped y) ∧ ¬ Event.Settles t (.popped y) := ⟨id, id⟩
    rw [log, countP_concat, countP_concat, held_empty after, coro, if_neg none.1, if_neg none.2]
    omega
  | unload l y empty after coro _ _ log unsettled =>
    obtain ⟨takes, settles⟩ := countP_unload s.log l y t
    rw [held_empty empty] at before
    rw [log, takes, settles]
    unfold State.held
    rw [after, coro, unsettled]
    simp only [and_true]
    omega

/-! ## No task is dropped -/

/-- What the pass holds fits its program counter, and every task is accounted for. -/
structure Kept (s : State) : Prop where
  fits : s.pc.Fits s
  drains : Drains s
  owes : Owes s

theorem initial_kept : Kept (initial c) where
  fits := ⟨rfl, rfl⟩
  drains := fun _ => rfl
  owes := fun _ => rfl

theorem Kept.next (kept : Kept s) (stepped : step c s a = some s') : Kept s' := by
  obtain ⟨fits, effect⟩ := step_spec kept.fits stepped
  exact ⟨fits, kept.drains.effect effect, kept.owes.effect effect⟩

theorem reach_kept : ∀ {s : State}, Reach (step c) anyStep (initial c) s → Kept s :=
  Reach.invariant initial_kept fun kept _ stepped => kept.next stepped

/-- The pass is never stuck. -/
theorem Kept.moves (kept : Kept s) (stays : s.pc ≠ .left) (a : Answer) :
    ∃ s', step c s a = some s' := by
  have fits := kept.fits
  unfold step
  cases here : s.pc with
  | left => exact absurd here stays
  | discard | giveBack =>
    rw [here] at fits
    obtain ⟨⟨t, held⟩, -⟩ := fits
    simp only [held, Option.bind_some, dispatch]
    split
    · exact ⟨_, rfl⟩
    · exact ⟨_, rfl⟩
  | start =>
    rw [here] at fits
    obtain ⟨⟨t, held⟩, -⟩ := fits
    simp only [held, Option.bind_some, dispatch]
    cases c.type t with
    | coroutine | native | fiber => exact ⟨_, rfl⟩
  | native =>
    rw [here] at fits
    obtain ⟨⟨t, held⟩, -⟩ := fits
    simp only [held, Option.bind_some, dispatch]
    exact ⟨_, rfl⟩
  | fiber =>
    rw [here] at fits
    obtain ⟨⟨t, held⟩, -⟩ := fits
    simp only [held, Option.bind_some, dispatch]
    split
    · exact ⟨_, rfl⟩
    · split
      · exact ⟨_, rfl⟩
      · exact ⟨_, rfl⟩
  | returned | clear restart =>
    rw [here] at fits
    obtain ⟨⟨t, e, held, -⟩, -⟩ := fits
    simp only [held, Option.bind_some, dispatch]
    exact ⟨_, rfl⟩
  | execute =>
    rw [here] at fits
    obtain ⟨-, ⟨t, held⟩, -⟩ := fits
    exact ⟨_, by rw [held]; rfl⟩
  | top | yielded | gate =>
    simp only
    split
    · exact ⟨_, rfl⟩
    · exact ⟨_, rfl⟩
  | injectorK | fill | steal | probe =>
    simp only
    split
    · split
      · exact ⟨_, rfl⟩
      · exact ⟨_, rfl⟩
    · exact ⟨_, rfl⟩
  | pickup | tick | drain | hiPri | injector | yieldedInbox | yieldedOwn | own | scanned =>
    exact ⟨_, rfl⟩

/-- The hand loses its task only where the last thing done was to deal with it, or where the
coroutine goes to a variable of its own. -/
theorem Kept.hand (kept : Kept s) (stepped : step c s a = some s') {t : Nat}
    (held : s.task = some t) :
    s'.task = some t ∨
      s'.task = none ∧ ((∃ e, s.log.getLast? = some e ∧ e.Settles t) ∨
        c.type t = .coroutine ∧ s'.coro = some t ∧ s'.pc = .execute) := by
  obtain ⟨-, effect⟩ := step_spec kept.fits stepped
  have other {P : Prop} (empty : s.task = none) : P := by
    rw [held] at empty
    cases empty
  cases effect with
  | move moves => exact .inl (moves.task.trans held)
  | take u empty => exact other empty
  | settle u e before after =>
    rw [held] at before
    cases before
    exact .inl after
  | clear u before settled after =>
    refine .inr ⟨after, .inl ?_⟩
    have fits := kept.fits
    cases here : s.pc with
    | returned | clear restart =>
      rw [here] at fits
      obtain ⟨⟨v, e, same, last, settles⟩, -⟩ := fits
      rw [held] at same
      cases same
      exact ⟨e, last, settles⟩
    | top | discard | giveBack | start | execute | native | fiber | pickup | injectorK | tick
    | drain | fill | hiPri | injector | yielded | yieldedInbox | yieldedOwn | own | steal
    | probe | scanned | gate | left =>
      rw [here] at settled
      cases settled
  | resume u before unsettled coroutine after free coro batch log pc =>
    rw [held] at before
    cases before
    exact .inr ⟨after, .inr ⟨coroutine, coro, pc⟩⟩
  | execute u empty => exact other empty
  | pop y empty => exact other empty
  | unload l y empty => exact other empty

/-- Only a coroutine about to be executed is outside the hand, and only the drain has a batch. -/
theorem Kept.rest (kept : Kept s) :
    (s.pc = .execute ∨ s.coro = none) ∧ ((∃ site, s.pc = .fill site) ∨ s.batch = []) := by
  have fits := kept.fits
  cases here : s.pc with
  | execute =>
    rw [here] at fits
    exact ⟨.inl rfl, .inr fits.2.2⟩
  | fill site =>
    rw [here] at fits
    exact ⟨.inr fits.2, .inl ⟨site, rfl⟩⟩
  | discard | giveBack | start | native | fiber | returned | clear | probe | pickup | injectorK
  | yieldedInbox | yieldedOwn =>
    rw [here] at fits
    exact ⟨.inr fits.2.1, .inr fits.2.2⟩
  | top | tick | drain | hiPri | injector | yielded | own | steal | scanned | gate | left =>
    rw [here] at fits
    exact ⟨.inr fits.1, .inr fits.2⟩

/-- A coroutine that has left the hand is executed by the next step. -/
theorem Kept.executes (kept : Kept s) {t : Nat} (held : s.coro = some t)
    (stepped : step c s a = some s') : s'.log = s.log ++ [.executed t] := by
  rcases kept.rest.1 with here | free
  · unfold step at stepped
    rw [here, held] at stepped
    cases stepped
    rfl
  · rw [held] at free
    cases free

/-- The pass never drops a task.  It goes on until it leaves; a task in the hand is not overwritten,
and the hand is emptied only after its task was executed, handed to a fiber, discarded or put back
into a queue, or when the task is a coroutine and the next step executes it; every task that comes
into the hand is dealt with once for each time it came, unless it is still held; and what the drain
pops goes to the worker's own deque or into the hand. -/
theorem worker_keeps (reach : Reach (step c) anyStep (initial c) s) :
    (s.pc ≠ .left → ∀ a, ∃ s', step c s a = some s') ∧
    (∀ a s' t, step c s a = some s' → s.task = some t → s'.task = some t ∨ s'.task = none ∧
      ((∃ e, s.log.getLast? = some e ∧ e.Settles t) ∨
        c.type t = .coroutine ∧ s'.coro = some t)) ∧
    (∀ a s' t, step c s a = some s' → s.coro = some t → s'.log = s.log ++ [.executed t]) ∧
    (∀ t, s.log.countP (Event.Takes t) = s.log.countP (Event.Settles t) + s.held t) ∧
    (∀ x, s.log.count (.popped x) =
      s.log.count (.staged x) + s.log.count (.drained x) + s.batch.count x) ∧
    ((∀ site, s.pc ≠ .fill site) → s.batch = []) := by
  have kept := reach_kept reach
  refine ⟨kept.moves, fun a s' t stepped held => ?_, fun a s' t stepped held => ?_, kept.owes,
    kept.drains, fun outside => ?_⟩
  · rcases kept.hand stepped held with same | ⟨empty, done | ⟨coroutine, coro, -⟩⟩
    · exact .inl same
    · exact .inr ⟨empty, .inl done⟩
    · exact .inr ⟨empty, .inr ⟨coroutine, coro⟩⟩
  · exact kept.executes held stepped
  · rcases kept.rest.2 with ⟨site, here⟩ | empty
    · exact absurd here (outside site)
    · exact empty

/-- The pool runs, and queues give `found`. -/
def answer (found : Option (Option Nat)) : Answer where
  running := true
  done := false
  reserved := false
  cancelled := false
  quiet := true
  fiber := true
  yielded := false
  asks := true
  found := found
  parks := false
  again := true

def worker (type : TaskType) : Config where
  isMain := false
  ctx := false
  countsAsHunter := true
  nq := 4
  grouped := false
  type := fun _ => type

/-- The first pass finds two tasks in the inbox when its own deque is empty. -/
def drainRun : List Answer :=
  List.replicate 9 (answer none) ++ [answer (some (some 7)), answer (some (some 8)), answer none]

def drainEnd : State :=
  (run (step (worker .native)) anyStep (initial (worker .native)) drainRun).getD
    (initial (worker .native))

theorem drainRun_keeps : drainEnd.task = some 8 ∧ drainEnd.log.count (.staged (some 7)) = 1 ∧
    drainEnd.batch = [] ∧ drainEnd.held 8 = 1 := by
  have reach : Reach (step (worker .native)) anyStep (initial (worker .native)) drainEnd :=
    Reach.of_isSome drainRun (by decide +kernel)
  obtain ⟨-, -, -, owes, drains, unfilled⟩ := worker_keeps reach
  have here : drainEnd.pc = .steal := by decide +kernel
  have empty : drainEnd.batch = [] := unfilled fun site => by
    rw [here]
    exact Pc.noConfusion
  have popped := drains (some 7)
  have owed := owes 8
  have once : drainEnd.log.count (.popped (some 7)) = 1 := by decide +kernel
  have other : drainEnd.log.count (.drained (some 7)) = 0 := by decide +kernel
  have came : drainEnd.log.countP (Event.Takes 8) = 1 := by decide +kernel
  have undone : drainEnd.log.countP (Event.Settles 8) = 0 := by decide +kernel
  rw [empty, List.count_nil] at popped
  exact ⟨by decide +kernel, by omega, empty, by omega⟩

/-- The hiPri inbox gives a coroutine. -/
def coroutineRun : List Answer :=
  List.replicate 4 (answer none) ++ [answer (some (some 7))] ++ List.replicate 2 (answer none)

def coroutineEnd : State :=
  (run (step (worker .coroutine)) anyStep (initial (worker .coroutine)) coroutineRun).getD
    (initial (worker .coroutine))

def coroutineNext : State :=
  (step (worker .coroutine) coroutineEnd (answer none)).getD coroutineEnd

/-- The hand is emptied before the coroutine is executed. -/
theorem coroutine_cleared :
    Reach (step (worker .coroutine)) anyStep (initial (worker .coroutine)) coroutineEnd ∧
    step (worker .coroutine) coroutineEnd (answer none) = some coroutineNext ∧
    coroutineEnd.task = some 7 ∧ coroutineNext.task = none ∧
    ∀ e ∈ coroutineNext.log, ¬ e.Settles 7 := by
  exact ⟨Reach.of_isSome coroutineRun (by decide +kernel), by decide +kernel, by decide +kernel,
    by decide +kernel, by decide +kernel⟩

end JLibSched.Pass
