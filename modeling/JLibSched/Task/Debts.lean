import JLibSched.Lib.Links
import JLibSched.Lib.Transition
import Mathlib.Tactic

/-!
# Debts owed at task death

A task may leave debts: functions to be called when it is dead.  The dying record hands its list to
a stack that all share, `g_pendingDebts`, and sees that a release task is on its way.  One such task
is enough, which `g_reclaimQueued` tells.  It takes the whole stack, releases one debt after the
other, takes the flag back, and looks at the stack once more.

A party is the life of one task, or a call, or a run of the release task.  What runs inside a
release function is a party of its own.  A debt is its address; its storage is the caller's, who
may use it again once it has been released.
-/

namespace JLibSched.Debts

open Transition Links

inductive Pc where
  | idle
  /-- A task lives, with the `debts` of its record. -/
  | task (debts : Option Nat)
  /-- `HandOffTaskDebts` looks for the tail. -/
  | walk (head tail : Nat)
  /-- It is about to load `g_pendingDebts`. -/
  | load (head tail : Nat)
  /-- It is about to link the tail, and to compare and exchange. -/
  | link (head tail : Nat) (old : Option Nat)
  /-- `QueueDebtRelease` is about to set the flag. -/
  | claim
  /-- It has set it, and is about to create and push the task. -/
  | create
  /-- The release task is about to take the stack. -/
  | take
  /-- `ReleasePendingDebts` is at `d`. -/
  | drain (d : Option Nat)
  /-- The release task is about to clear the flag. -/
  | clear
  /-- It is about to look at the stack again. -/
  | look
deriving DecidableEq, Repr

/-- The last two are kept for what is proved: how often each debt was left, and how often its
release function was called. -/
structure State (n : Nat) where
  next : Nat → Option Nat
  obj : Nat → Nat
  release : Nat → Nat
  pendingDebts : Option Nat
  reclaimQueued : Bool
  /-- How many release tasks are queued. -/
  queued : Nat
  pc : Fin n → Pc
  registered : Nat → Nat
  released : Nat → Nat

def initial (n : Nat) : State n where
  next := fun _ => none
  obj := fun _ => 0
  release := fun _ => 0
  pendingDebts := none
  reclaimQueued := false
  queued := 0
  pc := fun _ => .idle
  registered := fun _ => 0
  released := fun _ => 0

inductive Label (n : Nat) where
  /-- A task gets a record. -/
  | start (t : Fin n)
  /-- `ReleaseOnTaskDeath`. -/
  | register (t : Fin n) (d obj release : Nat)
  /-- `ReleaseRecord`. -/
  | die (t : Fin n)
  /-- The party's next step; a weak compare-exchange may fail. -/
  | go (t : Fin n) (choice : Bool)
  /-- The creation and the push of the task succeed, or not. -/
  | create (t : Fin n) (made : Bool)
  /-- Somebody calls `QueueDebtRelease`. -/
  | call (t : Fin n)
  /-- A queued release task is run. -/
  | run (t : Fin n)
deriving DecidableEq, Repr

variable {n : Nat} {s s' : State n} {t u : Fin n}

def State.goto (s : State n) (t : Fin n) (pc : Pc) : State n :=
  { s with pc := Function.update s.pc t pc }

/-- `ReleaseOnTaskDeath`, past its checks. -/
def State.register (s : State n) (t : Fin n) (debts : Option Nat) (d obj release : Nat) :
    State n :=
  { s with
    obj := Function.update s.obj d obj
    release := Function.update s.release d release
    next := Function.update s.next d debts
    registered := Function.update s.registered d (s.registered d + 1)
    pc := Function.update s.pc t (.task (some d)) }

/-- One round of `ReleasePendingDebts`. -/
def State.drain (s : State n) (t : Fin n) (d : Nat) : State n :=
  { s with
    next := Function.update s.next d none
    released := Function.update s.released d
      (s.released d + if s.release d ≠ 0 ∧ s.obj d ≠ 0 then 1 else 0)
    pc := Function.update s.pc t (.drain (s.next d)) }

/-- `tail->next = old`, and the compare-exchange. -/
def State.link (s : State n) (t : Fin n) (head tail : Nat) (old : Option Nat) (choice : Bool) :
    State n :=
  let s := { s with next := Function.update s.next tail old }
  if choice ∧ s.pendingDebts = old then { s with pendingDebts := some head }.goto t .claim
  else s.goto t (.link head tail s.pendingDebts)

/-- The step of a party. -/
def effect (s : State n) (t : Fin n) (choice : Bool) : Pc → Option (State n)
  | .walk head tail =>
    match s.next tail with
    | some d => some (s.goto t (.walk head d))
    | none => some (s.goto t (.load head tail))
  | .load head tail => some (s.goto t (.link head tail s.pendingDebts))
  | .link head tail old => some (s.link t head tail old choice)
  | .claim =>
    if s.reclaimQueued then some (s.goto t .idle)
    else some ({ s with reclaimQueued := true }.goto t .create)
  | .take => some ({ s with pendingDebts := none }.goto t (.drain s.pendingDebts))
  | .drain none => some (s.goto t .clear)
  | .drain (some d) => some (s.drain t d)
  | .clear => some ({ s with reclaimQueued := false }.goto t .look)
  | .look => some (s.goto t (if s.pendingDebts = none then .idle else .claim))
  | .idle | .task _ | .create => none

def step (s : State n) : Label n → Option (State n)
  | .start t => if s.pc t = .idle then some (s.goto t (.task none)) else none
  | .register t d obj release =>
    match s.pc t with
    | .task debts =>
      if obj = 0 ∨ release = 0 then some s
      -- the storage is not in use
      else if s.registered d = s.released d then some (s.register t debts d obj release)
      else none
    | _ => none
  | .die t =>
    match s.pc t with
    | .task none => some (s.goto t .idle)
    | .task (some head) => some (s.goto t (.walk head head))
    | _ => none
  | .go t choice => effect s t choice (s.pc t)
  | .create t made =>
    if s.pc t = .create then
      if made then some ({ s with queued := s.queued + 1 }.goto t .idle)
      else some ({ s with reclaimQueued := false }.goto t .idle)
    else none
  | .call t => if s.pc t = .idle then some (s.goto t .claim) else none
  | .run t =>
    if s.pc t = .idle ∧ 0 < s.queued then
      some ({ s with queued := s.queued - 1 }.goto t .take)
    else none

/-- Task creation and `Push` succeed. -/
def succeeds (_ : State n) : Label n → Prop
  | .create _ made => made = true
  | .start _ | .register _ _ _ _ | .die _ | .go _ _ | .call _ | .run _ => True

instance (s : State n) : (a : Label n) → Decidable (succeeds s a)
  | .create _ made => inferInstanceAs (Decidable (made = true))
  | .start _ | .register _ _ _ _ | .die _ | .go _ _ | .call _ | .run _ => isTrue trivial

/-- `HandOffTaskDebts` or `QueueDebtRelease` is in progress. -/
def Pc.calls : Pc → Bool
  | .walk _ _ | .load _ _ | .link _ _ _ | .claim | .create => true
  | .idle | .task _ | .take | .drain _ | .clear | .look => false

/-- A release task is running. -/
def Pc.runs : Pc → Bool
  | .take | .drain _ | .clear | .look => true
  | .idle | .task _ | .walk _ _ | .load _ _ | .link _ _ _ | .claim | .create => false

/-- The list a party has in hand: the debts of its task, the list it hands off, or the list its
release task has taken. -/
def Pc.Holds (next : Nat → Option Nat) : Pc → List Nat → Prop
  | .task debts, l => Leads next debts l none
  | .walk head tail, l => Leads next (some head) l none ∧ tail ∈ l
  | .load head tail, l | .link head tail _, l => Run next (some head) l tail
  | .drain d, l => Leads next d l none
  | .idle, l | .claim, l | .create, l | .take, l | .clear, l | .look, l => l = []

/-! ## Lists in hand -/

variable {next next' : Nat → Option Nat} {pc : Pc} {l pend : List Nat} {own : Fin n → List Nat}
  {d : Nat}

theorem Pc.Holds.congr (holds : pc.Holds next l) (same : ∀ x ∈ l, next' x = next x) :
    pc.Holds next' l := by
  cases pc with
  | task debts => exact Leads.congr holds same
  | drain d => exact Leads.congr holds same
  | walk head tail => exact ⟨holds.1.congr same, holds.2⟩
  | load head tail => exact Run.congr holds same
  | link head tail old => exact Run.congr holds same
  | idle | claim | create | take | clear | look => exact holds

/-- The tail has been found when nothing follows. -/
theorem run_of_last {head tail : Nat} (leads : Leads next (some head) l none) (mem : tail ∈ l)
    (last : next tail = none) : Run next (some head) l tail := by
  obtain ⟨front, back, rfl⟩ := List.append_of_mem mem
  obtain ⟨middle, before, rfl, after⟩ := leads_append.mp leads
  cases back with
  | nil => exact ⟨front, rfl, before⟩
  | cons y back =>
    rw [last] at after
    cases after.1

/-- What follows the tail is still in the list. -/
theorem mem_of_next {head tail : Nat} (leads : Leads next (some head) l none) (mem : tail ∈ l)
    (follows : next tail = some d) : d ∈ l := by
  obtain ⟨front, back, rfl⟩ := List.append_of_mem mem
  obtain ⟨middle, before, rfl, after⟩ := leads_append.mp leads
  cases back with
  | nil =>
    rw [follows] at after
    cases after
  | cons y back =>
    rw [follows] at after
    cases after.1
    exact List.mem_append_right _ (List.mem_cons_of_mem _ (List.mem_cons_self ..))

/-- Linking the tail changes nothing before it. -/
theorem run_link {head tail : Nat} {value : Option Nat} (run : Run next (some head) l tail)
    (nodup : l.Nodup) : Run (Function.update next tail value) (some head) l tail := by
  obtain ⟨front, rfl, leads⟩ := run
  refine ⟨front, rfl, leads.write (fun mem => ?_) value⟩
  exact (List.nodup_append.mp nodup).2.2 tail mem tail (List.mem_singleton_self tail) rfl

/-! ## Every debt is in one place -/

/-- The stack holds `pend` and each party `own`, and a debt that was left is released, or on the
stack, or in one of these lists, once. -/
structure Lists (s : State n) (pend : List Nat) (own : Fin n → List Nat) : Prop where
  pending : Leads s.next s.pendingDebts pend none
  holds : ∀ t, (s.pc t).Holds s.next (own t)
  once : ∀ d, pend.count d + ∑ t, (own t).count d ≤ 1
  counts : ∀ d, s.registered d = s.released d + (pend.count d + ∑ t, (own t).count d)
  real : ∀ d, s.registered d ≠ s.released d → s.release d ≠ 0 ∧ s.obj d ≠ 0

theorem initial_lists : Lists (initial n) [] fun _ => [] where
  pending := rfl
  holds := fun _ => rfl
  once := fun d => by
    simp only [List.count_nil, Finset.sum_const_zero]
    exact Nat.zero_le 1
  counts := fun d => by
    simp only [List.count_nil, Finset.sum_const_zero]
    rfl
  real := fun d owed => absurd rfl owed

/-- Two parties have nothing in common. -/
theorem Lists.apart (lists : Lists s pend own) (other : u ≠ t) (mem : d ∈ own t) :
    d ∉ own u := by
  intro both
  have once := lists.once d
  have split := sum_update (fun l : List Nat => l.count d) own t []
  have least := le_sum (fun l : List Nat => l.count d) (Function.update own t []) u
  simp only [List.count_nil] at split
  rw [Function.update_of_ne other] at least
  have mine := List.count_pos_iff.mpr mem
  have theirs := List.count_pos_iff.mpr both
  omega

theorem Lists.nodup (lists : Lists s pend own) (t : Fin n) : (own t).Nodup := by
  refine List.nodup_iff_count_le_one.mpr fun d => ?_
  have once := lists.once d
  have mine := le_sum (fun l : List Nat => l.count d) own t
  omega

theorem Lists.off_stack (lists : Lists s pend own) (mem : d ∈ own t) : d ∉ pend := by
  intro both
  have once := lists.once d
  have mine := le_sum (fun l : List Nat => l.count d) own t
  have here := List.count_pos_iff.mpr mem
  have there := List.count_pos_iff.mpr both
  omega

/-- What the others hold is not changed by a write to a debt that they do not hold. -/
theorem Lists.others (lists : Lists s pend own) {x : Nat} {value : Option Nat}
    (out : ∀ u, u ≠ t → x ∉ own u) (holds : pc.Holds (Function.update s.next x value) l)
    (u : Fin n) : (Function.update s.pc t pc u).Holds (Function.update s.next x value)
      (Function.update own t l u) := by
  by_cases same : u = t
  · rw [same, Function.update_self, Function.update_self]
    exact holds
  · rw [Function.update_of_ne same, Function.update_of_ne same]
    refine (lists.holds u).congr fun y mem => Function.update_of_ne ?_ _ _
    rintro rfl
    exact out u same mem

theorem count_own (own : Fin n → List Nat) (t : Fin n) (l : List Nat) (d : Nat) :
    ∑ u, (Function.update own t l u).count d + (own t).count d =
      ∑ u, (own u).count d + l.count d :=
  sum_update (fun l : List Nat => l.count d) own t l

/-- A party moves and its list stays. -/
theorem Lists.goto (lists : Lists s pend own) (t : Fin n) (pc : Pc)
    (holds : pc.Holds s.next (own t)) : Lists (s.goto t pc) pend own where
  pending := lists.pending
  holds := by
    intro u
    unfold State.goto
    simp only
    by_cases same : u = t
    · rw [same, Function.update_self]
      exact holds
    · rw [Function.update_of_ne same]
      exact lists.holds u
  once := lists.once
  counts := lists.counts
  real := lists.real

/-- The flag and the queue say nothing of the lists. -/
theorem Lists.flag (lists : Lists s pend own) (queued : Nat) (flag : Bool) :
    Lists { s with queued := queued, reclaimQueued := flag } pend own :=
  ⟨lists.pending, lists.holds, lists.once, lists.counts, lists.real⟩

theorem Lists.register (lists : Lists s pend own) {debts : Option Nat} {obj release : Nat}
    (here : s.pc t = .task debts) (some : obj ≠ 0 ∧ release ≠ 0)
    (unused : s.registered d = s.released d) :
    Lists (s.register t debts d obj release) pend (Function.update own t (d :: own t)) := by
  have counts := lists.counts d
  have nowhere : pend.count d = 0 ∧ ∑ u, (own u).count d = 0 := by omega
  have unheld (u : Fin n) : d ∉ own u := by
    have most := le_sum (fun l : List Nat => l.count d) own u
    exact List.count_eq_zero.mp (by omega)
  have held := lists.holds t
  rw [here] at held
  have added (e : Nat) : ∑ u, (Function.update own t (d :: own t) u).count e =
      ∑ u, (own u).count e + if d = e then 1 else 0 := by
    have split := count_own own t (d :: own t) e
    rw [List.count_cons] at split
    simp only [beq_iff_eq] at split
    omega
  refine ⟨lists.pending.write (List.count_eq_zero.mp nowhere.1) debts,
    lists.others (fun u _ => unheld u) (Leads.push held (unheld t)), fun e => ?_, fun e => ?_,
    fun e owed => ?_⟩
  · have once := lists.once e
    rw [added e]
    split
    · rename_i same
      subst same
      omega
    · omega
  · have before := lists.counts e
    rw [added e]
    unfold State.register
    simp only
    by_cases same : e = d
    · subst same
      rw [Function.update_self, if_pos rfl]
      omega
    · rw [Function.update_of_ne same, if_neg (Ne.symm same), Nat.add_zero]
      exact before
  · unfold State.register at owed ⊢
    simp only at owed ⊢
    by_cases same : e = d
    · subst same
      rw [Function.update_self, Function.update_self]
      exact some.symm
    · rw [Function.update_of_ne same] at owed
      rw [Function.update_of_ne same, Function.update_of_ne same]
      exact lists.real e owed

/-- A list goes on the stack. -/
theorem Lists.push (lists : Lists s pend own) {head tail : Nat} {old : Option Nat}
    (here : s.pc t = .link head tail old) (same : s.pendingDebts = old) :
    Lists ({ s with next := Function.update s.next tail old, pendingDebts := some head }.goto t
      .claim) (own t ++ pend) (Function.update own t []) := by
  have run := lists.holds t
  rw [here] at run
  have back := lists.pending
  rw [same] at back
  have mem : tail ∈ own t := run.mem
  have moved (e : Nat) : (own t ++ pend).count e + ∑ u, (Function.update own t [] u).count e =
      pend.count e + ∑ u, (own u).count e := by
    have split := count_own own t [] e
    rw [List.count_nil] at split
    rw [List.count_append]
    omega
  refine ⟨Run.splice run back (lists.nodup t) (lists.off_stack mem),
    lists.others (fun u other => lists.apart other mem) rfl, fun e => ?_, fun e => ?_, lists.real⟩
  · rw [moved e]
    exact lists.once e
  · rw [moved e]
    exact lists.counts e

/-- Somebody else was first. -/
theorem Lists.retry (lists : Lists s pend own) {head tail : Nat} {old : Option Nat}
    (here : s.pc t = .link head tail old) (again : Option Nat) :
    Lists ({ s with next := Function.update s.next tail old }.goto t (.link head tail again))
      pend own := by
  have run := lists.holds t
  rw [here] at run
  have mem : tail ∈ own t := run.mem
  have kept : Function.update own t (own t) = own := Function.update_eq_self t own
  refine ⟨lists.pending.write (lists.off_stack mem) old, ?_, lists.once, lists.counts, lists.real⟩
  have others : ∀ u, (Function.update s.pc t (.link head tail again) u).Holds
      (Function.update s.next tail old) (Function.update own t (own t) u) :=
    lists.others (fun u other => lists.apart other mem) (run_link run (lists.nodup t))
  rw [kept] at others
  exact others

/-- The release task takes the stack. -/
theorem Lists.take (lists : Lists s pend own) (here : s.pc t = .take) :
    Lists ({ s with pendingDebts := none }.goto t (.drain s.pendingDebts)) []
      (Function.update own t pend) := by
  have none : own t = [] := by
    have held := lists.holds t
    rw [here] at held
    exact held
  have moved (e : Nat) : ([] : List Nat).count e +
      ∑ u, (Function.update own t pend u).count e = pend.count e + ∑ u, (own u).count e := by
    have split := count_own own t pend e
    rw [none, List.count_nil] at split
    rw [List.count_nil]
    omega
  refine ⟨rfl, fun u => ?_, fun e => ?_, fun e => ?_, lists.real⟩
  · unfold State.goto
    simp only
    by_cases same : u = t
    · rw [same, Function.update_self, Function.update_self]
      exact lists.pending
    · rw [Function.update_of_ne same, Function.update_of_ne same]
      exact lists.holds u
  · rw [moved e]
    exact lists.once e
  · rw [moved e]
    exact lists.counts e

/-- A debt is released. -/
theorem Lists.drain (lists : Lists s pend own) (here : s.pc t = .drain (some d)) :
    ∃ rest, own t = d :: rest ∧ Lists (s.drain t d) pend (Function.update own t rest) := by
  have held := lists.holds t
  rw [here] at held
  obtain ⟨rest, mine, follows⟩ : ∃ rest, own t = d :: rest ∧ Leads s.next (s.next d) rest none := by
    cases list : own t with
    | nil =>
      rw [list] at held
      cases held
    | cons x rest =>
      rw [list] at held
      cases held.1
      exact ⟨rest, rfl, held.2⟩
  have mem : d ∈ own t := by rw [mine]; exact List.mem_cons_self ..
  have fresh : d ∉ rest := by
    have nodup := lists.nodup t
    rw [mine] at nodup
    exact (List.nodup_cons.mp nodup).1
  have removed (e : Nat) : ∑ u, (Function.update own t rest u).count e +
      (if d = e then 1 else 0) = ∑ u, (own u).count e := by
    have split := count_own own t rest e
    rw [mine, List.count_cons] at split
    simp only [beq_iff_eq] at split
    omega
  have due : s.registered d ≠ s.released d := by
    have counts := lists.counts d
    have most := le_sum (fun l : List Nat => l.count d) own t
    have some := List.count_pos_iff.mpr mem
    omega
  refine ⟨rest, mine, lists.pending.write (lists.off_stack mem) none,
    lists.others (fun u other => lists.apart other mem) (follows.write fresh none), fun e => ?_,
    fun e => ?_, fun e owed => ?_⟩
  · have once := lists.once e
    have less := removed e
    omega
  · have counts := lists.counts e
    have less := removed e
    unfold State.drain
    simp only
    by_cases same : e = d
    · subst same
      rw [Function.update_self, if_pos (lists.real e due)]
      rw [if_pos rfl] at less
      omega
    · rw [Function.update_of_ne same]
      rw [if_neg (Ne.symm same)] at less
      omega
  · refine lists.real e ?_
    unfold State.drain at owed
    simp only at owed
    by_cases same : e = d
    · rw [same]
      exact due
    · rw [Function.update_of_ne same] at owed
      exact owed

/-- The step of a party. -/
theorem Lists.effect {choice : Bool} (lists : Lists s pend own)
    (stepped : effect s t choice (s.pc t) = some s') : ∃ pend own, Lists s' pend own := by
  have held := lists.holds t
  cases here : s.pc t with
  | idle | task | create =>
    rw [here] at stepped
    cases stepped
  | walk head tail =>
    rw [here] at stepped held
    simp only [Debts.effect] at stepped
    split at stepped
    · rename_i follows
      cases stepped
      exact ⟨pend, own, lists.goto t _ ⟨held.1, mem_of_next held.1 held.2 follows⟩⟩
    · rename_i last
      cases stepped
      exact ⟨pend, own, lists.goto t _ (run_of_last held.1 held.2 last)⟩
  | load head tail =>
    rw [here] at stepped held
    cases stepped
    exact ⟨pend, own, lists.goto t _ held⟩
  | link head tail old =>
    rw [here] at stepped
    simp only [Debts.effect, State.link] at stepped
    split at stepped
    · rename_i won
      cases stepped
      exact ⟨_, _, lists.push here won.2⟩
    · cases stepped
      exact ⟨_, _, lists.retry here _⟩
  | claim =>
    rw [here] at stepped held
    simp only [Debts.effect] at stepped
    split at stepped
    · cases stepped
      exact ⟨pend, own, lists.goto t _ held⟩
    · cases stepped
      exact ⟨pend, own, (lists.flag s.queued true).goto t _ held⟩
  | take =>
    rw [here] at stepped
    cases stepped
    exact ⟨_, _, lists.take here⟩
  | drain d =>
    rw [here] at stepped held
    cases d with
    | none =>
      cases stepped
      refine ⟨pend, own, lists.goto t _ ?_⟩
      -- an empty list leads nowhere
      cases list : own t with
      | nil => rfl
      | cons x rest =>
        rw [list] at held
        cases held.1
    | some d =>
      cases stepped
      obtain ⟨rest, -, lists⟩ := lists.drain here
      exact ⟨_, _, lists⟩
  | clear =>
    rw [here] at stepped held
    cases stepped
    exact ⟨pend, own, (lists.flag s.queued false).goto t _ held⟩
  | look =>
    rw [here] at stepped held
    cases stepped
    refine ⟨pend, own, lists.goto t _ ?_⟩
    split
    · exact held
    · exact held

theorem Lists.step {a : Label n} (lists : Lists s pend own) (stepped : step s a = some s') :
    ∃ pend own, Lists s' pend own := by
  cases a with
  | start t =>
    simp only [Debts.step] at stepped
    split at stepped
    · rename_i here
      cases stepped
      have held := lists.holds t
      rw [here] at held
      refine ⟨pend, own, lists.goto t _ ?_⟩
      rw [show own t = [] from held]
      exact rfl
    · cases stepped
  | register t d obj release =>
    simp only [Debts.step] at stepped
    split at stepped
    · rename_i debts here
      split at stepped
      · cases stepped
        exact ⟨pend, own, lists⟩
      · rename_i some
        split at stepped
        · rename_i unused
          cases stepped
          exact ⟨_, _, lists.register here (not_or.mp some) unused⟩
        · cases stepped
    · cases stepped
  | die t =>
    simp only [Debts.step] at stepped
    split at stepped
    · rename_i here
      cases stepped
      have held := lists.holds t
      rw [here] at held
      refine ⟨pend, own, lists.goto t _ ?_⟩
      cases list : own t with
      | nil => rfl
      | cons x rest =>
        rw [list] at held
        cases held.1
    · rename_i head here
      cases stepped
      have held := lists.holds t
      rw [here] at held
      refine ⟨pend, own, lists.goto t _ ⟨held, ?_⟩⟩
      cases list : own t with
      | nil =>
        rw [list] at held
        cases held
      | cons x rest =>
        rw [list] at held
        cases held.1
        exact List.mem_cons_self ..
    · cases stepped
  | go t choice => exact lists.effect stepped
  | create t made =>
    simp only [Debts.step] at stepped
    split at stepped
    · rename_i here
      have held := lists.holds t
      rw [here] at held
      split at stepped
      · cases stepped
        exact ⟨pend, own, (lists.flag (s.queued + 1) s.reclaimQueued).goto t _ held⟩
      · cases stepped
        exact ⟨pend, own, (lists.flag s.queued false).goto t _ held⟩
    · cases stepped
  | call t =>
    simp only [Debts.step] at stepped
    split at stepped
    · rename_i here
      cases stepped
      have held := lists.holds t
      rw [here] at held
      exact ⟨pend, own, lists.goto t _ held⟩
    · cases stepped
  | run t =>
    simp only [Debts.step] at stepped
    split at stepped
    · rename_i both
      cases stepped
      have held := lists.holds t
      rw [both.1] at held
      exact ⟨pend, own, (lists.flag (s.queued - 1) s.reclaimQueued).goto t _ held⟩
    · cases stepped

theorem reach_lists : ∀ {s : State n}, Reach step succeeds (initial n) s →
    ∃ pend own, Lists s pend own := by
  refine Reach.invariant (I := fun s => ∃ pend own, Lists s pend own)
    ⟨_, _, initial_lists⟩ fun found _ stepped => ?_
  obtain ⟨pend, own, lists⟩ := found
  exact lists.step stepped

/-! ## Somebody drains the stack -/

/-- Parties on behalf of which the flag is set. -/
def Pc.flags : Pc → Nat
  | .create | .take | .drain _ | .clear => 1
  | .idle | .task _ | .walk _ _ | .load _ _ | .link _ _ _ | .claim | .look => 0

/-- Parties that are about to look whether the stack needs a release task. -/
def Pc.Looks (pc : Pc) : Prop := pc = .claim ∨ pc = .look

/-- The flag is set for one release task; without it somebody looks at the stack, if there is
something on it. -/
structure Flag (s : State n) : Prop where
  one : s.queued + ∑ t, (s.pc t).flags = s.reclaimQueued.toNat
  noticed : s.pendingDebts ≠ none → s.reclaimQueued = true ∨ ∃ t, (s.pc t).Looks

theorem initial_flag : Flag (initial n) where
  one := (Nat.zero_add _).trans Finset.sum_const_zero
  noticed := fun some => absurd rfl some

/-- A party moves, and the flag, the queue and the stack may change. -/
theorem Flag.move (flag : Flag s) (t : Fin n) (pc : Pc)
    (moved : s'.pc = Function.update s.pc t pc)
    (one : s'.queued + pc.flags + s.reclaimQueued.toNat =
      s.queued + (s.pc t).flags + s'.reclaimQueued.toNat)
    (noticed : s'.pendingDebts ≠ none → s'.reclaimQueued = true ∨ pc.Looks ∨
      s.pendingDebts ≠ none ∧ (s.reclaimQueued = true → s'.reclaimQueued = true) ∧
        ¬ (s.pc t).Looks) : Flag s' := by
  refine ⟨?_, fun some => ?_⟩
  · have before := flag.one
    have sum := sum_update Pc.flags s.pc t pc
    rw [moved]
    omega
  · rw [moved]
    rcases noticed some with set | looks | ⟨more, kept, other⟩
    · exact .inl set
    · exact .inr ⟨t, by rw [Function.update_self]; exact looks⟩
    · rcases flag.noticed more with set | found
      · exact .inl (kept set)
      · exact .inr (exists_update found fun looks => absurd looks other)

/-- Only the party changes. -/
theorem Flag.goto (flag : Flag s) (t : Fin n) (pc : Pc) (moved : s'.pc = Function.update s.pc t pc)
    (queued : s'.queued = s.queued) (set : s'.reclaimQueued = s.reclaimQueued)
    (stack : s'.pendingDebts = s.pendingDebts) (same : pc.flags = (s.pc t).flags)
    (other : ¬ (s.pc t).Looks) : Flag s' := by
  refine flag.move t pc moved (by rw [queued, set, same]) fun some => .inr (.inr ⟨?_, ?_, other⟩)
  · rw [stack] at some
    exact some
  · rw [set]
    exact id

theorem Flag.isSet (flag : Flag s) (holder : (s.pc t).flags = 1) : s.reclaimQueued = true := by
  have one := flag.one
  have mine := le_sum Pc.flags s.pc t
  cases set : s.reclaimQueued with
  | true => rfl
  | false =>
    rw [set] at one
    simp only [Bool.toNat_false] at one
    omega

theorem Flag.effect {choice : Bool} (flag : Flag s)
    (stepped : effect s t choice (s.pc t) = some s') : Flag s' := by
  cases here : s.pc t with
  | idle | task | create =>
    rw [here] at stepped
    cases stepped
  | walk head tail =>
    rw [here] at stepped
    simp only [Debts.effect] at stepped
    split at stepped
    · cases stepped
      exact flag.goto t _ rfl rfl rfl rfl (by rw [here]; rfl) (by rw [here]; simp [Pc.Looks])
    · cases stepped
      exact flag.goto t _ rfl rfl rfl rfl (by rw [here]; rfl) (by rw [here]; simp [Pc.Looks])
  | load head tail =>
    rw [here] at stepped
    cases stepped
    exact flag.goto t _ rfl rfl rfl rfl (by rw [here]; rfl) (by rw [here]; simp [Pc.Looks])
  | link head tail old =>
    rw [here] at stepped
    simp only [Debts.effect, State.link] at stepped
    split at stepped
    · cases stepped
      refine flag.move t .claim rfl ?_ fun _ => .inr (.inl (.inl rfl))
      rw [here]
      rfl
    · cases stepped
      exact flag.goto t _ rfl rfl rfl rfl (by rw [here]; rfl) (by rw [here]; simp [Pc.Looks])
  | claim =>
    rw [here] at stepped
    simp only [Debts.effect] at stepped
    split at stepped
    · rename_i set
      cases stepped
      refine flag.move t .idle rfl ?_ fun _ => .inl set
      rw [here]
      rfl
    · rename_i unset
      cases stepped
      refine flag.move t .create rfl ?_ fun _ => .inl rfl
      have clear : s.reclaimQueued = false := Bool.eq_false_iff.mpr unset
      rw [here, clear]
      rfl
  | take =>
    rw [here] at stepped
    cases stepped
    refine flag.move t _ rfl ?_ fun some => absurd rfl some
    rw [here]
    rfl
  | drain d =>
    rw [here] at stepped
    cases d with
    | none | some d =>
      cases stepped
      exact flag.goto t _ rfl rfl rfl rfl (by rw [here]; rfl) (by rw [here]; simp [Pc.Looks])
  | clear =>
    have set : s.reclaimQueued = true := flag.isSet (t := t) (by rw [here]; rfl)
    rw [here] at stepped
    cases stepped
    refine flag.move t .look rfl ?_ fun _ => .inr (.inl (.inr rfl))
    rw [here, set]
    rfl
  | look =>
    rw [here] at stepped
    cases stepped
    refine flag.move t _ rfl ?_ fun some => .inr (.inl ?_)
    · rw [here]
      split
      · rfl
      · rfl
    · exact .inl (if_neg some)

theorem Flag.step {a : Label n} (flag : Flag s) (allowed : succeeds s a)
    (stepped : step s a = some s') : Flag s' := by
  cases a with
  | start t =>
    simp only [Debts.step] at stepped
    split at stepped
    · rename_i here
      cases stepped
      exact flag.goto t _ rfl rfl rfl rfl (by rw [here]; rfl) (by rw [here]; simp [Pc.Looks])
    · cases stepped
  | register t d obj release =>
    simp only [Debts.step] at stepped
    split at stepped
    · rename_i debts here
      split at stepped
      · cases stepped
        exact flag
      · split at stepped
        · cases stepped
          exact flag.goto t _ rfl rfl rfl rfl (by rw [here]; rfl) (by rw [here]; simp [Pc.Looks])
        · cases stepped
    · cases stepped
  | die t =>
    simp only [Debts.step] at stepped
    split at stepped
    · rename_i here
      cases stepped
      exact flag.goto t _ rfl rfl rfl rfl (by rw [here]; rfl) (by rw [here]; simp [Pc.Looks])
    · rename_i head here
      cases stepped
      exact flag.goto t _ rfl rfl rfl rfl (by rw [here]; rfl) (by rw [here]; simp [Pc.Looks])
    · cases stepped
  | go t choice => exact flag.effect stepped
  | create t made =>
    simp only [Debts.step] at stepped
    split at stepped
    · rename_i here
      obtain rfl : made = true := allowed
      cases stepped
      refine flag.move t .idle rfl ?_ fun some =>
        .inr (.inr ⟨some, id, by rw [here]; simp [Pc.Looks]⟩)
      rw [here]
      rfl
    · cases stepped
  | call t =>
    simp only [Debts.step] at stepped
    split at stepped
    · rename_i here
      cases stepped
      refine flag.move t .claim rfl ?_ fun _ => .inr (.inl (.inl rfl))
      rw [here]
      rfl
    · cases stepped
  | run t =>
    simp only [Debts.step] at stepped
    split at stepped
    · rename_i both
      obtain ⟨here, waiting⟩ := both
      cases stepped
      refine flag.move t .take rfl ?_ fun some =>
        .inr (.inr ⟨some, id, by rw [here]; simp [Pc.Looks]⟩)
      have one : Pc.take.flags = 1 := rfl
      have zero : Pc.idle.flags = 0 := rfl
      rw [here, one, zero]
      simp only [State.goto]
      omega
    · cases stepped

theorem reach_flag : ∀ {s : State n}, Reach step succeeds (initial n) s → Flag s :=
  Reach.invariant initial_flag fun flag allowed stepped => flag.step allowed stepped

/-! ## No debt is lost -/

/-- A debt whose hand-off is over has been released as often as it was left, or is on the stack or
in the list of a release task once. -/
theorem Lists.settled (lists : Lists s pend own)
    (handed : ∀ t, d ∈ own t → (s.pc t).runs = true) :
    s.registered d = s.released d ∨
      s.registered d = s.released d + 1 ∧ (d ∈ pend ∨ ∃ t, (s.pc t).runs = true ∧ d ∈ own t) := by
  have counts := lists.counts d
  have once := lists.once d
  by_cases stack : d ∈ pend
  · have here := List.count_pos_iff.mpr stack
    exact .inr ⟨by omega, .inl stack⟩
  · have off := List.count_eq_zero.mpr stack
    by_cases held : ∃ t, d ∈ own t
    · obtain ⟨t, mem⟩ := held
      have most := le_sum (fun l : List Nat => l.count d) own t
      have here := List.count_pos_iff.mpr mem
      exact .inr ⟨by omega, .inr ⟨t, handed t mem, mem⟩⟩
    · have none : ∑ t, (own t).count d = 0 := by
        refine Finset.sum_eq_zero fun t _ => List.count_eq_zero.mpr fun mem => ?_
        exact held ⟨t, mem⟩
      exact .inl (by omega)

/-- Each debt is released once for each time it was left, or is in one place on the way there; and
while there are debts on the stack and nobody hands off or queues, a release task is queued or
running. -/
theorem debts_released (reach : Reach step succeeds (initial n) s) :
    (∃ (pend : List Nat) (own : Fin n → List Nat), Leads s.next s.pendingDebts pend none ∧
      (∀ t, (s.pc t).Holds s.next (own t)) ∧
      (∀ d, pend.count d + ∑ t, (own t).count d ≤ 1) ∧
      (∀ d, s.registered d = s.released d + (pend.count d + ∑ t, (own t).count d)) ∧
      ∀ d, (∀ t, d ∈ own t → (s.pc t).runs = true) → s.registered d = s.released d ∨
        s.registered d = s.released d + 1 ∧
          (d ∈ pend ∨ ∃ t, (s.pc t).runs = true ∧ d ∈ own t)) ∧
    (s.pendingDebts ≠ none → (∀ t, (s.pc t).calls = false) →
      0 < s.queued ∨ ∃ t, (s.pc t).runs = true) := by
  obtain ⟨pend, own, lists⟩ := reach_lists reach
  refine ⟨⟨pend, own, lists.pending, lists.holds, lists.once, lists.counts,
    fun d handed => lists.settled handed⟩, fun some still => ?_⟩
  have flag := reach_flag reach
  by_contra neither
  obtain ⟨empty, asleep⟩ := not_or.mp neither
  have none : ∑ t, (s.pc t).flags = 0 := by
    refine Finset.sum_eq_zero fun t _ => ?_
    have quiet := still t
    have idle : (s.pc t).runs = false := Bool.eq_false_iff.mpr fun runs => asleep ⟨t, runs⟩
    cases here : s.pc t with
    | idle | task | walk | load | link | claim | look => rfl
    | create =>
      rw [here] at quiet
      cases quiet
    | take | drain | clear =>
      rw [here] at idle
      cases idle
  have one := flag.one
  rcases flag.noticed some with set | ⟨t, looks⟩
  · rw [set, none, Bool.toNat_true] at one
    omega
  · rcases looks with claim | look
    · have quiet := still t
      rw [claim] at quiet
      cases quiet
    · exact asleep ⟨t, by rw [look]; rfl⟩

/-- One task leaves two debts and dies, and another one dies with a third while the release task of
the first two is about to take the stack. -/
def twoTasks : List (Label 3) :=
  [.start 0, .register 0 10 1 1, .register 0 11 1 1, .die 0] ++ List.replicate 5 (.go 0 true) ++
    [.create 0 true, .run 2, .start 1, .register 1 12 1 1, .die 1] ++
    List.replicate 4 (.go 1 true)

def twoTasksEnd : State 3 := (run step succeeds (initial 3) twoTasks).getD (initial 3)

theorem twoTasks_released : twoTasksEnd.pendingDebts = some 12 ∧
    (0 < twoTasksEnd.queued ∨ ∃ t, (twoTasksEnd.pc t).runs = true) := by
  have reach : Reach step succeeds (initial 3) twoTasksEnd :=
    Reach.of_isSome twoTasks (by decide +kernel)
  have top : twoTasksEnd.pendingDebts = some 12 := by decide +kernel
  refine ⟨top, (debts_released reach).2 ?_ (by decide +kernel)⟩
  rw [top]
  exact Option.some_ne_none 12

end JLibSched.Debts
