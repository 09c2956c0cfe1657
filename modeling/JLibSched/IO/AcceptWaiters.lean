import JLibSched.Scopes.Stale

/-!
# The waiters of the acceptor

`TakeOrQueue` tests the token before it takes the lock under which it queues the waiter, and
`CancelWaiters` takes waiters out of the queue under that lock.  A scope that is cancelled in between
is not seen by the one, and its waiter not by the other.

A section under the lock is one step, with the wakes that follow it, which only look at waiters that
have been taken out.  `swept` holds the scopes that had been cancelled when a `CancelWaiters` of
theirs went through the queue, and have not ended since; no step looks at it.
-/

namespace JLibSched.AcceptWaiters

open Transition Cancel

/-- `IoAcceptWaiter`. -/
structure Waiter where
  out : Nat
  resume : Nat
  token : Nat
deriving DecidableEq, Repr

/-- What a party is doing. -/
inductive Pc where
  | idle
  /-- `TakeOrQueue` has tested the token. -/
  | tested (w : Waiter)
  /-- `Stop` has set the flag, and has taken the waiters out. -/
  | stopping
  | leaving
deriving DecidableEq, Repr

structure State (n : Nat) where
  /-- `ready`, its back last. -/
  ready : List Nat
  /-- The waiters from `waitHead`. -/
  waiting : List Waiter
  stopping : Bool
  pc : Fin n → Pc
  scopes : Scopes.State
  /-- What was written to the `out` of a call, 0 for no socket. -/
  given : List (Nat × Nat)
  woken : List Nat
  closed : List Nat
  swept : List Nat

def initial (n : Nat) : State n where
  ready := []
  waiting := []
  stopping := false
  pc := fun _ => .idle
  scopes := Scopes.initial
  given := []
  woken := []
  closed := []
  swept := []

inductive Label (n : Nat) where
  /-- `TakeOrQueue`, up to the test of the token. -/
  | takeOrQueue (p : Fin n) (out resume : Nat) (scope : Option Nat)
  | cancelWaiters (p : Fin n) (scope : Option Nat)
  /-- `Stop`, up to the flag. -/
  | stop (p : Fin n)
  /-- A call takes its next step. -/
  | advance (p : Fin n)
  | tryTake (out : Nat)
  /-- The section of `OnComplete`, with the socket of its slot and whether the accept has
  succeeded. -/
  | complete (accepted : Nat) (completed : Bool)
  | scopes (a : Scopes.Label)
deriving DecidableEq, Repr

variable {n : Nat}

def State.go (s : State n) (p : Fin n) (pc : Pc) : State n :=
  { s with pc := Function.update s.pc p pc }

/-- The token of a scope, or an invalid one. -/
def State.tokenOf (s : State n) : Option Nat → Nat
  | none => kNone
  | some k => s.scopes.raw k

def State.give (s : State n) (out socket : Nat) : State n :=
  { s with given := s.given ++ [(out, socket)] }

/-- A waiter that was taken out of the queue is woken. -/
def State.wake (s : State n) (w : Waiter) (socket : Nat) : State n :=
  { s.give w.out socket with woken := s.woken ++ [w.resume] }

/-- Waiters that get no socket. -/
def State.wakeAll (s : State n) (ws : List Waiter) : State n := ws.foldl (fun s w => s.wake w 0) s

/-- A waiter within the token, or any one. -/
def State.matches (s : State n) (token : Nat) (w : Waiter) : Bool :=
  decide (token = kNone) || isWithin s.scopes.slots w.token token

/-- `CancelWaiters`, with the number that it returns. -/
def State.cancelWaiters (s : State n) (token : Nat) : State n × Nat :=
  let taken := s.waiting.filter (s.matches token)
  ({ s with waiting := s.waiting.filter fun w => !s.matches token w }.wakeAll taken, taken.length)

/-- `TryTake`, with the socket that it returns. -/
def State.tryTake (s : State n) : State n × Nat :=
  match s.ready.getLast? with
  | none => (s, 0)
  | some socket => ({ s with ready := s.ready.dropLast }, socket)

/-- The section of `TakeOrQueue`. -/
def State.takeOrQueue (s : State n) (w : Waiter) : State n :=
  match s.ready.getLast? with
  | some socket => { s with ready := s.ready.dropLast }.give w.out socket
  | none => if s.stopping then s.give w.out 0 else { s with waiting := s.waiting ++ [w] }

/-- The section of `OnComplete`, with the close behind it. -/
def State.onComplete (s : State n) (accepted : Nat) (completed : Bool) : State n :=
  if completed && !s.stopping then
    let skipped := s.waiting.takeWhile fun w => cancelled s.scopes.slots w.token
    match s.waiting.dropWhile fun w => cancelled s.scopes.slots w.token with
    | [] => { s with waiting := [], ready := s.ready ++ [accepted] }.wakeAll skipped.reverse
    | w :: rest => ({ s with waiting := rest }.wake w accepted).wakeAll skipped.reverse
  else { s with closed := s.closed ++ [accepted] }

def advance (s : State n) (p : Fin n) : Option (State n) :=
  match s.pc p with
  | .idle => none
  | .tested w => some ((s.takeOrQueue w).go p .idle)
  | .stopping => some ((s.cancelWaiters kNone).1.go p .leaving)
  | .leaving => some { s.go p .idle with ready := [], closed := s.closed ++ s.ready }

def step (s : State n) : Label n → Option (State n)
  | .takeOrQueue p out resume scope =>
    if s.pc p = .idle ∧ s.scopes.has scope then
      let token := s.tokenOf scope
      some (if cancelled s.scopes.slots token then s.give out 0
        else s.go p (.tested ⟨out, resume, token⟩))
    else none
  | .cancelWaiters p scope =>
    if s.pc p = .idle ∧ s.scopes.has scope then
      let token := s.tokenOf scope
      some { (s.cancelWaiters token).1 with
        swept := if Marked s.scopes.slots token then token :: s.swept else s.swept }
    else none
  | .stop p =>
    if s.pc p = .idle then
      some (if s.stopping then s else { s.go p .stopping with stopping := true })
    else none
  | .advance p => advance s p
  | .tryTake out => some (s.tryTake.1.give out s.tryTake.2)
  | .complete accepted completed => some (s.onComplete accepted completed)
  | .scopes a =>
    (Scopes.step s.scopes a).map fun scopes =>
      { s with
        scopes := scopes
        swept := s.swept.filter fun tok => decide (Marked scopes.slots tok) }

/-! ## Sweeps that miss nobody -/

variable {s t : State n} {a : Label n} {p u : Fin n} {w : Waiter} {tok : Nat}

/-- The party stands between its test of the token and the queue, with a token that is not within
`tok`, or it does not stand there. -/
def Pc.clearOf (slots : Table) (tok : Nat) : Pc → Prop
  | .tested w => isWithin slots w.token tok = false
  | .idle | .stopping | .leaving => True

instance (slots : Table) (tok : Nat) : ∀ pc : Pc, Decidable (pc.clearOf slots tok)
  | .tested w => inferInstanceAs (Decidable (isWithin slots w.token tok = false))
  | .idle | .stopping | .leaving => isTrue trivial

/-- When `CancelWaiters` of a cancelled scope goes through the queue, no `TakeOrQueue` within the
scope stands between its test and the queue; and no slot of a scope comes to its last generation. -/
def queuesClear (s : State n) : Label n → Prop
  | .cancelWaiters _ scope =>
    Marked s.scopes.slots (s.tokenOf scope) →
      ∀ u, (s.pc u).clearOf s.scopes.slots (s.tokenOf scope)
  | .scopes a => Scopes.lasting s.scopes a
  | .takeOrQueue _ _ _ _ | .stop _ | .advance _ | .tryTake _ | .complete _ _ => True

instance (s : State n) : ∀ a, Decidable (queuesClear s a)
  | .cancelWaiters _ scope => inferInstanceAs (Decidable
      (Marked s.scopes.slots (s.tokenOf scope) →
        ∀ u, (s.pc u).clearOf s.scopes.slots (s.tokenOf scope)))
  | .scopes a => inferInstanceAs (Decidable (Scopes.lasting s.scopes a))
  | .takeOrQueue _ _ _ _ | .stop _ | .advance _ | .tryTake _ | .complete _ _ => isTrue trivial

/-- Who waits, or is about to. -/
def State.Comes (s : State n) (w : Waiter) : Prop := w ∈ s.waiting ∨ ∃ u, s.pc u = .tested w

/-- Nobody within a swept scope waits, or is about to. -/
structure Swept (s : State n) : Prop where
  scopes : Scopes.Sound s.scopes
  issued : ∀ w, s.Comes w → s.scopes.Issued w.token
  marked : ∀ tok ∈ s.swept, Marked s.scopes.slots tok
  none : ∀ w, s.Comes w → ∀ tok ∈ s.swept, isWithin s.scopes.slots w.token tok = false

theorem initial_swept : Swept (initial n) where
  scopes := Scopes.initial_sound
  issued w comes := by
    rcases comes with absurd | ⟨u, absurd⟩
    · cases absurd
    · cases absurd
  marked tok absurd := by cases absurd
  none w _ tok absurd := by cases absurd

/-- Nobody comes that did not come before. -/
theorem Swept.shrink (swept : Swept s) (scopes : t.scopes = s.scopes) (same : t.swept = s.swept)
    (comes : ∀ w, t.Comes w → s.Comes w) : Swept t where
  scopes := by
    rw [scopes]
    exact swept.scopes
  issued w here := by
    rw [scopes]
    exact swept.issued w (comes w here)
  marked := by
    rw [scopes, same]
    exact swept.marked
  none w here := by
    rw [scopes, same]
    exact swept.none w (comes w here)

theorem wakeAll_frame (ws : List Waiter) : (s.wakeAll ws).waiting = s.waiting ∧
    (s.wakeAll ws).pc = s.pc ∧ (s.wakeAll ws).scopes = s.scopes ∧
    (s.wakeAll ws).swept = s.swept := by
  induction ws generalizing s with
  | nil => exact ⟨rfl, rfl, rfl, rfl⟩
  | cons w ws ih =>
    obtain ⟨waiting, pc, scopes, swept⟩ := ih (s := s.wake w 0)
    exact ⟨waiting, pc, scopes, swept⟩

/-- A party goes where it is about to queue nobody. -/
theorem comes_go {pc : Pc} (other : ∀ w, pc ≠ .tested w) (here : (s.go p pc).Comes w) :
    s.Comes w := by
  rcases here with waits | ⟨u, tested⟩
  · exact .inl waits
  · have tested : Function.update s.pc p pc u = .tested w := tested
    rcases eq_or_ne u p with rfl | apart
    · rw [Function.update_self] at tested
      exact absurd tested (other w)
    · rw [Function.update_of_ne apart] at tested
      exact .inr ⟨u, tested⟩

/-- A token that is not cancelled lies within no swept scope. -/
theorem Swept.alert (swept : Swept s) {raw : Nat} (alert : cancelled s.scopes.slots raw = false)
    (mem : tok ∈ s.swept) : isWithin s.scopes.slots raw tok = false := by
  by_contra within
  have cancels := isWithin_cancelled (swept.marked tok mem) (Bool.eq_true_of_not_eq_false within)
  rw [alert] at cancels
  cases cancels

/-- The tokens of scopes. -/
theorem tokenOf_issued {scope : Option Nat} (has : s.scopes.has scope) :
    s.scopes.Issued (s.tokenOf scope) := by
  cases scope with
  | none => exact .inl rfl
  | some k => exact .inr ⟨k, has k rfl, rfl⟩

/-- `TakeOrQueue` has found its token not cancelled. -/
theorem Swept.test (swept : Swept s) {scope : Option Nat} {out resume : Nat}
    (has : s.scopes.has scope) (alert : cancelled s.scopes.slots (s.tokenOf scope) = false) :
    Swept (s.go p (.tested ⟨out, resume, s.tokenOf scope⟩)) := by
  have cases' {w : Waiter} (here : (s.go p (.tested ⟨out, resume, s.tokenOf scope⟩)).Comes w) :
      s.Comes w ∨ w.token = s.tokenOf scope := by
    rcases here with waits | ⟨u, tested⟩
    · exact .inl (.inl waits)
    · have tested : Function.update s.pc p (.tested ⟨out, resume, s.tokenOf scope⟩) u = .tested w :=
        tested
      rcases eq_or_ne u p with rfl | apart
      · rw [Function.update_self] at tested
        cases tested
        exact .inr rfl
      · rw [Function.update_of_ne apart] at tested
        exact .inl (.inr ⟨u, tested⟩)
  refine ⟨swept.scopes, fun w here => ?_, swept.marked, fun w here tok mem => ?_⟩
  · rcases cases' here with before | same
    · exact swept.issued w before
    · rw [same]
      exact tokenOf_issued has
  · rcases cases' here with before | same
    · exact swept.none w before tok mem
    · rw [same]
      exact swept.alert alert mem

/-- Whoever queues was about to. -/
theorem comes_takeOrQueue {w' : Waiter} (here : s.pc p = .tested w)
    (comes : ((s.takeOrQueue w).go p .idle).Comes w') : s.Comes w' := by
  have comes := comes_go (fun _ absurd => by cases absurd) comes
  unfold State.takeOrQueue at comes
  split at comes
  · exact comes
  · split at comes
    · exact comes
    · rcases comes with waits | tested
      · rcases List.mem_append.mp waits with before | self
        · exact .inl before
        · rw [List.mem_singleton.mp self]
          exact .inr ⟨p, here⟩
      · exact .inr tested

theorem takeOrQueue_frame : (s.takeOrQueue w).scopes = s.scopes ∧
    (s.takeOrQueue w).swept = s.swept := by
  unfold State.takeOrQueue
  split
  · exact ⟨rfl, rfl⟩
  · split <;> exact ⟨rfl, rfl⟩

/-- Those who match are gone. -/
theorem comes_cancelWaiters (comes : (s.cancelWaiters tok).1.Comes w) :
    w ∈ s.waiting ∧ s.matches tok w = false ∨ ∃ u, s.pc u = .tested w := by
  obtain ⟨waiting, pc, -, -⟩ := wakeAll_frame
    (s := { s with waiting := s.waiting.filter fun w => !s.matches tok w })
    (s.waiting.filter (s.matches tok))
  rcases comes with waits | ⟨u, tested⟩
  · have waits : w ∈ ({ s with waiting := s.waiting.filter fun w => !s.matches tok w }.wakeAll
        (s.waiting.filter (s.matches tok))).waiting := waits
    rw [waiting] at waits
    obtain ⟨mem, kept⟩ := List.mem_filter.mp waits
    exact .inl ⟨mem, by simpa using kept⟩
  · have tested : ({ s with waiting := s.waiting.filter fun w => !s.matches tok w }.wakeAll
        (s.waiting.filter (s.matches tok))).pc u = .tested w := tested
    rw [pc] at tested
    exact .inr ⟨u, tested⟩

theorem cancelWaiters_frame : (s.cancelWaiters tok).1.scopes = s.scopes ∧
    (s.cancelWaiters tok).1.swept = s.swept := by
  obtain ⟨-, -, scopes, swept⟩ := wakeAll_frame
    (s := { s with waiting := s.waiting.filter fun w => !s.matches tok w })
    (s.waiting.filter (s.matches tok))
  exact ⟨scopes, swept⟩

theorem Swept.sweep (swept : Swept s)
    (clear : Marked s.scopes.slots tok → ∀ u, (s.pc u).clearOf s.scopes.slots tok) :
    Swept { (s.cancelWaiters tok).1 with
      swept := if Marked s.scopes.slots tok then tok :: s.swept else s.swept } := by
  have scopes : (s.cancelWaiters tok).1.scopes = s.scopes := cancelWaiters_frame.1
  have before {w : Waiter} (here : (s.cancelWaiters tok).1.Comes w) : s.Comes w :=
    (comes_cancelWaiters here).imp_left And.left
  constructor
  case scopes =>
    show Scopes.Sound (s.cancelWaiters tok).1.scopes
    rw [scopes]
    exact swept.scopes
  case issued =>
    intro w here
    show Scopes.State.Issued (s.cancelWaiters tok).1.scopes _
    rw [scopes]
    exact swept.issued w (before here)
  case marked =>
    intro tok' mem
    show Marked (s.cancelWaiters tok).1.scopes.slots tok'
    rw [scopes]
    simp only at mem
    split at mem
    · rename_i marked
      rcases List.mem_cons.mp mem with rfl | old
      · exact marked
      · exact swept.marked tok' old
    · exact swept.marked tok' mem
  case none =>
    intro w here tok' mem
    show isWithin (s.cancelWaiters tok).1.scopes.slots w.token tok' = false
    rw [scopes]
    simp only at mem
    split at mem
    · rename_i marked
      rcases List.mem_cons.mp mem with rfl | old
      · rcases comes_cancelWaiters here with ⟨-, kept⟩ | ⟨u, tested⟩
        · exact (Bool.or_eq_false_iff.mp kept).2
        · have cleared := clear marked u
          rw [tested] at cleared
          exact cleared
      · exact swept.none w (before here) tok' old
    · exact swept.none w (before here) tok' mem

/-- Whoever is left in the queue was in it. -/
theorem onComplete_shrinks (accepted : Nat) (completed : Bool) :
    (s.onComplete accepted completed).scopes = s.scopes ∧
    (s.onComplete accepted completed).swept = s.swept ∧
    ∀ w, (s.onComplete accepted completed).Comes w → s.Comes w := by
  simp only [State.onComplete]
  split
  · cases rest : s.waiting.dropWhile fun w => cancelled s.scopes.slots w.token with
    | nil =>
      obtain ⟨waiting, pc, scopes, swept⟩ := wakeAll_frame
        (s := { s with waiting := [], ready := s.ready ++ [accepted] })
        (s.waiting.takeWhile fun w => cancelled s.scopes.slots w.token).reverse
      refine ⟨scopes, swept, fun w comes => ?_⟩
      unfold State.Comes at comes
      rw [waiting, pc] at comes
      exact .inr (comes.resolve_left List.not_mem_nil)
    | cons w rest' =>
      obtain ⟨waiting, pc, scopes, swept⟩ := wakeAll_frame
        (s := { s with waiting := rest' }.wake w accepted)
        (s.waiting.takeWhile fun w => cancelled s.scopes.slots w.token).reverse
      refine ⟨scopes, swept, fun w' comes => ?_⟩
      unfold State.Comes at comes
      rw [waiting, pc] at comes
      refine comes.imp_left fun mem => ?_
      have suffix := List.dropWhile_sublist (l := s.waiting)
        fun w => cancelled s.scopes.slots w.token
      rw [rest] at suffix
      exact suffix.subset (List.mem_cons_of_mem _ mem)
  · exact ⟨rfl, rfl, fun w comes => comes⟩

theorem Swept.scopes' (swept : Swept s) {b : Scopes.Label} {scopes : Scopes.State}
    (allowed : Scopes.lasting s.scopes b) (stepped : Scopes.step s.scopes b = some scopes) :
    Swept { s with
      scopes := scopes
      swept := s.swept.filter fun tok => decide (Marked scopes.slots tok) } where
  scopes := swept.scopes.step allowed stepped
  issued w here := (swept.scopes.grows stepped).issued (swept.issued w here)
  marked tok mem := of_decide_eq_true (List.mem_filter.mp mem).2
  none w here tok mem := by
    have old := swept.none w here tok (List.mem_filter.mp mem).1
    by_contra within
    have before := swept.scopes.isWithin_back allowed stepped (swept.issued w here)
      (Bool.eq_true_of_not_eq_false within)
    rw [old] at before
    cases before

theorem Swept.advance (swept : Swept s) (stepped : AcceptWaiters.advance s p = some t) : Swept t := by
  unfold AcceptWaiters.advance at stepped
  cases here : s.pc p with
  | idle =>
    rw [here] at stepped
    cases stepped
  | tested w =>
    rw [here] at stepped
    cases stepped
    obtain ⟨scopes, same⟩ := takeOrQueue_frame (s := s) (w := w)
    exact swept.shrink scopes same fun w' comes => comes_takeOrQueue here comes
  | stopping =>
    rw [here] at stepped
    cases stepped
    obtain ⟨scopes, same⟩ : (s.cancelWaiters kNone).1.scopes = s.scopes ∧
        (s.cancelWaiters kNone).1.swept = s.swept := cancelWaiters_frame
    refine swept.shrink scopes same fun w' comes => ?_
    have comes := comes_go (fun _ absurd => by cases absurd) comes
    exact (comes_cancelWaiters comes).imp_left And.left
  | leaving =>
    rw [here] at stepped
    cases stepped
    have other : ∀ w, Pc.idle ≠ .tested w := fun w absurd => by cases absurd
    exact swept.shrink rfl rfl fun w' comes => comes_go other comes

theorem Swept.step (swept : Swept s) (allowed : queuesClear s a)
    (stepped : AcceptWaiters.step s a = some t) : Swept t := by
  cases a with
  | takeOrQueue p out resume scope =>
    simp only [AcceptWaiters.step] at stepped
    split at stepped
    · rename_i may
      cases stepped
      split
      · exact swept.shrink rfl rfl fun w comes => comes
      · rename_i alert
        exact swept.test may.2 (Bool.eq_false_of_not_eq_true alert)
    · cases stepped
  | cancelWaiters p scope =>
    simp only [AcceptWaiters.step] at stepped
    split at stepped
    · cases stepped
      exact swept.sweep allowed
    · cases stepped
  | stop p =>
    simp only [AcceptWaiters.step] at stepped
    split at stepped
    · cases stepped
      split
      · exact swept
      · have other : ∀ w, Pc.stopping ≠ .tested w := fun w absurd => by cases absurd
        exact swept.shrink rfl rfl fun w comes => comes_go other comes
    · cases stepped
  | advance p => exact swept.advance stepped
  | tryTake out =>
    cases stepped
    unfold State.tryTake
    cases s.ready.getLast? with
    | none => exact swept.shrink rfl rfl fun w comes => comes
    | some socket => exact swept.shrink rfl rfl fun w comes => comes
  | complete accepted completed =>
    cases stepped
    obtain ⟨scopes, same, comes⟩ := onComplete_shrinks (s := s) accepted completed
    exact swept.shrink scopes same comes
  | scopes b =>
    simp only [AcceptWaiters.step] at stepped
    obtain ⟨scopes, moved, rfl⟩ := Option.map_eq_some_iff.mp stepped
    exact swept.scopes' allowed moved

theorem swept_of_reach (reach : Reach AcceptWaiters.step queuesClear (initial n) s) : Swept s :=
  reach.invariant initial_swept fun swept allowed stepped => swept.step allowed stepped

end JLibSched.AcceptWaiters
