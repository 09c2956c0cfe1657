import JLibSched.IO.AcceptWaiters
import JLibSched.Lib.Ledger

/-!
# Sockets and waiters of the acceptor

A socket that `OnComplete` has taken out of its slot stands in `ready` until somebody takes it, has
been given to one call, or was closed; that of an accept that has failed is closed, and before `Stop`
no other.  A waiter that was queued is woken once.  Either `ready` is empty or nobody waits, and once
`Stop` is done both are.
-/

namespace JLibSched.AcceptWaiters

open Transition Cancel Ledger

variable {n : Nat} {s t : State n} {a : Label n} {p : Fin n} {w : Waiter} {tok : Nat}

/-! ## The books -/

/-- A socket, and not the 0 for none. -/
def sockets (l : List Nat) : List Nat := l.filter fun k => k != 0

@[simp] theorem sockets_append (l m : List Nat) : sockets (l ++ m) = sockets l ++ sockets m :=
  List.filter_append ..

@[simp] theorem sockets_nil : sockets [] = [] := rfl

theorem sockets_cons (k : Nat) (l : List Nat) : sockets (k :: l) = sockets [k] ++ sockets l :=
  sockets_append [k] l

@[simp] theorem sockets_zero (l : List Nat) : sockets (0 :: l) = sockets l := rfl

@[simp] theorem sockets_none (k : Nat) : sockets (List.replicate k 0) = [] := by
  induction k with
  | zero => rfl
  | succ k ih => exact ih

/-- The sockets that the acceptor has, has given away or has closed. -/
def State.kept (s : State n) : List Nat := sockets (s.ready ++ s.given.map Prod.snd ++ s.closed)

/-- The socket that an `OnComplete` takes out of its slot. -/
def taken (_ : State n) : Label n → List Nat
  | .complete socket _ => sockets [socket]
  | _ => []

/-- The socket of an accept that has failed. -/
def failed (_ : State n) : Label n → List Nat
  | .complete socket completed => if completed then [] else [socket]
  | _ => []

/-- The waiter that a step queues; its `TakeOrQueue` returns false. -/
def queues (s : State n) : Label n → List Waiter
  | .advance p =>
    match s.pc p with
    | .tested w => if s.ready = [] ∧ s.stopping = false then [w] else []
    | _ => []
  | _ => []

/-- The tasks of the waiters that were woken, and of those that wait. -/
def State.served (s : State n) : List Nat := s.woken ++ s.waiting.map Waiter.resume

/-- `Stop` has set its flag and is not done. -/
def State.Stopping (s : State n) : Prop := ∃ p, s.pc p = .stopping ∨ s.pc p = .leaving

structure Kept (s : State n) (as : List (Label n)) : Prop where
  sockets : s.kept.Perm (collect step taken (initial n) as)
  /-- What a failed accept leaves is closed, and until `Stop` nothing else is. -/
  left : (collect step failed (initial n) as).Sublist s.closed
  running : s.stopping = false → s.closed = collect step failed (initial n) as
  woken : s.served.Perm ((collect step queues (initial n) as).map Waiter.resume)
  order : s.waiting.Sublist (collect step queues (initial n) as)
  apart : s.ready = [] ∨ s.waiting = []
  stopped : s.stopping = true → ¬ s.Stopping → s.ready = [] ∧ s.waiting = []

/-! ## What the sections do -/

theorem wakeAll_eq (ws : List Waiter) : s.wakeAll ws =
    { s with
      given := s.given ++ ws.map fun w => (w.out, 0)
      woken := s.woken ++ ws.map Waiter.resume } := by
  induction ws generalizing s with
  | nil => simp [State.wakeAll]
  | cons w ws ih =>
    show (s.wake w 0).wakeAll ws = _
    rw [ih]
    simp [State.wake, State.give]

/-- A list is what a predicate picks and what it leaves. -/
theorem picked_perm (l : List Waiter) (pick : Waiter → Bool) :
    (l.filter pick ++ l.filter fun w => !pick w).Perm l :=
  List.filter_append_perm pick l

theorem cancelWaiters_books : (s.cancelWaiters tok).1.kept = s.kept ∧
    (s.cancelWaiters tok).1.served.Perm s.served ∧
    (s.cancelWaiters tok).1.waiting.Sublist s.waiting := by
  refine ⟨?_, ?_, ?_⟩
  · simp [State.cancelWaiters, wakeAll_eq, State.kept, Function.comp_def]
  · have taken := (picked_perm s.waiting (s.matches tok)).map Waiter.resume
    rw [List.map_append] at taken
    simp only [State.cancelWaiters, wakeAll_eq, State.served, List.append_assoc]
    exact taken.append_left s.woken
  · simp only [State.cancelWaiters, wakeAll_eq]
    exact List.filter_sublist

/-- Somebody takes the last socket. -/
theorem take_perm {socket : Nat} (out : Nat) (last : s.ready.getLast? = some socket) :
    ({ s with ready := s.ready.dropLast }.give out socket).kept.Perm s.kept := by
  obtain ⟨front, same⟩ := List.getLast?_eq_some_iff.mp last
  rw [List.perm_iff_count]
  intro k
  simp only [State.kept, State.give, same, sockets_append, List.dropLast_concat, List.map_append,
    List.map_cons, List.map_nil, List.count_append]
  omega

theorem tryTake_books (out : Nat) : (s.tryTake.1.give out s.tryTake.2).kept.Perm s.kept := by
  simp only [State.tryTake]
  cases last : s.ready.getLast? with
  | none => simp [State.kept, State.give]
  | some socket => exact take_perm out last

theorem takeOrQueue_books : (s.takeOrQueue w).kept.Perm s.kept := by
  simp only [State.takeOrQueue]
  cases last : s.ready.getLast? with
  | none =>
    simp only
    split
    · simp [State.kept, State.give]
    · exact .rfl
  | some socket => exact take_perm w.out last

theorem onComplete_sockets (socket : Nat) (completed : Bool) :
    (s.onComplete socket completed).kept.Perm (s.kept ++ taken s (.complete socket completed)) := by
  rw [List.perm_iff_count]
  intro k
  simp only [State.onComplete]
  split
  · split
    · simp [State.kept, taken, wakeAll_eq, Function.comp_def]
      rw [sockets_cons]
      simp
      omega
    · simp [State.kept, taken, wakeAll_eq, State.wake, State.give, Function.comp_def]
      rw [sockets_cons]
      simp
      omega
  · simp [State.kept, taken]

theorem onComplete_waiters (socket : Nat) (completed : Bool) :
    (s.onComplete socket completed).served.Perm s.served ∧
      (s.onComplete socket completed).waiting.Sublist s.waiting := by
  have parts := List.takeWhile_append_dropWhile (l := s.waiting)
    (p := fun w => cancelled s.scopes.slots w.token)
  simp only [State.onComplete]
  split
  · split
    · rename_i nobody
      rw [nobody, List.append_nil] at parts
      rw [wakeAll_eq]
      refine ⟨?_, List.nil_sublist _⟩
      simp only [State.served, parts, List.map_nil, List.append_nil]
      exact ((List.reverse_perm _).map _).append_left _
    · rename_i w rest first
      rw [first] at parts
      rw [wakeAll_eq]
      constructor
      · rw [List.perm_iff_count]
        intro k
        have whole := congrArg (fun l => (l.map Waiter.resume).count k) parts
        simp [State.served, State.wake, State.give, List.count_cons] at whole ⊢
        omega
      · simp only [State.wake, State.give]
        conv => rhs; rw [← parts]
        exact (List.sublist_cons_self w rest).trans (List.sublist_append_right _ _)
  · exact ⟨.rfl, List.Sublist.refl _⟩

/-! ## The books balance -/

theorem balances_sockets : Balances (step (n := n)) anyStep taken State.kept := by
  rintro s a t - stepped
  cases a with
  | takeOrQueue p out resume scope =>
    simp only [step] at stepped
    split at stepped
    · cases stepped
      split <;> simp [State.kept, State.give, State.go, taken]
    · cases stepped
  | cancelWaiters p scope =>
    simp only [step] at stepped
    split at stepped
    · cases stepped
      simp only [taken, List.append_nil]
      exact .of_eq cancelWaiters_books.1
    · cases stepped
  | stop p =>
    simp only [step] at stepped
    split at stepped
    · cases stepped
      simp only [taken, List.append_nil]
      split <;> exact .rfl
    · cases stepped
  | advance p =>
    simp only [step, advance] at stepped
    simp only [taken, List.append_nil]
    split at stepped
    · cases stepped
    · cases stepped
      exact takeOrQueue_books
    · cases stepped
      exact .of_eq cancelWaiters_books.1
    · cases stepped
      rw [List.perm_iff_count]
      intro k
      simp only [State.kept, State.go, sockets_append, sockets_nil, List.count_append,
        List.count_nil]
      omega
  | tryTake out =>
    cases stepped
    simp only [taken, List.append_nil]
    exact tryTake_books out
  | complete socket completed =>
    cases stepped
    exact onComplete_sockets socket completed
  | scopes b =>
    simp only [step] at stepped
    obtain ⟨scopes, -, rfl⟩ := Option.map_eq_some_iff.mp stepped
    simp only [taken, List.append_nil]
    exact .rfl

/-- The waiter that a `TakeOrQueue` queues goes to the end. -/
theorem takeOrQueue_waiters (here : s.pc p = .tested w) :
    (s.takeOrQueue w).waiting = s.waiting ++ queues s (.advance p) ∧
      (s.takeOrQueue w).woken = s.woken := by
  simp only [State.takeOrQueue, queues, here]
  cases last : s.ready.getLast? with
  | none =>
    have empty : s.ready = [] := List.getLast?_eq_none_iff.mp last
    cases flag : s.stopping <;> simp [empty, State.give]
  | some socket =>
    have some_ready : s.ready ≠ [] := by
      rintro empty
      rw [empty] at last
      cases last
    simp [some_ready, State.give]

/-- What a step does to the waiters. -/
structure Serves (s t : State n) (queued : List Waiter) : Prop where
  served : t.served.Perm (s.served ++ queued.map Waiter.resume)
  waiting : t.waiting.Sublist (s.waiting ++ queued)

theorem Serves.calm (woken : t.woken = s.woken) (waiting : t.waiting = s.waiting) :
    Serves s t [] where
  served := by simp [State.served, woken, waiting]
  waiting := by simp [waiting]

theorem Serves.of_books (books : t.served.Perm s.served ∧ t.waiting.Sublist s.waiting) :
    Serves s t [] where
  served := by
    rw [List.map_nil, List.append_nil]
    exact books.1
  waiting := by
    rw [List.append_nil]
    exact books.2

theorem serves_step (stepped : step s a = some t) : Serves s t (queues s a) := by
  cases a with
  | takeOrQueue p out resume scope | stop p =>
    simp only [step] at stepped
    split at stepped
    · cases stepped
      split <;> exact .calm rfl rfl
    · cases stepped
  | cancelWaiters p scope =>
    simp only [step] at stepped
    split at stepped
    · cases stepped
      exact .of_books cancelWaiters_books.2
    · cases stepped
  | advance p =>
    simp only [step, advance] at stepped
    cases here : s.pc p with
    | idle =>
      simp only [here] at stepped
      cases stepped
    | tested w =>
      simp only [here] at stepped
      cases stepped
      obtain ⟨waiting, woken⟩ := takeOrQueue_waiters here
      constructor
      · simp only [State.served, State.go, waiting, woken, List.map_append]
        rw [List.append_assoc]
      · simp only [State.go, waiting]
        exact List.Sublist.refl _
    | stopping =>
      simp only [here] at stepped
      cases stepped
      simp only [queues, here]
      exact .of_books cancelWaiters_books.2
    | leaving =>
      simp only [here] at stepped
      cases stepped
      simp only [queues, here]
      exact .calm rfl rfl
  | tryTake out =>
    cases stepped
    simp only [State.tryTake]
    cases last : s.ready.getLast? <;> exact .calm rfl rfl
  | complete socket completed =>
    cases stepped
    exact .of_books (onComplete_waiters socket completed)
  | scopes b =>
    simp only [step] at stepped
    obtain ⟨scopes, -, rfl⟩ := Option.map_eq_some_iff.mp stepped
    exact .calm rfl rfl

/-! ## Ready sockets and waiters -/

/-- What `Stop` has done so far. -/
structure Apart (s : State n) : Prop where
  apart : s.ready = [] ∨ s.waiting = []
  queue : s.stopping = true → (∃ p, s.pc p = .stopping) ∨ s.waiting = []
  ready : s.stopping = true → s.Stopping ∨ s.ready = []

theorem initial_apart : Apart (initial n) := ⟨.inl rfl, nofun, nofun⟩

/-- Nothing becomes ready and nobody is queued. -/
theorem Apart.shrink (apart : Apart s) (ready : t.ready.Sublist s.ready)
    (waiting : t.waiting.Sublist s.waiting) (stopping : t.stopping = s.stopping)
    (pcs : ∀ p, s.pc p = .stopping ∨ s.pc p = .leaving → t.pc p = s.pc p) : Apart t where
  apart := by
    rcases apart.apart with empty | empty
    · exact .inl (List.sublist_nil.mp (empty ▸ ready))
    · exact .inr (List.sublist_nil.mp (empty ▸ waiting))
  queue flag := by
    rcases apart.queue (stopping ▸ flag) with ⟨p, here⟩ | empty
    · exact .inl ⟨p, (pcs p (.inl here)).trans here⟩
    · exact .inr (List.sublist_nil.mp (empty ▸ waiting))
  ready flag := by
    rcases apart.ready (stopping ▸ flag) with ⟨p, here⟩ | empty
    · refine .inl ⟨p, ?_⟩
      rw [pcs p here]
      exact here
    · exact .inr (List.sublist_nil.mp (empty ▸ ready))

/-- The steps of the other parties. -/
theorem go_apart {pc : Pc} (free : s.pc p ≠ .stopping ∧ s.pc p ≠ .leaving) (u : Fin n)
    (here : s.pc u = .stopping ∨ s.pc u = .leaving) : (s.go p pc).pc u = s.pc u := by
  refine Function.update_of_ne ?_ _ _
  rintro rfl
  exact here.elim free.1 free.2

theorem Apart.takeOrQueue (apart : Apart s) (here : s.pc p = .tested w) :
    Apart ((s.takeOrQueue w).go p .idle) := by
  have pcs (t : State n) (same : t.pc = s.pc) (u : Fin n)
      (there : s.pc u = .stopping ∨ s.pc u = .leaving) : (t.go p .idle).pc u = s.pc u := by
    rw [← same] at there ⊢
    exact go_apart (by rw [same, here]; simp) u there
  simp only [State.takeOrQueue]
  cases last : s.ready.getLast? with
  | some socket =>
    exact apart.shrink (List.dropLast_sublist _) (.refl _) rfl (pcs _ rfl)
  | none =>
    have empty : s.ready = [] := List.getLast?_eq_none_iff.mp last
    simp only
    split
    · exact apart.shrink (.refl _) (.refl _) rfl (pcs _ rfl)
    · -- it queues over an empty `ready`, and before `Stop`
      rename_i running
      exact ⟨.inl empty, fun flag => absurd flag running, fun flag => absurd flag running⟩

theorem Apart.onComplete (apart : Apart s) (socket : Nat) (completed : Bool) :
    Apart (s.onComplete socket completed) := by
  have waiting := (onComplete_waiters (s := s) socket completed).2
  simp only [State.onComplete] at waiting ⊢
  split
  · rename_i goes
    have running : ¬ s.stopping = true := by simpa using (Bool.and_eq_true_iff.mp goes).2
    split
    · rw [wakeAll_eq]
      exact ⟨.inr rfl, fun flag => absurd flag running, fun flag => absurd flag running⟩
    · rename_i first
      rw [if_pos goes, first] at waiting
      simp only [wakeAll_eq, State.wake, State.give] at waiting ⊢
      exact apart.shrink (.refl _) waiting rfl fun _ _ => rfl
  · exact apart.shrink (.refl _) (.refl _) rfl fun _ _ => rfl

theorem Apart.advance (apart : Apart s) (stepped : AcceptWaiters.advance s p = some t) :
    Apart t := by
  simp only [AcceptWaiters.advance] at stepped
  cases here : s.pc p with
  | idle =>
    simp only [here] at stepped
    cases stepped
  | tested w =>
    simp only [here] at stepped
    cases stepped
    exact apart.takeOrQueue here
  | stopping =>
    simp only [here] at stepped
    cases stepped
    have nobody : ((s.cancelWaiters kNone).1.go p .leaving).waiting = [] := by
      simp [State.cancelWaiters, wakeAll_eq, State.go, State.matches]
    have leaves : ((s.cancelWaiters kNone).1.go p .leaving).pc p = .leaving :=
      Function.update_self _ _ _
    exact ⟨.inr nobody, fun _ => .inr nobody, fun _ => .inl ⟨p, .inr leaves⟩⟩
  | leaving =>
    simp only [here] at stepped
    cases stepped
    refine ⟨.inl rfl, fun flag => ?_, fun _ => .inr rfl⟩
    rcases apart.queue flag with ⟨u, there⟩ | empty
    · refine .inl ⟨u, (Function.update_of_ne ?_ _ _).trans there⟩
      rintro rfl
      rw [here] at there
      cases there
    · exact .inr empty

theorem Apart.step (apart : Apart s) (stepped : AcceptWaiters.step s a = some t) : Apart t := by
  cases a with
  | takeOrQueue p out resume scope =>
    simp only [AcceptWaiters.step] at stepped
    split at stepped
    · rename_i may
      cases stepped
      split
      · exact apart.shrink (.refl _) (.refl _) rfl fun _ _ => rfl
      · exact apart.shrink (.refl _) (.refl _) rfl (go_apart (by rw [may.1]; simp))
    · cases stepped
  | cancelWaiters p scope =>
    simp only [AcceptWaiters.step] at stepped
    split at stepped
    · cases stepped
      have fewer : (s.cancelWaiters (s.tokenOf scope)).1.waiting.Sublist s.waiting :=
        cancelWaiters_books.2.2
      simp only [State.cancelWaiters, wakeAll_eq] at fewer ⊢
      exact apart.shrink (.refl _) fewer rfl fun _ _ => rfl
    · cases stepped
  | stop p =>
    simp only [AcceptWaiters.step] at stepped
    split at stepped
    · cases stepped
      split
      · exact apart
      · have stops : (s.go p .stopping).pc p = .stopping := Function.update_self _ _ _
        exact ⟨apart.apart, fun _ => .inl ⟨p, stops⟩, fun _ => .inl ⟨p, .inl stops⟩⟩
    · cases stepped
  | advance p => exact apart.advance stepped
  | tryTake out =>
    cases stepped
    simp only [State.tryTake]
    cases last : s.ready.getLast? with
    | none => exact apart.shrink (.refl _) (.refl _) rfl fun _ _ => rfl
    | some socket =>
      exact apart.shrink (List.dropLast_sublist _) (.refl _) rfl fun _ _ => rfl
  | complete socket completed =>
    cases stepped
    exact apart.onComplete socket completed
  | scopes b =>
    simp only [AcceptWaiters.step] at stepped
    obtain ⟨scopes, -, rfl⟩ := Option.map_eq_some_iff.mp stepped
    exact apart.shrink (.refl _) (.refl _) rfl fun _ _ => rfl

/-! ## What is closed -/

theorem stopping_of_go {pc : Pc} (other : pc ≠ .stopping ∧ pc ≠ .leaving)
    (stopping : (s.go p pc).Stopping) : s.Stopping := by
  obtain ⟨u, here⟩ := stopping
  have here : Function.update s.pc p pc u = .stopping ∨ Function.update s.pc p pc u = .leaving :=
    here
  rcases eq_or_ne u p with rfl | apart
  · rw [Function.update_self] at here
    exact (here.elim other.1 other.2).elim
  · rw [Function.update_of_ne apart] at here
    exact ⟨u, here⟩

theorem takeOrQueue_stop : (s.takeOrQueue w).pc = s.pc ∧
    (s.takeOrQueue w).stopping = s.stopping ∧ (s.takeOrQueue w).closed = s.closed := by
  simp only [State.takeOrQueue]
  split
  · exact ⟨rfl, rfl, rfl⟩
  · split <;> exact ⟨rfl, rfl, rfl⟩

theorem tryTake_stop : s.tryTake.1.pc = s.pc ∧ s.tryTake.1.stopping = s.stopping ∧
    s.tryTake.1.closed = s.closed := by
  simp only [State.tryTake]
  split <;> exact ⟨rfl, rfl, rfl⟩

theorem onComplete_stop (socket : Nat) (completed : Bool) :
    (s.onComplete socket completed).pc = s.pc ∧
    (s.onComplete socket completed).stopping = s.stopping := by
  simp only [State.onComplete]
  split
  · split <;> simp only [wakeAll_eq, State.wake, State.give, and_self]
  · exact ⟨rfl, rfl⟩

/-- Who is in `Stop` has set its flag. -/
def State.Flagged (s : State n) : Prop := s.Stopping → s.stopping = true

/-- What a step closes. -/
structure Closes (s t : State n) (sockets : List Nat) : Prop where
  flagged : t.Flagged
  left : (s.closed ++ sockets).Sublist t.closed
  running : t.stopping = false → s.stopping = false ∧ t.closed = s.closed ++ sockets

theorem Closes.calm (flagged : t.Flagged) (stopping : t.stopping = false → s.stopping = false)
    (closed : t.closed = s.closed) : Closes s t [] where
  flagged := flagged
  left := by rw [closed, List.append_nil]
  running flag := ⟨stopping flag, by rw [closed, List.append_nil]⟩

theorem closes_step (flagged : s.Flagged) (stepped : step s a = some t) :
    Closes s t (failed s a) := by
  cases a with
  | takeOrQueue p out resume scope =>
    simp only [step] at stepped
    split at stepped
    · cases stepped
      split
      · exact .calm flagged id rfl
      · exact .calm (fun stopping => flagged (stopping_of_go (by simp) stopping)) id rfl
    · cases stepped
  | cancelWaiters p scope =>
    simp only [step] at stepped
    split at stepped
    · cases stepped
      simp only [State.cancelWaiters, wakeAll_eq]
      exact .calm flagged id rfl
    · cases stepped
  | stop p =>
    simp only [step] at stepped
    split at stepped
    · cases stepped
      split
      · exact .calm flagged id rfl
      · exact .calm (fun _ => rfl) (fun flag => by cases flag) rfl
    · cases stepped
  | advance p =>
    simp only [step, advance] at stepped
    cases here : s.pc p with
    | idle =>
      simp only [here] at stepped
      cases stepped
    | tested w =>
      simp only [here] at stepped
      cases stepped
      obtain ⟨pc, stopping, closed⟩ := takeOrQueue_stop (s := s) (w := w)
      refine .calm (fun stops => ?_) (fun flag => by rw [← stopping]; exact flag) closed
      have stops := stopping_of_go (by simp) stops
      rw [State.Stopping, pc] at stops
      exact stopping.trans (flagged stops)
    | stopping =>
      simp only [here] at stepped
      cases stepped
      have set := flagged ⟨p, .inl here⟩
      simp only [State.cancelWaiters, wakeAll_eq]
      exact .calm (fun _ => set) id rfl
    | leaving =>
      simp only [here] at stepped
      cases stepped
      have set := flagged ⟨p, .inr here⟩
      refine ⟨fun _ => set, ?_, fun flag => by cases set.symm.trans flag⟩
      simp only [failed, List.append_nil]
      exact List.sublist_append_left _ _
  | tryTake out =>
    cases stepped
    obtain ⟨pc, stopping, closed⟩ := tryTake_stop (s := s)
    refine .calm (fun stops => ?_) (fun flag => by rw [← stopping]; exact flag) closed
    have stops : s.tryTake.1.Stopping := stops
    rw [State.Stopping, pc] at stops
    exact stopping.trans (flagged stops)
  | complete socket completed =>
    cases stepped
    obtain ⟨pc, stopping⟩ := onComplete_stop (s := s) socket completed
    constructor
    case flagged =>
      intro stops
      rw [State.Stopping, pc] at stops
      exact stopping.trans (flagged stops)
    all_goals simp only [State.onComplete, failed]
    case left =>
      cases completed with
      | false => exact .refl _
      | true =>
        simp only [if_true, List.append_nil]
        split
        · split
          · rw [wakeAll_eq]
          · rw [wakeAll_eq]
            exact .refl _
        · exact List.sublist_append_left _ _
    case running =>
      intro flag
      have running : s.stopping = false := stopping.symm.trans flag
      refine ⟨running, ?_⟩
      cases completed with
      | false => rfl
      | true =>
        rw [running]
        simp only [Bool.not_false, Bool.and_true, if_true, List.append_nil]
        split
        · rw [wakeAll_eq]
        · rw [wakeAll_eq]
          rfl
  | scopes b =>
    simp only [step] at stepped
    obtain ⟨scopes, -, rfl⟩ := Option.map_eq_some_iff.mp stepped
    exact .calm flagged id rfl

theorem initial_flagged : (initial n).Flagged := by
  rintro ⟨p, absurd | absurd⟩
  · cases absurd
  · cases absurd

/-- What a run closes. -/
theorem closes_run {as : List (Label n)} (flagged : s.Flagged)
    (ran : run step anyStep s as = some t) :
    Closes s t (collect step failed s as) := by
  induction as generalizing s with
  | nil =>
    cases ran
    exact .calm flagged id rfl
  | cons a as ih =>
    obtain ⟨u, -, stepped, rest⟩ := run_cons ran
    have first := closes_step flagged stepped
    have later := ih first.flagged rest
    rw [collect_cons as stepped]
    refine ⟨later.flagged, ?_, fun flag => ?_⟩
    · rw [← List.append_assoc]
      exact (first.left.append_right _).trans later.left
    · obtain ⟨before, closed⟩ := later.running flag
      obtain ⟨start, closed'⟩ := first.running before
      exact ⟨start, by rw [closed, closed', List.append_assoc]⟩

/-- No socket of a slot is lost or given twice, what a failed accept leaves is closed, and every
waiter that was queued is woken once or still waits, in order. -/
theorem sockets_accounted {as : List (Label n)}
    (ran : run AcceptWaiters.step anyStep (initial n) as = some s) : Kept s as := by
  have serves (s : State n) (a : Label n) (t : State n) (_ : anyStep s a)
      (stepped : AcceptWaiters.step s a = some t) : Serves s t (queues s a) := serves_step stepped
  have apart : Apart s := (Reach.of_run .start ran).invariant initial_apart
    fun apart _ stepped => apart.step stepped
  have books : Balances AcceptWaiters.step anyStep
      (fun s a => (queues s a).map Waiter.resume) (State.served (n := n)) :=
    fun s a t allowed stepped => (serves s a t allowed stepped).served
  have closes := closes_run initial_flagged ran
  constructor
  case sockets => exact balances_sockets.holds_run ran
  case left => exact closes.left
  case running => exact fun flag => (closes.running flag).2
  case woken =>
    rw [← collect_map]
    exact books.holds_run ran
  case order =>
    exact Ordered.queue_run (fun s a t allowed stepped => (serves s a t allowed stepped).waiting) ran
  case apart => exact apart.apart
  case stopped =>
    intro flag done
    refine ⟨(apart.ready flag).resolve_left done, (apart.queue flag).resolve_left ?_⟩
    rintro ⟨p, here⟩
    exact done ⟨p, .inl here⟩

/-- A waiter gets the first socket, the accept after it fails, the next two become ready, and one of
them is taken before the acceptor stops. -/
def stoppedLabels : List (Label 2) :=
  [.takeOrQueue 0 10 20 none, .advance 0, .complete 7 true, .complete 5 false, .complete 8 true,
    .complete 9 true, .tryTake 30, .stop 1, .advance 1, .advance 1, .complete 6 true]

def stopped : State 2 := (run step anyStep (initial 2) stoppedLabels).getD (initial 2)

theorem stopped_accounted : stopped.given = [(10, 7), (30, 9)] ∧ stopped.closed = [5, 8, 6] ∧
    Kept stopped stoppedLabels :=
  ⟨by decide +kernel, by decide +kernel, sockets_accounted (run_getD (by decide +kernel))⟩

end JLibSched.AcceptWaiters
