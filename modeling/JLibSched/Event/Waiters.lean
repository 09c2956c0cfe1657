import JLibSched.Event.Refinement

/-!
# The waiters of an event

The links hold the waiters in the order in which they came.  A waiter is taken off by one
`SignalAll` or `CancelWaiters`, which wakes it, and a `SignalAll` takes all that are linked when it
detaches the list.
-/

namespace JLibSched.Event

open Transition WaitQueue Cancel Links

variable {n : Nat} {s t : State n} {q q' : Queue n} {a : Label n} {p u w : Fin n}

/-- What holds between steps, where `q` is the queue of the linked tasks. -/
structure EventOk (s : State n) (q : Queue n) : Prop where
  /-- From `head_` one meets the linked tasks in order, and from `tail_` backwards. -/
  holds : s.links.Holds q.queue
  inverse : ∀ x ∈ q.queue, ∀ y ∈ q.queue, s.links.next x = some y ↔ s.links.prev y = some x
  tail : s.links.tail = q.queue.getLast?
  empty : s.links.tail = none ↔ s.links.head = none
  /-- What a party has in its hand are the tasks that the links and its locals lead to, and who took
  them off is what it tells them. -/
  parties : ∀ p, Shows s.links.next (s.pc p) (q.pc p)
  /-- Each task that is parked is linked or with one party that took it off. -/
  sound : q.Sound
  parked : ∀ w, s.pc w = .parked ↔ (q.pc w).sleeps = 1
  /-- Each wait is ended by one wake. -/
  once : ∀ w, s.waits w = s.wakes w + if s.pc w = .parked then 1 else 0
  /-- `CancelWaiters` gets through its section. -/
  returns : ∀ p tok, s.pc p = .idle → (step s (.cancelWaiters p tok)).isSome = true
  /-- Who has taken tasks off goes on. -/
  goesOn : ∀ u place chain, q.pc u = .walks place chain → (step s (.advance u)).isSome = true
  /-- Whom a party has in its hand it wakes by its own steps, and marks if it is a
  `CancelWaiters`. -/
  woken : ∀ u place chain, q.pc u = .walks place chain → ∀ w ∈ chain,
    ∃ t, Reach step (fun _ a => a = .advance u) s t ∧
      t.pc w = .woken (decide (place = .cancelWaiters)) ∧ t.wakes w = s.wakes w + 1 ∧
        t.tasks.direct w = (s.tasks.direct w || decide (place = .cancelWaiters))

/-- What becomes of the waiters in a step. -/
structure Delivered (s : State n) (q : Queue n) (a : Label n) (t : State n) (q' : Queue n) :
    Prop where
  /-- `AddWaiter` links a task behind the last one. -/
  link : ∀ p, a = .advance p → s.pc p = .adding → q'.queue = q.queue ++ [p]
  /-- `CancelWaiters` takes off the tasks of its scope. -/
  cancel : ∀ p tok, a = .cancelWaiters p tok →
    q'.queue = (q.queue.filter fun w => !s.covers tok w) ∧
      q'.pc p = .walks .cancelWaiters (q.queue.filter (s.covers tok))
  /-- `SignalAll` goes on if a task is linked, and takes all off. -/
  looks : ∀ p, a = .signalAll p → q.queue ≠ [] → t.pc p = .detaching
  signal : ∀ p, a = .advance p → s.pc p = .detaching →
    q'.queue = [] ∧ q'.pc p = .walks .signalAll q.queue
  /-- Nobody else changes the list. -/
  still : (∀ p, a = .advance p → s.pc p ≠ .adding ∧ s.pc p ≠ .detaching) →
    (∀ p tok, a ≠ .cancelWaiters p tok) → q'.queue = q.queue
  /-- Who has taken tasks off wakes them one after the other. -/
  chains : ∀ u place w rest, q.pc u = .walks place (w :: rest) → q'.pc u = q.pc u ∨
    q'.pc u = .walks place rest ∧ t.pc w = .woken (decide (place = .cancelWaiters)) ∧
      t.wakes w = s.wakes w + 1
  /-- Nobody else wakes them. -/
  woken : ∀ w, s.pc w = .parked → t.pc w = .parked ∨ ∃ u place rest,
    q.pc u = .walks place (w :: rest) ∧ q'.pc u = .walks place rest ∧
      t.pc w = .woken (decide (place = .cancelWaiters))
  /-- A task that is woken is marked if that was a `CancelWaiters`. -/
  direct : ∀ w cancel, s.pc w = .parked → t.pc w = .woken cancel →
    t.tasks.direct w = (s.tasks.direct w || cancel)

theorem Rep.parked_iff (rep : Rep s q) (w : Fin n) : s.pc w = .parked ↔ (q.pc w).sleeps = 1 := by
  constructor
  · intro here
    have shown := rep.parties w
    rw [here] at shown
    generalize q.pc w = pc at shown ⊢
    cases shown
    rfl
  · exact rep.parked

/-- Who is in a hand is woken by the steps of the one who has it there. -/
theorem handed_is_woken {place : Place} {chain : List (Fin n)} (rep : Rep s q)
    (walks : q.pc u = .walks place chain) (mem : w ∈ chain) :
    ∃ t, Reach step (fun _ a => a = .advance u) s t ∧
      t.pc w = .woken (decide (place = .cancelWaiters)) ∧ t.wakes w = s.wakes w + 1 ∧
        t.tasks.direct w = (s.tasks.direct w || decide (place = .cancelWaiters)) := by
  induction chain generalizing s q with
  | nil => cases mem
  | cons x chain ih =>
    have shown := rep.parties u
    rw [walks] at shown
    -- up to the wake
    obtain ⟨s₁, cancel, following, reach, here, rep₁, wakes, tasks, rfl⟩ :
        ∃ s₁ cancel following, Reach step (fun _ a => a = .advance u) s s₁ ∧
          s₁.pc u = .waking cancel x following ∧ Rep s₁ q ∧ s₁.wakes = s.wakes ∧
            s₁.tasks = s.tasks ∧ place = taker cancel := by
      cases here : s.pc u with
      | walking cancel first =>
        rw [here] at shown
        cases shown with
        | walking _ _ _ leads =>
          obtain ⟨rfl, -⟩ := leads
          have stepped : step s (.advance u) = some { s.go u (.waking cancel x (s.links.next x)) with
              links := s.links.write x none none } := by
            simp only [step, advance]
            rw [here]
          exact ⟨_, cancel, s.links.next x, Reach.start.next rfl stepped, Function.update_self _ _ _,
            rep.unchain here, rfl, rfl, rfl⟩
      | waking cancel y following =>
        rw [here] at shown
        cases shown with
        | waking => exact ⟨s, cancel, following, .start, here, rep, rfl, rfl, rfl⟩
      | idle | checked | tested | adding | parked | woken | returning | detaching =>
        rw [here] at shown
        cases shown
    have stepped : step s₁ (.advance u) =
        some ((s₁.wake cancel x).go u (.walking cancel following)) := by
      simp only [step, advance]
      rw [here]
    obtain ⟨chain', walks', leads⟩ := rep₁.waking here
    cases walks.symm.trans walks'
    have rep' := rep₁.wake here walks' leads
    have asleep := rep₁.parked (rep₁.sound.carried (w := x) (u := u)
      (by rw [walks]; exact List.mem_cons_self))
    have apart : x ≠ u := by
      rintro rfl
      cases here.symm.trans asleep
    have takes : decide (taker cancel = .cancelWaiters) = cancel := by cases cancel <;> rfl
    have reach' := reach.next rfl stepped
    rcases eq_or_ne w x with rfl | other
    · refine ⟨_, reach', ?_, ?_, ?_⟩
      · simp only [State.go, State.wake, Function.update_of_ne apart, Function.update_self, takes]
      · simp only [State.go, State.wake, Function.update_self, wakes]
      · rw [takes, ← tasks]
        cases cancel <;> simp [State.go, State.wake]
    · have behind : w ∈ chain := (List.mem_cons.mp mem).resolve_left other
      obtain ⟨t, later, woken, counted, marked⟩ := ih rep' (Function.update_self _ _ _) behind
      refine ⟨t, reach'.trans later, woken, ?_, ?_⟩
      · rw [counted]
        simp only [State.go, State.wake, Function.update_of_ne other, wakes]
      · rw [marked, ← tasks]
        cases cancel <;> simp [State.go, State.wake, other]

theorem Rep.ok (rep : Rep s q) : EventOk s q where
  holds := rep.holds
  inverse x memX y memY := rep.holds.inverse rep.sound.nodup_queue memX memY
  tail := rep.holds.tail
  empty := rep.holds.tail_none
  parties := rep.parties
  sound := rep.sound
  parked := rep.parked_iff
  once w := by
    rw [← rep.waits, ← rep.wakes, rep.sound.once w]
    split
    · rename_i here
      rw [(rep.parked_iff w).mp here]
    · rename_i awake
      rw [rep.awake awake]
  returns p tok here := by
    obtain ⟨t, ran, -⟩ := rep.cancelWaiters here tok
    simp only [Event.step]
    rw [if_pos here, ran]
    rfl
  goesOn u place chain here := by
    have shown := rep.parties u
    rw [here] at shown
    simp only [Event.step, Event.advance]
    generalize s.pc u = pc at shown ⊢
    cases shown with
    | walking cancel t chain leads =>
      cases t with
      | none => rfl
      | some w => rfl
    | waking cancel t following chain leads => rfl
  woken u place chain walks w mem := handed_is_woken rep walks mem

/-! ## One step -/

/-- What a step does to the parties of the queue. -/
inductive Moves (s : State n) (q : Queue n) (a : Label n) (q' : Queue n) : Prop where
  | still (same : q'.pc = q.pc) (wakes : q'.wakes = q.wakes)
  | one (p : Fin n) (pc : QueuePc n) (mover : s.pc p = .idle ∨ a = .advance p)
      (free : (q.pc p).hand = []) (awake : (q.pc p).sleeps = 0)
      (moved : q'.pc = Function.update q.pc p pc) (wakes : q'.wakes = q.wakes)
  | wake (p w : Fin n) (cancel : Bool) (rest : List (Fin n))
      (shown : q.pc p = .walks (taker cancel) (w :: rest))
      (woke : q' = q.wake p w cancel (.walks (taker cancel) rest))

/-- The place of a party that is at the end of its call. -/
theorem Rep.free (rep : Rep s q)
    (done : (s.pc p).place.isSome = true ∨ (∃ cancel, s.pc p = .woken cancel) ∨
      ∃ cancel, s.pc p = .walking cancel none) :
    (q.pc p).hand = [] ∧ (q.pc p).sleeps = 0 := by
  have shown := rep.parties p
  rcases done with stands | ⟨cancel, here⟩ | ⟨cancel, here⟩
  · obtain ⟨place, stands⟩ := Option.isSome_iff_exists.mp stands
    exact rep.stands stands
  · rw [here] at shown
    generalize q.pc p = pc at shown ⊢
    cases shown
    exact ⟨rfl, rfl⟩
  · rw [here] at shown
    generalize q.pc p = pc at shown ⊢
    cases shown with
    | walking cancel t chain leads =>
      cases chain with
      | nil => exact ⟨rfl, rfl⟩
      | cons y chain => cases leads.1

theorem Rep.moves_advance (rep : Rep s q) (does : Advances s q p q') :
    Moves s q (.advance p) q' := by
  unfold Advances at does
  have free := rep.free (p := p)
  cases here : s.pc p with
  | idle | parked =>
    rw [here] at does
    exact does.elim
  | adding | detaching =>
    rw [here] at does free
    obtain ⟨hand, awake⟩ := free (.inl rfl)
    exact .one p _ (.inr rfl) hand awake (by rw [does]; rfl) (by rw [does]; rfl)
  | walking cancel t =>
    rw [here] at does free
    cases t with
    | some w => exact .still (by rw [does]) (by rw [does])
    | none =>
      obtain ⟨place, gone⟩ := does
      obtain ⟨hand, awake⟩ := free (.inr (.inr ⟨cancel, rfl⟩))
      exact .one p _ (.inr rfl) hand awake (by rw [gone]; rfl) (by rw [gone]; rfl)
  | waking cancel w following =>
    rw [here] at does
    obtain ⟨rest, shown, woke⟩ := does
    exact .wake p w cancel rest shown woke
  | checked | tested | returning =>
    rw [here] at does free
    obtain ⟨place, gone⟩ := does
    obtain ⟨hand, awake⟩ := free (.inl rfl)
    exact .one p _ (.inr rfl) hand awake (by rw [gone]; rfl) (by rw [gone]; rfl)
  | woken cancel =>
    rw [here] at does free
    obtain ⟨place, gone⟩ := does
    obtain ⟨hand, awake⟩ := free (.inr (.inl ⟨cancel, rfl⟩))
    exact .one p _ (.inr rfl) hand awake (by rw [gone]; rfl) (by rw [gone]; rfl)

/-- A call starts at a party that is idle. -/
theorem idle_of_step (stepped : step s a = some t)
    (starts : a = .waitOnEvent p ∨ a = .waitOnEventCancellable p ∨ a = .signalAll p ∨
      ∃ tok, a = .cancelWaiters p tok) : s.pc p = .idle := by
  rcases starts with rfl | rfl | rfl | ⟨tok, rfl⟩
  all_goals
    simp only [Event.step] at stepped
    split at stepped
    · assumption
    · cases stepped

theorem Rep.moves (rep : Rep s q) (stepped : Event.step s a = some t) (does : Does s q q' a) :
    Moves s q a q' := by
  have idle {p : Fin n} := idle_of_step (p := p) stepped
  have free {p : Fin n} (here : s.pc p = .idle) : (q.pc p).hand = [] ∧ (q.pc p).sleeps = 0 :=
    rep.free (.inl (by rw [here]; rfl))
  cases a with
  | advance p => exact rep.moves_advance does
  | reuse p next prev => exact .still (by rw [does]) (by rw [does])
  | tasks tasks => exact .still (by rw [does]) (by rw [does])
  | waitOnEvent p =>
    have here := idle (.inl rfl)
    obtain ⟨hand, awake⟩ := free here
    obtain ⟨place, gone⟩ := does
    exact .one p _ (.inl here) hand awake (by rw [gone]; rfl) (by rw [gone]; rfl)
  | waitOnEventCancellable p =>
    have here := idle (.inr (.inl rfl))
    obtain ⟨hand, awake⟩ := free here
    obtain ⟨place, gone⟩ := does
    exact .one p _ (.inl here) hand awake (by rw [gone]; rfl) (by rw [gone]; rfl)
  | signalAll p =>
    have here := idle (.inr (.inr (.inl rfl)))
    obtain ⟨hand, awake⟩ := free here
    exact .one p _ (.inl here) hand awake (by rw [does]; rfl) (by rw [does]; rfl)
  | cancelWaiters p tok =>
    have here := idle (.inr (.inr (.inr ⟨tok, rfl⟩)))
    obtain ⟨hand, awake⟩ := free here
    exact .one p _ (.inl here) hand awake (by rw [does]; rfl) (by rw [does]; rfl)

/-- A taker that has a chain in hand goes on with it or wakes its first task. -/
theorem Moves.chains (moves : Moves s q a q') (sound : q.Sound) {place : Place}
    {rest : List (Fin n)} (here : q.pc u = .walks place (w :: rest)) : q'.pc u = q.pc u ∨
      q'.pc u = .walks place rest ∧ q'.pc w = .woken (decide (place = .cancelWaiters)) ∧
        q'.wakes w = q.wakes w + 1 := by
  cases moves with
  | still same => exact .inl (by rw [same])
  | one p pc _ free awake moved =>
    have other : u ≠ p := by
      rintro rfl
      rw [here] at free
      cases free
    exact .inl (by rw [moved, Function.update_of_ne other])
  | wake p v cancel chain shown woke =>
    subst woke
    simp only [Line.wake, Line.set]
    have asleep := sound.carried (u := p) (w := v) (by rw [shown]; exact List.mem_cons_self)
    rcases eq_or_ne u p with rfl | notP
    · rw [here] at shown
      cases shown
      refine .inr ⟨Function.update_self _ _ _, ?_, Function.update_self _ _ _⟩
      rw [Function.update_of_ne, Function.update_self]
      · cases cancel with
        | false => rfl
        | true => rfl
      · rintro rfl
        rw [here] at asleep
        cases asleep
    · refine .inl ?_
      rw [Function.update_of_ne notP, Function.update_of_ne]
      rintro rfl
      rw [here] at asleep
      cases asleep

/-- A sleeper is woken by who has it in hand. -/
theorem Moves.woken (moves : Moves s q a q') (asleep : (q.pc w).sleeps = 1) : q'.pc w = q.pc w ∨
    ∃ u place rest, q.pc u = .walks place (w :: rest) ∧ q'.pc u = .walks place rest ∧
      q'.pc w = .woken (decide (place = .cancelWaiters)) := by
  cases moves with
  | still same => exact .inl (by rw [same])
  | one p pc _ free awake moved =>
    have other : w ≠ p := by
      rintro rfl
      omega
    exact .inl (by rw [moved, Function.update_of_ne other])
  | wake p v cancel chain shown woke =>
    subst woke
    simp only [Line.wake, Line.set]
    have notP : w ≠ p := by
      rintro rfl
      rw [shown] at asleep
      cases asleep
    rw [Function.update_of_ne notP]
    rcases eq_or_ne w v with rfl | notV
    · refine .inr ⟨p, taker cancel, chain, shown, Function.update_self _ _ _, ?_⟩
      rw [Function.update_self]
      cases cancel with
      | false => rfl
      | true => rfl
    · exact .inl (Function.update_of_ne notV _ _)

theorem Shows.is_woken {next : Fin n → Option (Fin n)} {pc : Pc n} {cancel : Bool}
    (shows' : Shows next pc (.woken cancel)) : pc = .woken cancel := by
  cases shows'
  rfl

theorem Shows.is_detaching {next : Fin n → Option (Fin n)} {pc : Pc n}
    (shows' : Shows next pc (.stands .detaching)) : pc = .detaching := by
  cases shows'
  rfl

theorem link_of_does (does : Does s q q' a) (p : Fin n) (label : a = .advance p)
    (here : s.pc p = .adding) : q'.queue = q.queue ++ [p] := by
  subst label
  simp only [Does, Advances] at does
  rw [here] at does
  rw [does]
  rfl

theorem cancel_of_does (does : Does s q q' a) (p : Fin n) (tok : Nat)
    (label : a = .cancelWaiters p tok) : q'.queue = (q.queue.filter fun w => !s.covers tok w) ∧
      q'.pc p = .walks .cancelWaiters (q.queue.filter (s.covers tok)) := by
  subst label
  rw [show q' = _ from does]
  exact ⟨rfl, Function.update_self _ _ _⟩

theorem signal_of_does (does : Does s q q' a) (p : Fin n) (label : a = .advance p)
    (here : s.pc p = .detaching) : q'.queue = [] ∧ q'.pc p = .walks .signalAll q.queue := by
  subst label
  simp only [Does, Advances] at does
  rw [here] at does
  rw [does]
  simp only [Line.takeIf, Line.set]
  rw [Function.update_self]
  simp

theorem looks_of_does (rep' : Rep t q') (does : Does s q q' a) (p : Fin n)
    (label : a = .signalAll p) (some' : q.queue ≠ []) : t.pc p = .detaching := by
  subst label
  simp only [Does] at does
  rw [if_neg some'] at does
  have shown := rep'.parties p
  rw [does] at shown
  simp only [Line.set] at shown
  rw [Function.update_self] at shown
  exact shown.is_detaching

theorem still_of_does (does : Does s q q' a)
    (outside : ∀ p, a = .advance p → s.pc p ≠ .adding ∧ s.pc p ≠ .detaching)
    (calm : ∀ p tok, a ≠ .cancelWaiters p tok) : q'.queue = q.queue := by
  cases a with
  | cancelWaiters p tok => exact absurd rfl (calm p tok)
  | reuse p next prev | tasks tasks => rw [show q' = q from does]
  | signalAll p =>
    rw [show q' = _ from does]
    rfl
  | waitOnEvent p | waitOnEventCancellable p =>
    obtain ⟨place, gone⟩ := does
    rw [gone]
    rfl
  | advance p =>
    obtain ⟨notAdding, notDetaching⟩ := outside p rfl
    simp only [Does, Advances] at does
    cases here : s.pc p with
    | adding => exact absurd here notAdding
    | detaching => exact absurd here notDetaching
    | idle | parked =>
      rw [here] at does
      exact does.elim
    | walking cancel w =>
      rw [here] at does
      cases w with
      | some w => rw [show q' = q from does]
      | none =>
        obtain ⟨place, gone⟩ := does
        rw [gone]
        rfl
    | waking cancel w following =>
      rw [here] at does
      obtain ⟨rest, -, woke⟩ := does
      rw [woke]
      rfl
    | checked | tested | returning | woken =>
      rw [here] at does
      obtain ⟨place, gone⟩ := does
      rw [gone]
      rfl

/-- Where a party goes that wakes nobody. -/
def Turn (s : State n) (p : Fin n) : Pc n → Prop
  | .tested => s.tasks.isTaskCancelled p = false
  | .adding => s.pc p = .tested
  | .woken _ => False
  | _ => True

/-- What a step does to the parties. -/
inductive Turns (s t : State n) : Prop where
  | nobody (same : t.pc = s.pc)
  | mover (p : Fin n) (pc : Pc n) (moved : t.pc = Function.update s.pc p pc) (turn : Turn s p pc)
  | waker (p w : Fin n) (cancel : Bool) (following : Option (Fin n))
      (here : s.pc p = .waking cancel w following)
      (woke : t = (s.wake cancel w).go p (.walking cancel following))

theorem test_turns (p : Fin n) : Turns s (s.test p) := by
  unfold State.test
  split
  · exact .mover p .returning rfl trivial
  · exact .mover p .tested rfl (Bool.eq_false_of_not_eq_true ‹_›)

theorem advance_turns (stepped : advance s p = some t) : Turns s t := by
  unfold advance at stepped
  split at stepped
  case h_1 =>
    cases stepped
    exact test_turns p
  case h_2 here =>
    cases stepped
    exact .mover p .adding rfl here
  case h_3 =>
    cases stepped
    exact .mover p .parked rfl trivial
  case h_4 | h_5 | h_6 =>
    cases stepped
    exact .mover p _ rfl trivial
  case h_7 p' cancel w following here =>
    cases stepped
    exact .waker p w cancel following here rfl
  case h_8 | h_9 =>
    cases stepped
    exact .mover p .idle rfl trivial
  case h_10 | h_11 => cases stepped

theorem turns_of_step (stepped : step s a = some t) : Turns s t := by
  cases a with
  | advance p => exact advance_turns stepped
  | reuse p next prev | tasks tasks =>
    simp only [step] at stepped
    split at stepped
    all_goals cases stepped
    all_goals exact .nobody rfl
  | waitOnEvent p =>
    simp only [step] at stepped
    split at stepped
    · cases stepped
      exact test_turns p
    · cases stepped
  | waitOnEventCancellable p =>
    simp only [step] at stepped
    split at stepped
    · cases stepped
      split
      · exact .mover p .idle rfl trivial
      · exact .mover p .checked rfl trivial
    · cases stepped
  | signalAll p =>
    simp only [step] at stepped
    split at stepped
    · cases stepped
      refine .mover p _ rfl ?_
      split
      · trivial
      · trivial
    · cases stepped
  | cancelWaiters p tok =>
    simp only [step] at stepped
    split at stepped
    · unfold State.cancelWaiters at stepped
      split at stepped
      · cases stepped
        exact .mover p _ rfl trivial
      · obtain ⟨found, -, rfl⟩ := Option.map_eq_some_iff.mp stepped
        exact .mover p (.walking true found.2) rfl trivial
    · cases stepped

/-- A task is marked by a `CancelWaiters` that wakes it. -/
theorem Turns.direct (turns : Turns s t) {cancel : Bool} (before : s.pc w = .parked)
    (after : t.pc w = .woken cancel) : t.tasks.direct w = (s.tasks.direct w || cancel) := by
  cases turns with
  | nobody same =>
    rw [same, before] at after
    cases after
  | mover p pc moved turn =>
    rw [moved] at after
    rcases eq_or_ne w p with rfl | other
    · rw [Function.update_self] at after
      rw [after] at turn
      exact turn.elim
    · rw [Function.update_of_ne other, before] at after
      cases after
  | waker p v cancel' following here woke =>
    subst woke
    simp only [State.go, State.wake] at after ⊢
    have notP : w ≠ p := by
      rintro rfl
      rw [before] at here
      cases here
    rw [Function.update_of_ne notP] at after
    rcases eq_or_ne w v with rfl | other
    · rw [Function.update_self] at after
      cases after
      cases cancel with
      | false => simp
      | true => simp
    · rw [Function.update_of_ne other, before] at after
      cases after

theorem Rep.delivered (rep : Rep s q) (rep' : Rep t q') (stepped : Event.step s a = some t)
    (does : Does s q q' a) : Delivered s q a t q' where
  link := link_of_does does
  cancel := cancel_of_does does
  looks := looks_of_does rep' does
  signal := signal_of_does does
  still := still_of_does does
  chains u place w rest here := by
    rcases (rep.moves stepped does).chains rep.sound here with same | ⟨gone, woken, counted⟩
    · exact .inl same
    · have shown := rep'.parties w
      rw [woken] at shown
      rw [rep.wakes, rep'.wakes] at counted
      exact .inr ⟨gone, shown.is_woken, counted⟩
  woken w here := by
    have asleep := (rep.parked_iff w).mp here
    rcases (rep.moves stepped does).woken asleep with same | ⟨u, place, rest, shown, gone, woken⟩
    · exact .inl (rep'.parked (by rw [same, asleep]))
    · have shown' := rep'.parties w
      rw [woken] at shown'
      exact .inr ⟨u, place, rest, shown, gone, shown'.is_woken⟩
  direct w cancel := (turns_of_step stepped).direct

/-! ## A `SignalAll` -/

/-- Wakes are only counted up. -/
theorem Moves.wakes_le (moves : Moves s q a q') (w : Fin n) : q.wakes w ≤ q'.wakes w := by
  cases moves with
  | still _ wakes => rw [wakes]
  | one _ _ _ _ _ _ wakes => rw [wakes]
  | wake p v cancel rest shown woke =>
    subst woke
    simp only [Line.wake, Line.set]
    rcases eq_or_ne w v with rfl | other
    · rw [Function.update_self]
      omega
    · rw [Function.update_of_ne other]

/-- A party that stands somewhere in a call goes on by itself only. -/
theorem Moves.stays (moves : Moves s q a q') (sound : q.Sound) {place : Place}
    (here : q.pc p = .stands place) (busy : s.pc p ≠ .idle) (others : a ≠ .advance p) :
    q'.pc p = .stands place := by
  cases moves with
  | still same => rw [same, here]
  | one r pc mover _ _ moved =>
    rw [moved, Function.update_of_ne, here]
    rintro rfl
    exact mover.elim busy others
  | wake r v cancel rest shown woke =>
    have asleep := sound.carried (u := r) (w := v) (by rw [shown]; exact List.mem_cons_self)
    subst woke
    simp only [Line.wake, Line.set]
    rw [Function.update_of_ne, Function.update_of_ne, here]
    · rintro rfl
      rw [here] at asleep
      cases asleep
    · rintro rfl
      rw [here] at shown
      cases shown

/-- A `SignalAll` of `p` has seen a waiter when it looked at the list in state `s`.  Task `w`, which
was linked then, still is, or another party has taken it off and wakes it. -/
structure Awaits (s : State n) (p w : Fin n) (t : State n) (q : Queue n) : Prop where
  here : t.pc p = .detaching
  counted : s.wakes w ≤ t.wakes w
  covered : w ∈ q.queue ∨ (∃ u, u ≠ p ∧ w ∈ (q.pc u).hand) ∨ s.wakes w < t.wakes w

/-- Whom a party has in its hand it keeps, or has woken. -/
theorem Delivered.hand (delivered : Delivered s q a t q') (rep : Rep s q)
    (mem : w ∈ (q.pc u).hand) : w ∈ (q'.pc u).hand ∨ t.wakes w = s.wakes w + 1 := by
  have shown := rep.parties u
  generalize here : q.pc u = pc at shown mem
  cases pc with
  | walks place chain =>
    cases chain with
    | nil => cases mem
    | cons v rest =>
      rcases delivered.chains u place v rest here with same | ⟨gone, -, counted⟩
      · rw [same, here]
        exact .inl mem
      · rw [gone]
        rcases List.mem_cons.mp mem with rfl | later
        · exact .inr counted
        · exact .inl later
  | holds place v =>
    generalize s.pc u = pc at shown
    cases shown
  | stands | asleep | woken => cases mem

/-- A task that is linked stays so until a call takes it off. -/
theorem Delivered.queue (delivered : Delivered s q a t q') (mem : w ∈ q.queue) :
    w ∈ q'.queue ∨ ∃ u, w ∈ (q'.pc u).hand ∧
      (a = .advance u ∧ s.pc u = .detaching ∨ ∃ tok, a = .cancelWaiters u tok) := by
  by_cases cancels : ∃ u tok, a = .cancelWaiters u tok
  · obtain ⟨u, tok, label⟩ := cancels
    obtain ⟨queue, hand⟩ := delivered.cancel u tok label
    rw [queue]
    cases covered : s.covers tok w with
    | false => exact .inl (List.mem_filter.mpr ⟨mem, by rw [covered]; rfl⟩)
    | true =>
      refine .inr ⟨u, ?_, .inr ⟨tok, label⟩⟩
      rw [hand]
      exact List.mem_filter.mpr ⟨mem, covered⟩
  by_cases signals : ∃ u, a = .advance u ∧ s.pc u = .detaching
  · obtain ⟨u, label, here⟩ := signals
    refine .inr ⟨u, ?_, .inl ⟨label, here⟩⟩
    rw [(delivered.signal u label here).2]
    exact mem
  by_cases links : ∃ u, a = .advance u ∧ s.pc u = .adding
  · obtain ⟨u, label, here⟩ := links
    rw [delivered.link u label here]
    exact .inl (List.mem_append_left _ mem)
  refine .inl ?_
  rw [delivered.still]
  · exact mem
  · intro u label
    exact ⟨fun here => links ⟨u, label, here⟩, fun here => signals ⟨u, label, here⟩⟩
  · intro u tok label
    exact cancels ⟨u, tok, label⟩

theorem Awaits.step {s₀ : State n} (awaits : Awaits s₀ p w s q) (rep : Rep s q) (rep' : Rep t q')
    (stepped : Event.step s a = some t) (does : Does s q q' a) (others : a ≠ .advance p) :
    Awaits s₀ p w t q' := by
  obtain ⟨here, before, covered⟩ := awaits
  have moves := rep.moves stepped does
  have delivered := rep.delivered rep' stepped does
  have counted : s.wakes w ≤ t.wakes w := by
    rw [← rep.wakes, ← rep'.wakes]
    exact moves.wakes_le w
  have shown : q.pc p = .stands .detaching := (rep.parties p).stands (by rw [here]; rfl)
  refine ⟨?_, before.trans counted, ?_⟩
  · have shown' := rep'.parties p
    rw [moves.stays rep.sound shown (by rw [here]; exact nofun) others] at shown'
    exact shown'.is_detaching
  rcases covered with linked | ⟨u, other, mem⟩ | woken
  · rcases delivered.queue linked with still | ⟨u, mem, taken⟩
    · exact .inl still
    · refine .inr (.inl ⟨u, ?_, mem⟩)
      rintro rfl
      rcases taken with ⟨label, -⟩ | ⟨tok, label⟩
      · exact others label
      · have idle := idle_of_step stepped (.inr (.inr (.inr ⟨tok, label⟩)))
        rw [here] at idle
        cases idle
  · rcases delivered.hand rep mem with still | woken
    · exact .inr (.inl ⟨u, other, still⟩)
    · exact .inr (.inr (by omega))
  · exact .inr (.inr (by omega))

/-- A `SignalAll` that has seen the list is not overtaken. -/
theorem awaits_of_reach {s₀ : State n} {q₀ : Queue n} (rep : Rep s₀ q₀)
    (signals : Event.step s₀ (.signalAll p) = some s) (linked : w ∈ q₀.queue)
    (reach : Reach Event.step (fun _ a => a ≠ .advance p) s t) :
    ∃ q, Rep t q ∧ Awaits s₀ p w t q := by
  refine reach.invariant (I := fun t => ∃ q, Rep t q ∧ Awaits s₀ p w t q) ?_ ?_
  · obtain ⟨q, rep', does⟩ := rep.step signals
    have some' := List.ne_nil_of_mem linked
    have delivered := rep.delivered rep' signals does
    have here := delivered.looks p rfl some'
    have queue := delivered.still nofun nofun
    refine ⟨q, rep', here, ?_, .inl (by rw [queue]; exact linked)⟩
    rw [← rep.wakes, ← rep'.wakes]
    exact (rep.moves signals does).wakes_le w
  · rintro s t a ⟨q, rep, awaits⟩ others stepped
    obtain ⟨q', rep', does⟩ := rep.step stepped
    exact ⟨q', rep', awaits.step rep rep' stepped does others⟩

/-! ## The list -/

theorem event_serves {tasks : Tasks n} (reach : Reach Event.step anyStep (initial tasks) s) :
    ∃ q, EventOk s q ∧
      (∀ a t, Event.step s a = some t → ∃ q', EventOk t q' ∧ Delivered s q a t q') ∧
      ∀ p w, w ∈ q.queue → ∀ s', Event.step s (.signalAll p) = some s' →
        ∀ t, Reach Event.step (fun _ a => a ≠ .advance p) s' t →
          ∃ q', EventOk t q' ∧ Awaits s p w t q' := by
  obtain ⟨q, rep⟩ := rep_of_reach reach
  refine ⟨q, rep.ok, ?_, ?_⟩
  · intro a t stepped
    obtain ⟨q', rep', does⟩ := rep.step stepped
    exact ⟨q', rep'.ok, rep.delivered rep' stepped does⟩
  · intro p w linked s' signals t later
    obtain ⟨q', rep', awaits⟩ := awaits_of_reach rep signals linked later
    exact ⟨q', rep'.ok, awaits⟩

/-- A scope that the task of party 0 belongs to. -/
def oneScope (n : Nat) : Tasks (n + 1) :=
  { noScopes (n + 1) with token := fun p => if p = 0 then 0 else kNone }

/-- Parties 0 and 1 wait, a `CancelWaiters` takes the first one off, and a `SignalAll` sees the
other. -/
def halfLabels : List (Label 4) :=
  [.waitOnEvent 0, .advance 0, .advance 0, .waitOnEvent 1, .advance 1, .advance 1,
    .cancelWaiters 2 0, .signalAll 3]

def half : State 4 :=
  (run step anyStep (initial (oneScope 3)) halfLabels).getD (initial (oneScope 3))

theorem half_serves : half.links.head = some 1 ∧ half.pc 2 = .walking true (some 0) ∧
    half.pc 3 = .detaching ∧
    ∃ q, EventOk half q ∧
      (∀ a t, Event.step half a = some t → ∃ q', EventOk t q' ∧ Delivered half q a t q') ∧
      ∀ p w, w ∈ q.queue → ∀ s', Event.step half (.signalAll p) = some s' →
        ∀ t, Reach Event.step (fun _ a => a ≠ .advance p) s' t →
          ∃ q', EventOk t q' ∧ Awaits half p w t q' :=
  ⟨by decide +kernel, by decide +kernel, by decide +kernel,
    event_serves (Reach.of_isSome halfLabels (by decide +kernel))⟩

end JLibSched.Event
