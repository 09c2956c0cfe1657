import JLibSched.Future.Delivery

/-!
# Cancelled waiters of a future

`ReadyOrQueue` tests the token under the lock under which it queues the waiter, so a `CancelWaiters`
of the scope either finds the waiter or comes early enough for that test.  A waiter that was taken
off is woken by the steps of the one who has it in its hand.
-/

namespace JLibSched.Future

open Transition WaitQueue Cancel Links

variable {n : Nat} {s t : State n} {q q' : Queue n} {a : Label n} {p u w : Fin n}

/-- No slot of a scope comes to its last generation. -/
def scopesLast (s : State n) : Label n → Prop
  | .scopes a => Scopes.lasting s.scopes a
  | .readyOrQueue _ _ | .setValue _ | .publish _ _ | .cancelWaiters _ _ | .advance _
  | .reuse _ _ _ _ => True

instance (s : State n) : (a : Label n) → Decidable (scopesLast s a)
  | .scopes a => inferInstanceAs (Decidable (Scopes.lasting s.scopes a))
  | .readyOrQueue _ _ | .setValue _ | .publish _ _ | .cancelWaiters _ _ | .advance _
  | .reuse _ _ _ _ => isTrue trivial

/-- No waiter in the list lies within a swept scope. -/
structure Swept (s : State n) (q : Queue n) : Prop where
  scopes : Scopes.Sound s.scopes
  issued : ∀ w ∈ q.queue, s.scopes.Issued (s.nodes.token w)
  marked : ∀ tok ∈ s.swept, Marked s.scopes.slots tok
  none : ∀ w ∈ q.queue, ∀ tok ∈ s.swept,
    isWithin s.scopes.slots (s.nodes.token w) tok = false

theorem initial_swept : Swept (initial n) q where
  scopes := Scopes.initial_sound
  issued w _ := .inl rfl
  marked tok absurd := by cases absurd
  none w _ tok absurd := by cases absurd

/-- Who is in the list was in it before, with the same token. -/
theorem Swept.shrink (swept : Swept s q) (same : SameScopes s t)
    (queue : ∀ w ∈ q'.queue, w ∈ q.queue ∧ t.nodes.token w = s.nodes.token w) : Swept t q' where
  scopes := by
    rw [same.scopes]
    exact swept.scopes
  issued w mem := by
    obtain ⟨before, token⟩ := queue w mem
    rw [same.scopes, token]
    exact swept.issued w before
  marked := by
    rw [same.scopes, same.swept]
    exact swept.marked
  none w mem := by
    obtain ⟨before, token⟩ := queue w mem
    rw [same.scopes, same.swept, token]
    exact swept.none w before

/-- A token that is not cancelled lies within no swept scope. -/
theorem Swept.alert (swept : Swept s q) {raw : Nat}
    (alert : raw ≠ kNone → cancelled s.scopes.slots raw = false) (tok : Nat)
    (mem : tok ∈ s.swept) : isWithin s.scopes.slots raw tok = false := by
  by_contra within
  have inside := Bool.eq_true_of_not_eq_false within
  rcases eq_or_ne raw kNone with rfl | valid
  · rw [Scopes.isWithin_none] at inside
    cases inside
  · have cancels := isWithin_cancelled (swept.marked tok mem) inside
    rw [alert valid] at cancels
    cases cancels

theorem Swept.join (swept : Swept s q) (same : SameScopes s t)
    (queue : q'.queue = q.queue ++ [p])
    (token : ∀ w ∈ q.queue, t.nodes.token w = s.nodes.token w)
    (issued : s.scopes.Issued (t.nodes.token p))
    (alert : t.nodes.token p ≠ kNone → cancelled s.scopes.slots (t.nodes.token p) = false) :
    Swept t q' := by
  have cases' {w : Fin n} (mem : w ∈ q'.queue) : w ∈ q.queue ∨ w = p := by
    rw [queue] at mem
    exact (List.mem_append.mp mem).imp_right List.mem_singleton.mp
  constructor
  case scopes =>
    rw [same.scopes]
    exact swept.scopes
  case issued =>
    intro w mem
    rw [same.scopes]
    rcases cases' mem with before | rfl
    · rw [token w before]
      exact swept.issued w before
    · exact issued
  case marked =>
    rw [same.scopes, same.swept]
    exact swept.marked
  case none =>
    intro w mem
    rw [same.scopes, same.swept]
    rcases cases' mem with before | rfl
    · rw [token w before]
      exact swept.none w before
    · exact swept.alert alert

theorem Swept.sweep (swept : Swept s q) {tok : Nat} (scopes : t.scopes = s.scopes)
    (queue : q'.queue = q.queue.filter fun w => !s.matches tok w)
    (token : t.nodes.token = s.nodes.token)
    (swept' : t.swept = if Marked s.scopes.slots tok then tok :: s.swept else s.swept) :
    Swept t q' := by
  have before {w : Fin n} (mem : w ∈ q'.queue) : w ∈ q.queue ∧ s.matches tok w = false := by
    rw [queue] at mem
    obtain ⟨inQueue, kept⟩ := List.mem_filter.mp mem
    exact ⟨inQueue, by simpa using kept⟩
  constructor
  case scopes =>
    rw [scopes]
    exact swept.scopes
  case issued =>
    intro w mem
    rw [scopes, token]
    exact swept.issued w (before mem).1
  case marked =>
    intro tok' mem
    rw [scopes]
    rw [swept'] at mem
    split at mem
    · rename_i marked
      rcases List.mem_cons.mp mem with rfl | old
      · exact marked
      · exact swept.marked tok' old
    · exact swept.marked tok' mem
  case none =>
    intro w mem tok' inSwept
    obtain ⟨inQueue, kept⟩ := before mem
    rw [scopes, token]
    rw [swept'] at inSwept
    split at inSwept
    · rcases List.mem_cons.mp inSwept with rfl | old
      · -- the sweep has left the waiter in the list
        exact (Bool.or_eq_false_iff.mp kept).2
      · exact swept.none w inQueue tok' old
    · exact swept.none w inQueue tok' inSwept

theorem Swept.scopes' (swept : Swept s q) {a : Scopes.Label} (allowed : Scopes.lasting s.scopes a)
    (stepped : Scopes.step s.scopes a = some t.scopes) (queue : q'.queue = q.queue)
    (nodes : t.nodes = s.nodes)
    (swept' : t.swept = s.swept.filter fun tok => decide (Marked t.scopes.slots tok)) :
    Swept t q' where
  scopes := swept.scopes.step allowed stepped
  issued w mem := by
    rw [queue] at mem
    rw [nodes]
    exact (swept.scopes.grows stepped).issued (swept.issued w mem)
  marked tok mem := by
    rw [swept'] at mem
    exact of_decide_eq_true (List.mem_filter.mp mem).2
  none w mem tok inSwept := by
    rw [queue] at mem
    rw [swept'] at inSwept
    rw [nodes]
    have old := swept.none w mem tok (List.mem_filter.mp inSwept).1
    by_contra within
    have before := swept.scopes.isWithin_back allowed stepped (swept.issued w mem)
      (Bool.eq_true_of_not_eq_false within)
    rw [old] at before
    cases before

theorem Swept.step (swept : Swept s q) (served : Served s a t q q') (allowed : scopesLast s a) :
    Swept t q' := by
  cases served.listed with
  | calm same queue token =>
    refine swept.shrink same fun w mem => ?_
    rw [queue] at mem
    exact ⟨mem, token w mem⟩
  | empty same queue =>
    refine swept.shrink same fun w mem => ?_
    rw [queue] at mem
    cases mem
  | join p same queue token issued alert => exact swept.join same queue token issued alert
  | sweep tok scopes queue token swept' => exact swept.sweep scopes queue token swept'
  | scopes b label stepped queue nodes swept' =>
    subst label
    exact swept.scopes' allowed stepped queue nodes swept'

/-! ## Who is in a hand is woken -/

theorem handed_is_woken {taker : Taker} {chain : List (Fin n)} (inv : Inv s q)
    (walks : q.pc u = .walks (.takes taker) chain) (mem : w ∈ chain) :
    ∃ t, Reach step (fun _ a => a = .advance u) s t ∧ t.pc w = .woken taker ∧
      t.wakes w = s.wakes w + 1 := by
  induction chain generalizing s q with
  | nil => cases mem
  | cons x chain ih =>
    have shown := inv.rep.parties u
    rw [walks] at shown
    -- up to the wake
    obtain ⟨s₁, following, reach, here, inv₁, wakes⟩ : ∃ s₁ following,
        Reach step (fun _ a => a = .advance u) s s₁ ∧ s₁.pc u = .waking taker x following ∧
          Inv s₁ q ∧ s₁.wakes = s.wakes := by
      cases here : s.pc u with
      | walking taker' first =>
        rw [here] at shown
        cases shown with
        | walking _ _ _ leads =>
          obtain ⟨rfl, -⟩ := leads
          have stepped : step s (.advance u) =
              some (s.go u (.waking taker x (s.nodes.next x))) := by
            simp only [step, advance]
            rw [here]
          exact ⟨_, s.nodes.next x, Reach.start.next rfl stepped, Function.update_self _ _ _,
            ⟨inv.rep.look here, inv.exclusive, inv.empty⟩, rfl⟩
      | waking taker' y following =>
        rw [here] at shown
        cases shown with
        | waking => exact ⟨s, following, .start, here, inv, rfl⟩
      | idle | waiting | woken | constructing =>
        rw [here] at shown
        cases shown
    have stepped : step s₁ (.advance u) =
        some ((s₁.wake taker x).go u (.walking taker following)) := by
      simp only [step, advance]
      rw [here]
    obtain ⟨chain', walks', rep⟩ := inv₁.rep.wake here
    cases walks.symm.trans walks'
    have asleep := inv₁.rep.waiting (inv₁.rep.sound.carried (w := x) (u := u)
      (by rw [walks]; exact List.mem_cons_self))
    have apart : x ≠ u := by
      rintro rfl
      cases here.symm.trans asleep
    have reach' := reach.next rfl stepped
    rcases eq_or_ne w x with rfl | other
    · refine ⟨_, reach', ?_, ?_⟩
      · simp only [State.go, State.wake, Function.update_of_ne apart, Function.update_self]
      · simp only [State.go, State.wake, Function.update_self, wakes]
    · have behind : w ∈ chain := (List.mem_cons.mp mem).resolve_left other
      obtain ⟨t, later, woken, counted⟩ := ih ⟨rep, inv₁.exclusive, inv₁.empty⟩
        (Function.update_self _ _ _) behind
      refine ⟨t, reach'.trans later, woken, ?_⟩
      rw [counted]
      simp only [State.go, State.wake, Function.update_of_ne other, wakes]

/-! ## The whole run -/

/-- What holds between steps, where `q` is the queue of the waiters. -/
structure FutureOk (s : State n) (q : Queue n) : Prop where
  exclusive : ¬ (s.ready = true ∧ s.broken = true)
  /-- Who comes later finds it ready or broken, so nobody is left. -/
  empty : s.ready = true ∨ s.broken = true → s.nodes.waiters = none
  /-- From `waiters_` one meets the waiters, the last one first. -/
  list : Leads s.nodes.next s.nodes.waiters q.queue.reverse none
  parties : ∀ p, Shows s.nodes.next (s.pc p) (q.pc p)
  /-- Who waits is in the list or in one hand, once, and nobody else is. -/
  placed : ∀ w, q.queue.count w + ∑ u, (q.pc u).hand.count w = if s.pc w = .waiting then 1 else 0
  /-- Each wait is ended by one wake. -/
  once : ∀ w, s.waits w = s.wakes w + if s.pc w = .waiting then 1 else 0
  told : ∀ u taker chain, q.pc u = .walks (.takes taker) chain →
    ∀ w ∈ chain, s.nodes.status w = taker.status
  /-- Who is in a hand is woken by the steps of the one who has it there. -/
  woken : ∀ u taker chain, q.pc u = .walks (.takes taker) chain → ∀ w ∈ chain,
    ∃ t, Reach step (fun _ a => a = .advance u) s t ∧ t.pc w = .woken taker ∧
      t.wakes w = s.wakes w + 1
  /-- The calls get through their sections. -/
  publishes : ∀ p broken, s.pc p = .idle → (step s (.publish p broken)).isSome = true
  cancels : ∀ p scope, s.pc p = .idle → s.scopes.has scope →
    (step s (.cancelWaiters p scope)).isSome = true

/-- No waiter in the list lies within a scope that had been cancelled when a `CancelWaiters` of it
went through the list. -/
def NoneListed (s : State n) : Prop :=
  ∀ waiting, Leads s.nodes.next s.nodes.waiters waiting none → ∀ w ∈ waiting, ∀ tok ∈ s.swept,
    isWithin s.scopes.slots (s.nodes.token w) tok = false

theorem Rep.sleeps (rep : Rep s q) (w : Fin n) :
    (q.pc w).sleeps = if s.pc w = .waiting then 1 else 0 := by
  split
  · rename_i here
    exact rep.asleep here
  · rename_i other
    exact rep.awake other

theorem Inv.ok (inv : Inv s q) : FutureOk s q where
  exclusive := inv.exclusive
  empty done := by
    have list := inv.rep.list
    rw [inv.empty done] at list
    exact list
  list := inv.rep.list
  parties := inv.rep.parties
  placed w := by
    rw [← inv.rep.sleeps w]
    exact inv.rep.sound.placed w
  once w := by
    rw [← inv.rep.sleeps w, ← inv.rep.waits, ← inv.rep.wakes]
    exact inv.rep.sound.once w
  told := inv.rep.told
  woken u taker chain walks w mem := handed_is_woken inv walks mem
  publishes p broken idle := by
    have place : (s.pc p).place = some .idle := by
      rw [idle]
      rfl
    have free := inv.free place
    obtain ⟨nodes, ran, -⟩ := inv.rep.publish broken free.1 free.2
    simp only [Future.step, State.publish]
    rw [if_pos idle, ran]
    split <;> rfl
  cancels p scope idle has := by
    obtain ⟨nodes, taken, ran, -⟩ := inv.rep.cancel (s.matches (s.tokenOf scope)) idle
    simp only [Future.step, State.cancelWaiters]
    rw [if_pos ⟨idle, has⟩, ran]
    rfl

theorem inv_of_reach (reach : Reach step anyStep (initial n) s) : ∃ q, Inv s q := by
  refine reach.invariant (I := fun s => ∃ q, Inv s q) ⟨_, initial_inv⟩ ?_
  rintro s t a ⟨q, inv⟩ - stepped
  obtain ⟨q', inv', -⟩ := inv.step stepped
  exact ⟨q', inv'⟩

theorem swept_of_reach (reach : Reach step scopesLast (initial n) s) :
    ∃ q, Inv s q ∧ Swept s q := by
  refine reach.invariant (I := fun s => ∃ q, Inv s q ∧ Swept s q)
    ⟨_, initial_inv, initial_swept⟩ ?_
  rintro s t a ⟨q, inv, swept⟩ allowed stepped
  obtain ⟨q', inv', served⟩ := inv.step stepped
  exact ⟨q', inv', swept.step served allowed⟩

theorem Swept.noneListed (swept : Swept s q) (inv : Inv s q) : NoneListed s := by
  intro waiting leads w mem
  have same := leads.unique inv.rep.list
  rw [same] at mem
  exact swept.none w (List.mem_reverse.mp mem)

/-- A future is ready or broken, once and for all, and each of its waiters is woken once and told by
whom.  As long as no slot comes to its last generation no waiter of a swept scope is in the list. -/
theorem future_delivers :
    (∀ s : State n, Reach step anyStep (initial n) s → ∃ q, FutureOk s q ∧
      ∀ a t, step s a = some t → ∃ q', FutureOk t q' ∧ Served s a t q q') ∧
    ∀ s : State n, Reach step scopesLast (initial n) s → NoneListed s := by
  constructor
  · intro s reach
    obtain ⟨q, inv⟩ := inv_of_reach reach
    refine ⟨q, inv.ok, fun a t stepped => ?_⟩
    obtain ⟨q', inv', served⟩ := inv.step stepped
    exact ⟨q', inv'.ok, served⟩
  · intro s reach
    obtain ⟨q, inv, swept⟩ := swept_of_reach reach
    exact swept.noneListed inv

/-- Party 0 waits with the token of a scope, party 1 without one.  The scope is cancelled and party
2 sweeps it, and then party 3 breaks the promise. -/
def sweptLabels : List (Label 4) :=
  [.scopes (.create none), .scopes (.advance 0), .scopes (.advance 0), .readyOrQueue 0 (some 0),
    .readyOrQueue 1 none, .scopes (.cancel 0), .cancelWaiters 2 (some 0), .publish 3 true]

def swept : State 4 := (run step scopesLast (initial 4) sweptLabels).getD (initial 4)

theorem swept_delivered : swept.pc 2 = .walking .cancelWaiters (some 0) ∧
    swept.pc 3 = .walking (.publish true) (some 1) ∧ swept.swept = [0] ∧
    (∃ q, FutureOk swept q ∧
      ∀ a t, step swept a = some t → ∃ q', FutureOk t q' ∧ Served swept a t q q') ∧
    NoneListed swept := by
  have reach : Reach step scopesLast (initial 4) swept :=
    Reach.of_isSome sweptLabels (by decide +kernel)
  exact ⟨by decide +kernel, by decide +kernel, by decide +kernel,
    future_delivers.1 swept (reach.weaken fun _ => trivial), future_delivers.2 swept reach⟩

end JLibSched.Future
