import JLibSched.Future.Waiters

/-!
# Delivery

A future is ready or broken, once and for all, and then it has no waiters.  Every waiter that was
queued is in the list or in one hand until it is woken, once, and it is told who took it off: that
the future is ready or broken by a `Publish`, that it was cancelled by a `CancelWaiters`.
-/

namespace JLibSched.Future

open Transition WaitQueue Cancel Links

variable {n : Nat} {s t : State n} {q q' : Queue n} {a : Label n} {p u w : Fin n}

/-- The waiters, and the flags. -/
structure Inv (s : State n) (q : Queue n) : Prop where
  rep : Rep s q
  exclusive : ¬ (s.ready = true ∧ s.broken = true)
  empty : s.ready = true ∨ s.broken = true → q.queue = []

theorem initial_inv : Inv (initial n) (Line.empty .idle) where
  rep := initial_rep
  exclusive absurd := by cases absurd.1
  empty _ := rfl

/-- The scopes, and the swept ones, are as before. -/
structure SameScopes (s t : State n) : Prop where
  scopes : t.scopes = s.scopes
  swept : t.swept = s.swept

/-- What a step does to the list and the scopes. -/
inductive Listed (s : State n) (a : Label n) (t : State n) (q q' : Queue n) : Prop where
  | calm (same : SameScopes s t) (queue : q'.queue = q.queue)
      (token : ∀ w ∈ q.queue, t.nodes.token w = s.nodes.token w)
  | empty (same : SameScopes s t) (queue : q'.queue = [])
  | join (p : Fin n) (same : SameScopes s t) (queue : q'.queue = q.queue ++ [p])
      (token : ∀ w ∈ q.queue, t.nodes.token w = s.nodes.token w)
      (issued : s.scopes.Issued (t.nodes.token p))
      (alert : t.nodes.token p ≠ kNone → cancelled s.scopes.slots (t.nodes.token p) = false)
  | sweep (tok : Nat) (scopes : t.scopes = s.scopes)
      (queue : q'.queue = q.queue.filter fun w => !s.matches tok w)
      (token : t.nodes.token = s.nodes.token)
      (swept : t.swept = if Marked s.scopes.slots tok then tok :: s.swept else s.swept)
  | scopes (b : Scopes.Label) (label : a = .scopes b)
      (stepped : Scopes.step s.scopes b = some t.scopes)
      (queue : q'.queue = q.queue) (nodes : t.nodes = s.nodes)
      (swept : t.swept = s.swept.filter fun tok => decide (Marked t.scopes.slots tok))

/-- What a step does to the waiters. -/
structure Served (s : State n) (a : Label n) (t : State n) (q q' : Queue n) : Prop where
  ready : s.ready = true → t.ready = true
  broken : s.broken = true → t.broken = true
  /-- A waiter stays in the list until it is taken off. -/
  queue : ∀ w ∈ q.queue, w ∈ q'.queue ∨
    ∃ u taker chain, q'.pc u = .walks (.takes taker) chain ∧ w ∈ chain
  /-- It stays in that hand until it is woken. -/
  hand : ∀ u taker chain, q.pc u = .walks (.takes taker) chain → ∀ w ∈ chain,
    (∃ chain', q'.pc u = .walks (.takes taker) chain' ∧ w ∈ chain') ∨
      t.pc w = .woken taker ∧ t.wakes w = s.wakes w + 1
  /-- Only waiters are woken, by the one who has taken them off. -/
  wakes : ∀ w, t.wakes w = s.wakes w ∨ t.wakes w = s.wakes w + 1 ∧ s.pc w = .waiting ∧
    ∃ u taker chain, q.pc u = .walks (.takes taker) (w :: chain) ∧ t.pc w = .woken taker
  /-- Who was woken returns what it was told. -/
  told : ∀ w taker, s.pc w = .woken taker → t.pc w = .woken taker ∨
    t.pc w = .idle ∧ t.answers w = taker.status :: s.answers w
  listed : Listed s a t q q'

/-- A step that takes nobody off and wakes nobody. -/
theorem Served.calm (ready : s.ready = true → t.ready = true)
    (broken : s.broken = true → t.broken = true) (queue : ∀ w ∈ q.queue, w ∈ q'.queue)
    (hand : ∀ u taker w chain, q.pc u = .walks (.takes taker) (w :: chain) → q'.pc u = q.pc u)
    (wakes : t.wakes = s.wakes)
    (told : ∀ w taker, s.pc w = .woken taker → t.pc w = .woken taker ∨
      t.pc w = .idle ∧ t.answers w = taker.status :: s.answers w)
    (listed : Listed s a t q q') : Served s a t q q' where
  ready := ready
  broken := broken
  queue w mem := .inl (queue w mem)
  hand u taker chain walks w mem := by
    cases chain with
    | nil => cases mem
    | cons x chain => exact .inl ⟨x :: chain, (hand u taker x chain walks).trans walks, mem⟩
  wakes w := .inl (by rw [wakes])
  told := told
  listed := listed

/-- Those who were woken are still to return. -/
theorem told_of_update {pc : Pc n} (moved : t.pc = Function.update s.pc p pc)
    (notWoken : ∀ taker, s.pc p ≠ .woken taker) (w : Fin n) (taker : Taker)
    (back : s.pc w = .woken taker) :
    t.pc w = .woken taker ∨ t.pc w = .idle ∧ t.answers w = taker.status :: s.answers w := by
  left
  rw [moved, Function.update_of_ne]
  · exact back
  · rintro rfl
    exact notWoken taker back

theorem hand_of_update {pc' : QueuePc n} (moved : q'.pc = Function.update q.pc p pc')
    (free : (q.pc p).hand = []) (u : Fin n) (taker : Taker) (w : Fin n) (chain : List (Fin n))
    (walks : q.pc u = .walks (.takes taker) (w :: chain)) : q'.pc u = q.pc u := by
  rw [moved, Function.update_of_ne]
  rintro rfl
  rw [walks] at free
  cases free

/-- What a step leads to. -/
def Serves (s : State n) (a : Label n) (t : State n) (q : Queue n) : Prop := ∃ q', Inv t q' ∧ Served s a t q q'

theorem Inv.free (inv : Inv s q) {place : Place} (here : (s.pc p).place = some place) :
    (q.pc p).hand = [] ∧ (q.pc p).sleeps = 0 := by
  rw [inv.rep.stands here]
  exact ⟨rfl, rfl⟩

/-- A party that carries nobody and was not woken goes to another place. -/
theorem Inv.go (inv : Inv s q) (pc : Pc n) {place place' : Place}
    (here : (s.pc p).place = some place) (stands : pc.place = some place')
    (moved : t.pc = Function.update s.pc p pc) (nodes : t.nodes = s.nodes)
    (waits : t.waits = s.waits) (wakes : t.wakes = s.wakes) (ready : t.ready = s.ready)
    (broken : t.broken = s.broken) (same : SameScopes s t) : Serves s a t q := by
  obtain ⟨free, awake⟩ := inv.free here
  refine ⟨q.set p (.stands place'), ⟨inv.rep.go pc free awake stands moved nodes waits wakes, ?_, ?_⟩,
    .calm ?_ ?_ (fun _ => id) (hand_of_update rfl free) wakes (told_of_update moved ?_)
      (.calm same rfl fun _ _ => by rw [nodes])⟩
  · rw [ready, broken]
    exact inv.exclusive
  · rw [ready, broken]
    exact inv.empty
  · rw [ready]
    exact id
  · rw [broken]
    exact id
  · intro taker woken
    rw [woken] at here
    cases here

theorem Inv.readyOrQueue (inv : Inv s q) {token : Nat} (issued : s.scopes.Issued token)
    (here : s.pc p = .idle) : Serves s a (s.readyOrQueue p token) q := by
  have place : (s.pc p).place = some .idle := by
    rw [here]
    rfl
  have answers (status : FutureStatus) : Serves s a (s.answer p status) q :=
    inv.go .idle place rfl rfl rfl rfl rfl rfl rfl ⟨rfl, rfl⟩
  unfold State.readyOrQueue
  split
  · exact answers .ready
  · rename_i notReady
    split
    · exact answers .broken
    · rename_i notBroken
      split
      · exact answers .cancelled
      · rename_i alert
        obtain ⟨free, -⟩ := inv.free place
        have own : Function.update s.nodes.token p token p = token := Function.update_self _ _ _
        refine ⟨q.join p (), ⟨inv.rep.push token here, inv.exclusive, fun either => ?_⟩,
          .calm id id (fun w mem => List.mem_append_left _ mem) (hand_of_update rfl free) rfl
            (told_of_update rfl ?_) (.join p ⟨rfl, rfl⟩ rfl (fun w mem => ?_) ?_ ?_)⟩
        · rcases either with ready | broken
          · exact absurd ready notReady
          · exact absurd broken notBroken
        · intro taker woken
          cases here.symm.trans woken
        · refine Function.update_of_ne ?_ _ _
          rintro rfl
          refine inv.rep.not_queued ?_ mem
          rw [here]
          exact fun absurd => by cases absurd
        · simp only [Nodes.push, own]
          exact issued
        · simp only [Nodes.push, own]
          intro valid
          by_contra cancels
          exact alert ⟨valid, Bool.eq_true_of_not_eq_false cancels⟩

theorem Inv.publish (inv : Inv s q) {place : Place} (here : (s.pc p).place = some place)
    {broken : Bool} (stepped : s.publish p broken = some t) : Serves s a t q := by
  obtain ⟨free, awake⟩ := inv.free here
  have notWoken (taker : Taker) : s.pc p ≠ .woken taker := by
    intro woken
    rw [woken] at here
    cases here
  unfold State.publish at stepped
  split at stepped
  · cases stepped
    exact inv.go .idle here rfl rfl rfl rfl rfl rfl rfl ⟨rfl, rfl⟩
  · rename_i unset
    rw [Bool.or_eq_true, not_or, Bool.not_eq_true, Bool.not_eq_true] at unset
    obtain ⟨notReady, notBroken⟩ := unset
    obtain ⟨nodes, ran, -, -, rep⟩ := inv.rep.publish broken free awake
    obtain ⟨nodes', ran', rfl⟩ := Option.map_eq_some_iff.mp stepped
    cases ran.symm.trans ran'
    refine ⟨takeAll q p (.publish broken), ⟨rep _ rfl rfl rfl rfl, ?_, fun _ => rfl⟩, ?_⟩
    · rintro ⟨ready, breaks⟩
      cases broken with
      | false => exact Bool.false_ne_true (notBroken.symm.trans breaks)
      | true => exact Bool.false_ne_true (notReady.symm.trans ready)
    · constructor
      case ready =>
        intro ready
        rw [notReady] at ready
        cases ready
      case broken =>
        intro breaks
        rw [notBroken] at breaks
        cases breaks
      case queue =>
        intro w mem
        exact .inr ⟨p, .publish broken, q.queue.reverse, Function.update_self _ _ _,
          List.mem_reverse.mpr mem⟩
      case hand =>
        intro u taker chain walks w mem
        cases chain with
        | nil => cases mem
        | cons x chain =>
          have same : (takeAll q p (.publish broken)).pc u = q.pc u :=
            hand_of_update rfl free u taker x chain walks
          exact .inl ⟨x :: chain, same.trans walks, mem⟩
      case wakes => exact fun _ => .inl rfl
      case told => exact told_of_update rfl notWoken
      case listed => exact .empty ⟨rfl, rfl⟩ rfl

theorem Inv.cancelWaiters (inv : Inv s q) (token : Nat) (here : s.pc p = .idle)
    (stepped : s.cancelWaiters p token = some t) : Serves s a t q := by
  have place : (s.pc p).place = some .idle := by
    rw [here]
    rfl
  obtain ⟨free, -⟩ := inv.free place
  obtain ⟨nodes, taken, ran, tokens, rep⟩ := inv.rep.cancel (s.matches token) here
  unfold State.cancelWaiters at stepped
  obtain ⟨found, ran', rfl⟩ := Option.map_eq_some_iff.mp stepped
  cases ran.symm.trans ran'
  refine ⟨q.takeIf p (.takes .cancelWaiters) (s.matches token),
    ⟨rep _ rfl rfl rfl rfl, inv.exclusive, fun either => ?_⟩, ?_⟩
  · have empty := inv.empty either
    simp only [Line.takeIf, Line.set, empty, List.filter_nil]
  · constructor
    case ready => exact id
    case broken => exact id
    case queue =>
      intro w mem
      cases chosen : s.matches token w with
      | true =>
        exact .inr ⟨p, .cancelWaiters, _, Function.update_self _ _ _,
          List.mem_filter.mpr ⟨mem, chosen⟩⟩
      | false => exact .inl (List.mem_filter.mpr ⟨mem, by rw [chosen]; rfl⟩)
    case hand =>
      intro u taker chain walks w mem
      cases chain with
      | nil => cases mem
      | cons x chain =>
        have same : (q.takeIf p (.takes .cancelWaiters) (s.matches token)).pc u = q.pc u :=
          hand_of_update rfl free u taker x chain walks
        exact .inl ⟨x :: chain, same.trans walks, mem⟩
    case wakes => exact fun _ => .inl rfl
    case told =>
      refine told_of_update rfl fun taker woken => ?_
      cases here.symm.trans woken
    case listed => exact .sweep token rfl rfl tokens rfl

theorem Inv.wake (inv : Inv s q) {taker : Taker} {following : Option (Fin n)}
    (here : s.pc p = .waking taker w following) :
    Serves s a ((s.wake taker w).go p (.walking taker following)) q := by
  obtain ⟨chain, walks, rep⟩ := inv.rep.wake here
  have mem : w ∈ (q.pc p).hand := by
    rw [walks]
    exact List.mem_cons_self
  have waits := inv.rep.waiting (inv.rep.sound.carried mem)
  have apart : w ≠ p := by
    rintro rfl
    cases waits.symm.trans here
  have woken : ((s.wake taker w).go p (.walking taker following)).pc w = .woken taker := by
    simp only [State.go, State.wake, Function.update_of_ne apart, Function.update_self]
  have others {r : Fin n} (notP : r ≠ p) (notW : r ≠ w) :
      ((s.wake taker w).go p (.walking taker following)).pc r = s.pc r := by
    simp only [State.go, State.wake, Function.update_of_ne notP, Function.update_of_ne notW]
  refine ⟨_, ⟨rep, inv.exclusive, inv.empty⟩, id, id, fun w mem => .inl mem, ?_, ?_, ?_,
    .calm ⟨rfl, rfl⟩ rfl fun _ _ => rfl⟩
  · intro u taker' chain' walks' r memR
    simp only [Line.wake, Line.set]
    rcases eq_or_ne u p with rfl | notP
    · cases walks.symm.trans walks'
      rw [Function.update_self]
      rcases List.mem_cons.mp memR with rfl | behind
      · refine .inr ⟨woken, ?_⟩
        simp only [State.go, State.wake, Function.update_self]
      · exact .inl ⟨chain, rfl, behind⟩
    · have notW : u ≠ w := by
        rintro rfl
        have shown := inv.rep.asleep waits
        rw [walks'] at shown
        cases shown
      rw [Function.update_of_ne notP, Function.update_of_ne notW]
      exact .inl ⟨chain', walks', memR⟩
  · intro r
    simp only [State.go, State.wake]
    rcases eq_or_ne r w with rfl | other
    · rw [Function.update_self]
      exact .inr ⟨rfl, waits, p, taker, chain, walks, woken⟩
    · exact .inl (Function.update_of_ne other _ _)
  · intro r taker' back
    left
    rw [others]
    · exact back
    · rintro rfl
      cases here.symm.trans back
    · rintro rfl
      cases waits.symm.trans back

/-- What was woken returns. -/
theorem Inv.back (inv : Inv s q) {taker : Taker} (here : s.pc p = .woken taker) :
    Serves s a (s.answer p (s.nodes.status p)) q := by
  have shown := inv.rep.parties p
  rw [here] at shown
  have woken : q.pc p = .woken taker := by
    generalize q.pc p = pc' at shown ⊢
    cases shown
    rfl
  have free : (q.pc p).hand = [] := by
    rw [woken]
    rfl
  refine ⟨q.set p (.stands .idle), ⟨?_, inv.exclusive, inv.empty⟩,
    .calm id id (fun _ => id) (hand_of_update rfl free) rfl (fun w taker' back => ?_)
      (.calm ⟨rfl, rfl⟩ rfl fun _ _ => rfl)⟩
  · exact inv.rep.go .idle free (by rw [woken]; rfl) rfl rfl rfl rfl rfl
  · rcases eq_or_ne w p with rfl | other
    · cases here.symm.trans back
      right
      simp only [State.answer, State.go, Function.update_self, true_and]
      rw [inv.rep.back w taker here]
    · left
      simp only [State.answer, State.go, Function.update_of_ne other]
      exact back

theorem Inv.advance (inv : Inv s q) (stepped : advance s p = some t) : Serves s a t q := by
  have shown := inv.rep.parties p
  unfold Future.advance at stepped
  cases here : s.pc p with
  | idle | waiting =>
    rw [here] at stepped
    cases stepped
  | constructing =>
    rw [here] at stepped
    have place : (s.pc p).place = some .constructing := by
      rw [here]
      rfl
    exact inv.publish place stepped
  | woken taker =>
    rw [here] at stepped
    cases stepped
    exact inv.back here
  | waking taker w following =>
    rw [here] at stepped
    cases stepped
    exact inv.wake here
  | walking taker first =>
    have notWoken (taker' : Taker) : s.pc p ≠ .woken taker' := by
      rw [here]
      exact fun absurd => by cases absurd
    cases first with
    | none =>
      rw [here] at stepped shown
      cases stepped
      have walks : q.pc p = .walks (.takes taker) [] := by
        generalize q.pc p = pc' at shown ⊢
        cases shown with
        | walking _ _ chain leads =>
          cases chain with
          | nil => rfl
          | cons x chain => cases leads.1
      have free : (q.pc p).hand = [] := by
        rw [walks]
        rfl
      exact ⟨q.set p (.stands .idle), ⟨inv.rep.go .idle free (by rw [walks]; rfl) rfl rfl rfl
        rfl rfl, inv.exclusive, inv.empty⟩, .calm id id (fun _ => id)
        (hand_of_update rfl free) rfl (told_of_update rfl notWoken)
        (.calm ⟨rfl, rfl⟩ rfl fun _ _ => rfl)⟩
    | some w =>
      rw [here] at stepped
      cases stepped
      exact ⟨q, ⟨inv.rep.look here, inv.exclusive, inv.empty⟩, .calm id id (fun _ => id)
        (fun _ _ _ _ _ => rfl) rfl (told_of_update rfl notWoken)
        (.calm ⟨rfl, rfl⟩ rfl fun _ _ => rfl)⟩

/-- The node of a party that does not use it is written. -/
theorem Rep.reuse (rep : Rep s q) (unused : (s.pc p).usesNode = false) {next : Option (Fin n)}
    {token : Nat} {status : FutureStatus} :
    Rep { s with
      nodes := { s.nodes with
        next := Function.update s.nodes.next p next
        token := Function.update s.nodes.token p token
        status := Function.update s.nodes.status p status } } q := by
  have notWaiting : s.pc p ≠ .waiting := by
    intro here
    rw [here] at unused
    cases unused
  have carried {u y : Fin n} (mem : y ∈ (q.pc u).hand) : y ≠ p := by
    rintro rfl
    exact rep.not_carried notWaiting u mem
  constructor
  case sound => exact rep.sound
  case list =>
    exact rep.list.write (fun mem => rep.not_queued notWaiting (List.mem_reverse.mp mem)) _
  case parties =>
    exact fun r => (rep.parties r).congr fun y mem => Function.update_of_ne (carried mem) _ _
  case told =>
    intro u taker chain walks w mem
    have other : w ≠ p := carried (u := u) (by rw [walks]; exact mem)
    simp only [Function.update_of_ne other]
    exact rep.told u taker chain walks w mem
  case back =>
    intro w taker back
    have other : w ≠ p := by
      rintro rfl
      rw [back] at unused
      cases unused
    simp only [Function.update_of_ne other]
    exact rep.back w taker back
  case waits => exact rep.waits
  case wakes => exact rep.wakes

theorem Inv.step (inv : Inv s q) (stepped : Future.step s a = some t) : Serves s a t q := by
  cases a with
  | readyOrQueue p scope =>
    simp only [Future.step] at stepped
    split at stepped
    · rename_i may
      cases stepped
      refine inv.readyOrQueue ?_ may.1
      cases scope with
      | none => exact .inl rfl
      | some k => exact .inr ⟨k, may.2 k rfl, rfl⟩
    · cases stepped
  | setValue p =>
    simp only [Future.step] at stepped
    split at stepped
    · rename_i idle
      have here : (s.pc p).place = some .idle := by
        rw [idle]
        rfl
      cases stepped
      split
      · exact inv.go .idle here rfl rfl rfl rfl rfl rfl rfl ⟨rfl, rfl⟩
      · exact inv.go .constructing here rfl rfl rfl rfl rfl rfl rfl ⟨rfl, rfl⟩
    · cases stepped
  | publish p broken =>
    simp only [Future.step] at stepped
    split at stepped
    · rename_i idle
      have place : (s.pc p).place = some .idle := by
        rw [idle]
        rfl
      exact inv.publish place stepped
    · cases stepped
  | cancelWaiters p scope =>
    simp only [Future.step] at stepped
    split at stepped
    · rename_i may
      exact inv.cancelWaiters _ may.1 stepped
    · cases stepped
  | advance p => exact inv.advance stepped
  | reuse p next token status =>
    simp only [Future.step] at stepped
    split at stepped
    · cases stepped
    · rename_i unused
      cases stepped
      refine ⟨q, ⟨inv.rep.reuse (Bool.eq_false_of_not_eq_true unused), inv.exclusive, inv.empty⟩,
        .calm id id (fun _ => id) (fun _ _ _ _ _ => rfl) rfl (fun _ _ => .inl)
          (.calm ⟨rfl, rfl⟩ rfl fun w mem => Function.update_of_ne ?_ _ _)⟩
      rintro rfl
      rw [inv.rep.waiting (inv.rep.sound.queued mem)] at unused
      exact unused rfl
  | scopes a =>
    simp only [Future.step] at stepped
    obtain ⟨scopes, moved, rfl⟩ := Option.map_eq_some_iff.mp stepped
    refine ⟨q, ⟨?_, inv.exclusive, inv.empty⟩, .calm id id (fun _ => id)
      (fun _ _ _ _ _ => rfl) rfl (fun _ _ => .inl) (.scopes a rfl moved rfl rfl rfl)⟩
    exact ⟨inv.rep.sound, inv.rep.list, inv.rep.parties, inv.rep.told, inv.rep.back,
      inv.rep.waits, inv.rep.wakes⟩

end JLibSched.Future
