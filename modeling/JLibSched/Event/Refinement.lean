import JLibSched.Event.Unlinking

/-!
# The list of waiters that the links hold

The links of an event hold a queue of sleeping parties, and each `WakeChain` has a chain of them in
its hand (`Rep`).  `AddWaiter` joins the queue, `DetachAll` and the loop of `CancelWaiters` take
sleepers off, and `WakeChain` wakes them one after the other; the links of a task that does not
sleep are on no list.
-/

namespace JLibSched.Event

open Transition WaitQueue Cancel Links

/-- What a party does with the queue. -/
inductive Place where
  | idle
  | checked
  | tested
  | adding
  | returning
  | detaching
  | signalAll
  | cancelWaiters
deriving DecidableEq, Repr

abbrev QueuePc (n : Nat) := WaitQueue.Pc n Place Unit Bool

abbrev Queue (n : Nat) := Line n Place Unit Bool

/-- Who has taken a chain of waiters off. -/
def taker (cancel : Bool) : Place := if cancel then .cancelWaiters else .signalAll

variable {n : Nat}

/-- What a party is doing shows on the queue. -/
inductive Shows (next : Fin n → Option (Fin n)) : Pc n → QueuePc n → Prop where
  | idle : Shows next .idle (.stands .idle)
  | checked : Shows next .checked (.stands .checked)
  | tested : Shows next .tested (.stands .tested)
  | adding : Shows next .adding (.stands .adding)
  | returning : Shows next .returning (.stands .returning)
  | detaching : Shows next .detaching (.stands .detaching)
  | parked : Shows next .parked (.asleep ())
  | woken (cancel : Bool) : Shows next (.woken cancel) (.woken cancel)
  | walking (cancel : Bool) (t : Option (Fin n)) (chain : List (Fin n))
      (leads : Leads next t chain none) :
      Shows next (.walking cancel t) (.walks (taker cancel) chain)
  | waking (cancel : Bool) (t : Fin n) (following : Option (Fin n)) (chain : List (Fin n))
      (leads : Leads next following chain none) :
      Shows next (.waking cancel t following) (.walks (taker cancel) (t :: chain))

/-- The links and the parties of an event represent a queue of sleepers. -/
structure Rep (s : State n) (q : Queue n) : Prop where
  sound : q.Sound
  holds : s.links.Holds q.queue
  parties : ∀ p, Shows s.links.next (s.pc p) (q.pc p)
  /-- `AddWaiter` has cleared the link of the task before it takes the lock. -/
  adding : ∀ p, s.pc p = .adding → s.links.next p = none
  waits : q.waits = s.waits
  wakes : q.wakes = s.wakes

theorem initial_rep (tasks : Tasks n) : Rep (initial tasks) (Line.empty .idle) where
  sound := Line.empty_sound _
  holds := Doubly.holds_empty _ _
  parties _ := .idle
  adding p absurd := by cases absurd
  waits := rfl
  wakes := rfl

/-- Only the links of the sleepers in hand matter. -/
theorem Shows.congr {next next' : Fin n → Option (Fin n)} {pc : Pc n} {pc' : QueuePc n}
    (shows' : Shows next pc pc') (same : ∀ y ∈ pc'.hand, next' y = next y) :
    Shows next' pc pc' := by
  cases shows' with
  | idle => exact .idle
  | checked => exact .checked
  | tested => exact .tested
  | adding => exact .adding
  | returning => exact .returning
  | detaching => exact .detaching
  | parked => exact .parked
  | woken cancel => exact .woken cancel
  | walking cancel t chain leads => exact .walking cancel t chain (leads.congr same)
  | waking cancel t following chain leads =>
    exact .waking cancel t following chain
      (leads.congr fun y mem => same y (List.mem_cons_of_mem _ mem))

variable {s t : State n} {q : Queue n} {p u w : Fin n}

/-- The sleepers are the tasks that are parked. -/
theorem Rep.parked (rep : Rep s q) (asleep : (q.pc w).sleeps = 1) : s.pc w = .parked := by
  have shown := rep.parties w
  cases here : q.pc w with
  | asleep node =>
    rw [here] at shown
    generalize s.pc w = pc at shown ⊢
    cases shown
    rfl
  | _ =>
    rw [here] at asleep
    cases asleep

theorem Rep.awake (rep : Rep s q) (other : s.pc w ≠ .parked) : (q.pc w).sleeps = 0 := by
  have most := Line.Sound.sleeps_le (q := q) w
  by_contra asleep
  exact other (rep.parked (by omega))

theorem Rep.not_queued (rep : Rep s q) (other : s.pc w ≠ .parked) : w ∉ q.queue :=
  fun mem => other (rep.parked (rep.sound.queued mem))

theorem Rep.not_carried (rep : Rep s q) (other : s.pc w ≠ .parked) (u : Fin n) :
    w ∉ (q.pc u).hand :=
  fun mem => other (rep.parked (rep.sound.carried mem))

/-- What a party without waiters does on the queue. -/
def Pc.place : Pc n → Option Place
  | .idle => some .idle
  | .checked => some .checked
  | .tested => some .tested
  | .adding => some .adding
  | .returning => some .returning
  | .detaching => some .detaching
  | .parked | .woken _ | .walking _ _ | .waking _ _ _ => none

theorem shows_place {next : Fin n → Option (Fin n)} {pc : Pc n} {place : Place}
    (stands : pc.place = some place) : Shows next pc (.stands place) := by
  cases pc with
  | idle => cases stands; exact .idle
  | checked => cases stands; exact .checked
  | tested => cases stands; exact .tested
  | adding => cases stands; exact .adding
  | returning => cases stands; exact .returning
  | detaching => cases stands; exact .detaching
  | parked | woken | walking | waking => cases stands

/-- A party that shows as standing stands. -/
theorem Shows.stands {next : Fin n → Option (Fin n)} {pc : Pc n} {pc' : QueuePc n} {place : Place}
    (shows' : Shows next pc pc') (stands : pc.place = some place) : pc' = .stands place := by
  cases shows' with
  | parked | woken | walking | waking => cases stands
  | idle | checked | tested | adding | returning | detaching => cases stands; rfl

/-- One party moves, and the links of the others' sleepers stay. -/
theorem Rep.parties_update (rep : Rep s q) {q' : Queue n} (pc : Pc n) (pc' : QueuePc n)
    (moved : t.pc = Function.update s.pc p pc) (moved' : q'.pc = Function.update q.pc p pc')
    (mine : Shows t.links.next pc pc')
    (same : ∀ u, u ≠ p → ∀ y ∈ (q.pc u).hand, t.links.next y = s.links.next y) (r : Fin n) :
    Shows t.links.next (t.pc r) (q'.pc r) := by
  rw [moved, moved']
  rcases eq_or_ne r p with rfl | other
  · rw [Function.update_self, Function.update_self]
    exact mine
  · rw [Function.update_of_ne other, Function.update_of_ne other]
    exact (rep.parties r).congr (same r other)

/-- The parties that are about to take the lock in `AddWaiter` are as before. -/
theorem Rep.adding_update (rep : Rep s q) {pc : Pc n} (moved : t.pc = Function.update s.pc p pc)
    (mine : pc = .adding → t.links.next p = none)
    (same : ∀ r, r ≠ p → s.pc r = .adding → t.links.next r = s.links.next r) (r : Fin n)
    (here : t.pc r = .adding) : t.links.next r = none := by
  rw [moved] at here
  rcases eq_or_ne r p with rfl | other
  · rw [Function.update_self] at here
    exact mine here
  · rw [Function.update_of_ne other] at here
    rw [same r other here]
    exact rep.adding r here

/-- A party that carries nobody and is awake goes to another place. -/
theorem Rep.go (rep : Rep s q) (pc : Pc n) {place : Place} (free : (q.pc p).hand = [])
    (awake : (q.pc p).sleeps = 0) (stands : pc.place = some place) (other : pc ≠ .adding)
    (moved : t.pc = Function.update s.pc p pc) (links : t.links = s.links)
    (waits : t.waits = s.waits) (wakes : t.wakes = s.wakes) :
    Rep t (q.set p (.stands place)) where
  sound := rep.sound.set (by rw [free]; rfl) (by rw [awake]; rfl) fun _ _ absurd => by cases absurd
  holds := by
    rw [links]
    exact rep.holds
  parties := rep.parties_update pc (.stands place) moved rfl (shows_place stands)
    fun _ _ _ _ => by rw [links]
  adding := rep.adding_update moved (fun absurd => (other absurd).elim) fun _ _ _ => by rw [links]
  waits := rep.waits.trans waits.symm
  wakes := rep.wakes.trans wakes.symm

/-! ## What a step does to the queue -/

/-- The waiters that a `CancelWaiters` takes off. -/
def State.covers (s : State n) (tok : Nat) (w : Fin n) : Bool :=
  decide (tok = kNone) || s.within tok w

/-- The next step of a call, on the queue. -/
def Advances (s : State n) (q : Queue n) (p : Fin n) (q' : Queue n) : Prop :=
  match s.pc p with
  | .adding => q' = q.join p ()
  | .detaching => q' = q.takeIf p .signalAll fun _ => true
  | .walking _ (some _) => q' = q
  | .waking cancel w _ => ∃ rest, q.pc p = .walks (taker cancel) (w :: rest) ∧
      q' = q.wake p w cancel (.walks (taker cancel) rest)
  | .checked | .tested | .walking _ none | .woken _ | .returning =>
    ∃ place, q' = q.set p (.stands place)
  | .idle | .parked => False

/-- A step, on the queue. -/
def Does (s : State n) (q : Queue n) (q' : Queue n) : Label n → Prop
  | .waitOnEvent p | .waitOnEventCancellable p => ∃ place, q' = q.set p (.stands place)
  | .signalAll p => q' = q.set p (.stands (if q.queue = [] then .idle else .detaching))
  | .cancelWaiters p tok => q' = q.takeIf p .cancelWaiters (s.covers tok)
  | .advance p => Advances s q p q'
  | .reuse _ _ _ | .tasks _ => q' = q

theorem Rep.stands (rep : Rep s q) {place : Place} (stands : (s.pc p).place = some place) :
    (q.pc p).hand = [] ∧ (q.pc p).sleeps = 0 := by
  rw [(rep.parties p).stands stands]
  exact ⟨rfl, rfl⟩

/-- The test of a wait. -/
theorem Rep.test (rep : Rep s q) {place : Place} (stands : (s.pc p).place = some place) :
    ∃ place, Rep (s.test p) (q.set p (.stands place)) := by
  obtain ⟨free, awake⟩ := rep.stands stands
  unfold State.test
  split
  · exact ⟨.returning, rep.go .returning free awake rfl nofun rfl rfl rfl rfl⟩
  · exact ⟨.tested, rep.go .tested free awake rfl nofun rfl rfl rfl rfl⟩

/-- The link of a task that does not sleep is written. -/
theorem Rep.next_of_ne (rep : Rep s q) (other : s.pc p ≠ .parked) (next : Option (Fin n))
    (u : Fin n) (y : Fin n) (mem : y ∈ (q.pc u).hand) :
    Function.update s.links.next p next y = s.links.next y := by
  refine Function.update_of_ne ?_ _ _
  rintro rfl
  exact rep.not_carried other u mem

/-- A task clears its link before `AddWaiter` takes the lock. -/
theorem Rep.clear (rep : Rep s q) (here : s.pc p = .tested) :
    Rep { s.go p .adding with
      links := { s.links with next := Function.update s.links.next p none } }
      (q.set p (.stands .adding)) where
  sound := by
    obtain ⟨free, awake⟩ := rep.stands (p := p) (by rw [here]; rfl)
    exact rep.sound.set (by rw [free]; rfl) (by rw [awake]; rfl) fun _ _ absurd => by cases absurd
  holds := by
    refine rep.holds.congr rfl rfl (fun y mem => Function.update_of_ne ?_ _ _) fun _ _ => rfl
    rintro rfl
    exact rep.not_queued (by rw [here]; exact nofun) mem
  parties := rep.parties_update .adding (.stands .adding) rfl rfl .adding
    fun u _ y => rep.next_of_ne (by rw [here]; exact nofun) none u y
  adding := rep.adding_update rfl (fun _ => Function.update_self _ _ _)
    fun r other _ => Function.update_of_ne other _ _
  waits := rep.waits
  wakes := rep.wakes

/-- `AddWaiter` links a task behind the last one. -/
theorem Rep.addWaiter (rep : Rep s q) (here : s.pc p = .adding) :
    Rep (s.addWaiter p) (q.join p ()) := by
  have awake : s.pc p ≠ .parked := by
    rw [here]
    exact nofun
  obtain ⟨free, still⟩ := rep.stands (p := p) (by rw [here]; rfl)
  have nodup := rep.sound.nodup_queue
  -- the last task in the queue is the only other one whose link changes
  have same {y : Fin n} (out : y ∉ q.queue) : (s.links.pushBack p).next y = s.links.next y := by
    unfold Doubly.pushBack
    have tail := rep.holds.tail
    cases last : q.queue.getLast? with
    | none => rw [tail, last]
    | some z =>
      rw [tail, last]
      refine Function.update_of_ne ?_ _ _
      rintro rfl
      exact out (List.mem_of_getLast? last)
  constructor
  case sound => exact rep.sound.join () free still
  case holds => exact rep.holds.pushBack nodup (rep.not_queued awake) (rep.adding p here)
  case parties =>
    exact rep.parties_update .parked (.asleep ()) rfl rfl .parked
      fun u _ y mem => same (rep.sound.not_queued mem)
  case adding =>
    refine rep.adding_update rfl nofun fun r _ adding => same ?_
    exact rep.not_queued (by rw [adding]; exact nofun)
  case waits =>
    simp only [State.addWaiter, Line.join]
    rw [rep.waits]
  case wakes => exact rep.wakes

/-- `DetachAll` takes the whole queue off. -/
theorem Rep.detachAll (rep : Rep s q) {place : Place} (stands : (s.pc p).place = some place)
    (cancel : Bool) : Rep (s.detachAll p cancel) (q.takeIf p (taker cancel) fun _ => true) := by
  obtain ⟨free, still⟩ := rep.stands stands
  have all : q.queue.filter (fun _ => true) = q.queue := by simp
  have none : (q.queue.filter fun _ => !true) = [] := by simp
  constructor
  case sound => exact rep.sound.takeIf _ _ free still
  case holds =>
    simp only [Line.takeIf, Line.set]
    rw [none]
    exact Doubly.holds_empty _ _
  case parties =>
    refine rep.parties_update (.walking cancel s.links.head) (.walks (taker cancel) q.queue) rfl
      ?_ (.walking _ _ _ rep.holds.forth) fun _ _ _ _ => rfl
    simp only [Line.takeIf, Line.set]
    rw [all]
  case adding => exact rep.adding_update rfl (fun absurd => by cases absurd) fun _ _ _ => rfl
  case waits => exact rep.waits
  case wakes => exact rep.wakes

/-- The loop of `CancelWaiters` takes off whom it selects. -/
theorem Rep.unlink (rep : Rep s q) (here : s.pc p = .idle) (select : Fin n → Bool)
    (swept : List Nat) : ∃ links victims,
      unlinkLoop select n s.links none none s.links.head = some (links, victims) ∧
        Rep { s.go p (.walking true victims) with links := links, swept := swept }
          (q.takeIf p .cancelWaiters select) := by
  obtain ⟨free, still⟩ := rep.stands (p := p) (by rw [here]; rfl)
  have nodup := rep.sound.nodup_queue
  have short : q.queue.length ≤ n := by
    have fits := nodup.length_le_card
    rwa [Fintype.card_fin] at fits
  have whole : s.links.Holds ([] ++ q.queue) := rep.holds
  have nobody : Leads s.links.next none [] none := rfl
  obtain ⟨links, victims, ran, unlinked⟩ :=
    unlinkLoop_spec select whole nobody rfl (by simpa using nodup) short
  rw [← rep.holds.head] at ran
  refine ⟨links, victims, ran, ?_⟩
  have others (y : Fin n) (out : y ∉ q.queue) : links.next y = s.links.next y :=
    unlinked.others y List.not_mem_nil out List.not_mem_nil
  constructor
  case sound => exact rep.sound.takeIf _ _ free still
  case holds => exact unlinked.holds
  case parties =>
    exact rep.parties_update (.walking true victims) (.walks .cancelWaiters _) rfl rfl
      (.walking true victims _ unlinked.chain) fun u _ y mem => others y (rep.sound.not_queued mem)
  case adding =>
    refine rep.adding_update rfl nofun fun r _ adding => others r ?_
    exact rep.not_queued (by rw [adding]; exact nofun)
  case waits => exact rep.waits
  case wakes => exact rep.wakes

theorem covers_none : s.covers kNone = fun _ => true := by
  funext w
  simp [State.covers]

theorem covers_some {tok : Nat} (valid : tok ≠ kNone) : s.covers tok = s.within tok := by
  funext w
  simp [State.covers, valid]

theorem Rep.cancelWaiters (rep : Rep s q) (here : s.pc p = .idle) (tok : Nat) :
    ∃ t, s.cancelWaiters p tok = some t ∧ Rep t (q.takeIf p .cancelWaiters (s.covers tok)) := by
  unfold State.cancelWaiters
  split
  · rename_i all
    subst all
    refine ⟨_, rfl, ?_⟩
    rw [covers_none]
    exact rep.detachAll (by rw [here]; rfl) true
  · rename_i valid
    obtain ⟨links, victims, ran, unlinked⟩ := rep.unlink here (s.within tok)
      (if Marked s.tasks.slots tok then tok :: s.swept else s.swept)
    rw [ran, covers_some valid]
    exact ⟨_, rfl, unlinked⟩

/-- `WakeChain` clears the links of the task it is about to wake. -/
theorem Rep.unchain (rep : Rep s q) {cancel : Bool}
    (here : s.pc p = .walking cancel (some w)) :
    Rep { s.go p (.waking cancel w (s.links.next w)) with
      links := s.links.write w none none } q := by
  obtain ⟨chain, shown, leads⟩ : ∃ chain, q.pc p = .walks (taker cancel) (w :: chain) ∧
      Leads s.links.next (s.links.next w) chain none := by
    have shown := rep.parties p
    rw [here] at shown
    generalize q.pc p = pc at shown ⊢
    cases shown with
    | walking cancel t chain leads =>
      cases chain with
      | nil => cases leads
      | cons y chain =>
        obtain ⟨same, rest⟩ := leads
        cases same
        exact ⟨chain, rfl, rest⟩
  have mem : w ∈ (q.pc p).hand := by
    rw [shown]
    exact List.mem_cons_self
  have once := rep.sound.nodup_hand p
  rw [shown, hand_walks, List.nodup_cons] at once
  have others {y : Fin n} (other : y ≠ w) :
      (s.links.write w none none).next y = s.links.next y := Function.update_of_ne other _ _
  have parked := rep.parked (rep.sound.carried mem)
  constructor
  case sound => exact rep.sound
  case holds => exact rep.holds.write (rep.sound.not_queued mem) none none
  case parties =>
    intro r
    simp only [State.go]
    rcases eq_or_ne r p with rfl | notP
    · rw [Function.update_self, shown]
      exact .waking cancel w _ chain (leads.write once.1 none)
    · rw [Function.update_of_ne notP]
      refine (rep.parties r).congr fun y carried => others ?_
      rintro rfl
      exact notP (rep.sound.single carried mem)
  case adding =>
    refine rep.adding_update rfl nofun fun r _ adding => others ?_
    rintro rfl
    rw [parked] at adding
    cases adding
  case waits => exact rep.waits
  case wakes => exact rep.wakes

/-- A party in `WakeChain` has the task in its hand that it is about to wake. -/
theorem Rep.waking (rep : Rep s q) {cancel : Bool} {following : Option (Fin n)}
    (here : s.pc p = .waking cancel w following) : ∃ chain,
      q.pc p = .walks (taker cancel) (w :: chain) ∧ Leads s.links.next following chain none := by
  have shown := rep.parties p
  rw [here] at shown
  generalize q.pc p = pc at shown ⊢
  cases shown with
  | waking cancel t following chain leads => exact ⟨chain, rfl, leads⟩

/-- `WakeChain` wakes a task. -/
theorem Rep.wake (rep : Rep s q) {cancel : Bool} {following : Option (Fin n)}
    {chain : List (Fin n)} (here : s.pc p = .waking cancel w following)
    (shown : q.pc p = .walks (taker cancel) (w :: chain))
    (leads : Leads s.links.next following chain none) :
    Rep ((s.wake cancel w).go p (.walking cancel following))
      (q.wake p w cancel (.walks (taker cancel) chain)) := by
  have mem : w ∈ (q.pc p).hand := by
    rw [shown]
    exact List.mem_cons_self
  have parked := rep.parked (rep.sound.carried mem)
  have apart : w ≠ p := by
    rintro rfl
    rw [here] at parked
    cases parked
  constructor
  case sound => exact rep.sound.wake cancel (by rw [shown]; rfl) rfl nofun
  case holds => exact rep.holds
  case parties =>
    intro r
    simp only [State.go, State.wake, Line.wake, Line.set]
    rcases eq_or_ne r p with rfl | notP
    · rw [Function.update_self, Function.update_self]
      exact .walking cancel following chain leads
    · rw [Function.update_of_ne notP, Function.update_of_ne notP]
      rcases eq_or_ne r w with rfl | notW
      · rw [Function.update_self, Function.update_self]
        exact .woken cancel
      · rw [Function.update_of_ne notW, Function.update_of_ne notW]
        exact rep.parties r
  case adding =>
    intro r adding
    simp only [State.go, State.wake] at adding
    rcases eq_or_ne r p with rfl | notP
    · rw [Function.update_self] at adding
      cases adding
    · rw [Function.update_of_ne notP] at adding
      rcases eq_or_ne r w with rfl | notW
      · rw [Function.update_self] at adding
        cases adding
      · rw [Function.update_of_ne notW] at adding
        exact rep.adding r adding
  case waits => exact rep.waits
  case wakes =>
    simp only [State.go, State.wake, Line.wake, Line.set]
    rw [rep.wakes]

/-- Another wait uses the links of a task that does not wait here. -/
theorem Rep.reuse (rep : Rep s q) (adding : s.pc p ≠ .adding) (awake : s.pc p ≠ .parked)
    (next prev : Option (Fin n)) : Rep { s with links := s.links.write p next prev } q where
  sound := rep.sound
  holds := rep.holds.write (rep.not_queued awake) next prev
  parties r := (rep.parties r).congr (rep.next_of_ne awake next r)
  adding r here := by
    have other : r ≠ p := by
      rintro rfl
      exact adding here
    exact (Function.update_of_ne other _ _).trans (rep.adding r here)
  waits := rep.waits
  wakes := rep.wakes

theorem Rep.advance (rep : Rep s q) (stepped : advance s p = some t) :
    ∃ q', Rep t q' ∧ Advances s q p q' := by
  unfold Event.advance at stepped
  unfold Advances
  cases here : s.pc p with
  | idle | parked =>
    rw [here] at stepped
    cases stepped
  | checked =>
    rw [here] at stepped
    cases stepped
    obtain ⟨place, tested⟩ := rep.test (p := p) (by rw [here]; rfl)
    exact ⟨_, tested, place, rfl⟩
  | tested =>
    rw [here] at stepped
    cases stepped
    exact ⟨_, rep.clear here, .adding, rfl⟩
  | adding =>
    rw [here] at stepped
    cases stepped
    exact ⟨_, rep.addWaiter here, rfl⟩
  | detaching =>
    rw [here] at stepped
    cases stepped
    exact ⟨_, rep.detachAll (by rw [here]; rfl) false, rfl⟩
  | returning =>
    rw [here] at stepped
    cases stepped
    obtain ⟨free, awake⟩ := rep.stands (p := p) (by rw [here]; rfl)
    exact ⟨_, rep.go .idle free awake rfl nofun rfl rfl rfl rfl, .idle, rfl⟩
  | woken cancel =>
    rw [here] at stepped
    cases stepped
    have shown := rep.parties p
    rw [here] at shown
    refine ⟨_, rep.go .idle ?_ ?_ rfl nofun rfl rfl rfl rfl, .idle, rfl⟩
    · generalize q.pc p = pc at shown ⊢
      cases shown
      rfl
    · generalize q.pc p = pc at shown ⊢
      cases shown
      rfl
  | walking cancel t =>
    rw [here] at stepped
    cases t with
    | none =>
      cases stepped
      have shown := rep.parties p
      rw [here] at shown
      refine ⟨_, rep.go .idle ?_ ?_ rfl nofun rfl rfl rfl rfl, .idle, rfl⟩
      · generalize q.pc p = pc at shown ⊢
        cases shown with
        | walking cancel t chain leads =>
          cases chain with
          | nil => rfl
          | cons y chain => cases leads.1
      · generalize q.pc p = pc at shown ⊢
        cases shown
        rfl
    | some w =>
      cases stepped
      exact ⟨_, rep.unchain here, rfl⟩
  | waking cancel w following =>
    rw [here] at stepped
    cases stepped
    obtain ⟨chain, shown, leads⟩ := rep.waking here
    exact ⟨_, rep.wake here shown leads, chain, shown, rfl⟩

/-- What a step does to the links is what it does to the queue. -/
theorem Rep.step (rep : Rep s q) {a : Label n} (stepped : step s a = some t) :
    ∃ q', Rep t q' ∧ Does s q q' a := by
  cases a with
  | advance p => exact rep.advance stepped
  | waitOnEvent p =>
    simp only [Event.step] at stepped
    split at stepped
    · rename_i here
      cases stepped
      obtain ⟨place, tested⟩ := rep.test (p := p) (by rw [here]; rfl)
      exact ⟨_, tested, place, rfl⟩
    · cases stepped
  | waitOnEventCancellable p =>
    simp only [Event.step] at stepped
    split at stepped
    · rename_i here
      cases stepped
      obtain ⟨free, awake⟩ := rep.stands (p := p) (by rw [here]; rfl)
      split
      · exact ⟨_, rep.go .idle free awake rfl nofun rfl rfl rfl rfl, .idle, rfl⟩
      · exact ⟨_, rep.go .checked free awake rfl nofun rfl rfl rfl rfl, .checked, rfl⟩
    · cases stepped
  | signalAll p =>
    simp only [Event.step] at stepped
    split at stepped
    · rename_i here
      cases stepped
      obtain ⟨free, awake⟩ := rep.stands (p := p) (by rw [here]; rfl)
      have head := rep.holds.head
      unfold Does
      cases queue : q.queue with
      | nil =>
        rw [queue] at head
        rw [head, if_pos rfl]
        exact ⟨_, rep.go .idle free awake rfl nofun rfl rfl rfl rfl, rfl⟩
      | cons w rest =>
        rw [queue] at head
        rw [head, if_neg (List.cons_ne_nil _ _)]
        exact ⟨_, rep.go .detaching free awake rfl nofun rfl rfl rfl rfl, rfl⟩
    · cases stepped
  | cancelWaiters p tok =>
    simp only [Event.step] at stepped
    split at stepped
    · rename_i here
      obtain ⟨t', ran, swept⟩ := rep.cancelWaiters here tok
      rw [ran] at stepped
      cases stepped
      exact ⟨_, swept, rfl⟩
    · cases stepped
  | reuse p next prev =>
    simp only [Event.step] at stepped
    split at stepped
    · cases stepped
    · rename_i out
      cases stepped
      exact ⟨_, rep.reuse (fun here => out (.inl here)) (fun here => out (.inr here)) next prev,
        rfl⟩
  | tasks tasks =>
    simp only [Event.step] at stepped
    split at stepped
    · cases stepped
      exact ⟨_, ⟨rep.sound, rep.holds, rep.parties, rep.adding, rep.waits, rep.wakes⟩, rfl⟩
    · cases stepped

theorem rep_of_reach {tasks : Tasks n} (reach : Reach step anyStep (initial tasks) s) :
    ∃ q, Rep s q := by
  refine reach.invariant (I := fun s => ∃ q, Rep s q) ⟨_, initial_rep tasks⟩ ?_
  rintro s t a ⟨q, rep⟩ - stepped
  obtain ⟨q', rep', -⟩ := rep.step stepped
  exact ⟨q', rep'⟩

end JLibSched.Event
