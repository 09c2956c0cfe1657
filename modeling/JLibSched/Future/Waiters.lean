import JLibSched.Future.Lists
import JLibSched.Lib.WaitQueue

/-!
# The waiters of a future

The nodes hold a queue of sleeping parties, the last one first, and each `Wake` has a chain of them
in its hand (`Rep`).  Whoever is in a hand has been told who took it, and so has whoever was woken.
-/

namespace JLibSched.Future

open Transition WaitQueue Cancel Links

/-- What a party does with the queue. -/
inductive Place where
  | idle
  | constructing
  | takes (taker : Taker)
deriving DecidableEq, Repr

abbrev QueuePc (n : Nat) := WaitQueue.Pc n Place Unit Taker

abbrev Queue (n : Nat) := Line n Place Unit Taker

variable {n : Nat}

/-- What a party is doing shows on the queue. -/
inductive Shows (next : Fin n → Option (Fin n)) : Pc n → QueuePc n → Prop where
  | idle : Shows next .idle (.stands .idle)
  | constructing : Shows next .constructing (.stands .constructing)
  | waiting : Shows next .waiting (.asleep ())
  | woken (taker : Taker) : Shows next (.woken taker) (.woken taker)
  | walking (taker : Taker) (w : Option (Fin n)) (chain : List (Fin n))
      (leads : Leads next w chain none) :
      Shows next (.walking taker w) (.walks (.takes taker) chain)
  | waking (taker : Taker) (w : Fin n) (following : Option (Fin n)) (chain : List (Fin n))
      (leads : Leads next following chain none) :
      Shows next (.waking taker w following) (.walks (.takes taker) (w :: chain))

/-- The nodes and the parties of a future represent a queue of sleepers. -/
structure Rep (s : State n) (q : Queue n) : Prop where
  sound : q.Sound
  list : Leads s.nodes.next s.nodes.waiters q.queue.reverse none
  parties : ∀ p, Shows s.nodes.next (s.pc p) (q.pc p)
  /-- Who was taken off has been told by whom. -/
  told : ∀ u taker chain, q.pc u = .walks (.takes taker) chain →
    ∀ w ∈ chain, s.nodes.status w = taker.status
  back : ∀ w taker, s.pc w = .woken taker → s.nodes.status w = taker.status
  waits : q.waits = s.waits
  wakes : q.wakes = s.wakes

theorem initial_rep : Rep (initial n) (Line.empty .idle) where
  sound := Line.empty_sound _
  list := rfl
  parties _ := .idle
  told u taker chain absurd := by cases absurd
  back w taker absurd := by cases absurd
  waits := rfl
  wakes := rfl

/-- Only the links of the sleepers in hand matter. -/
theorem Shows.congr {next next' : Fin n → Option (Fin n)} {pc : Pc n} {pc' : QueuePc n}
    (shows' : Shows next pc pc') (same : ∀ y ∈ pc'.hand, next' y = next y) :
    Shows next' pc pc' := by
  cases shows' with
  | idle => exact .idle
  | constructing => exact .constructing
  | waiting => exact .waiting
  | woken taker => exact .woken taker
  | walking taker w chain leads => exact .walking taker w chain (leads.congr same)
  | waking taker w following chain leads =>
    exact .waking taker w following chain
      (leads.congr fun y mem => same y (List.mem_cons_of_mem _ mem))

variable {s t : State n} {q : Queue n} {p u w : Fin n}

/-- The sleepers are the parties that wait. -/
theorem Rep.waiting (rep : Rep s q) (asleep : (q.pc w).sleeps = 1) : s.pc w = .waiting := by
  have shown := rep.parties w
  cases here : q.pc w with
  | asleep node =>
    rw [here] at shown
    generalize s.pc w = pc at shown ⊢
    cases shown
    rfl
  | stands | woken | holds | walks =>
    rw [here] at asleep
    cases asleep

theorem Rep.asleep (rep : Rep s q) (here : s.pc w = .waiting) : (q.pc w).sleeps = 1 := by
  have shown := rep.parties w
  rw [here] at shown
  generalize q.pc w = pc at shown ⊢
  cases shown
  rfl

theorem Rep.awake (rep : Rep s q) (other : s.pc w ≠ .waiting) : (q.pc w).sleeps = 0 := by
  have most := Line.Sound.sleeps_le (q := q) w
  by_contra asleep
  exact other (rep.waiting (by omega))

theorem Rep.not_queued (rep : Rep s q) (other : s.pc w ≠ .waiting) : w ∉ q.queue :=
  fun mem => other (rep.waiting (rep.sound.queued mem))

theorem Rep.not_carried (rep : Rep s q) (other : s.pc w ≠ .waiting) (u : Fin n) :
    w ∉ (q.pc u).hand :=
  fun mem => other (rep.waiting (rep.sound.carried mem))

theorem Rep.length_le (rep : Rep s q) : q.queue.length ≤ n := by
  have bound := rep.sound.nodup_queue.length_le_card
  rwa [Fintype.card_fin] at bound

/-- What a party without waiters does on the queue. -/
def Pc.place : Pc n → Option Place
  | .idle => some .idle
  | .constructing => some .constructing
  | .waiting | .woken _ | .walking _ _ | .waking _ _ _ => none

theorem shows_place {next : Fin n → Option (Fin n)} {pc : Pc n} {place : Place}
    (stands : pc.place = some place) : Shows next pc (.stands place) := by
  cases pc with
  | idle => cases stands; exact .idle
  | constructing => cases stands; exact .constructing
  | waiting | woken | walking | waking => cases stands

/-- A party that shows as standing stands. -/
theorem Shows.stands {next : Fin n → Option (Fin n)} {pc : Pc n} {pc' : QueuePc n} {place : Place}
    (shows' : Shows next pc pc') (stands : pc.place = some place) : pc' = .stands place := by
  cases shows' with
  | waiting | woken | walking | waking => cases stands
  | idle | constructing => cases stands; rfl

theorem Rep.stands (rep : Rep s q) {place : Place} (here : (s.pc p).place = some place) :
    q.pc p = .stands place :=
  (rep.parties p).stands here

/-- One party moves, and the links of the others' sleepers stay. -/
theorem Rep.parties_update (rep : Rep s q) {q' : Queue n} (pc : Pc n) (pc' : QueuePc n)
    (moved : t.pc = Function.update s.pc p pc) (moved' : q'.pc = Function.update q.pc p pc')
    (mine : Shows t.nodes.next pc pc')
    (same : ∀ u, u ≠ p → ∀ y ∈ (q.pc u).hand, t.nodes.next y = s.nodes.next y) (r : Fin n) :
    Shows t.nodes.next (t.pc r) (q'.pc r) := by
  rw [moved, moved']
  rcases eq_or_ne r p with rfl | other
  · rw [Function.update_self, Function.update_self]
    exact mine
  · rw [Function.update_of_ne other, Function.update_of_ne other]
    exact (rep.parties r).congr (same r other)

/-- The statuses that matter are as before. -/
theorem Rep.told_update (rep : Rep s q) {q' : Queue n} {pc' : QueuePc n}
    (moved' : q'.pc = Function.update q.pc p pc')
    (mine : ∀ taker chain, pc' = .walks (.takes taker) chain →
      ∀ w ∈ chain, t.nodes.status w = taker.status)
    (same : ∀ u, u ≠ p → ∀ w ∈ (q.pc u).hand, t.nodes.status w = s.nodes.status w)
    (u : Fin n) (taker : Taker) (chain : List (Fin n))
    (here : q'.pc u = .walks (.takes taker) chain) (w : Fin n) (mem : w ∈ chain) :
    t.nodes.status w = taker.status := by
  rw [moved'] at here
  rcases eq_or_ne u p with rfl | other
  · rw [Function.update_self] at here
    exact mine taker chain here w mem
  · rw [Function.update_of_ne other] at here
    rw [same u other w (by rw [here]; exact mem)]
    exact rep.told u taker chain here w mem

theorem Rep.back_update (rep : Rep s q) {pc : Pc n} (moved : t.pc = Function.update s.pc p pc)
    (mine : ∀ taker, pc = .woken taker → t.nodes.status p = taker.status)
    (same : ∀ w, w ≠ p → (∃ taker, s.pc w = .woken taker) →
      t.nodes.status w = s.nodes.status w)
    (w : Fin n) (taker : Taker) (here : t.pc w = .woken taker) :
    t.nodes.status w = taker.status := by
  rw [moved] at here
  rcases eq_or_ne w p with rfl | other
  · rw [Function.update_self] at here
    exact mine taker here
  · rw [Function.update_of_ne other] at here
    rw [same w other ⟨taker, here⟩]
    exact rep.back w taker here

/-- A party that carries nobody and is awake goes to another place. -/
theorem Rep.go (rep : Rep s q) (pc : Pc n) {place : Place} (free : (q.pc p).hand = [])
    (awake : (q.pc p).sleeps = 0) (stands : pc.place = some place)
    (moved : t.pc = Function.update s.pc p pc) (nodes : t.nodes = s.nodes)
    (waits : t.waits = s.waits) (wakes : t.wakes = s.wakes) :
    Rep t (q.set p (.stands place)) where
  sound := rep.sound.set (by rw [free]; rfl) (by rw [awake]; rfl) fun _ _ absurd => by cases absurd
  list := by
    rw [nodes]
    exact rep.list
  parties := rep.parties_update pc (.stands place) moved rfl (shows_place stands)
    fun _ _ _ _ => by rw [nodes]
  told := rep.told_update rfl (fun _ _ absurd => by cases absurd) fun _ _ _ _ => by rw [nodes]
  back := rep.back_update moved
    (fun taker absurd => by
      rw [absurd] at stands
      cases stands)
    fun _ _ _ => by rw [nodes]
  waits := rep.waits.trans waits.symm
  wakes := rep.wakes.trans wakes.symm

/-- A party joins the queue. -/
theorem Rep.push (rep : Rep s q) (token : Nat) (here : s.pc p = .idle) :
    Rep { s.go p .waiting with
      nodes := s.nodes.push p token
      waits := Function.update s.waits p (s.waits p + 1) } (q.join p ()) := by
  have stands : q.pc p = .stands .idle := rep.stands (by rw [here]; rfl)
  have free : (q.pc p).hand = [] := by
    rw [stands]
    rfl
  have notWaiting : s.pc p ≠ .waiting := by
    rw [here]
    exact fun absurd => by cases absurd
  have carried (u y : Fin n) (mem : y ∈ (q.pc u).hand) : y ≠ p := by
    rintro rfl
    exact rep.not_carried notWaiting u mem
  constructor
  case sound => exact rep.sound.join () free (by rw [stands]; rfl)
  case list =>
    simp only [Line.join, List.reverse_append, List.reverse_cons, List.reverse_nil, List.nil_append,
      List.singleton_append, Nodes.push]
    refine ⟨rfl, ?_⟩
    rw [Function.update_self]
    refine rep.list.write (fun mem => ?_) _
    exact rep.not_queued notWaiting (List.mem_reverse.mp mem)
  case parties =>
    refine rep.parties_update .waiting (.asleep ()) rfl rfl .waiting fun u _ y mem => ?_
    exact Function.update_of_ne (carried u y mem) _ _
  case told =>
    refine rep.told_update rfl (fun _ _ absurd => by cases absurd) fun u _ y mem => ?_
    exact Function.update_of_ne (carried u y mem) _ _
  case back =>
    refine rep.back_update rfl (fun _ absurd => by cases absurd) fun w other _ => ?_
    exact Function.update_of_ne other _ _
  case waits =>
    simp only [Line.join, rep.waits]
  case wakes => exact rep.wakes

/-- `CancelWaiters` takes waiters off. -/
theorem Rep.cancel (rep : Rep s q) (select : Fin n → Bool) (here : s.pc p = .idle) :
    ∃ nodes taken, takeLoop select n s.nodes none none = some (nodes, taken) ∧
      nodes.token = s.nodes.token ∧ ∀ t : State n, t.nodes = nodes →
      t.pc = Function.update s.pc p (.walking .cancelWaiters taken) →
      t.waits = s.waits → t.wakes = s.wakes →
      Rep t (q.takeIf p (.takes .cancelWaiters) select) := by
  have stands : q.pc p = .stands .idle := rep.stands (by rw [here]; rfl)
  have nodup := List.nodup_reverse.mpr rep.sound.nodup_queue
  have loop : ∃ nodes taken, takeLoop select n s.nodes none none = some (nodes, taken) ∧
      Taken select s.nodes nodes [] q.queue.reverse [] taken :=
    takeLoop_spec select rep.list rfl rfl (by simpa using nodup) (by simpa using rep.length_le)
  obtain ⟨nodes, taken, ran, done⟩ := loop
  refine ⟨nodes, taken, ran, done.token, fun t sameNodes moved waits wakes => ?_⟩
  have list := done.list
  have chain := done.chain
  rw [List.nil_append, List.filter_reverse] at list
  rw [List.append_nil, List.filter_reverse, List.reverse_reverse] at chain
  have out {w : Fin n} (other : w ∉ q.queue) : w ∉ q.queue.reverse :=
    fun mem => other (List.mem_reverse.mp mem)
  have notQueued {u w : Fin n} (mem : w ∈ (q.pc u).hand) : w ∉ q.queue := rep.sound.not_queued mem
  have status {w : Fin n} (other : w ∉ q.queue) : nodes.status w = s.nodes.status w := by
    rw [done.status w]
    exact if_neg fun both => out other both.1
  constructor
  case sound => exact rep.sound.takeIf _ select (by rw [stands]; rfl) (by rw [stands]; rfl)
  case list =>
    rw [sameNodes]
    exact list
  case parties =>
    refine rep.parties_update _ _ moved rfl ?_ fun u _ y mem => ?_
    · rw [sameNodes]
      exact .walking .cancelWaiters taken _ chain
    · rw [sameNodes]
      exact done.others y List.not_mem_nil (out (notQueued mem))
  case told =>
    refine rep.told_update rfl (fun taker chain' same w mem => ?_) fun u _ y mem => ?_
    · cases same
      obtain ⟨inQueue, chosen⟩ := List.mem_filter.mp mem
      rw [sameNodes, done.status w]
      exact if_pos ⟨List.mem_reverse.mpr inQueue, chosen⟩
    · rw [sameNodes]
      exact status (notQueued mem)
  case back =>
    refine rep.back_update moved (fun taker absurd => by cases absurd) fun w _ ⟨taker, wokenW⟩ => ?_
    rw [sameNodes]
    refine status (rep.not_queued ?_)
    rw [wokenW]
    exact fun absurd => by cases absurd
  case waits => exact rep.waits.trans waits.symm
  case wakes => exact rep.wakes.trans wakes.symm

/-- A party takes the whole queue, the last one first. -/
def takeAll (q : Queue n) (p : Fin n) (taker : Taker) : Queue n :=
  { q with queue := [] }.set p (.walks (.takes taker) q.queue.reverse)

/-- `Publish` takes all waiters off. -/
theorem Rep.publish (rep : Rep s q) (broken : Bool) (free : (q.pc p).hand = [])
    (awake : (q.pc p).sleeps = 0) :
    ∃ nodes, tellLoop (Taker.publish broken).status n { s.nodes with waiters := none }
        s.nodes.waiters = some nodes ∧ nodes.token = s.nodes.token ∧ nodes.waiters = none ∧
      ∀ t : State n, t.nodes = nodes →
      t.pc = Function.update s.pc p (.walking (.publish broken) s.nodes.waiters) →
      t.waits = s.waits → t.wakes = s.wakes → Rep t (takeAll q p (.publish broken)) := by
  have list : Leads { s.nodes with waiters := none }.next s.nodes.waiters q.queue.reverse none :=
    rep.list
  obtain ⟨nodes, ran, next, waiters, token, status⟩ :=
    tellLoop_spec (Taker.publish broken).status list (by simpa using rep.length_le)
  refine ⟨nodes, ran, token, waiters, fun t sameNodes moved waits wakes => ?_⟩
  have still {w : Fin n} (other : w ∉ q.queue) : nodes.status w = s.nodes.status w := by
    rw [status w]
    exact if_neg fun mem => other (List.mem_reverse.mp mem)
  constructor
  case sound =>
    refine rep.sound.taken free awake rfl (fun w => ?_) (List.nil_sublist _)
      (fun _ _ absurd => by cases absurd) rfl
    rw [List.count_nil, Nat.zero_add, hand_walks, List.count_reverse]
  case list =>
    rw [sameNodes, next, waiters]
    rfl
  case parties =>
    refine rep.parties_update _ _ moved rfl ?_ fun u _ y _ => ?_
    · rw [sameNodes, next]
      exact .walking _ _ _ rep.list
    · rw [sameNodes, next]
  case told =>
    refine rep.told_update rfl (fun taker chain same w mem => ?_) fun u _ y mem => ?_
    · cases same
      rw [sameNodes, status w]
      exact if_pos mem
    · rw [sameNodes]
      exact still (rep.sound.not_queued mem)
  case back =>
    refine rep.back_update moved (fun taker absurd => by cases absurd) fun w _ ⟨taker, wokenW⟩ => ?_
    rw [sameNodes]
    refine still (rep.not_queued ?_)
    rw [wokenW]
    exact fun absurd => by cases absurd
  case waits => exact rep.waits.trans waits.symm
  case wakes => exact rep.wakes.trans wakes.symm

/-- `Wake` reads the link of the first waiter in its hand. -/
theorem Rep.look (rep : Rep s q) {taker : Taker} {w : Fin n}
    (here : s.pc p = .walking taker (some w)) :
    Rep (s.go p (.waking taker w (s.nodes.next w))) q := by
  have shown := rep.parties p
  constructor
  case parties =>
    intro r
    rcases eq_or_ne r p with rfl | other
    · simp only [State.go, Function.update_self]
      rw [here] at shown
      generalize q.pc r = pc' at shown ⊢
      cases shown with
      | walking _ _ chain leads =>
        cases chain with
        | nil => cases leads
        | cons x chain =>
          obtain ⟨same, rest⟩ := leads
          cases same
          exact .waking taker w _ chain rest
    · simp only [State.go, Function.update_of_ne other]
      exact rep.parties r
  case back =>
    exact rep.back_update rfl (fun _ absurd => by cases absurd) fun _ _ _ => rfl
  case sound => exact rep.sound
  case list => exact rep.list
  case told => exact rep.told
  case waits => exact rep.waits
  case wakes => exact rep.wakes

/-- `Wake` wakes the first waiter in its hand. -/
theorem Rep.wake (rep : Rep s q) {taker : Taker} {w : Fin n} {following : Option (Fin n)}
    (here : s.pc p = .waking taker w following) :
    ∃ chain, q.pc p = .walks (.takes taker) (w :: chain) ∧
      Rep ((s.wake taker w).go p (.walking taker following))
        (q.wake p w taker (.walks (.takes taker) chain)) := by
  have shown := rep.parties p
  rw [here] at shown
  obtain ⟨chain, walks, leads⟩ : ∃ chain, q.pc p = .walks (.takes taker) (w :: chain) ∧
      Leads s.nodes.next following chain none := by
    generalize q.pc p = pc' at shown ⊢
    cases shown with
    | waking _ _ _ chain leads => exact ⟨chain, rfl, leads⟩
  have mem : w ∈ (q.pc p).hand := by
    rw [walks]
    exact List.mem_cons_self
  have asleep := rep.sound.carried mem
  have apart : w ≠ p := by
    rintro rfl
    rw [walks] at asleep
    cases asleep
  refine ⟨chain, walks, ?_⟩
  constructor
  case sound => exact rep.sound.wake taker (by rw [walks]; rfl) rfl fun _ _ absurd => by cases absurd
  case list => exact rep.list
  case parties =>
    intro r
    simp only [State.go, State.wake, Line.wake, Line.set]
    rcases eq_or_ne r p with rfl | other
    · rw [Function.update_self, Function.update_self]
      exact .walking taker following chain leads
    · rw [Function.update_of_ne other, Function.update_of_ne other]
      rcases eq_or_ne r w with rfl | other'
      · rw [Function.update_self, Function.update_self]
        exact .woken taker
      · rw [Function.update_of_ne other', Function.update_of_ne other']
        exact rep.parties r
  case told =>
    intro u taker' chain' walks' r memR
    simp only [Line.wake, Line.set] at walks'
    rcases eq_or_ne u p with rfl | other
    · rw [Function.update_self] at walks'
      cases walks'
      exact rep.told u taker (w :: chain) walks r (List.mem_cons_of_mem w memR)
    · rw [Function.update_of_ne other] at walks'
      rcases eq_or_ne u w with rfl | other'
      · rw [Function.update_self] at walks'
        cases walks'
      · rw [Function.update_of_ne other'] at walks'
        exact rep.told u taker' chain' walks' r memR
  case back =>
    intro r taker' back
    simp only [State.go, State.wake] at back
    rcases eq_or_ne r p with rfl | other
    · rw [Function.update_self] at back
      cases back
    · rw [Function.update_of_ne other] at back
      rcases eq_or_ne r w with rfl | other'
      · rw [Function.update_self] at back
        cases back
        exact rep.told p taker (r :: chain) walks r List.mem_cons_self
      · rw [Function.update_of_ne other'] at back
        exact rep.back r taker' back
  case waits => exact rep.waits
  case wakes =>
    simp only [State.go, State.wake, Line.wake, Line.set, rep.wakes]

end JLibSched.Future
