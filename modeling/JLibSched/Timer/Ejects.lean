import JLibSched.Timer.Steps

/-!
# Ejects that are under way

`FireStepLocked` takes the entries that are due off the wheel, drops the lock, and then calls their
ejects one by one.  `Disarm` looks at the wheel alone, so an entry that has been taken is neither
armed nor finished for it.  When no eject of the handle is under way, a `Disarm` is the end of it.

A batch is worked off here eject by eject, by the timer thread or a worker.  The context of an arm is
its number: nobody compares contexts, so it may stand for any pointer.  What `CancelVia` returns is
a choice of the label.  `disarmed` holds the arms of the handles that `Disarm` was called with, and no
step looks at it.
-/

namespace JLibSched.Ejects

open Transition Timer Wheel

/-- What is left of a batch, and the eject that runs. -/
structure Firing where
  running : Option Eject
  todo : List Eject
deriving DecidableEq, Repr

/-- A batch that was just collected. -/
def Firing.of (b : Batch) : Firing := ⟨none, b.ejects⟩

def Firing.ejects (f : Firing) : List Eject := f.running.toList ++ f.todo

structure State where
  timer : Timer.State
  /-- The batch of the timer thread, and those of the workers. -/
  own : Firing
  polls : List Firing
  arms : Nat
  /-- The handles that `Arm` has returned. -/
  handle : Nat → Option (Nat × Nat)
  disarmed : List Nat

def initial : State := ⟨Timer.initial, ⟨none, []⟩, [], 0, fun _ => none, []⟩

inductive Label where
  | arm (wait gap : Nat) (delayNs : Int) (token eject : Option Nat)
  | disarm (index generation : Nat)
  /-- Another section of the timer queue. -/
  | timer (a : Timer.Label)
  /-- The timer thread or a worker comes to its next eject, and `CancelVia` returns. -/
  | call (who : Option Nat) (cancels : Bool)
  /-- Its eject returns. -/
  | returned (who : Option Nat)
  /-- It has come to the end of its batch. -/
  | dispatched (who : Option Nat)
deriving DecidableEq, Repr

namespace State

def firing (s : State) : Option Nat → Option Firing
  | none => some s.own
  | some k => s.polls[k]?

def setFiring (s : State) : Option Nat → Firing → State
  | none, f => { s with own := f }
  | some k, f => { s with polls := s.polls.set k f }

/-- The batch that the timer thread has collected. -/
def ownBatch (timer timer' : Timer.State) : Option Batch :=
  if timer.dispatching = none then timer'.dispatching else none

/-- The batches that workers have collected. -/
def newPolls (timer timer' : Timer.State) : List Batch :=
  timer'.workers.take (timer'.workers.length - timer.workers.length)

/-- A section of the timer queue, with the batch that it may have collected. -/
def fired (s : State) (timer : Timer.State) : State :=
  { s with
    timer := timer
    own := (ownBatch s.timer timer).elim s.own Firing.of
    polls := (newPolls s.timer timer).map Firing.of ++ s.polls }

/-- The ejects that have been collected and have not returned. -/
def underWay (s : State) : List Eject := s.own.ejects ++ s.polls.flatMap Firing.ejects

end State

/-- The sections that are not labels of their own. -/
def isOther : Timer.Label → Bool
  | .start _ _ _ _ | .cancel _ | .takeSkipped _ | .finish _ _ | .run _ _ | .wake
  | .pollFire _ _ => true
  | .arm _ _ _ _ | .disarm _ _ | .dispatched | .pollDispatched _ => false

def step (s : State) : Label → Option State
  | .arm wait gap delayNs token eject =>
    let r := s.timer.arm wait gap delayNs ⟨token, eject, some s.arms⟩
    some { s with
      timer := r.1, arms := s.arms + 1, handle := Function.update s.handle s.arms r.2 }
  | .disarm index generation =>
    (Timer.step s.timer (.disarm index generation)).map fun timer =>
      { s with
        timer := timer
        disarmed := ((List.range s.arms).filter fun k => s.handle k = some (index, generation)) ++
          s.disarmed }
  | .timer a => if isOther a then (Timer.step s.timer a).map s.fired else none
  | .call who cancels =>
    match s.firing who with
    | some ⟨none, e :: todo⟩ =>
      some (s.setFiring who ⟨if cancels ∧ e.eject ≠ none then some e else none, todo⟩)
    | _ => none
  | .returned who =>
    match s.firing who with
    | some ⟨some _, todo⟩ => some (s.setFiring who ⟨none, todo⟩)
    | _ => none
  | .dispatched none =>
    if s.own = ⟨none, []⟩ then
      (Timer.step s.timer .dispatched).map fun timer => { s with timer := timer }
    else none
  | .dispatched (some k) =>
    if s.polls[k]? = some ⟨none, []⟩ then
      (Timer.step s.timer (.pollDispatched k)).map fun timer =>
        { s with timer := timer, polls := s.polls.eraseIdx k }
    else none

/-- `Disarm` is called when no eject of its handle is under way. -/
def ejectsReturned (s : State) : Label → Prop
  | .disarm index generation =>
    ∀ e ∈ s.underWay, ∀ k ∈ e.ctx, s.handle k ≠ some (index, generation)
  | .arm _ _ _ _ _ | .timer _ | .call _ _ | .returned _ | .dispatched _ => True

instance (s : State) : ∀ a, Decidable (ejectsReturned s a)
  | .disarm index generation => inferInstanceAs (Decidable
      (∀ e ∈ s.underWay, ∀ k ∈ e.ctx, s.handle k ≠ some (index, generation)))
  | .arm _ _ _ _ _ | .timer _ | .call _ _ | .returned _ | .dispatched _ => isTrue trivial

/-! ## Entries that are taken off -/

variable {w w' w'' : Wheel} {i j : Nat} {ejects ejects' : List Eject}

/-- The entry is armed, for an eject. -/
def Plain (w : Wheel) (i : Nat) : Prop :=
  (w.entries i).level ≠ none ∧ (w.entries i).periodic = none

/-- Nobody is armed anew, and the ejects are those of entries that are not armed any more. -/
structure Thins (w w' : Wheel) (ejects : List Eject) : Prop where
  kept : ∀ i, Plain w' i → Plain w i ∧ (w'.entries i).eject = (w.entries i).eject ∧
    (w'.entries i).generation = (w.entries i).generation
  taken : ∀ e ∈ ejects, ∃ i, Plain w i ∧ (w.entries i).eject = e ∧ ¬ Plain w' i

theorem thins_same (same : w'.entries = w.entries) : Thins w w' [] where
  kept i plain := by
    unfold Plain at plain
    rw [same] at plain ⊢
    exact ⟨plain, rfl, rfl⟩
  taken e absurd := by cases absurd

theorem Thins.trans (one : Thins w w' ejects) (two : Thins w' w'' ejects') :
    Thins w w'' (ejects ++ ejects') where
  kept i plain := by
    obtain ⟨before, eject, generation⟩ := two.kept i plain
    obtain ⟨first, eject', generation'⟩ := one.kept i before
    exact ⟨first, eject.trans eject', generation.trans generation'⟩
  taken e mem := by
    rcases List.mem_append.mp mem with early | late
    · obtain ⟨i, plain, same, gone⟩ := one.taken e early
      exact ⟨i, plain, same, fun back => gone (two.kept i back).1⟩
    · obtain ⟨i, plain, same, gone⟩ := two.taken e late
      obtain ⟨first, eject, -⟩ := one.kept i plain
      exact ⟨i, first, eject.symm.trans same, gone⟩

theorem thins_advanceTo (target : Nat) (linked : Linked w) : Thins w (w.advanceTo target) [] where
  kept i plain := by
    unfold Plain at plain
    rcases advanceTo_entries target linked i with same | ⟨on, place, -, moved⟩
    · rw [same] at plain ⊢
      exact ⟨plain, rfl, rfl⟩
    · rw [moved] at plain ⊢
      exact ⟨⟨on, plain.2⟩, rfl, rfl⟩
  taken e absurd := by cases absurd

theorem disarm_gone : ¬ Plain (w.disarm i) i := by
  rintro ⟨on, -⟩
  rw [disarm_entries, if_pos rfl] at on
  exact on rfl

theorem thins_disarm : Thins w (w.disarm i) [] where
  kept j plain := by
    rcases eq_or_ne j i with rfl | other
    · exact absurd plain disarm_gone
    · unfold Plain at plain
      rw [disarm_entries, if_neg other] at plain ⊢
      exact ⟨plain, rfl, rfl⟩
  taken e absurd := by cases absurd

theorem thins_take (plain : Plain w i) : Thins w (w.disarm i) [(w.entries i).eject] :=
  ⟨thins_disarm.kept, fun _ mem => ⟨i, plain, (List.mem_singleton.mp mem).symm, disarm_gone⟩⟩

theorem thins_refire {r : Nat} (periodic : (w.entries i).periodic = some r) (d : Nat) :
    Thins w (w.refire i d) [] where
  kept j plain := by
    unfold Plain at plain
    rcases eq_or_ne j i with rfl | other
    · rw [refire_entries, if_pos rfl] at plain
      have none : (w.entries j).periodic = none := plain.2
      rw [periodic] at none
      cases none
    · rw [refire_entries, if_neg other] at plain ⊢
      exact ⟨plain, rfl, rfl⟩
  taken e absurd := by cases absurd

/-- The entry of a new periodic. -/
theorem thins_insert (valid : Valid w) (d r : Nat) :
    Thins w (State.insert w d fun e => { e with periodic := some r }).1 [] where
  kept j plain := by
    unfold Plain at plain
    rw [insert_entries valid] at plain ⊢
    split at plain
    · cases plain.2
    · rename_i other
      rw [if_neg other]
      exact ⟨plain, rfl, rfl⟩
  taken e absurd := by cases absurd

/-! ## Sections -/

variable {t t' : Timer.State} {c : Timer.State.Collecting}

theorem visit_others (other : j ≠ i) :
    (c.visit i).state.wheel.entries j = c.state.wheel.entries j := by
  unfold Timer.State.Collecting.visit
  split
  · rfl
  split
  · split
    · dsimp only
      rw [firePeriodic_wheel, refire_entries, if_neg other]
      rfl
    · dsimp only
      rw [disarm_entries, if_neg other]
  · rfl

theorem thins_visit (thins : Thins w c.state.wheel c.batch.ejects)
    (on : (c.state.wheel.entries i).level ≠ none) :
    Thins w (c.visit i).state.wheel (c.visit i).batch.ejects := by
  unfold Timer.State.Collecting.visit
  split
  · exact thins
  split
  · split
    · rename_i r periodic
      have moved := thins.trans (thins_refire periodic
        (tickFor (((c.state.pass (c.gaps.headD 0)).record r).nextDue
          (c.state.pass (c.gaps.headD 0)).now)))
      rw [List.append_nil] at moved
      dsimp only
      rw [firePeriodic_wheel]
      split
      · exact moved
      · exact moved
    · rename_i plain
      exact thins.trans (thins_take ⟨on, plain⟩)
  · exact thins

theorem thins_visits (list : List Nat) (once : list.Nodup)
    (thins : Thins w c.state.wheel c.batch.ejects)
    (on : ∀ i ∈ list, (c.state.wheel.entries i).level ≠ none) :
    Thins w (list.foldl Timer.State.Collecting.visit c).state.wheel
      (list.foldl Timer.State.Collecting.visit c).batch.ejects := by
  induction list generalizing c with
  | nil => exact thins
  | cons i rest ih =>
    obtain ⟨fresh, once⟩ := List.nodup_cons.mp once
    refine ih once (thins_visit thins (on i List.mem_cons_self)) fun j mem => ?_
    rw [visit_others (j := j) (i := i) fun same => fresh (same ▸ mem)]
    exact on j (List.mem_cons_of_mem _ mem)

/-- The ejects of a batch that may have been collected. -/
def ejectsOf (b : Option Batch) : List Eject := b.elim [] Batch.ejects

theorem thins_fireStep (next : Nat) (gaps : List Nat) (linked : Linked t.wheel) :
    Thins t.wheel (t.fireStep next gaps).1.wheel (ejectsOf (t.fireStep next gaps).2) := by
  have advanced := thins_advanceTo next linked
  have linked' := (advanceTo_rest next linked).1
  have whole := thins_visits (w := t.wheel)
    (c := ⟨{ t with wheel := t.wheel.advanceTo next }, ⟨[], []⟩, gaps⟩)
    ((t.wheel.advanceTo next).heads 0 ((t.wheel.advanceTo next).currentTick % slots))
    (linked'.nodup _ _) advanced fun i mem => by
      rw [((linked'.mem i _ _).mp mem).1]
      exact Option.some_ne_none _
  unfold Timer.State.fireStep Timer.State.collect
  dsimp only
  split
  · exact ⟨whole.kept, fun e absurd => by cases absurd⟩
  · exact whole

/-- The ejects that a section has collected. -/
def gathered (t t' : Timer.State) : List Eject :=
  ejectsOf (State.ownBatch t t') ++ (State.newPolls t t').flatMap Batch.ejects

theorem gathered_same (dispatching : t'.dispatching = t.dispatching)
    (workers : t'.workers = t.workers) : gathered t t' = [] := by
  unfold gathered State.ownBatch State.newPolls
  rw [dispatching, workers, Nat.sub_self, List.take_zero, List.flatMap_nil, List.append_nil]
  split
  · rename_i none
    rw [none]
    rfl
  · rfl

theorem thins_cancelPeriodic (r : Nat) : Thins t.wheel (t.cancelPeriodic r).wheel [] := by
  unfold Timer.State.cancelPeriodic
  split
  · exact thins_same rfl
  · exact thins_disarm

/-- A section that collects nothing. -/
theorem thins_quiet (thins : Thins t.wheel t'.wheel [])
    (dispatching : t'.dispatching = t.dispatching) (workers : t'.workers = t.workers) :
    Thins t.wheel t'.wheel (gathered t t') := by
  rw [gathered_same dispatching workers]
  exact thins

/-- The batches of others stay. -/
theorem visits_frame (list : List Nat) :
    (list.foldl Timer.State.Collecting.visit c).state.dispatching = c.state.dispatching ∧
      (list.foldl Timer.State.Collecting.visit c).state.workers = c.state.workers := by
  have visit (c : Timer.State.Collecting) (i : Nat) :
      (c.visit i).state.dispatching = c.state.dispatching ∧
        (c.visit i).state.workers = c.state.workers := by
    unfold Timer.State.Collecting.visit
    split
    · exact ⟨rfl, rfl⟩
    split
    · split
      · exact ⟨rfl, rfl⟩
      · exact ⟨rfl, rfl⟩
    · exact ⟨rfl, rfl⟩
  induction list generalizing c with
  | nil => exact ⟨rfl, rfl⟩
  | cons i rest ih =>
    obtain ⟨dispatching, workers⟩ := ih (c := c.visit i)
    obtain ⟨dispatching', workers'⟩ := visit c i
    exact ⟨dispatching.trans dispatching', workers.trans workers'⟩

theorem fireStep_frame (next : Nat) (gaps : List Nat) :
    (t.fireStep next gaps).1.dispatching = t.dispatching ∧
      (t.fireStep next gaps).1.workers = t.workers := by
  unfold Timer.State.fireStep Timer.State.collect
  dsimp only
  split
  · exact visits_frame _
  · exact visits_frame _

theorem thins_run {gaps : List Nat} (linked : Linked t.wheel) (awake : t.dispatching = none) :
    Thins t.wheel (t.run gaps).wheel (gathered t (t.run gaps)) := by
  unfold Timer.State.run
  cases t.wheel.nextEventTick with
  | none => exact thins_quiet (thins_same rfl) rfl rfl
  | some next =>
    dsimp only
    split
    · exact thins_quiet (thins_same rfl) rfl rfl
    · obtain ⟨kept, taken⟩ := thins_fireStep next gaps linked
      refine ⟨kept, fun e mem => taken e ?_⟩
      unfold gathered State.ownBatch State.newPolls at mem
      dsimp only at mem
      rw [(fireStep_frame next gaps).2, Nat.sub_self, List.take_zero, List.flatMap_nil,
        List.append_nil, if_pos awake] at mem
      exact mem

theorem thins_pollFire {gaps : List Nat} (linked : Linked t.wheel) :
    Thins t.wheel (t.pollFire gaps).1.wheel (gathered t (t.pollFire gaps).1) := by
  unfold Timer.State.pollFire
  cases t.wheel.nextEventTick with
  | none => exact thins_quiet (thins_same rfl) rfl rfl
  | some next =>
    dsimp only
    split
    · exact thins_quiet (thins_same rfl) rfl rfl
    · obtain ⟨kept, taken⟩ := thins_fireStep next gaps linked
      refine ⟨kept, fun e mem => taken e ?_⟩
      unfold gathered State.ownBatch State.newPolls at mem
      dsimp only at mem
      rcases List.mem_append.mp mem with own | polled
      · rw [(fireStep_frame next gaps).1] at own
        split at own
        · rename_i none
          rw [none] at own
          cases own
        · cases own
      · rw [List.length_append, Nat.add_sub_cancel, List.take_left] at polled
        cases found : (t.fireStep next gaps).2 with
        | none =>
          rw [found] at polled
          cases polled
        | some b =>
          rw [found] at polled
          obtain ⟨b', mem, inside⟩ := List.mem_flatMap.mp polled
          rw [List.mem_singleton.mp mem] at inside
          exact inside

theorem thins_other {a : Timer.Label} (sound : Sound t) (other : isOther a = true)
    (stepped : Timer.step t a = some t') : Thins t.wheel t'.wheel (gathered t t') := by
  cases a with
  | arm | disarm | dispatched | pollDispatched => cases other
  | start wait gap intervalNs firstDelayNs =>
    cases stepped
    unfold Timer.State.start
    split
    · exact thins_quiet (thins_same rfl) rfl rfl
    · have advanced := sound.advanceTo ((t.pass wait).pass gap).nowTick
      have both := (thins_advanceTo ((t.pass wait).pass gap).nowTick sound.wheel.linked).trans
        (thins_insert advanced.wheel (tickFor ((t.pass wait).firstDue
          (Timer.State.intervalFor intervalNs) firstDelayNs)) t.records)
      exact thins_quiet both rfl rfl
  | cancel r =>
    simp only [Timer.step] at stepped
    split at stepped
    · cases stepped
      refine thins_quiet (thins_cancelPeriodic r) ?_ ?_
      · unfold Timer.State.cancel Timer.State.cancelPeriodic
        split <;> rfl
      · unfold Timer.State.cancel Timer.State.cancelPeriodic
        split <;> rfl
    · cases stepped
  | takeSkipped r =>
    simp only [Timer.step] at stepped
    split at stepped
    · cases stepped
      exact thins_quiet (thins_same rfl) rfl rfl
    · cases stepped
  | finish r stop =>
    simp only [Timer.step] at stepped
    split at stepped
    · cases stepped
      unfold Timer.State.finishPeriodic
      split
      · refine thins_quiet (thins_cancelPeriodic r) ?_ ?_
        · unfold Timer.State.cancelPeriodic
          split <;> rfl
        · unfold Timer.State.cancelPeriodic
          split <;> rfl
      · exact thins_quiet (thins_same rfl) rfl rfl
    · cases stepped
  | run wait gaps =>
    simp only [Timer.step] at stepped
    split at stepped
    · rename_i may
      cases stepped
      exact thins_run (t := t.pass wait) sound.wheel.linked may.2.2
    · cases stepped
  | wake =>
    simp only [Timer.step] at stepped
    split at stepped
    · cases stepped
    · cases stepped
      exact thins_quiet (thins_same rfl) rfl rfl
  | pollFire wait gaps =>
    cases stepped
    exact thins_pollFire (t := t.pass wait) sound.wheel.linked

/-! ## The invariant -/

variable {s u : State} {a : Label} {k : Nat}

/-- Somebody is armed for the arm. -/
def Armed (w : Wheel) (k : Nat) : Prop := ∃ i, Plain w i ∧ (w.entries i).eject.ctx = some k

/-- Each armed entry has the handle of its arm, and whoever is under way is not armed. -/
structure Kept (s : State) : Prop where
  sound : Sound s.timer
  known : ∀ i, Plain s.timer.wheel i → ∃ k < s.arms, (s.timer.wheel.entries i).eject.ctx = some k ∧
    s.handle k = some (i, (s.timer.wheel.entries i).generation)
  underWay : ∀ e ∈ s.underWay, ∃ k < s.arms, e.ctx = some k ∧ ¬ Armed s.timer.wheel k
  disarmed : ∀ k ∈ s.disarmed, k < s.arms ∧ (∀ e ∈ s.underWay, e.ctx ≠ some k) ∧
    ¬ Armed s.timer.wheel k

theorem initial_kept : Kept initial where
  sound := initial_sound
  known i plain := absurd rfl plain.1
  underWay e absurd := by cases absurd
  disarmed k absurd := by cases absurd

theorem Thins.armed (thins : Thins w w' ejects) (armed : Armed w' k) : Armed w k := by
  obtain ⟨i, plain, ctx⟩ := armed
  obtain ⟨before, eject, -⟩ := thins.kept i plain
  exact ⟨i, before, eject ▸ ctx⟩

/-- One arm is armed once. -/
theorem Kept.single (kept : Kept s) (plain : Plain s.timer.wheel i) (plain' : Plain s.timer.wheel j)
    (ctx : (s.timer.wheel.entries i).eject.ctx = some k)
    (ctx' : (s.timer.wheel.entries j).eject.ctx = some k) : i = j := by
  obtain ⟨m, -, named, handle⟩ := kept.known i plain
  obtain ⟨m', -, named', handle'⟩ := kept.known j plain'
  rw [ctx] at named
  rw [ctx'] at named'
  obtain rfl := Option.some.inj named
  obtain rfl := Option.some.inj named'
  rw [handle] at handle'
  exact congrArg Prod.fst (Option.some.inj handle')

/-- Entries may come off the wheel, into hands. -/
theorem Kept.thin (kept : Kept s) (sound : Sound u.timer)
    (thins : Thins s.timer.wheel u.timer.wheel ejects)
    (underWay : ∀ e ∈ u.underWay, e ∈ s.underWay ∨ e ∈ ejects) (arms : u.arms = s.arms)
    (handle : u.handle = s.handle) (disarmed : u.disarmed = s.disarmed) : Kept u where
  sound := sound
  known i plain := by
    obtain ⟨before, eject, generation⟩ := thins.kept i plain
    rw [arms, handle, eject, generation]
    exact kept.known i before
  underWay e mem := by
    rw [arms]
    rcases underWay e mem with old | new
    · obtain ⟨k, made, ctx, off⟩ := kept.underWay e old
      exact ⟨k, made, ctx, fun armed => off (thins.armed armed)⟩
    · obtain ⟨i, plain, rfl, gone⟩ := thins.taken e new
      obtain ⟨k, made, ctx, -⟩ := kept.known i plain
      refine ⟨k, made, ctx, ?_⟩
      rintro ⟨j, plain', ctx'⟩
      obtain ⟨before, eject, -⟩ := thins.kept j plain'
      rw [eject] at ctx'
      obtain rfl := kept.single before plain ctx' ctx
      exact gone plain'
  disarmed k mem := by
    rw [disarmed] at mem
    obtain ⟨made, apart, off⟩ := kept.disarmed k mem
    rw [arms]
    refine ⟨made, fun e inside => ?_, fun armed => off (thins.armed armed)⟩
    rcases underWay e inside with old | new
    · exact apart e old
    · obtain ⟨i, plain, rfl, -⟩ := thins.taken e new
      exact fun ctx => off ⟨i, plain, ctx⟩

/-! ## Steps -/

theorem mem_underWay {e : Eject} :
    e ∈ s.underWay ↔ ∃ who f, s.firing who = some f ∧ e ∈ f.ejects := by
  unfold State.underWay
  rw [List.mem_append, List.mem_flatMap]
  constructor
  · rintro (own | ⟨f, mem, inside⟩)
    · exact ⟨none, s.own, rfl, own⟩
    · obtain ⟨k, found⟩ := List.mem_iff_getElem?.mp mem
      exact ⟨some k, f, found, inside⟩
  · rintro ⟨who, f, found, inside⟩
    cases who with
    | none =>
      cases found
      exact .inl inside
    | some k => exact .inr ⟨f, List.mem_of_getElem? found, inside⟩

/-- A batch is replaced by one with no other ejects. -/
theorem underWay_set {who : Option Nat} {f f' : Firing} (found : s.firing who = some f)
    (fewer : ∀ e ∈ f'.ejects, e ∈ f.ejects) {e : Eject}
    (mem : e ∈ (s.setFiring who f').underWay) : e ∈ s.underWay := by
  cases who with
  | none =>
    cases found
    unfold State.underWay at mem ⊢
    rcases List.mem_append.mp mem with own | polled
    · exact List.mem_append_left _ (fewer e own)
    · exact List.mem_append_right _ polled
  | some k =>
    unfold State.underWay at mem
    rcases List.mem_append.mp mem with own | polled
    · exact List.mem_append_left _ own
    · obtain ⟨g, inside, here⟩ := List.mem_flatMap.mp polled
      rcases List.mem_or_eq_of_mem_set inside with old | rfl
      · exact List.mem_append_right _ (List.mem_flatMap.mpr ⟨g, old, here⟩)
      · exact mem_underWay.mpr ⟨some k, f, found, fewer e here⟩

theorem setFiring_frame (who : Option Nat) (f : Firing) : (s.setFiring who f).timer = s.timer ∧
    (s.setFiring who f).arms = s.arms ∧ (s.setFiring who f).handle = s.handle ∧
    (s.setFiring who f).disarmed = s.disarmed := by
  cases who with
  | none => exact ⟨rfl, rfl, rfl, rfl⟩
  | some k => exact ⟨rfl, rfl, rfl, rfl⟩

theorem Kept.setFiring (kept : Kept s) {who : Option Nat} {f f' : Firing}
    (found : s.firing who = some f) (fewer : ∀ e ∈ f'.ejects, e ∈ f.ejects) :
    Kept (s.setFiring who f') := by
  obtain ⟨timer, arms, handle, disarmed⟩ := setFiring_frame (s := s) who f'
  refine kept.thin ?_ (thins_same ?_)
    (fun e mem => .inl (underWay_set found fewer mem)) arms handle disarmed
  · rw [timer]
    exact kept.sound
  · rw [timer]

/-- A section collects what was armed. -/
theorem underWay_fired {timer : Timer.State} {e : Eject} (mem : e ∈ (s.fired timer).underWay) :
    e ∈ s.underWay ∨ e ∈ gathered s.timer timer := by
  unfold State.underWay State.fired at mem
  dsimp only at mem
  unfold gathered
  rcases List.mem_append.mp mem with own | polled
  · cases batch : State.ownBatch s.timer timer with
    | none =>
      rw [batch] at own
      exact .inl (List.mem_append_left _ own)
    | some b =>
      rw [batch] at own
      exact .inr (List.mem_append_left _ own)
  · rw [List.flatMap_append] at polled
    rcases List.mem_append.mp polled with new | old
    · rw [List.flatMap_map] at new
      exact .inr (List.mem_append_right _ new)
    · exact .inl (List.mem_append_right _ old)

/-- `Disarm` leaves no entry armed for its handle. -/
theorem disarm_thins {index generation : Nat} :
    Thins t.wheel (t.disarm index generation).1.wheel [] := by
  unfold Timer.State.disarm
  split
  · exact thins_same rfl
  split
  · exact thins_same rfl
  · exact thins_disarm

theorem disarm_ends {index generation : Nat} (sound : Sound t)
    (plain : Plain (t.disarm index generation).1.wheel index) :
    (t.wheel.entries index).generation ≠ generation := by
  intro current
  have before := (disarm_thins.kept index plain).1
  have odd : (t.wheel.entries index).generation % 2 = 1 :=
    (sound.wheel.parity index).mpr before.1
  unfold Timer.State.disarm at plain
  split at plain
  · rename_i beyond
    have blank := sound.wheel.blank index beyond
    unfold Plain at before
    rw [blank] at before
    exact before.1 rfl
  split at plain
  · rename_i stale
    rcases stale with other | even
    · exact other current
    · omega
  · exact disarm_gone plain

theorem Kept.disarm (kept : Kept s) {index generation : Nat} {timer : Timer.State}
    (may : ejectsReturned s (.disarm index generation))
    (stepped : Timer.step s.timer (.disarm index generation) = some timer) :
    Kept { s with
      timer := timer
      disarmed := ((List.range s.arms).filter fun k => s.handle k = some (index, generation)) ++
        s.disarmed } := by
  have sound := (step_shape kept.sound stepped).1
  simp only [Timer.step] at stepped
  split at stepped
  · cases stepped
  · cases stepped
    have thinned : Kept { s with timer := (s.timer.disarm index generation).1 } :=
      kept.thin sound disarm_thins (fun e mem => .inl mem) rfl rfl rfl
    refine ⟨thinned.sound, thinned.known, thinned.underWay, fun k mem => ?_⟩
    rcases List.mem_append.mp mem with new | old
    · obtain ⟨made, named⟩ := List.mem_filter.mp new
      have named : s.handle k = some (index, generation) := of_decide_eq_true named
      refine ⟨List.mem_range.mp made, fun e inside ctx => may e inside k ctx named, ?_⟩
      rintro ⟨i, plain, ctx⟩
      obtain ⟨before, eject, -⟩ := disarm_thins.kept i plain
      obtain ⟨k', -, ctx', handle⟩ := kept.known i before
      have ctx : (s.timer.wheel.entries i).eject.ctx = some k := eject ▸ ctx
      rw [ctx] at ctx'
      obtain rfl := Option.some.inj ctx'
      rw [named] at handle
      obtain ⟨rfl, current⟩ := Prod.mk.inj (Option.some.inj handle)
      exact disarm_ends kept.sound plain current.symm
    · exact thinned.disarmed k old

/-- Whoever is armed after an `Arm` was before, or is the entry of the handle. -/
theorem arm_plain (wait gap : Nat) (delayNs : Int) {x : Eject} (sound : Sound t)
    (plain : Plain (t.arm wait gap delayNs x).1.wheel i) :
    Plain t.wheel i ∧
        ((t.arm wait gap delayNs x).1.wheel.entries i).eject = (t.wheel.entries i).eject ∧
        ((t.arm wait gap delayNs x).1.wheel.entries i).generation =
          (t.wheel.entries i).generation ∨
      ((t.arm wait gap delayNs x).1.wheel.entries i).eject = x ∧
        (t.arm wait gap delayNs x).2 =
          some (i, ((t.arm wait gap delayNs x).1.wheel.entries i).generation) := by
  unfold Timer.State.arm at plain ⊢
  split
  · rename_i invalid
    rw [if_pos invalid] at plain
    exact .inl ⟨plain, rfl, rfl⟩
  · rename_i valid
    rw [if_neg valid] at plain
    have advanced := (sound.pass wait).advanceTo (t.pass wait).nowTick
    have before := thins_advanceTo (t.pass wait).nowTick sound.wheel.linked
    unfold Plain at plain
    dsimp only [Timer.State.publishGate, Timer.State.notify] at plain ⊢
    rw [insert_entries advanced.wheel] at plain ⊢
    split at plain
    · rename_i new
      rw [if_pos new]
      refine .inr ⟨rfl, ?_⟩
      rw [insert_entries advanced.wheel, if_pos rfl, new]
    · rename_i other
      rw [if_neg other]
      exact .inl (before.kept i plain)

theorem Kept.arm (kept : Kept s) {wait gap : Nat} {delayNs : Int} {token eject : Option Nat} :
    Kept { s with
      timer := (s.timer.arm wait gap delayNs ⟨token, eject, some s.arms⟩).1
      arms := s.arms + 1
      handle := Function.update s.handle s.arms
        (s.timer.arm wait gap delayNs ⟨token, eject, some s.arms⟩).2 } := by
  have sound : Sound (s.timer.arm wait gap delayNs ⟨token, eject, some s.arms⟩).1 :=
    (arm_shape kept.sound).1
  have plain {i : Nat} := arm_plain wait gap delayNs (x := ⟨token, eject, some s.arms⟩) (i := i)
    kept.sound
  generalize s.timer.arm wait gap delayNs ⟨token, eject, some s.arms⟩ = r at sound plain ⊢
  -- whoever has a lower number was armed before
  have armed {k : Nat} (made : k < s.arms) (now : Armed r.1.wheel k) : Armed s.timer.wheel k := by
    obtain ⟨i, here, ctx⟩ := now
    rcases plain here with ⟨before, same, -⟩ | ⟨new, -⟩
    · exact ⟨i, before, same ▸ ctx⟩
    · rw [new] at ctx
      exact absurd (Option.some.inj ctx).symm (Nat.ne_of_lt made)
  constructor
  case sound => exact sound
  case known =>
    intro i here
    rcases plain here with ⟨before, same, generation⟩ | ⟨new, handle⟩
    · obtain ⟨k, made, ctx, handle⟩ := kept.known i before
      refine ⟨k, Nat.lt_succ_of_lt made, ?_, ?_⟩
      · show (r.1.wheel.entries i).eject.ctx = some k
        rw [same, ctx]
      · show Function.update s.handle s.arms r.2 k = some (i, (r.1.wheel.entries i).generation)
        rw [Function.update_of_ne (Nat.ne_of_lt made), handle, generation]
    · refine ⟨s.arms, Nat.lt_succ_self _, ?_, ?_⟩
      · show (r.1.wheel.entries i).eject.ctx = some s.arms
        rw [new]
      · show Function.update s.handle s.arms r.2 s.arms = _
        rw [Function.update_self, handle]
  case underWay =>
    intro e mem
    obtain ⟨k, made, ctx, off⟩ := kept.underWay e mem
    exact ⟨k, Nat.lt_succ_of_lt made, ctx, fun now => off (armed made now)⟩
  case disarmed =>
    intro k mem
    obtain ⟨made, apart, off⟩ := kept.disarmed k mem
    exact ⟨Nat.lt_succ_of_lt made, apart, fun now => off (armed made now)⟩

theorem Kept.step (kept : Kept s) (may : ejectsReturned s a) (stepped : Ejects.step s a = some u) :
    Kept u := by
  cases a with
  | arm =>
    cases stepped
    exact kept.arm
  | disarm index generation =>
    obtain ⟨timer, moved, rfl⟩ := Option.map_eq_some_iff.mp stepped
    exact kept.disarm may moved
  | timer a =>
    simp only [Ejects.step] at stepped
    split at stepped
    · rename_i other
      obtain ⟨timer, moved, rfl⟩ := Option.map_eq_some_iff.mp stepped
      exact kept.thin (step_shape kept.sound moved).1 (thins_other kept.sound other moved)
        (fun e mem => underWay_fired mem) rfl rfl rfl
    · cases stepped
  | call who cancels =>
    simp only [Ejects.step] at stepped
    split at stepped
    · rename_i e todo found
      cases stepped
      refine kept.setFiring found fun x mem => ?_
      rcases List.mem_append.mp mem with running | later
      · split at running
        · rw [List.mem_singleton.mp running]
          exact List.mem_cons_self
        · cases running
      · exact List.mem_cons_of_mem _ later
    · cases stepped
  | returned who =>
    simp only [Ejects.step] at stepped
    split at stepped
    · rename_i e todo found
      cases stepped
      exact kept.setFiring found fun x mem => List.mem_cons_of_mem _ mem
    · cases stepped
  | dispatched who =>
    cases who with
    | none =>
      simp only [Ejects.step] at stepped
      split at stepped
      · obtain ⟨timer, moved, rfl⟩ := Option.map_eq_some_iff.mp stepped
        have sound := (step_shape kept.sound moved).1
        simp only [Timer.step] at moved
        split at moved
        · cases moved
        · cases moved
          exact kept.thin sound (thins_same rfl) (fun e mem => .inl mem) rfl rfl rfl
      · cases stepped
    | some k =>
      simp only [Ejects.step] at stepped
      split at stepped
      · obtain ⟨timer, moved, rfl⟩ := Option.map_eq_some_iff.mp stepped
        have sound := (step_shape kept.sound moved).1
        simp only [Timer.step] at moved
        split at moved
        · cases moved
          refine kept.thin sound (thins_same rfl) (fun e mem => .inl ?_) rfl rfl rfl
          unfold State.underWay at mem ⊢
          rcases List.mem_append.mp mem with own | polled
          · exact List.mem_append_left _ own
          · obtain ⟨f, inside, here⟩ := List.mem_flatMap.mp polled
            exact List.mem_append_right _
              (List.mem_flatMap.mpr ⟨f, List.mem_of_mem_eraseIdx inside, here⟩)
        · cases moved
      · cases stepped

/-! ## The theorem -/

/-- While `Disarm` is called only when no eject of its handle is under way, none is afterwards, and
none comes to be. -/
theorem disarmed_ends (s : State) (reach : Reach Ejects.step ejectsReturned initial s) :
    ∀ k ∈ s.disarmed, ∀ e ∈ s.underWay, e.ctx ≠ some k := by
  have kept : Kept s := reach.invariant initial_kept fun kept may stepped => kept.step may stepped
  exact fun k mem => (kept.disarmed k mem).2.1

/-- An eject has returned when the handle is disarmed, and another one is under way. -/
def returnedLabels : List Label :=
  [.arm 0 0 0 (some 0) (some 1), .timer (.run 0 []), .call none true, .returned none,
    .disarm 0 1, .dispatched none, .timer (.run 0 []), .timer .wake,
    .arm 0 0 0 (some 0) (some 1), .timer (.run 0 []), .call none true]

def returnedAt : State := (run Ejects.step ejectsReturned initial returnedLabels).getD initial

theorem returnedAt_ends : returnedAt.disarmed = [0] ∧
    returnedAt.underWay = [⟨some 0, some 1, some 1⟩] ∧
    ∀ k ∈ returnedAt.disarmed, ∀ e ∈ returnedAt.underWay, e.ctx ≠ some k :=
  ⟨by decide +kernel, by decide +kernel,
    disarmed_ends returnedAt (Reach.of_isSome returnedLabels (by decide +kernel))⟩

/-- The timer thread has collected the entry and dropped the lock. -/
def collectedLabels : List Label := [.arm 0 0 0 (some 0) (some 1), .timer (.run 0 [])]

def collectedAt : State := (run Ejects.step anyStep initial collectedLabels).getD initial

/-- `Disarm` returns false, and the eject runs afterwards. -/
theorem eject_after_disarm : Reach Ejects.step anyStep initial collectedAt ∧
    collectedAt.handle 0 = some (0, 1) ∧ (collectedAt.timer.disarm 0 1).2 = false ∧
    ((Ejects.step collectedAt (.disarm 0 1)).bind fun s => Ejects.step s (.call none true)).map
      (fun s => (s.disarmed, s.own.running)) = some ([0], some ⟨some 0, some 1, some 0⟩) :=
  ⟨Reach.of_isSome collectedLabels (by decide +kernel), by decide +kernel, by decide +kernel,
    by decide +kernel⟩

end JLibSched.Ejects
