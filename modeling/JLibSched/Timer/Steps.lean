import JLibSched.Timer.Invariant
import Mathlib.Logic.Relation

/-!
# What a step does to the wheel

A section under the mutex advances the wheel to some tick, edits entries, and may at last move
the tick by one.  An edit hangs a new entry, takes one off, or moves the entry of a periodic to
a deadline after the current tick.  `Shape` lists what the sections do, and `step_shape` says
that every step has a shape.
-/

namespace JLibSched.Timer

open Transition Wheel

variable {s t : State}

/-! ## Edits -/

inductive Edit (w : Wheel) : Wheel → Prop where
  | insert (d : Nat) (fill : Entry → Entry) (fills : ∀ e, (fill e).generation = e.generation ∧
      (fill e).level = e.level ∧ (fill e).slot = e.slot) : Edit w (State.insert w d fill).1
  | disarm (i : Nat) (on : (w.entries i).level ≠ none) : Edit w (w.disarm i)
  | refire (i d : Nat) (on : (w.entries i).level ≠ none) : Edit w (w.refire i d)

def Edits : Wheel → Wheel → Prop := Relation.ReflTransGen Edit

theorem Edit.valid {w w' : Wheel} (edit : Edit w w') (valid : Valid w) : Valid w' := by
  cases edit with
  | insert d fill fills => exact insert_valid valid fills
  | disarm i on => exact disarm_valid valid on
  | refire i d on => exact refire_valid valid on

theorem Edit.currentTick {w w' : Wheel} (edit : Edit w w') (valid : Valid w) :
    w'.currentTick = w.currentTick := by
  cases edit with
  | insert d fill fills => exact insert_currentTick valid
  | disarm i on => exact disarm_rest.1
  | refire i d on => exact refire_rest.1

/-- An edit hangs an entry where it belongs, takes it off, or leaves it. -/
theorem Edit.entries {w w' : Wheel} (edit : Edit w w') (valid : Valid w) (i : Nat) :
    w'.entries i = w.entries i ∨ (w'.entries i).level = none ∨
      ∃ e, w'.entries i = Entry.hang e (placeOf w.currentTick e.deadlineTick) := by
  cases edit with
  | insert d fill fills =>
    rw [insert_entries valid]
    split
    · exact .inr (.inr ⟨_, rfl⟩)
    · exact .inl rfl
  | disarm j on =>
    rw [disarm_entries]
    split
    · exact .inr (.inl rfl)
    · exact .inl rfl
  | refire j d on =>
    rw [refire_entries]
    split
    · exact .inr (.inr ⟨_, rfl⟩)
    · exact .inl rfl

/-- The same for many edits. -/
theorem Edits.spec {w w' : Wheel} (edits : Edits w w') (valid : Valid w) :
    Valid w' ∧ w'.currentTick = w.currentTick ∧ ∀ i, w'.entries i = w.entries i ∨
      (w'.entries i).level = none ∨
      ∃ e, w'.entries i = Entry.hang e (placeOf w.currentTick e.deadlineTick) := by
  induction edits with
  | refl => exact ⟨valid, rfl, fun _ => .inl rfl⟩
  | tail _ edit ih =>
    obtain ⟨valid', tick, before⟩ := ih
    refine ⟨edit.valid valid', (edit.currentTick valid').trans tick, fun i => ?_⟩
    rcases edit.entries valid' i with same | off | ⟨e, hung⟩
    · rw [same]
      exact before i
    · exact .inr (.inl off)
    · rw [tick] at hung
      exact .inr (.inr ⟨e, hung⟩)

/-! ## Records -/

/-- The wheel, and the records of the periodics, which name their armed entries. -/
structure Sound (s : State) : Prop where
  wheel : Valid s.wheel
  named : ∀ r i, (s.record r).entry = some i →
    (s.wheel.entries i).level ≠ none ∧ (s.wheel.entries i).periodic = some r
  known : ∀ i r, (s.wheel.entries i).periodic = some r → r < s.records
  interval : ∀ r < s.records, 0 < (s.record r).interval
  unborn : ∀ r, s.records ≤ r → (s.record r).entry = none

theorem initial_sound : Sound initial :=
  ⟨empty_valid, fun _ _ none => (by cases none), fun _ _ none => (by cases none),
    fun _ none => absurd none (Nat.not_lt_zero _), fun _ _ => rfl⟩

/-- A record changes in other fields. -/
theorem Sound.setRecord {r : Nat} {f : PeriodicRecord → PeriodicRecord} (sound : Sound s)
    (same : (f (s.record r)).entry = (s.record r).entry ∧
      (f (s.record r)).interval = (s.record r).interval) : Sound (s.setRecord r f) := by
  have fields (r' : Nat) : ((s.setRecord r f).record r').entry = (s.record r').entry ∧
      ((s.setRecord r f).record r').interval = (s.record r').interval := by
    unfold State.setRecord
    dsimp only
    rcases eq_or_ne r' r with rfl | other
    · rw [Function.update_self]
      exact same
    · rw [Function.update_of_ne other]
      exact ⟨rfl, rfl⟩
  refine ⟨sound.wheel, fun r' i named => ?_, sound.known, fun r' below => ?_, fun r' above => ?_⟩
  · rw [(fields r').1] at named
    exact sound.named r' i named
  · rw [(fields r').2]
    exact sound.interval r' below
  · rw [(fields r').1]
    exact sound.unborn r' above

theorem Sound.advanceTo (sound : Sound s) (target : Nat) :
    Sound { s with wheel := s.wheel.advanceTo target } := by
  have entries := advanceTo_entries target sound.wheel.linked
  refine ⟨advanceTo_valid _ sound.wheel, fun r i named => ?_, fun i r periodic => ?_, sound.interval,
    sound.unborn⟩ <;> dsimp only at *
  · obtain ⟨on, periodic⟩ := sound.named r i named
    rcases entries i with same | ⟨-, place, -, moved⟩
    · rw [same]
      exact ⟨on, periodic⟩
    · rw [moved]
      exact ⟨fun none => (by cases none), periodic⟩
  · rcases entries i with same | ⟨-, place, -, moved⟩
    · rw [same] at periodic
      exact sound.known i r periodic
    · rw [moved] at periodic
      exact sound.known i r periodic

/-- An entry ends that no record names, or whose record forgets it. -/
theorem Sound.disarm {i : Nat} (sound : Sound s) (record : Nat → PeriodicRecord)
    (on : (s.wheel.entries i).level ≠ none)
    (fields : ∀ r, (record r).interval = (s.record r).interval ∧
      ((record r).entry = (s.record r).entry ∨ (record r).entry = none))
    (forgotten : ∀ r, (record r).entry ≠ some i) :
    Sound { s with wheel := s.wheel.disarm i, record := record } := by
  refine ⟨disarm_valid sound.wheel on, fun r j named => ?_, fun j r periodic => ?_,
    fun r below => ?_, fun r above => ?_⟩ <;> dsimp only at *
  · have other : j ≠ i := by
      rintro rfl
      exact forgotten r named
    rw [disarm_entries, if_neg other]
    rcases (fields r).2 with same | none
    · exact sound.named r j (same ▸ named)
    · rw [none] at named
      cases named
  · rw [disarm_entries] at periodic
    split at periodic
    · cases periodic
    · exact sound.known j r periodic
  · rw [(fields r).1]
    exact sound.interval r below
  · rcases (fields r).2 with same | none
    · rw [same]
      exact sound.unborn r above
    · exact none

theorem Sound.cancelPeriodic (sound : Sound s) (r : Nat) :
    Sound (s.cancelPeriodic r) ∧ Edits s.wheel (s.cancelPeriodic r).wheel := by
  unfold State.cancelPeriodic
  split
  · exact ⟨sound.setRecord ⟨rfl, rfl⟩, .refl⟩
  · rename_i i named
    obtain ⟨on, periodic⟩ := sound.named r i named
    refine ⟨sound.disarm _ on (fun r' => ?_) fun r' => ?_, .single (.disarm i on)⟩ <;>
      unfold State.setRecord <;> dsimp only <;> rcases eq_or_ne r' r with rfl | other
    · rw [Function.update_self]
      exact ⟨rfl, .inr rfl⟩
    · rw [Function.update_of_ne other]
      exact ⟨rfl, .inl rfl⟩
    · rw [Function.update_self]
      exact fun none => by cases none
    · rw [Function.update_of_ne other]
      intro same
      have owner := (sound.named r' i same).2
      rw [periodic] at owner
      exact other (Option.some.inj owner).symm

/-! ## Periodics -/

/-- The next grid point is after the reading of the clock. -/
theorem lt_nextDue {x : PeriodicRecord} (now : Nat) (positive : 0 < x.interval) :
    now < x.nextDue now := by
  unfold PeriodicRecord.nextDue PeriodicRecord.passed
  have past := Nat.lt_mul_div_succ (now - x.due) positive
  rw [Nat.mul_comm] at past
  omega

theorem lt_tickFor {tick ns : Nat} (later : tick * tickNs < ns) : tick < tickFor ns := by
  unfold tickFor
  simp only [tickNs] at *
  omega

theorem firePeriodic_wheel (i r : Nat) : (s.firePeriodic i r).1.wheel =
    s.wheel.refire i (tickFor ((s.record r).nextDue s.now)) := rfl

theorem Sound.firePeriodic {i r : Nat} (sound : Sound s)
    (periodic : (s.wheel.entries i).periodic = some r) :
    Sound (s.firePeriodic i r).1 := by
  have on : (s.wheel.entries i).level ≠ none := by
    intro off
    rw [sound.wheel.plain i off] at periodic
    cases periodic
  have records : Sound (s.setRecord r (·.fire s.now)) := sound.setRecord ⟨rfl, rfl⟩
  refine ⟨?_, fun r' j named => ?_, fun j r' names => ?_, records.interval, records.unborn⟩
  · rw [firePeriodic_wheel]
    exact refire_valid sound.wheel on
  · obtain ⟨hung, owner⟩ : (s.wheel.entries j).level ≠ none ∧
        (s.wheel.entries j).periodic = some r' := records.named r' j named
    rw [firePeriodic_wheel, refire_periodic]
    exact ⟨refire_on _ hung, owner⟩
  · rw [firePeriodic_wheel, refire_periodic] at names
    exact sound.known j r' names

/-! ## Collecting -/

/-- What visiting one entry does. -/
structure Visited (c c' : State.Collecting) (i : Nat) : Prop where
  sound : Sound c'.state
  edits : Edits c.state.wheel c'.state.wheel
  later : c.state.now ≤ c'.state.now
  others : ∀ j, j ≠ i → c'.state.wheel.entries j = c.state.wheel.entries j
  nothing : c'.batch = ⟨[], []⟩ → c.batch = ⟨[], []⟩ ∧
    c.state.wheel.currentTick < (c'.state.wheel.entries i).deadlineTick

theorem visit_spec {c : State.Collecting} {i : Nat} (sound : Sound c.state)
    (time : c.state.wheel.currentTick * tickNs ≤ c.state.now)
    (on : (c.state.wheel.entries i).level ≠ none) : Visited c (c.visit i) i := by
  unfold State.Collecting.visit
  split
  · rename_i full
    refine ⟨sound, .refl, Nat.le_refl _, fun _ _ => rfl, fun empty => ?_⟩
    rw [empty] at full
    exact absurd full (by decide)
  split
  · split
    · rename_i r periodic
      have passed : Sound (c.state.pass (c.gaps.headD 0)) :=
        ⟨sound.wheel, sound.named, sound.known, sound.interval, sound.unborn⟩
      refine ⟨passed.firePeriodic periodic, .single (.refire i _ on), Nat.le_add_right _ _,
        fun j other => ?_, fun empty => ?_⟩
      · dsimp only
        rw [firePeriodic_wheel, refire_entries, if_neg other]
        rfl
      · dsimp only at empty ⊢
        split at empty
        · simp at empty
        · refine ⟨empty, ?_⟩
          rw [firePeriodic_wheel, refire_entries, if_pos rfl]
          refine lt_tickFor (Nat.lt_of_le_of_lt ?_
            (lt_nextDue _ (sound.interval r (sound.known i r periodic))))
          exact Nat.le_trans time (Nat.le_add_right _ _)
    · rename_i plain
      have unnamed (r : Nat) : (c.state.record r).entry ≠ some i := by
        intro named
        have owner := (sound.named r i named).2
        rw [plain] at owner
        cases owner
      refine ⟨sound.disarm _ on (fun r => ⟨rfl, .inl rfl⟩) unnamed, .single (.disarm i on),
        Nat.le_refl _, fun j other => ?_, fun empty => ?_⟩
      · dsimp only
        rw [disarm_entries, if_neg other]
      · simp at empty
  · rename_i ahead
    exact ⟨sound, .refl, Nat.le_refl _, fun _ _ => rfl,
      fun empty => ⟨empty, Nat.lt_of_not_le ahead⟩⟩

/-- The whole loop: what was not on the list is unchanged, and if nothing was collected then
nothing on the list is due any more. -/
theorem visits_spec {c : State.Collecting} (list : List Nat) (sound : Sound c.state)
    (time : c.state.wheel.currentTick * tickNs ≤ c.state.now) (once : list.Nodup)
    (on : ∀ i ∈ list, (c.state.wheel.entries i).level ≠ none) :
    Sound (list.foldl State.Collecting.visit c).state ∧
    Edits c.state.wheel (list.foldl State.Collecting.visit c).state.wheel ∧
    (∀ j, j ∉ list → (list.foldl State.Collecting.visit c).state.wheel.entries j =
      c.state.wheel.entries j) ∧
    ((list.foldl State.Collecting.visit c).batch = ⟨[], []⟩ → c.batch = ⟨[], []⟩ ∧
      ∀ i ∈ list, c.state.wheel.currentTick <
        ((list.foldl State.Collecting.visit c).state.wheel.entries i).deadlineTick) := by
  induction list generalizing c with
  | nil => exact ⟨sound, .refl, fun _ _ => rfl, fun empty => ⟨empty, fun _ none => (by cases none)⟩⟩
  | cons i rest ih =>
    obtain ⟨fresh, once⟩ := List.nodup_cons.mp once
    have visited := visit_spec sound time (on i List.mem_cons_self)
    have tick := (visited.edits.spec sound.wheel).2.1
    obtain ⟨sound', edits, others, nothing⟩ := ih visited.sound
      (by rw [tick]; exact Nat.le_trans time visited.later) once fun j mem => by
        rw [visited.others j fun same => fresh (same ▸ mem)]
        exact on j (List.mem_cons_of_mem _ mem)
    refine ⟨sound', visited.edits.trans edits, fun j absent => ?_, fun empty => ?_⟩
    · rw [List.mem_cons, not_or] at absent
      rw [List.foldl_cons, others j absent.2, visited.others j absent.1]
    · obtain ⟨before, due⟩ := nothing empty
      obtain ⟨first, here⟩ := visited.nothing before
      refine ⟨first, fun j mem => ?_⟩
      rcases List.mem_cons.mp mem with rfl | later
      · rw [List.foldl_cons, others j fresh]
        exact here
      · rw [← tick]
        exact due j later

/-! ## Sections -/

/-- The tick to which `Arm` and `Periodic::Start` advance. -/
def armsAt (s : State) : Label → Option Nat
  | .arm wait _ _ eject => if eject.token = none then none else some (s.pass wait).nowTick
  | .start wait gap intervalNs _ =>
    if intervalNs ≤ 0 then none else some ((s.pass wait).pass gap).nowTick
  | _ => none

/-- The fire step of a round, up to the end of its loop, if the next event is due. -/
def State.collects (s : State) (gaps : List Nat) : Option State.Collecting :=
  s.wheel.nextEventTick.bind fun next =>
    if s.nowTick < next then none
    else some ({ s with wheel := s.wheel.advanceTo next }.collect gaps)

def collected (s : State) : Label → Option State.Collecting
  | .run wait gaps | .pollFire wait gaps => (s.pass wait).collects gaps
  | _ => none

/-- What a step does to the wheel. -/
inductive Shape (s : State) (a : Label) (t : State) : Prop where
  | edits (edits : Edits s.wheel t.wheel)
  | arms (target : Nat) (label : armsAt s a = some target)
      (edits : Edits (s.wheel.advanceTo target) t.wheel)
  | idle (none : s.wheel.nextEventTick = none) (tick : Nat)
      (wheel : t.wheel = { s.wheel with currentTick := tick })
  | fire (next : Nat) (found : s.wheel.nextEventTick = some next)
      (edits : Edits (s.wheel.advanceTo next) t.wheel)
  | skip (next : Nat) (found : s.wheel.nextEventTick = some next) (c : State.Collecting)
      (label : collected s a = some c) (empty : c.batch = ⟨[], []⟩)
      (edits : Edits (s.wheel.advanceTo next) c.state.wheel)
      (others : ∀ j, j ∉ (s.wheel.advanceTo next).heads 0 (next % slots) →
        c.state.wheel.entries j = (s.wheel.advanceTo next).entries j)
      (ahead : ∀ i ∈ (s.wheel.advanceTo next).heads 0 (next % slots),
        next < (c.state.wheel.entries i).deadlineTick)
      (wheel : t.wheel = { c.state.wheel with currentTick := c.state.wheel.currentTick + 1 })

theorem Sound.insert (sound : Sound s) (d : Nat) (fill : Entry → Entry)
    (record : Nat → PeriodicRecord) (records : Nat) (fills : ∀ e, (fill e).generation = e.generation ∧
      (fill e).level = e.level ∧ (fill e).slot = e.slot)
    (grows : s.records ≤ records) (interval : ∀ r < records, 0 < (record r).interval)
    (kept : ∀ r, record r = s.record r ∨ s.records ≤ r ∧ r < records ∧
      (record r).entry = some (State.insert s.wheel d fill).2 ∧
      ∀ e, (fill e).periodic = some r)
    (fresh : (∀ e, (fill e).periodic = e.periodic) ∨ s.records < records ∧
      ∀ e, (fill e).periodic = some s.records) :
    Sound { s with wheel := (State.insert s.wheel d fill).1, record := record,
                   records := records } := by
  have off := insert_off d fill sound.wheel
  have plain := sound.wheel.plain _ off
  refine ⟨insert_valid sound.wheel fills, fun r i named => ?_, fun i r periodic => ?_, interval,
    fun r above => ?_⟩ <;> dsimp only at *
  · rw [insert_entries sound.wheel]
    rcases kept r with same | ⟨-, -, entry, fills'⟩
    · rw [same] at named
      obtain ⟨on, periodic⟩ := sound.named r i named
      rw [if_neg]
      · exact ⟨on, periodic⟩
      · rintro rfl
        exact on off
    · rw [entry] at named
      cases named
      rw [if_pos rfl]
      exact ⟨fun none => (by cases none), fills' _⟩
  · rw [insert_entries sound.wheel] at periodic
    split at periodic
    · rcases fresh with same | ⟨more, fills'⟩
      · have before := (same _).symm.trans periodic
        have blank : (bump (s.wheel.entries (State.insert s.wheel d fill).2)).periodic = none :=
          plain
        rw [blank] at before
        cases before
      · have now := (fills' _).symm.trans periodic
        cases now
        exact more
    · exact Nat.lt_of_lt_of_le (sound.known i r periodic) grows
  · rcases kept r with same | ⟨-, below, -⟩
    · rw [same]
      exact sound.unborn r (Nat.le_trans grows above)
    · exact absurd below (Nat.not_lt.mpr above)

/-- The loop of a fire step whose tick has come. -/
theorem collect_spec {next : Nat} (gaps : List Nat) (sound : Sound s)
    (found : s.wheel.nextEventTick = some next) (due : next ≤ s.nowTick) :
    Sound ({ s with wheel := s.wheel.advanceTo next }.collect gaps).state ∧
    Edits (s.wheel.advanceTo next)
      ({ s with wheel := s.wheel.advanceTo next }.collect gaps).state.wheel ∧
    (∀ j, j ∉ (s.wheel.advanceTo next).heads 0 (next % slots) →
      ({ s with wheel := s.wheel.advanceTo next }.collect gaps).state.wheel.entries j =
        (s.wheel.advanceTo next).entries j) ∧
    (({ s with wheel := s.wheel.advanceTo next }.collect gaps).batch = ⟨[], []⟩ →
      ∀ i ∈ (s.wheel.advanceTo next).heads 0 (next % slots), next <
        (({ s with wheel := s.wheel.advanceTo next }.collect gaps).state.wheel.entries
          i).deadlineTick) := by
  have advanced := sound.advanceTo next
  have linked := advanced.wheel.linked
  have tick : (s.wheel.advanceTo next).currentTick = next := by
    rw [advanceTo_currentTick sound.wheel.linked, Nat.max_eq_right (nextEventTick_ge found)]
  have time : next * tickNs ≤ s.now := by
    have floor := Nat.div_mul_le_self s.now tickNs
    exact Nat.le_trans (Nat.mul_le_mul_right _ due) floor
  have whole := visits_spec (c := ⟨{ s with wheel := s.wheel.advanceTo next }, ⟨[], []⟩, gaps⟩)
    ((s.wheel.advanceTo next).heads 0 (next % slots)) advanced
    (by dsimp only; rw [tick]; exact time) (linked.nodup _ _) fun i mem => by
      rw [((linked.mem i _ _).mp mem).1]
      exact Option.some_ne_none _
  obtain ⟨sound', edits, others, nothing⟩ := whole
  unfold State.collect
  dsimp only at *
  rw [tick] at *
  exact ⟨sound', edits, others, fun empty => (nothing empty).2⟩

/-- A round whose next event is due. -/
theorem fireStep_spec {next : Nat} (gaps : List Nat) (sound : Sound s)
    (found : s.wheel.nextEventTick = some next) (due : next ≤ s.nowTick) :
    Sound (s.fireStep next gaps).1 ∧
    (Edits (s.wheel.advanceTo next) (s.fireStep next gaps).1.wheel ∨
      ∃ c, s.collects gaps = some c ∧ c.batch = ⟨[], []⟩ ∧
        Edits (s.wheel.advanceTo next) c.state.wheel ∧
        (∀ j, j ∉ (s.wheel.advanceTo next).heads 0 (next % slots) →
          c.state.wheel.entries j = (s.wheel.advanceTo next).entries j) ∧
        (∀ i ∈ (s.wheel.advanceTo next).heads 0 (next % slots),
          next < (c.state.wheel.entries i).deadlineTick) ∧
        (s.fireStep next gaps).1.wheel =
          { c.state.wheel with currentTick := c.state.wheel.currentTick + 1 }) := by
  obtain ⟨sound', edits, others, nothing⟩ := collect_spec gaps sound found due
  have collects : s.collects gaps =
      some ({ s with wheel := s.wheel.advanceTo next }.collect gaps) := by
    unfold State.collects
    rw [found]
    exact if_neg (Nat.not_lt.mpr due)
  unfold State.fireStep
  dsimp only
  generalize { s with wheel := s.wheel.advanceTo next }.collect gaps = c at *
  split
  · rename_i empty
    have batch : c.batch = ⟨[], []⟩ := by
      rw [show c.batch = ⟨c.batch.ejects, c.batch.fired⟩ from rfl, empty.1, empty.2]
    refine ⟨?_, .inr ⟨c, collects, batch, edits, others, nothing batch, rfl⟩⟩
    exact ⟨⟨⟨sound'.wheel.linked.mem, sound'.wheel.linked.nodup⟩, sound'.wheel.bound,
      sound'.wheel.parity, sound'.wheel.plain, sound'.wheel.blank, sound'.wheel.free⟩,
      sound'.named, sound'.known, sound'.interval, sound'.unborn⟩
  · exact ⟨sound', .inl edits⟩

theorem Sound.pass (sound : Sound s) (ns : Nat) : Sound (s.pass ns) :=
  ⟨sound.wheel, sound.named, sound.known, sound.interval, sound.unborn⟩

theorem Sound.moveTick (sound : Sound s) (tick : Nat) :
    Sound { s with wheel := { s.wheel with currentTick := tick } } :=
  ⟨⟨⟨sound.wheel.linked.mem, sound.wheel.linked.nodup⟩, sound.wheel.bound, sound.wheel.parity,
    sound.wheel.plain, sound.wheel.blank, sound.wheel.free⟩, sound.named, sound.known,
    sound.interval, sound.unborn⟩

theorem arm_shape {wait gap : Nat} {delayNs : Int} {eject : Eject} (sound : Sound s) :
    Sound (s.arm wait gap delayNs eject).1 ∧
      Shape s (.arm wait gap delayNs eject) (s.arm wait gap delayNs eject).1 := by
  unfold State.arm
  split
  · exact ⟨sound, .edits .refl⟩
  · rename_i valid
    have label : armsAt s (.arm wait gap delayNs eject) = some (s.pass wait).nowTick := if_neg valid
    have advanced := (sound.pass wait).advanceTo (s.pass wait).nowTick
    have whole := advanced.insert ((s.pass wait).deadlineFor gap delayNs)
      (fun e => { e with eject := eject }) s.record s.records
      (fun _ => ⟨rfl, rfl, rfl⟩) (Nat.le_refl _) sound.interval (fun _ => .inl rfl)
      (.inl fun _ => rfl)
    exact ⟨⟨whole.wheel, whole.named, whole.known, whole.interval, whole.unborn⟩,
      .arms _ label (.single (.insert ((s.pass wait).deadlineFor gap delayNs)
        (fun e => { e with eject := eject }) fun _ => ⟨rfl, rfl, rfl⟩))⟩

theorem Sound.startRecord {interval : Nat} (sound : Sound s) (positive : 0 < interval) (due : Nat) :
    Sound (s.startRecord interval due) ∧
      Edits (s.wheel.advanceTo s.nowTick) (s.startRecord interval due).wheel := by
  have advanced := sound.advanceTo s.nowTick
  have whole := advanced.insert (tickFor due)
    (fun e => { e with periodic := some s.records })
    (s.startRecord interval due).record (s.records + 1)
    (fun _ => ⟨rfl, rfl, rfl⟩) (Nat.le_succ _) ?_ ?_ (.inr ⟨Nat.lt_succ_self _, fun _ => rfl⟩)
  · exact ⟨⟨whole.wheel, whole.named, whole.known, whole.interval, whole.unborn⟩,
      .single (.insert (tickFor due) (fun e => { e with periodic := some s.records })
        fun _ => ⟨rfl, rfl, rfl⟩)⟩
  · intro r below
    change 0 < (Function.update s.record s.records _ r).interval
    rcases eq_or_ne r s.records with rfl | other
    · rw [Function.update_self]
      exact positive
    · rw [Function.update_of_ne other]
      exact sound.interval r (by omega)
  · intro r
    change Function.update s.record s.records _ r = s.record r ∨ _ ∧ _ ∧
      (Function.update s.record s.records _ r).entry = _ ∧ _
    rcases eq_or_ne r s.records with rfl | other
    · rw [Function.update_self]
      exact .inr ⟨Nat.le_refl _, Nat.lt_succ_self _, rfl, fun _ => rfl⟩
    · rw [Function.update_of_ne other]
      exact .inl rfl

theorem start_shape {wait gap : Nat} {intervalNs firstDelayNs : Int} (sound : Sound s) :
    Sound (s.start wait gap intervalNs firstDelayNs) ∧
      Shape s (.start wait gap intervalNs firstDelayNs)
        (s.start wait gap intervalNs firstDelayNs) := by
  unfold State.start
  split
  · exact ⟨sound, .edits .refl⟩
  · rename_i positive
    have label : armsAt s (.start wait gap intervalNs firstDelayNs) =
        some ((s.pass wait).pass gap).nowTick := if_neg positive
    have interval : 0 < State.intervalFor intervalNs := by
      unfold State.intervalFor
      split
      · decide
      · omega
    obtain ⟨sound', edits⟩ := ((sound.pass wait).pass gap).startRecord interval
      ((s.pass wait).firstDue (State.intervalFor intervalNs) firstDelayNs)
    exact ⟨sound', .arms _ label edits⟩

/-- A round of the timer thread or of a worker. -/
theorem run_shape {wait : Nat} {gaps : List Nat} (sound : Sound s) :
    Sound ((s.pass wait).run gaps) ∧ Shape s (.run wait gaps) ((s.pass wait).run gaps) := by
  have passed := sound.pass wait
  unfold State.run
  cases found : (s.pass wait).wheel.nextEventTick with
  | none =>
    have moved := passed.moveTick (s.pass wait).nowTick
    exact ⟨⟨moved.wheel, moved.named, moved.known, moved.interval, moved.unborn⟩,
      .idle found _ rfl⟩
  | some next =>
    dsimp only
    split
    · exact ⟨⟨sound.wheel, sound.named, sound.known, sound.interval, sound.unborn⟩, .edits .refl⟩
    · rename_i due
      obtain ⟨fired, shape⟩ := fireStep_spec gaps passed found (Nat.not_lt.mp due)
      refine ⟨⟨fired.wheel, fired.named, fired.known, fired.interval, fired.unborn⟩, ?_⟩
      rcases shape with edits | ⟨c, label, empty, edits, others, ahead, wheel⟩
      · exact .fire next found edits
      · exact .skip next found c label empty edits others ahead wheel

theorem pollFire_shape {wait : Nat} {gaps : List Nat} (sound : Sound s) :
    Sound ((s.pass wait).pollFire gaps).1 ∧
      Shape s (.pollFire wait gaps) ((s.pass wait).pollFire gaps).1 := by
  have passed := sound.pass wait
  have unchanged : Sound (s.pass wait).publishGate :=
    ⟨sound.wheel, sound.named, sound.known, sound.interval, sound.unborn⟩
  unfold State.pollFire
  cases found : (s.pass wait).wheel.nextEventTick with
  | none => exact ⟨unchanged, .edits .refl⟩
  | some next =>
    dsimp only
    split
    · exact ⟨unchanged, .edits .refl⟩
    · rename_i due
      obtain ⟨fired, shape⟩ := fireStep_spec gaps passed found (Nat.not_lt.mp due)
      refine ⟨⟨fired.wheel, fired.named, fired.known, fired.interval, fired.unborn⟩, ?_⟩
      rcases shape with edits | ⟨c, label, empty, edits, others, ahead, wheel⟩
      · exact .fire next found edits
      · exact .skip next found c label empty edits others ahead wheel

theorem disarm_shape {index generation : Nat} (sound : Sound s)
    (own : ¬ ((s.wheel.entries index).generation = generation ∧ generation % 2 = 1 ∧
      (s.wheel.entries index).periodic ≠ none)) :
    Sound (s.disarm index generation).1 ∧
      Shape s (.disarm index generation) (s.disarm index generation).1 := by
  unfold State.disarm
  split
  · exact ⟨sound, .edits .refl⟩
  split
  · exact ⟨sound, .edits .refl⟩
  · rename_i current
    simp only [ne_eq, not_or, not_not] at current
    obtain ⟨same, odd⟩ := current
    have armed : (s.wheel.entries index).armed := by
      unfold Entry.armed
      omega
    have on := (sound.wheel.parity index).mp armed
    have plain : (s.wheel.entries index).periodic = none := by
      by_contra periodic
      exact own ⟨same, by omega, periodic⟩
    have ended := sound.disarm s.record on (fun _ => ⟨rfl, .inl rfl⟩) fun r named => by
      have owner := (sound.named r index named).2
      rw [plain] at owner
      cases owner
    exact ⟨⟨ended.wheel, ended.named, ended.known, ended.interval, ended.unborn⟩,
      .edits (.single (.disarm index on))⟩

/-- Every step has a shape. -/
theorem step_shape {a : Label} (sound : Sound s) (stepped : step s a = some t) :
    Sound t ∧ Shape s a t := by
  have unchanged (same : t.wheel = s.wheel) (records : t.record = s.record ∧
      t.records = s.records) : Sound t ∧ Shape s a t := by
    obtain ⟨record, records⟩ := records
    refine ⟨⟨same ▸ sound.wheel, ?_, ?_, ?_, ?_⟩, .edits (by rw [same]; exact .refl)⟩
    · rw [record, same]
      exact sound.named
    · rw [records, same]
      exact sound.known
    · rw [record, records]
      exact sound.interval
    · rw [record, records]
      exact sound.unborn
  cases a with
  | arm wait gap delayNs eject =>
    cases stepped
    exact arm_shape sound
  | disarm index generation =>
    simp only [step] at stepped
    split at stepped
    · cases stepped
    · rename_i own
      cases stepped
      exact disarm_shape sound own
  | start wait gap intervalNs firstDelayNs =>
    cases stepped
    exact start_shape sound
  | cancel r =>
    simp only [step] at stepped
    split at stepped
    · cases stepped
      obtain ⟨sound', edits⟩ := sound.cancelPeriodic r
      exact ⟨⟨sound'.wheel, sound'.named, sound'.known, sound'.interval, sound'.unborn⟩,
        .edits edits⟩
    · cases stepped
  | takeSkipped r =>
    simp only [step] at stepped
    split at stepped
    · cases stepped
      exact ⟨sound.setRecord ⟨rfl, rfl⟩, .edits .refl⟩
    · cases stepped
  | finish r stop =>
    simp only [step] at stepped
    split at stepped
    · cases stepped
      unfold State.finishPeriodic
      cases stop with
      | false => exact ⟨sound.setRecord ⟨rfl, rfl⟩, .edits .refl⟩
      | true =>
        obtain ⟨sound', edits⟩ := sound.cancelPeriodic r
        exact ⟨sound'.setRecord ⟨rfl, rfl⟩, .edits edits⟩
    · cases stepped
  | run wait gaps =>
    simp only [step] at stepped
    split at stepped
    · cases stepped
      exact run_shape sound
    · cases stepped
  | pollFire wait gaps =>
    cases stepped
    exact pollFire_shape sound
  | wake | dispatched | pollDispatched =>
    simp only [step] at stepped
    split at stepped <;> cases stepped
    exact unchanged rfl ⟨rfl, rfl⟩

end JLibSched.Timer
