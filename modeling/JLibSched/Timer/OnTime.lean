import JLibSched.Timer.Acts

/-!
# No timer is early

A deadline is rounded up to a tick, and an entry ends or fires only when the tick of its deadline
has begun, wherever the wheel has moved it meanwhile.  The handles come round, so the arm that a
collected entry belongs to is the last one that has taken the entry.
-/

namespace JLibSched.History

open Transition Timer Wheel

variable {s t : Timer.State} {e es log : List Event} {i : Nat}

/-- The last event that has taken the entry. -/
def lastTaken (log : List Event) (i : Nat) : Option Event := log.reverse.find? (Event.acquires i)

/-- The event is not early, after what the log has. -/
def Punctual (log : List Event) : Event → Prop
  | .collected i g now => ∃ (reading : Nat) (delayNs : Int),
      lastTaken log i = some (.armed i g reading delayNs) ∧ reading + delayNs ≤ now
  | .fired _ due now _ => due ≤ now
  | _ => True

def OnTime (log : List Event) : Prop :=
  ∀ before event after, log = before ++ event :: after → Punctual before event

theorem OnTime.concat {event : Event} (onTime : OnTime log) (punctual : Punctual log event) :
    OnTime (log ++ [event]) := by
  intro before other after split
  rcases List.eq_nil_or_concat after with rfl | ⟨rest, last, rfl⟩
  · obtain ⟨rfl, same⟩ := List.append_inj' split rfl
    cases same
    exact punctual
  · rw [List.concat_eq_append, ← List.cons_append, ← List.append_assoc] at split
    exact onTime before other rest (List.append_inj' split rfl).1

theorem lastTaken_concat (log : List Event) (event : Event) (i : Nat) :
    lastTaken (log ++ [event]) i =
      if Event.acquires i event then some event else lastTaken log i := by
  unfold lastTaken
  rw [List.reverse_append, List.reverse_singleton, List.singleton_append, List.find?_cons]
  cases Event.acquires i event <;> rfl

/-! ## The deadlines on the wheel -/

/-- The deadline of an armed entry is not before what its arm asked for, or is the grid point of its
periodic. -/
structure Filed (t : Timer.State) (log : List Event) (i : Nat) : Prop where
  arm : (t.wheel.entries i).level ≠ none → (t.wheel.entries i).periodic = none →
    ∃ (reading : Nat) (delayNs : Int),
      lastTaken log i = some (.armed i (t.wheel.entries i).generation reading delayNs) ∧
      reading ≤ t.now ∧
      (0 < delayNs → reading + delayNs.toNat ≤ (t.wheel.entries i).deadlineTick * tickNs)
  grid : ∀ r, (t.wheel.entries i).periodic = some r →
    (t.record r).entry = some i ∧ (t.wheel.entries i).deadlineTick = tickFor (t.record r).due

structure Timely (t : Timer.State) (log : List Event) : Prop where
  sound : Sound t
  filed : ∀ i, Filed t log i
  onTime : OnTime log

theorem Filed.off (sound : Sound t) (off : (t.wheel.entries i).level = none) : Filed t log i := by
  refine ⟨fun on => absurd off on, fun r periodic => ?_⟩
  rw [sound.wheel.plain i off] at periodic
  cases periodic

/-- An entry that is left alone. -/
theorem Filed.keep {log' : List Event} (filed : Filed s log i)
    (off : (t.wheel.entries i).level = none ↔ (s.wheel.entries i).level = none)
    (generation : (t.wheel.entries i).generation = (s.wheel.entries i).generation)
    (periodic : (t.wheel.entries i).periodic = (s.wheel.entries i).periodic)
    (deadlineTick : (t.wheel.entries i).deadlineTick = (s.wheel.entries i).deadlineTick)
    (now : s.now ≤ t.now) (last : lastTaken log' i = lastTaken log i)
    (record : ∀ r, (s.wheel.entries i).periodic = some r →
      (t.record r).entry = (s.record r).entry ∧ (t.record r).due = (s.record r).due) :
    Filed t log' i := by
  refine ⟨fun on plain => ?_, fun r named => ?_⟩
  · rw [periodic] at plain
    obtain ⟨reading, delayNs, found, past, late⟩ := filed.arm (fun none => on (off.mpr none)) plain
    rw [generation, deadlineTick, last]
    exact ⟨reading, delayNs, found, Nat.le_trans past now, late⟩
  · rw [periodic] at named
    rw [(record r named).1, (record r named).2, deadlineTick]
    exact filed.grid r named

/-- An event that acquires no entry leaves the last ones. -/
theorem lastTaken_same {event : Event} (other : Event.acquires i event = false) :
    lastTaken (log ++ [event]) i = lastTaken log i := by
  rw [lastTaken_concat, other]
  rfl

/-- The entry `i` ends, and other entries and their records are left alone. -/
theorem Timely.ended {event : Event} (timely : Timely s log) (sound : Sound t)
    (wheel : t.wheel = s.wheel.disarm i) (now : s.now ≤ t.now) (record : t.record = s.record)
    (acquires : ∀ j, Event.acquires j event = false) (punctual : Punctual log event) :
    Timely t (log ++ [event]) := by
  refine ⟨sound, fun j => ?_, timely.onTime.concat punctual⟩
  by_cases here : j = i
  · refine Filed.off sound ?_
    rw [wheel, disarm_entries, if_pos here]
  · have entries : t.wheel.entries j = s.wheel.entries j := by
      rw [wheel, disarm_entries, if_neg here]
    refine (timely.filed j).keep ?_ ?_ ?_ ?_ now (lastTaken_same (acquires j)) fun r _ => ?_
    · rw [entries]
    · rw [entries]
    · rw [entries]
    · rw [entries]
    · rw [record]
      exact ⟨rfl, rfl⟩

/-- The deadline of an entry that is collected has come. -/
theorem Timely.punctual (timely : Timely s log) (on : (s.wheel.entries i).level ≠ none)
    (plain : (s.wheel.entries i).periodic = none)
    (due : (s.wheel.entries i).deadlineTick * tickNs ≤ s.now) :
    Punctual log (.collected i (s.wheel.entries i).generation s.now) := by
  obtain ⟨reading, delayNs, found, past, late⟩ := (timely.filed i).arm on plain
  refine ⟨reading, delayNs, found, ?_⟩
  rcases Int.lt_or_le 0 delayNs with positive | none
  · have after := late positive
    omega
  · omega

theorem Timely.cancelPeriodic (timely : Timely s log) (r : Nat) :
    Timely (s.cancelPeriodic r) (log ++ []) := by
  have sound := (timely.sound.cancelPeriodic r).1
  rw [List.append_nil]
  unfold State.cancelPeriodic at sound ⊢
  cases entry : (s.record r).entry with
  | none =>
    rw [entry] at sound
    refine ⟨sound, fun i => ?_, timely.onTime⟩
    refine (timely.filed i).keep Iff.rfl rfl rfl rfl (Nat.le_refl _) rfl fun r' _ => ?_
    unfold State.setRecord
    dsimp only
    rcases eq_or_ne r' r with rfl | other
    · rw [Function.update_self]
      exact ⟨rfl, rfl⟩
    · rw [Function.update_of_ne other]
      exact ⟨rfl, rfl⟩
  | some i =>
    rw [entry] at sound
    refine ⟨sound, fun j => ?_, timely.onTime⟩
    by_cases here : j = i
    · refine Filed.off sound ?_
      dsimp only
      rw [disarm_entries, if_pos here]
    · have entries : (s.wheel.disarm i).entries j = s.wheel.entries j := by
        rw [disarm_entries, if_neg here]
      refine (timely.filed j).keep ?_ ?_ ?_ ?_ (Nat.le_refl _) rfl fun r' named => ?_
      · exact entries ▸ Iff.rfl
      · exact congrArg Entry.generation entries
      · exact congrArg Entry.periodic entries
      · exact congrArg Entry.deadlineTick entries
      · have other : r' ≠ r := by
          rintro rfl
          have own := ((timely.filed j).grid r' named).1
          rw [entry] at own
          exact here (Option.some.inj own).symm
        unfold State.setRecord
        dsimp only
        rw [Function.update_of_ne other]
        exact ⟨rfl, rfl⟩

theorem Act.timely (act : Act s e t) (timely : Timely s log) : Timely t (log ++ e) := by
  have sound := act.sound timely.sound
  cases act with
  | quiet quiet =>
    rw [List.append_nil]
    refine ⟨sound, fun i => ?_, timely.onTime⟩
    refine (timely.filed i).keep (quiet.off i) (quiet.generation i) (quiet.periodic i)
      (quiet.deadlineTick i) quiet.now rfl fun r _ => ?_
    rw [quiet.record]
    exact ⟨rfl, rfl⟩
  | arm d reading delayNs eject past after =>
    have entries := armed_entries timely.sound d eject
    refine ⟨sound, fun i => ?_, timely.onTime.concat trivial⟩
    by_cases here : i = nextEntry s.wheel
    · refine ⟨fun _ _ => ⟨reading, delayNs, ?_, past, ?_⟩, fun r periodic => ?_⟩
      · rw [lastTaken_concat, entries, if_pos here, here]
        exact if_pos (decide_eq_true rfl)
      · rw [entries, if_pos here]
        exact after
      · rw [entries, if_pos here] at periodic
        have plain := timely.sound.wheel.plain _ (nextEntry_off timely.sound)
        exact absurd (plain.symm.trans periodic) fun absurd => (by cases absurd)
    · refine (timely.filed i).keep ?_ ?_ ?_ ?_ (Nat.le_refl _)
        (lastTaken_same (decide_eq_false here)) fun _ _ => ⟨rfl, rfl⟩ <;>
        rw [entries, if_neg here]
  | start due interval positive =>
    have entries := started_entries timely.sound due interval
    refine ⟨sound, fun i => ?_, timely.onTime.concat trivial⟩
    by_cases here : i = nextEntry s.wheel
    · refine ⟨fun _ plain => ?_, fun r periodic => ?_⟩
      · rw [entries, if_pos here] at plain
        cases plain
      · rw [entries, if_pos here] at periodic ⊢
        cases periodic
        have record : (started s due interval).record s.records =
            ⟨interval, due, 0, 0, some (nextEntry s.wheel), 0, false, false⟩ :=
          Function.update_self ..
        rw [record, here]
        exact ⟨rfl, rfl⟩
    · refine (timely.filed i).keep ?_ ?_ ?_ ?_ (Nat.le_refl _)
        (lastTaken_same (decide_eq_false here)) fun r periodic => ?_
      · rw [entries, if_neg here]
      · rw [entries, if_neg here]
      · rw [entries, if_neg here]
      · rw [entries, if_neg here]
      · have known := timely.sound.known i r periodic
        have record : (started s due interval).record r = s.record r :=
          Function.update_of_ne (Nat.ne_of_lt known) ..
        rw [record]
        exact ⟨rfl, rfl⟩
  | disarm i on plain =>
    exact timely.ended sound rfl (Nat.le_refl _) rfl (fun _ => rfl) trivial
  | refuse i g ended =>
    refine ⟨sound, fun i => ?_, timely.onTime.concat trivial⟩
    exact (timely.filed i).keep Iff.rfl rfl rfl rfl (Nat.le_refl _) (lastTaken_same rfl)
      fun _ _ => ⟨rfl, rfl⟩
  | collect i on plain due =>
    exact timely.ended sound rfl (Nat.le_refl _) rfl (fun _ => rfl) (timely.punctual on plain due)
  | cancel r => exact timely.cancelPeriodic r
  | fire i r on periodic due =>
    obtain ⟨entry, grid⟩ := (timely.filed i).grid r periodic
    rw [grid] at due
    refine ⟨sound, fun j => ?_, timely.onTime.concat (Nat.le_trans (le_tickFor _) due)⟩
    have record : (s.firePeriodic i r).1.record r = (s.record r).fire s.now :=
      Function.update_self ..
    by_cases here : j = i
    · subst here
      have kept : ((s.firePeriodic j r).1.wheel.entries j).periodic = some r := by
        rw [firePeriodic_wheel, refire_periodic]
        exact periodic
      refine ⟨fun _ plain => ?_, fun r' named => ?_⟩
      · rw [kept] at plain
        cases plain
      · rw [kept] at named
        cases named
        rw [firePeriodic_wheel, refire_deadlineTick, record]
        exact ⟨entry, rfl⟩
    · have entries : (s.firePeriodic i r).1.wheel.entries j = s.wheel.entries j := by
        rw [firePeriodic_wheel, refire_entries, if_neg here]
      refine (timely.filed j).keep ?_ ?_ ?_ ?_ (Nat.le_refl _) (lastTaken_same rfl)
        fun r' named => ?_
      · rw [entries]
      · rw [entries]
      · rw [entries]
      · rw [entries]
      · have other : r' ≠ r := by
          rintro rfl
          have own := ((timely.filed j).grid r' named).1
          rw [entry] at own
          exact here (Option.some.inj own).symm
        have same : (s.firePeriodic i r).1.record r' = s.record r' :=
          Function.update_of_ne other ..
        rw [same]
        exact ⟨rfl, rfl⟩

/-! ## Runs -/

/-- A record changes in fields that the wheel does not follow. -/
theorem Timely.setRecord {r : Nat} {f : PeriodicRecord → PeriodicRecord} {event : Event}
    (timely : Timely s log) (same : (f (s.record r)).entry = (s.record r).entry ∧
      (f (s.record r)).interval = (s.record r).interval ∧ (f (s.record r)).due = (s.record r).due)
    (acquires : ∀ i, Event.acquires i event = false) (punctual : Punctual log event) :
    Timely (s.setRecord r f) (log ++ [event]) := by
  refine ⟨timely.sound.setRecord ⟨same.1, same.2.1⟩, fun i => ?_, timely.onTime.concat punctual⟩
  refine (timely.filed i).keep Iff.rfl rfl rfl rfl (Nat.le_refl _) (lastTaken_same (acquires i))
    fun r' _ => ?_
  unfold State.setRecord
  dsimp only
  rcases eq_or_ne r' r with rfl | other
  · rw [Function.update_self]
    exact ⟨same.1, same.2.2⟩
  · rw [Function.update_of_ne other]
    exact ⟨rfl, rfl⟩

theorem Timely.finishPeriodic {r : Nat} {stop : Bool} (timely : Timely s log) :
    Timely (s.finishPeriodic r stop) (log ++ [.finished r]) := by
  unfold State.finishPeriodic
  refine Timely.setRecord ?_ ⟨rfl, rfl, rfl⟩ (fun _ => rfl) trivial
  cases stop with
  | false => exact timely
  | true =>
    have cancelled := timely.cancelPeriodic r
    rw [List.append_nil] at cancelled
    exact cancelled

theorem initial_timely : Timely Timer.initial [] :=
  ⟨initial_sound, fun _ => Filed.off initial_sound rfl, fun before _ _ split => by
    cases before <;> cases split⟩

theorem Timely.preserved {s t : State} {a : Label} (timely : Timely s.timer s.log)
    (stepped : step s a = some t) : Timely t.timer t.log := by
  cases a with
  | timer a =>
    simp only [step] at stepped
    split at stepped
    · cases stepped
    rename_i other
    obtain ⟨u, moved, rfl⟩ := Option.map_eq_some_iff.mp stepped
    have acts := step_acts timely.sound (Bool.eq_false_iff.mpr other) moved
    exact acts.keep (I := Timely) timely Act.timely
  | begins k =>
    simp only [step] at stepped
    split at stepped <;> cases stepped
    dsimp only
    unfold State.takeSkipped
    exact timely.setRecord ⟨rfl, rfl, rfl⟩ (fun _ => rfl) trivial
  | ends | fails =>
    simp only [step] at stepped
    split at stepped <;> cases stepped
    exact timely.finishPeriodic

theorem timely_of_reach {s : State} (reach : Reach step anyStep initial s) : Timely s.timer s.log :=
  reach.invariant (I := fun s => Timely s.timer s.log) initial_timely
    fun timely _ stepped => timely.preserved stepped

/-- No entry is collected and no grid point fired before its time. -/
theorem timers_on_time {s : State} (reach : Reach step anyStep initial s) : OnTime s.log :=
  (timely_of_reach reach).onTime

/-- A timer of one and a half milliseconds; a fire step one millisecond later finds nothing due. -/
def roundedLabels : List Label :=
  [.timer (.arm 700000 0 1500000 ⟨some 0, some 1, none⟩), .timer (.pollFire 1000000 []),
    .timer (.pollFire 1300000 [])]

def roundedRun : State := (run step anyStep initial roundedLabels).getD initial

theorem roundedRun_reach : Reach step anyStep initial roundedRun :=
  Reach.of_isSome roundedLabels (by decide +kernel)

theorem roundedRun_on_time :
    OnTime roundedRun.log ∧ .collected 0 1 3000000 ∈ roundedRun.log :=
  ⟨timers_on_time roundedRun_reach, by decide +kernel⟩

end JLibSched.History
