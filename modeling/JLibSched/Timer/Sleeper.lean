import JLibSched.Timer.Steps

/-!
# The sleep of the timer thread

`NextEventTick` is the first block ahead whose slot is occupied.  Taking an entry off can only make
it later, a fire step leaves nothing before the tick it was for, and whoever hangs a new entry looks
whether the thread sleeps too long.
-/

namespace JLibSched.Timer

open Transition

namespace Wheel

variable {w w' : Wheel} {l : Nat}

/-- What `NextOccupied` finds is an occupied slot. -/
theorem nextOccupied_occupied {start : Nat} (inside : start < slots)
    (found : w.nextOccupied l start ≠ slots) :
    w.nextOccupied l start < slots ∧ w.heads l (w.nextOccupied l start) ≠ [] := by
  unfold nextOccupied at *
  cases search : (scanOrder start).find? fun s => w.heads l s ≠ [] with
  | none =>
    rw [search] at found
    exact absurd rfl found
  | some s =>
    have mem := List.mem_of_find?_eq_some search
    rw [scanOrder_eq inside] at mem
    obtain ⟨k, -, rfl⟩ := List.mem_map.mp mem
    have occupied := List.find?_some search
    exact ⟨Nat.mod_lt _ (by decide), of_decide_eq_true occupied⟩

/-- The block that is as far from `base` as a slot is from the slot of `base`. -/
theorem block_slot {base start s : Nat} (same : start = base % slots) (inside : s < slots) :
    (base + (s + slots - start) % slots) % slots = s := by
  simp only [slots] at *
  omega

/-- The event of a level is the block of an occupied slot. -/
theorem levelEvent_block {t : Nat} (event : w.levelEvent l = some t) :
    l = 0 ∧ w.currentTick ≤ t ∧ t < w.currentTick + slots ∧ w.heads 0 (t % slots) ≠ [] ∨
      1 ≤ l ∧ ∃ v, t = v * granularity l ∧ w.currentTick / granularity l < v ∧
        v ≤ w.currentTick / granularity l + slots ∧ w.heads l (v % slots) ≠ [] := by
  unfold levelEvent at event
  simp only [Option.ite_none_left_eq_some, Option.some.injEq] at event
  obtain ⟨-, found, rfl⟩ := event
  rcases Nat.eq_zero_or_pos l with rfl | up
  · have unit : granularity 0 = 1 := rfl
    rw [unit, Nat.div_one, if_pos rfl] at found
    rw [unit, Nat.div_one, if_pos rfl, if_pos rfl, Nat.mul_one]
    obtain ⟨inside, occupied⟩ := nextOccupied_occupied (Nat.mod_lt _ (by decide)) found
    generalize w.nextOccupied 0 (w.currentTick % slots) = s at *
    refine .inl ⟨rfl, Nat.le_add_right _ _, ?_, by rw [block_slot rfl inside]; exact occupied⟩
    exact Nat.add_lt_add_left (Nat.mod_lt _ (by decide)) _
  · simp only [if_neg (Nat.ne_of_gt up)] at found ⊢
    obtain ⟨inside, occupied⟩ := nextOccupied_occupied (Nat.mod_lt _ (by decide)) found
    generalize w.nextOccupied l ((w.currentTick / granularity l % slots + 1) % slots) = s at *
    generalize w.currentTick / granularity l = block at *
    have start : (block % slots + 1) % slots = (block + 1) % slots := Nat.mod_add_mod block slots 1
    have near : (s + slots - (block % slots + 1) % slots) % slots < slots :=
      Nat.mod_lt _ (by decide)
    refine .inr ⟨up, block + 1 + (s + slots - (block % slots + 1) % slots) % slots,
      (Nat.add_mul _ _ _).symm, by omega, by omega, by rw [block_slot start inside]; exact occupied⟩

/-- The wheel `w'` has, on the same tick, no entry in a slot that is empty on `w`. -/
def Fewer (w' w : Wheel) : Prop :=
  w'.currentTick = w.currentTick ∧ ∀ l s, w'.heads l s ≠ [] → w.heads l s ≠ []

/-- Then its next event is no earlier. -/
theorem Fewer.nextEventTick {t : Nat} (fewer : Fewer w' w) (next : w'.nextEventTick = some t) :
    ∃ t', w.nextEventTick = some t' ∧ t' ≤ t := by
  obtain ⟨tick, occupied⟩ := fewer
  obtain ⟨l, inside, event⟩ := nextEventTick_level next
  have here : ∃ t', w.levelEvent l = some t' ∧ t' ≤ t := by
    rcases levelEvent_block event with ⟨rfl, low, high, some⟩ | ⟨up, v, rfl, low, high, some⟩
    · rw [tick] at low high
      exact levelEvent_le_zero low high (occupied _ _ some)
    · rw [tick] at low high
      exact levelEvent_le_above up low high (occupied _ _ some)
  obtain ⟨t', event', le⟩ := here
  obtain ⟨t'', next', le'⟩ := nextEventTick_le inside event'
  exact ⟨t'', next', Nat.le_trans le' le⟩

theorem disarm_fewer (i : Nat) : Fewer (w.disarm i) w := by
  refine ⟨disarm_rest.1, fun l s => ?_⟩
  change (w.unlink i).heads l s ≠ [] → w.heads l s ≠ []
  unfold unlink
  split
  · exact id
  · rw [setHead_heads]
    split
    · rename_i here
      rintro some none
      rw [here.1, here.2] at none
      rw [none] at some
      exact some rfl
    · exact id

/-- An occupied slot gives an event. -/
theorem nextEventTick_some {s : Nat} (level : l < levels) (slot : s < slots)
    (occupied : w.heads l s ≠ []) : ∃ t, w.nextEventTick = some t := by
  have here : ∃ t, w.levelEvent l = some t := by
    rcases Nat.eq_zero_or_pos l with rfl | up
    · obtain ⟨t, event, -⟩ := levelEvent_le_zero
        (v := w.currentTick + (s + slots - w.currentTick % slots) % slots) (Nat.le_add_right _ _)
        (Nat.add_lt_add_left (Nat.mod_lt _ (by decide)) _)
        (by rw [block_slot rfl slot]; exact occupied)
      exact ⟨t, event⟩
    · have start := Nat.mod_add_mod (w.currentTick / granularity l) slots 1
      have near : (s + slots - (w.currentTick / granularity l % slots + 1) % slots) % slots < slots :=
        Nat.mod_lt _ (by decide)
      obtain ⟨t, event, -⟩ := levelEvent_le_above (w := w) (v := w.currentTick / granularity l + 1 +
          (s + slots - (w.currentTick / granularity l % slots + 1) % slots) % slots) up (by omega)
        (by omega) (by rw [block_slot start slot]; exact occupied)
      exact ⟨t, event⟩
  obtain ⟨t, event⟩ := here
  obtain ⟨t', next, -⟩ := nextEventTick_le level event
  exact ⟨t', next⟩

/-- Every entry on the wheel is in one of its slots. -/
def Slotted (w : Wheel) : Prop := ∀ i, (w.entries i).level ≠ none → (w.entries i).slot < slots

/-- So there is a next event as long as an entry is armed. -/
theorem Slotted.next {i : Nat} (slotted : Slotted w) (valid : Valid w)
    (on : (w.entries i).level ≠ none) : ∃ t, w.nextEventTick = some t := by
  obtain ⟨l, level⟩ := Option.ne_none_iff_exists'.mp on
  exact nextEventTick_some (valid.bound i l level) (slotted i on)
    (List.ne_nil_of_mem ((valid.linked.mem i l _).mpr ⟨level, rfl⟩))

theorem placeOf_slot (c d : Nat) : (placeOf c d).2 < slots := by
  unfold placeOf
  split
  · exact Nat.mod_lt _ (by decide)
  · split <;> exact Nat.mod_lt _ (by decide)

theorem Slotted.advanceTo (slotted : Slotted w) (valid : Valid w) (target : Nat) :
    Slotted (w.advanceTo target) := by
  intro i on
  rcases Nat.lt_or_ge w.currentTick target with later | before
  · rcases (advanceTo_recast valid.linked later).entries i with same | ⟨-, moved⟩
    · rw [same] at on ⊢
      exact slotted i on
    · rw [moved]
      exact placeOf_slot _ _
  · rw [Wheel.advanceTo, if_pos before] at on ⊢
    exact slotted i on

end Wheel

open Wheel

theorem Edits.slotted {w w' : Wheel} (edits : Edits w w') (valid : Valid w)
    (slotted : Slotted w) : Slotted w' := by
  intro i on
  rcases (edits.spec valid).2.2 i with same | off | ⟨e, hung⟩
  · rw [same] at on ⊢
    exact slotted i on
  · exact absurd off on
  · rw [hung]
    exact placeOf_slot _ _

variable {s t : State}

theorem step_slotted {a : Label} (sound : Sound s) (slotted : Slotted s.wheel)
    (stepped : step s a = some t) : Slotted t.wheel := by
  have advanced (target : Nat) : Slotted (s.wheel.advanceTo target) :=
    slotted.advanceTo sound.wheel target
  obtain ⟨-, shape⟩ := step_shape sound stepped
  cases shape with
  | edits edits => exact edits.slotted sound.wheel slotted
  | arms target label edits => exact edits.slotted (advanceTo_valid _ sound.wheel) (advanced _)
  | idle none tick wheel =>
    rw [wheel]
    exact slotted
  | fire next found edits => exact edits.slotted (advanceTo_valid _ sound.wheel) (advanced _)
  | skip next found c label empty edits others ahead wheel =>
    rw [wheel]
    exact edits.slotted (advanceTo_valid _ sound.wheel) (advanced _)

/-! ## The sleeper -/

/-- The sleeper is notified, or it does not sleep beyond the next event. -/
def Watched (s : State) : Prop :=
  s.notified = true ∨
    ∀ next, s.wheel.nextEventTick = some next → State.wakes (some next) s.sleepUntil = false

theorem wakes_later {m n : Nat} {sleep : Sleep} (le : m ≤ n)
    (awake : State.wakes (some m) sleep = false) : State.wakes (some n) sleep = false := by
  cases sleep with
  | awake => rfl
  | «until» tick =>
    have sleeps : ¬ m < tick := of_decide_eq_false awake
    exact decide_eq_false (by omega)
  | forever => cases awake

/-- The next event is no earlier, and nothing else changes. -/
theorem Watched.keep (watched : Watched s)
    (later : ∀ n, t.wheel.nextEventTick = some n → ∃ m, s.wheel.nextEventTick = some m ∧ m ≤ n)
    (notified : t.notified = s.notified) (sleepUntil : t.sleepUntil = s.sleepUntil) : Watched t := by
  refine watched.imp (fun told => notified.trans told) fun watched n next => ?_
  obtain ⟨m, before, le⟩ := later n next
  rw [sleepUntil]
  exact wakes_later le (watched m before)

theorem Watched.same (watched : Watched s) (wheel : t.wheel = s.wheel)
    (notified : t.notified = s.notified) (sleepUntil : t.sleepUntil = s.sleepUntil) : Watched t :=
  watched.keep (fun n next => ⟨n, wheel ▸ next, Nat.le_refl n⟩) notified sleepUntil

theorem Watched.publishGate (watched : Watched s) : Watched s.publishGate :=
  watched.same rfl rfl rfl

theorem watched_notify (s : State) : Watched s.notify := by
  unfold Watched State.notify
  dsimp only
  cases told : s.notified with
  | true => exact .inl rfl
  | false =>
    cases wakes : State.wakes s.wheel.nextEventTick s.sleepUntil with
    | true => exact .inl rfl
    | false =>
      refine .inr fun next found => ?_
      rw [found] at wakes
      exact wakes

theorem watched_awake (awake : s.sleepUntil = .awake) : Watched s := by
  refine .inr fun next _ => ?_
  rw [awake]
  rfl

theorem Watched.cancelPeriodic (watched : Watched s) (r : Nat) : Watched (s.cancelPeriodic r) := by
  unfold State.cancelPeriodic
  split
  · exact watched.same rfl rfl rfl
  · exact watched.keep (fun n next => (disarm_fewer _).nextEventTick next) rfl rfl

/-- A fire step leaves nothing before its tick. -/
theorem fireStep_later {next n : Nat} (gaps : List Nat) (sound : Sound s)
    (found : s.wheel.nextEventTick = some next) (due : next ≤ s.nowTick)
    (after : (s.fireStep next gaps).1.wheel.nextEventTick = some n) : next ≤ n := by
  have valid := advanceTo_valid next sound.wheel
  have tick : (s.wheel.advanceTo next).currentTick = next := by
    rw [advanceTo_currentTick sound.wheel.linked, Nat.max_eq_right (nextEventTick_ge found)]
  have current := nextEventTick_ge after
  obtain ⟨-, edits | ⟨c, -, -, edits, -, -, wheel⟩⟩ := fireStep_spec gaps sound found due
  · rw [(edits.spec valid).2.1, tick] at current
    exact current
  · rw [wheel] at current
    dsimp only at current
    rw [(edits.spec valid).2.1, tick] at current
    omega

theorem fireStep_sleep {next : Nat} (gaps : List Nat) :
    (s.fireStep next gaps).1.notified = s.notified ∧
      (s.fireStep next gaps).1.sleepUntil = s.sleepUntil := by
  have visits (list : List Nat) (c : State.Collecting) :
      (list.foldl State.Collecting.visit c).state.notified = c.state.notified ∧
      (list.foldl State.Collecting.visit c).state.sleepUntil = c.state.sleepUntil := by
    induction list generalizing c with
    | nil => exact ⟨rfl, rfl⟩
    | cons i rest ih =>
      have visit : (c.visit i).state.notified = c.state.notified ∧
          (c.visit i).state.sleepUntil = c.state.sleepUntil := by
        unfold State.Collecting.visit
        split
        · exact ⟨rfl, rfl⟩
        split
        · split <;> exact ⟨rfl, rfl⟩
        · exact ⟨rfl, rfl⟩
      exact ⟨(ih _).1.trans visit.1, (ih _).2.trans visit.2⟩
  have collected := visits ((s.wheel.advanceTo next).heads 0
    ((s.wheel.advanceTo next).currentTick % slots))
    ⟨{ s with wheel := s.wheel.advanceTo next }, ⟨[], []⟩, gaps⟩
  unfold State.fireStep
  dsimp only
  split <;> exact collected

theorem step_watched {a : Label} (sound : Sound s) (slotted : Slotted s.wheel)
    (watched : Watched s) (stepped : step s a = some t) : Watched t := by
  cases a with
  | arm wait gap delayNs eject =>
    cases stepped
    unfold State.arm
    split
    · exact watched
    · exact (watched_notify _).publishGate
  | disarm index generation =>
    obtain ⟨-, moved⟩ := Option.ite_none_left_eq_some.mp stepped
    cases moved
    unfold State.disarm
    split
    · exact watched
    split
    · exact watched
    · exact watched.keep (fun n next => (disarm_fewer _).nextEventTick next) rfl rfl
  | start wait gap intervalNs firstDelayNs =>
    cases stepped
    unfold State.start
    split
    · exact watched
    · exact (watched_notify _).publishGate
  | cancel r =>
    obtain ⟨-, moved⟩ := Option.ite_none_right_eq_some.mp stepped
    cases moved
    exact (watched.cancelPeriodic r).same rfl rfl rfl
  | takeSkipped r =>
    obtain ⟨-, moved⟩ := Option.ite_none_right_eq_some.mp stepped
    cases moved
    exact watched.same rfl rfl rfl
  | finish r stop =>
    obtain ⟨-, moved⟩ := Option.ite_none_right_eq_some.mp stepped
    cases moved
    unfold State.finishPeriodic
    cases stop with
    | false => exact watched.same rfl rfl rfl
    | true => exact (watched.cancelPeriodic r).same rfl rfl rfl
  | run wait gaps =>
    obtain ⟨⟨-, awake, -⟩, moved⟩ := Option.ite_none_right_eq_some.mp stepped
    cases moved
    unfold State.run
    cases found : (s.pass wait).wheel.nextEventTick with
    | none =>
      -- Nothing is armed, so nothing is found from the new tick either.
      refine .inr fun next after => ?_
      obtain ⟨l, inside, event⟩ := nextEventTick_level after
      obtain ⟨s', occupied⟩ : ∃ s', s.wheel.heads l s' ≠ [] := by
        rcases levelEvent_block event with ⟨rfl, -, -, some⟩ | ⟨-, v, -, -, -, some⟩
        · exact ⟨_, some⟩
        · exact ⟨_, some⟩
      obtain ⟨i, mem⟩ := List.exists_mem_of_ne_nil _ occupied
      have on : (s.wheel.entries i).level ≠ none := by
        rw [((sound.wheel.linked.mem i l s').mp mem).1]
        exact Option.some_ne_none l
      obtain ⟨tick, some⟩ := slotted.next sound.wheel on
      exact absurd (found.symm.trans some) fun absurd => (by cases absurd)
    | some next =>
      dsimp only
      split
      · refine .inr fun n after => ?_
        cases found.symm.trans after
        exact decide_eq_false (Nat.lt_irrefl next)
      · refine watched_awake ?_
        exact (fireStep_sleep gaps).2.trans awake
  | wake =>
    obtain ⟨-, moved⟩ := Option.ite_none_left_eq_some.mp stepped
    cases moved
    exact watched_awake rfl
  | dispatched =>
    obtain ⟨-, moved⟩ := Option.ite_none_left_eq_some.mp stepped
    cases moved
    exact watched.same rfl rfl rfl
  | pollFire wait gaps =>
    cases stepped
    unfold State.pollFire
    cases found : (s.pass wait).wheel.nextEventTick with
    | none => exact watched.same rfl rfl rfl
    | some next =>
      dsimp only
      split
      · exact watched.same rfl rfl rfl
      · rename_i due
        exact watched.keep (fun n after => ⟨next, found, fireStep_later gaps (sound.pass wait)
          found (Nat.not_lt.mp due) after⟩) (fireStep_sleep gaps).1 (fireStep_sleep gaps).2
  | pollDispatched k =>
    obtain ⟨-, moved⟩ := Option.ite_none_right_eq_some.mp stepped
    cases moved
    exact watched.same rfl rfl rfl

/-- While the timer thread sleeps and is not notified, nothing is armed or it sleeps no longer than
the next event. -/
theorem no_missed_wake (reach : Reach step anyStep initial s) (sleeps : s.sleepUntil ≠ .awake)
    (alone : s.notified = false) :
    (∀ i, ¬ (s.wheel.entries i).armed) ∨
      ∃ tick next, s.sleepUntil = .until tick ∧ s.wheel.nextEventTick = some next ∧ tick ≤ next := by
  obtain ⟨sound, slotted, watched⟩ : Sound s ∧ Slotted s.wheel ∧ Watched s := by
    refine reach.invariant (I := fun s => Sound s ∧ Slotted s.wheel ∧ Watched s)
      ⟨initial_sound, fun _ on => absurd rfl on, watched_awake rfl⟩ fun known _ stepped => ?_
    exact ⟨(step_shape known.1 stepped).1, step_slotted known.1 known.2.1 stepped,
      step_watched known.1 known.2.1 known.2.2 stepped⟩
  by_cases idle : ∀ i, ¬ (s.wheel.entries i).armed
  · exact .inl idle
  · obtain ⟨i, armed⟩ := not_forall_not.mp idle
    obtain ⟨next, found⟩ := slotted.next sound.wheel ((sound.wheel.parity i).mp armed)
    rcases watched with told | watched
    · rw [alone] at told
      cases told
    · have quiet := watched next found
      refine .inr ?_
      cases sleep : s.sleepUntil with
      | awake => exact absurd sleep sleeps
      | «until» tick =>
        rw [sleep] at quiet
        exact ⟨tick, next, rfl, found, Nat.not_lt.mp (of_decide_eq_false quiet)⟩
      | forever =>
        rw [sleep] at quiet
        cases quiet

/-- The thread sleeps toward the cascade of a timer of 300 ticks; one of 400 does not wake it, and
the first is disarmed. -/
def sleepingLabels : List Label :=
  let eject : Eject := ⟨some 0, some 1, none⟩
  [.arm 0 0 300000000 eject, .run 0 [], .arm 0 0 400000000 eject, .disarm 0 1]

def sleepingRun : State := (Transition.run step anyStep initial sleepingLabels).getD initial

theorem sleepingRun_reach : Reach step anyStep initial sleepingRun :=
  Reach.of_isSome sleepingLabels (by decide +kernel)

theorem sleepingRun_watched : (∀ i, ¬ (sleepingRun.wheel.entries i).armed) ∨
    ∃ tick next, sleepingRun.sleepUntil = .until tick ∧
      sleepingRun.wheel.nextEventTick = some next ∧ tick ≤ next :=
  no_missed_wake sleepingRun_reach (by decide +kernel) (by decide +kernel)

end JLibSched.Timer
