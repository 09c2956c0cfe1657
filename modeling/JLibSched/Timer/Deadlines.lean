import JLibSched.Timer.Cascades

/-!
# No armed entry is passed over

On level zero an entry is found by its distance from the current tick, so a move of the tick
past an occupied slot hides it for a revolution.  A fire step never does that, since it moves to
the next event.  `Arm` and `Periodic::Start` advance to what the clock says, and when the timer
thread is late they pass over what it has not fired yet.

So nothing is passed over in the runs whose arms come in time and whose increments enter only
empty slots.
-/

namespace JLibSched.Timer

open Transition Wheel

variable {s t : State} {a : Label}

/-- `Arm` and `Periodic::Start` find nothing on level zero that is due before their tick. -/
def armsInTime (s : State) (a : Label) : Prop :=
  ∀ target ∈ armsAt s a, ∀ i < s.wheel.size, (s.wheel.entries i).level = some 0 →
    target ≤ max s.wheel.currentTick (s.wheel.entries i).deadlineTick

instance (s : State) (a : Label) : Decidable (armsInTime s a) := by
  unfold armsInTime
  infer_instance

/-- The runs in which nothing is passed over. -/
def inTime (s : State) (a : Label) : Prop := armsInTime s a ∧ entersEmpty s a

instance (s : State) (a : Label) : Decidable (inTime s a) := inferInstanceAs (Decidable (_ ∧ _))

def AllNear (s : State) : Prop := ∀ i, Near s.wheel.currentTick (s.wheel.entries i)

theorem Edits.near {w w' : Wheel} (edits : Edits w w') (valid : Valid w)
    (near : ∀ i, Near w.currentTick (w.entries i)) (i : Nat) :
    Near w'.currentTick (w'.entries i) := by
  obtain ⟨-, tick, entries⟩ := edits.spec valid
  rw [tick]
  rcases entries i with same | off | ⟨e, hung⟩
  · rw [same]
    exact near i
  · intro level
    rw [off] at level
    cases level
  · rw [hung]
    exact placeOf_near _ e

theorem advanceTo_allNear {target : Nat} (sound : Sound s) (near : AllNear s)
    (reached : ∀ i, (s.wheel.entries i).level = some 0 →
      target ≤ max s.wheel.currentTick (s.wheel.entries i).deadlineTick) (i : Nat) :
    Near (s.wheel.advanceTo target).currentTick ((s.wheel.advanceTo target).entries i) := by
  rcases Nat.lt_or_ge s.wheel.currentTick target with later | before
  · rw [advanceTo_currentTick sound.wheel.linked, Nat.max_eq_right (Nat.le_of_lt later)]
    exact advanceTo_near sound.wheel.linked near later reached i
  · rw [advanceTo, if_pos before]
    exact near i

/-- A fire step that collects nothing leaves nothing due on level zero, so the increment passes
over nothing. -/
theorem skip_near {w w' : Wheel} {next : Nat} (valid : Valid w) (edits : Edits w w')
    (tick : w.currentTick = next) (near : ∀ i, Near w.currentTick (w.entries i))
    (others : ∀ j, j ∉ w.heads 0 (next % slots) → w'.entries j = w.entries j)
    (due : ∀ i ∈ w.heads 0 (next % slots), next < (w'.entries i).deadlineTick) (i : Nat) :
    Near (next + 1) (w'.entries i) := by
  have after := edits.near valid near i
  rw [(edits.spec valid).2.1, tick] at after
  intro level
  obtain ⟨slot, window⟩ := after level
  have ahead : next < (w'.entries i).deadlineTick := by
    by_cases on : i ∈ w.heads 0 (next % slots)
    · exact due i on
    · by_contra past
      have same := others i on
      rw [same] at level slot past
      refine on ((valid.linked.mem i 0 _).mpr ⟨level, ?_⟩)
      rw [slot, Nat.max_eq_left (Nat.not_lt.mp past)]
  refine ⟨?_, Nat.lt_of_lt_of_le window (by omega)⟩
  rw [slot, Nat.max_eq_right (Nat.le_of_lt ahead), Nat.max_eq_right ahead]

/-- What is armed is linked, so the next event is no later than its deadline. -/
theorem next_le_deadline (sound : Sound s) (ahead : AllAhead s) (near : AllNear s) {i : Nat}
    (on : (s.wheel.entries i).level ≠ none) : ∃ t, s.wheel.nextEventTick = some t ∧
      t ≤ max s.wheel.currentTick (s.wheel.entries i).deadlineTick := by
  obtain ⟨l, level⟩ := Option.ne_none_iff_exists'.mp on
  exact nextEventTick_le_deadline sound.wheel.linked sound.wheel.bound ahead near level

/-- The next event is before anything that hangs on level zero. -/
theorem next_reached {next : Nat} (sound : Sound s) (ahead : AllAhead s) (near : AllNear s)
    (found : s.wheel.nextEventTick = some next) (i : Nat)
    (level : (s.wheel.entries i).level = some 0) :
    next ≤ max s.wheel.currentTick (s.wheel.entries i).deadlineTick := by
  obtain ⟨t, same, le⟩ := next_le_deadline sound ahead near (i := i) (by rw [level]; simp)
  rw [found] at same
  cases same
  exact le

theorem step_near (sound : Sound s) (ahead : AllAhead s) (near : AllNear s)
    (allowed : armsInTime s a) (stepped : step s a = some t) : AllNear t := by
  obtain ⟨-, shape⟩ := step_shape sound stepped
  intro i
  cases shape with
  | edits edits => exact edits.near sound.wheel near i
  | arms target label edits =>
    refine edits.near (advanceTo_valid _ sound.wheel) (advanceTo_allNear sound near ?_) i
    intro j level
    refine allowed target label j ?_ level
    by_contra beyond
    rw [sound.wheel.blank j (Nat.not_lt.mp beyond)] at level
    cases level
  | idle none tick wheel =>
    rw [wheel]
    intro level
    obtain ⟨t, next, -⟩ := next_le_deadline sound ahead near (i := i)
      (fun off => (by rw [off] at level; cases level))
    rw [none] at next
    cases next
  | fire next found edits =>
    exact edits.near (advanceTo_valid _ sound.wheel)
      (advanceTo_allNear sound near (next_reached sound ahead near found)) i
  | skip next found c label empty edits others due wheel =>
    have valid := advanceTo_valid next sound.wheel
    have tick : (s.wheel.advanceTo next).currentTick = next := by
      rw [advanceTo_currentTick sound.wheel.linked, Nat.max_eq_right (nextEventTick_ge found)]
    have moved := skip_near valid edits tick
      (advanceTo_allNear sound near (next_reached sound ahead near found)) others due i
    rw [wheel]
    dsimp only
    rw [(edits.spec valid).2.1, tick]
    exact moved

theorem reach_near : ∀ {s}, Reach step inTime initial s → AllNear s := by
  refine Reach.invariant_of (J := fun s => Sound s ∧ AllAhead s)
    (fun reach => ⟨reach_sound reach, reach_ahead (reach.weaken fun allowed => allowed.2)⟩)
    (fun i level => (by cases level)) ?_
  exact fun known near allowed stepped => step_near known.1 known.2 near allowed.1 stepped

/-- In every run that is in time, `NextEventTick` finds a tick that is no later than the deadline
of any armed entry, or than the current tick when that is past. -/
theorem none_passed_over (reach : Reach step inTime initial s) {i : Nat}
    (armed : (s.wheel.entries i).armed) : ∃ t, s.wheel.nextEventTick = some t ∧
      t ≤ max s.wheel.currentTick (s.wheel.entries i).deadlineTick := by
  have sound := reach_sound reach
  exact next_le_deadline sound (reach_ahead (reach.weaken fun allowed => allowed.2))
    (reach_near reach) ((sound.wheel.parity i).mp armed)

/-- A timer of 5 ms is armed and the timer thread sleeps toward it; in time, another is armed. -/
def twoTimers : List Label :=
  [.arm 0 0 5000000 ⟨some 1, none, none⟩, .run 0 [],
    .arm 3000000 0 100000000 ⟨some 2, none, none⟩]

theorem twoTimers_found :
    ∃ s, Reach step inTime initial s ∧ (s.wheel.entries 0).armed ∧
      ∃ t, s.wheel.nextEventTick = some t ∧
        t ≤ max s.wheel.currentTick (s.wheel.entries 0).deadlineTick :=
  ⟨_, Reach.of_isSome twoTimers (by decide +kernel), by decide +kernel,
    none_passed_over (Reach.of_isSome twoTimers (by decide +kernel)) (by decide +kernel)⟩

/-- The same, but the timer thread has not woken at 10 ms when the second is armed. -/
def lateThread : List Label :=
  [.arm 0 0 5000000 ⟨some 1, none, none⟩, .run 0 [],
    .arm 10000000 0 100000000 ⟨some 2, none, none⟩]

/-- The first timer was due at tick 5, and the next event is at tick 110. -/
theorem lateThread_passed_over :
    ∃ s, Reach step anyStep initial s ∧ (s.wheel.entries 0).armed ∧
      s.wheel.nextEventTick = some 110 ∧
      max s.wheel.currentTick (s.wheel.entries 0).deadlineTick = 10 :=
  ⟨_, Reach.of_isSome lateThread (by decide +kernel), by decide +kernel, by decide +kernel,
    by decide +kernel⟩

end JLibSched.Timer
