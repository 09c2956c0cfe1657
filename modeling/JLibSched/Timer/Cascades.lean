import JLibSched.Timer.Steps

/-!
# Every block that is entered is cascaded

Above level zero an entry waits for a block that is still ahead.  `AdvanceTo` keeps this at any
target.  The bare increment at the end of a fire step that collects nothing does not: at the
last tick of a 256-tick block it enters a new block of level one, and maybe of higher levels,
and leaves their slots as they are.  The entries there are found a revolution later.

So in every run whose increments enter only empty slots, no entry is left behind.
-/

namespace JLibSched.Timer

open Transition Wheel

variable {s t : State} {a : Label}

/-- A fire step that collects nothing enters only empty slots. -/
def entersEmpty (s : State) (a : Label) : Prop :=
  match collected s a with
  | none => True
  | some c => c.batch = ⟨[], []⟩ → ∀ l ∈ [1, 2, 3],
      (c.state.wheel.currentTick + 1) % granularity l = 0 →
        c.state.wheel.heads l ((c.state.wheel.currentTick + 1) / granularity l % slots) = []

instance (s : State) (a : Label) : Decidable (entersEmpty s a) := by
  unfold entersEmpty
  split <;> infer_instance

def AllAhead (s : State) : Prop := ∀ i, Ahead s.wheel.currentTick (s.wheel.entries i)

/-- An entry that is taken off or hangs where it belongs is ahead. -/
theorem Edits.ahead {w w' : Wheel} (edits : Edits w w') (valid : Valid w)
    (ahead : ∀ i, Ahead w.currentTick (w.entries i)) (i : Nat) :
    Ahead w'.currentTick (w'.entries i) := by
  obtain ⟨-, tick, entries⟩ := edits.spec valid
  rw [tick]
  rcases entries i with same | off | ⟨e, hung⟩
  · rw [same]
    exact ahead i
  · intro l level
    rw [off] at level
    cases level
  · rw [hung]
    exact placeOf_ahead _ e

theorem advanceTo_allAhead {target : Nat} (sound : Sound s) (ahead : AllAhead s) (i : Nat) :
    Ahead (s.wheel.advanceTo target).currentTick ((s.wheel.advanceTo target).entries i) := by
  rcases Nat.lt_or_ge s.wheel.currentTick target with later | before
  · rw [advanceTo_currentTick sound.wheel.linked, Nat.max_eq_right (Nat.le_of_lt later)]
    exact advanceTo_ahead sound.wheel.linked sound.wheel.bound ahead later i
  · rw [advanceTo, if_pos before]
    exact ahead i

/-- With nothing to wait for, nothing hangs above level zero. -/
theorem none_above {w : Wheel} (valid : Valid w) (ahead : ∀ i, Ahead w.currentTick (w.entries i))
    (none : w.nextEventTick = none) {i l : Nat} (level : (w.entries i).level = some l) :
    l = 0 := by
  by_contra up
  obtain ⟨v, slot, after, window, -⟩ := ahead i l level (Nat.pos_of_ne_zero up)
  have occupied : w.heads l (v % slots) ≠ [] :=
    List.ne_nil_of_mem ((valid.linked.mem i l _).mpr ⟨level, slot⟩)
  obtain ⟨t, event, -⟩ := levelEvent_le_above (Nat.pos_of_ne_zero up) after window occupied
  obtain ⟨t', next, -⟩ := nextEventTick_le (valid.bound i l level) event
  rw [none] at next
  cases next

/-- A block that begins between a tick and the next begins at the next. -/
theorem block_begins {tick v g : Nat} (before : tick / g < v)
    (upto : v ≤ (tick + 1) / g) : (tick + 1) % g = 0 ∧ v = (tick + 1) / g := by
  rw [Nat.succ_div] at upto
  split at upto
  · rename_i divides
    refine ⟨Nat.mod_eq_zero_of_dvd divides, ?_⟩
    rw [Nat.succ_div, if_pos divides]
    omega
  · omega

/-- An increment that enters only empty slots leaves every entry ahead. -/
theorem skip_ahead {w : Wheel} (valid : Valid w) (ahead : ∀ i, Ahead w.currentTick (w.entries i))
    (empty : ∀ l ∈ [1, 2, 3], (w.currentTick + 1) % granularity l = 0 →
      w.heads l ((w.currentTick + 1) / granularity l % slots) = []) (i : Nat) :
    Ahead (w.currentTick + 1) (w.entries i) := by
  refine (ahead i).later (Nat.le_succ _) fun l v level up slot after => ?_
  by_contra inside
  obtain ⟨begins, same⟩ := block_begins after (Nat.not_lt.mp inside)
  have below := valid.bound i l level
  have mem : l ∈ [1, 2, 3] := by
    simp only [levels] at below
    interval_cases l <;> decide
  have on : i ∈ w.heads l ((w.currentTick + 1) / granularity l % slots) :=
    (valid.linked.mem i l _).mpr ⟨level, by rw [← same]; exact slot⟩
  rw [empty l mem begins] at on
  cases on

theorem entersEmpty_collected {c : State.Collecting} (allowed : entersEmpty s a)
    (label : collected s a = some c) (empty : c.batch = ⟨[], []⟩) :
    ∀ l ∈ [1, 2, 3], (c.state.wheel.currentTick + 1) % granularity l = 0 →
      c.state.wheel.heads l ((c.state.wheel.currentTick + 1) / granularity l % slots) = [] := by
  unfold entersEmpty at allowed
  rw [label] at allowed
  exact allowed empty

theorem step_ahead (sound : Sound s) (ahead : AllAhead s) (allowed : entersEmpty s a)
    (stepped : step s a = some t) : AllAhead t := by
  obtain ⟨-, shape⟩ := step_shape sound stepped
  intro i
  cases shape with
  | edits edits => exact edits.ahead sound.wheel ahead i
  | arms target label edits =>
    exact edits.ahead (advanceTo_valid _ sound.wheel) (advanceTo_allAhead sound ahead) i
  | idle none tick wheel =>
    rw [wheel]
    intro l level up
    rw [none_above sound.wheel ahead none level] at up
    cases up
  | fire next found edits =>
    exact edits.ahead (advanceTo_valid _ sound.wheel) (advanceTo_allAhead sound ahead) i
  | skip next found c label empty edits others due wheel =>
    rw [wheel]
    have valid := (edits.spec (advanceTo_valid _ sound.wheel)).1
    exact skip_ahead valid
      (edits.ahead (advanceTo_valid _ sound.wheel) (advanceTo_allAhead sound ahead))
      (entersEmpty_collected allowed label empty) i

theorem reach_sound {ok : State → Label → Prop} :
    ∀ {s}, Reach step ok initial s → Sound s :=
  Reach.invariant initial_sound fun sound _ stepped => (step_shape sound stepped).1

theorem reach_ahead : ∀ {s}, Reach step entersEmpty initial s → AllAhead s := by
  refine Reach.invariant_of reach_sound (fun i l level => (by cases level)) ?_
  exact fun sound ahead allowed stepped => step_ahead sound ahead allowed stepped

/-! ## The entries of a block that is entered -/

/-- The block an entry above level zero waits for: the next one with its slot. -/
def NextBlock (s : State) (i l k : Nat) : Prop :=
  (s.wheel.entries i).level = some l ∧ 1 ≤ l ∧ (s.wheel.entries i).slot = k % slots ∧
    s.wheel.currentTick / granularity l < k ∧ k ≤ s.wheel.currentTick / granularity l + slots

/-- The entry is off the wheel, or hangs where `Place` puts it at tick `c`. -/
def PlacedAt (c : Nat) (e : Entry) : Prop :=
  e.level = none ∨ ((e.level.getD levels, e.slot) = placeOf c e.deadlineTick)

theorem placedAt_hang (c : Nat) (e : Entry) :
    PlacedAt c (e.hang (placeOf c e.deadlineTick)) := .inr rfl

theorem Edits.placedAt {w w' : Wheel} {c i : Nat} (edits : Edits w w') (valid : Valid w)
    (tick : w.currentTick = c) (placed : PlacedAt c (w.entries i)) :
    PlacedAt c (w'.entries i) := by
  obtain ⟨-, -, entries⟩ := edits.spec valid
  rcases entries i with same | off | ⟨e, hung⟩
  · rw [same]
    exact placed
  · exact .inl off
  · rw [hung, tick]
    exact placedAt_hang _ e

/-- `AdvanceTo` places the entries of every block it enters. -/
theorem advanceTo_placed {target i l k : Nat} (sound : Sound s) (block : NextBlock s i l k)
    (entered : k ≤ target / granularity l) : s.wheel.currentTick < target ∧
      PlacedAt target ((s.wheel.advanceTo target).entries i) := by
  obtain ⟨level, up, slot, after, -⟩ := block
  have later : s.wheel.currentTick < target := by
    by_contra before
    have le := Nat.div_le_div_right (c := granularity l) (Nat.not_lt.mp before)
    omega
  refine ⟨later, ?_⟩
  have recast := advanceTo_recast sound.wheel.linked later
  rw [recast.placed i l level
    ⟨⟨up, sound.wheel.bound i l level⟩, k, after, entered, slot⟩]
  exact placedAt_hang target (s.wheel.entries i)

/-- An entry whose block begins at the tick that an increment enters was placed by the advance
before it, or still hangs on its slot. -/
theorem skip_placed {w : Wheel} {next i l k : Nat} (sound : Sound s) (block : NextBlock s i l k)
    (valid : Valid w) (others : ∀ j, j ∉ (s.wheel.advanceTo next).heads 0 (next % slots) →
      w.entries j = (s.wheel.advanceTo next).entries j) :
    (s.wheel.currentTick < next ∧ PlacedAt next ((s.wheel.advanceTo next).entries i)) ∨
      i ∈ w.heads l (k % slots) := by
  obtain ⟨level, up, slot, -, -⟩ := block
  have linked := (advanceTo_valid next sound.wheel).linked
  have stays (same : (s.wheel.advanceTo next).entries i = s.wheel.entries i) :
      i ∈ w.heads l (k % slots) := by
    have absent : i ∉ (s.wheel.advanceTo next).heads 0 (next % slots) := by
      rw [linked.mem, same, level]
      rintro ⟨zero, -⟩
      cases zero
      cases up
    refine (valid.linked.mem i l _).mpr ?_
    rw [others i absent, same]
    exact ⟨level, slot⟩
  rcases Nat.lt_or_ge s.wheel.currentTick next with later | before
  · rcases (advanceTo_recast sound.wheel.linked later).entries i with same | ⟨-, moved⟩
    · exact .inr (stays same)
    · refine .inl ⟨later, ?_⟩
      rw [moved]
      exact placedAt_hang next (s.wheel.entries i)
  · exact .inr (stays (by rw [advanceTo, if_pos before]))

/-- In every run whose increments enter only empty slots: an entry above level zero waits for a
deadline after the current block of its level; and when a step moves the tick into the block
an entry waits for, that entry has ended or was placed again, relative to the tick that the
step advanced to, from which it is at most one increment to the new tick. -/
theorem cascade_complete (reach : Reach step entersEmpty initial s) :
    (∀ i l, (s.wheel.entries i).level = some l → 1 ≤ l →
      s.wheel.currentTick / granularity l < (s.wheel.entries i).deadlineTick / granularity l) ∧
    ∀ a t, entersEmpty s a → step s a = some t → s.wheel.currentTick < t.wheel.currentTick →
      ∀ i l k, NextBlock s i l k → k * granularity l ≤ t.wheel.currentTick →
        ∃ c, s.wheel.currentTick < c ∧ c ≤ t.wheel.currentTick ∧ t.wheel.currentTick ≤ c + 1 ∧
          PlacedAt c (t.wheel.entries i) := by
  have sound := reach_sound reach
  have ahead := reach_ahead reach
  refine ⟨fun i l level up => ?_, fun a t allowed stepped moved i l k block entered => ?_⟩
  · obtain ⟨v, -, after, -, start⟩ := ahead i l level up
    exact Nat.lt_of_lt_of_le after start
  · obtain ⟨-, shape⟩ := step_shape sound stepped
    have inside : k ≤ t.wheel.currentTick / granularity l :=
      (Nat.le_div_iff_mul_le (granularity_pos l)).mpr entered
    have advanced (target : Nat) (le : s.wheel.currentTick ≤ target) :
        (s.wheel.advanceTo target).currentTick = target := by
      rw [advanceTo_currentTick sound.wheel.linked, Nat.max_eq_right le]
    cases shape with
    | edits edits =>
      rw [(edits.spec sound.wheel).2.1] at moved
      exact absurd moved (Nat.lt_irrefl _)
    | idle none tick wheel =>
      have zero := none_above sound.wheel ahead none block.1
      rw [zero] at block
      cases block.2.1
    | arms target label edits =>
      have valid := advanceTo_valid target sound.wheel
      have tick := (edits.spec valid).2.1
      have later : s.wheel.currentTick ≤ target := by
        by_contra before
        rw [tick, advanceTo, if_pos (Nat.le_of_lt (Nat.not_le.mp before))] at moved
        exact Nat.lt_irrefl _ moved
      rw [advanced target later] at tick
      rw [tick] at inside ⊢
      obtain ⟨strict, placed⟩ := advanceTo_placed sound block inside
      refine ⟨target, strict, Nat.le_refl _, Nat.le_succ _, ?_⟩
      exact edits.placedAt valid (advanced target later) placed
    | fire next found edits =>
      have valid := advanceTo_valid next sound.wheel
      have later := nextEventTick_ge found
      have tick := (edits.spec valid).2.1
      rw [advanced next later] at tick
      rw [tick] at inside ⊢
      obtain ⟨strict, placed⟩ := advanceTo_placed sound block inside
      refine ⟨next, strict, Nat.le_refl _, Nat.le_succ _, ?_⟩
      exact edits.placedAt valid (advanced next later) placed
    | skip next found c label empty edits others due wheel =>
      have valid := advanceTo_valid next sound.wheel
      have reached := advanced next (nextEventTick_ge found)
      have tick := (edits.spec valid).2.1.trans reached
      have now : t.wheel.currentTick = next + 1 := by rw [wheel, ← tick]
      have same : t.wheel.entries i = c.state.wheel.entries i := by rw [wheel]
      rw [now] at inside
      rw [now, same]
      suffices placed : s.wheel.currentTick < next ∧
          PlacedAt next ((s.wheel.advanceTo next).entries i) from
        ⟨next, placed.1, Nat.le_succ _, Nat.le_refl _, edits.placedAt valid reached placed.2⟩
      rcases Nat.lt_or_ge (next / granularity l) k with beyond | before
      · obtain ⟨begins, rfl⟩ := block_begins beyond inside
        refine (skip_placed sound block (edits.spec valid).1 others).resolve_right ?_
        have below := sound.wheel.bound i l block.1
        have mem : l ∈ [1, 2, 3] := by
          have up := block.2.1
          simp only [levels] at below
          interval_cases l <;> decide
        have none := entersEmpty_collected allowed label empty l mem
        rw [tick] at none
        rw [none begins]
        exact List.not_mem_nil
      · exact advanceTo_placed sound block before

/-- A timer of 300 ms is armed, and the timer thread sleeps until its block begins. -/
def longTimer : List Label := [.arm 0 0 300000000 ⟨some 1, none, none⟩, .run 0 [], .wake]

/-- The state after it. -/
def longTimer.state : State := (Transition.run step entersEmpty initial longTimer).getD initial

theorem longTimer_cascades :
    Reach step entersEmpty initial longTimer.state ∧ NextBlock longTimer.state 0 1 1 ∧
      ∃ t, step longTimer.state (.run 256000000 []) = some t ∧ ∃ c,
        longTimer.state.wheel.currentTick < c ∧ c ≤ t.wheel.currentTick ∧
        t.wheel.currentTick ≤ c + 1 ∧ PlacedAt c (t.wheel.entries 0) := by
  have reach : Reach step entersEmpty initial longTimer.state :=
    Reach.of_isSome longTimer (by decide +kernel)
  have block : NextBlock longTimer.state 0 1 1 := by
    unfold NextBlock
    decide +kernel
  have moves : (step longTimer.state (.run 256000000 [])).any (fun t =>
      decide (longTimer.state.wheel.currentTick < t.wheel.currentTick ∧
        1 * granularity 1 ≤ t.wheel.currentTick)) = true := by decide +kernel
  obtain ⟨t, stepped, moved⟩ := (Option.any_eq_true _ _).mp moves
  have moved := of_decide_eq_true moved
  exact ⟨reach, block, t, stepped, (cascade_complete reach).2 _ t (by decide +kernel) stepped
    moved.1 0 1 1 block moved.2⟩

/-- A timer of 300 ms beside a periodic of 85 ms whose first instance does not end.  At tick 255
the periodic is due and in flight, so the fire step collects nothing. -/
def stuckPeriodic : List Label :=
  [.arm 0 0 300000000 ⟨some 1, none, none⟩, .start 0 0 85000000 (-1), .run 0 [], .wake,
    .run 85000000 [], .dispatched, .run 85000000 [], .run 85000000 []]

/-- The increment enters the block of the timer's deadline and leaves the timer on level one. -/
theorem stuckPeriodic_leaves :
    ∃ s, Reach step anyStep initial s ∧ (s.wheel.entries 0).level = some 1 ∧
      (s.wheel.entries 0).deadlineTick / granularity 1 ≤
        s.wheel.currentTick / granularity 1 :=
  ⟨_, Reach.of_isSome stuckPeriodic (by decide +kernel), by decide +kernel,
    by decide +kernel⟩

end JLibSched.Timer
