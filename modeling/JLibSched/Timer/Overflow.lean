import JLibSched.Lib.Checked
import JLibSched.Timer.OnTime

/-!
# The arithmetic of the timer queue

Times are `int64_t` nanoseconds.  Here the sums and products of `Arm`, `Periodic::Start` and
`FirePeriodicLocked` are taken in that type, with every exact result kept.  They stay inside it
exactly as long as the deadline that is meant does, also counted from the queue's start and with a
tick added (`timer_arithmetic_iff`); then they are the numbers that the queue is modelled with.
-/

namespace JLibSched.Overflow

open Transition Checked

/-- `INT64_MAX + 1`. -/
def half : Int := 9223372036854775808

def tickNs : Int := Timer.tickNs

/-- `MonotonicNs()` stays below this. -/
def clockBound : Int := 4611686018427387904

/-! ## The code -/

/-- `NowTick`. -/
def nowTick (epochNs now : Int) : Computed Int := do
  let rel ← op half (now - epochNs)
  return rel.tdiv tickNs

/-- `TickFor`. -/
def tickFor (epochNs ns : Int) : Computed Int := do
  let rel ← op half (ns - epochNs)
  if rel ≤ 0 then return 0
  else
    let more ← op half (rel + tickNs)
    let up ← op half (more - 1)
    return up.tdiv tickNs

/-- The `deadlineTick` of `Arm`, with its two readings of the clock. -/
def deadlineTick (epochNs now later delayNs : Int) : Computed Int := do
  let tick ← nowTick epochNs now
  if delayNs > 0 then
    let deadline ← op half (later + delayNs)
    tickFor epochNs deadline
  else return tick

/-- `PeriodicRecord::interval`. -/
def intervalFor (intervalNs : Int) : Int := if intervalNs < tickNs then tickNs else intervalNs

/-- `Periodic::Start`: the first due time and its tick. -/
def start (epochNs now intervalNs firstDelayNs : Int) : Computed (Int × Int) := do
  let due ← op half (now + if firstDelayNs < 0 then intervalFor intervalNs else firstDelayNs)
  let tick ← tickFor epochNs due
  return (due, tick)

/-- `FirePeriodicLocked`: the next due time and its tick. -/
def fire (epochNs now due interval : Int) : Computed (Int × Int) := do
  let behind ← op half (now - due)
  let passed := if behind > 0 then behind.tdiv interval else 0
  let times ← op half (passed + 1)
  let ahead ← op half (times * interval)
  let next ← op half (due + ahead)
  let tick ← tickFor epochNs next
  return (next, tick)

/-! ## Where the results stay -/

variable {epochNs now later ns delayNs due interval : Int}

/-- A time at or after the queue's start. -/
theorem tickFor_fits (after : epochNs ≤ ns) :
    (tickFor epochNs ns).Fits half ↔ ns - epochNs + tickNs < half := by
  unfold tickFor
  rw [fits_op_bind]
  simp only [half, tickNs, Timer.tickNs, InRange] at *
  split
  · simp only [fits_pure, and_true]
    omega
  · simp only [fits_op_bind, fits_pure, InRange, and_true]
    omega

/-- Then the tick is the one that the queue is modelled with. -/
theorem tickFor_value (after : epochNs ≤ ns) (fits : ns - epochNs + tickNs < half) :
    (tickFor epochNs ns).value = Timer.tickFor (ns - epochNs).toNat := by
  have inside : InRange half (ns - epochNs) := by
    simp only [half, tickNs, Timer.tickNs, InRange] at *
    omega
  unfold tickFor
  rw [value_op_bind inside]
  simp only [half, tickNs, Timer.tickNs, InRange] at *
  split
  · rename_i none
    have same : (ns - epochNs).toNat = 0 := by omega
    rw [same]
    rfl
  · rw [value_op_bind (by simp only [InRange]; omega), value_op_bind (by simp only [InRange]; omega),
      value_pure, Int.tdiv_eq_ediv_of_nonneg (by omega), Timer.tickFor, Timer.tickNs]
    omega

/-- `now + delayNs`, as `Arm` means it, can be told and rounded. -/
def ArmFits (epochNs later delayNs : Int) : Prop :=
  delayNs ≤ 0 ∨ later + delayNs < half ∧ later + delayNs - epochNs + tickNs < half

theorem nowTick_fits (zero : 0 ≤ epochNs) (after : epochNs ≤ now) (early : now < clockBound) :
    (nowTick epochNs now).Fits half := by
  unfold nowTick
  simp only [fits_op_bind, fits_pure, InRange, half, clockBound, and_true] at *
  omega

theorem nowTick_value (zero : 0 ≤ epochNs) (after : epochNs ≤ now) (early : now < clockBound) :
    (nowTick epochNs now).value = (now - epochNs) / tickNs := by
  have inside : InRange half (now - epochNs) := by
    simp only [InRange, half, clockBound] at *
    omega
  unfold nowTick
  rw [value_op_bind inside, value_pure, Int.tdiv_eq_ediv_of_nonneg (by omega)]

theorem deadlineTick_fits (zero : 0 ≤ epochNs) (after : epochNs ≤ now) (order : now ≤ later)
    (early : later < clockBound) (int64 : delayNs < half) :
    (deadlineTick epochNs now later delayNs).Fits half ↔ ArmFits epochNs later delayNs := by
  unfold deadlineTick ArmFits
  rw [fits_bind, iff_true_intro (nowTick_fits zero after (by omega)), true_and]
  split
  · rename_i positive
    rw [fits_op_bind]
    constructor
    · rintro ⟨inside, fits⟩
      exact .inr ⟨inside.2, (tickFor_fits (by omega)).mp fits⟩
    · rintro (none | ⟨high, fits⟩)
      · omega
      · refine ⟨⟨?_, high⟩, (tickFor_fits (by omega)).mpr fits⟩
        simp only [half] at *
        omega
  · simp only [fits_pure, true_iff]
    exact .inl (by omega)

/-- An arm gets the tick that the queue is modelled with. -/
theorem deadlineTick_value (zero : 0 ≤ epochNs) (after : epochNs ≤ now) (order : now ≤ later)
    (early : later < clockBound) (fits : ArmFits epochNs later delayNs) :
    (deadlineTick epochNs now later delayNs).value =
      if 0 < delayNs then (Timer.tickFor (later + delayNs - epochNs).toNat : Int)
      else (now - epochNs) / tickNs := by
  unfold deadlineTick
  rw [value_bind, nowTick_value zero after (by omega)]
  split
  · rename_i positive
    obtain ⟨high, fits⟩ := fits.resolve_left (by omega)
    rw [value_op_bind ⟨by simp only [half]; omega, high⟩, tickFor_value (by omega) fits]
  · rw [value_pure]

theorem ArmFits.shorter {shorter : Int} (fits : ArmFits epochNs later delayNs)
    (less : shorter ≤ delayNs) : ArmFits epochNs later shorter := by
  unfold ArmFits at *
  omega

/-- A longer delay gets no earlier tick. -/
theorem deadlineTick_mono {shorter : Int} (zero : 0 ≤ epochNs) (after : epochNs ≤ now)
    (order : now ≤ later) (early : later < clockBound) (fits : ArmFits epochNs later delayNs)
    (less : shorter ≤ delayNs) : (deadlineTick epochNs now later shorter).value ≤
      (deadlineTick epochNs now later delayNs).value := by
  rw [deadlineTick_value zero after order early (fits.shorter less),
    deadlineTick_value zero after order early fits]
  simp only [Timer.tickFor, Timer.tickNs, tickNs]
  split
  · rw [if_pos (by omega)]
    omega
  · split
    · omega
    · exact le_refl _

/-! ## Periodics -/

/-- The first due time, as `Periodic::Start` means it. -/
def firstDue (now intervalNs firstDelayNs : Int) : Int :=
  now + if firstDelayNs < 0 then intervalFor intervalNs else firstDelayNs

/-- The due time can be told and rounded. -/
def DueFits (epochNs due : Int) : Prop := due < half ∧ due - epochNs + tickNs < half

theorem intervalFor_pos (intervalNs : Int) : 0 < intervalFor intervalNs := by
  unfold intervalFor tickNs Timer.tickNs
  split <;> omega

theorem start_fits {intervalNs firstDelayNs : Int} (zero : 0 ≤ epochNs) (after : epochNs ≤ now) :
    (start epochNs now intervalNs firstDelayNs).Fits half ↔
      DueFits epochNs (firstDue now intervalNs firstDelayNs) := by
  have later : now ≤ firstDue now intervalNs firstDelayNs := by
    have positive := intervalFor_pos intervalNs
    unfold firstDue
    split <;> omega
  unfold start DueFits
  rw [← firstDue, fits_op_bind, fits_bind, tickFor_fits (by omega)]
  simp only [fits_pure, and_true, InRange, half] at *
  omega

/-- The first grid point after a reading of the clock. -/
def nextDue (due interval now : Nat) : Nat := due + ((now - due) / interval + 1) * interval

theorem passed_value (due now interval : Nat) (order : due ≤ now) :
    (if (now : Int) - due > 0 then ((now : Int) - due).tdiv interval else 0) =
      (((now - due) / interval : Nat) : Int) := by
  have cast : (now : Int) - due = ((now - due : Nat) : Int) := by omega
  rw [cast]
  split
  · rw [Int.tdiv_eq_ediv_of_nonneg (by omega), ← Int.natCast_ediv]
  · have none : now - due = 0 := by omega
    rw [none, Nat.zero_div]
    rfl

/-- A fire for a grid point that has been reached. -/
theorem fire_fits {due now interval : Nat} (zero : 0 ≤ epochNs) (order : due ≤ now)
    (early : epochNs + now < clockBound) :
    (fire epochNs (epochNs + now) (epochNs + due) interval).Fits half ↔
      DueFits epochNs (epochNs + nextDue due interval now) := by
  have behind : epochNs + (now : Int) - (epochNs + due) = (now : Int) - due := by omega
  have inside : InRange half ((now : Int) - due) := by
    simp only [InRange, half, clockBound] at *
    omega
  have times : InRange half ((((now - due) / interval : Nat) : Int) + 1) := by
    have few := Nat.div_le_self (now - due) interval
    generalize (now - due) / interval = passed at few
    simp only [InRange, half, clockBound] at *
    omega
  have ahead : ((((now - due) / interval : Nat) : Int) + 1) * interval =
      ((((now - due) / interval + 1) * interval : Nat) : Int) := by
    push_cast
    rfl
  have next : epochNs + due + ((((now - due) / interval + 1) * interval : Nat) : Int) =
      epochNs + (nextDue due interval now : Nat) := by
    unfold nextDue
    push_cast
    ring
  unfold fire DueFits
  rw [behind, fits_op_bind, iff_true_intro inside, true_and, passed_value due now interval order,
    fits_op_bind, iff_true_intro times, true_and, ahead, fits_op_bind, next, fits_op_bind, fits_bind,
    tickFor_fits (by omega)]
  have part : (((now - due) / interval + 1) * interval : Nat) ≤ nextDue due interval now :=
    Nat.le_add_left ..
  simp only [fits_pure, and_true, InRange, half] at *
  omega

/-- The sums and products of the timer queue stay inside `int64_t` exactly as long as the deadline
or due time that is meant can be told and rounded; and then a longer delay gets no earlier tick. -/
theorem timer_arithmetic_iff (epochNs : Int) (zero : 0 ≤ epochNs) :
    (∀ now later delayNs, epochNs ≤ now → now ≤ later → later < clockBound →
      InRange half delayNs →
      ((deadlineTick epochNs now later delayNs).Fits half ∧
        (∀ shorter ≤ delayNs, InRange half shorter →
          (deadlineTick epochNs now later shorter).value ≤
            (deadlineTick epochNs now later delayNs).value) ↔ ArmFits epochNs later delayNs)) ∧
    (∀ now intervalNs firstDelayNs, epochNs ≤ now → now < clockBound → 0 < intervalNs →
      InRange half intervalNs → InRange half firstDelayNs →
      ((start epochNs now intervalNs firstDelayNs).Fits half ↔
        DueFits epochNs (firstDue now intervalNs firstDelayNs))) ∧
    (∀ s, Reach History.step anyStep History.initial s → ∀ (r due now : Nat) (launch : Bool),
      .fired r due now launch ∈ s.log → epochNs + now < clockBound →
      ((fire epochNs (epochNs + now) (epochNs + due) (s.timer.record r).interval).Fits half ↔
        DueFits epochNs (epochNs + nextDue due (s.timer.record r).interval now))) := by
  refine ⟨fun now later delayNs after order early int64 => ?_,
    fun now intervalNs firstDelayNs after _ _ _ _ => start_fits zero after,
    fun s reach r due now launch mem early => ?_⟩
  · rw [deadlineTick_fits zero after order early int64.2]
    refine ⟨And.left, fun fits => ⟨fits, fun shorter less _ => ?_⟩⟩
    exact deadlineTick_mono zero after order early fits less
  · obtain ⟨before, rest, split⟩ := List.append_of_mem mem
    exact fire_fits zero ((History.timely_of_reach reach).onTime before _ rest split) early

/-- A periodic of two milliseconds fires two points late. -/
def firedLabels : List History.Label :=
  [.timer (.start 0 0 2000000 2000000), .timer (.pollFire 7000000 [])]

def firedRun : History.State :=
  (run History.step anyStep History.initial firedLabels).getD History.initial

theorem firedRun_reach : Reach History.step anyStep History.initial firedRun :=
  Reach.of_isSome firedLabels (by decide +kernel)

/-- A delay of one second, a periodic of one second, and the fire. -/
theorem second_timer_arithmetic_iff :
    ((deadlineTick 0 5 7 1000000000).Fits half ∧
      (∀ shorter ≤ 1000000000, InRange half shorter → (deadlineTick 0 5 7 shorter).value ≤
        (deadlineTick 0 5 7 1000000000).value) ↔ ArmFits 0 7 1000000000) ∧
    ((start 0 5 1000000000 (-1)).Fits half ↔ DueFits 0 (firstDue 5 1000000000 (-1))) ∧
    ((fire 0 (0 + (7000000 : Nat)) (0 + (2000000 : Nat)) (firedRun.timer.record 0).interval).Fits
        half ↔
      DueFits 0 (0 + nextDue 2000000 (firedRun.timer.record 0).interval 7000000)) :=
  ⟨(timer_arithmetic_iff 0 (by decide)).1 5 7 1000000000 (by decide) (by decide) (by decide)
      (by decide),
    (timer_arithmetic_iff 0 (by decide)).2.1 5 1000000000 (-1) (by decide) (by decide) (by decide)
      (by decide) (by decide),
    (timer_arithmetic_iff 0 (by decide)).2.2 firedRun firedRun_reach 0 2000000 7000000 true
      (by decide +kernel) (by decide)⟩

/-- A delay that says never comes to tick zero. -/
theorem forever_expires : ¬ ∀ epochNs now later delayNs : Int, 0 ≤ epochNs → epochNs ≤ now →
    now ≤ later → later < clockBound → InRange half delayNs →
    (deadlineTick epochNs now later delayNs).Fits half ∧
      ∀ shorter ≤ delayNs, InRange half shorter →
        (deadlineTick epochNs now later shorter).value ≤
          (deadlineTick epochNs now later delayNs).value := by
  intro claimed
  have fits := (claimed 0 1 1 9223372036854775807 (by decide) (by decide) (by decide) (by decide)
    (by decide)).1
  exact absurd fits (by decide)

/-- The tick of that delay is earlier than the tick of a millisecond. -/
example : (deadlineTick 0 1 1 9223372036854775807).value = 0 ∧
    (deadlineTick 0 1 1 1000000).value = 2 := by decide

end JLibSched.Overflow
