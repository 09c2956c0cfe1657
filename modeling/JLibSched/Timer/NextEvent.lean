import JLibSched.Lib.Circular
import JLibSched.Timer.Advance

/-!
# The next event

`NextOccupied` looks at the slots of a level in circular order.  So the event that a level gives
is no later than the block of any entry on it, and `NextEventTick` is no later than the deadline
of any entry that hangs where it belongs.
-/

namespace JLibSched.Timer

namespace Wheel

variable {w : Wheel} {i l : Nat}

/-- The words of the occupancy mask are visited in circular order. -/
theorem scanOrder_eq {start : Nat} (inside : start < slots) :
    scanOrder start = Circular.rotated slots start := by
  have join (a m n : Nat) : List.range' a m ++ List.range' (a + m) n = List.range' a (m + n) :=
    List.range'_append_1
  simp only [slots] at *
  rw [Circular.rotated_eq (Nat.le_of_lt inside)]
  obtain ⟨q, r, small, rfl⟩ : ∃ q r, r < 64 ∧ start = 64 * q + r :=
    ⟨start / 64, start % 64, Nat.mod_lt _ (by decide), (Nat.div_add_mod start 64).symm⟩
  have quotient : (64 * q + r) / 64 = q := by omega
  have remainder : (64 * q + r) % 64 = r := by omega
  have word : q < 4 := by omega
  unfold scanOrder
  rw [quotient, remainder]
  -- The words after the first, up to the end of the mask and from its beginning.
  have words : ([1, 2, 3].flatMap fun i => List.range' ((q + i) % 4 * 64) 64) =
      List.range' (64 * q + 64) (192 - 64 * q) ++ List.range' 0 (64 * q) := by
    interval_cases q <;> decide +kernel
  have above : List.range' (64 * q + r) (256 - (64 * q + r)) =
      List.range' (64 * q + r) (64 - r) ++ List.range' (64 * q + 64) (192 - 64 * q) := by
    rw [show 64 * q + 64 = 64 * q + r + (64 - r) by omega, join,
      show 256 - (64 * q + r) = 64 - r + (192 - 64 * q) by omega]
  have below : List.range' 0 (64 * q + r) = List.range' 0 (64 * q) ++ List.range' (q * 64) r := by
    rw [← join, Nat.zero_add, Nat.mul_comm]
  rw [words, above, below]
  simp only [List.append_assoc]

/-- `NextOccupied` finds a slot at least as near as any that is occupied. -/
theorem nextOccupied_le (start : Nat) {j : Nat} (inside : start < slots) (window : j < slots)
    (occupied : w.heads l ((start + j) % slots) ≠ []) :
    ∃ k ≤ j, w.nextOccupied l start = (start + k) % slots := by
  unfold nextOccupied
  rw [scanOrder_eq inside]
  obtain ⟨k, near, found⟩ := Circular.find_rotated (p := fun s => w.heads l s ≠ []) window
    (decide_eq_true occupied)
  exact ⟨k, near, by rw [found]; rfl⟩

theorem levelEmpty_false {s : Nat} (inside : s < slots) (occupied : w.heads l s ≠ []) :
    w.levelEmpty l = false := by
  refine Bool.eq_false_iff.mpr fun empty => occupied ?_
  exact of_decide_eq_true (List.all_eq_true.mp empty s (List.mem_range.mpr inside))

/-- The distance back to where a search began. -/
theorem ahead_eq {start k : Nat} (inside : start < slots) (window : k < slots) :
    ((start + k) % slots + slots - start) % slots = k := by
  simp only [slots] at *
  omega

/-- The event of a level is no later than a block on it. -/
theorem levelEvent_le_zero {v : Nat} (low : w.currentTick ≤ v) (high : v < w.currentTick + slots)
    (occupied : w.heads 0 (v % slots) ≠ []) : ∃ t, w.levelEvent 0 = some t ∧ t ≤ v := by
  have unit : granularity 0 = 1 := rfl
  have place : (w.currentTick % slots + (v - w.currentTick)) % slots = v % slots := by
    simp only [slots] at *
    omega
  obtain ⟨k, near, found⟩ := nextOccupied_le (w := w) (l := 0) (w.currentTick % slots)
    (j := v - w.currentTick) (Nat.mod_lt _ (by decide)) (by omega) (by rw [place]; exact occupied)
  refine ⟨w.currentTick + k, ?_, by omega⟩
  unfold levelEvent
  rw [levelEmpty_false (Nat.mod_lt v (by decide)) occupied]
  simp only [unit, Nat.div_one, if_true, Bool.false_eq_true, if_false, found, Nat.mul_one]
  rw [if_neg (Nat.ne_of_lt (Nat.mod_lt _ (by decide))),
    ahead_eq (Nat.mod_lt _ (by decide)) (by omega)]

theorem levelEvent_le_above {v : Nat} (up : 1 ≤ l) (low : w.currentTick / granularity l < v)
    (high : v ≤ w.currentTick / granularity l + slots) (occupied : w.heads l (v % slots) ≠ []) :
    ∃ t, w.levelEvent l = some t ∧ t ≤ v * granularity l := by
  have place : ((w.currentTick / granularity l % slots + 1) % slots +
      (v - w.currentTick / granularity l - 1)) % slots = v % slots := by
    simp only [slots] at *
    omega
  obtain ⟨k, near, found⟩ := nextOccupied_le (w := w) (l := l)
    ((w.currentTick / granularity l % slots + 1) % slots)
    (j := v - w.currentTick / granularity l - 1) (Nat.mod_lt _ (by decide)) (by omega)
    (by rw [place]; exact occupied)
  refine ⟨(w.currentTick / granularity l + 1) * granularity l + k * granularity l, ?_, ?_⟩
  · unfold levelEvent
    rw [levelEmpty_false (Nat.mod_lt v (by decide)) occupied]
    simp only [if_neg (Nat.ne_of_gt up), Bool.false_eq_true, if_false, found]
    rw [if_neg (Nat.ne_of_lt (Nat.mod_lt _ (by decide))),
      ahead_eq (Nat.mod_lt _ (by decide)) (by omega)]
  · rw [← Nat.add_mul]
    exact Nat.mul_le_mul_right _ (by omega)

/-- The event of a level is not in the past. -/
theorem levelEvent_ge {t : Nat} (event : w.levelEvent l = some t) : w.currentTick ≤ t := by
  unfold levelEvent at event
  simp only [Option.ite_none_left_eq_some, Option.some.injEq] at event
  obtain ⟨-, -, rfl⟩ := event
  split
  · exact Nat.le_add_right _ _
  · have past := Nat.lt_mul_div_succ w.currentTick (granularity_pos l)
    rw [Nat.mul_comm] at past
    exact Nat.le_trans (Nat.le_of_lt past) (Nat.le_add_right _ _)

/-! ## All levels -/

theorem earlier_le_left {best : Option Nat} (event : Option Nat) {t : Nat} (found : best = some t) :
    ∃ t', earlier best event = some t' ∧ t' ≤ t := by
  subst found
  cases event with
  | none => exact ⟨t, rfl, Nat.le_refl t⟩
  | some tick =>
    unfold earlier
    split <;> grind

theorem earlier_le_right (best : Option Nat) {event : Option Nat} {t : Nat} (found : event = some t) :
    ∃ t', earlier best event = some t' ∧ t' ≤ t := by
  subst found
  cases best with
  | none => exact ⟨t, rfl, Nat.le_refl t⟩
  | some tick =>
    unfold earlier
    split <;> grind

theorem earlier_eq {best event : Option Nat} {t : Nat} (found : earlier best event = some t) :
    best = some t ∨ event = some t := by
  unfold earlier at found
  grind

/-- `NextEventTick` is no later than the event of any level. -/
theorem nextEventTick_le {t : Nat} (inside : l < levels) (event : w.levelEvent l = some t) :
    ∃ t', w.nextEventTick = some t' ∧ t' ≤ t := by
  have keeps (ls : List Nat) {best : Option Nat} {t : Nat} (found : best = some t) :
      ∃ t', ls.foldl (fun best l => earlier best (w.levelEvent l)) best = some t' ∧ t' ≤ t := by
    induction ls generalizing best t with
    | nil => exact ⟨t, found, Nat.le_refl t⟩
    | cons m rest ih =>
      obtain ⟨t', found', le⟩ := earlier_le_left (w.levelEvent m) found
      obtain ⟨t'', last, le'⟩ := ih found'
      exact ⟨t'', last, Nat.le_trans le' le⟩
  have reaches (ls : List Nat) (mem : l ∈ ls) (best : Option Nat) :
      ∃ t', ls.foldl (fun best l => earlier best (w.levelEvent l)) best = some t' ∧ t' ≤ t := by
    induction ls generalizing best with
    | nil => cases mem
    | cons m rest ih =>
      rcases List.mem_cons.mp mem with rfl | later
      · obtain ⟨t', found, le⟩ := earlier_le_right best event
        obtain ⟨t'', last, le'⟩ := keeps rest found
        exact ⟨t'', last, Nat.le_trans le' le⟩
      · exact ih later _
  exact reaches _ (List.mem_range.mpr inside) none

/-- `NextEventTick` is the event of some level. -/
theorem nextEventTick_level {t : Nat} (next : w.nextEventTick = some t) :
    ∃ l < levels, w.levelEvent l = some t := by
  have from_level (ls : List Nat) (best : Option Nat)
      (found : ls.foldl (fun best l => earlier best (w.levelEvent l)) best = some t) :
      best = some t ∨ ∃ l ∈ ls, w.levelEvent l = some t := by
    induction ls generalizing best with
    | nil => exact .inl found
    | cons m rest ih =>
      rcases ih _ found with first | ⟨l, mem, later⟩
      · exact (earlier_eq first).imp_right fun event => ⟨m, List.mem_cons_self, event⟩
      · exact .inr ⟨l, List.mem_cons_of_mem _ mem, later⟩
  rcases from_level _ none next with none | ⟨l, mem, event⟩
  · cases none
  · exact ⟨l, List.mem_range.mp mem, event⟩

/-- So it is not in the past. -/
theorem nextEventTick_ge {t : Nat} (next : w.nextEventTick = some t) : w.currentTick ≤ t := by
  obtain ⟨l, -, event⟩ := nextEventTick_level next
  exact levelEvent_ge event

/-- Where every entry hangs where it belongs, the next event is no later than any deadline. -/
theorem nextEventTick_le_deadline (linked : Linked w)
    (bound : ∀ i l, (w.entries i).level = some l → l < levels)
    (ahead : ∀ i, Ahead w.currentTick (w.entries i)) (near : ∀ i, Near w.currentTick (w.entries i))
    (on : (w.entries i).level = some l) :
    ∃ t, w.nextEventTick = some t ∧ t ≤ max w.currentTick (w.entries i).deadlineTick := by
  have inside : w.heads l (w.entries i).slot ≠ [] :=
    List.ne_nil_of_mem ((linked.mem i l _).mpr ⟨on, rfl⟩)
  rcases Nat.eq_zero_or_pos l with rfl | up
  · obtain ⟨slot, window⟩ := near i on
    rw [slot] at inside
    obtain ⟨t, event, le⟩ := levelEvent_le_zero (Nat.le_max_left _ _)
      (Nat.max_lt.mpr ⟨Nat.lt_add_of_pos_right (by decide), window⟩) inside
    obtain ⟨t', next, le'⟩ := nextEventTick_le (bound i 0 on) event
    exact ⟨t', next, Nat.le_trans le' le⟩
  · obtain ⟨v, slot, after, window, start⟩ := ahead i l on up
    rw [slot] at inside
    obtain ⟨t, event, le⟩ := levelEvent_le_above up after window inside
    obtain ⟨t', next, le'⟩ := nextEventTick_le (bound i l on) event
    refine ⟨t', next, Nat.le_trans le' (Nat.le_trans le (Nat.le_trans ?_ (Nat.le_max_right _ _)))⟩
    calc v * granularity l ≤ (w.entries i).deadlineTick / granularity l * granularity l :=
          Nat.mul_le_mul_right _ start
      _ ≤ (w.entries i).deadlineTick := Nat.div_mul_le_self _ _

end Wheel

end JLibSched.Timer
