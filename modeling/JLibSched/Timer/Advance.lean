import JLibSched.Timer.Linked

/-!
# Blocks and slots

An entry on level `l` waits for a block, and its slot is the block's number modulo 256.  On
level zero the block is the tick it is due, or the current one when that is past.  Above level
zero it is the next block with that slot, and it begins no later than the deadline (`Ahead`).
`Place` puts an entry ahead at any tick, and `AdvanceTo` places every entry again whose block
it enters.
-/

namespace JLibSched.Timer

namespace Wheel

variable {w w' : Wheel} {i l s : Nat}

/-! ## `AdvanceTo` -/

theorem cascadeSlots_recast (linked : Linked w) (l : Nat) (list : List Nat) :
    Recast (fun l' s' => l' = l ∧ s' ∈ list) w (w.cascadeSlots l list) := by
  induction list generalizing w with
  | nil => exact (Recast.refl linked).weaken fun _ _ none => by cases none.2
  | cons s rest ih =>
    have first : Recast (fun l' s' => l' = l ∧ s' = s) w
        (if w.heads l s ≠ [] then w.cascade l s else w) := by
      split
      · exact cascade_recast linked
      · rename_i empty
        rw [not_not] at empty
        refine ⟨linked, rfl, ⟨rfl, rfl, rfl⟩, fun _ => .inl rfl, fun i l' level place => ?_⟩
        obtain ⟨rfl, slot⟩ := place
        have mem := (linked.mem i l' s).mpr ⟨level, slot⟩
        rw [empty] at mem
        cases mem
    refine (first.trans (ih first.linked)).weaken fun l' s' place => ?_
    rcases List.mem_cons.mp place.2 with here | later
    · exact .inl ⟨place.1, here⟩
    · exact .inr ⟨place.1, later⟩

theorem enteredSlots_self (block : Nat) : enteredSlots block block = [] := by
  simp [enteredSlots, slots]

/-- Every block that is entered has its slot cascaded. -/
theorem mem_enteredSlots {first last v : Nat} (after : first < v) (upto : v ≤ last) :
    v % slots ∈ enteredSlots first last := by
  unfold enteredSlots
  split
  · exact List.mem_range.mpr (Nat.mod_lt _ (by decide))
  · refine List.mem_map.mpr ⟨v - first - 1, List.mem_range.mpr (by omega), ?_⟩
    congr 1
    omega

theorem granularity_pos (l : Nat) : 0 < granularity l := Nat.pow_pos (by decide)

/-- What stays in its block on one level does so on every higher one. -/
theorem same_block_above {a b l l' : Nat} (le : l ≤ l')
    (same : a / granularity l = b / granularity l) : a / granularity l' = b / granularity l' := by
  have split : granularity l' = granularity l * granularity (l' - l) := by
    rw [granularity, granularity, granularity, ← Nat.pow_add, Nat.add_sub_cancel' le]
  rw [split, ← Nat.div_div_eq_div_mul, ← Nat.div_div_eq_div_mul, same]

theorem cascadeLevels_recast {from0 target : Nat} {ls : List Nat} (linked : Linked w)
    (sorted : ls.Pairwise (· ≤ ·)) :
    Recast (fun l s => l ∈ ls ∧ s ∈ enteredSlots (from0 / granularity l) (target / granularity l))
      w (w.cascadeLevels from0 target ls) := by
  induction ls generalizing w with
  | nil => exact (Recast.refl linked).weaken fun _ _ none => by cases none.1
  | cons l rest ih =>
    obtain ⟨above, sorted⟩ := List.pairwise_cons.mp sorted
    rw [cascadeLevels]
    split
    · rename_i same
      refine (Recast.refl linked).weaken fun l' s' place => ?_
      have higher : l ≤ l' := by
        rcases List.mem_cons.mp place.1 with rfl | later
        · exact Nat.le_refl _
        · exact above l' later
      rw [same_block_above higher same, enteredSlots_self] at place
      cases place.2
    · have first := cascadeSlots_recast linked l
        (enteredSlots (from0 / granularity l) (target / granularity l))
      refine (first.trans (ih first.linked sorted)).weaken fun l' s' place => ?_
      rcases List.mem_cons.mp place.1 with rfl | later
      · exact .inl ⟨rfl, place.2⟩
      · exact .inr ⟨later, place.2⟩

/-- Every entry above level zero whose block is entered hangs where it belongs at the new
tick. -/
theorem advanceTo_recast {target : Nat} (linked : Linked w) (later : w.currentTick < target) :
    Recast (fun l s => (1 ≤ l ∧ l < levels) ∧ ∃ v, w.currentTick / granularity l < v ∧
        v ≤ target / granularity l ∧ s = v % slots)
      { w with currentTick := target } (w.advanceTo target) := by
  unfold advanceTo
  rw [if_neg (Nat.not_le.mpr later)]
  refine (cascadeLevels_recast (w := { w with currentTick := target }) ⟨linked.mem, linked.nodup⟩
    (by decide)).weaken ?_
  rintro l s ⟨⟨low, high⟩, v, after, upto, rfl⟩
  refine ⟨?_, mem_enteredSlots after upto⟩
  simp only [levels] at high
  interval_cases l <;> decide

end Wheel

/-! ## Where an entry waits -/

/-- The entry waits for a block that is still ahead. -/
def Ahead (currentTick : Nat) (e : Entry) : Prop :=
  ∀ l, e.level = some l → 1 ≤ l → ∃ v, e.slot = v % slots ∧ currentTick / granularity l < v ∧
    v ≤ currentTick / granularity l + slots ∧ v ≤ e.deadlineTick / granularity l

/-- On level zero the entry hangs on the tick it is due, or on the current one. -/
def Near (currentTick : Nat) (e : Entry) : Prop :=
  e.level = some 0 → e.slot = max currentTick e.deadlineTick % slots ∧
    e.deadlineTick < currentTick + slots

/-- `Place`, level by level. -/
theorem placeOf_eq (c d : Nat) : Wheel.placeOf c d =
    if d ≤ c then (0, c % 256)
    else if d - c < 256 then (0, d % 256)
    else if d - c < 65536 then (1, d / 256 % 256)
    else if d - c < 16777216 then (2, d / 65536 % 256)
    else if d - c < 4294967296 then (3, d / 16777216 % 256)
    else (3, (c + 4294967296 - 1) / 16777216 % 256) := by
  have range : List.range levels = [0, 1, 2, 3] := rfl
  have blocks : granularity 0 = 1 ∧ granularity 1 = 256 ∧ granularity 2 = 65536 ∧
      granularity 3 = 16777216 ∧ granularity 4 = 4294967296 ∧ maxTicks = 4294967296 := by
    norm_num [granularity, maxTicks, slots, levels]
  obtain ⟨g₀, g₁, g₂, g₃, g₄, far⟩ := blocks
  have size : slots = 256 := rfl
  have top : levels - 1 = 3 := rfl
  unfold Wheel.placeOf
  rw [range, top, far, g₃, size]
  by_cases due : d ≤ c
  · simp [due]
  by_cases h₀ : d - c < 256
  · simp [due, h₀, g₀, g₁]
  by_cases h₁ : d - c < 65536
  · simp [due, h₀, h₁, g₁, g₂]
  by_cases h₂ : d - c < 16777216
  · simp [due, h₀, h₁, h₂, g₁, g₂, g₃]
  by_cases h₃ : d - c < 4294967296
  · simp [due, h₀, h₁, h₂, h₃, g₁, g₂, g₃, g₄]
  · simp only [List.find?, zero_add, Nat.reduceAdd, due, h₀, h₁, h₂, h₃, g₁, g₂, g₃, g₄,
      decide_false, if_false]

/-- What is due within a revolution of level zero hangs there, and the rest on a block ahead,
which is the block of its deadline or one before. -/
theorem placeOf_spec (c d : Nat) :
    (d < c + slots ∧ Wheel.placeOf c d = (0, max c d % slots)) ∨
    ∃ l v, (1 ≤ l ∧ l < levels) ∧ c + slots ≤ d ∧ Wheel.placeOf c d = (l, v % slots) ∧
      c / granularity l < v ∧ v ≤ c / granularity l + slots ∧ v ≤ d / granularity l := by
  have size : slots = 256 := rfl
  have g₁ : granularity 1 = 256 := rfl
  have g₂ : granularity 2 = 65536 := rfl
  have g₃ : granularity 3 = 16777216 := rfl
  rw [placeOf_eq, size]
  split_ifs
  · exact .inl ⟨by omega, by rw [Nat.max_eq_left (by omega)]⟩
  · exact .inl ⟨by omega, by rw [Nat.max_eq_right (by omega)]⟩
  · exact .inr ⟨1, d / 256, by decide, by omega, rfl, by rw [g₁]; omega⟩
  · exact .inr ⟨2, d / 65536, by decide, by omega, rfl, by rw [g₂]; omega⟩
  · exact .inr ⟨3, d / 16777216, by decide, by omega, rfl, by rw [g₃]; omega⟩
  · exact .inr ⟨3, (c + 4294967296 - 1) / 16777216, by decide, by omega, rfl, by rw [g₃]; omega⟩

theorem placeOf_ahead (c : Nat) (e : Entry) :
    Ahead c (e.hang (Wheel.placeOf c e.deadlineTick)) := by
  intro l level up
  rcases placeOf_spec c e.deadlineTick with ⟨-, place⟩ | ⟨l', v, -, -, place, block⟩
  · rw [place] at level
    cases level
    cases up
  · rw [place] at level ⊢
    cases level
    exact ⟨v, rfl, block⟩

theorem placeOf_near (c : Nat) (e : Entry) :
    Near c (e.hang (Wheel.placeOf c e.deadlineTick)) := by
  intro level
  rcases placeOf_spec c e.deadlineTick with ⟨soon, place⟩ | ⟨l', v, up, -, place, -⟩
  · rw [place]
    exact ⟨rfl, soon⟩
  · rw [place] at level
    cases level
    cases up.1

theorem placeOf_bound (c d : Nat) : (Wheel.placeOf c d).1 < levels := by
  rcases placeOf_spec c d with ⟨-, place⟩ | ⟨l', v, up, -, place, -⟩
  · rw [place]
    exact Nat.zero_lt_succ 3
  · rw [place]
    exact up.2

/-! ## The clock moves -/

/-- An entry whose block is not entered stays ahead. -/
theorem Ahead.later {a b : Nat} {e : Entry} (ahead : Ahead a e) (le : a ≤ b)
    (beyond : ∀ l v, e.level = some l → 1 ≤ l → e.slot = v % slots → a / granularity l < v →
      b / granularity l < v) : Ahead b e := by
  intro l level up
  obtain ⟨v, slot, after, window, start⟩ := ahead l level up
  have same : a / granularity l ≤ b / granularity l := Nat.div_le_div_right le
  exact ⟨v, slot, beyond l v level up slot after, by omega, start⟩

/-- Every entry is ahead of the tick that `AdvanceTo` moves to. -/
theorem Wheel.advanceTo_ahead {w : Wheel} {target : Nat} (linked : w.Linked)
    (bound : ∀ i l, (w.entries i).level = some l → l < levels)
    (ahead : ∀ i, Ahead w.currentTick (w.entries i)) (later : w.currentTick < target) (i : Nat) :
    Ahead target ((w.advanceTo target).entries i) := by
  have recast := advanceTo_recast linked later
  rcases recast.entries i with same | ⟨-, moved⟩
  · rw [same]
    by_cases entered : ∃ l, (w.entries i).level = some l ∧ 1 ≤ l ∧ ∃ v,
        w.currentTick / granularity l < v ∧ v ≤ target / granularity l ∧
          (w.entries i).slot = v % slots
    · obtain ⟨l, level, up, block⟩ := entered
      have moved := recast.placed i l level ⟨⟨up, bound i l level⟩, block⟩
      rw [← same, moved]
      exact placeOf_ahead target (w.entries i)
    · refine (ahead i).later (Nat.le_of_lt later) fun l v level up slot after => ?_
      by_contra inside
      exact entered ⟨l, level, up, v, after, Nat.not_lt.mp inside, slot⟩
  · rw [moved]
    exact placeOf_ahead target (w.entries i)

/-- On level zero nothing is passed over if the target is not beyond what hangs there. -/
theorem Wheel.advanceTo_near {w : Wheel} {target : Nat} (linked : w.Linked)
    (near : ∀ i, Near w.currentTick (w.entries i)) (later : w.currentTick < target)
    (reached : ∀ i, (w.entries i).level = some 0 →
      target ≤ max w.currentTick (w.entries i).deadlineTick) (i : Nat) :
    Near target ((w.advanceTo target).entries i) := by
  have recast := advanceTo_recast linked later
  rcases recast.entries i with same | ⟨-, moved⟩
  · rw [same]
    intro level
    obtain ⟨slot, window⟩ := near i level
    have inside := reached i level
    have ahead : target ≤ (w.entries i).deadlineTick := by omega
    refine ⟨?_, Nat.lt_of_lt_of_le window (by omega)⟩
    rw [slot, Nat.max_eq_right ahead, Nat.max_eq_right (by omega)]
  · rw [moved]
    exact placeOf_near target (w.entries i)

end JLibSched.Timer
