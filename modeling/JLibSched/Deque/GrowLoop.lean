import JLibSched.Deque.Growth

/-!
# The grow loop

Each round of the loop of `push_bottom_batch` doubles the capacity, until the batch fits, a ceiling
is reached or the allocation fails.

0 passes the constructor's test.  A ring of 0 slots stays one when it is doubled, so `push_bottom`
stores beside it and `push_bottom_batch` grows for ever.
-/

namespace JLibSched.Deque.Words

open Transition

variable {s u : State} {limit : Nat}

/-- What is left of the loop: the slots that a ring can still gain, for each of them a round, and
in a round the copies. -/
def State.left (s : State) : Nat :=
  match s.owner with
  | .pushRing _ b t => (2 ^ 62 - s.cur.capacity.toNat) * ((b - t).toNat + 3)
  | .growCopy _ b t new i =>
    (2 ^ 62 - (s.rings new).capacity.toNat) * ((b - t).toNat + 3) + (b - i).toNat + 2
  | .growPublish _ b t new => (2 ^ 62 - (s.rings new).capacity.toNat) * ((b - t).toNat + 3) + 1
  | _ => 0

/-- A round makes the ring larger. -/
theorem round_lt {small large span : Nat} (larger : small < large) (bound : small < 2 ^ 61) :
    (2 ^ 62 - large) * (span + 3) + span + 2 < (2 ^ 62 - small) * (span + 3) := by
  have fewer : 2 ^ 62 - large + 1 ≤ 2 ^ 62 - small := by omega
  have rounds := Nat.mul_le_mul_right (span + 3) fewer
  rw [Nat.succ_mul] at rounds
  omega

/-- A thief's step leaves the owner and the rings alone. -/
theorem thief_keeps {a : Label} (thief : a.byThief = true) (stepped : step s a = some u) :
    u.owner = s.owner ∧ u.ring = s.ring ∧ u.rings = s.rings := by
  have starts {i : Nat} {vet : Vet} (moved : stealIf s i vet = some u) :
      u.owner = s.owner ∧ u.ring = s.ring ∧ u.rings = s.rings := by
    unfold stealIf at moved
    cases here : s.thief i with
    | idle =>
      simp only [here] at moved
      cases moved
      exact ⟨rfl, rfl, rfl⟩
    | _ =>
      simp only [here] at moved
      cases moved
  unfold Words.step at stepped
  split at stepped
  · cases stepped
  · cases a with
    | steal i => exact starts stepped
    | stealIf i vet => exact starts stepped
    | thief i =>
      simp only [thiefStep] at stepped
      cases here : s.thief i with
      | idle =>
        simp only [here] at stepped
        cases stepped
      | bottom vet t | ring vet t | slot vet t r =>
        simp only [here] at stepped
        cases stepped
        exact ⟨rfl, rfl, rfl⟩
      | cas vet t v =>
        simp only [here] at stepped
        split at stepped
        · cases stepped
          exact ⟨rfl, rfl, rfl⟩
        · cases stepped
          exact ⟨rfl, rfl, rfl⟩
    | _ => cases thief

theorem left_thief {a : Label} (thief : a.byThief = true) (stepped : step s a = some u) :
    u.left = s.left := by
  obtain ⟨owner, ring, rings⟩ := thief_keeps thief stepped
  unfold State.left State.cur
  rw [owner, ring, rings]

theorem left_pushEntry {op : Push} {b t : Word} {r : Nat} :
    ({ s with owner := pushEntry op b t r } : State).left = 0 := by
  unfold pushEntry
  split <;> rfl

/-- The head of the loop. -/
theorem Inv.left_grow (inv : Inv s limit) {op : Push} {b t : Word} (allocates : Bool) :
    (s.grow op b t allocates).left <
      (2 ^ 62 - s.cur.capacity.toNat) * ((b - t).toNat + 3) := by
  have lt := inv.cur.lt
  have pos := inv.cur.pos
  have stopped : 0 < (2 ^ 62 - s.cur.capacity.toNat) * ((b - t).toNat + 3) :=
    Nat.mul_pos (by omega) (by omega)
  unfold State.grow
  simp only
  split
  · exact stopped
  · cases granted : makeRing allocates (s.cur.capacity * 2) with
    | none => exact stopped
    | some new =>
      obtain ⟨-, double⟩ := makeRing_double inv.cur granted
      have larger : s.cur.capacity.toNat < new.capacity.toNat := by omega
      have round := @round_lt _ _ (b - t).toNat larger lt
      simp only
      split
      · simp only [State.left, Function.update_self]
        omega
      · simp only [State.left, Function.update_self]
        omega

/-- Each step of the owner in the loop brings its end nearer. -/
theorem Inv.left_owner (inv : Inv s limit) {allocates : Bool} (inLoop : s.owner.inLoop = true)
    (stepped : Words.ownerStep s allocates = some u) : u.left < s.left := by
  have owner := inv.owner
  have top := inv.top
  have room := inv.room
  have lt := inv.cur.lt
  unfold Words.ownerStep at stepped
  cases here : s.owner with
  | pushRing op b t =>
    have left : s.left = (2 ^ 62 - s.cur.capacity.toNat) * ((b - t).toNat + 3) := by
      unfold State.left
      rw [here]
    simp only [here] at stepped
    split at stepped
    · cases stepped
      exact left ▸ inv.left_grow allocates
    · cases stepped
      rw [left, left_pushEntry]
      exact Nat.mul_pos (by omega) (Nat.succ_pos _)
  | growCopy op b t new i =>
    rw [here] at owner
    obtain ⟨pushing, -, j, low, above, below⟩ := owner
    have near := pushing.room
    have rest : (b - i).toNat = limit - j :=
      toNat_sub_lows pushing.low low (Nat.le_of_lt below) (by omega)
    have next : (b - (i + 1)).toNat = limit - (j + 1) :=
      toNat_sub_lows pushing.low (toNat_add_low 1 low) below (by omega)
    have left : s.left = (2 ^ 62 - (s.rings new).capacity.toNat) * ((b - t).toNat + 3) +
        (b - i).toNat + 2 := by
      unfold State.left
      rw [here]
    have capacity := capacity_store s.rings new new i (s.cur.load i)
    simp only [here] at stepped
    cases stepped
    rw [left]
    split
    · simp only [State.left]
      rw [capacity]
      omega
    · simp only [State.left]
      rw [capacity]
      omega
  | growPublish op b t new =>
    rw [here] at inLoop
    have left : s.left = (2 ^ 62 - (s.rings new).capacity.toNat) * ((b - t).toNat + 3) + 1 := by
      unfold State.left
      rw [here]
    simp only [here] at stepped
    cases stepped
    rw [left, if_pos (show op.isBatch = true from inLoop)]
    exact Nat.lt_succ_self _
  | _ =>
    rw [here] at inLoop
    cases inLoop

/-- The steps made and the steps left. -/
theorem Looping.left_le {k : Nat} (inv : Inv s limit) (looping : Looping s k u) :
    (∃ limit', Inv u limit') ∧ u.left + k ≤ s.left := by
  induction looping with
  | start => exact ⟨⟨limit, inv⟩, Nat.le_refl _⟩
  | @owner k u v allocates _ inLoop stepped ih =>
    obtain ⟨⟨limit', here⟩, bound⟩ := ih
    have moved : Words.ownerStep u allocates = some v := by
      unfold step at stepped
      split at stepped
      · cases stepped
      · exact stepped
    have nearer := here.left_owner inLoop moved
    exact ⟨here.step stepped, by omega⟩
  | thief _ byThief stepped ih =>
    obtain ⟨⟨limit', here⟩, bound⟩ := ih
    exact ⟨here.step stepped, left_thief byThief stepped ▸ bound⟩

theorem Inv.loopEnds (inv : Inv s limit) : LoopEnds s := by
  refine ⟨s.left, fun k u looping => ?_⟩
  have bound := (looping.left_le inv).2
  omega

theorem Inv.sound (inv : Inv s limit) : Sound s := ⟨inv.inBounds, inv.unshared, inv.loopEnds⟩

/-! ## Capacity 0 -/

/-- `MakeRing(0)`. -/
def emptyRing : Ring := { mask := 0 - 1, capacity := 0, slots := fun _ => 0 }

/-- A grow of an empty ring makes another one. -/
theorem grow_empty (op : Push) (b : Word) (empty : s.cur.capacity = 0) :
    s.grow op b b true =
      { s with
        rings := Function.update s.rings s.made emptyRing
        made := s.made + 1
        owner := .growPublish op b b s.made } := by
  have low : ¬ s.AtCeiling 0 := fun ceiling => absurd ceiling.1 BitVec.not_lt_zero
  have made : makeRing true 0 = some emptyRing := rfl
  have twice : (0 : Word) * 2 = 0 := rfl
  unfold State.grow
  simp only [empty, twice, if_neg low, made, if_true]

/-- The deque that is made for capacity 0. -/
def emptyDeque (maxCapacity : Word) (pushOnly : Bool) : State where
  top := 0
  bottom := 0
  ring := 0
  rings := fun _ => emptyRing
  made := 1
  maxCapacity := if maxCapacity < 0 then 0 else maxCapacity
  ceilingIsHard := maxCapacity != kDefaultMaxCapacity
  pushOnly
  owner := .idle
  thief := fun _ => .idle

variable {maxCapacity : Word} {pushOnly : Bool}

theorem construct_empty : construct 0 maxCapacity true pushOnly =
    some (emptyDeque maxCapacity pushOnly) := rfl

/-- A push of one task grows. -/
theorem full_empty (op : Push) (one : op.items.length = 1) : op.Full 0 0 0 := by
  cases op with
  | one item => exact (by decide : (0 : Word) - 0 ≥ 0)
  | batch items fits =>
    have count : (Push.batch items fits).count = 1 := by
      rw [Push.count, one]
      rfl
    unfold Push.Full
    simp only [count]
    decide

/-- The first round of it. -/
theorem round_empty {op : Push} (one : op.items.length = 1) (here : s.owner = .pushRing op 0 0)
    (empty : s.cur.capacity = 0) :
    step s (.owner true) = some
      { s with
        rings := Function.update s.rings s.made emptyRing
        made := s.made + 1
        owner := .growPublish op 0 0 s.made } := by
  have alive : ¬ s.owner.isFatal = true := by
    rw [here]
    exact Bool.false_ne_true
  unfold step
  rw [if_neg alive]
  simp only [ownerStep, here, empty, if_pos (full_empty op one), grow_empty op 0 empty]

/-- `push_bottom` stores beside an empty ring. -/
theorem empty_outOfBounds (item : TaskRef) :
    ∃ s, Reach step anyStep (emptyDeque maxCapacity pushOnly) s ∧ ¬ InBounds s := by
  have entered : Reach step anyStep (emptyDeque maxCapacity pushOnly)
      { emptyDeque maxCapacity pushOnly with owner := .pushTop (.one item) 0 } :=
    Reach.start.next (a := .pushBottom (some item)) trivial rfl
  have loaded : Reach step anyStep (emptyDeque maxCapacity pushOnly)
      { emptyDeque maxCapacity pushOnly with owner := .pushRing (.one item) 0 0 } :=
    entered.next (a := .owner true) trivial rfl
  have grown := loaded.next (a := .owner true) trivial
    (@round_empty _ (.one item) rfl rfl rfl)
  have published := grown.next (a := .owner true) trivial rfl
  have placed := published.next (a := .owner true) trivial rfl
  refine ⟨_, placed, fun inBounds => ?_⟩
  have beside := inBounds.1 (1, 0) (List.mem_singleton.mpr rfl)
  exact absurd beside (Nat.not_lt_zero _)

/-- `push_bottom_batch` grows it for ever. -/
theorem empty_loops {op : Push} (one : op.items.length = 1) (batch : op.isBatch = true)
    (here : s.owner = .pushRing op 0 0) (empty : s.cur.capacity = 0) (k : Nat) :
    ∃ u, Looping s (2 * k) u ∧ u.owner = .pushRing op 0 0 ∧ u.cur.capacity = 0 := by
  induction k with
  | zero => exact ⟨s, .start, here, empty⟩
  | succ k ih =>
    obtain ⟨u, looping, here, empty⟩ := ih
    have grown := looping.owner (by rw [here]; exact batch) (round_empty one here empty)
    have published := @Looping.owner s _ _ _ true grown batch rfl
    refine ⟨_, published, if_pos batch, ?_⟩
    simp only [State.cur, Function.update_self]
    rfl

/-! ## When a deque is sound -/

/-- A deque that the constructor makes uses its slots as it should in every run, and its grow loop
ends, exactly when its capacity is not 0. -/
theorem sound_iff {capacity maxCapacity : Word} {allocates pushOnly : Bool} {start : State}
    (made : construct capacity maxCapacity allocates pushOnly = some start) :
    (∀ s, Reach step anyStep start s → Sound s) ↔ capacity ≠ 0 := by
  constructor
  · rintro sound rfl
    cases allocates with
    | false => cases made
    | true =>
      rw [construct_empty] at made
      cases made
      obtain ⟨s, reach, beside⟩ := empty_outOfBounds ⟨0, .native, by decide⟩
      exact beside (sound s reach).inBounds
  · intro nonempty s reach
    obtain ⟨limit, inv⟩ := reach_inv nonempty made reach
    exact inv.sound

/-- A deque of two slots, which may grow to four. -/
def pairDeque : State := (construct 2 4 true false).getD (emptyDeque 4 false)

theorem pair_sound : construct 2 4 true false = some pairDeque ∧
    ∀ s, Reach step anyStep pairDeque s → Sound s := by
  have made : construct 2 4 true false = some pairDeque := rfl
  exact ⟨made, (sound_iff made).mpr (by decide)⟩

/-- The constructor takes capacity 0.  A `push_bottom` then stores into slot 0 of a ring that has
none, and a batch of one task never leaves the grow loop. -/
theorem empty_unsound : ∃ start, construct 0 0 true false = some start ∧
    (∃ s, Reach step anyStep start s ∧ ¬ InBounds s) ∧
    ∃ s, Reach step anyStep start s ∧ ¬ LoopEnds s := by
  have item : TaskRef := ⟨0, .native, by decide⟩
  have fits : Addressable [item].length := by
    rw [List.length_singleton]
    decide
  refine ⟨emptyDeque 0 false, rfl, empty_outOfBounds item, ?_⟩
  have entered : Reach step anyStep (emptyDeque 0 false)
      { emptyDeque 0 false with owner := .pushTop (.batch [item] fits) 0 } :=
    Reach.start.next (a := .pushBottomBatch [item] fits) trivial rfl
  have loaded : Reach step anyStep (emptyDeque 0 false)
      { emptyDeque 0 false with owner := .pushRing (.batch [item] fits) 0 0 } :=
    entered.next (a := .owner true) trivial rfl
  refine ⟨_, loaded, fun ends => ?_⟩
  obtain ⟨most, bound⟩ := ends
  obtain ⟨u, looping, -⟩ := @empty_loops
    { emptyDeque 0 false with owner := .pushRing (.batch [item] fits) 0 0 } (.batch [item] fits)
    rfl rfl rfl rfl (most + 1)
  have within := bound _ u looping
  omega

end JLibSched.Deque.Words
