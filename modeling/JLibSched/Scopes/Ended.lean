import JLibSched.Scopes.Stale

/-!
# Tokens of scopes that have ended

The token of a scope that has ended reads as not cancelled and cancels nothing.  A scope that
outlives the one it was made with still lies within it, and so do those made with its own token; no
other one does (`Unjoined`), as long as one operation follows the other.
-/

namespace JLibSched.Scopes

open Transition Cancel Links

variable {s t : State} {a : Label} {free : List Nat} {i j k p : Nat}

/-! ## One operation after the other -/

/-- No constructor and no destructor is under way. -/
def Phase.atRest : Phase → Bool
  | .unborn | .live | .gone => true
  | .resolving _ _ | .storing _ _ | .reading _ | .clearing _ | .releasing _ => false

def State.allAtRest (s : State) : Prop := ∀ k < s.made, (s.phase k).atRest = true

instance (s : State) : Decidable s.allAtRest :=
  inferInstanceAs (Decidable (∀ k < s.made, (s.phase k).atRest = true))

/-- Each operation is complete before the next one starts. -/
def oneByOne (s : State) : Label → Prop
  | .advance _ => True
  | .create _ | .destroy _ | .cancel _ | .cancelVia _ => s.allAtRest

instance (s : State) : (a : Label) → Decidable (oneByOne s a)
  | .advance _ => isTrue trivial
  | .create _ | .destroy _ | .cancel _ | .cancelVia _ => inferInstanceAs (Decidable s.allAtRest)

/-- Besides, no slot comes to its last generation. -/
def inTurn (s : State) (a : Label) : Prop := oneByOne s a ∧ lasting s a

instance (s : State) (a : Label) : Decidable (inTurn s a) :=
  inferInstanceAs (Decidable (oneByOne s a ∧ lasting s a))

/-- A constructor that has found its parent and not returned yet. -/
def Phase.joining : Phase → Bool
  | .storing _ _ | .reading _ => true
  | .unborn | .resolving _ _ | .live | .clearing _ | .releasing _ | .gone => false

theorem joining_atRest {phase : Phase} (joining : phase.joining = true) :
    phase.atRest = false := by
  cases phase with
  | storing | reading => rfl
  | unborn | resolving | live | clearing | releasing | gone => cases joining

/-- One operation is under way, and the parent that a constructor has found is alive. -/
structure Orderly (s : State) : Prop where
  lone : ∀ j k, (s.phase j).atRest = false → (s.phase k).atRest = false → j = k
  parents : ∀ j p, (s.phase j).joining = true → s.parent j = some p → s.phase p = .live

theorem Sound.atRest (sound : Sound s) (rests : s.allAtRest) (k : Nat) :
    (s.phase k).atRest = true := by
  obtain ⟨free, owned⟩ := sound.owned
  rcases Nat.lt_or_ge k s.made with before | after
  · exact rests k before
  · rw [owned.unborn k after]
    rfl

/-- An operation begins when none is under way. -/
theorem Orderly.begins {phase : Phase} (rests : ∀ k, (s.phase k).atRest = true)
    (moved : t.phase = Function.update s.phase k phase)
    (parents : phase.joining = true → t.parent k = none) : Orderly t where
  lone j j' busy busy' := by
    have here {l : Nat} (busy : (t.phase l).atRest = false) : l = k := by
      by_contra other
      rw [moved, Function.update_of_ne other, rests l] at busy
      cases busy
    exact (here busy).trans (here busy').symm
  parents j p joining parent := by
    rcases eq_or_ne j k with rfl | other
    · rw [moved, Function.update_self] at joining
      cases (parents joining).symm.trans parent
    · have busy := joining_atRest joining
      rw [moved, Function.update_of_ne other, rests j] at busy
      cases busy

/-- The operation under way goes on. -/
theorem Orderly.continues (orderly : Orderly s) (busy : (s.phase k).atRest = false) {phase : Phase}
    (moved : t.phase = Function.update s.phase k phase)
    (parents : ∀ p, phase.joining = true → t.parent k = some p → s.phase p = .live) :
    Orderly t where
  lone j j' busyJ busyJ' := by
    have here {l : Nat} (busyL : (t.phase l).atRest = false) : l = k := by
      by_contra other
      rw [moved, Function.update_of_ne other] at busyL
      exact other (orderly.lone l k busyL busy)
    exact (here busyJ).trans (here busyJ').symm
  parents j p joining parent := by
    rcases eq_or_ne j k with rfl | other
    · rw [moved, Function.update_self] at joining
      have live := parents p joining parent
      have apart : p ≠ j := by
        rintro rfl
        rw [live] at busy
        cases busy
      rw [moved, Function.update_of_ne apart]
      exact live
    · have busyJ := joining_atRest joining
      rw [moved, Function.update_of_ne other] at busyJ
      exact absurd (orderly.lone j k busyJ busy) other

theorem Orderly.same (orderly : Orderly s) (phase : t.phase = s.phase)
    (parent : t.parent = s.parent) : Orderly t where
  lone j k := by
    rw [phase]
    exact orderly.lone j k
  parents j p := by
    rw [phase, parent]
    exact orderly.parents j p

theorem Orderly.create (sound : Sound s) (rests : ∀ k, (s.phase k).atRest = true)
    (parent : Option Nat) : Orderly (s.create parent) := by
  obtain ⟨free, owned⟩ := sound.owned
  have noParent : s.parent s.made = none := (sound.fits s.made).unresolved (by
    rw [owned.unborn s.made (Nat.le_refl _)]
    rfl)
  unfold State.create
  cases s.freeHead with
  | none => exact .begins rests rfl fun _ => noParent
  | some i => exact .begins rests rfl fun _ => noParent

theorem Orderly.destroy (rests : ∀ k, (s.phase k).atRest = true) : Orderly (s.destroy k) := by
  unfold State.destroy
  split
  · exact .begins rests rfl fun absurd => by cases absurd
  · exact .begins rests rfl fun absurd => by cases absurd

theorem Orderly.advance (orderly : Orderly s) (sound : Sound s) (stepped : advance s k = some t) :
    Orderly t := by
  have busy {phase : Phase} (here : s.phase k = phase) (moves : phase.atRest = false) :
      (s.phase k).atRest = false := by
    rw [here]
    exact moves
  unfold Scopes.advance at stepped
  cases here : s.phase k with
  | unborn | live | gone =>
    rw [here] at stepped
    cases stepped
  | resolving i v =>
    obtain ⟨q, within, rfl⟩ := (sound.fits k).resolving i v here
    rw [here] at stepped
    simp only at stepped
    split at stepped
    · rename_i found
      cases stepped
      refine orderly.continues (busy here rfl) rfl fun p _ parent => ?_
      simp only [Function.update_self] at parent
      cases within.symm.trans parent
      have made := ((sound.fits k).older q within).2
      have valid : s.raw q ≠ kNone := by
        intro none
        rw [none, finds_none] at found
        cases found
      exact (sound.dated.live_of_current made valid (current_of_finds found).2).live
    · cases stepped
      refine orderly.continues (busy here rfl) rfl fun p _ parent => ?_
      have none := (sound.fits k).unresolved (by rw [here]; rfl)
      cases none.symm.trans parent
  | storing i v =>
    rw [here] at stepped
    cases stepped
    refine orderly.continues (busy here rfl) rfl fun p _ parent => ?_
    exact orderly.parents k p (by rw [here]; rfl) parent
  | reading i | clearing i | releasing i =>
    rw [here] at stepped
    cases stepped
    exact orderly.continues (busy here rfl) rfl fun p absurd => by cases absurd

theorem Orderly.step (orderly : Orderly s) (sound : Sound s) (allowed : inTurn s a)
    (stepped : Scopes.step s a = some t) : Orderly t := by
  cases a with
  | advance k => exact orderly.advance sound stepped
  | create parent =>
    simp only [Scopes.step] at stepped
    split at stepped
    · cases stepped
      exact .create sound (sound.atRest allowed.1) parent
    · cases stepped
  | destroy k =>
    simp only [Scopes.step] at stepped
    split at stepped
    · cases stepped
      exact .destroy (sound.atRest allowed.1)
    · cases stepped
  | cancel k =>
    simp only [Scopes.step] at stepped
    split at stepped
    · cases stepped
      unfold State.cancel
      split
      · exact orderly.same rfl rfl
      · exact orderly.same rfl rfl
    · cases stepped
  | cancelVia k =>
    simp only [Scopes.step] at stepped
    split at stepped
    · cases stepped
      exact orderly.same rfl rfl
    · cases stepped

/-! ## Scopes that outlive the one they were made with -/

/-- A scope is this one, or was made with the token of one under it. -/
def State.Under (s : State) : Nat → Nat → Prop :=
  Relation.ReflTransGen fun j p => s.parent j = some p

/-- A live scope lies within one that has ended only under a scope that did so when that one
ended. -/
def Unjoined (s : State) : Prop :=
  ∀ k, (s.phase k).ended = true → ∀ j, s.phase j = .live →
    isWithin s.slots (s.raw j) (s.raw k) = true → ∃ p ∈ s.outlived k, s.Under j p

/-- Whose token a scope was made with is settled once. -/
theorem parent_same (fits : ∀ j, Fit s j) (stepped : step s a = some t) {j p : Nat}
    (parent : s.parent j = some p) : t.parent j = some p := by
  cases a with
  | create within =>
    simp only [step] at stepped
    split at stepped
    · cases stepped
      unfold State.create
      cases s.freeHead with
      | none => exact parent
      | some i => exact parent
    · cases stepped
  | advance l =>
    simp only [step, advance] at stepped
    split at stepped
    · rename_i i v here
      split at stepped
      · cases stepped
        have other : j ≠ l := by
          rintro rfl
          have none := (fits j).unresolved (by rw [here]; rfl)
          cases none.symm.trans parent
        simp only [Function.update_of_ne other]
        exact parent
      · cases stepped
        exact parent
    all_goals cases stepped
    all_goals exact parent
  | destroy l =>
    simp only [step] at stepped
    split at stepped
    · cases stepped
      unfold State.destroy
      split
      · exact parent
      · exact parent
    · cases stepped
  | cancel l =>
    simp only [step] at stepped
    split at stepped
    · cases stepped
      unfold State.cancel
      split
      · exact parent
      · exact parent
    · cases stepped
  | cancelVia l =>
    simp only [step] at stepped
    split at stepped
    · cases stepped
      exact parent
    · cases stepped

/-- A live scope was alive before, has no token, or its constructor has just returned. -/
theorem live_before (sound : Sound s) (stepped : step s a = some t) (live : t.phase j = .live) :
    s.phase j = .live ∨ t.raw j = kNone ∨ a = .advance j ∧ ∃ i, s.phase j = .reading i := by
  have moves {l : Nat} {phase : Phase} (moved : t.phase = Function.update s.phase l phase)
      (self : phase ≠ .live) : s.phase j = .live :=
    phase_moves (P := fun phase => phase = .live) moved (fun here => absurd here self) j live
  have same (phase : t.phase = s.phase) : s.phase j = .live := by
    rwa [phase] at live
  cases a with
  | create parent =>
    obtain ⟨free, owned⟩ := sound.owned
    have blank := owned.blank s.made (by rw [owned.unborn s.made (Nat.le_refl _)]; rfl)
    simp only [step] at stepped
    split at stepped
    · cases stepped
      rcases eq_or_ne j s.made with rfl | other
      · right
        left
        unfold State.create
        cases s.freeHead with
        | none => exact blank
        | some i => exact blank
      · left
        unfold State.create at live
        cases head : s.freeHead with
        | none | some i =>
          rw [head] at live
          simp only [State.go, Function.update_of_ne other] at live
          exact live
    · cases stepped
  | destroy l =>
    left
    simp only [step] at stepped
    split at stepped
    · cases stepped
      unfold State.destroy at moves
      split at moves
      · exact moves rfl (by decide)
      · exact moves rfl fun absurd => by cases absurd
    · cases stepped
  | advance l =>
    simp only [step, advance] at stepped
    cases here : s.phase l with
    | unborn | live | gone =>
      rw [here] at stepped
      cases stepped
    | resolving i v =>
      left
      rw [here] at stepped
      simp only at stepped
      split at stepped
      · cases stepped
        exact moves rfl fun absurd => by cases absurd
      · cases stepped
        exact moves rfl fun absurd => by cases absurd
    | reading i =>
      rw [here] at stepped
      cases stepped
      rcases eq_or_ne j l with rfl | other
      · exact .inr (.inr ⟨rfl, i, here⟩)
      · simp only [State.go, Function.update_of_ne other] at live
        exact .inl live
    | storing i v | clearing i =>
      left
      rw [here] at stepped
      cases stepped
      exact moves rfl fun absurd => by cases absurd
    | releasing i =>
      left
      rw [here] at stepped
      cases stepped
      exact moves rfl (by decide)
  | cancel l =>
    simp only [step] at stepped
    split at stepped
    · cases stepped
      unfold State.cancel at same
      split at same
      · exact .inl (same rfl)
      · exact .inl (same rfl)
    · cases stepped
  | cancelVia l =>
    simp only [step] at stepped
    split at stepped
    · cases stepped
      exact .inl (same rfl)
    · cases stepped

/-- Whether a scope was outlived is settled when its destructor begins. -/
theorem outlived_same (stepped : step s a = some t) (ended : (s.phase k).ended = true) :
    t.outlived k = s.outlived k := by
  cases a with
  | create parent =>
    simp only [step] at stepped
    split at stepped
    · cases stepped
      unfold State.create
      cases s.freeHead with
      | none => rfl
      | some i => rfl
    · cases stepped
  | destroy l =>
    simp only [step] at stepped
    split at stepped
    · rename_i live
      cases stepped
      have other : k ≠ l := by
        rintro rfl
        rw [live] at ended
        cases ended
      unfold State.destroy
      split
      · rfl
      · exact Function.update_of_ne other _ _
    · cases stepped
  | advance l =>
    simp only [step, advance] at stepped
    split at stepped
    · split at stepped
      · cases stepped
        rfl
      · cases stepped
        rfl
    · cases stepped
      rfl
    · cases stepped
      rfl
    · cases stepped
      rfl
    · cases stepped
      rfl
    all_goals cases stepped
  | cancel l =>
    simp only [step] at stepped
    split at stepped
    · cases stepped
      unfold State.cancel
      split
      · rfl
      · rfl
    · cases stepped
  | cancelVia l =>
    simp only [step] at stepped
    split at stepped
    · cases stepped
      rfl
    · cases stepped

/-- A longer walk comes as far as a shorter one. -/
theorem isWithinFrom_mono {slots : Table} {tok depth raw : Nat}
    (within : isWithinFrom slots tok depth raw = true) :
    isWithinFrom slots tok (depth + 1) raw = true := by
  induction depth generalizing raw with
  | zero => cases within
  | succ depth ih =>
    rw [isWithinFrom] at within ⊢
    split at within
    · cases within
    · rename_i valid
      rw [if_neg valid]
      split at within
      · rename_i here
        rw [if_pos here]
      · rename_i other
        rw [if_neg other]
        split at within
        · cases within
        · rename_i inTable
          rw [if_neg inTable]
          split at within
          · cases within
          · rename_i current
            rw [if_neg current]
            exact ih within

/-- A new scope lies within another one if the scope does that it was made with. -/
theorem isWithin_new (fits : ∀ j, Fit s j) (holds : s.Holds j) {tok : Nat}
    (other : s.raw j ≠ tok) (within : isWithin s.slots (s.raw j) tok = true) :
    ∃ p, s.parent j = some p ∧ isWithin s.slots (s.raw p) tok = true := by
  have stored := (fits j).stored _ holds.slotOf (by rw [holds.live]; rfl)
  unfold isWithin at within
  split at within
  · cases within
  · rename_i valid
    rw [show kMaxScopeDepth = 7 + 1 from rfl, isWithinFrom_succ fits holds other, stored] at within
    cases parent : s.parent j with
    | none =>
      rw [parentRaw_none parent, isWithinFrom, if_pos rfl] at within
      cases within
    | some p =>
      rw [parentRaw_some parent] at within
      refine ⟨p, rfl, ?_⟩
      unfold isWithin
      rw [if_neg valid]
      exact isWithinFrom_mono within

/-- Who lies within a scope that is destroyed. -/
theorem mem_liveWithin (owned : Owned s free) (live : s.phase j = .live) (other : j ≠ k)
    (within : isWithin s.slots (s.raw j) (s.raw k) = true) : j ∈ s.liveWithin k := by
  have early : j < s.made := by
    by_contra late
    have unborn := owned.unborn j (Nat.le_of_not_lt late)
    rw [live] at unborn
    cases unborn
  refine List.mem_filter.mpr ⟨List.mem_range.mpr early, ?_⟩
  rw [within, decide_eq_true other, decide_eq_true live]
  rfl

theorem Unjoined.step (unjoined : Unjoined s) (orderly : Orderly s) (sound : Sound s)
    (allowed : inTurn s a) (stepped : Scopes.step s a = some t) : Unjoined t := by
  have lasts := allowed.2
  have sound' := sound.step lasts stepped
  have grows := sound.grows stepped
  have under {j p : Nat} (descends : s.Under j p) : t.Under j p :=
    descends.lift id fun _ _ parent => parent_same sound.fits stepped parent
  intro k ended j live within
  -- a scope that was alive before lay within the other one
  have back (before : s.phase j = .live) (made : (s.phase k).made = true) :
      isWithin s.slots (s.raw j) (s.raw k) = true := by
    have madeJ : (s.phase j).made = true := by
      rw [before]
      rfl
    rw [grows.raw j madeJ, grows.raw k made] at within
    exact sound.isWithin_back lasts stepped (.inr ⟨j, madeJ, rfl⟩) within
  rcases ended_before stepped ended with endedBefore | rfl
  · rw [outlived_same stepped endedBefore]
    rcases live_before sound stepped live with before | invalid | ⟨rfl, i, here⟩
    · obtain ⟨p, mem, descends⟩ :=
        unjoined k endedBefore j before (back before (made_of_ended endedBefore))
      exact ⟨p, mem, under descends⟩
    · rw [invalid, isWithin_none] at within
      cases within
    · -- the parent of the new scope is alive
      obtain ⟨free, owned⟩ := sound.owned
      have stillParent : t.parent j = s.parent j ∧ t.slots = s.slots ∧
          t.raw j = tokenOf s.slots i := by
        simp only [Scopes.step, Scopes.advance] at stepped
        rw [here] at stepped
        cases stepped
        exact ⟨rfl, rfl, Function.update_self _ _ _⟩
      have valid : t.raw j ≠ kNone := by
        rw [stillParent.2.2]
        exact tokenOf_ne (owned.small_of_held (slotOf_busy here rfl))
      have other : t.raw j ≠ t.raw k := by
        intro same
        obtain rfl := sound'.dated.single j k (by rw [live]; rfl) (made_of_ended ended) valid same
        rw [live] at ended
        cases ended
      obtain ⟨q, parent, withinQ⟩ := isWithin_new sound'.fits ⟨live, valid⟩ other within
      have alive := orderly.parents j q (by rw [here]; rfl) (stillParent.1.symm.trans parent)
      rw [stillParent.2.1, grows.raw q (by rw [alive]; rfl),
        grows.raw k (made_of_ended endedBefore)] at withinQ
      obtain ⟨p, mem, descends⟩ := unjoined k endedBefore q alive withinQ
      exact ⟨p, mem, (under descends).head parent⟩
  · simp only [Scopes.step] at stepped
    split at stepped
    · rename_i liveK
      have madeK : (s.phase k).made = true := by
        rw [liveK]
        rfl
      have other : j ≠ k := by
        rintro rfl
        rw [live] at ended
        cases ended
      have before : s.phase j = .live := by
        rcases live_before sound (a := .destroy k)
          (by rw [Scopes.step, if_pos liveK]; exact stepped) live with before | invalid | ⟨absurd, -⟩
        · exact before
        · rw [invalid, isWithin_none] at within
          cases within
        · cases absurd
      have joinedBefore := back before madeK
      refine ⟨j, ?_, .refl⟩
      cases stepped
      unfold State.destroy
      split
      · rename_i invalid
        rw [invalid] at joinedBefore
        unfold isWithin at joinedBefore
        rw [if_pos rfl] at joinedBefore
        cases joinedBefore
      · simp only [Function.update_self]
        obtain ⟨free, owned⟩ := sound.owned
        exact mem_liveWithin owned before other joinedBefore
    · cases stepped

structure Settles (s : State) : Prop where
  sound : Sound s
  orderly : Orderly s
  unjoined : Unjoined s

theorem initial_settles : Settles initial where
  sound := initial_sound
  orderly := {
    lone := fun j k absurd => by cases absurd
    parents := fun j p absurd => by cases absurd }
  unjoined k absurd := by cases absurd

theorem settles_of_reach (reach : Reach step inTurn initial s) : Settles s := by
  refine reach.invariant initial_settles fun settles allowed stepped => ?_
  exact {
    sound := settles.sound.step allowed.2 stepped
    orderly := settles.orderly.step settles.sound allowed stepped
    unjoined := settles.unjoined.step settles.orderly settles.sound allowed stepped }

/-- The token is dead: it reads as not cancelled and cancels nothing, and a live scope lies within it
only under one that did so when its scope ended. -/
structure StaysDead (s : State) (k : Nat) : Prop where
  cancelled : Cancel.cancelled s.slots (s.raw k) = false
  cancelVia : Cancel.cancelVia s.slots (s.raw k) = (s.slots, false)
  unjoined : ∀ j, s.phase j = .live → isWithin s.slots (s.raw j) (s.raw k) = true →
    ∃ p ∈ s.outlived k, s.Under j p

theorem Dated.stale (dated : Dated s) (ended : (s.phase k).ended = true) :
    Cancel.cancelled s.slots (s.raw k) = false ∧
      Cancel.cancelVia s.slots (s.raw k) = (s.slots, false) := by
  rcases eq_or_ne (s.raw k) kNone with none | valid
  · rw [none]
    exact ⟨rfl, rfl⟩
  · have older := dated.ended k ended valid
    have stale : (s.slots (index (s.raw k))).genOf ≠ gen (s.raw k) := by
      rw [dated.genOf]
      exact older.ne'
    constructor
    · unfold Cancel.cancelled
      rw [show kMaxScopeDepth = 7 + 1 from rfl, cancelledFrom, if_neg valid, if_pos stale]
      exact ite_self _
    · unfold Cancel.cancelVia
      rw [if_neg valid, if_pos stale]
      exact ite_self _

/-- As long as no slot comes to its last generation, the token of a scope that has ended is
dead. -/
theorem stale_dead (reach : Reach step inTurn initial s) (ended : (s.phase k).ended = true) :
    StaysDead s k := by
  have settles := settles_of_reach reach
  obtain ⟨cancelled, cancelVia⟩ := settles.sound.dated.stale ended
  exact ⟨cancelled, cancelVia, settles.unjoined k ended⟩

/-- Scope 1 is made with the token of scope 0 and outlives it, and scope 2 is made with its token, in
the slot of scope 0.  Scope 3 ends with none within it, and scope 4 gets its slot. -/
def orphanLabels : List Label :=
  [.create none, .advance 0, .advance 0, .create (some 0), .advance 1, .advance 1, .advance 1,
    .destroy 0, .advance 0, .advance 0, .create (some 1), .advance 2, .advance 2, .advance 2,
    .create none, .advance 3, .advance 3, .destroy 3, .advance 3, .advance 3,
    .create none, .advance 4, .advance 4]

def orphan : State := (run step inTurn initial orphanLabels).getD initial

theorem orphan_reached : Reach step inTurn initial orphan :=
  Reach.of_isSome orphanLabels (by decide +kernel)

theorem orphan_dead : (orphan.outlived 0 = [1] ∧ index (orphan.raw 2) = index (orphan.raw 0) ∧
      orphan.outlived 3 = [] ∧ index (orphan.raw 4) = index (orphan.raw 3)) ∧
    StaysDead orphan 0 ∧ StaysDead orphan 3 :=
  ⟨by decide +kernel, stale_dead orphan_reached (by decide +kernel),
    stale_dead orphan_reached (by decide +kernel)⟩

/-! ## A slot that is used again and again -/

/-- One operation follows the other, and no slot but `i` is written. -/
def onlySlot (i : Nat) (s : State) (a : Label) : Prop :=
  oneByOne s a ∧ ∀ t, step s a = some t → ∀ j, j ≠ i → t.slots j = s.slots j

/-- Since `s` a scope is made in slot `i`, or ends. -/
structure Round (s t : State) (i : Nat) (phase : Phase) (generation : Nat) : Prop where
  reach : Reach step (onlySlot i) s t
  here : t.phase s.made = phase
  others : ∀ k, k ≠ s.made → t.phase k = s.phase k ∧ t.raw k = s.raw k
  made : t.made = s.made + 1
  generation : (t.slots i).generation = generation

variable {u : State} {n generation generation' : Nat} {phase phase' : Phase}

/-- The scope takes its next step. -/
theorem Round.next (round : Round s t i phase generation) (allowed : oneByOne t a)
    (stepped : step t a = some u) (moved : u.phase = Function.update t.phase s.made phase')
    (made : u.made = t.made) (raw : ∀ k, k ≠ s.made → u.raw k = t.raw k)
    (slots : ∀ j, j ≠ i → u.slots j = t.slots j)
    (counted : (u.slots i).generation = generation') : Round s u i phase' generation' where
  reach := by
    refine round.reach.next ⟨allowed, fun u' stepped' => ?_⟩ stepped
    cases stepped.symm.trans stepped'
    exact slots
  here := by rw [moved, Function.update_self]
  others k other := by
    rw [moved, Function.update_of_ne other, raw k other]
    exact round.others k other
  made := made.trans round.made
  generation := counted

theorem create_round (rests : ∀ k, (s.phase k).atRest = true) (free : s.freeHead = some i)
    (generation : (s.slots i).generation = n) : ∃ t, Round s t i (.storing i kNone) n := by
  have stepped : step s (.create none) = some (s.create none) := by
    rw [step, if_pos]
    intro p absurd
    cases absurd
  have slots : (s.create none).slots = s.slots := by
    unfold State.create
    rw [free]
    rfl
  have allowed : onlySlot i s (.create none) := by
    refine ⟨fun k _ => rests k, fun t stepped' j _ => ?_⟩
    cases stepped.symm.trans stepped'
    rw [slots]
  refine ⟨s.create none, Reach.start.next allowed stepped, ?_, fun k other => ?_, ?_, ?_⟩
  all_goals
    unfold State.create
    rw [free]
    simp only [State.go, firstPhase]
  · exact Function.update_self _ _ _
  · exact ⟨Function.update_of_ne other _ _, trivial⟩
  · exact generation

theorem Round.writes {p q : Phase} (round : Round s t i p n)
    (stepped : step t (.advance s.made) =
      some ((t.go s.made q).write i { t.slots i with parent := kNone })) :
    ∃ u, Round s u i q n := by
  refine ⟨_, round.next (a := .advance s.made) trivial stepped rfl rfl (fun _ _ => rfl)
    (fun _ other => Function.update_of_ne other _ _) ?_⟩
  simp only [State.write, Function.update_self]
  exact round.generation

theorem Round.store (round : Round s t i (.storing i kNone) n) : ∃ u, Round s u i (.reading i) n :=
  round.writes (by simp only [step, advance]; rw [round.here])

theorem Round.read (round : Round s t i (.reading i) n) :
    ∃ u, Round s u i .live n ∧ u.raw s.made = tokenOf u.slots i := by
  have stepped : step t (.advance s.made) = some { t.go s.made .live with
      raw := Function.update t.raw s.made (tokenOf t.slots i) } := by
    simp only [step, advance]
    rw [round.here]
  exact ⟨_, round.next (a := .advance s.made) trivial stepped rfl rfl
    (fun _ other => Function.update_of_ne other _ _) (fun _ _ => rfl) round.generation,
    Function.update_self _ _ _⟩

theorem Round.destroy (round : Round s t i .live n) (rests : ∀ k, (s.phase k).atRest = true)
    (inTable : i < kCancelSlots) (raw : t.raw s.made = tokenOf t.slots i)
    (small : n + 1 < 2 ^ 32) : ∃ u, Round s u i (.clearing i) (n + 1) := by
  have allowed : oneByOne t (.destroy s.made) := by
    intro k _
    rcases eq_or_ne k s.made with rfl | other
    · rw [round.here]
      rfl
    · rw [(round.others k other).1]
      exact rests k
  have valid : t.raw s.made ≠ kNone := by
    rw [raw]
    exact tokenOf_ne inTable
  have slot : index (t.raw s.made) = i := by
    rw [raw]
    exact index_tokenOf inTable
  have stepped : step t (.destroy s.made) = some (t.destroy s.made) := by
    rw [step, if_pos round.here]
  refine ⟨_, round.next allowed stepped ?_ ?_ ?_ ?_ ?_⟩
  all_goals
    unfold State.destroy
    simp only [if_neg valid, slot]
  · rfl
  · rfl
  · exact fun _ _ => rfl
  · exact fun _ other => Function.update_of_ne other _ _
  · simp only [State.write, Function.update_self, nextUse, State.go, round.generation]
    exact Nat.mod_eq_of_lt small

theorem Round.clear (round : Round s t i (.clearing i) n) : ∃ u, Round s u i (.releasing i) n :=
  round.writes (by simp only [step, advance]; rw [round.here])

theorem Round.release (round : Round s t i (.releasing i) n) :
    ∃ u, Round s u i .gone n ∧ u.freeHead = some i := by
  have stepped : step t (.advance s.made) = some { t.go s.made .gone with
      nextFree := Function.update t.nextFree i t.freeHead
      freeHead := some i } := by
    simp only [step, advance]
    rw [round.here]
  exact ⟨_, round.next (a := .advance s.made) trivial stepped rfl rfl (fun _ _ => rfl)
    (fun _ _ => rfl) round.generation, rfl⟩

/-- Since `s` there were `n` scopes in slot `i`, one after the other. -/
structure Worn (s t : State) (i n : Nat) : Prop where
  reach : Reach step (onlySlot i) s t
  rests : ∀ k, (t.phase k).atRest = true
  freeHead : t.freeHead = some i
  generation : (t.slots i).generation = (s.slots i).generation + n
  made : s.made ≤ t.made
  others : ∀ k < s.made, t.phase k = s.phase k ∧ t.raw k = s.raw k

theorem Worn.round (worn : Worn s t i n) (inTable : i < kCancelSlots)
    (small : (s.slots i).generation + n + 1 < 2 ^ 32) : ∃ u, Worn s u i (n + 1) := by
  obtain ⟨_, created⟩ := create_round worn.rests worn.freeHead worn.generation
  obtain ⟨_, stored⟩ := created.store
  obtain ⟨_, read, raw⟩ := stored.read
  obtain ⟨_, destroyed⟩ := read.destroy worn.rests inTable raw small
  obtain ⟨_, cleared⟩ := destroyed.clear
  obtain ⟨u, released, freeHead⟩ := cleared.release
  have made := worn.made
  refine ⟨u, worn.reach.trans released.reach, fun k => ?_, freeHead, released.generation, ?_,
    fun k before => ?_⟩
  · rcases eq_or_ne k t.made with rfl | other
    · rw [released.here]
      rfl
    · rw [(released.others k other).1]
      exact worn.rests k
  · rw [released.made]
    omega
  · obtain ⟨phase, raw⟩ := released.others k (by omega)
    rw [phase, raw]
    exact worn.others k before

/-- A slot may be used any number of times. -/
theorem worn_of_lt (rests : ∀ k, (s.phase k).atRest = true) (free : s.freeHead = some i)
    (inTable : i < kCancelSlots) (small : (s.slots i).generation + n < 2 ^ 32) :
    ∃ t, Worn s t i n := by
  induction n with
  | zero => exact ⟨s, .start, rests, free, rfl, Nat.le_refl _, fun _ _ => ⟨rfl, rfl⟩⟩
  | succ n ih =>
    obtain ⟨t, worn⟩ := ih (by omega)
    exact worn.round inTable small

/-- The other slots are as before. -/
theorem slots_of_onlySlot (reach : Reach step (onlySlot i) s t) (other : j ≠ i) :
    t.slots j = s.slots j := by
  induction reach with
  | start => rfl
  | next _ allowed stepped ih => exact (allowed.2 _ stepped j other).trans ih

/-- A scope has come and gone. -/
def onceLabels : List Label :=
  [.create none, .advance 0, .advance 0, .destroy 0, .advance 0, .advance 0]

def once : State := (run step oneByOne initial onceLabels).getD initial

theorem once_reached : Reach step oneByOne initial once :=
  Reach.of_isSome onceLabels (by decide +kernel)

theorem once_rests (k : Nat) : (once.phase k).atRest = true := by
  obtain ⟨free, owned⟩ := owned_of_reach (once_reached.weaken fun _ => trivial)
  have rests : once.allAtRest := by decide +kernel
  rcases Nat.lt_or_ge k once.made with before | after
  · exact rests k before
  · rw [owned.unborn k after]
    rfl

/-- After `2 ^ 16` scopes in the same slot the token of the first one cancels the next one, and a
scope that outlives the one it was made with lies within it. -/
theorem stale_revived :
    (∃ s, Reach step oneByOne initial s ∧ s.phase 0 = .gone ∧
      (Cancel.cancelVia s.slots (s.raw 0)).2 = true) ∧
    ∃ s, Reach step oneByOne initial s ∧ s.phase 0 = .gone ∧ s.phase 1 = .live ∧
      isWithin s.slots (s.raw 1) (s.raw 0) = true := by
  constructor
  · have first : (once.slots 0).generation = 1 := by decide +kernel
    obtain ⟨s, worn⟩ := worn_of_lt (i := 0) (n := 2 ^ 16 - 1) once_rests (by decide +kernel)
      (by decide) (by rw [first]; omega)
    obtain ⟨phase, raw⟩ := worn.others 0 (by decide +kernel)
    rw [show once.raw 0 = 0 by decide +kernel] at raw
    refine ⟨s, once_reached.trans (worn.reach.weaken And.left), ?_, ?_⟩
    · rw [phase]
      decide +kernel
    · have current : (s.slots (index (s.raw 0))).genOf = gen (s.raw 0) := by
        rw [raw, show index 0 = 0 from rfl]
        unfold Slot.genOf
        rw [worn.generation, first]
        rfl
      rw [cancelVia_marks (by rw [raw]; decide) (by rw [raw]; decide) current]
  · exact ⟨orphan, (Reach.of_isSome orphanLabels (by decide +kernel)).weaken And.left,
      by decide +kernel, by decide +kernel, by decide +kernel⟩

end JLibSched.Scopes
