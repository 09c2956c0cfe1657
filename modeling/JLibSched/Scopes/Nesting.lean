import JLibSched.Scopes.Slots

/-!
# Nested scopes

A live scope holds a slot with its generation, the token of its parent, and its cancelled bit
(`Fit`).  So the walks of `Cancelled` and `IsWithin` go from a scope to the one it was made with, as
long as both are alive, and end after `kMaxScopeDepth` scopes.
-/

namespace JLibSched.Scopes

open Transition Cancel Links

variable {s t : State} {a : Label} {free : List Nat} {i j k p : Nat}

/-- The token that goes into the slot as the parent. -/
def State.parentRaw (s : State) (k : Nat) : Nat :=
  match s.parent k with
  | some p => s.raw p
  | none => kNone

/-- The parent was looked up. -/
def Phase.resolved : Phase → Bool
  | .storing _ _ | .reading _ | .live => true
  | .unborn | .resolving _ _ | .clearing _ | .releasing _ | .gone => false

/-- The parent stands in the slot. -/
def Phase.stored : Phase → Bool
  | .reading _ | .live => true
  | .unborn | .resolving _ _ | .storing _ _ | .clearing _ | .releasing _ | .gone => false

/-- The parent was not looked up yet. -/
def Phase.unresolved : Phase → Bool
  | .unborn | .resolving _ _ => true
  | .storing _ _ | .reading _ | .live | .clearing _ | .releasing _ | .gone => false

/-- What a scope knows about its slot and its parent. -/
structure Fit (s : State) (k : Nat) : Prop where
  inTable : (s.phase k).made = true → s.raw k ≠ kNone → index (s.raw k) < kCancelSlots
  current : ∀ i, s.slotOf k = some i → s.phase k = .live → (s.slots i).genOf = gen (s.raw k)
  older : ∀ p, s.within k = some p → p < k ∧ (s.phase p).made = true
  resolving : ∀ i v, s.phase k = .resolving i v → ∃ p, s.within k = some p ∧ v = s.raw p
  unresolved : (s.phase k).unresolved = true → s.parent k = none
  parent : ∀ p, s.parent k = some p → s.within k = some p
  storing : ∀ i v, s.phase k = .storing i v → v = s.parentRaw k
  stored : ∀ i, s.slotOf k = some i → (s.phase k).stored = true →
    (s.slots i).parent = s.parentRaw k
  found : ∀ i p, s.slotOf k = some i → (s.phase k).resolved = true → s.within k = some p →
    s.phase p = .live → s.raw p ≠ kNone → s.parent k = some p
  asked : s.asked k = true → (s.phase k).made = true
  bit : ∀ i, s.slotOf k = some i → s.phase k = .live → s.asked k = true →
    (s.slots i).cancelled = true

theorem Fit.unasked (fit : Fit s k) (unmade : (s.phase k).made = false) : s.asked k = false := by
  by_contra asked
  have made := fit.asked (Bool.eq_true_of_not_eq_false asked)
  rw [unmade] at made
  cases made

theorem initial_fit (k : Nat) : Fit initial k where
  inTable absurd := by cases absurd
  current i absurd := by cases absurd
  older p absurd := by cases absurd
  resolving i v absurd := by cases absurd
  unresolved _ := rfl
  parent p absurd := by cases absurd
  storing i v absurd := by cases absurd
  stored i absurd := by cases absurd
  found i p absurd := by cases absurd
  asked absurd := by cases absurd
  bit i absurd := by cases absurd

/-! ## Steps of other scopes -/

/-- Scopes that were made keep their tokens, and none comes back. -/
structure Grows (s t : State) : Prop where
  made : ∀ p, (s.phase p).made = true → (t.phase p).made = true
  raw : ∀ p, (s.phase p).made = true → t.raw p = s.raw p
  live : ∀ p, (s.phase p).made = true → t.phase p = .live → s.phase p = .live
  ended : ∀ p, (s.phase p).ended = true → (t.phase p).ended = true

theorem Grows.refl (phase : t.phase = s.phase) (raw : t.raw = s.raw) : Grows s t where
  made p made := phase ▸ made
  raw p _ := by rw [raw]
  live p _ live := by rwa [phase] at live
  ended p ended := phase ▸ ended

theorem made_of_ended {phase : Phase} (ended : phase.ended = true) : phase.made = true := by
  cases phase with
  | clearing | releasing | gone => rfl
  | unborn | resolving | storing | reading | live => cases ended

/-- A constructor goes on. -/
theorem Grows.builds {phase : Phase} (moved : t.phase = Function.update s.phase k phase)
    (unmade : (s.phase k).made = false)
    (raw : ∀ p, p ≠ k → t.raw p = s.raw p) : Grows s t := by
  have other {p : Nat} (made : (s.phase p).made = true) : p ≠ k := by
    rintro rfl
    rw [made] at unmade
    cases unmade
  constructor
  case made =>
    intro p made
    rwa [moved, Function.update_of_ne (other made)]
  case raw => exact fun p made => raw p (other made)
  case live =>
    intro p made live
    rwa [moved, Function.update_of_ne (other made)] at live
  case ended =>
    intro p ended
    rwa [moved, Function.update_of_ne (other (made_of_ended ended))]

/-- A destructor goes on. -/
theorem Grows.ends {phase : Phase} (moved : t.phase = Function.update s.phase k phase)
    (ended : phase.ended = true) (raw : t.raw = s.raw) : Grows s t where
  made p here := by
    rw [moved]
    rcases eq_or_ne p k with rfl | other
    · rw [Function.update_self]
      exact made_of_ended ended
    · rwa [Function.update_of_ne other]
  raw p _ := by rw [raw]
  live p here live := by
    rw [moved] at live
    rcases eq_or_ne p k with rfl | other
    · rw [Function.update_self] at live
      rw [live] at ended
      cases ended
    · rwa [Function.update_of_ne other] at live
  ended p here := by
    rw [moved]
    rcases eq_or_ne p k with rfl | other
    · rwa [Function.update_self]
    · rwa [Function.update_of_ne other]

theorem Grows.create (owned : Owned s free) (parent : Option Nat) : Grows s (s.create parent) := by
  have unmade : (s.phase s.made).made = false := by
    rw [owned.unborn s.made (Nat.le_refl _)]
    rfl
  unfold State.create
  cases s.freeHead with
  | none => exact .builds rfl unmade fun _ _ => rfl
  | some i => exact .builds rfl unmade fun _ _ => rfl

theorem Grows.destroy : Grows s (s.destroy k) := by
  unfold State.destroy
  split
  · exact .ends rfl rfl rfl
  · exact .ends rfl rfl rfl

theorem Grows.advance (stepped : advance s k = some t) : Grows s t := by
  have unmade {phase : Phase} (here : s.phase k = phase) (building : phase.made = false) :
      (s.phase k).made = false := by
    rw [here]
    exact building
  unfold Scopes.advance at stepped
  cases here : s.phase k with
  | unborn | live | gone =>
    rw [here] at stepped
    cases stepped
  | resolving i parent =>
    rw [here] at stepped
    simp only at stepped
    split at stepped
    · cases stepped
      exact .builds rfl (unmade here rfl) fun _ _ => rfl
    · cases stepped
      exact .builds rfl (unmade here rfl) fun _ _ => rfl
  | storing i parent =>
    rw [here] at stepped
    cases stepped
    exact .builds rfl (unmade here rfl) fun _ _ => rfl
  | reading i =>
    rw [here] at stepped
    cases stepped
    exact .builds rfl (unmade here rfl) fun p other => Function.update_of_ne other _ _
  | clearing i | releasing i =>
    rw [here] at stepped
    cases stepped
    exact .ends rfl rfl rfl

theorem Grows.step (owned : Owned s free) (stepped : step s a = some t) : Grows s t := by
  cases a with
  | advance k => exact .advance stepped
  | create parent =>
    simp only [Scopes.step] at stepped
    split at stepped
    · cases stepped
      exact .create owned parent
    · cases stepped
  | destroy k =>
    simp only [Scopes.step] at stepped
    split at stepped
    · cases stepped
      exact .destroy
    · cases stepped
  | cancel k =>
    simp only [Scopes.step] at stepped
    split at stepped
    · cases stepped
      unfold State.cancel
      split
      · exact .refl rfl rfl
      · exact .refl rfl rfl
    · cases stepped
  | cancelVia k =>
    simp only [Scopes.step] at stepped
    split at stepped
    · cases stepped
      exact .refl rfl rfl
    · cases stepped

/-- What a step does not change about a scope. -/
structure Beside (s t : State) (j : Nat) : Prop where
  phase : t.phase j = s.phase j
  raw : t.raw j = s.raw j
  within : t.within j = s.within j
  parent : t.parent j = s.parent j
  slot : ∀ i, s.slotOf j = some i → (s.slots i).Keeps (t.slots i)

/-- A parent that was looked up keeps its token. -/
theorem Fit.parentRaw_eq (fit : Fit s k) (grows : Grows s t) (parent : t.parent k = s.parent k) :
    t.parentRaw k = s.parentRaw k := by
  unfold State.parentRaw
  rw [parent]
  cases here : s.parent k with
  | none => rfl
  | some p => exact grows.raw p (fit.older p (fit.parent p here)).2

theorem Fit.keep (fit : Fit s j) (grows : Grows s t) (beside : Beside s t j)
    (asked : t.asked j = true → (s.phase j).made = true)
    (bit : ∀ i, s.slotOf j = some i → s.phase j = .live → t.asked j = true →
      (t.slots i).cancelled = true) : Fit t j := by
  have slotOf := slotOf_congr beside.phase beside.raw
  have parentRaw := fit.parentRaw_eq grows beside.parent
  constructor
  case inTable =>
    rw [beside.phase, beside.raw]
    exact fit.inTable
  case current =>
    intro i held
    rw [slotOf] at held
    rw [beside.phase, beside.raw, (beside.slot i held).generation]
    exact fit.current i held
  case older =>
    intro p made
    rw [beside.within] at made
    obtain ⟨less, before⟩ := fit.older p made
    exact ⟨less, grows.made p before⟩
  case resolving =>
    intro i v here
    rw [beside.phase] at here
    obtain ⟨p, made, same⟩ := fit.resolving i v here
    refine ⟨p, by rw [beside.within]; exact made, ?_⟩
    rw [grows.raw p (fit.older p made).2]
    exact same
  case unresolved =>
    rw [beside.phase, beside.parent]
    exact fit.unresolved
  case parent =>
    rw [beside.parent, beside.within]
    exact fit.parent
  case storing =>
    rw [beside.phase, parentRaw]
    exact fit.storing
  case stored =>
    intro i held
    rw [slotOf] at held
    rw [beside.phase, parentRaw, (beside.slot i held).parent]
    exact fit.stored i held
  case found =>
    intro i p held resolved within live valid
    rw [slotOf] at held
    rw [beside.phase] at resolved
    rw [beside.within] at within
    obtain ⟨-, made⟩ := fit.older p within
    rw [grows.raw p made] at valid
    rw [beside.parent]
    exact fit.found i p held resolved within (grows.live p made live) valid
  case asked =>
    rw [beside.phase]
    exact asked
  case bit =>
    intro i held live
    rw [slotOf] at held
    rw [beside.phase] at live
    exact bit i held live

theorem Fit.beside (fit : Fit s j) (grows : Grows s t) (beside : Beside s t j)
    (asked : t.asked j = s.asked j) : Fit t j := by
  refine fit.keep grows beside ?_ fun i held live asks => ?_
  · rw [asked]
    exact fit.asked
  · rw [asked] at asks
    exact (beside.slot i held).cancelled (fit.bit i held live asks)

theorem keeps_refl (slot : Slot) : slot.Keeps slot := ⟨rfl, rfl, id⟩

/-- The slot that is written belongs to another scope. -/
theorem Owned.keeps (owned : Owned s free) (held : s.slotOf k = some i) (other : j ≠ k)
    {slot : Slot} (written : t.slots = Function.update s.slots i slot) (i' : Nat)
    (mine : s.slotOf j = some i') : (s.slots i').Keeps (t.slots i') := by
  rw [written, Function.update_of_ne]
  · exact keeps_refl _
  · rintro rfl
    exact other (owned.single j k i' mine held)

/-! ## Steps of the scope -/

/-- A scope that has ended. -/
theorem Fit.ends (fit : Fit s k) (grows : Grows s t) (made : (s.phase k).made = true)
    (ended : (t.phase k).ended = true) (within : t.within k = s.within k)
    (parent : t.parent k = s.parent k) : Fit t k := by
  have notLive : t.phase k ≠ .live := by
    intro live
    rw [live] at ended
    cases ended
  have raw := grows.raw k made
  constructor
  case inTable =>
    rw [raw]
    exact fun _ => fit.inTable made
  case current => exact fun i held live => absurd live notLive
  case older =>
    intro p here
    rw [within] at here
    obtain ⟨less, before⟩ := fit.older p here
    exact ⟨less, grows.made p before⟩
  case resolving =>
    intro i v here
    rw [here] at ended
    cases ended
  case unresolved =>
    intro unresolved
    cases here : t.phase k with
    | unborn | resolving =>
      rw [here] at ended
      cases ended
    | storing | reading | live | clearing | releasing | gone =>
      rw [here] at unresolved
      cases unresolved
  case parent =>
    rw [parent, within]
    exact fit.parent
  case storing =>
    intro i v here
    rw [here] at ended
    cases ended
  case stored =>
    intro i held stored
    cases here : t.phase k with
    | reading | live =>
      rw [here] at ended
      cases ended
    | unborn | resolving | storing | clearing | releasing | gone =>
      rw [here] at stored
      cases stored
  case found =>
    intro i p held resolved
    cases here : t.phase k with
    | storing | reading | live =>
      rw [here] at ended
      cases ended
    | unborn | resolving | clearing | releasing | gone =>
      rw [here] at resolved
      cases resolved
  case asked => exact fun _ => made_of_ended ended
  case bit => exact fun i held live => absurd live notLive

/-- What is left to show of a scope whose constructor is under way. -/
structure Builds (s : State) (k : Nat) : Prop where
  unmade : (s.phase k).made = false
  asked : s.asked k = false
  older : ∀ p, s.within k = some p → p < k ∧ (s.phase p).made = true
  parent : ∀ p, s.parent k = some p → s.within k = some p

theorem Builds.fit (builds : Builds s k)
    (resolving : ∀ i v, s.phase k = .resolving i v →
      s.parent k = none ∧ ∃ p, s.within k = some p ∧ v = s.raw p)
    (born : s.phase k ≠ .unborn)
    (storing : ∀ i v, s.phase k = .storing i v → v = s.parentRaw k)
    (stored : ∀ i, s.phase k = .reading i → (s.slots i).parent = s.parentRaw k)
    (found : ∀ p, (s.phase k).resolved = true → s.within k = some p → s.phase p = .live →
      s.raw p ≠ kNone → s.parent k = some p) : Fit s k := by
  have notMade {P : Prop} (made : (s.phase k).made = true) : P := by
    rw [builds.unmade] at made
    cases made
  have notLive {P : Prop} (live : s.phase k = .live) : P :=
    notMade (by rw [live]; rfl)
  constructor
  case inTable => exact notMade
  case current => exact fun i held => notLive
  case older => exact builds.older
  case resolving => exact fun i v here => (resolving i v here).2
  case unresolved =>
    intro unresolved
    cases here : s.phase k with
    | unborn => exact absurd here born
    | resolving i v => exact (resolving i v here).1
    | storing | reading | live | clearing | releasing | gone =>
      rw [here] at unresolved
      cases unresolved
  case parent => exact builds.parent
  case storing => exact storing
  case stored =>
    intro i held here
    cases phase : s.phase k with
    | live => exact notLive phase
    | reading i' =>
      cases held.symm.trans (slotOf_busy phase (i := i') rfl)
      exact stored i phase
    | unborn | resolving | storing | clearing | releasing | gone =>
      rw [phase] at here
      cases here
  case found => exact fun i p _ => found p
  case asked =>
    intro asked
    rw [builds.asked] at asked
    cases asked
  case bit => exact fun i held => notLive

theorem parentRaw_none (none : s.parent k = none) : s.parentRaw k = kNone := by
  unfold State.parentRaw
  rw [none]

theorem parentRaw_some (some' : s.parent k = some p) : s.parentRaw k = s.raw p := by
  unfold State.parentRaw
  rw [some']

/-- A scope that holds no slot. -/
theorem Fit.invalid (older : ∀ p, s.within k = some p → p < k ∧ (s.phase p).made = true)
    (live : s.phase k = .live) (invalid : s.raw k = kNone) (parent : s.parent k = none) :
    Fit s k := by
  have noSlot := slotOf_invalid live invalid
  have notHeld {P : Prop} {i : Nat} (held : s.slotOf k = some i) : P := by
    cases noSlot.symm.trans held
  constructor
  case inTable => exact fun _ valid => absurd invalid valid
  case current => exact fun i held => notHeld held
  case older => exact older
  case resolving =>
    intro i v here
    cases live.symm.trans here
  case unresolved => exact fun _ => parent
  case parent =>
    intro p here
    cases parent.symm.trans here
  case storing =>
    intro i v here
    cases live.symm.trans here
  case stored => exact fun i held => notHeld held
  case found => exact fun i p held => notHeld held
  case asked =>
    intro _
    rw [live]
    rfl
  case bit => exact fun i held => notHeld held

/-- A scope that has just taken its slot. -/
theorem Fit.first {parent : Option Nat} (here : t.phase k = firstPhase s i parent)
    (within : t.within k = parent) (noParent : t.parent k = none) (unasked : t.asked k = false)
    (older : ∀ p, t.within k = some p → p < k ∧ (t.phase p).made = true) (raw : t.raw = s.raw) :
    Fit t k := by
  have builds : Builds t k := {
    unmade := by
      rw [here]
      exact firstPhase_made
    asked := unasked
    older := older
    parent := by
      intro p absurd
      cases noParent.symm.trans absurd }
  cases parent with
  | none =>
    replace here : t.phase k = .storing i kNone := here
    refine builds.fit ?_ ?_ ?_ ?_ ?_
    · intro i' v absurd
      cases here.symm.trans absurd
    · rw [here]
      exact fun absurd => by cases absurd
    · intro i' v same
      cases here.symm.trans same
      exact (parentRaw_none noParent).symm
    · intro i' absurd
      cases here.symm.trans absurd
    · intro p _ absurd
      cases within.symm.trans absurd
  | some q =>
    replace here : t.phase k = .resolving i (s.raw q) := here
    refine builds.fit ?_ ?_ ?_ ?_ ?_
    · intro i' v same
      cases here.symm.trans same
      exact ⟨noParent, q, within, by rw [raw]⟩
    · rw [here]
      exact fun absurd => by cases absurd
    · intro i' v absurd
      cases here.symm.trans absurd
    · intro i' absurd
      cases here.symm.trans absurd
    · intro p absurd
      rw [here] at absurd
      cases absurd

theorem Fit.create_self (owned : Owned s free) (fit : Fit s s.made) (parent : Option Nat)
    (has : s.has parent) : Fit (s.create parent) s.made := by
  have grows := Grows.create owned parent
  have fresh := owned.unborn s.made (Nat.le_refl _)
  have unmade : (s.phase s.made).made = false := by
    rw [fresh]
    rfl
  have noParent : s.parent s.made = none := fit.unresolved (by rw [fresh]; rfl)
  have unasked := fit.unasked unmade
  have older {t : State} (grows : Grows s t) (p : Nat)
      (within : Function.update s.within s.made parent s.made = some p) :
      p < s.made ∧ (t.phase p).made = true := by
    rw [Function.update_self] at within
    have made := has p within
    refine ⟨?_, grows.made p made⟩
    by_contra late
    rw [owned.unborn p (Nat.le_of_not_lt late)] at made
    cases made
  unfold State.create at grows ⊢
  cases head : s.freeHead with
  | none =>
    rw [head] at grows
    exact Fit.invalid (older grows) (Function.update_self _ _ _)
      (owned.blank s.made unmade) noParent
  | some i =>
    rw [head] at grows
    exact Fit.first (s := s) (i := i) (Function.update_self _ _ _) (Function.update_self _ _ _)
      noParent unasked (older grows) rfl

theorem Beside.create (j : Nat) (parent : Option Nat) (other : j ≠ s.made) :
    Beside s (s.create parent) j := by
  have within : Function.update s.within s.made parent j = s.within j :=
    Function.update_of_ne other _ _
  unfold State.create
  cases s.freeHead with
  | none =>
    exact ⟨Function.update_of_ne other _ _, rfl, within, rfl, fun _ _ => keeps_refl _⟩
  | some i =>
    exact ⟨Function.update_of_ne other _ _, rfl, within, rfl, fun _ _ => keeps_refl _⟩

theorem fit_create (owned : Owned s free) (fits : ∀ j, Fit s j) (parent : Option Nat)
    (has : s.has parent) (j : Nat) : Fit (s.create parent) j := by
  rcases eq_or_ne j s.made with rfl | other
  · exact (fits s.made).create_self owned parent has
  · refine (fits j).beside (.create owned parent) (.create j parent other) ?_
    unfold State.create
    cases s.freeHead with
    | none => rfl
    | some i => rfl

theorem fit_destroy (owned : Owned s free) (fits : ∀ j, Fit s j) (live : s.phase k = .live)
    (j : Nat) : Fit (s.destroy k) j := by
  have grows := Grows.destroy (s := s) (k := k)
  have made : (s.phase k).made = true := by
    rw [live]
    rfl
  unfold State.destroy at grows ⊢
  split at grows
  · rename_i invalid
    rw [if_pos invalid]
    rcases eq_or_ne j k with rfl | other
    · refine (fits j).ends grows made ?_ rfl rfl
      simp only [State.go, Function.update_self]
      rfl
    · exact (fits j).beside grows ⟨Function.update_of_ne other _ _, rfl, rfl, rfl,
        fun _ _ => keeps_refl _⟩ rfl
  · rename_i valid
    rw [if_neg valid]
    rcases eq_or_ne j k with rfl | other
    · refine (fits j).ends grows made ?_ rfl rfl
      simp only [State.go, State.write, Function.update_self]
      rfl
    · exact (fits j).beside grows ⟨Function.update_of_ne other _ _, rfl, rfl, rfl,
        owned.keeps (slotOf_live live valid) other rfl⟩ rfl

/-- The parent has been looked up. -/
theorem Fit.resolve (fit : Fit s k) (fits : ∀ j, Fit s j) {v : Nat}
    (here : s.phase k = .resolving i v) (stepped : advance s k = some t) : Fit t k := by
  have grows := Grows.advance stepped
  obtain ⟨q, within, rfl⟩ := fit.resolving i v here
  have noParent : s.parent k = none := fit.unresolved (by rw [here]; rfl)
  obtain ⟨less, made⟩ := fit.older q within
  have unasked : s.asked k = false := fit.unasked (by rw [here]; rfl)
  have older {t : State} (grows : Grows s t) (same : t.within k = s.within k) (p : Nat)
      (within : t.within k = some p) : p < k ∧ (t.phase p).made = true := by
    rw [same] at within
    obtain ⟨less, made⟩ := fit.older p within
    exact ⟨less, grows.made p made⟩
  -- a live parent is found
  have lives (p : Nat) (isParent : s.within k = some p) (live : s.phase p = .live)
      (valid : s.raw p ≠ kNone) : finds s.slots (s.raw q) = true := by
    cases within.symm.trans isParent
    have held := slotOf_live live valid
    exact finds_of_current ((fits q).inTable made valid) ((fits q).current _ held live)
  unfold Scopes.advance at stepped
  rw [here] at stepped
  simp only at stepped
  split at stepped
  · cases stepped
    have moved : Function.update s.phase k (.storing i (s.raw q)) k = .storing i (s.raw q) :=
      Function.update_self _ _ _
    have found : Function.update s.parent k (s.within k) k = some q := by
      rw [Function.update_self, within]
    refine Builds.fit ⟨?_, unasked, older grows rfl, ?_⟩ ?_ ?_ ?_ ?_ ?_
    · simp only [State.go, moved]
      rfl
    · intro p isParent
      cases found.symm.trans isParent
      exact within
    · intro i' v absurd
      cases moved.symm.trans absurd
    · intro absurd
      cases moved.symm.trans absurd
    · intro i' v same
      cases moved.symm.trans same
      refine Eq.trans ?_ (parentRaw_some (p := q) ?_).symm
      · rfl
      · exact found
    · intro i' absurd
      cases moved.symm.trans absurd
    · intro p _ isParent _ _
      cases within.symm.trans isParent
      exact found
  · rename_i lost
    cases stepped
    have moved : Function.update s.phase k (.storing i kNone) k = .storing i kNone :=
      Function.update_self _ _ _
    refine Builds.fit ⟨?_, unasked, older grows rfl, ?_⟩ ?_ ?_ ?_ ?_ ?_
    · simp only [State.go, moved]
      rfl
    · intro p absurd
      cases noParent.symm.trans absurd
    · intro i' v absurd
      cases moved.symm.trans absurd
    · intro absurd
      cases moved.symm.trans absurd
    · intro i' v same
      cases moved.symm.trans same
      exact (parentRaw_none noParent).symm
    · intro i' absurd
      cases moved.symm.trans absurd
    · intro p _ isParent live valid
      cases within.symm.trans isParent
      have alive := grows.live q made live
      exact absurd (lives q within alive valid) lost

/-- The parent has been written. -/
theorem Fit.store (fit : Fit s k) {v : Nat} (here : s.phase k = .storing i v)
    (stepped : advance s k = some t) : Fit t k := by
  have grows := Grows.advance stepped
  have same := fit.storing i v here
  have unasked : s.asked k = false := fit.unasked (by rw [here]; rfl)
  unfold Scopes.advance at stepped
  rw [here] at stepped
  cases stepped
  have moved : Function.update s.phase k (.reading i) k = .reading i := Function.update_self _ _ _
  refine Builds.fit ⟨?_, unasked, fun p within => ?_, fit.parent⟩ ?_ ?_ ?_ ?_ ?_
  · simp only [State.write, State.go, moved]
    rfl
  · obtain ⟨less, made⟩ := fit.older p within
    exact ⟨less, grows.made p made⟩
  · intro i' v absurd
    cases moved.symm.trans absurd
  · intro absurd
    cases moved.symm.trans absurd
  · intro i' v absurd
    cases moved.symm.trans absurd
  · intro i' reads
    cases moved.symm.trans reads
    simp only [State.write, State.go, Function.update_self]
    rw [same]
    rfl
  · intro p _ within live valid
    have made := (fit.older p within).2
    rw [grows.raw p made] at valid
    refine fit.found i p (slotOf_busy here rfl) ?_ within (grows.live p made live) valid
    rw [here]
    rfl

/-- The token has been made. -/
theorem Fit.read (fit : Fit s k) (owned : Owned s free) (here : s.phase k = .reading i)
    (stepped : advance s k = some t) : Fit t k := by
  have grows := Grows.advance stepped
  have held := slotOf_busy here (i := i) rfl
  have small := owned.small_of_held held
  have stored := fit.stored i held (by rw [here]; rfl)
  have found := fit.found i
  unfold Scopes.advance at stepped
  rw [here] at stepped
  cases stepped
  have moved : Function.update s.phase k .live k = .live := Function.update_self _ _ _
  have raw : Function.update s.raw k (tokenOf s.slots i) k = tokenOf s.slots i :=
    Function.update_self _ _ _
  have parentRaw := fit.parentRaw_eq grows rfl
  have slotOf : State.slotOf { s.go k .live with
      raw := Function.update s.raw k (tokenOf s.slots i) } k = some i := by
    have valid : tokenOf s.slots i ≠ kNone := tokenOf_ne small
    rw [← raw] at valid
    rw [slotOf_live moved valid]
    simp only [raw]
    rw [index_tokenOf small]
  constructor
  case inTable =>
    intro _ _
    simp only [raw]
    rwa [index_tokenOf small]
  case current =>
    intro i' same _
    cases slotOf.symm.trans same
    simp only [raw]
    exact (gen_tokenOf small).symm
  case older =>
    intro p within
    obtain ⟨less, made⟩ := fit.older p within
    exact ⟨less, grows.made p made⟩
  case resolving =>
    intro i' v absurd
    cases moved.symm.trans absurd
  case unresolved =>
    intro absurd
    simp only [State.go, moved] at absurd
    cases absurd
  case parent => exact fit.parent
  case storing =>
    intro i' v absurd
    cases moved.symm.trans absurd
  case stored =>
    intro i' same _
    cases slotOf.symm.trans same
    rw [parentRaw]
    exact stored
  case found =>
    intro i' p same _ within live valid
    cases slotOf.symm.trans same
    have made := (fit.older p within).2
    rw [grows.raw p made] at valid
    exact found p held (by rw [here]; rfl) within (grows.live p made live) valid
  case asked =>
    intro _
    simp only [State.go, moved]
    rfl
  case bit =>
    intro i' _ _ asked
    have absurd := fit.asked asked
    rw [here] at absurd
    cases absurd

theorem fit_advance (owned : Owned s free) (fits : ∀ j, Fit s j) (stepped : advance s k = some t)
    (j : Nat) : Fit t j := by
  have grows := Grows.advance stepped
  rcases eq_or_ne j k with rfl | other
  · have parentRaw := (fits j).parentRaw_eq grows
    have ends (made : (s.phase j).made = true) := (fits j).ends grows made
    cases here : s.phase j with
    | unborn | live | gone =>
      unfold Scopes.advance at stepped
      rw [here] at stepped
      cases stepped
    | resolving i v => exact (fits j).resolve fits here stepped
    | storing i v => exact (fits j).store here stepped
    | reading i => exact (fits j).read owned here stepped
    | clearing i | releasing i =>
      unfold Scopes.advance at stepped
      rw [here] at stepped
      cases stepped
      refine ends (by rw [here]; rfl) ?_ rfl rfl
      simp only [State.write, State.go, Function.update_self]
      rfl
  · have keeps {i : Nat} (held : s.slotOf k = some i) {slot : Slot}
        (written : t.slots = Function.update s.slots i slot) := owned.keeps held other written
    unfold Scopes.advance at stepped
    cases here : s.phase k with
    | unborn | live | gone =>
      rw [here] at stepped
      cases stepped
    | resolving i v =>
      rw [here] at stepped
      simp only at stepped
      split at stepped
      · cases stepped
        exact (fits j).beside grows ⟨Function.update_of_ne other _ _, rfl, rfl,
          Function.update_of_ne other _ _, fun _ _ => keeps_refl _⟩ rfl
      · cases stepped
        exact (fits j).beside grows ⟨Function.update_of_ne other _ _, rfl, rfl, rfl,
          fun _ _ => keeps_refl _⟩ rfl
    | reading i =>
      rw [here] at stepped
      cases stepped
      exact (fits j).beside grows ⟨Function.update_of_ne other _ _,
        Function.update_of_ne other _ _, rfl, rfl, fun _ _ => keeps_refl _⟩ rfl
    | releasing i =>
      rw [here] at stepped
      cases stepped
      exact (fits j).beside grows ⟨Function.update_of_ne other _ _, rfl, rfl, rfl,
        fun _ _ => keeps_refl _⟩ rfl
    | storing i v | clearing i =>
      rw [here] at stepped
      cases stepped
      exact (fits j).beside grows ⟨Function.update_of_ne other _ _, rfl, rfl, rfl,
        keeps (slotOf_busy here rfl) rfl⟩ rfl

theorem fit_cancel (fits : ∀ j, Fit s j) (live : s.phase k = .live)
    (j : Nat) : Fit (s.cancel k) j := by
  have made : (s.phase k).made = true := by
    rw [live]
    rfl
  unfold State.cancel
  split
  · rename_i invalid
    have noSlot := slotOf_invalid live invalid
    refine (fits j).keep (.refl rfl rfl) ⟨rfl, rfl, rfl, rfl, fun _ _ => keeps_refl _⟩ ?_ ?_
    · intro asked
      rcases eq_or_ne j k with rfl | other
      · exact made
      · simp only [Function.update_of_ne other] at asked
        exact (fits j).asked asked
    · intro i held _ asked
      rcases eq_or_ne j k with rfl | other
      · cases noSlot.symm.trans held
      · simp only [Function.update_of_ne other] at asked
        exact (fits j).bit i held ‹_› asked
  · rename_i valid
    have held := slotOf_live live valid
    have keeps (i : Nat) : (s.slots i).Keeps ((Function.update s.slots (index (s.raw k))
        { s.slots (index (s.raw k)) with cancelled := true }) i) := by
      rcases eq_or_ne i (index (s.raw k)) with rfl | other
      · rw [Function.update_self]
        exact ⟨rfl, rfl, fun _ => rfl⟩
      · rw [Function.update_of_ne other]
        exact keeps_refl _
    refine (fits j).keep (.refl rfl rfl) ⟨rfl, rfl, rfl, rfl, fun i _ => keeps i⟩ ?_ ?_
    · intro asked
      rcases eq_or_ne j k with rfl | other
      · exact made
      · simp only [Function.update_of_ne other] at asked
        exact (fits j).asked asked
    · intro i mine lives asked
      rcases eq_or_ne j k with rfl | other
      · cases held.symm.trans mine
        simp only [State.write, Function.update_self]
      · simp only [Function.update_of_ne other] at asked
        exact (keeps i).cancelled ((fits j).bit i mine lives asked)

/-- `CancelVia` finds the slot of a live scope. -/
theorem cancelVia_marks {slots : Table} {raw : Nat} (valid : raw ≠ kNone)
    (inTable : index raw < kCancelSlots) (current : (slots (index raw)).genOf = gen raw) :
    Cancel.cancelVia slots raw = (Function.update slots (index raw)
      { slots (index raw) with cancelled := true }, true) := by
  unfold Cancel.cancelVia
  rw [if_neg valid, if_neg (Nat.not_le.mpr inTable), if_neg (not_not.mpr current)]

theorem fit_cancelVia (fits : ∀ j, Fit s j) (j : Nat) :
    Fit { s with
      slots := (Cancel.cancelVia s.slots (s.raw k)).1
      asked := if s.phase k = .live then Function.update s.asked k true else s.asked } j := by
  have keeps (i : Nat) : (s.slots i).Keeps ((Cancel.cancelVia s.slots (s.raw k)).1 i) :=
    cancelVia_keeps i
  split
  · rename_i live
    refine (fits j).keep (.refl rfl rfl) ⟨rfl, rfl, rfl, rfl, fun i _ => keeps i⟩ ?_ ?_
    · intro asked
      rcases eq_or_ne j k with rfl | other
      · rw [live]
        rfl
      · simp only [Function.update_of_ne other] at asked
        exact (fits j).asked asked
    · intro i mine liveJ asked
      rcases eq_or_ne j k with rfl | other
      · rcases eq_or_ne (s.raw j) kNone with invalid | valid
        · cases (slotOf_invalid live invalid).symm.trans mine
        · have held := slotOf_live live valid
          cases held.symm.trans mine
          rw [cancelVia_marks valid ((fits j).inTable (by rw [live]; rfl) valid)
            ((fits j).current _ held live)]
          simp only [Function.update_self]
      · simp only [Function.update_of_ne other] at asked
        exact (keeps i).cancelled ((fits j).bit i mine liveJ asked)
  · exact (fits j).beside (.refl rfl rfl) ⟨rfl, rfl, rfl, rfl, fun i _ => keeps i⟩ rfl

theorem fit_step (owned : Owned s free) (fits : ∀ j, Fit s j) (stepped : step s a = some t)
    (j : Nat) : Fit t j := by
  cases a with
  | advance k => exact fit_advance owned fits stepped j
  | create parent =>
    simp only [step] at stepped
    split at stepped
    · rename_i has
      cases stepped
      exact fit_create owned fits parent has j
    · cases stepped
  | destroy k =>
    simp only [step] at stepped
    split at stepped
    · rename_i live
      cases stepped
      exact fit_destroy owned fits live j
    · cases stepped
  | cancel k =>
    simp only [step] at stepped
    split at stepped
    · rename_i live
      cases stepped
      exact fit_cancel fits live j
    · cases stepped
  | cancelVia k =>
    simp only [step] at stepped
    split at stepped
    · cases stepped
      exact fit_cancelVia fits j
    · cases stepped

theorem fit_of_reach {ok : State → Label → Prop} (reach : Reach step ok initial s) :
    ∀ j, Fit s j := by
  refine reach.invariant_of (I := fun s => ∀ j, Fit s j) owned_of_reach initial_fit ?_
  intro s t a ⟨free, owned⟩ fits _ stepped
  exact fit_step owned fits stepped

/-! ## Chains of live scopes -/

/-- A scope that is alive and has a slot. -/
structure State.Holds (s : State) (k : Nat) : Prop where
  live : s.phase k = .live
  valid : s.raw k ≠ kNone

theorem State.Holds.slotOf (holds : s.Holds k) : s.slotOf k = some (index (s.raw k)) :=
  slotOf_live holds.live holds.valid

theorem State.Holds.made (holds : s.Holds k) : (s.phase k).made = true := by
  rw [holds.live]
  rfl

/-- Two live scopes have two tokens. -/
theorem raw_ne (owned : Owned s free) (holdsJ : s.Holds j) (holdsK : s.Holds k) (apart : j ≠ k) :
    s.raw j ≠ s.raw k := by
  intro same
  have held := holdsJ.slotOf
  rw [same] at held
  exact apart (owned.single j k _ held holdsK.slotOf)

/-- The slot of a scope names the live scope it was made with. -/
theorem slot_parent (fits : ∀ j, Fit s j) (holds : s.Holds k) (holds' : s.Holds p)
    (within : s.within k = some p) : (s.slots (index (s.raw k))).parent = s.raw p := by
  have resolved : (s.phase k).resolved = true := by
    rw [holds.live]
    rfl
  have found := (fits k).found _ p holds.slotOf resolved within holds'.live holds'.valid
  rw [(fits k).stored _ holds.slotOf (by rw [holds.live]; rfl), parentRaw_some found]

/-- The walk of `Cancelled` passes a live scope. -/
theorem cancelledFrom_succ (fits : ∀ j, Fit s j) (holds : s.Holds k) (depth : Nat) :
    cancelledFrom s.slots (depth + 1) (s.raw k) =
      ((s.slots (index (s.raw k))).cancelled ||
        cancelledFrom s.slots depth (s.slots (index (s.raw k))).parent) := by
  have inTable := (fits k).inTable holds.made holds.valid
  have current := (fits k).current _ holds.slotOf holds.live
  rw [cancelledFrom, if_neg holds.valid, if_neg (Nat.not_le.mpr inTable),
    if_neg (not_not.mpr current)]
  cases (s.slots (index (s.raw k))).cancelled with
  | true => rfl
  | false => rfl

/-- The walk of `IsWithin` passes a live scope. -/
theorem isWithinFrom_succ (fits : ∀ j, Fit s j) (holds : s.Holds k) {tok : Nat}
    (other : s.raw k ≠ tok) (depth : Nat) :
    isWithinFrom s.slots tok (depth + 1) (s.raw k) =
      isWithinFrom s.slots tok depth (s.slots (index (s.raw k))).parent := by
  have inTable := (fits k).inTable holds.made holds.valid
  have current := (fits k).current _ holds.slotOf holds.live
  rw [isWithinFrom, if_neg holds.valid, if_neg other, if_neg (Nat.not_le.mpr inTable),
    if_neg (not_not.mpr current)]

/-- The scopes `chain 0`, ..., `chain n` are alive, and each but the first was made with the token
of the one before. -/
structure Nested (s : State) (chain : Nat → Nat) (n : Nat) : Prop where
  holds : ∀ i ≤ n, s.Holds (chain i)
  within : ∀ i < n, s.within (chain (i + 1)) = some (chain i)

variable {chain : Nat → Nat} {n : Nat}

theorem Nested.older (nested : Nested s chain n) (fits : ∀ j, Fit s j) (less : i < j)
    (le : j ≤ n) : chain i < chain j := by
  induction j with
  | zero => cases less
  | succ j ih =>
    have last : chain j < chain (j + 1) := ((fits _).older _ (nested.within j le)).1
    rcases Nat.lt_or_ge i j with before | notBefore
    · exact Nat.lt_trans (ih before (Nat.le_of_succ_le le)) last
    · obtain rfl : i = j := Nat.le_antisymm (Nat.le_of_lt_succ less) notBefore
      exact last

/-- The first scope of a chain is `i` scopes away from `chain i`. -/
theorem Nested.cancelledFrom (nested : Nested s chain n) (fits : ∀ j, Fit s j)
    (asked : s.asked (chain 0) = true) {depth : Nat} (le : i ≤ n) (near : i < depth) :
    cancelledFrom s.slots depth (s.raw (chain i)) = true := by
  induction i generalizing depth with
  | zero =>
    obtain ⟨rest, rfl⟩ := Nat.exists_eq_succ_of_ne_zero (Nat.ne_zero_of_lt near)
    have holds := nested.holds 0 le
    rw [Nat.succ_eq_add_one, cancelledFrom_succ fits holds,
      (fits _).bit _ holds.slotOf holds.live asked, Bool.true_or]
  | succ i ih =>
    obtain ⟨rest, rfl⟩ := Nat.exists_eq_succ_of_ne_zero (Nat.ne_zero_of_lt near)
    have holds := nested.holds (i + 1) le
    have before := nested.holds i (Nat.le_of_succ_le le)
    rw [Nat.succ_eq_add_one, cancelledFrom_succ fits holds,
      slot_parent fits holds before (nested.within i le),
      ih (Nat.le_of_succ_le le) (Nat.lt_of_succ_lt_succ near), Bool.or_true]

/-- `chain j` is `m` scopes away from `chain (j + m)`. -/
theorem Nested.isWithinFrom (nested : Nested s chain n) (owned : Owned s free)
    (fits : ∀ j, Fit s j) (j m : Nat) {depth : Nat} (le : j + m ≤ n) :
    isWithinFrom s.slots (s.raw (chain j)) depth (s.raw (chain (j + m))) =
      decide (m < depth) := by
  induction m generalizing depth with
  | zero =>
    cases depth with
    | zero => rfl
    | succ depth =>
      have holds := nested.holds j le
      rw [Cancel.isWithinFrom, Nat.add_zero, if_neg holds.valid, if_pos rfl]
      exact (decide_eq_true (Nat.succ_pos depth)).symm
  | succ m ih =>
    cases depth with
    | zero => exact (decide_eq_false (Nat.not_lt_zero _)).symm
    | succ depth =>
      have holds := nested.holds (j + (m + 1)) le
      have before := nested.holds (j + m) (Nat.le_of_succ_le le)
      have apart : chain (j + (m + 1)) ≠ chain j :=
        (nested.older fits (by omega) le).ne'
      have other := raw_ne owned holds (nested.holds j (by omega)) apart
      rw [isWithinFrom_succ fits holds other,
        slot_parent fits holds before (nested.within (j + m) le),
        ih (Nat.le_of_succ_le le)]
      exact decide_eq_decide.mpr (Nat.succ_lt_succ_iff).symm

/-- Cancellation reaches the scopes of a chain up to `kMaxScopeDepth`, counted from the scope that
was cancelled, and a scope is within those that are less than `kMaxScopeDepth` away. -/
theorem nested_cancelled (reach : Reach step anyStep initial s) (nested : Nested s chain n) :
    (s.asked (chain 0) = true → ∀ i ≤ n, i < kMaxScopeDepth →
      cancelled s.slots (s.raw (chain i)) = true) ∧
    ∀ i ≤ n, ∀ j ≤ i,
      isWithin s.slots (s.raw (chain i)) (s.raw (chain j)) = decide (i - j < kMaxScopeDepth) := by
  obtain ⟨free, owned⟩ := owned_of_reach reach
  have fits := fit_of_reach reach
  refine ⟨fun asked i le near => nested.cancelledFrom fits asked le near, ?_⟩
  intro i le j before
  obtain ⟨m, rfl⟩ := Nat.exists_eq_add_of_le before
  unfold isWithin
  rw [if_neg (nested.holds j (Nat.le_trans before le)).valid, Nat.add_sub_cancel_left]
  exact nested.isWithinFrom owned fits j m le

/-- Nine scopes, each but the first made with the token of the one before; then the first is
cancelled. -/
def nineLabels : List Label :=
  [.create none, .advance 0, .advance 0] ++
    (List.range 8).flatMap (fun i =>
      [.create (some i), .advance (i + 1), .advance (i + 1), .advance (i + 1)]) ++
    [.cancel 0]

def nine : State := (run step anyStep initial nineLabels).getD initial

theorem nine_reached : Reach step anyStep initial nine :=
  Reach.of_isSome nineLabels (by decide +kernel)

theorem nine_nested : Nested nine id 8 := by
  have holds : ∀ i ≤ 8, nine.phase i = .live ∧ nine.raw i ≠ kNone := by decide +kernel
  have within : ∀ i < 8, nine.within (i + 1) = some i := by decide +kernel
  exact ⟨fun i le => ⟨(holds i le).1, (holds i le).2⟩, within⟩

/-- Among nine nested scopes the first one's cancellation reaches the eighth. -/
theorem nine_cancelled : nine.asked 0 = true ∧
    (nine.asked (id 0) = true → ∀ i ≤ 8, i < kMaxScopeDepth →
      cancelled nine.slots (nine.raw (id i)) = true) ∧
    ∀ i ≤ 8, ∀ j ≤ i,
      isWithin nine.slots (nine.raw (id i)) (nine.raw (id j)) = decide (i - j < kMaxScopeDepth) :=
  ⟨by decide +kernel, nested_cancelled nine_reached nine_nested⟩

/-- The ninth scope is not cancelled, and not within the first. -/
theorem ninth_not_cancelled : Reach step anyStep initial nine ∧ Nested nine id 8 ∧
    nine.asked 0 = true ∧ cancelled nine.slots (nine.raw 8) = false ∧
    isWithin nine.slots (nine.raw 8) (nine.raw 0) = false :=
  ⟨nine_reached, nine_nested, by decide +kernel, by decide +kernel, by decide +kernel⟩

end JLibSched.Scopes
