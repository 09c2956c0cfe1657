import JLibSched.Scopes.Nesting

/-!
# Tokens and generations

A token carries the low half of its slot's generation.  As long as no slot is used `2 ^ 16` times
the token of a scope that has ended fits its slot no more (`Dated`), and a token that was handed out
comes to lie within no other scope (`Sound.isWithin_back`).
-/

namespace JLibSched.Scopes

open Transition Cancel Links

variable {s t : State} {a : Label} {free : List Nat} {i j k p : Nat}

/-- No slot comes to its last generation. -/
def lasting (s : State) : Label → Prop
  | .destroy k => (s.slots (index (s.raw k))).generation + 1 < 2 ^ 16
  | .create _ | .advance _ | .cancel _ | .cancelVia _ => True

instance (s : State) : (a : Label) → Decidable (lasting s a)
  | .destroy k =>
    inferInstanceAs (Decidable ((s.slots (index (s.raw k))).generation + 1 < 2 ^ 16))
  | .create _ | .advance _ | .cancel _ | .cancelVia _ => isTrue trivial

/-- A token that a scope has handed out, or none. -/
def State.Issued (s : State) (raw : Nat) : Prop :=
  raw = kNone ∨ ∃ p, (s.phase p).made = true ∧ s.raw p = raw

/-- No token of a scope that has ended fits its slot. -/
structure Dated (s : State) : Prop where
  small : ∀ i, (s.slots i).generation < 2 ^ 16
  ended : ∀ k, (s.phase k).ended = true → s.raw k ≠ kNone →
    gen (s.raw k) < (s.slots (index (s.raw k))).generation
  single : ∀ j k, (s.phase j).made = true → (s.phase k).made = true → s.raw j ≠ kNone →
    s.raw j = s.raw k → j = k
  tokens : ∀ i, s.Issued (s.slots i).parent

theorem initial_dated : Dated initial where
  small i := Nat.two_pow_pos 16
  ended k absurd := by cases absurd
  single j k absurd := by cases absurd
  tokens i := .inl rfl

theorem Dated.genOf (dated : Dated s) (i : Nat) : (s.slots i).genOf = (s.slots i).generation :=
  Nat.mod_eq_of_lt (dated.small i)

theorem made_cases {phase : Phase} (made : phase.made = true) :
    phase = .live ∨ phase.ended = true := by
  cases phase with
  | live => exact .inl rfl
  | clearing | releasing | gone => exact .inr rfl
  | unborn | resolving | storing | reading => cases made

/-- A token that fits its slot is that of the live scope there. -/
theorem Dated.live_of_current (dated : Dated s) (made : (s.phase p).made = true)
    (valid : s.raw p ≠ kNone) (current : (s.slots (index (s.raw p))).genOf = gen (s.raw p)) :
    s.Holds p := by
  rcases made_cases made with live | ended
  · exact ⟨live, valid⟩
  · have older := dated.ended p ended valid
    rw [dated.genOf] at current
    omega

theorem Grows.issued (grows : Grows s t) {raw : Nat} (issued : s.Issued raw) : t.Issued raw := by
  rcases issued with none | ⟨p, made, same⟩
  · exact .inl none
  · exact .inr ⟨p, grows.made p made, by rw [grows.raw p made]; exact same⟩

theorem Fit.parentRaw_issued (fit : Fit s k) : s.Issued (s.parentRaw k) := by
  unfold State.parentRaw
  cases here : s.parent k with
  | none => exact .inl rfl
  | some p => exact .inr ⟨p, (fit.older p (fit.parent p here)).2, rfl⟩

/-- Slots get other parents and bits, and a constructor may return without a token. -/
theorem Dated.calm (dated : Dated s) (grows : Grows s t)
    (made : ∀ p, (t.phase p).made = true → (s.phase p).made = true ∨ t.raw p = kNone)
    (ended : ∀ p, (t.phase p).ended = true → (s.phase p).ended = true)
    (generation : ∀ i, (t.slots i).generation = (s.slots i).generation)
    (tokens : ∀ i, t.Issued (t.slots i).parent) : Dated t where
  small i := by
    rw [generation]
    exact dated.small i
  ended k here valid := by
    have before := ended k here
    rw [grows.raw k (made_of_ended before)] at valid ⊢
    rw [generation]
    exact dated.ended k before valid
  single j k madeJ madeK valid same := by
    rcases made j madeJ with beforeJ | none
    · rcases made k madeK with beforeK | none
      · rw [grows.raw j beforeJ] at valid same
        rw [grows.raw k beforeK] at same
        exact dated.single j k beforeJ beforeK valid same
      · exact absurd (same.trans none) valid
    · exact absurd none valid
  tokens := tokens

/-- The step does not touch the slots. -/
theorem Dated.quiet (dated : Dated s) (grows : Grows s t)
    (made : ∀ p, (t.phase p).made = true → (s.phase p).made = true ∨ t.raw p = kNone)
    (ended : ∀ p, (t.phase p).ended = true → (s.phase p).ended = true)
    (slots : t.slots = s.slots) : Dated t := by
  refine dated.calm grows made ended (fun i => by rw [slots]) fun i => ?_
  rw [slots]
  exact grows.issued (dated.tokens i)

/-- A phase that changes for one scope. -/
theorem phase_moves {phase : Phase} {P : Phase → Prop}
    (moved : t.phase = Function.update s.phase k phase) (self : P phase → P (s.phase k))
    (p : Nat) (here : P (t.phase p)) : P (s.phase p) := by
  rw [moved] at here
  rcases eq_or_ne p k with rfl | other
  · rw [Function.update_self] at here
    exact self here
  · rwa [Function.update_of_ne other] at here

/-- The generation does not come round. -/
theorem nextUse_generation {slot : Slot} (small : slot.generation + 1 < 2 ^ 16) :
    (nextUse slot).generation = slot.generation + 1 :=
  Nat.mod_eq_of_lt (by omega)

theorem nextUse_genOf {slot : Slot} (small : slot.generation + 1 < 2 ^ 16) :
    (nextUse slot).genOf = slot.generation + 1 := by
  unfold Slot.genOf
  rw [nextUse_generation small, Nat.mod_eq_of_lt small]

theorem dated_create (dated : Dated s) (owned : Owned s free) (parent : Option Nat) :
    Dated (s.create parent) := by
  have grows := Grows.create owned parent
  have fresh := owned.unborn s.made (Nat.le_refl _)
  have noRaw : s.raw s.made = kNone := owned.blank s.made (by rw [fresh]; rfl)
  unfold State.create at grows ⊢
  cases head : s.freeHead with
  | none =>
    rw [head] at grows
    refine dated.quiet grows (fun p made => ?_)
      (phase_moves (P := fun phase => phase.ended = true) (k := s.made) rfl
        fun absurd => by cases absurd) rfl
    rcases eq_or_ne p s.made with rfl | other
    · exact .inr noRaw
    · simp only [State.go, Function.update_of_ne other] at made
      exact .inl made
  | some i =>
    rw [head] at grows
    refine dated.quiet grows (fun p made => .inl ?_)
      (phase_moves (P := fun phase => phase.ended = true) (k := s.made) rfl fun absurd => ?_) rfl
    · refine phase_moves (P := fun phase => phase.made = true) (k := s.made) rfl
        (fun absurd => ?_) p made
      rw [firstPhase_made] at absurd
      cases absurd
    · have made := made_of_ended absurd
      rw [firstPhase_made] at made
      cases made

theorem dated_destroy (dated : Dated s) (fits : ∀ j, Fit s j) (live : s.phase k = .live)
    (allowed : (s.slots (index (s.raw k))).generation + 1 < 2 ^ 16) : Dated (s.destroy k) := by
  have grows := Grows.destroy (s := s) (k := k)
  have madeK : (s.phase k).made = true := by
    rw [live]
    rfl
  unfold State.destroy at grows ⊢
  split at grows
  · rename_i invalid
    rw [if_pos invalid]
    constructor
    case small => exact dated.small
    case ended =>
      intro p ended valid
      refine dated.ended p ?_ valid
      have other : p ≠ k := by
        rintro rfl
        exact valid invalid
      simp only [State.go, Function.update_of_ne other] at ended
      exact ended
    case single =>
      have before (p : Nat) := phase_moves (t := s.go k .gone) (k := k)
        (P := fun phase => phase.made = true) rfl (fun _ => madeK) p
      exact fun j k' madeJ madeK => dated.single j k' (before j madeJ) (before k' madeK)
    case tokens => exact fun i => grows.issued (dated.tokens i)
  · rename_i valid
    rw [if_neg valid]
    have holds : s.Holds k := ⟨live, valid⟩
    have current := (fits k).current _ holds.slotOf live
    rw [dated.genOf] at current
    have bumped : (s.slots (index (s.raw k))).generation + 1 =
        (nextUse (s.slots (index (s.raw k)))).generation :=
      (nextUse_generation allowed).symm
    have slots (i : Nat) : (Function.update s.slots (index (s.raw k))
        (nextUse (s.slots (index (s.raw k)))) i).parent = (s.slots i).parent := by
      rcases eq_or_ne i (index (s.raw k)) with rfl | other
      · rw [Function.update_self]
        rfl
      · rw [Function.update_of_ne other]
    constructor
    case small =>
      intro i
      rcases eq_or_ne i (index (s.raw k)) with rfl | other
      · simp only [State.write, Function.update_self]
        rw [← bumped]
        exact allowed
      · simp only [State.write, State.go, Function.update_of_ne other]
        exact dated.small i
    case ended =>
      intro p ended validP
      have older : gen (s.raw p) ≤ (s.slots (index (s.raw p))).generation ∧
          (index (s.raw p) ≠ index (s.raw k) →
            gen (s.raw p) < (s.slots (index (s.raw p))).generation) := by
        rcases eq_or_ne p k with rfl | other
        · exact ⟨current.ge, fun other => absurd rfl other⟩
        · simp only [State.write, State.go, Function.update_of_ne other] at ended
          have less := dated.ended p ended validP
          exact ⟨less.le, fun _ => less⟩
      change gen (s.raw p) < (Function.update s.slots (index (s.raw k))
        (nextUse (s.slots (index (s.raw k)))) (index (s.raw p))).generation
      rcases eq_or_ne (index (s.raw p)) (index (s.raw k)) with same | other
      · have bound := older.1
        rw [same] at bound
        rw [same, Function.update_self, ← bumped]
        omega
      · rw [Function.update_of_ne other]
        exact older.2 other
    case single =>
      have before (p : Nat) := phase_moves (t := s.go k (.clearing (index (s.raw k)))) (k := k)
        (P := fun phase => phase.made = true) rfl (fun _ => madeK) p
      exact fun j k' madeJ madeK => dated.single j k' (before j madeJ) (before k' madeK)
    case tokens =>
      intro i
      have issued := grows.issued (dated.tokens i)
      rw [← slots i] at issued
      exact issued

theorem dated_read (dated : Dated s) (owned : Owned s free) (here : s.phase k = .reading i)
    (stepped : advance s k = some t) : Dated t := by
  have grows := Grows.advance stepped
  have held := slotOf_busy here (i := i) rfl
  have small := owned.small_of_held held
  unfold Scopes.advance at stepped
  rw [here] at stepped
  cases stepped
  have raw : Function.update s.raw k (tokenOf s.slots i) k = tokenOf s.slots i :=
    Function.update_self _ _ _
  have before {p : Nat} (other : p ≠ k)
      (made : (Function.update s.phase k .live p).made = true) : (s.phase p).made = true := by
    rwa [Function.update_of_ne other] at made
  -- no scope has this token: a live one holds another slot, and others are older
  have new {p : Nat} (other : p ≠ k) (made : (s.phase p).made = true) :
      s.raw p ≠ tokenOf s.slots i := by
    intro same
    have valid : s.raw p ≠ kNone := same ▸ tokenOf_ne small
    have current : (s.slots (index (s.raw p))).genOf = gen (s.raw p) := by
      rw [same, index_tokenOf small, gen_tokenOf small]
    have holds := (dated.live_of_current made valid current).slotOf
    rw [same, index_tokenOf small] at holds
    exact other (owned.single p k i holds held)
  constructor
  case small => exact dated.small
  case ended =>
    intro p ended valid
    have before : (s.phase p).ended = true :=
      phase_moves (t := s.go k .live) (k := k) (P := fun phase => phase.ended = true) rfl
        (fun absurd => by cases absurd) p ended
    rw [grows.raw p (made_of_ended before)] at valid ⊢
    exact dated.ended p before valid
  case single =>
    intro j j' madeJ madeJ' valid same
    rcases eq_or_ne j k with rfl | otherJ
    · rcases eq_or_ne j' j with rfl | otherJ'
      · rfl
      · simp only [raw, Function.update_of_ne otherJ'] at same
        exact absurd same.symm (new otherJ' (before otherJ' madeJ'))
    · rcases eq_or_ne j' k with rfl | otherJ'
      · simp only [raw, Function.update_of_ne otherJ] at same
        exact absurd same (new otherJ (before otherJ madeJ))
      · simp only [Function.update_of_ne otherJ, Function.update_of_ne otherJ'] at valid same
        exact dated.single j j' (before otherJ madeJ) (before otherJ' madeJ') valid same
  case tokens => exact fun i => grows.issued (dated.tokens i)

/-- An operation writes the parent of one slot, or none. -/
theorem Dated.parents (dated : Dated s) (grows : Grows s t) {phase : Phase}
    (moved : t.phase = Function.update s.phase k phase)
    (made : phase.made = true → (s.phase k).made = true)
    (ended : phase.ended = true → (s.phase k).ended = true) {v : Nat}
    (written : t.slots = Function.update s.slots i { s.slots i with parent := v })
    (issued : t.Issued v) : Dated t := by
  refine dated.calm grows (fun p here => .inl ?_) (fun p here => ?_) (fun i' => ?_) fun i' => ?_
  · exact phase_moves (P := fun phase => phase.made = true) moved made p here
  · exact phase_moves (P := fun phase => phase.ended = true) moved ended p here
  · rw [written]
    rcases eq_or_ne i' i with rfl | other
    · rw [Function.update_self]
    · rw [Function.update_of_ne other]
  · rw [written]
    rcases eq_or_ne i' i with rfl | other
    · rw [Function.update_self]
      exact issued
    · rw [Function.update_of_ne other]
      exact grows.issued (dated.tokens i')

theorem dated_advance (dated : Dated s) (owned : Owned s free) (fits : ∀ j, Fit s j)
    (stepped : advance s k = some t) : Dated t := by
  have grows := Grows.advance stepped
  cases here : s.phase k with
  | reading i => exact dated_read dated owned here stepped
  | unborn | live | gone =>
    unfold Scopes.advance at stepped
    rw [here] at stepped
    cases stepped
  | resolving i v =>
    have quiet {v : Nat} (moved : t.phase = Function.update s.phase k (.storing i v))
        (slots : t.slots = s.slots) : Dated t := by
      refine dated.quiet grows (fun p made => .inl ?_) ?_ slots
      · exact phase_moves (P := fun phase => phase.made = true) moved
          (fun absurd => by cases absurd) p made
      · exact phase_moves (P := fun phase => phase.ended = true) moved
          fun absurd => by cases absurd
    unfold Scopes.advance at stepped
    rw [here] at stepped
    simp only at stepped
    split at stepped
    · cases stepped
      exact quiet rfl rfl
    · cases stepped
      exact quiet rfl rfl
  | storing i v =>
    have issued := grows.issued (fits k).parentRaw_issued
    rw [← (fits k).storing i v here] at issued
    unfold Scopes.advance at stepped
    rw [here] at stepped
    cases stepped
    exact dated.parents grows rfl (fun absurd => by cases absurd) (fun absurd => by cases absurd)
      rfl issued
  | clearing i =>
    unfold Scopes.advance at stepped
    rw [here] at stepped
    cases stepped
    refine dated.parents grows rfl ?_ ?_ rfl (.inl rfl)
    · rw [here]
      exact fun _ => rfl
    · rw [here]
      exact fun _ => rfl
  | releasing i =>
    unfold Scopes.advance at stepped
    rw [here] at stepped
    cases stepped
    refine dated.quiet grows (fun p made => .inl ?_) ?_ rfl
    · refine phase_moves (P := fun phase => phase.made = true) (k := k) rfl ?_ p made
      rw [here]
      exact fun _ => rfl
    · refine phase_moves (P := fun phase => phase.ended = true) (k := k) rfl ?_
      rw [here]
      exact fun _ => rfl

/-- Only a bit is set. -/
theorem Dated.bits (dated : Dated s) (phase : t.phase = s.phase) (raw : t.raw = s.raw)
    (same : ∀ i, (t.slots i).generation = (s.slots i).generation ∧
      (t.slots i).parent = (s.slots i).parent) : Dated t := by
  have grows : Grows s t := .refl phase raw
  refine dated.calm grows (fun p made => .inl ?_) (fun p ended => ?_) (fun i => (same i).1)
    fun i => ?_
  · rwa [phase] at made
  · rwa [phase] at ended
  · rw [(same i).2]
    exact grows.issued (dated.tokens i)

theorem cancelVia_slot (slots : Table) (tok i : Nat) :
    ((Cancel.cancelVia slots tok).1 i).generation = (slots i).generation ∧
      ((Cancel.cancelVia slots tok).1 i).parent = (slots i).parent := by
  unfold Cancel.cancelVia
  split
  · exact ⟨rfl, rfl⟩
  · split
    · exact ⟨rfl, rfl⟩
    · split
      · exact ⟨rfl, rfl⟩
      · rcases eq_or_ne i (index tok) with rfl | other
        · simp only [Function.update_self, and_self]
        · simp only [Function.update_of_ne other, and_self]

theorem dated_cancel (dated : Dated s) : Dated (s.cancel k) := by
  unfold State.cancel
  split
  · exact dated.bits rfl rfl fun _ => ⟨rfl, rfl⟩
  · refine dated.bits rfl rfl fun i => ?_
    simp only [State.write]
    rcases eq_or_ne i (index (s.raw k)) with rfl | other
    · simp only [Function.update_self, and_self]
    · simp only [Function.update_of_ne other, and_self]

theorem dated_step (dated : Dated s) (owned : Owned s free) (fits : ∀ j, Fit s j)
    (allowed : lasting s a) (stepped : step s a = some t) : Dated t := by
  cases a with
  | advance k => exact dated_advance dated owned fits stepped
  | create parent =>
    simp only [step] at stepped
    split at stepped
    · cases stepped
      exact dated_create dated owned parent
    · cases stepped
  | destroy k =>
    simp only [step] at stepped
    split at stepped
    · rename_i live
      cases stepped
      exact dated_destroy dated fits live allowed
    · cases stepped
  | cancel k =>
    simp only [step] at stepped
    split at stepped
    · cases stepped
      exact dated_cancel dated
    · cases stepped
  | cancelVia k =>
    simp only [step] at stepped
    split at stepped
    · cases stepped
      exact dated.bits rfl rfl fun i => cancelVia_slot s.slots (s.raw k) i
    · cases stepped

/-- What holds of the scopes as long as no slot comes to its last generation. -/
structure Sound (s : State) : Prop where
  owned : ∃ free, Owned s free
  fits : ∀ j, Fit s j
  dated : Dated s

theorem Sound.step (sound : Sound s) (allowed : lasting s a) (stepped : step s a = some t) :
    Sound t := by
  obtain ⟨free, owned⟩ := sound.owned
  exact ⟨owned.step stepped, fit_step owned sound.fits stepped,
    dated_step sound.dated owned sound.fits allowed stepped⟩

theorem initial_sound : Sound initial := ⟨initial_owned, initial_fit, initial_dated⟩

theorem Sound.grows (sound : Sound s) (stepped : Scopes.step s a = some t) : Grows s t := by
  obtain ⟨free, owned⟩ := sound.owned
  exact .step owned stepped

/-- A scope that has ended had ended before, or its destructor has just begun. -/
theorem ended_before (stepped : step s a = some t) (ended : (t.phase k).ended = true) :
    (s.phase k).ended = true ∨ a = .destroy k := by
  have moves {l : Nat} {phase : Phase} (moved : t.phase = Function.update s.phase l phase)
      (self : phase.ended = true → (s.phase l).ended = true) : (s.phase k).ended = true :=
    phase_moves (P := fun phase => phase.ended = true) moved self k ended
  have same (phase : t.phase = s.phase) : (s.phase k).ended = true := by
    rwa [phase] at ended
  cases a with
  | create parent =>
    simp only [step] at stepped
    split at stepped
    · cases stepped
      unfold State.create at moves
      cases head : s.freeHead with
      | none =>
        rw [head] at moves
        exact .inl (moves rfl fun absurd => by cases absurd)
      | some i =>
        rw [head] at moves
        refine .inl (moves rfl fun absurd => ?_)
        have made := made_of_ended absurd
        rw [firstPhase_made] at made
        cases made
    · cases stepped
  | destroy l =>
    simp only [step] at stepped
    split at stepped
    · cases stepped
      rcases eq_or_ne k l with rfl | other
      · exact .inr rfl
      · left
        unfold State.destroy at ended
        split at ended
        · simp only [State.go, Function.update_of_ne other] at ended
          exact ended
        · simp only [State.write, State.go, Function.update_of_ne other] at ended
          exact ended
    · cases stepped
  | advance l =>
    left
    simp only [step, advance] at stepped
    cases here : s.phase l with
    | unborn | live | gone =>
      rw [here] at stepped
      cases stepped
    | resolving i v =>
      rw [here] at stepped
      simp only at stepped
      split at stepped
      · cases stepped
        exact moves rfl fun absurd => by cases absurd
      · cases stepped
        exact moves rfl fun absurd => by cases absurd
    | storing i v | reading i =>
      rw [here] at stepped
      cases stepped
      exact moves rfl fun absurd => by cases absurd
    | clearing i | releasing i =>
      rw [here] at stepped
      cases stepped
      refine moves rfl fun _ => ?_
      rw [here]
      rfl
  | cancel l =>
    simp only [step] at stepped
    split at stepped
    · cases stepped
      unfold State.cancel at same
      split at same
      · exact .inl (same rfl)
      · exact .inl (same rfl)
    · cases stepped
  | cancelVia l =>
    simp only [step] at stepped
    split at stepped
    · cases stepped
      exact .inl (same rfl)
    · cases stepped

/-! ## Tokens that were handed out -/

/-- A token that fits its slot afterwards has fitted it before, and the parent is the same. -/
def Settled (slots slots' : Table) (raw : Nat) : Prop :=
  raw ≠ kNone → (slots' (index raw)).genOf = gen raw →
    (slots (index raw)).genOf = gen raw ∧ (slots' (index raw)).parent = (slots (index raw)).parent

/-- An operation on another slot, or with bits only, is none for a token. -/
theorem settled_of_same {slots slots' : Table} {raw : Nat}
    (generation : (slots' (index raw)).generation = (slots (index raw)).generation)
    (parent : (slots' (index raw)).parent = (slots (index raw)).parent) :
    Settled slots slots' raw := by
  intro _ current
  unfold Slot.genOf at current ⊢
  rw [generation] at current
  exact ⟨current, parent⟩

/-- Whoever writes a parent holds the slot, and no token fits it. -/
theorem Sound.settled_write (sound : Sound s) (held : s.slotOf k = some i)
    (notLive : s.phase k ≠ .live) {v : Nat} (made : (s.phase p).made = true) :
    Settled s.slots (Function.update s.slots i { s.slots i with parent := v }) (s.raw p) := by
  obtain ⟨free, owned⟩ := sound.owned
  intro valid current
  rcases eq_or_ne (index (s.raw p)) i with same | other
  · rw [same, Function.update_self] at current
    have current' : (s.slots (index (s.raw p))).genOf = gen (s.raw p) := by
      rw [same]
      exact current
    have holds := sound.dated.live_of_current made valid current'
    have mine := holds.slotOf
    rw [same] at mine
    obtain rfl := owned.single p k i mine held
    exact absurd holds.live notLive
  · rw [Function.update_of_ne other] at current ⊢
    exact ⟨current, rfl⟩

theorem Sound.settled_destroy (sound : Sound s)
    (allowed : (s.slots (index (s.raw k))).generation + 1 < 2 ^ 16)
    (made : (s.phase p).made = true) : Settled s.slots (s.destroy k).slots (s.raw p) := by
  unfold State.destroy
  split
  · exact settled_of_same rfl rfl
  · rename_i validK
    intro valid current
    simp only [State.write, State.go] at current ⊢
    rcases eq_or_ne (index (s.raw p)) (index (s.raw k)) with same | other
    · have older : gen (s.raw p) ≤ (s.slots (index (s.raw p))).generation := by
        rcases made_cases made with live | ended
        · have holds : s.Holds p := ⟨live, valid⟩
          have fits := (sound.fits p).current _ holds.slotOf live
          rw [sound.dated.genOf] at fits
          exact fits.ge
        · exact (sound.dated.ended p ended valid).le
      rw [same] at older
      rw [same, Function.update_self] at current
      rw [nextUse_genOf allowed] at current
      omega
    · rw [Function.update_of_ne other] at current ⊢
      exact ⟨current, rfl⟩

theorem Sound.settled_advance (sound : Sound s) (stepped : advance s k = some t)
    (made : (s.phase p).made = true) : Settled s.slots t.slots (s.raw p) := by
  have write {i v : Nat} (held : s.slotOf k = some i) (notLive : s.phase k ≠ .live)
      (written : t.slots = Function.update s.slots i { s.slots i with parent := v }) :
      Settled s.slots t.slots (s.raw p) := by
    rw [written]
    exact sound.settled_write held notLive made
  unfold Scopes.advance at stepped
  cases here : s.phase k with
  | unborn | live | gone =>
    rw [here] at stepped
    cases stepped
  | resolving i v =>
    rw [here] at stepped
    simp only at stepped
    split at stepped
    · cases stepped
      exact settled_of_same rfl rfl
    · cases stepped
      exact settled_of_same rfl rfl
  | reading i | releasing i =>
    rw [here] at stepped
    cases stepped
    exact settled_of_same rfl rfl
  | storing i v | clearing i =>
    rw [here] at stepped
    cases stepped
    refine write (slotOf_busy here rfl) ?_ rfl
    rw [here]
    exact fun absurd => by cases absurd

/-- No step brings a token back. -/
theorem Sound.settled (sound : Sound s) (allowed : lasting s a) (stepped : Scopes.step s a = some t)
    (made : (s.phase p).made = true) : Settled s.slots t.slots (s.raw p) := by
  cases a with
  | advance k => exact sound.settled_advance stepped made
  | create parent =>
    simp only [Scopes.step] at stepped
    split at stepped
    · cases stepped
      unfold State.create
      cases s.freeHead with
      | none => exact settled_of_same rfl rfl
      | some i => exact settled_of_same rfl rfl
    · cases stepped
  | destroy k =>
    simp only [Scopes.step] at stepped
    split at stepped
    · cases stepped
      exact sound.settled_destroy allowed made
    · cases stepped
  | cancel k =>
    simp only [Scopes.step] at stepped
    split at stepped
    · cases stepped
      unfold State.cancel
      split
      · exact settled_of_same rfl rfl
      · simp only [State.write]
        rcases eq_or_ne (index (s.raw p)) (index (s.raw k)) with same | other
        · refine settled_of_same ?_ ?_
          · rw [same, Function.update_self]
          · rw [same, Function.update_self]
        · refine settled_of_same ?_ ?_
          · rw [Function.update_of_ne other]
          · rw [Function.update_of_ne other]
    · cases stepped
  | cancelVia k =>
    simp only [Scopes.step] at stepped
    split at stepped
    · cases stepped
      exact settled_of_same (cancelVia_slot s.slots (s.raw k) _).1
        (cancelVia_slot s.slots (s.raw k) _).2
    · cases stepped

/-- The cancelled bit goes away only with the generation. -/
theorem cancelled_kept (stepped : Scopes.step s a = some t)
    (same : (t.slots i).genOf = (s.slots i).genOf) (bit : (s.slots i).cancelled = true) :
    (t.slots i).cancelled = true := by
  have write {l : Nat} {slot : Slot} (written : t.slots = Function.update s.slots l slot)
      (keeps : i = l → slot.cancelled = true) : (t.slots i).cancelled = true := by
    rw [written]
    rcases eq_or_ne i l with rfl | other
    · rw [Function.update_self]
      exact keeps rfl
    · rw [Function.update_of_ne other]
      exact bit
  have calm (slots : t.slots = s.slots) : (t.slots i).cancelled = true := by
    rw [slots]
    exact bit
  cases a with
  | create parent =>
    simp only [Scopes.step] at stepped
    split at stepped
    · cases stepped
      unfold State.create at calm ⊢
      cases head : s.freeHead with
      | none =>
        rw [head] at calm
        exact calm rfl
      | some l =>
        rw [head] at calm
        exact calm rfl
    · cases stepped
  | destroy k =>
    simp only [Scopes.step] at stepped
    split at stepped
    · cases stepped
      unfold State.destroy at same ⊢
      split at same
      · rename_i invalid
        rw [if_pos invalid]
        exact bit
      · rename_i valid
        rw [if_neg valid]
        simp only [State.write, State.go] at same ⊢
        rcases eq_or_ne i (index (s.raw k)) with rfl | other
        · rw [Function.update_self] at same
          unfold nextUse Slot.genOf at same
          simp only at same
          omega
        · rw [Function.update_of_ne other]
          exact bit
    · cases stepped
  | advance k =>
    simp only [Scopes.step, advance] at stepped
    cases here : s.phase k with
    | unborn | live | gone =>
      rw [here] at stepped
      cases stepped
    | resolving l v =>
      rw [here] at stepped
      simp only at stepped
      split at stepped
      · cases stepped
        exact calm rfl
      · cases stepped
        exact calm rfl
    | reading l | releasing l =>
      rw [here] at stepped
      cases stepped
      exact calm rfl
    | storing l v | clearing l =>
      rw [here] at stepped
      cases stepped
      refine write rfl fun here => ?_
      rw [← here]
      exact bit
  | cancel k =>
    simp only [Scopes.step] at stepped
    split at stepped
    · cases stepped
      by_cases invalid : s.raw k = kNone
      · refine calm ?_
        simp only [State.cancel, if_pos invalid]
      · have written : (s.cancel k).slots = Function.update s.slots (index (s.raw k))
            { s.slots (index (s.raw k)) with cancelled := true } := by
          simp only [State.cancel, if_neg invalid, State.write]
        exact write written fun _ => rfl
    · cases stepped
  | cancelVia k =>
    simp only [Scopes.step] at stepped
    split at stepped
    · cases stepped
      exact (cancelVia_keeps i).cancelled bit
    · cases stepped

theorem isWithin_none {slots : Table} {tok : Nat} : isWithin slots kNone tok = false := by
  unfold isWithin
  split
  · rfl
  · exact if_pos rfl

/-- A scope comes to lie within no other. -/
theorem Sound.isWithinFrom_back (sound : Sound s) (allowed : lasting s a)
    (stepped : Scopes.step s a = some t) {raw tok depth : Nat} (issued : s.Issued raw)
    (within : isWithinFrom t.slots tok depth raw = true) :
    isWithinFrom s.slots tok depth raw = true := by
  induction depth generalizing raw with
  | zero => cases within
  | succ depth ih =>
    rw [isWithinFrom] at within ⊢
    split at within
    · cases within
    · rename_i valid
      rw [if_neg valid]
      split at within
      · rename_i here
        rw [if_pos here]
      · rename_i other
        rw [if_neg other]
        split at within
        · cases within
        · rename_i inTable
          rw [if_neg inTable]
          split at within
          · cases within
          · rename_i current
            rcases issued with none | ⟨p, made, rfl⟩
            · exact absurd none valid
            · obtain ⟨before, parent⟩ :=
                sound.settled allowed stepped made valid (not_not.mp current)
              rw [if_neg (not_not.mpr before)]
              rw [parent] at within
              exact ih (sound.dated.tokens _) within

theorem Sound.isWithin_back (sound : Sound s) (allowed : lasting s a)
    (stepped : Scopes.step s a = some t) {raw tok : Nat} (issued : s.Issued raw)
    (within : isWithin t.slots raw tok = true) : isWithin s.slots raw tok = true := by
  unfold isWithin at within ⊢
  split at within
  · cases within
  · rename_i valid
    rw [if_neg valid]
    exact sound.isWithinFrom_back allowed stepped issued within

end JLibSched.Scopes
