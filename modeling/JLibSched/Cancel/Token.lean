import Mathlib.Tactic

/-!
# Cancel tokens

A token names a slot of the scope table and the generation it was handed out with.  A slot has a
cancelled bit and the token of its parent scope.  `Cancelled` and `IsWithin` walk the parents, and
`CancelVia` sets the bit.

The two walks go in step: what lies within a cancelled scope is cancelled (`isWithin_cancelled`).
Both see the same as long as the scopes they pass stay alive (`Alive`).
-/

namespace JLibSched.Cancel

/-- `CancelSlot`, with `state` taken apart. -/
structure Slot where
  /-- The high half of `state`. -/
  generation : Nat
  /-- `kCancelledBit`. -/
  cancelled : Bool
  parent : Nat
deriving DecidableEq, Repr

abbrev Table := Nat → Slot

/-- `CancelToken::kNone`. -/
def kNone : Nat := 0xFFFFFFFF

def kCancelSlots : Nat := 65535

def kMaxScopeDepth : Nat := 8

/-- `CancelSlot::GenOf`. -/
def Slot.genOf (slot : Slot) : Nat := slot.generation % 2 ^ 16

/-- The slot a raw token names. -/
def index (raw : Nat) : Nat := raw % 2 ^ 16

/-- The generation a raw token was handed out with. -/
def gen (raw : Nat) : Nat := raw / 2 ^ 16

variable {slots slots' : Table} {raw ancestor tok depth : Nat}

/-- The loop of `CancelToken::Cancelled`, with the rounds that are left. -/
def cancelledFrom (slots : Table) : Nat → Nat → Bool
  | 0, _ => false
  | depth + 1, raw =>
    if raw = kNone then false
    else if kCancelSlots ≤ index raw then false
    else if (slots (index raw)).genOf ≠ gen raw then false
    else if (slots (index raw)).cancelled then true
    else cancelledFrom slots depth (slots (index raw)).parent

/-- `CancelToken::Cancelled`. -/
def cancelled (slots : Table) (raw : Nat) : Bool := cancelledFrom slots kMaxScopeDepth raw

/-- The loop of `CancelToken::IsWithin`. -/
def isWithinFrom (slots : Table) (ancestor : Nat) : Nat → Nat → Bool
  | 0, _ => false
  | depth + 1, raw =>
    if raw = kNone then false
    else if raw = ancestor then true
    else if kCancelSlots ≤ index raw then false
    else if (slots (index raw)).genOf ≠ gen raw then false
    else isWithinFrom slots ancestor depth (slots (index raw)).parent

/-- `CancelToken::IsWithin`. -/
def isWithin (slots : Table) (raw ancestor : Nat) : Bool :=
  if ancestor = kNone then false else isWithinFrom slots ancestor kMaxScopeDepth raw

/-- `CancelVia`. -/
def cancelVia (slots : Table) (raw : Nat) : Table × Bool :=
  if raw = kNone then (slots, false)
  else if kCancelSlots ≤ index raw then (slots, false)
  else if (slots (index raw)).genOf ≠ gen raw then (slots, false)
  else
    (Function.update slots (index raw) { slots (index raw) with cancelled := true }, true)

/-- The scope of a token is alive and has been cancelled. -/
structure Marked (slots : Table) (tok : Nat) : Prop where
  valid : tok ≠ kNone
  inTable : index tok < kCancelSlots
  current : (slots (index tok)).genOf = gen tok
  cancelled : (slots (index tok)).cancelled = true

instance (slots : Table) (tok : Nat) : Decidable (Marked slots tok) :=
  decidable_of_iff (tok ≠ kNone ∧ index tok < kCancelSlots ∧
      (slots (index tok)).genOf = gen tok ∧ (slots (index tok)).cancelled = true)
    ⟨fun ⟨valid, inTable, current, bit⟩ => ⟨valid, inTable, current, bit⟩,
      fun ⟨valid, inTable, current, bit⟩ => ⟨valid, inTable, current, bit⟩⟩

/-- The walks go in step. -/
theorem isWithinFrom_cancelledFrom (marked : Marked slots tok)
    (within : isWithinFrom slots tok depth raw = true) :
    cancelledFrom slots depth raw = true := by
  induction depth generalizing raw with
  | zero => cases within
  | succ depth ih =>
    unfold isWithinFrom at within
    unfold cancelledFrom
    split at within
    · cases within
    · rename_i valid
      rw [if_neg valid]
      split at within
      · rename_i here
        subst here
        rw [if_neg (Nat.not_le.mpr marked.inTable), if_neg (not_not.mpr marked.current),
          if_pos marked.cancelled]
      · split at within
        · cases within
        · rename_i inTable
          rw [if_neg inTable]
          split at within
          · cases within
          · rename_i current
            rw [if_neg current]
            split
            · rfl
            · exact ih within

/-- What lies within a cancelled scope is cancelled. -/
theorem isWithin_cancelled (marked : Marked slots tok) (within : isWithin slots raw tok = true) :
    cancelled slots raw = true := by
  unfold isWithin at within
  rw [if_neg marked.valid] at within
  exact isWithinFrom_cancelledFrom marked within

/-! ## Scopes that stay alive -/

/-- The slot is still the same scope's, and a cancelled one is still cancelled. -/
structure Slot.Keeps (slot slot' : Slot) : Prop where
  generation : slot'.genOf = slot.genOf
  parent : slot'.parent = slot.parent
  cancelled : slot.cancelled = true → slot'.cancelled = true

/-- The scopes that a walk passes stay alive. -/
def AliveFrom (slots slots' : Table) : Nat → Nat → Prop
  | 0, _ => True
  | depth + 1, raw =>
    raw ≠ kNone → index raw < kCancelSlots →
      (slots (index raw)).Keeps (slots' (index raw)) ∧
        AliveFrom slots slots' depth (slots (index raw)).parent

instance (slot slot' : Slot) : Decidable (slot.Keeps slot') :=
  decidable_of_iff (slot'.genOf = slot.genOf ∧ slot'.parent = slot.parent ∧
      (slot.cancelled = true → slot'.cancelled = true))
    ⟨fun ⟨generation, parent, cancelled⟩ => ⟨generation, parent, cancelled⟩,
      fun ⟨generation, parent, cancelled⟩ => ⟨generation, parent, cancelled⟩⟩

instance decidableAliveFrom (slots slots' : Table) :
    (depth raw : Nat) → Decidable (AliveFrom slots slots' depth raw)
  | 0, _ => isTrue trivial
  | depth + 1, raw =>
    have := decidableAliveFrom slots slots' depth (slots (index raw)).parent
    inferInstanceAs (Decidable (raw ≠ kNone → index raw < kCancelSlots →
      (slots (index raw)).Keeps (slots' (index raw)) ∧
        AliveFrom slots slots' depth (slots (index raw)).parent))

/-- The scopes of a token's chain stay alive. -/
def Alive (slots slots' : Table) (raw : Nat) : Prop := AliveFrom slots slots' kMaxScopeDepth raw

instance (slots slots' : Table) (raw : Nat) : Decidable (Alive slots slots' raw) :=
  decidableAliveFrom slots slots' kMaxScopeDepth raw

theorem Alive.refl : Alive slots slots raw := by
  unfold Alive
  generalize kMaxScopeDepth = depth
  induction depth generalizing raw with
  | zero => trivial
  | succ depth ih => exact fun _ _ => ⟨⟨rfl, rfl, id⟩, ih⟩

theorem AliveFrom.isWithinFrom_eq (alive : AliveFrom slots slots' depth raw) :
    isWithinFrom slots' ancestor depth raw = isWithinFrom slots ancestor depth raw := by
  induction depth generalizing raw with
  | zero => rfl
  | succ depth ih =>
    unfold isWithinFrom
    rcases eq_or_ne raw kNone with none | valid
    · rw [if_pos none, if_pos none]
    · rw [if_neg valid, if_neg valid]
      rcases Nat.lt_or_ge (index raw) kCancelSlots with inTable | out
      · obtain ⟨keeps, rest⟩ := alive valid inTable
        rw [keeps.generation, keeps.parent, ih rest]
      · rw [if_pos out, if_pos out]

theorem Alive.isWithin_eq (alive : Alive slots slots' raw) :
    isWithin slots' raw ancestor = isWithin slots raw ancestor := by
  unfold isWithin
  rw [AliveFrom.isWithinFrom_eq alive]

/-- A cancelled scope stays cancelled as long as it is alive. -/
theorem Marked.alive (marked : Marked slots tok) (alive : Alive slots slots' tok) :
    Marked slots' tok where
  valid := marked.valid
  inTable := marked.inTable
  current := (alive marked.valid marked.inTable).1.generation.trans marked.current
  cancelled := (alive marked.valid marked.inTable).1.cancelled marked.cancelled

/-- `CancelVia` ends no scope. -/
theorem cancelVia_keeps (i : Nat) : (slots i).Keeps ((cancelVia slots tok).1 i) := by
  have same : (slots i).Keeps (slots i) := ⟨rfl, rfl, id⟩
  unfold cancelVia
  split
  · exact same
  · split
    · exact same
    · split
      · exact same
      · rcases eq_or_ne i (index tok) with rfl | other
        · simp only [Function.update_self]
          exact ⟨rfl, rfl, fun _ => rfl⟩
        · simp only [Function.update_of_ne other]
          exact same

/-! ## Tasks -/

/-- What the tasks of `n` parties say about their cancellation: `cancelToken` and
`cancelledDirect`; a party without a task has no token. -/
structure Tasks (n : Nat) where
  slots : Table
  token : Fin n → Nat
  direct : Fin n → Bool

/-- `IsTaskCancelled`. -/
def Tasks.isTaskCancelled {n : Nat} (tasks : Tasks n) (p : Fin n) : Bool :=
  tasks.direct p || cancelled tasks.slots (tasks.token p)

/-- No scope was opened, and no task has a token. -/
def noScopes (n : Nat) : Tasks n where
  slots := fun _ => ⟨0, false, kNone⟩
  token := fun _ => kNone
  direct := fun _ => false

end JLibSched.Cancel
