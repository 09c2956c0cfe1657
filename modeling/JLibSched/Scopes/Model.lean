import JLibSched.Cancel.Token
import JLibSched.Lib.Transition

/-!
# `CancelScope`

A scope takes a slot of the table from the list of free ones, writes the token of its parent there,
and hands out a token with the slot and its generation.  When it ends the generation is counted up,
and the slot goes back to the front of the list.

Constructors and destructors run beside one another, one access of a slot at a time; `AcquireSlot`
and `ReleaseSlot` are one step each.  Tokens come from scopes.  `within`, `parent`, `asked` and
`outlived` are kept for what is proved: no step looks at them.
-/

namespace JLibSched.Scopes

open Transition Cancel

/-- What a scope is doing. -/
inductive Phase where
  | unborn
  /-- The constructor has its slot, and a parent to look up. -/
  | resolving (i : Nat) (parent : Nat)
  /-- It is about to write the parent. -/
  | storing (i : Nat) (parent : Nat)
  /-- It is about to read the generation. -/
  | reading (i : Nat)
  | live
  /-- The destructor has counted the generation up. -/
  | clearing (i : Nat)
  /-- It has cleared the parent. -/
  | releasing (i : Nat)
  | gone
deriving DecidableEq, Repr

structure State where
  slots : Table
  /-- `nextFree` and the index of `FreeHead`, where the source has the number of the slot plus
  one, or 0. -/
  nextFree : Nat → Option Nat
  freeHead : Option Nat
  /-- How many scopes were made. -/
  made : Nat
  phase : Nat → Phase
  /-- `raw_`. -/
  raw : Nat → Nat
  /-- Whose token a scope was made with, and whether that scope was found. -/
  within : Nat → Option Nat
  parent : Nat → Option Nat
  /-- Whether `Cancel` was called while it was alive, or `CancelVia` on the token. -/
  asked : Nat → Bool
  /-- The scopes within this one that were alive when it ended. -/
  outlived : Nat → List Nat

def initial : State where
  slots := fun _ => ⟨0, false, kNone⟩
  nextFree := fun i => if i + 1 < kCancelSlots then some (i + 1) else none
  freeHead := some 0
  made := 0
  phase := fun _ => .unborn
  raw := fun _ => kNone
  within := fun _ => none
  parent := fun _ => none
  asked := fun _ => false
  outlived := fun _ => []

inductive Label where
  /-- `CancelScope()`, or `CancelScope(parent)` with the token of a scope, up to `AcquireSlot`. -/
  | create (parent : Option Nat)
  /-- `~CancelScope`, up to the exchange of `state`. -/
  | destroy (k : Nat)
  /-- A constructor or destructor takes its next step. -/
  | advance (k : Nat)
  | cancel (k : Nat)
  | cancelVia (k : Nat)
deriving DecidableEq, Repr

/-! ## Steps -/

/-- `ResolveCancelSlot`, in the number of the slot. -/
def resolveCancelSlot (slots : Table) (raw : Nat) : Option Nat :=
  if kCancelSlots ≤ index raw then none
  else if (slots (index raw)).genOf ≠ gen raw then none
  else some (index raw)

/-- The token of slot `i`. -/
def tokenOf (slots : Table) (i : Nat) : Nat := (slots i).genOf * 2 ^ 16 + i

/-- The constructor of the scope has returned. -/
def Phase.made : Phase → Bool
  | .live | .clearing _ | .releasing _ | .gone => true
  | .unborn | .resolving _ _ | .storing _ _ | .reading _ => false

/-- The destructor has counted the generation up. -/
def Phase.ended : Phase → Bool
  | .clearing _ | .releasing _ | .gone => true
  | .unborn | .resolving _ _ | .storing _ _ | .reading _ | .live => false

def State.go (s : State) (k : Nat) (phase : Phase) : State :=
  { s with phase := Function.update s.phase k phase }

def State.write (s : State) (i : Nat) (slot : Slot) : State :=
  { s with slots := Function.update s.slots i slot }

/-- What the constructor does first with its slot. -/
def firstPhase (s : State) (i : Nat) : Option Nat → Phase
  | none => .storing i kNone
  | some p => .resolving i (s.raw p)

/-- The constructors, up to `AcquireSlot`. -/
def State.create (s : State) (parent : Option Nat) : State :=
  let s' := { s with made := s.made + 1, within := Function.update s.within s.made parent }
  match s.freeHead with
  | none => s'.go s.made .live
  | some i => { s'.go s.made (firstPhase s i parent) with freeHead := s.nextFree i }

/-- The other live scopes that lie within scope `k`. -/
def State.liveWithin (s : State) (k : Nat) : List Nat :=
  (List.range s.made).filter fun j =>
    decide (j ≠ k) && decide (s.phase j = .live) && isWithin s.slots (s.raw j) (s.raw k)

/-- The slot of a scope that has ended: a new generation, and no scope of its own. -/
def nextUse (slot : Slot) : Slot := ⟨(slot.generation + 1) % 2 ^ 32, false, slot.parent⟩

/-- The destructor, up to the exchange of `state`. -/
def State.destroy (s : State) (k : Nat) : State :=
  let i := index (s.raw k)
  if s.raw k = kNone then s.go k .gone
  else
    { (s.go k (.clearing i)).write i (nextUse (s.slots i)) with
      outlived := Function.update s.outlived k (s.liveWithin k) }

def State.cancel (s : State) (k : Nat) : State :=
  let i := index (s.raw k)
  { if s.raw k = kNone then s else s.write i { s.slots i with cancelled := true } with
    asked := Function.update s.asked k true }

/-- Whether `ResolveCancelSlot` finds the parent. -/
def finds (slots : Table) (parent : Nat) : Bool := (resolveCancelSlot slots parent).isSome

def advance (s : State) (k : Nat) : Option State :=
  match s.phase k with
  | .resolving i parent =>
    if finds s.slots parent then
      some { s.go k (.storing i parent) with
        parent := Function.update s.parent k (s.within k) }
    else some (s.go k (.storing i kNone))
  | .storing i parent =>
    some ((s.go k (.reading i)).write i { s.slots i with parent := parent })
  | .reading i => some { s.go k .live with raw := Function.update s.raw k (tokenOf s.slots i) }
  | .clearing i =>
    some ((s.go k (.releasing i)).write i { s.slots i with parent := kNone })
  | .releasing i =>
    some { s.go k .gone with
      nextFree := Function.update s.nextFree i s.freeHead
      freeHead := some i }
  | .unborn | .live | .gone => none

/-- The token of a scope that was made. -/
def State.has (s : State) (parent : Option Nat) : Prop :=
  ∀ p ∈ parent, (s.phase p).made = true

instance (s : State) (parent : Option Nat) : Decidable (s.has parent) :=
  inferInstanceAs (Decidable (∀ p ∈ parent, (s.phase p).made = true))

def step (s : State) : Label → Option State
  | .create parent => if s.has parent then some (s.create parent) else none
  | .destroy k => if s.phase k = .live then some (s.destroy k) else none
  | .advance k => advance s k
  | .cancel k => if s.phase k = .live then some (s.cancel k) else none
  | .cancelVia k =>
    if (s.phase k).made then
      some { s with
        slots := (Cancel.cancelVia s.slots (s.raw k)).1
        asked := if s.phase k = .live then Function.update s.asked k true else s.asked }
    else none

end JLibSched.Scopes
