import Mathlib.Logic.Function.Basic
import Mathlib.Tactic

/-!
# The timer wheel

The wheel has four levels of 256 slots.  A slot of level `l` stands for a block of `256 ^ l`
ticks.  `Place` hangs an entry on the lowest level whose revolution reaches its deadline, and
`AdvanceTo` takes the entries of every block it enters off their slots and places them again,
relative to the new tick.  `NextEventTick` looks for the first occupied slot of each level.

Ticks count from `epochNs`, so none is negative.  A slot's list is the list of its entries in
order, and its occupancy bit is set when the list is not empty.  The free list is the list of
its entries.  A `generation` is a 32-bit number, and it is odd while its entry is armed.
-/

namespace JLibSched.Timer

/-- `kLevels`. -/
def levels : Nat := 4

/-- `kSlots`. -/
def slots : Nat := 256

/-- `LevelGranularity`. -/
def granularity (level : Nat) : Nat := slots ^ level

/-- `kMaxTicks`. -/
def maxTicks : Nat := slots ^ levels

/-- What an entry cancels and ejects: its token, its function and its context. -/
structure Eject where
  token : Option Nat
  eject : Option Nat
  ctx : Option Nat
deriving DecidableEq, Repr

/-- `Entry`.  An entry that is not linked has no level. -/
structure Entry where
  deadlineTick : Nat
  eject : Eject
  periodic : Option Nat
  generation : Nat
  level : Option Nat
  slot : Nat
deriving DecidableEq, Repr

/-- `Entry{}`. -/
def Entry.blank : Entry := ⟨0, ⟨none, none, none⟩, none, 0, none, 0⟩

/-- The entry is armed: its generation is odd. -/
def Entry.armed (e : Entry) : Prop := e.generation % 2 = 1

instance (e : Entry) : Decidable e.armed := inferInstanceAs (Decidable (_ = _))

structure Wheel where
  entries : Nat → Entry
  size : Nat
  free : List Nat
  heads : Nat → Nat → List Nat
  currentTick : Nat
  armedCount : Nat

namespace Wheel

def empty : Wheel := ⟨fun _ => .blank, 0, [], fun _ _ => [], 0, 0⟩

def modify (w : Wheel) (i : Nat) (f : Entry → Entry) : Wheel :=
  { w with entries := Function.update w.entries i (f (w.entries i)) }

def setHead (w : Wheel) (l s : Nat) (list : List Nat) : Wheel :=
  { w with heads := fun l' s' => if l' = l ∧ s' = s then list else w.heads l' s' }

/-! ## Occupancy -/

/-- The slots in the order `NextOccupied` looks at them: the rest of the first word, the other
words, and the beginning of the first word. -/
def scanOrder (start : Nat) : List Nat :=
  List.range' start (64 - start % 64) ++
    ([1, 2, 3].flatMap fun i => List.range' ((start / 64 + i) % 4 * 64) 64) ++
    List.range' (start / 64 * 64) (start % 64)

/-- `NextOccupied`: the first occupied slot, or `slots`. -/
def nextOccupied (w : Wheel) (l start : Nat) : Nat :=
  ((scanOrder start).find? fun s => w.heads l s ≠ []).getD slots

/-- `LevelEmpty`. -/
def levelEmpty (w : Wheel) (l : Nat) : Bool := (List.range slots).all fun s => w.heads l s = []

/-! ## Lists -/

/-- `Link`. -/
def link (w : Wheel) (i l s : Nat) : Wheel :=
  (w.modify i fun e => { e with level := some l, slot := s }).setHead l s (i :: w.heads l s)

/-- `Unlink`. -/
def unlink (w : Wheel) (i : Nat) : Wheel :=
  match (w.entries i).level with
  | none => w
  | some l =>
    (w.modify i fun e => { e with level := none }).setHead l (w.entries i).slot
      ((w.heads l (w.entries i).slot).erase i)

/-- Where `Place` puts an entry. -/
def placeOf (currentTick deadlineTick : Nat) : Nat × Nat :=
  if deadlineTick ≤ currentTick then (0, currentTick % slots)
  else
    match (List.range levels).find? fun l => deadlineTick - currentTick < granularity (l + 1) with
    | some l => (l, deadlineTick / granularity l % slots)
    | none => (levels - 1, (currentTick + maxTicks - 1) / granularity (levels - 1) % slots)

/-- `Place`. -/
def place (w : Wheel) (i deadlineTick : Nat) : Wheel :=
  w.link i (placeOf w.currentTick deadlineTick).1 (placeOf w.currentTick deadlineTick).2

/-- The loop of `Cascade`. -/
def replaceAll (w : Wheel) : List Nat → Wheel
  | [] => w
  | i :: rest =>
    replaceAll ((w.modify i fun e => { e with level := none }).place i
      (w.entries i).deadlineTick) rest

/-- `Cascade`. -/
def cascade (w : Wheel) (l s : Nat) : Wheel := (w.setHead l s []).replaceAll (w.heads l s)

/-! ## Entries -/

/-- `AcquireEntry`. -/
def acquireEntry (w : Wheel) : Wheel × Nat :=
  match w.free with
  | i :: rest => ({ w with free := rest }, i)
  | [] =>
    ({ w with entries := Function.update w.entries w.size .blank, size := w.size + 1 }, w.size)

/-- `ReleaseEntry`. -/
def releaseEntry (w : Wheel) (i : Nat) : Wheel :=
  { w.modify i fun e => { e with eject := ⟨none, none, none⟩, periodic := none, level := none } with
    free := i :: w.free }

/-- `++e.generation`. -/
def bump (e : Entry) : Entry := { e with generation := (e.generation + 1) % 2 ^ 32 }

/-- An armed entry ends: `Unlink`, the next generation, `ReleaseEntry`. -/
def disarm (w : Wheel) (i : Nat) : Wheel :=
  { ((w.unlink i).modify i bump).releaseEntry i with armedCount := w.armedCount - 1 }

/-- The entry of a periodic moves to its next deadline: `Unlink`, the deadline, `Place`. -/
def refire (w : Wheel) (i deadlineTick : Nat) : Wheel :=
  ((w.unlink i).modify i fun e => { e with deadlineTick := deadlineTick }).place i deadlineTick

/-! ## Time -/

/-- What `NextEventTick` finds on one level. -/
def levelEvent (w : Wheel) (l : Nat) : Option Nat :=
  if w.levelEmpty l then none
  else
    let cur := w.currentTick / granularity l % slots
    let start := if l = 0 then cur else (cur + 1) % slots
    let s := w.nextOccupied l start
    if s = slots then none
    else
      let ahead := (s + slots - start) % slots
      let base := if l = 0 then w.currentTick
        else (w.currentTick / granularity l + 1) * granularity l
      some (base + ahead * granularity l)

/-- The earlier of the best so far and what a level gives. -/
def earlier : Option Nat → Option Nat → Option Nat
  | best, none => best
  | none, some tick => some tick
  | some best, some tick => if tick < best then some tick else some best

/-- `NextEventTick`, where nothing stands for minus one. -/
def nextEventTick (w : Wheel) : Option Nat :=
  (List.range levels).foldl (fun best l => earlier best (w.levelEvent l)) none

/-- The slots that `AdvanceTo` cascades on one level. -/
def enteredSlots (first last : Nat) : List Nat :=
  if last - first ≥ slots then List.range slots
  else (List.range (last - first)).map fun k => (first + (k + 1)) % slots

/-- One level of `AdvanceTo`. -/
def cascadeSlots (w : Wheel) (l : Nat) : List Nat → Wheel
  | [] => w
  | s :: rest => (if w.heads l s ≠ [] then w.cascade l s else w).cascadeSlots l rest

/-- The levels of `AdvanceTo`, up to the first that stays in its block. -/
def cascadeLevels (w : Wheel) (from0 target : Nat) : List Nat → Wheel
  | [] => w
  | l :: rest =>
    if from0 / granularity l = target / granularity l then w
    else (w.cascadeSlots l (enteredSlots (from0 / granularity l)
      (target / granularity l))).cascadeLevels from0 target rest

/-- `AdvanceTo`. -/
def advanceTo (w : Wheel) (target : Nat) : Wheel :=
  if target ≤ w.currentTick then w
  else { w with currentTick := target }.cascadeLevels w.currentTick target [1, 2, 3]

end Wheel

end JLibSched.Timer
