import JLibSched.Lib.Bits
import JLibSched.Lib.Circular
import JLibSched.Lib.DoublyLinked
import JLibSched.Lib.Transition
import JLibSched.Timer.Invariant

/-!
# The wheel in memory

What `Wheel` has as lists the code keeps in four places: the links `prev` and `next` of the
entries with the heads of the slots, a bit for each slot in the words of its level, the level and
slot in an entry, and the links `nextFree` with the head of the free list.  Here the operations
write these as the code does.

Two machines run them.  In the first every call of `Link`, `Unlink`, `Place`, `Cascade`,
`AcquireEntry` and `ReleaseEntry` is a step, and `hand` has the entries that a section under the
mutex has taken off a list and not put on one yet.  In the second a step is a whole section.  A
section's deadlines are given by its label, so they may be any, and so is what the records of the
periodics and the clock say.
-/

namespace JLibSched.Timer

open Transition Links

/-- `kNil` is `none`.  `freeHead` and `nextFree` are an index plus one, or 0. -/
structure Memory where
  /-- The fields of an entry, but for its links. -/
  entries : Nat → Entry
  prev : Nat → Option Nat
  next : Nat → Option Nat
  nextFree : Nat → Nat
  size : Nat
  freeHead : Nat
  heads : Nat → Nat → Option Nat
  occ : Nat → Nat → BitVec 64
  currentTick : Nat
  armedCount : Nat

namespace Memory

/-- `Impl()`. -/
def empty : Memory where
  entries := fun _ => .blank
  prev := fun _ => none
  next := fun _ => none
  nextFree := fun _ => 0
  size := 0
  freeHead := 0
  heads := fun _ _ => none
  occ := fun _ _ => 0
  currentTick := 0
  armedCount := 0

/-- A cell of a table of rows. -/
def setCell {α : Type} (table : Nat → Nat → α) (l s : Nat) (value : α) : Nat → Nat → α :=
  fun l' s' => if l' = l ∧ s' = s then value else table l' s'

def modify (m : Memory) (i : Nat) (f : Entry → Entry) : Memory :=
  { m with entries := Function.update m.entries i (f (m.entries i)) }

/-! ## Occupancy -/

/-- `MarkOccupied`. -/
def markOccupied (m : Memory) (l s : Nat) : Memory :=
  { m with occ := setCell m.occ l (s / 64) (m.occ l (s / 64) ||| 1#64 <<< (s % 64)) }

/-- `MarkEmpty`. -/
def markEmpty (m : Memory) (l s : Nat) : Memory :=
  { m with occ := setCell m.occ l (s / 64) (m.occ l (s / 64) &&& ~~~(1#64 <<< (s % 64))) }

/-- The slot of the lowest bit of a word, if there is one. -/
def lowest (word : Nat) (w : BitVec 64) : Option Nat :=
  if w = 0#64 then none else some (word * 64 + Bits.countTrailingZeros w)

/-- `NextOccupied`. -/
def nextOccupied (m : Memory) (l start : Nat) : Nat :=
  let startWord := start / 64
  let startBit := start % 64
  match lowest startWord (m.occ l startWord &&& ~~~0#64 <<< startBit) with
  | some s => s
  | none =>
    match [1, 2, 3].findSome? fun i =>
      lowest ((startWord + i) % 4) (m.occ l ((startWord + i) % 4)) with
    | some s => s
    | none =>
      match lowest startWord (m.occ l startWord &&& ~~~(~~~0#64 <<< startBit)) with
      | some s => s
      | none => slots

/-! ## Lists -/

/-- `Link`. -/
def link (m : Memory) (i l s : Nat) : Memory :=
  markOccupied
    { m with
      entries := Function.update m.entries i { m.entries i with level := some l, slot := s }
      next := Function.update m.next i (m.heads l s)
      prev := match m.heads l s with
        | some n => Function.update (Function.update m.prev i none) n (some i)
        | none => Function.update m.prev i none
      heads := setCell m.heads l s (some i) }
    l s

/-- `Unlink`. -/
def unlink (m : Memory) (i : Nat) : Memory :=
  match (m.entries i).level with
  | none => m
  | some l =>
    let s := (m.entries i).slot
    let head := match m.prev i with
      | some _ => m.heads l s
      | none => m.next i
    { m with
      entries := Function.update m.entries i { m.entries i with level := none }
      next := Function.update (match m.prev i with
        | some p => Function.update m.next p (m.next i)
        | none => m.next) i none
      prev := Function.update (match m.next i with
        | some n => Function.update m.prev n (m.prev i)
        | none => m.prev) i none
      heads := setCell m.heads l s head
      occ := match head with
        | some _ => m.occ
        | none => (m.markEmpty l s).occ }

/-- `Place`. -/
def place (m : Memory) (i deadlineTick : Nat) : Memory :=
  m.link i (Wheel.placeOf m.currentTick deadlineTick).1
    (Wheel.placeOf m.currentTick deadlineTick).2

/-- The loop of `Cascade`, which has no more rounds than there are entries. -/
def replaceAll (m : Memory) : Nat → Option Nat → Memory
  | 0, _ | _, none => m
  | rounds + 1, some i =>
    replaceAll
      ({ m with
        entries := Function.update m.entries i { m.entries i with level := none }
        next := Function.update m.next i none
        prev := Function.update m.prev i none }.place i (m.entries i).deadlineTick)
      rounds (m.next i)

/-- `Cascade`. -/
def cascade (m : Memory) (l s : Nat) : Memory :=
  (markEmpty { m with heads := setCell m.heads l s none } l s).replaceAll m.size (m.heads l s)

/-! ## Entries -/

/-- `AcquireEntry`. -/
def acquireEntry (m : Memory) : Memory × Nat :=
  if m.freeHead ≠ 0 then
    ({ m with freeHead := m.nextFree (m.freeHead - 1) }, m.freeHead - 1)
  else
    ({ m with
      entries := Function.update m.entries m.size .blank
      prev := Function.update m.prev m.size none
      next := Function.update m.next m.size none
      nextFree := Function.update m.nextFree m.size 0
      size := m.size + 1 }, m.size)

/-- `ReleaseEntry`. -/
def releaseEntry (m : Memory) (i : Nat) : Memory :=
  { m.modify i fun e => { e with eject := ⟨none, none, none⟩, periodic := none, level := none } with
    nextFree := Function.update m.nextFree i m.freeHead
    freeHead := i + 1 }

/-! ## Time -/

/-- One level of `AdvanceTo`. -/
def cascadeSlots (m : Memory) (l : Nat) : List Nat → Memory
  | [] => m
  | s :: rest => (if m.heads l s ≠ none then m.cascade l s else m).cascadeSlots l rest

/-- The levels of `AdvanceTo`, up to the first that stays in its block. -/
def cascadeLevels (m : Memory) (from0 target : Nat) : List Nat → Memory
  | [] => m
  | l :: rest =>
    if from0 / granularity l = target / granularity l then m
    else (m.cascadeSlots l (Wheel.enteredSlots (from0 / granularity l)
      (target / granularity l))).cascadeLevels from0 target rest

/-- `AdvanceTo`. -/
def advanceTo (m : Memory) (target : Nat) : Memory :=
  if target ≤ m.currentTick then m
  else { m with currentTick := target }.cascadeLevels m.currentTick target [1, 2, 3]

/-! ## Sections -/

/-- A new entry on the wheel, and its index. -/
def insert (m : Memory) (deadlineTick : Nat) (fill : Entry → Entry) : Memory × Nat :=
  let r := m.acquireEntry
  ({ (r.1.modify r.2 fun e => { fill (Wheel.bump e) with deadlineTick }).place r.2
      deadlineTick with armedCount := r.1.armedCount + 1 }, r.2)

/-- An armed entry ends: `Unlink`, the next generation, `ReleaseEntry`. -/
def disarm (m : Memory) (i : Nat) : Memory :=
  { ((m.unlink i).modify i Wheel.bump).releaseEntry i with armedCount := m.armedCount - 1 }

/-- The entry of a periodic moves to its next deadline: `Unlink`, the deadline, `Place`. -/
def refire (m : Memory) (i deadlineTick : Nat) : Memory :=
  ((m.unlink i).modify i fun e => { e with deadlineTick }).place i deadlineTick

/-- The loop of `FireStepLocked`, and how many tasks and ejects it has collected.  `grid` is the
tick of a record's next grid point, and `launches` whether `FirePeriodicLocked` starts an
instance. -/
def collect (m : Memory) (grid : Nat → Nat) (launches : Nat → Bool) :
    Nat → Option Nat → Nat → Memory × Nat
  | 0, _, collected | _, none, collected => (m, collected)
  | rounds + 1, some i, collected =>
    if collected ≥ kBatch then (m, collected)
    else if (m.entries i).deadlineTick ≤ m.currentTick then
      match (m.entries i).periodic with
      | some r =>
        (m.refire i (grid r)).collect grid launches rounds (m.next i)
          (if launches r then collected + 1 else collected)
      | none => (m.disarm i).collect grid launches rounds (m.next i) (collected + 1)
    else m.collect grid launches rounds (m.next i) collected

/-- `FireStepLocked` up to where it drops the lock. -/
def fireStep (m : Memory) (next : Nat) (grid : Nat → Nat) (launches : Nat → Bool) : Memory :=
  let ahead := m.advanceTo next
  let r := ahead.collect grid launches ahead.size (ahead.heads 0 (ahead.currentTick % slots)) 0
  if r.2 = 0 then { r.1 with currentTick := r.1.currentTick + 1 } else r.1

/-! ## What the four records agree on -/

/-- The links of a slot, whose last entry nothing in memory names. -/
def chain (m : Memory) (l s : Nat) (last : Option Nat) : Doubly Nat :=
  ⟨m.next, m.prev, m.heads l s, last⟩

/-- An index plus one, or 0. -/
def index : Nat → Option Nat
  | 0 => none
  | i + 1 => some i

/-- The four records agree: a slot's head leads through its entries and back, its bit says whether
there are any, and an entry that is on no slot is on the free list once, unless it is in a hand. -/
structure Represented (m : Memory) (hand : List Nat) : Prop where
  lists : ∀ l < levels, ∀ s < slots, ∃ list, (m.chain l s list.getLast?).Holds list ∧
    list.Nodup ∧ ∀ i, i ∈ list ↔
      i < m.size ∧ (m.entries i).level = some l ∧ (m.entries i).slot = s
  occupied : ∀ l < levels, ∀ s < slots,
    (m.occ l (s / 64)).getLsbD (s % 64) = true ↔ m.heads l s ≠ none
  placed : ∀ i < m.size, ∀ l, (m.entries i).level = some l →
    l < levels ∧ (m.entries i).slot < slots
  free : ∃ list, Leads (fun i => index (m.nextFree i)) (index m.freeHead) list none ∧
    list.Nodup ∧ ∀ i, i ∈ list ↔ i < m.size ∧ (m.entries i).level = none ∧ i ∉ hand
  scan : ∀ l < levels, ∀ start < slots, m.nextOccupied l start =
    ((Circular.rotated slots start).find? fun s => (m.heads l s).isSome).getD slots

end Memory

/-! ## The machine of single calls -/

/-- The wheel in the middle of a section. -/
structure Held where
  memory : Memory
  /-- The entries that are on no list. -/
  hand : List Nat

inductive Call where
  | acquireEntry
  /-- The fields of an entry that say nothing of its lists. -/
  | write (i deadlineTick : Nat) (eject : Eject) (periodic : Option Nat) (generation : Nat)
  | link (i l s : Nat)
  | place (i deadlineTick : Nat)
  | unlink (i : Nat)
  | releaseEntry (i : Nat)
  | cascade (l s : Nat)
  | advanceTo (target : Nat)
  | setTick (tick : Nat)

namespace Held

def initial : Held := ⟨.empty, []⟩

def step (h : Held) : Call → Option Held
  | .acquireEntry => some ⟨h.memory.acquireEntry.1, h.memory.acquireEntry.2 :: h.hand⟩
  | .write i deadlineTick eject periodic generation =>
    if i < h.memory.size then
      some { h with
        memory := h.memory.modify i fun e => { e with deadlineTick, eject, periodic, generation } }
    else none
  | .link i l s =>
    if i ∈ h.hand ∧ l < levels ∧ s < slots then
      some ⟨h.memory.link i l s, h.hand.filter (· ≠ i)⟩
    else none
  | .place i deadlineTick =>
    if i ∈ h.hand then some ⟨h.memory.place i deadlineTick, h.hand.filter (· ≠ i)⟩ else none
  | .unlink i =>
    if i < h.memory.size then
      some ⟨h.memory.unlink i,
        if (h.memory.entries i).level = none then h.hand else i :: h.hand⟩
    else none
  | .releaseEntry i =>
    if i ∈ h.hand then some ⟨h.memory.releaseEntry i, h.hand.filter (· ≠ i)⟩ else none
  | .cascade l s =>
    if l < levels ∧ s < slots then some { h with memory := h.memory.cascade l s } else none
  | .advanceTo target => some { h with memory := h.memory.advanceTo target }
  | .setTick tick => some { h with memory := { h.memory with currentTick := tick } }

end Held

/-! ## The machine of sections -/

/-- The wheel between sections, and the entries that the records of the periodics name. -/
structure Queue where
  memory : Memory
  /-- `PeriodicRecord::entry`. -/
  entry : Nat → Option Nat
  records : Nat

inductive Section where
  | arm (nowTick deadlineTick : Nat) (eject : Eject)
  | disarm (index generation : Nat)
  /-- `Periodic::Start`. -/
  | start (nowTick deadlineTick : Nat)
  /-- `CancelPeriodicLocked`, for `Periodic::Cancel` and for an instance that wants to stop. -/
  | cancelPeriodic (r : Nat)
  | fireStep (next : Nat) (grid : Nat → Nat) (launches : Nat → Bool)
  /-- `Run` when nothing is on the wheel. -/
  | idle (nowTick : Nat)

namespace Queue

def initial : Queue := ⟨.empty, fun _ => none, 0⟩

def step (q : Queue) : Section → Option Queue
  | .arm nowTick deadlineTick eject =>
    some { q with
      memory := ((q.memory.advanceTo nowTick).insert deadlineTick fun e => { e with eject }).1 }
  | .disarm index generation =>
    if q.memory.size ≤ index then some q
    else if (q.memory.entries index).generation ≠ generation ∨ generation % 2 = 0 then some q
    -- the handle of a periodic is never handed out, and no handle is `2 ^ 31` reuses old
    else if (q.memory.entries index).periodic ≠ none then none
    else some { q with memory := q.memory.disarm index }
  | .start nowTick deadlineTick =>
    let r := (q.memory.advanceTo nowTick).insert deadlineTick fun e =>
      { e with periodic := some q.records }
    some
      { memory := r.1
        entry := Function.update q.entry q.records (some r.2)
        records := q.records + 1 }
  | .cancelPeriodic r =>
    match q.entry r with
    | none => some q
    | some i =>
      some { q with
        memory := q.memory.disarm i
        entry := Function.update q.entry r none }
  | .fireStep next grid launches =>
    some { q with memory := q.memory.fireStep next grid launches }
  | .idle nowTick => some { q with memory := { q.memory with currentTick := nowTick } }

end Queue

end JLibSched.Timer
