import JLibSched.Lib.Transition
import JLibSched.Deque.Model

/-!
# The deque in machine words

`top_`, `bottom_`, a ring's capacity and its mask are `size_t`, and the tests of a push are on
differences that wrap.  Here the deque computes with 64-bit words as the code does, from any
capacity and ceiling that the constructor accepts, and a ring has the slots below its capacity and
no others.  The work flag, which decides nothing here, is left out.

A batch is an array of pointers and lies in memory, so it has less than `2 ^ 61` of them, and
`MakeRing` can get no larger array of slots either.
-/

namespace JLibSched.Deque.Words

open Transition

abbrev Word := BitVec 64

/-! ## Rings -/

structure Ring where
  mask : Word
  capacity : Word
  slots : Word → BitVec 64

/-- The slot of an index. -/
def Ring.place (r : Ring) (i : Word) : Word := i &&& r.mask

def Ring.load (r : Ring) (i : Word) : BitVec 64 := r.slots (r.place i)

def Ring.store (r : Ring) (i : Word) (v : BitVec 64) : Ring :=
  { r with slots := Function.update r.slots (r.place i) v }

/-- An array of that many pointers fits into the address space. -/
def Addressable (count : Nat) : Prop := 8 * count < 2 ^ 64

instance (count : Nat) : Decidable (Addressable count) :=
  inferInstanceAs (Decidable (8 * count < 2 ^ 64))

/-- `MakeRing`, which the allocator may refuse. -/
def makeRing (allocates : Bool) (capacity : Word) : Option Ring :=
  if allocates = true ∧ Addressable capacity.toNat then
    some { mask := capacity - 1, capacity, slots := fun _ => 0 }
  else none

def kDefaultMaxCapacity : Word := BitVec.ofNat 64 defaultMaxCapacity

def kHardMaxCapacity : Word := BitVec.ofNat 64 hardMaxCapacity

/-! ## State -/

/-- `push_bottom` of a task, or `push_bottom_batch` of an array. -/
inductive Push where
  | one (item : TaskRef)
  | batch (items : List TaskRef) (fits : Addressable items.length)

def Push.items : Push → List TaskRef
  | .one item => [item]
  | .batch items _ => items

def Push.isBatch : Push → Bool
  | .one _ => false
  | .batch _ _ => true

def Push.count (op : Push) : Word := BitVec.ofNat 64 op.items.length

/-- Where the owner stands, with the locals it still needs. -/
inductive OwnerPc where
  | idle
  /-- Push: `bottom_` is loaded, `top_` comes next. -/
  | pushTop (op : Push) (b : Word)
  /-- Push: loads the ring and compares. -/
  | pushRing (op : Push) (b t : Word)
  /-- `grow`: copies slot `i` into the new ring. -/
  | growCopy (op : Push) (b t : Word) (new : Nat) (i : Word)
  /-- `grow`: publishes the new ring. -/
  | growPublish (op : Push) (b t : Word) (new : Nat)
  /-- `push_bottom` loads the ring again after its one grow. -/
  | pushReload (op : Push) (b t : Word)
  /-- Push: stores item `k`. -/
  | pushSlot (op : Push) (b t : Word) (r : Nat) (k : Nat)
  /-- Push: publishes `bottom_`. -/
  | pushBottom (op : Push) (b : Word)
  /-- Pop: `bottom_` is loaded, `top_` comes next. -/
  | popTop (b : Word)
  /-- Pop: stores the lowered `bottom_`. -/
  | popStore (b : Word)
  /-- Pop: loads `top_` again. -/
  | popReload (b : Word)
  /-- Pop, more than one left: loads the ring. -/
  | popRing (b : Word)
  /-- Pop, more than one left: loads the slot. -/
  | popSlot (b : Word) (r : Nat)
  /-- Pop, one left: loads the ring. -/
  | lastRing (b : Word)
  /-- Pop, one left: loads the slot. -/
  | lastSlot (b : Word) (r : Nat)
  /-- Pop, one left: competes for it on `top_`. -/
  | lastCas (b : Word) (v : BitVec 64)
  /-- Pop, one left and decided: restores `bottom_`. -/
  | lastRestore (b : Word) (result : Option Ptr)
  /-- Pop, none left: restores `bottom_`. -/
  | popRestore (t : Word)
  | popReturn (result : Option Ptr)
  /-- `FatalGrow` or `FatalPopOnPushOnly`: the process is gone. -/
  | fatal

/-- Where a thief stands. -/
inductive ThiefPc where
  | idle
  /-- `top_` is loaded, `bottom_` comes next. -/
  | bottom (vet : Vet) (t : Word)
  /-- Loads the ring. -/
  | ring (vet : Vet) (t : Word)
  /-- Loads the slot and vets it. -/
  | slot (vet : Vet) (t : Word) (r : Nat)
  /-- Competes on `top_`. -/
  | cas (vet : Vet) (t : Word) (v : BitVec 64)

/-- The rings are numbered as they are made, and a grown-out one is kept. -/
structure State where
  top : Word
  bottom : Word
  ring : Nat
  rings : Nat → Ring
  made : Nat
  maxCapacity : Word
  ceilingIsHard : Bool
  pushOnly : Bool
  owner : OwnerPc
  thief : Nat → ThiefPc

inductive Label where
  | pushBottom (item : Option TaskRef)
  | pushBottomBatch (items : List TaskRef) (fits : Addressable items.length)
  | popBottom
  /-- The owner's next step.  The flag is whether an allocation succeeds. -/
  | owner (allocates : Bool)
  | steal (i : Nat)
  | stealIf (i : Nat) (vet : Vet)
  | thief (i : Nat)

/-- The constructor, which throws for a capacity that fails its test, and when there is no memory
for the ring. -/
def construct (capacity maxCapacity : Word) (allocates pushOnly : Bool) : Option State :=
  if capacity &&& (capacity - 1) ≠ 0 then none
  else (makeRing allocates capacity).map fun ring =>
    { top := 0
      bottom := 0
      ring := 0
      rings := fun _ => ring
      made := 1
      maxCapacity := if maxCapacity < capacity then capacity else maxCapacity
      ceilingIsHard := maxCapacity != kDefaultMaxCapacity
      pushOnly
      owner := .idle
      thief := fun _ => .idle }

def State.cur (s : State) : Ring := s.rings s.ring

/-! ## The owner -/

/-- The test before a grow: an `if` in `push_bottom`, the loop condition in `push_bottom_batch`. -/
def Push.Full (op : Push) (b t capacity : Word) : Prop :=
  match op with
  | .one _ => b - t ≥ capacity
  | .batch _ _ => b + op.count - t > capacity

instance (op : Push) (b t capacity : Word) : Decidable (op.Full b t capacity) :=
  match op with
  | .one _ => inferInstanceAs (Decidable (b - t ≥ capacity))
  | .batch items fits =>
    inferInstanceAs (Decidable (b + (Push.batch items fits).count - t > capacity))

/-- `grow` stops the process at a ceiling. -/
def State.AtCeiling (s : State) (newCap : Word) : Prop :=
  newCap > s.maxCapacity ∧ (s.ceilingIsHard = true ∨ newCap > kHardMaxCapacity)

instance (s : State) (newCap : Word) : Decidable (s.AtCeiling newCap) :=
  inferInstanceAs (Decidable (_ ∧ _))

/-- The head of `grow`. -/
def State.grow (s : State) (op : Push) (b t : Word) (allocates : Bool) : State :=
  let newCap := s.cur.capacity * 2
  if s.AtCeiling newCap then { s with owner := .fatal }
  else match makeRing allocates newCap with
    | none => { s with owner := .fatal }
    | some r =>
      { s with
        rings := Function.update s.rings s.made r
        made := s.made + 1
        owner := if t = b then .growPublish op b t s.made else .growCopy op b t s.made t }

/-- The first slot store of a push, or its publication when there is nothing to store. -/
def pushEntry (op : Push) (b t : Word) (r : Nat) : OwnerPc :=
  if op.items = [] then .pushBottom op b else .pushSlot op b t r 0

/-- One step of an owner's call. -/
def ownerStep (s : State) (allocates : Bool) : Option State :=
  match s.owner with
  | .idle => none
  | .pushTop op b => some { s with owner := .pushRing op b s.top }
  | .pushRing op b t =>
    if op.Full b t s.cur.capacity then some (s.grow op b t allocates)
    else some { s with owner := pushEntry op b t s.ring }
  | .growCopy op b t new i =>
    some { s with
      rings := Function.update s.rings new ((s.rings new).store i (s.cur.load i))
      owner := if i + 1 = b then .growPublish op b t new else .growCopy op b t new (i + 1) }
  | .growPublish op b t new =>
    some { s with ring := new,
                  owner := if op.isBatch then .pushRing op b t else .pushReload op b t }
  | .pushReload op b t => some { s with owner := pushEntry op b t s.ring }
  | .pushSlot op b t r k =>
    match op.items[k]? with
    | none => none
    | some item =>
      some { s with
        rings := Function.update s.rings r
          ((s.rings r).store (b + BitVec.ofNat 64 k) (tag item))
        owner := if k + 1 = op.items.length then .pushBottom op b
          else .pushSlot op b t r (k + 1) }
  | .pushBottom op b => some { s with bottom := b + op.count, owner := .idle }
  | .popTop b => some { s with owner := if s.top ≥ b then .popReturn none else .popStore (b - 1) }
  | .popStore b => some { s with bottom := b, owner := .popReload b }
  | .popReload b =>
    some { s with owner := if s.top ≤ b then if s.top = b then .lastRing b else .popRing b
      else .popRestore s.top }
  | .popRing b => some { s with owner := .popSlot b s.ring }
  | .popSlot b r => some { s with owner := .popReturn (some (untag ((s.rings r).load b))) }
  | .lastRing b => some { s with owner := .lastSlot b s.ring }
  | .lastSlot b r => some { s with owner := .lastCas b ((s.rings r).load b) }
  | .lastCas b v =>
    if s.top = b then some { s with top := b + 1, owner := .lastRestore b (some (untag v)) }
    else some { s with owner := .lastRestore b none }
  | .lastRestore b result => some { s with bottom := b + 1, owner := .popReturn result }
  | .popRestore t => some { s with bottom := t, owner := .popReturn none }
  | .popReturn _ => some { s with owner := .idle }
  | .fatal => none

/-! ## Thieves -/

def State.setThief (s : State) (i : Nat) (pc : ThiefPc) : State :=
  { s with thief := Function.update s.thief i pc }

/-- One step of a steal. -/
def thiefStep (s : State) (i : Nat) : Option State :=
  match s.thief i with
  | .idle => none
  | .bottom vet t => some (s.setThief i (if t < s.bottom then .ring vet t else .idle))
  | .ring vet t => some (s.setThief i (.slot vet t s.ring))
  | .slot vet t r =>
    let v := (s.rings r).load t
    some (s.setThief i (if (bits v).any vet then .cas vet t v else .idle))
  | .cas _ t _ =>
    if s.top = t then some ({ s with top := t + 1 }.setThief i .idle)
    else some (s.setThief i .idle)

/-- `steal_if`, whose first access loads `top_`. -/
def stealIf (s : State) (i : Nat) (vet : Vet) : Option State :=
  match s.thief i with
  | .idle => some (s.setThief i (.bottom vet s.top))
  | _ => none

/-- `steal`. -/
def steal (s : State) (i : Nat) : Option State := stealIf s i fun _ => true

/-! ## The system -/

/-- The owner enters a call. -/
def State.enter (s : State) (pc : OwnerPc) : Option State :=
  match s.owner with
  | .idle => some { s with owner := pc }
  | _ => none

def OwnerPc.isFatal : OwnerPc → Bool
  | .fatal => true
  | _ => false

/-- One step of the system.  After a fatal stop nothing moves. -/
def step (s : State) (a : Label) : Option State :=
  if s.owner.isFatal then none
  else match a with
    | .pushBottom none => s.enter .idle
    | .pushBottom (some item) => s.enter (.pushTop (.one item) s.bottom)
    | .pushBottomBatch items fits => s.enter (.pushTop (.batch items fits) s.bottom)
    | .popBottom => s.enter (if s.pushOnly then .fatal else .popTop s.bottom)
    | .owner allocates => ownerStep s allocates
    | .steal i => steal s i
    | .stealIf i vet => stealIf s i vet
    | .thief i => thiefStep s i

/-! ## What a sound deque is -/

/-- The slots that the owner's next step accesses: the ring, and the index. -/
def State.ownerUses (s : State) : List (Nat × Word) :=
  match s.owner with
  | .growCopy _ _ _ new i => [(s.ring, i), (new, i)]
  | .pushSlot _ b _ r k => [(r, b + BitVec.ofNat 64 k)]
  | .popSlot b r | .lastSlot b r => [(r, b)]
  | _ => []

/-- The slot that a thief's next step accesses. -/
def State.thiefUses (s : State) (i : Nat) : List (Nat × Word) :=
  match s.thief i with
  | .slot _ t r => [(r, t)]
  | _ => []

/-- The index lies on the ring. -/
def State.OnRing (s : State) (use : Nat × Word) : Prop :=
  ((s.rings use.1).place use.2).toNat < (s.rings use.1).capacity.toNat

/-- Every slot that is accessed is one of its ring's. -/
def InBounds (s : State) : Prop :=
  (∀ use ∈ s.ownerUses, s.OnRing use) ∧ ∀ i, ∀ use ∈ s.thiefUses i, s.OnRing use

/-- The live elements end here: at `bottom_`, after what a push is about to store, or after the
last element as long as a pop competes for it. -/
def OwnerPc.reach (bottom : Word) : OwnerPc → Word
  | .pushSlot op b _ _ _ | .pushBottom op b => b + op.count
  | .popReload b | .lastRing b | .lastSlot b _ | .lastCas b _ | .lastRestore b _ => b + 1
  | .popRestore t => t
  | _ => bottom

/-- The indices of the live elements. -/
def State.Live (s : State) (i : Word) : Prop := i - s.top < s.owner.reach s.bottom - s.top

/-- Two live elements have two slots. -/
def Unshared (s : State) : Prop :=
  ∀ i j, s.Live i → s.Live j → s.cur.place i = s.cur.place j → i = j

/-- The owner is in the grow loop of `push_bottom_batch`. -/
def OwnerPc.inLoop : OwnerPc → Bool
  | .pushRing op _ _ | .growCopy op _ _ _ _ | .growPublish op _ _ _ => op.isBatch
  | _ => false

def Label.byThief : Label → Bool
  | .steal _ | .stealIf _ _ | .thief _ => true
  | .pushBottom _ | .pushBottomBatch _ _ | .popBottom | .owner _ => false

/-- From a state on, the owner has made so many steps and been in the loop before each of them,
among any steps of thieves. -/
inductive Looping (s : State) : Nat → State → Prop where
  | start : Looping s 0 s
  | owner {k : Nat} {u v : State} {allocates : Bool} :
      Looping s k u → u.owner.inLoop = true → step u (.owner allocates) = some v →
        Looping s (k + 1) v
  | thief {k : Nat} {u v : State} {a : Label} :
      Looping s k u → a.byThief = true → step u a = some v → Looping s k v

/-- The grow loop ends: the owner makes only so many steps in it. -/
def LoopEnds (s : State) : Prop := ∃ most, ∀ k u, Looping s k u → k ≤ most

structure Sound (s : State) : Prop where
  inBounds : InBounds s
  unshared : Unshared s
  loopEnds : LoopEnds s

end JLibSched.Deque.Words
