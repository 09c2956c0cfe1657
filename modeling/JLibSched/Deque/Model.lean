import JLibSched.Lib.Transition
import JLibSched.Task.Basic

/-!
# The work-stealing deque

`TaskDeque` is a Chase-Lev deque on a growing ring.  The owner pushes and pops at `bottom`,
thieves take from `top`.  Every load, store and compare-exchange of `top`, `bottom`, the ring
pointer and a slot is one step.

Rings are never freed while the deque lives: a grown-out ring is retired and a thief may still
read it.  So the model keeps every ring ever made, numbered in the order they were made, and
`ring` is the number of the current one.

A steal is a `steal_if` whose predicate accepts everything.  The log records what the calls
return: a push when it publishes `bottom`, a pop when it returns, a steal when its
compare-exchange succeeds.
-/

namespace JLibSched.Deque

/-! ## Slots -/

/-- `kTagMask`. -/
def tagMask : BitVec 64 := 3

/-- `tag`: the pointer with the type in its low bits. -/
def tag (item : TaskRef) : BitVec 64 := item.addr ||| (item.type.code &&& 3)

/-- `untag`. -/
def untag (v : BitVec 64) : Ptr := v &&& ~~~ tagMask

/-- `bits`, decoded to a type.  The fourth code is never stored. -/
def bits (v : BitVec 64) : Option TaskType :=
  if v &&& 3 = TaskType.code .fiber then some .fiber
  else if v &&& 3 = TaskType.code .coroutine then some .coroutine
  else if v &&& 3 = TaskType.code .native then some .native
  else none

/-! ## State -/

/-- A ring: its capacity and its slots, read and written below the capacity. -/
structure Ring where
  capacity : Nat
  slots : Nat → BitVec 64

def Ring.mask (r : Ring) : Nat := r.capacity - 1

/-- The slot of an index. -/
def Ring.load (r : Ring) (i : Nat) : BitVec 64 := r.slots (i &&& r.mask)

def Ring.store (r : Ring) (i : Nat) (v : BitVec 64) : Ring :=
  { r with slots := Function.update r.slots (i &&& r.mask) v }

/-- `MakeRing`: all slots zero. -/
def makeRing (capacity : Nat) : Ring := { capacity, slots := fun _ => 0 }

/-- `kDefaultMaxCapacity`. -/
def defaultMaxCapacity : Nat := 2 ^ 16

/-- `kHardMaxCapacity`. -/
def hardMaxCapacity : Nat := 2 ^ 22

/-- A push: its tasks, and whether it is `push_bottom_batch`.  `push_bottom` has one task and
grows at most once. -/
structure Push where
  items : List TaskRef
  batch : Bool

/-- Where the owner stands, with the locals it still needs. -/
inductive OwnerPc where
  | idle
  /-- Push: `bottom` is loaded, `top` comes next. -/
  | pushTop (op : Push) (b : Nat)
  /-- Push: loads the ring and compares. -/
  | pushRing (op : Push) (b t : Nat)
  /-- `grow`: loads an old slot. -/
  | growLoad (op : Push) (b t new i : Nat)
  /-- `grow`: stores it into the new ring. -/
  | growStore (op : Push) (b t new i : Nat) (v : BitVec 64)
  /-- `grow`: publishes the new ring. -/
  | growPublish (op : Push) (b t new : Nat)
  /-- `push_bottom` loads the ring again after its one grow. -/
  | pushReload (op : Push) (b t : Nat)
  /-- Push: stores item `k`. -/
  | pushSlot (op : Push) (b t r k : Nat)
  /-- Push: publishes `bottom`. -/
  | pushBottom (op : Push) (b : Nat)
  /-- Push: `MarkHasWork`. -/
  | pushFlag
  /-- Pop: `bottom` is loaded, `top` comes next. -/
  | popTop (b : Nat)
  /-- Pop: stores the lowered `bottom`. -/
  | popStore (b : Nat)
  /-- Pop: loads `top` again. -/
  | popReload (b : Nat)
  /-- Pop, more than one left: loads the ring. -/
  | popRing (b : Nat)
  /-- Pop, more than one left: loads the slot and returns it. -/
  | popSlot (b r : Nat)
  /-- Pop, one left: loads the ring. -/
  | lastRing (b : Nat)
  /-- Pop, one left: loads the slot. -/
  | lastSlot (b r : Nat)
  /-- Pop, one left: competes for it on `top`. -/
  | lastCas (b : Nat) (v : BitVec 64)
  /-- Pop, one left and decided: restores `bottom`. -/
  | lastRestore (b : Nat) (result : Option Ptr)
  /-- Pop, none left: restores `bottom`. -/
  | popRestore (t : Nat)
  /-- Pop: `MarkEmpty`, then returns. -/
  | popFlag (result : Option Ptr)
  /-- `FatalGrow` or `FatalPopOnPushOnly`: the process is gone. -/
  | fatal

/-- What a thief's predicate accepts. -/
abbrev Vet := TaskType → Bool

/-- Where a thief stands. -/
inductive ThiefPc where
  | idle
  /-- `top` is loaded, `bottom` comes next. -/
  | bottom (vet : Vet) (t : Nat)
  /-- Loads the ring. -/
  | ring (vet : Vet) (t : Nat)
  /-- Loads the slot and vets it. -/
  | slot (vet : Vet) (t r : Nat)
  /-- Competes on `top`. -/
  | cas (vet : Vet) (t : Nat) (v : BitVec 64)

/-- What a call did when it took effect. -/
inductive Event where
  | pushed (items : List TaskRef)
  | popped (item : Ptr)
  | poppedNone
  | stole (vet : Vet) (item : Ptr)

/-- The deque, its owner, its thieves and the log of what the calls returned. -/
structure State where
  top : Nat
  bottom : Nat
  ring : Nat
  rings : Nat → Ring
  /-- How many rings have been made. -/
  made : Nat
  maxCapacity : Nat
  ceilingIsHard : Bool
  pushOnly : Bool
  /-- Whether `SetWorkFlag` gave it a flag, the flag byte and the owner's copy. -/
  hasFlag : Bool
  workFlag : Nat
  flagMirror : Nat
  owner : OwnerPc
  thief : Nat → ThiefPc
  log : List Event

/-- What the owner and the thieves may start. -/
inductive Label where
  | pushBottom (item : Option TaskRef)
  | pushBottomBatch (items : List TaskRef)
  | popBottom
  /-- The owner's next step.  The flag is whether an allocation succeeds. -/
  | owner (allocates : Bool)
  | steal (i : Nat)
  | stealIf (i : Nat) (vet : Vet)
  | thief (i : Nat)

/-- A deque as its constructor leaves it. -/
def initial (capacity maxCapacity : Nat) (pushOnly hasFlag : Bool) : State where
  top := 0
  bottom := 0
  ring := 0
  rings := fun _ => makeRing capacity
  made := 1
  maxCapacity := if maxCapacity < capacity then capacity else maxCapacity
  ceilingIsHard := maxCapacity != defaultMaxCapacity
  pushOnly
  hasFlag
  workFlag := 0
  flagMirror := 0
  owner := .idle
  thief := fun _ => .idle
  log := []

/-! ## The owner -/

def State.cur (s : State) : Ring := s.rings s.ring

/-- `StoreFlag`. -/
def State.storeFlag (s : State) (v : Nat) : State :=
  if s.hasFlag ∧ s.flagMirror ≠ v then { s with flagMirror := v, workFlag := v } else s

/-- The head of `grow`: the ceilings, then `MakeRing`. -/
def State.grow (s : State) (op : Push) (b t : Nat) (allocates : Bool) : State :=
  let newCap := s.cur.capacity * 2
  if newCap > s.maxCapacity ∧ (s.ceilingIsHard ∨ newCap > hardMaxCapacity) then
    { s with owner := .fatal }
  else if ¬ allocates then { s with owner := .fatal }
  else
    { s with
      rings := Function.update s.rings s.made (makeRing newCap)
      made := s.made + 1
      owner := if t = b then .growPublish op b t s.made else .growLoad op b t s.made t }

/-- The first slot store of a push, or its publication when there is nothing to store. -/
def pushEntry (op : Push) (b t r : Nat) : OwnerPc :=
  if op.items = [] then .pushBottom op b else .pushSlot op b t r 0

/-- What a pop logs. -/
def popEvent : Option Ptr → Event
  | some item => .popped item
  | none => .poppedNone

/-- One step of an owner's call. -/
def ownerStep (s : State) (allocates : Bool) : Option State :=
  match s.owner with
  | .idle => none
  | .pushTop op b => some { s with owner := .pushRing op b s.top }
  | .pushRing op b t =>
    if (b + op.items.length) - t > s.cur.capacity then some (s.grow op b t allocates)
    else some { s with owner := pushEntry op b t s.ring }
  | .growLoad op b t new i =>
    some { s with owner := .growStore op b t new i (s.cur.load i) }
  | .growStore op b t new i v =>
    some { s with
      rings := Function.update s.rings new ((s.rings new).store i v)
      owner := if i + 1 = b then .growPublish op b t new else .growLoad op b t new (i + 1) }
  | .growPublish op b t new =>
    some { s with ring := new,
                  owner := if op.batch then .pushRing op b t else .pushReload op b t }
  | .pushReload op b t => some { s with owner := pushEntry op b t s.ring }
  | .pushSlot op b t r k =>
    match op.items[k]? with
    | none => none
    | some item =>
      some { s with
        rings := Function.update s.rings r ((s.rings r).store (b + k) (tag item))
        owner := if k + 1 = op.items.length then .pushBottom op b
          else .pushSlot op b t r (k + 1) }
  | .pushBottom op b =>
    some { s with bottom := b + op.items.length, owner := .pushFlag,
                  log := s.log ++ [.pushed op.items] }
  | .pushFlag => some { s.storeFlag 1 with owner := .idle }
  | .popTop b => some { s with owner := if s.top ≥ b then .popFlag none else .popStore (b - 1) }
  | .popStore b => some { s with bottom := b, owner := .popReload b }
  | .popReload b =>
    some { s with owner := if s.top < b then .popRing b
      else if s.top = b then .lastRing b else .popRestore s.top }
  | .popRing b => some { s with owner := .popSlot b s.ring }
  | .popSlot b r =>
    some { s with owner := .idle, log := s.log ++ [.popped (untag ((s.rings r).load b))] }
  | .lastRing b => some { s with owner := .lastSlot b s.ring }
  | .lastSlot b r => some { s with owner := .lastCas b ((s.rings r).load b) }
  | .lastCas b v =>
    if s.top = b then some { s with top := b + 1, owner := .lastRestore b (some (untag v)) }
    else some { s with owner := .lastRestore b none }
  | .lastRestore b result => some { s with bottom := b + 1, owner := .popFlag result }
  | .popRestore t => some { s with bottom := t, owner := .popFlag none }
  | .popFlag result =>
    some { s.storeFlag 0 with
      owner := .idle
      log := s.log ++ [popEvent result] }
  | .fatal => none

/-! ## Thieves -/

def State.setThief (s : State) (i : Nat) (pc : ThiefPc) : State :=
  { s with thief := Function.update s.thief i pc }

/-- One step of a steal. -/
def thiefStep (s : State) (i : Nat) : Option State :=
  match s.thief i with
  | .idle => none
  | .bottom vet t => some (s.setThief i (if t < s.bottom then .ring vet t else .idle))
  | .ring vet t => some (s.setThief i (.slot vet t s.ring))
  | .slot vet t r =>
    let v := (s.rings r).load t
    some (s.setThief i (if (bits v).any vet then .cas vet t v else .idle))
  | .cas vet t v =>
    if s.top = t then
      some ({ s with top := t + 1, log := s.log ++ [Event.stole vet (untag v)] }.setThief i .idle)
    else some (s.setThief i .idle)

/-- `steal_if`, whose first access loads `top`. -/
def stealIf (s : State) (i : Nat) (vet : Vet) : Option State :=
  match s.thief i with
  | .idle => some (s.setThief i (.bottom vet s.top))
  | _ => none

/-- `steal`. -/
def steal (s : State) (i : Nat) : Option State := stealIf s i fun _ => true

/-! ## The system -/

/-- The owner enters a call.  Its first access loads `bottom`. -/
def State.enter (s : State) (pc : OwnerPc) : Option State :=
  match s.owner with
  | .idle => some { s with owner := pc }
  | _ => none

def OwnerPc.isFatal : OwnerPc → Bool
  | .fatal => true
  | _ => false

/-- One step of the system.  After a fatal stop nothing moves. -/
def step (s : State) (a : Label) : Option State :=
  if s.owner.isFatal then none
  else match a with
    | .pushBottom none => s.enter .idle
    | .pushBottom (some item) => s.enter (.pushTop ⟨[item], false⟩ s.bottom)
    | .pushBottomBatch items => s.enter (.pushTop ⟨items, true⟩ s.bottom)
    | .popBottom => s.enter (if s.pushOnly then .fatal else .popTop s.bottom)
    | .owner allocates => ownerStep s allocates
    | .steal i => steal s i
    | .stealIf i vet => stealIf s i vet
    | .thief i => thiefStep s i

/-! ## What a deque is for -/

/-- The sequential deque, oldest task first.  A pop returns the newest task, and none only
when there is none; a steal returns the oldest, if the thief's predicate accepts its type. -/
def applyEvent (content : List TaskRef) : Event → Option (List TaskRef)
  | .pushed items => some (content ++ items)
  | .popped item =>
    match content.getLast? with
    | some newest => if newest.addr = item then some content.dropLast else none
    | none => none
  | .poppedNone => if content = [] then some [] else none
  | .stole vet item =>
    match content with
    | oldest :: rest => if oldest.addr = item ∧ vet oldest.type then some rest else none
    | [] => none

/-- The content after a history, if every answer in it is one the sequential deque gives. -/
def replay : List TaskRef → List Event → Option (List TaskRef)
  | content, [] => some content
  | content, e :: es => (applyEvent content e).bind fun content' => replay content' es

/-- The tasks an event puts in. -/
def Event.pushes : Event → List Ptr
  | .pushed items => items.map (·.addr)
  | _ => []

/-- The task an event hands out. -/
def Event.returns : Event → List Ptr
  | .popped item | .stole _ item => [item]
  | _ => []

/-- The log is a history of the sequential deque; what was pushed is what was returned and
what is left, each as often; and when the owner is in no call, what is left lies between
`top` and `bottom`, oldest first. -/
def Linearized (s : State) : Prop :=
  ∃ content, replay [] s.log = some content ∧
    (s.log.flatMap Event.pushes).Perm
      (s.log.flatMap Event.returns ++ content.map (·.addr)) ∧
    (s.owner = .idle → s.top + content.length = s.bottom ∧
      ∀ k (h : k < content.length), s.cur.load (s.top + k) = tag content[k])

end JLibSched.Deque
