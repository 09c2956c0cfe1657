import JLibSched.Lib.Transition

/-!
# The record of a periodic

`Periodic::Start` makes a record that the timer wheel, the instances it fires and the handle share.
The timer mutex `m` guards the flags; `Join` waits for the group `runs` without it.  The destructor,
and an assignment to the handle, cancels, joins and deletes the record; after `Detach` the last of the
others deletes it.

A step is a section under `m`, or an access of `runs`: `FinishPeriodic` is split, since `Join` may
pass while it holds `m`.  A waiter that is not a fiber sees the count at zero and settles, and may
have set the waiter bit before; a fiber sets the bit and is woken, or wakes itself when the count is
zero already.  The handle belongs to one thread, which joins only after it has cancelled, and the
pool outlives it.

An access of the record after it was deleted is undefined: the model stops and notes where it was.
-/

namespace JLibSched.Periodic

/-- Where an instance is. -/
inductive Pc where
  | idle
  /-- In `LaunchPeriodic`. -/
  | launch
  | queued
  /-- `RunPeriodic` before the callback, with `cancelled` as it was read. -/
  | run (cancelled : Bool)
  /-- `FinishPeriodic` before its section. -/
  | finish (stop : Bool)
  /-- `DoneBegin`: before `waking` rises, before the decrement, and before `waking` falls. -/
  | done
  | marked
  | unmark
  /-- Before `detached` and `cancelled` are read. -/
  | flags (wake : Bool)
  /-- After the section: before `WakeAll`, and before the record is deleted. -/
  | wake (free : Bool)
  | free
deriving DecidableEq, Repr

/-- Where the thread with the handle is; `destroys` if the record is deleted after the wait. -/
inductive Owner where
  | idle
  | poll (destroys : Bool)
  | settle (destroys : Bool)
  | fetchOr (destroys : Bool)
  | suspended (destroys : Bool)
  | joined (destroys : Bool)
  /-- In `Detach`, before the record is deleted. -/
  | free
  | gone
deriving DecidableEq, Repr

/-- Where the record was accessed. -/
inductive Site where
  | fire
  | launch
  | run
  | finish
  | mark
  | decrement
  | unmark
  | flags
  | wake
  | cancel
  | join
  | detach
deriving DecidableEq, Repr

structure State where
  armed : Bool
  inFlight : Bool
  cancelled : Bool
  detached : Bool
  /-- `runs`: the count, the waiter bit and `waking`. -/
  count : Nat
  waiterBit : Bool
  waking : Nat
  /-- The instance that holds `m` between steps. -/
  locked : Option Nat
  inst : Nat → Pc
  owner : Owner
  /-- How often the record was deleted. -/
  freed : Nat
  bad : Option Site

/-- `Start` has returned. -/
def initial : State where
  armed := true
  inFlight := false
  cancelled := false
  detached := false
  count := 0
  waiterBit := false
  waking := 0
  locked := none
  inst := fun _ => .idle
  owner := .idle
  freed := 0
  bad := none

inductive Label where
  /-- The wheel reaches the entry; a new instance would be `i`. -/
  | fire (i : Nat)
  /-- A step of an instance: `ok` that the launch succeeds, or that the callback returns true. -/
  | advance (i : Nat) (ok : Bool)
  | cancel
  | join (fiber : Bool)
  | destroy (fiber : Bool)
  | detach
  /-- A step of the thread with the handle; `register` that it sets the waiter bit. -/
  | owner (register : Bool)
deriving DecidableEq, Repr

/-! ## Steps -/

def State.go (s : State) (i : Nat) (pc : Pc) : State :=
  { s with inst := Function.update s.inst i pc }

/-- An access of the record. -/
def State.touch (s : State) (site : Site) (next : Option State) : Option State :=
  if s.freed = 0 then next else some { s with bad := some site }

/-- `FirePeriodicLocked`. -/
def State.firePeriodic (s : State) (i : Nat) : Option State :=
  if s.inFlight then some s
  else if s.inst i = .idle then
    some { s.go i .launch with inFlight := true, count := s.count + 1 }
  else none

/-- `CancelPeriodicLocked`. -/
def State.cancelPeriodic (s : State) : State :=
  { s with cancelled := true, armed := false }

/-- `WakeAll`. -/
def State.wakeAll (s : State) : State :=
  { s with
    waiterBit := false
    waking := s.waking - 1
    owner := match s.owner with
      | .suspended destroys => .joined destroys
      | owner => owner }

/-- `LaunchPeriodic`, `RunPeriodic` and `FinishPeriodic`. -/
def State.advance (s : State) (i : Nat) (ok : Bool) : Option State :=
  match s.inst i with
  | .idle => none
  | .launch => s.touch .launch (some (s.go i (if ok then .queued else .finish false)))
  | .queued =>
    if s.locked = none then s.touch .run (some (s.go i (.run s.cancelled))) else none
  | .run cancelled => s.touch .run (some (s.go i (.finish (!(cancelled || ok)))))
  | .finish stop =>
    if s.locked = none then
      s.touch .finish (some { (if stop then s.cancelPeriodic else s).go i .done with
        inFlight := false
        locked := some i })
    else none
  | .done => s.touch .mark (some { s.go i .marked with waking := s.waking + 1 })
  | .marked =>
    s.touch .decrement (some { s.go i (if s.count = 1 ∧ s.waiterBit then .flags true else .unmark) with
      count := s.count - 1 })
  | .unmark => s.touch .unmark (some { s.go i (.flags false) with waking := s.waking - 1 })
  | .flags wake =>
    let free := s.detached && s.cancelled
    s.touch .flags (some
      { s.go i (if wake then .wake free else if free then .free else .idle) with locked := none })
  | .wake free => s.touch .wake (some (s.wakeAll.go i (if free then .free else .idle)))
  | .free => some { s.go i .idle with freed := s.freed + 1 }

/-- `Join` begins to wait. -/
def State.join (s : State) (fiber destroys : Bool) : State :=
  { s with owner := if fiber then .fetchOr destroys else .poll destroys }

def State.advanceOwner (s : State) (register : Bool) : Option State :=
  match s.owner with
  | .poll destroys =>
    if register then s.touch .join (some { s with waiterBit := true })
    else if s.count = 0 then s.touch .join (some { s with owner := .settle destroys })
    else none
  | .settle destroys =>
    if s.waking = 0 then s.touch .join (some { s with owner := .joined destroys }) else none
  | .fetchOr destroys =>
    -- with the count at zero `AddWaiter` wakes its own task
    if s.count = 0 then
      s.touch .join (some { s with waiterBit := false, owner := .joined destroys })
    else s.touch .join (some { s with waiterBit := true, owner := .suspended destroys })
  | .joined destroys =>
    some (if destroys then { s with owner := .gone, freed := s.freed + 1 }
      else { s with owner := .idle })
  | .free => some { s with owner := .gone, freed := s.freed + 1 }
  | _ => none

def step (s : State) (a : Label) : Option State :=
  if s.bad.isSome then none
  else match a with
    | .fire i =>
      if s.armed ∧ s.locked = none then s.touch .fire (s.firePeriodic i) else none
    | .advance i ok => s.advance i ok
    | .cancel =>
      if s.owner = .idle ∧ s.locked = none then s.touch .cancel (some s.cancelPeriodic) else none
    | .join fiber =>
      if s.owner = .idle ∧ s.cancelled then s.touch .join (some (s.join fiber false)) else none
    | .destroy fiber =>
      if s.owner = .idle ∧ s.locked = none then
        s.touch .cancel (some (s.cancelPeriodic.join fiber true))
      else none
    | .detach =>
      if s.owner = .idle ∧ s.locked = none then
        s.touch .detach (some { s with
          detached := true
          owner := if s.cancelled && !s.inFlight then .free else .gone })
      else none
    | .owner register => s.advanceOwner register

/-- The wait may end with the next step. -/
def Owner.ends (count : Nat) : Owner → Bool
  | .settle _ => true
  | .fetchOr _ => count = 0
  | _ => false

/-- No wait for the record ends while an instance holds the timer mutex. -/
def patient (s : State) : Label → Prop
  | .owner _ => s.owner.ends s.count = true → s.locked = none
  | _ => True

instance (s : State) : (a : Label) → Decidable (patient s a)
  | .owner _ => inferInstanceAs (Decidable (s.owner.ends s.count = true → s.locked = none))
  | .fire _ => .isTrue trivial
  | .advance _ _ => .isTrue trivial
  | .cancel => .isTrue trivial
  | .join _ => .isTrue trivial
  | .destroy _ => .isTrue trivial
  | .detach => .isTrue trivial

/-- The destructor does not delete the record while an instance holds the timer mutex. -/
def spared (s : State) (a : Label) : Prop :=
  s.owner = .joined true → (a = .owner true ∨ a = .owner false) → s.locked = none

instance (s : State) (a : Label) : Decidable (spared s a) :=
  inferInstanceAs (Decidable (_ → _ ∨ _ → _))

end JLibSched.Periodic
