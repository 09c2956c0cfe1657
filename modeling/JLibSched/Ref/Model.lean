import JLibSched.Lib.Transition

/-!
# Counted references

A `Ref` owns one reference of the object it points to, and so does a pointer that was given up with
`ReleaseToShared`: it stands in a structure of the user (`source`) or on its way there or back
(`shared`).  Every access of a count or of a source is one step.  What a thread does with variables
of its own is one step as well.

An object is freed when it was retired and no thread has a guard open that was open when its last
reference went.  An address may be used again after that.
-/

namespace JLibSched.Ref

/-- What a variable is. -/
inductive Kind where
  /-- A `Ref`. -/
  | ref
  /-- An atomic pointer that `Acquire` may read. -/
  | source
  /-- A plain pointer that owns a reference. -/
  | shared
deriving DecidableEq, Repr

/-- Where a thread is. -/
inductive Pc (m : Nat) where
  | idle
  /-- The copy constructor has read `o` and goes on to `Increment`. -/
  | increment (o : Fin m) (p : Nat)
  /-- `Reset` has emptied the `Ref` and goes on to `DecrementIsLast`. -/
  | decrement (p : Nat)
  | retire (p : Nat)
  /-- `Acquire` loads `src`. -/
  | load (src : Fin m)
  /-- `TryIncrement` loads the count. -/
  | loadRefs (src : Fin m) (p : Nat)
  /-- It has found `c` and tries to put `c + 1`. -/
  | exchange (src : Fin m) (p : Nat) (c : UInt32)
  /-- `Acquire` loads `src` again. -/
  | recheck (src : Fin m) (p : Nat)
deriving DecidableEq, Repr

structure State (n m : Nat) where
  alive : Nat → Bool
  refs : Nat → UInt32
  /-- How often the object was retired. -/
  retired : Nat → Nat
  /-- Whether the object waits for the guard of the thread. -/
  protects : Nat → Fin n → Bool
  /-- How many guards the thread has open. -/
  guards : Fin n → Nat
  value : Fin m → Option Nat
  pc : Fin n → Pc m

inductive Label (n m : Nat) where
  | make (r : Fin m) (p : Nat)
  | copy (i : Fin n) (o : Fin m)
  | move (r o : Fin m)
  | swap (r o : Fin m)
  | reset (i : Fin n) (r : Fin m)
  | releaseToShared (r x : Fin m)
  | adoptFromShared (r x : Fin m)
  /-- A source is written, and what it held is taken out. -/
  | publish (src x : Fin m)
  | openGuard (i : Fin n)
  | closeGuard (i : Fin n)
  | acquire (i : Fin n) (src : Fin m)
  /-- The thread goes on.  A new `Ref` is put into `r`, and a weak exchange may fail. -/
  | step (i : Fin n) (r : Fin m) (fails : Bool)
  /-- The deleter of the object runs. -/
  | delete (p : Nat)
deriving DecidableEq

section

variable {n m : Nat}

def initial : State n m where
  alive := fun _ => false
  refs := fun _ => 0
  retired := fun _ => 0
  protects := fun _ _ => false
  guards := fun _ => 0
  value := fun _ => none
  pc := fun _ => .idle

/-- The copy constructor is reading the variable. -/
def Pc.reads (v : Fin m) : Pc m → Bool
  | .increment o _ => o = v
  | _ => false

/-- The variable may be written. -/
def State.free (s : State n m) (v : Fin m) : Prop := ∀ i, (s.pc i).reads v = false

instance (s : State n m) (v : Fin m) : Decidable (s.free v) :=
  inferInstanceAs (Decidable (∀ i, (s.pc i).reads v = false))

def State.goto (s : State n m) (i : Fin n) (pc : Pc m) : State n m :=
  { s with pc := Function.update s.pc i pc }

/-- Two variables exchange what they hold. -/
def State.exchange (s : State n m) (v w : Fin m) : State n m :=
  { s with value := Function.update (Function.update s.value v (s.value w)) w (s.value v) }

/-- A thread takes one more reference into an empty `Ref`. -/
def State.take (kind : Fin m → Kind) (s : State n m) (i : Fin n) (r : Fin m) (p : Nat) :
    Option (State n m) :=
  if kind r = .ref ∧ s.value r = none then
    some { s with
      refs := Function.update s.refs p (s.refs p + 1)
      value := Function.update s.value r (some p)
      pc := Function.update s.pc i .idle }
  else none

/-- `DecrementIsLast`, and whether the object is to be retired. -/
def State.decrement (s : State n m) (i : Fin n) (p : Nat) : State n m :=
  if s.refs p = 1 then
    { s with
      refs := Function.update s.refs p (s.refs p - 1)
      protects := Function.update s.protects p fun j => 0 < s.guards j
      pc := Function.update s.pc i (.retire p) }
  else
    { s with
      refs := Function.update s.refs p (s.refs p - 1)
      pc := Function.update s.pc i .idle }

/-- `TryIncrement` has found the count `c`. -/
def Pc.found (src : Fin m) (p : Nat) (c : UInt32) : Pc m :=
  if c = 0 then .recheck src p else .exchange src p c

def advance (kind : Fin m → Kind) (s : State n m) (i : Fin n) (r : Fin m) (fails : Bool) :
    Option (State n m) :=
  match s.pc i with
  | .idle => none
  | .increment _ p => s.take kind i r p
  | .decrement p => some (s.decrement i p)
  | .retire p =>
    some { s with
      retired := Function.update s.retired p (s.retired p + 1)
      pc := Function.update s.pc i .idle }
  | .load src =>
    match s.value src with
    | none => some (s.goto i .idle)
    | some p => some (s.goto i (.loadRefs src p))
  | .loadRefs src p => some (s.goto i (.found src p (s.refs p)))
  | .exchange src p c =>
    if s.refs p = c ∧ fails = false then s.take kind i r p
    else some (s.goto i (.found src p (s.refs p)))
  | .recheck src p =>
    if s.value src = some p then some (s.goto i .idle) else some (s.goto i (.load src))

def step (kind : Fin m → Kind) (s : State n m) : Label n m → Option (State n m)
  | .make r p =>
    if kind r = .ref ∧ s.value r = none ∧ s.alive p = false then
      some { s with
        alive := Function.update s.alive p true
        refs := Function.update s.refs p 1
        retired := Function.update s.retired p 0
        protects := Function.update s.protects p fun _ => false
        value := Function.update s.value r (some p) }
    else none
  | .copy i o =>
    if s.pc i = .idle ∧ kind o = .ref then
      match s.value o with
      | none => some s
      | some p => some (s.goto i (.increment o p))
    else none
  | .move r o =>
    if kind r = .ref ∧ kind o = .ref ∧ s.value r = none ∧ s.free r ∧ s.free o then
      some (s.exchange r o)
    else none
  | .swap r o =>
    if kind r = .ref ∧ kind o = .ref ∧ s.free r ∧ s.free o then some (s.exchange r o) else none
  | .reset i r =>
    if s.pc i = .idle ∧ kind r = .ref ∧ s.free r then
      match s.value r with
      | none => some s
      | some p =>
        some { s with
          value := Function.update s.value r none
          pc := Function.update s.pc i (.decrement p) }
    else none
  | .releaseToShared r x =>
    if kind r = .ref ∧ kind x = .shared ∧ s.value x = none ∧ s.free r ∧ s.free x then
      some (s.exchange r x)
    else none
  | .adoptFromShared r x =>
    if kind r = .ref ∧ kind x = .shared ∧ s.value r = none ∧ s.free r ∧ s.free x then
      some (s.exchange r x)
    else none
  | .publish src x =>
    if kind src = .source ∧ kind x = .shared ∧ s.free src ∧ s.free x then
      some (s.exchange src x)
    else none
  | .openGuard i =>
    if s.pc i = .idle then
      some { s with guards := Function.update s.guards i (s.guards i + 1) }
    else none
  | .closeGuard i =>
    if s.pc i = .idle ∧ 0 < s.guards i then
      some { s with
        guards := Function.update s.guards i (s.guards i - 1)
        protects := if s.guards i = 1 then fun p => Function.update (s.protects p) i false
          else s.protects }
    else none
  | .acquire i src =>
    if s.pc i = .idle ∧ kind src = .source ∧ 0 < s.guards i then some (s.goto i (.load src))
    else none
  | .step i r fails => advance kind s i r fails
  | .delete p =>
    if s.alive p = true ∧ 0 < s.retired p ∧ ∀ i, s.protects p i = false then
      some { s with alive := Function.update s.alive p false }
    else none

/-! ## References -/

def named (p : Nat) (value : Option Nat) : Nat := if value = some p then 1 else 0

/-- A reference that `Reset` has taken out of a `Ref`. -/
def Pc.drops (p : Nat) : Pc m → Nat
  | .decrement q => if q = p then 1 else 0
  | _ => 0

def Pc.retires (p : Nat) : Pc m → Nat
  | .retire q => if q = p then 1 else 0
  | _ => 0

/-- How many references of the object there are. -/
def State.references (s : State n m) (p : Nat) : Nat :=
  ∑ v, named p (s.value v) + ∑ i, (s.pc i).drops p

/-- The threads that are about to retire the object. -/
def State.retiring (s : State n m) (p : Nat) : Nat := ∑ i, (s.pc i).retires p

/-- The object that a thread takes a reference of when it goes on. -/
def Pc.takes (refs : Nat → UInt32) (fails : Bool) : Pc m → Option Nat
  | .increment _ p => some p
  | .exchange _ p c => if refs p = c ∧ fails = false then some p else none
  | _ => none

/-- There are fewer than `2 ^ 32` references after the step. -/
def fewReferences (s : State n m) : Label n m → Prop
  | .step i _ fails => ∀ p ∈ (s.pc i).takes s.refs fails, s.references p + 1 < 2 ^ 32
  | _ => True

instance (s : State n m) : (a : Label n m) → Decidable (fewReferences s a)
  | .step i _ fails =>
    inferInstanceAs (Decidable (∀ p ∈ (s.pc i).takes s.refs fails, s.references p + 1 < 2 ^ 32))
  | .make .. | .copy .. | .move .. | .swap .. | .reset .. | .releaseToShared ..
  | .adoptFromShared .. | .publish .. | .openGuard .. | .closeGuard .. | .acquire ..
  | .delete .. => isTrue trivial

end

end JLibSched.Ref
