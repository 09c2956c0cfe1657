import JLibSched.Lib.Links
import JLibSched.Scopes.Stale

/-!
# `FutureStateBase`

The waiters of a future are linked through nodes in the frames of their coroutines, the last one
first.  `Publish` takes the whole list, and `CancelWaiters` takes the nodes of a scope out and
links them onto a list of its own.  Both write what the waiters are to be told while they hold the
lock, and `Wake` walks the list that was taken without it.

Each section under `m_` is one step, and so is each turn of `Wake` up to the wake and the wake
itself.  A waiter has a task to resume, and the scheduler is up.  The counts that are returned are
left out, and so is the value.  The node of a party that does not wait is used for other things.
`waits`, `wakes`, `answers` and `swept` are kept for what is proved: no step looks at them.
-/

namespace JLibSched.Future

open Transition Cancel

inductive FutureStatus where
  | ready
  | cancelled
  | broken
deriving DecidableEq, Repr

/-- Who has taken waiters off. -/
inductive Taker where
  | publish (broken : Bool)
  | cancelWaiters
deriving DecidableEq, Repr

/-- What the waiters are told. -/
def Taker.status : Taker → FutureStatus
  | .publish broken => if broken then .broken else .ready
  | .cancelWaiters => .cancelled

/-- What a party is doing. -/
inductive Pc (n : Nat) where
  | idle
  | waiting
  /-- It was woken and has not read its status yet. -/
  | woken (taker : Taker)
  /-- `SetValue` after its test. -/
  | constructing
  /-- `Wake` before a waiter. -/
  | walking (taker : Taker) (w : Option (Fin n))
  /-- `Wake` that has read the link and the task of the waiter. -/
  | waking (taker : Taker) (w : Fin n) (next : Option (Fin n))
deriving DecidableEq, Repr

/-- The `FutureWaiter` of each party, and `waiters_`. -/
structure Nodes (n : Nat) where
  waiters : Option (Fin n)
  next : Fin n → Option (Fin n)
  token : Fin n → Nat
  status : Fin n → FutureStatus

structure State (n : Nat) where
  nodes : Nodes n
  ready : Bool
  broken : Bool
  pc : Fin n → Pc n
  scopes : Scopes.State
  /-- How often a party was queued, and how often it was woken. -/
  waits : Fin n → Nat
  wakes : Fin n → Nat
  /-- What the waits of a party have returned, the last one first. -/
  answers : Fin n → List FutureStatus
  /-- The scopes that had been cancelled when a `CancelWaiters` of theirs went through the list, and
  have not ended since. -/
  swept : List Nat

def initial (n : Nat) : State n where
  nodes := ⟨none, fun _ => none, fun _ => kNone, fun _ => .ready⟩
  ready := false
  broken := false
  pc := fun _ => .idle
  scopes := Scopes.initial
  waits := fun _ => 0
  wakes := fun _ => 0
  answers := fun _ => []
  swept := []

inductive Label (n : Nat) where
  /-- `ReadyOrQueue`, with the token of a scope or an invalid one. -/
  | readyOrQueue (p : Fin n) (scope : Option Nat)
  /-- `SetValue` of a value, up to its test. -/
  | setValue (p : Fin n)
  /-- `SetValue` without a value, or `Break` of a promise: `Publish` up to `Wake`. -/
  | publish (p : Fin n) (broken : Bool)
  | cancelWaiters (p : Fin n) (scope : Option Nat)
  /-- A call takes its next step. -/
  | advance (p : Fin n)
  /-- The node of a party that does not wait is written. -/
  | reuse (p : Fin n) (next : Option (Fin n)) (token : Nat) (status : FutureStatus)
  | scopes (a : Scopes.Label)
deriving DecidableEq, Repr

variable {n : Nat}

/-! ## Steps -/

def State.go (s : State n) (p : Fin n) (pc : Pc n) : State n :=
  { s with pc := Function.update s.pc p pc }

/-- The token of a scope, or an invalid one. -/
def State.tokenOf (s : State n) : Option Nat → Nat
  | none => kNone
  | some k => s.scopes.raw k

/-- A wait returns. -/
def State.answer (s : State n) (p : Fin n) (status : FutureStatus) : State n :=
  { s.go p .idle with answers := Function.update s.answers p (status :: s.answers p) }

/-- A waiter is linked. -/
def Nodes.push (nodes : Nodes n) (p : Fin n) (token : Nat) : Nodes n where
  waiters := some p
  next := Function.update nodes.next p nodes.waiters
  token := Function.update nodes.token p token
  status := Function.update nodes.status p .ready

/-- The section of `ReadyOrQueue`. -/
def State.readyOrQueue (s : State n) (p : Fin n) (token : Nat) : State n :=
  if s.ready then s.answer p .ready
  else if s.broken then s.answer p .broken
  else if token ≠ kNone ∧ cancelled s.scopes.slots token = true then s.answer p .cancelled
  else
    { s.go p .waiting with
      nodes := s.nodes.push p token
      waits := Function.update s.waits p (s.waits p + 1) }

/-- `*link`: the link of a node, or `waiters_`. -/
def Nodes.follow (nodes : Nodes n) : Option (Fin n) → Option (Fin n)
  | none => nodes.waiters
  | some w => nodes.next w

def Nodes.setLink (nodes : Nodes n) (link value : Option (Fin n)) : Nodes n :=
  match link with
  | none => { nodes with waiters := value }
  | some w => { nodes with next := Function.update nodes.next w value }

/-- Waiter `w` goes from behind `link` to the front of the list that is taken. -/
def Nodes.take (nodes : Nodes n) (link : Option (Fin n)) (w : Fin n) (taken : Option (Fin n)) :
    Nodes n :=
  let nodes := nodes.setLink link (nodes.next w)
  { nodes with
    status := Function.update nodes.status w .cancelled
    next := Function.update nodes.next w taken }

/-- The loop of `CancelWaiters`.  `fuel` bounds the turns. -/
def takeLoop (select : Fin n → Bool) : Nat → Nodes n → Option (Fin n) → Option (Fin n) →
    Option (Nodes n × Option (Fin n))
  | fuel, nodes, link, taken =>
    match nodes.follow link with
    | none => some (nodes, taken)
    | some w =>
      match fuel with
      | 0 => none
      | fuel + 1 =>
        if select w then takeLoop select fuel (nodes.take link w taken) link (some w)
        else takeLoop select fuel nodes (some w) taken

/-- The waiters that a `CancelWaiters` takes off. -/
def State.matches (s : State n) (token : Nat) (w : Fin n) : Bool :=
  decide (token = kNone) || isWithin s.scopes.slots (s.nodes.token w) token

/-- The section of `CancelWaiters`. -/
def State.cancelWaiters (s : State n) (p : Fin n) (token : Nat) : Option (State n) :=
  (takeLoop (s.matches token) n s.nodes none none).map fun (nodes, taken) =>
    { s.go p (.walking .cancelWaiters taken) with
      nodes := nodes
      swept := if Marked s.scopes.slots token then token :: s.swept else s.swept }

/-- The loop of `Publish`: the status of the nodes from `w` on.  `fuel` bounds the turns. -/
def tellLoop (told : FutureStatus) : Nat → Nodes n → Option (Fin n) → Option (Nodes n)
  | _, nodes, none => some nodes
  | 0, _, some _ => none
  | fuel + 1, nodes, some w =>
    tellLoop told fuel { nodes with status := Function.update nodes.status w told } (nodes.next w)

/-- `Publish`, up to `Wake`. -/
def State.publish (s : State n) (p : Fin n) (broken : Bool) : Option (State n) :=
  if s.ready || s.broken then some (s.go p .idle)
  else
    let taker := Taker.publish broken
    (tellLoop taker.status n { s.nodes with waiters := none } s.nodes.waiters).map fun nodes =>
      { s.go p (.walking taker s.nodes.waiters) with
        nodes := nodes
        ready := if broken then s.ready else true
        broken := if broken then true else s.broken }

/-- `WakeTask`. -/
def State.wake (s : State n) (taker : Taker) (w : Fin n) : State n :=
  { s.go w (.woken taker) with wakes := Function.update s.wakes w (s.wakes w + 1) }

def advance (s : State n) (p : Fin n) : Option (State n) :=
  match s.pc p with
  | .constructing => s.publish p false
  | .walking _ none => some (s.go p .idle)
  | .walking taker (some w) => some (s.go p (.waking taker w (s.nodes.next w)))
  | .waking taker w next => some ((s.wake taker w).go p (.walking taker next))
  | .woken _ => some (s.answer p (s.nodes.status p))
  | .idle | .waiting => none

def Pc.usesNode : Pc n → Bool
  | .waiting | .woken _ => true
  | .idle | .constructing | .walking _ _ | .waking _ _ _ => false

def step (s : State n) : Label n → Option (State n)
  | .readyOrQueue p scope =>
    if s.pc p = .idle ∧ s.scopes.has scope then some (s.readyOrQueue p (s.tokenOf scope))
    else none
  | .setValue p =>
    if s.pc p = .idle then
      some (s.go p (if s.ready || s.broken then .idle else .constructing))
    else none
  | .publish p broken => if s.pc p = .idle then s.publish p broken else none
  | .cancelWaiters p scope =>
    if s.pc p = .idle ∧ s.scopes.has scope then s.cancelWaiters p (s.tokenOf scope) else none
  | .advance p => advance s p
  | .reuse p next token status =>
    if (s.pc p).usesNode then none
    else some { s with
      nodes := { s.nodes with
        next := Function.update s.nodes.next p next
        token := Function.update s.nodes.token p token
        status := Function.update s.nodes.status p status } }
  | .scopes a =>
    (Scopes.step s.scopes a).map fun scopes =>
      { s with
        scopes := scopes
        swept := s.swept.filter fun tok => decide (Marked scopes.slots tok) }

end JLibSched.Future
