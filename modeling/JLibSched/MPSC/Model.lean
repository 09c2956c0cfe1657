import JLibSched.Lib.Transition
import Mathlib.Data.Fintype.Basic
import Mathlib.Tactic

/-!
# The inbox queue

`TaskMPSCQueue` is an intrusive queue with many producers and one consumer.  A producer clears
the `next` field of its last task, exchanges `head_` and then stores the link from the node it
got back; between the two the queue is unlinked.  The consumer owns `tail_`, and puts the stub
back behind the last task before it hands that task out.  Every exchange, load and store of
`head_` and of a `next` field is one step.

A task that is in no push and in no queue belongs to somebody else, who may write its `next`
field at any time: this is how a batch is linked before it is pushed.

Beside the memory the state records what happened: the nodes from `tail_` to `head_` in the
order of their exchanges, what was pushed and popped, and whether, since the current `pop`
began, there was a moment when the queue was empty or cut behind `tail_`.
-/

namespace JLibSched.MPSC

/-- A place a pointer can name. -/
inductive Node where
  | stub
  | task (id : Nat)
deriving DecidableEq, Repr

/-- One task of one push, numbered in the order of the exchanges. -/
structure Entry where
  task : Nat
  producer : Nat
  number : Nat
deriving DecidableEq, Repr

/-- The place of an entry, where no entry stands for the stub. -/
def nodeOf : Option Entry → Node
  | none => .stub
  | some e => .task e.task

/-- Where a producer stands. -/
inductive ProducerPc where
  | idle
  /-- Clears `next` of its last task. -/
  | clear (items : List Nat)
  /-- Exchanges `head_`. -/
  | exchange (items : List Nat)
  /-- Stores the link from `prev` to its first task. -/
  | link (first : Nat) (prev : Node) (entry : Entry) (before : Option Entry)
deriving DecidableEq

/-- Where the consumer stands. -/
inductive ConsumerPc where
  | idle
  /-- `pop` loads `tail->next`. -/
  | popNext
  /-- `pop` has stepped over the stub and loads `next` again. -/
  | popSecond
  /-- `pop` loads `head_`. -/
  | popHead
  /-- `append(stub_)` clears its `next`. -/
  | stubClear
  /-- `append(stub_)` exchanges `head_`. -/
  | stubExchange
  /-- `append(stub_)` stores the link. -/
  | stubLink (prev : Node) (before : Option Entry)
  /-- `pop` loads `tail->next` a last time. -/
  | popAgain
  /-- `quiescent` loads `tail->next`. -/
  | quietNext
  /-- `quiescent` loads `head_`. -/
  | quietHead
deriving DecidableEq

/-- What the consumer's calls returned. -/
inductive Result where
  | popped (out : Node)
  /-- `pop` returned false; whether it had seen the queue empty or cut. -/
  | nothing (gap : Bool)
  /-- `quiescent`, and what was in the queue at its last load. -/
  | quiescent (answer : Bool) (left : List Entry)
deriving DecidableEq

/-- The queue with `n` producers. -/
structure State (n : Nat) where
  head : Node
  tail : Node
  next : Node → Option Node
  producer : Fin n → ProducerPc
  consumer : ConsumerPc
  /-- The nodes from `tail_` to `head_` in the order of their exchanges. -/
  nodes : List (Option Entry)
  /-- Every push so far, in the order of the exchanges. -/
  pushed : List Entry
  popped : List Entry
  /-- What each producer was called with, in the order of its calls. -/
  called : Fin n → List Nat
  gap : Bool
  results : List Result

/-- As `init` leaves it. -/
def initial (n : Nat) : State n where
  head := .stub
  tail := .stub
  next := fun _ => none
  producer := fun _ => .idle
  consumer := .idle
  nodes := [none]
  pushed := []
  popped := []
  called := fun _ => []
  gap := false
  results := []

section Steps

variable {n : Nat}

/-- The tasks in the queue. -/
def State.content (s : State n) : List Entry := s.nodes.filterMap id

/-- The tasks of a push before its exchange. -/
def ProducerPc.held : ProducerPc → List Nat
  | .clear items | .exchange items => items
  | _ => []

/-- Whether a push has exchanged `head_` and not yet stored its link from this node. -/
def ProducerPc.cuts (at_ : Node) : ProducerPc → Bool
  | .link _ prev _ _ => prev = at_
  | _ => false

/-- The queue is empty, or the push whose node follows `tail_` has not stored its link. -/
def State.gapNow (s : State n) : Bool :=
  s.content = [] ∨ ∃ p, (s.producer p).cuts s.tail

/-- A task in no push and in no queue. -/
def State.free (s : State n) (task : Nat) : Prop :=
  task ∉ s.content.map (·.task) ∧ ∀ p, task ∉ (s.producer p).held

instance (s : State n) (task : Nat) : Decidable (s.free task) :=
  inferInstanceAs (Decidable (_ ∧ _))

/-- A run that is linked from its first task to its last. -/
def linkedRun (next : Node → Option Node) : List Nat → Prop
  | [] => True
  | [_] => True
  | a :: b :: rest => next (.task a) = some (.task b) ∧ linkedRun next (b :: rest)

def linkedRun.decide (next : Node → Option Node) :
    (items : List Nat) → Decidable (linkedRun next items)
  | [] => isTrue trivial
  | [_] => isTrue trivial
  | _ :: b :: rest =>
    have := linkedRun.decide next (b :: rest)
    inferInstanceAs (Decidable (_ ∧ _))

instance (next : Node → Option Node) (items : List Nat) : Decidable (linkedRun next items) :=
  linkedRun.decide next items

/-! ## Producers -/

def State.setProducer (s : State n) (p : Fin n) (pc : ProducerPc) : State n :=
  { s with producer := Function.update s.producer p pc }

/-- The entries of a push. -/
def entries (producer : Nat) : Nat → List Nat → List Entry
  | _, [] => []
  | number, task :: rest => ⟨task, producer, number⟩ :: entries producer (number + 1) rest

/-- `push` is `push_batch` on a run of one. -/
def pushBatch (s : State n) (p : Fin n) (items : List Nat) : Option (State n) :=
  if s.producer p = .idle ∧ items ≠ [] ∧ items.Nodup ∧ (∀ t ∈ items, s.free t) ∧
      linkedRun s.next items then
    some { s.setProducer p (.clear items) with
      called := Function.update s.called p (s.called p ++ items) }
  else none

/-- One step of a push. -/
def producerStep (s : State n) (p : Fin n) : Option (State n) :=
  match s.producer p with
  | .idle => none
  | .clear items =>
    items.getLast?.map fun last =>
      { s.setProducer p (.exchange items) with
        next := Function.update s.next (.task last) none }
  | .exchange items =>
    match entries p s.pushed.length items, items.getLast? with
    | first :: rest, some last =>
      some { s.setProducer p (.link first.task s.head first (s.nodes.getLast?.getD none)) with
        head := .task last
        nodes := s.nodes ++ (first :: rest).map some
        pushed := s.pushed ++ first :: rest }
    | _, _ => none
  | .link first prev _ _ =>
    some { s.setProducer p .idle with
      next := Function.update s.next prev (some (.task first)) }

/-! ## The consumer -/

def State.answer (s : State n) (result : Result) : State n :=
  { s with consumer := .idle, results := s.results ++ [result] }

/-- `tail_ = next`, and the old `tail_` is handed out. -/
def State.take (s : State n) (next : Node) : State n :=
  { s.answer (.popped s.tail) with
    tail := next
    nodes := s.nodes.tail
    popped := s.popped ++ s.content.take 1 }

/-- One step of `pop` or `quiescent`. -/
def consumerStep (s : State n) : Option (State n) :=
  match s.consumer with
  | .idle => none
  | .popNext =>
    match s.next s.tail with
    | some next =>
      if s.tail = .stub then
        some { s with tail := next, nodes := s.nodes.tail, consumer := .popSecond }
      else some (s.take next)
    | none =>
      if s.tail = .stub then some (s.answer (.nothing s.gap))
      else some { s with consumer := .popHead }
  | .popSecond =>
    match s.next s.tail with
    | some next => some (s.take next)
    | none => some { s with consumer := .popHead }
  | .popHead =>
    if s.tail ≠ s.head then some (s.answer (.nothing s.gap))
    else some { s with consumer := .stubClear }
  | .stubClear =>
    some { s with next := Function.update s.next .stub none, consumer := .stubExchange }
  | .stubExchange =>
    some { s with
      head := .stub
      nodes := s.nodes ++ [none]
      consumer := .stubLink s.head (s.nodes.getLast?.getD none) }
  | .stubLink prev _ =>
    some { s with next := Function.update s.next prev (some .stub), consumer := .popAgain }
  | .popAgain =>
    match s.next s.tail with
    | some next => some (s.take next)
    | none => some (s.answer (.nothing s.gap))
  | .quietNext =>
    if s.tail ≠ .stub then some (s.answer (.quiescent false s.content))
    else if s.next s.tail ≠ none then some (s.answer (.quiescent false s.content))
    else some { s with consumer := .quietHead }
  | .quietHead => some (s.answer (.quiescent (s.head = s.tail) s.content))

/-- The consumer enters a call. -/
def State.enter (s : State n) (pc : ConsumerPc) : Option (State n) :=
  if s.consumer = .idle then some { s with consumer := pc, gap := false } else none

/-! ## The system -/

inductive Label (n : Nat) where
  /-- Somebody writes the `next` field of a task that is in no push and no queue. -/
  | prepare (task : Nat) (value : Option Node)
  | push (p : Fin n) (task : Nat)
  | pushBatch (p : Fin n) (items : List Nat)
  | producer (p : Fin n)
  | pop
  | quiescent
  | consumer

/-- One step, before the gap is noted. -/
def move (s : State n) : Label n → Option (State n)
  | .prepare task value =>
    if s.free task then some { s with next := Function.update s.next (.task task) value }
    else none
  | .push p task => pushBatch s p [task]
  | .pushBatch p items => pushBatch s p items
  | .producer p => producerStep s p
  | .pop => s.enter .popNext
  | .quiescent => s.enter .quietNext
  | .consumer => consumerStep s

/-- One step.  A gap seen at any moment of a call is remembered until the next call. -/
def step (s : State n) (a : Label n) : Option (State n) :=
  (move s a).map fun t => { t with gap := t.gap || t.gapNow }

end Steps

end JLibSched.MPSC
