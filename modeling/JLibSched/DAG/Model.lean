import JLibSched.Lib.Stacks
import Mathlib.Tactic

/-!
# Task graphs

A `TaskDAG` is a graph of nodes: tasks, AND and OR gates, and external nodes that somebody
signals.  `Submit` checks for a cycle, collects the roots and fires them.  A node that finishes
walks its edge list, delivers each edge to its dependent, and seals the list; a dependent whose
last edge is delivered is fired.  `AddDependency` may add an edge to a running graph and
delivers it itself when it finds the list sealed.

Every atomic access is one step.  A thread has a stack of frames, because delivering an edge
may fire a node, which may finish at once and walk in turn.  A frame carries the locals of its
call.  The body of a task is a frame too: while it is on top its thread may call into the graph.

The edge list of a node is a tagged pointer to a list of edges that never change, so the model
has the list itself with the two tag bits, and comparing pointers is comparing lists: no two
edges are equal.

Each node also records what happened to it.  None of these fields is read by the code.
-/

namespace JLibSched.DAG

/-- `TaskNode::Outcome`. -/
inductive Outcome where
  | completed
  | cancelled
deriving DecidableEq, Repr

/-- `TaskNode::LogicType`. -/
inductive LogicType where
  | and
  | or
deriving DecidableEq, Repr

/-- How a node was created. -/
inductive Kind where
  | task
  | gate (type : LogicType)
  | external
deriving DecidableEq, Repr

/-- `gateType`, which only `CreateGate` sets. -/
def Kind.gateType : Kind → LogicType
  | .gate type => type
  | _ => .and

/-- `DagEdge`, with its identity and the node whose list it is meant for. -/
structure Edge where
  id : Nat
  source : Nat
  dep : Nat
deriving DecidableEq, Repr

/-- `firstEdge`: the list behind the pointer and the two tag bits. -/
structure Head where
  edges : List Edge
  isSealed : Bool
  isCancelled : Bool
deriving DecidableEq, Repr

/-- The outcome a sealed list carries. -/
def Head.outcome (head : Head) : Outcome := if head.isCancelled then .cancelled else .completed

/-- `TaskNode`. -/
structure Node where
  kind : Kind
  /-- `task` is not null. -/
  task : Bool
  left : Int
  firstEdge : Head
  submitted : Bool
  armed : Bool
  signalled : Bool
  /-- Record: whether it was created with a task. -/
  given : Bool
  /-- Record: its task waits in the scheduler. -/
  queued : Bool
  /-- Record: how often its task was pushed, run, discarded by the scheduler and disposed of by
  the graph. -/
  pushed : Nat
  ran : Nat
  discarded : Nat
  disposed : Nat
  /-- Record: the outcomes with which it entered `OnTaskFinished`. -/
  finished : List Outcome
  /-- Record: the edges in its list that have not been delivered. -/
  undelivered : List Edge
  /-- Record: the edges that were counted in `left`, those not yet taken off again, and those
  counted before it was fired. -/
  incs : List Edge
  counted : List Edge
  before : List Edge
  /-- Record: it was collected as a root, or its counter was brought to zero. -/
  released : Bool
  /-- Record: its task reached the push. -/
  dispatched : Bool
  /-- Record: the guards that were open when it was retired, and whether it was freed. -/
  retired : Option (List Nat)
  freed : Bool

/-- A node as its constructor leaves it. -/
def Node.new (kind : Kind) (task : Bool) : Node where
  kind
  task
  left := 0
  firstEdge := ⟨[], false, false⟩
  submitted := false
  armed := false
  signalled := false
  given := task
  queued := false
  pushed := 0
  ran := 0
  discarded := 0
  disposed := 0
  finished := []
  undelivered := []
  incs := []
  counted := []
  before := []
  released := false
  dispatched := false
  retired := none
  freed := false

/-- What all threads see.  The answer of `Submit`, the guards, the created edges and the
deliveries are records. -/
structure Shared where
  node : Nat → Node
  count : Nat
  submitted : Bool
  cancelled : Bool
  rejected : Bool
  returned : Bool
  guards : List Nat
  nextGuard : Nat
  created : List Edge
  delivered : Edge → Nat

/-- A call under way, with its locals. -/
inductive Frame where
  /-- `Submit` reads the counters. -/
  | scan (pending roots : List Nat)
  /-- `Submit` fires the roots. -/
  | roots (rest : List Nat)
  /-- `Fire` exchanges `submitted`. -/
  | fire (node : Nat) (outcome : Outcome)
  /-- `Fire` loads `cancelled`. -/
  | loadCancelled (node : Nat) (outcome : Outcome)
  /-- `DisposeUnexecutedTask`, then `OnTaskFinished` as cancelled. -/
  | dispose (node : Nat)
  /-- The rest of `Fire`, by kind. -/
  | dispatch (node : Nat)
  /-- The task's own function. -/
  | body (node : Nat)
  /-- `OnTaskFinished`: `WalkAndSeal` opens its guard and loads `firstEdge`. -/
  | enter (node : Nat) (outcome : Outcome)
  /-- `WalkAndSeal` is at `cur` and stops at `done`. -/
  | walk (node : Nat) (outcome : Outcome) (guard : Nat) (head : Head) (cur done : List Edge)
  /-- `WalkAndSeal` tries to seal. -/
  | trySeal (node : Nat) (outcome : Outcome) (guard : Nat) (head : Head)
  /-- `OnTaskFinished` retires the node. -/
  | retire (node : Nat)
  /-- An edge is delivered to its dependent. -/
  | deliver (e : Edge) (outcome : Outcome)
  /-- `AddDependency` counts the edge. -/
  | addCount (e : Edge) (guard : Nat)
  /-- `AddDependency` loads `firstEdge`. -/
  | addLoad (e : Edge) (guard : Nat)
  /-- `AddDependency` tries to link the edge. -/
  | addCas (e : Edge) (guard : Nat) (head : Head)
  /-- `SignalExternal` sets its bit. -/
  | signal (node : Nat) (guard : Nat)
  /-- A guard goes out of scope. -/
  | close (guard : Nat)
deriving DecidableEq

/-- A graph used by `n` threads. -/
structure State (n : Nat) where
  shared : Shared
  stack : Fin n → List Frame

def Shared.modify (sh : Shared) (d : Nat) (f : Node → Node) : Shared :=
  { sh with node := Function.update sh.node d (f (sh.node d)) }

/-! ## Guards -/

def Shared.openGuard (sh : Shared) : Shared :=
  { sh with guards := sh.nextGuard :: sh.guards, nextGuard := sh.nextGuard + 1 }

def Shared.closeGuard (sh : Shared) (g : Nat) : Shared := { sh with guards := sh.guards.erase g }

/-! ## `HasCycle` -/

/-- One node's edges taken off the counts; what falls to zero is pushed. -/
def relax (indeg : Nat → Int) (ready : List Nat) : List Edge → (Nat → Int) × List Nat
  | [] => (indeg, ready)
  | e :: es =>
    relax (Function.update indeg e.dep (indeg e.dep - 1))
      (if indeg e.dep - 1 = 0 then e.dep :: ready else ready) es

/-- The loop: how many nodes are processed.  A node is pushed at most once for each edge to it
and once at the start, so the fuel of `hasCycle` is enough. -/
def processed (sh : Shared) : Nat → (Nat → Int) → List Nat → Nat
  | 0, _, _ => 0
  | _ + 1, _, [] => 0
  | fuel + 1, indeg, d :: ready =>
    match relax indeg ready (sh.node d).firstEdge.edges with
    | (indeg', ready') => processed sh fuel indeg' ready' + 1

def hasCycle (sh : Shared) : Bool :=
  processed sh
    (sh.count + ((List.range sh.count).map fun d => (sh.node d).firstEdge.edges.length).sum + 1)
    (fun d => (sh.node d).left)
    ((List.range sh.count).filter fun d => (sh.node d).left = 0).reverse ≠ sh.count

/-- The cyclic path of `Submit`: every task is disposed of and every node retired. -/
def Shared.reject (sh : Shared) : Shared :=
  { sh with
    submitted := true
    rejected := true
    node := fun d =>
      if d < sh.count then
        { sh.node d with
          task := false
          disposed := (sh.node d).disposed + (sh.node d).task.toNat
          retired := some sh.guards }
      else sh.node d }

/-! ## Calls -/

/-- What a thread may start. -/
inductive Op where
  | addDependency (dependent dependency : Nat)
  | signalExternal (node : Nat)
  | submit
  | cancel
  /-- A worker takes a task and runs it. -/
  | run (node : Nat)
  /-- `DiscardIfCancelled`: a worker takes a cancelled task and drops it. -/
  | discard (node : Nat)

/-- The new edge of `AddDependency`. -/
def Shared.newEdge (sh : Shared) (dependent dependency : Nat) : Edge :=
  ⟨sh.created.length, dependency, dependent⟩

/-- A call, up to its first access. -/
def call (sh : Shared) : Op → Option (Shared × List Frame)
  | .addDependency dependent dependency =>
    if dependent < sh.count ∧ dependency < sh.count then
      some ({ sh.openGuard with created := sh.created ++ [sh.newEdge dependent dependency] },
        [.addCount (sh.newEdge dependent dependency) sh.nextGuard])
    else none
  | .signalExternal d =>
    if d < sh.count then some (sh.openGuard, [.signal d sh.nextGuard]) else none
  | .submit =>
    if sh.submitted then none
    else if hasCycle sh then some (sh.reject, [])
    else some ({ sh with submitted := true }, [.scan (List.range sh.count) []])
  | .cancel => some ({ sh with cancelled := true }, [])
  | .run d =>
    if (sh.node d).queued then
      some (sh.modify d fun x => { x with queued := false }, [.body d])
    else none
  | .discard d =>
    if (sh.node d).queued then
      some (sh.modify d fun x => { x with queued := false, discarded := x.discarded + 1 },
        [.enter d .cancelled])
    else none

/-! ## Steps -/

/-- What `AddDependency` does with the head it has read. -/
def addHead (e : Edge) (g : Nat) (head : Head) : List Frame :=
  if head.isSealed then
    [.deliver e head.outcome, .close g]
  else [.addCas e g head]

/-- The next step of a call: what it does to the graph and what it goes on with.  The choice is
whether the scheduler takes a task, or whether a weak compare-exchange may succeed. -/
def effect (sh : Shared) (choice : Bool) : Frame → Option (Shared × List Frame)
  | .scan [] roots => some (sh, [.roots roots])
  | .scan (d :: pending) roots =>
    if (sh.node d).left = 0 then
      some (sh.modify d fun x => { x with released := true }, [.scan pending (roots ++ [d])])
    else some (sh, [.scan pending roots])
  | .roots [] => some ({ sh with returned := true }, [])
  | .roots (d :: rest) => some (sh, [.fire d .completed, .roots rest])
  | .fire d outcome =>
    if (sh.node d).submitted then some (sh, [])
    else some (sh.modify d fun x => { x with submitted := true, before := x.incs },
      [.loadCancelled d outcome])
  | .loadCancelled d outcome =>
    if sh.cancelled ∨ outcome = .cancelled then some (sh, [.dispose d])
    else some (sh, [.dispatch d])
  | .dispose d =>
    some (sh.modify d fun x => { x with task := false, disposed := x.disposed + x.task.toNat },
      [.enter d .cancelled])
  | .dispatch d =>
    match (sh.node d).kind with
    | .gate _ => some (sh, [.enter d .completed])
    | .external =>
      some (sh.modify d fun x => { x with armed := true },
        if (sh.node d).signalled then [.enter d .completed] else [])
    | .task =>
      if ¬ (sh.node d).task then some (sh, [.enter d .completed])
      else if choice then
        some (sh.modify d fun x =>
          { x with queued := true, pushed := x.pushed + 1, dispatched := true }, [])
      else some (sh.modify d fun x => { x with dispatched := true }, [.dispose d])
  | .body d => some (sh.modify d fun x => { x with ran := x.ran + 1 }, [.enter d .completed])
  | .enter d outcome =>
    some (sh.openGuard.modify d fun x => { x with finished := x.finished ++ [outcome] },
      [.walk d outcome sh.nextGuard (sh.node d).firstEdge (sh.node d).firstEdge.edges []])
  | .walk d outcome g head cur done =>
    if cur = done then some (sh, [.trySeal d outcome g head])
    else match cur with
      | e :: rest =>
        some (sh.modify d fun x => { x with undelivered := x.undelivered.erase e },
          [.deliver e outcome, .walk d outcome g head rest done])
      | [] => none
  | .trySeal d outcome g head =>
    if choice ∧ (sh.node d).firstEdge = head then
      some (sh.modify d fun x =>
        { x with firstEdge := ⟨head.edges, true, outcome = .cancelled⟩ },
        [.close g, .retire d])
    else some (sh, [.walk d outcome g (sh.node d).firstEdge (sh.node d).firstEdge.edges
      head.edges])
  | .retire d => some (sh.modify d fun x => { x with retired := some sh.guards }, [])
  | .deliver e outcome =>
    if outcome = .cancelled then
      some ({ sh with delivered := Function.update sh.delivered e (sh.delivered e + 1) },
        [.fire e.dep .cancelled])
    else if (sh.node e.dep).kind.gateType = .or then
      some ({ sh with delivered := Function.update sh.delivered e (sh.delivered e + 1) },
        [.fire e.dep .completed])
    else if (sh.node e.dep).left - 1 = 0 then
      some ({ sh with delivered := Function.update sh.delivered e (sh.delivered e + 1) }.modify
          e.dep fun x =>
            { x with left := x.left - 1, counted := x.counted.erase e, released := true },
        [.fire e.dep .completed])
    else
      some ({ sh with delivered := Function.update sh.delivered e (sh.delivered e + 1) }.modify
          e.dep fun x => { x with left := x.left - 1, counted := x.counted.erase e },
        [])
  | .addCount e g =>
    some (sh.modify e.dep fun x =>
      { x with left := x.left + 1, incs := x.incs ++ [e], counted := x.counted ++ [e] },
      [.addLoad e g])
  | .addLoad e g => some (sh, addHead e g (sh.node e.source).firstEdge)
  | .addCas e g head =>
    if choice ∧ (sh.node e.source).firstEdge = head then
      some (sh.modify e.source fun x =>
        { x with firstEdge := ⟨e :: head.edges, false, false⟩,
                 undelivered := e :: x.undelivered }, [.close g])
    else some (sh, addHead e g (sh.node e.source).firstEdge)
  | .signal d g =>
    if (sh.node d).signalled then some (sh, [.close g])
    else some (sh.modify d fun x => { x with signalled := true },
      if (sh.node d).armed then [.enter d .completed, .close g] else [.close g])
  | .close g => some (sh.closeGuard g, [])

/-! ## The system -/

/-- Whether a thread may call into the graph: it is idle, or in the body of a task. -/
def callable : List Frame → Bool
  | [] => true
  | .body _ :: _ => true
  | _ => false

inductive Label (n : Nat) where
  /-- `CreateNode`, `CreateGate` or `CreateExternalNode`. -/
  | create (kind : Kind) (task : Bool)
  | call (t : Fin n) (op : Op)
  | step (t : Fin n) (choice : Bool)
  /-- The reclaimer frees a retired node. -/
  | free (d : Nat)

section System

variable {n : Nat}

/-- Only `CreateNode` takes a task, and no node is created after `Submit`. -/
def create (sh : Shared) (kind : Kind) (task : Bool) : Option Shared :=
  if sh.submitted ∨ (task ∧ kind ≠ .task) then none
  else some { sh with
    node := Function.update sh.node sh.count (Node.new kind task)
    count := sh.count + 1 }

/-- The reclaimer may free a node once every guard that was open when it was retired has
closed. -/
def free (sh : Shared) (d : Nat) : Option Shared :=
  match (sh.node d).retired with
  | some guards =>
    if (∀ g ∈ guards, g ∉ sh.guards) ∧ (sh.node d).freed = false then
      some (sh.modify d fun x => { x with freed := true })
    else none
  | none => none

/-- One step of the system. -/
def step (s : State n) : Label n → Option (State n)
  | .create kind task => (create s.shared kind task).map fun sh => { s with shared := sh }
  | .call t op =>
    if callable (s.stack t) then
      (call s.shared op).map fun r =>
        { shared := r.1, stack := Stacks.replace s.stack t r.2 (s.stack t) }
    else none
  | .step t choice =>
    match s.stack t with
    | [] => none
    | f :: rest =>
      (effect s.shared choice f).map fun r =>
        { shared := r.1, stack := Stacks.replace s.stack t r.2 rest }
  | .free d => (free s.shared d).map fun sh => { s with shared := sh }

/-- An empty graph. -/
def initial (n : Nat) : State n where
  shared := {
    node := fun _ => Node.new .task false
    count := 0
    submitted := false
    cancelled := false
    rejected := false
    returned := false
    guards := []
    nextGuard := 0
    created := []
    delivered := fun _ => 0 }
  stack := fun _ => []

end System

end JLibSched.DAG
