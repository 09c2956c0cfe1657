import JLibSched.Lib.Ring
import JLibSched.Reactor.Request
import JLibSched.Scopes.Model

/-!
# The ring reactor

`SubmitOp` links a request into its shard and hands it to the ring, the pump takes completions and
runs `Complete`, and `RequestCancel` collects the requests of a scope shard by shard and hands a
cancel to the ring for each.  The ring's tail goes on before `io_uring_enter`, which takes one entry
from the head when it succeeds.

A section under a lock is one step, and so is each test outside of one.  A completion is any number
that the kernel may answer with; `Complete` in full is `IoRequest.complete`.  A caller submits a
request that it has not submitted already.  `SubmitChained` writes result, resume and token earlier
than here, when nobody looks.  Any party may be the pump.

What is kept for what is proved, and no step looks at: `busy` apart from the callers' promise,
`calls` and the numbers of calls, `failed`, `accepted`, `delivered`, `entered`, `linksOf`,
`unlinksOf`, `submitted`, `asked`, `swept`, and whether a canceller's scope was cancelled.
-/

namespace JLibSched.Reactor

open Transition Cancel Ring

/-- What stands in the ring. -/
inductive Sqe where
  /-- An operation, and which call of `SubmitOp` has written it. -/
  | op (r call : Nat)
  | cancel (r : Nat)
  | wake
deriving DecidableEq, Repr

/-- Who calls `SubmitOp`. -/
inductive Origin where
  | caller
  | complete
deriving DecidableEq, Repr

/-- A call of `SubmitOp`. -/
structure Call where
  r : Nat
  args : Args
  number : Nat
  origin : Origin
deriving DecidableEq, Repr

/-- What a party is doing. -/
inductive Pc where
  | idle
  /-- `SubmitOp` has tested the token. -/
  | tested (c : Call)
  /-- It has tested the flags. -/
  | passed (c : Call)
  /-- The request is linked. -/
  | linked (c : Call)
  /-- The ring has not taken it. -/
  | failing (c : Call)
  /-- `Complete` submits the rest of a send. -/
  | resubmitting (r : Nat)
  /-- It is about to unlink the request for good. -/
  | finishing (r : Nat)
  /-- `RequestCancel` before a shard. -/
  | sweeping (token shard : Nat) (marked : Bool)
  /-- It has collected the shard's targets. -/
  | cancelling (token shard : Nat) (targets : List Nat) (marked : Bool)
deriving DecidableEq, Repr

def kShards : Nat := 16

def kTargets : Nat := 64

/-- `ShardFor`, by the address of the request. -/
def shardFor (r : Nat) : Nat := r / 2 ^ 4 * 0x9E3779B97F4A7C15 % 2 ^ 64 / 2 ^ 60 % kShards

/-- The lists of the shards, and `g_ioOutstanding`.  `made` counts the calls of `Link`. -/
structure Shards where
  next : Nat → Option Nat
  prev : Nat → Option Nat
  head : Nat → Option Nat
  outstanding : Int
  made : Nat

structure State (n : Nat) where
  ring : Buffer Sqe
  /-- The operations that the kernel has. -/
  kernel : List (Nat × Nat)
  req : Nat → IoRequest
  shards : Shards
  stopping : Bool
  ringUp : Bool
  pc : Fin n → Pc
  scopes : Scopes.State
  /-- A submission of the request is under way. -/
  busy : Nat → Bool
  calls : Nat
  /-- The calls that have reported a failure, those that have returned false, and those whose
  completion has come. -/
  failed : List Nat
  accepted : List Nat
  delivered : List Nat
  /-- How often `io_uring_enter` has taken an entry. -/
  entered : Nat
  linksOf : Nat → Nat
  unlinksOf : Nat → Nat
  /-- Since it was linked the request came into the ring, and a cancel for it did after that. -/
  submitted : Nat → Bool
  asked : Nat → Bool
  /-- The scopes that had been cancelled when a `RequestCancel` of theirs began that has returned,
  and have not ended since. -/
  swept : List Nat

/-- A ring of 256 entries, which is up or not, and requests as they are constructed. -/
def initial (n : Nat) (ringUp : Bool) : State n where
  ring := ⟨256, 255, 0, 0, fun _ => .wake⟩
  kernel := []
  req := fun _ => .fresh
  shards := ⟨fun _ => none, fun _ => none, fun _ => none, 0, 0⟩
  stopping := true
  ringUp := ringUp
  pc := fun _ => .idle
  scopes := Scopes.initial
  busy := fun _ => false
  calls := 0
  failed := []
  accepted := []
  delivered := []
  entered := 0
  linksOf := fun _ => 0
  unlinksOf := fun _ => 0
  submitted := fun _ => false
  asked := fun _ => false
  swept := []

inductive Label (n : Nat) where
  /-- A `Submit` function, up to the test of the token in `SubmitOp`. -/
  | submit (p : Fin n) (r : Nat) (op : Op) (out resume : Nat) (scope : Option Nat)
  /-- A call takes its next step; if it comes to `io_uring_enter` this succeeds or not. -/
  | advance (p : Fin n) (entered : Bool)
  /-- `Complete`, up to the test for a part of a send and what it does for one. -/
  | complete (p : Fin n) (r call : Nat) (res : Int)
  | requestCancel (p : Fin n) (scope : Option Nat)
  | postWake (p : Fin n) (entered : Bool)
  | start
  | stop
  | scopes (a : Scopes.Label)
deriving DecidableEq, Repr

/-! ## The shards -/

/-- `Link`. -/
def Shards.link (d : Shards) (r : Nat) : Shards :=
  let i := shardFor r
  let prev := Function.update d.prev r none
  { next := Function.update d.next r (d.head i)
    prev := match d.head i with
      | none => prev
      | some first => Function.update prev first (some r)
    head := Function.update d.head i (some r)
    outstanding := d.outstanding + 1
    made := d.made + 1 }

/-- `UnlinkLocked`. -/
def Shards.unlink (d : Shards) (r : Nat) : Shards :=
  let i := shardFor r
  let next := match d.prev r with
    | some before => Function.update d.next before (d.next r)
    | none => d.next
  let head := match d.prev r with
    | some _ => d.head
    | none => if d.head i = some r then Function.update d.head i (d.next r) else d.head
  let prev := match next r with
    | some behind => Function.update d.prev behind (d.prev r)
    | none => d.prev
  { next := Function.update next r none
    prev := Function.update prev r none
    head := head
    outstanding := d.outstanding - 1
    made := d.made }

/-- The loop that collects the targets of a shard, `count` of which there are already.  `fuel` bounds
the turns. -/
def collect (next : Nat → Option Nat) (select : Nat → Bool) :
    Nat → Option Nat → Nat → Option (List Nat)
  | _, none, _ => some []
  | fuel, some r, count =>
    if kTargets ≤ count then some []
    else
      match fuel with
      | 0 => none
      | fuel + 1 =>
        if select r then (collect next select fuel (next r) (count + 1)).map (r :: ·)
        else collect next select fuel (next r) count

/-! ## Steps -/

variable {n : Nat}

def State.go (s : State n) (p : Fin n) (pc : Pc) : State n :=
  { s with pc := Function.update s.pc p pc }

/-- The token of a scope, or an invalid one. -/
def State.tokenOf (s : State n) : Option Nat → Nat
  | none => kNone
  | some k => s.scopes.raw k

/-- `io_uring_enter` takes the entry at the head. -/
def State.consume (s : State n) : State n :=
  match s.ring.first with
  | none => s
  | some x =>
    { s with
      ring := s.ring.drop
      kernel := match x with
        | .op r call => (r, call) :: s.kernel
        | .cancel _ | .wake => s.kernel
      entered := s.entered + 1 }

/-- An entry is written, and `Submit`. -/
def State.enter (s : State n) (x : Sqe) (entered : Bool) : State n :=
  let s := { s with ring := s.ring.put x }
  if entered then s.consume else s

/-- `SubmitOp` returns true. -/
def State.refuse (s : State n) (p : Fin n) (c : Call) : State n :=
  match c.origin with
  | .caller => { s.go p .idle with busy := Function.update s.busy c.r false }
  | .complete => s.go p (.finishing c.r)

/-- The same, with a failure. -/
def State.fail (s : State n) (p : Fin n) (c : Call) : State n :=
  { s.refuse p c with failed := c.number :: s.failed }

/-- `SubmitOp`, up to the test of the token. -/
def State.submitOp (s : State n) (p : Fin n) (c : Call) : State n :=
  let s := { s with calls := s.calls + 1, busy := Function.update s.busy c.r true }
  if cancelled s.scopes.slots c.args.token then s.refuse p c else s.go p (.tested c)

/-- `Link`, with what is written before. -/
def State.link (s : State n) (c : Call) : State n :=
  { s with
    req := Function.update s.req c.r ((s.req c.r).submitOp c.args .taken)
    shards := s.shards.link c.r
    linksOf := Function.update s.linksOf c.r (s.linksOf c.r + 1)
    submitted := Function.update s.submitted c.r false
    asked := Function.update s.asked c.r false }

/-- `UnlinkUnlocked`. -/
def State.unlink (s : State n) (r : Nat) : State n :=
  { s with
    shards := s.shards.unlink r
    unlinksOf := Function.update s.unlinksOf r (s.unlinksOf r + 1) }

/-- A request within the token, or any one. -/
def State.matches (s : State n) (token r : Nat) : Bool :=
  decide (token = kNone) || isWithin s.scopes.slots (s.req r).token token

/-- The section under `submitMx`. -/
def State.submitEntry (s : State n) (p : Fin n) (c : Call) (entered : Bool) : State n :=
  match s.ring.next with
  | none => s.go p (.failing c)
  | some _ =>
    let s := { s.enter (.op c.r c.number) entered with
      submitted := Function.update s.submitted c.r true }
    if entered then { s.go p .idle with accepted := c.number :: s.accepted }
    else s.go p (.failing c)

/-- The same for a cancel. -/
def State.submitCancel (s : State n) (p : Fin n) (token shard r : Nat) (targets : List Nat)
    (marked entered : Bool) : State n :=
  match s.ring.next with
  | none => s.go p (.cancelling token shard [] marked)
  | some _ =>
    let s := s.enter (.cancel r) entered
    if entered then
      { s.go p (.cancelling token shard targets marked) with
        asked := Function.update s.asked r (s.asked r || s.submitted r) }
    else s.go p (.cancelling token shard [] marked)

/-- `RequestCancel` returns. -/
def State.sweep (s : State n) (p : Fin n) (token : Nat) (marked : Bool) : State n :=
  { s.go p .idle with
    swept := if marked ∧ Marked s.scopes.slots token then token :: s.swept else s.swept }

def advance (s : State n) (p : Fin n) (entered : Bool) : Option (State n) :=
  match s.pc p with
  | .idle => none
  | .tested c => some (if s.ringUp = false ∨ s.stopping then s.fail p c else s.go p (.passed c))
  | .passed c => some ((s.link c).go p (.linked c))
  | .linked c => some (s.submitEntry p c entered)
  | .failing c => some ((s.unlink c.r).fail p c)
  | .resubmitting r =>
    let q := s.req r
    some (if q.bufCount = 0 then s.go p (.finishing r)
      else s.submitOp p ⟨r, ⟨q.out, q.resume, q.token⟩, s.calls, .complete⟩)
  | .finishing r =>
    some { (s.unlink r).go p .idle with busy := Function.update s.busy r false }
  | .sweeping token shard marked =>
    if shard < kShards then
      (collect s.shards.next (s.matches token) s.shards.made (s.shards.head shard) 0).map
        fun targets => s.go p (.cancelling token shard targets marked)
    else some (s.sweep p token marked)
  | .cancelling token shard [] marked => some (s.go p (.sweeping token (shard + 1) marked))
  | .cancelling token shard (r :: targets) marked =>
    some (s.submitCancel p token shard r targets marked entered)

/-- The kernel has completed an operation. -/
def State.complete (s : State n) (p : Fin n) (r call : Nat) (res : Int) : State n :=
  let q := s.req r
  let s := { s with kernel := s.kernel.erase (r, call), delivered := call :: s.delivered }
  if q.isPartial res then
    ({ s with req := Function.update s.req r (q.rest res) }.unlink r).go p (.resubmitting r)
  else
    { s with
      req := Function.update s.req r { q with aux := (q.acceptedOf res).getD q.aux } }.go p
        (.finishing r)

/-- What a `Submit` function writes before `SubmitOp`. -/
def State.fill (s : State n) (r : Nat) (filled : IoRequest) : State n :=
  let q := s.req r
  { s with
    req := Function.update s.req r
      { filled with out := q.out, resume := q.resume, token := q.token } }

def step (s : State n) : Label n → Option (State n)
  | .submit p r op out resume scope =>
    if s.pc p = .idle ∧ s.busy r = false ∧ s.scopes.has scope then
      let a : Args := ⟨out, resume, s.tokenOf scope⟩
      match (s.req r).fill a .taken op with
      | .error _ => some s
      | .ok filled => some ((s.fill r filled).submitOp p ⟨r, a, s.calls, .caller⟩)
    else none
  | .advance p entered => advance s p entered
  | .complete p r call res =>
    if s.pc p = .idle ∧ (r, call) ∈ s.kernel then some (s.complete p r call res) else none
  | .requestCancel p scope =>
    if s.pc p = .idle ∧ s.scopes.has scope then
      let token := s.tokenOf scope
      some (if s.ringUp then s.go p (.sweeping token 0 (decide (Marked s.scopes.slots token)))
        else s)
    else none
  | .postWake p entered =>
    if s.pc p = .idle then
      some (match s.ring.next with
        | none => s
        | some _ => s.enter .wake entered)
    else none
  | .start => some { s with stopping := if s.ringUp then false else s.stopping }
  | .stop => some { s with stopping := true }
  | .scopes a =>
    (Scopes.step s.scopes a).map fun scopes =>
      { s with
        scopes := scopes
        swept := s.swept.filter fun tok => decide (Marked scopes.slots tok) }

end JLibSched.Reactor
