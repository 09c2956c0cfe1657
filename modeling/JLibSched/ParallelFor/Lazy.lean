import JLibSched.ParallelFor.Cursor
import Mathlib.Algebra.BigOperators.Group.List.Basic

/-!
# `RunLazyRange`

The caller cuts the range into one part for itself and one for each target, and runs its own part
like every piece: grain by grain, giving the upper half away while its deque is empty.  Which
targets there are, what a deque says and which tasks are created is left to the run.  A push that a
deque refuses ends the program and is no step here.
-/

namespace JLibSched.ParallelFor.Lazy

/-- The arguments of `RunLazyRange`. -/
structure Job where
  start : Int
  stop : Int
  grain : Int
  width : Nat
  ordered : start < stop
  start_int : IntMin ≤ start
  stop_int : stop ≤ IntMax
  length_le : stop - start ≤ 1073741824
  grain_pos : 1 ≤ grain
  grain_le : grain ≤ 536870912

/-! ## Seeds -/

def kMaxSeeds : Nat := 64

def Job.maxOthers (job : Job) : Nat := min kMaxSeeds (if job.width > 0 then job.width - 1 else 0)

/-- The parts for a number of targets besides the caller. -/
def Job.parts (job : Job) (others : Nat) : Nat :=
  let maxParts := (job.stop - job.start) / job.grain
  if ((1 + others : Nat) : Int) > maxParts then (if maxParts > 1 then maxParts.toNat else 1)
  else 1 + others

def Job.bound (job : Job) (parts i : Nat) : Int :=
  wrap (job.start + wrap ((job.stop - job.start) * i / parts))

/-! ## Pieces -/

inductive Phase where
  /-- The task is pushed. -/
  | queued
  /-- At the top of the loop of `RunLazyPiece`. -/
  | looking (lo : Int)
  /-- The task for `[mid, hi)` is counted and about to be pushed. -/
  | offering (lo mid : Int)
  /-- The body runs on `[lo, next)`. -/
  | calling (lo next : Int)
  /-- The body runs on `[lo, hi)`, after the loop. -/
  | tail (lo : Int)
  /-- `RunLazyPiece` has returned, and the group still counts the piece. -/
  | left
  | done
deriving DecidableEq, Repr

/-- A call of `RunLazyPiece`, made or to be made: the `lo` it is called with, its local `hi`, and
what it is at. -/
structure Piece where
  begin : Int
  hi : Int
  phase : Phase
deriving DecidableEq, Repr

inductive Caller where
  | entered
  /-- The loop over the parts has come to `i`. -/
  | seeding (i : Nat)
  /-- The task for part `i` is counted and about to be pushed. -/
  | counted (i : Nat)
  /-- There is no task for part `i`, and the body runs on it. -/
  | inlining (i : Nat)
  /-- The caller runs its own piece, gives up its share and waits. -/
  | running
  | returned
deriving DecidableEq, Repr

structure State where
  caller : Caller
  parts : Nat
  /-- `wg.n`. -/
  n : Int
  /-- The piece of the caller is the first. -/
  pieces : List Piece
  /-- The calls of the body, in the order in which they began. -/
  calls : List Range

def initial : State := ⟨.entered, 1, 0, [], []⟩

inductive Label where
  /-- The targets are chosen. -/
  | seeds (others : Nat)
  | seed (created : Bool)
  | push
  | inlineReturned
  | waited
  /-- A thread takes the task of piece `k`. -/
  | begin (k : Nat)
  /-- A round of the loop: is there a deque, and is it empty; and is a task created. -/
  | look (k : Nat) (empty created : Bool)
  | pushPiece (k : Nat)
  | bodyReturned (k : Nat)
  | done (k : Nat)
deriving DecidableEq, Repr

/-! ## Steps of the caller -/

def State.setCaller (s : State) (c : Caller) : State := { s with caller := c }

def State.log (s : State) (r : Range) : State := { s with calls := s.calls ++ [r] }

def State.count (s : State) : State := { s with n := s.n + 1 }

/-- A piece that is pushed. -/
def State.add (s : State) (lo hi : Int) : State :=
  { s with pieces := s.pieces ++ [⟨lo, hi, .queued⟩] }

def State.begin (job : Job) (s : State) (parts : Nat) : State :=
  { s with
    caller := .seeding 1
    parts := parts
    n := 1
    pieces := [⟨job.start, job.bound parts 1, .looking job.start⟩] }

/-- The part `i`. -/
def State.part (job : Job) (s : State) (i : Nat) : Range :=
  (job.bound s.parts i, job.bound s.parts (i + 1))

def callerStep (job : Job) (s : State) : Label → Option State
  | .seeds others =>
    match s.caller with
    | .entered => if others ≤ job.maxOthers then some (s.begin job (job.parts others)) else none
    | _ => none
  | .seed created =>
    match s.caller with
    | .seeding i =>
      if i < s.parts then
        if created then some (s.count.setCaller (.counted i))
        else some ((s.log (s.part job i)).setCaller (.inlining i))
      else some (s.setCaller .running)
    | _ => none
  | .push =>
    match s.caller with
    | .counted i => some ((s.add (s.part job i).1 (s.part job i).2).setCaller (.seeding (i + 1)))
    | _ => none
  | .inlineReturned =>
    match s.caller with
    | .inlining i => some (s.setCaller (.seeding (i + 1)))
    | _ => none
  | .waited =>
    match s.caller with
    | .running =>
      if (s.pieces[0]?.map Piece.phase) = some .done ∧ s.n % WaiterBit = 0 then
        some (s.setCaller .returned)
      else none
    | _ => none
  | _ => none

/-! ## Steps of the pieces -/

def State.set (s : State) (k : Nat) (p : Piece) : State := { s with pieces := s.pieces.set k p }

/-- A round of the loop of `RunLazyPiece`, or what comes after the loop. -/
def State.look (job : Job) (s : State) (k : Nat) (p : Piece) (lo : Int) (empty created : Bool) :
    State :=
  if wrap (p.hi - lo) > job.grain then
    if empty ∧ wrap (p.hi - lo) ≥ wrap (2 * job.grain) ∧ created then
      s.count.set k { p with phase := .offering lo (wrap (lo + wrap (p.hi - lo) / 2)) }
    else (s.log (lo, wrap (lo + job.grain))).set k
      { p with phase := .calling lo (wrap (lo + job.grain)) }
  else if lo < p.hi then (s.log (lo, p.hi)).set k { p with phase := .tail lo }
  else s.set k { p with phase := .left }

/-- The step of a thread that has the piece `k`. -/
def pieceStep (job : Job) (s : State) (k : Nat) (p : Piece) : Label → Option State
  | .begin _ =>
    match p.phase with
    | .queued => some (s.set k { p with phase := .looking p.begin })
    | _ => none
  | .look _ empty created =>
    match p.phase with
    | .looking lo => some (s.look job k p lo empty created)
    | _ => none
  | .pushPiece _ =>
    match p.phase with
    | .offering lo mid => some ((s.set k ⟨p.begin, mid, .looking lo⟩).add mid p.hi)
    | _ => none
  | .bodyReturned _ =>
    match p.phase with
    | .calling _ next => some (s.set k { p with phase := .looking next })
    | .tail _ => some (s.set k { p with phase := .left })
    | _ => none
  | .done _ =>
    match p.phase with
    | .left => some { s.set k { p with phase := .done } with n := s.n - 1 }
    | _ => none
  | _ => none

/-- The caller turns to its own piece after the parts. -/
def onPiece (job : Job) (s : State) (k : Nat) (a : Label) : Option State :=
  if k = 0 ∧ s.caller ≠ .running then none
  else
    match s.pieces[k]? with
    | some p => pieceStep job s k p a
    | none => none

def step (job : Job) (s : State) : Label → Option State
  | .begin k => onPiece job s k (.begin k)
  | .look k empty created => onPiece job s k (.look k empty created)
  | .pushPiece k => onPiece job s k (.pushPiece k)
  | .bodyReturned k => onPiece job s k (.bodyReturned k)
  | .done k => onPiece job s k (.done k)
  | a => callerStep job s a

/-! ## What the body is called on -/

/-- What the group counts for a piece: its share, and the one for a task that it is about to push. -/
def Piece.shares (p : Piece) : Nat :=
  match p.phase with
  | .queued | .looking _ | .calling _ _ | .tail _ | .left => 1
  | .offering _ _ => 2
  | .done => 0

/-- What the group counts for a task that the caller is about to push. -/
def Caller.shares : Caller → Nat
  | .counted _ => 1
  | .entered | .seeding _ | .inlining _ | .running | .returned => 0

/-- Every index was handed to the body, and no call is still running. -/
structure State.Finished (job : Job) (s : State) : Prop where
  once : ∀ i, job.start ≤ i → i < job.stop → Ranges.hits s.calls i = 1
  settled : ∀ p ∈ s.pieces, p.phase = .done
  outside : ∀ i, s.caller ≠ .inlining i

/-- The calls are proper parts of the range and no index is in two; the group counts every task that
is pushed, or about to be, and not over; its count is above zero until the range is finished; and the
caller returns only then. -/
structure Covered (job : Job) (s : State) : Prop where
  proper : ∀ r ∈ s.calls, job.start ≤ r.1 ∧ r.1 < r.2 ∧ r.2 ≤ job.stop
  most : ∀ i, Ranges.hits s.calls i ≤ 1
  counted : s.n = ((s.pieces.map Piece.shares).sum + s.caller.shares : Nat)
  zero : s.caller ≠ .entered → s.n = 0 → s.Finished job
  returned : s.caller = .returned → s.n = 0 ∧ s.Finished job

end JLibSched.ParallelFor.Lazy
