import JLibSched.ParallelFor.Width
import JLibSched.Lib.Transition

/-!
# `ParallelFor` in cursor mode

The caller runs the front end, creates one task for each lane and then takes blocks from the cursor
itself; each task does the same.  A task is counted in the group from before it is pushed until its
loop has left, and the caller returns when the group is at zero.  Every call of the body is logged
where it begins.
-/

namespace JLibSched.ParallelFor

/-- `COUNT_MASK + 1`: `WaitFor` looks at the bits of `n` below it. -/
def WaiterBit : Int := 1073741824

/-- What the caller is about to do. -/
inductive Caller where
  | entered
  /-- A round of the probe loop begins. -/
  | probing (p : Probe)
  /-- The body runs for the probe. -/
  | inProbe (p : Probe)
  /-- The probe loop is over and the width is to be computed. -/
  | measured (begin : Int)
  /-- The rest is one call. -/
  | serial (begin : Int)
  | inSerial
  /-- The range is handed out, to `fanWidth` workers if they pay. -/
  | fanning (begin : Int) (fanWidth : Nat)
  /-- `RunCursorRange` has come to the task `w`. -/
  | seeding (w : Nat)
  /-- It is about to take a block. -/
  | taking
  /-- The body runs for the block. -/
  | running (r : Range)
  /-- `WaitFor`. -/
  | waiting
  | returned
  /-- A division by zero. -/
  | crashed
deriving DecidableEq, Repr

/-- A task that was pushed. -/
inductive Helper where
  | taking
  | running (r : Range)
  /-- The loop has left, and the group still counts the task. -/
  | left
  | done
deriving DecidableEq, Repr

/-- The arguments and locals of `RunCursorRange` that the lanes read. -/
structure Frame where
  start : Int
  grain : Int
  lanes : Int
deriving DecidableEq, Repr

structure State where
  caller : Caller
  frame : Frame
  cursor : Int
  /-- `wg.n`. -/
  n : Int
  helpers : List Helper
  /-- The calls of the body, in the order in which they began. -/
  calls : List Range

def initial : State := ⟨.entered, ⟨0, 0, 0⟩, 0, 0, [], []⟩

inductive Label where
  /-- `ParallelFor` begins.  `k` is the width that the remembered cost comes to, if there is one. -/
  | enter (k : Option Nat)
  | probe
  /-- The body returns to the probe loop, after `ns`. -/
  | probed (ns : Int)
  /-- The square root of the measured cost over the cost of a wake. -/
  | width (k : Nat)
  | serial
  | serialReturned
  | fanOut
  | seed
  | fetch
  | bodyReturned
  | waited
  | helperFetch (i : Nat)
  | helperReturned (i : Nat)
  | helperDone (i : Nat)
deriving DecidableEq, Repr

/-! ## The caller -/

/-- What a width comes to. -/
def Pool.widen (pool : Pool) (begin : Int) (k : Nat) : Caller :=
  let k := if k > pool.workers then pool.workers else k
  if k < 2 then .serial begin else .fanning begin k

/-- `ParallelFor` up to the first call of the body or the width. -/
def Pool.enter (pool : Pool) (call : Call) (remembered : Option Nat) : Caller :=
  if call.stop - call.begin ≤ 0 then .returned
  else if pool.parallelForSerial ∨ pool.poolActive = false ∨ pool.workers = 0 then
    .serial call.begin
  else if pool.measuredWidth then
    match if pool.rememberedCost then remembered else none with
    | some k => pool.widen call.begin k
    | none => .probing .start
  else if call.stop - call.begin < wrap (wrap pool.workers * wrap pool.minItersPerWorker) then
    .serial call.begin
  else .fanning call.begin pool.workers

/-- The caller after a round of the probe loop. -/
def Call.afterProbe (call : Call) (p : Probe) : Caller :=
  if p.probeNs < kProbeFloorNs ∧ p.probed < call.probeCap then .probing p
  else if call.begin + p.probed ≥ call.stop then .returned
  else if p.probeNs < kProbeFloorNs then .serial (call.begin + p.probed)
  else .measured (call.begin + p.probed)

/-- `RunCursorRange` up to its loop over the lanes. -/
def Pool.frame (pool : Pool) (call : Call) (start : Int) (fanWidth : Nat) : Frame :=
  let total := call.stop - start
  let grain := cursorGrain (leafGrain call.grain total (pool.maxLeaves fanWidth)) total pool.compute
  ⟨start, grain, lanes total grain pool.compute⟩

def State.fanOut (pool : Pool) (call : Call) (s : State) (start : Int) (fanWidth : Nat) : State :=
  if pool.maxLeaves fanWidth = 0 then { s with caller := .crashed }
  else if call.stop ≤ start then { s with caller := .returned }
  else if pool.workers = 0 then { s with caller := .serial start }
  else if pool.compute = 0 then { s with caller := .crashed }
  else
    let frame := pool.frame call start fanWidth
    { s with caller := .seeding 0, frame := frame, cursor := start, n := frame.lanes }

/-- One round of the loop over the lanes. -/
def State.seed (pool : Pool) (s : State) (w : Nat) : State :=
  if (w : Int) < s.frame.lanes then
    if pool.helps w then
      { s with caller := .seeding (w + 1), helpers := s.helpers ++ [.taking] }
    else { s with caller := .seeding (w + 1), n := s.n - 1 }
  else { s with caller := .taking }

/-! ## Taking a block -/

/-- The block of a lane that has read `lo`. -/
def Frame.block (call : Call) (f : Frame) (lo : Int) : Range :=
  (lo, if wrap (lo + f.grain) > call.stop then call.stop else wrap (lo + f.grain))

/-- `cursor.fetch_add(grain)`. -/
def State.advance (s : State) : State := { s with cursor := wrap (s.cursor + s.frame.grain) }

/-- A call of the body begins. -/
def State.log (s : State) (r : Range) : State := { s with calls := s.calls ++ [r] }

def State.setHelper (s : State) (i : Nat) (h : Helper) : State :=
  { s with helpers := s.helpers.set i h }

def State.setCaller (s : State) (c : Caller) : State := { s with caller := c }

def callerStep (pool : Pool) (call : Call) (s : State) : Label → Option State
  | .enter k =>
    match s.caller with
    | .entered => some (s.setCaller (pool.enter call k))
    | _ => none
  | .probe =>
    match s.caller with
    | .probing p => some ((s.log (call.probeRange p)).setCaller (.inProbe p))
    | _ => none
  | .probed ns =>
    match s.caller with
    | .inProbe p => some (s.setCaller (call.afterProbe (call.probed p ns)))
    | _ => none
  | .width k =>
    match s.caller with
    | .measured begin => some (s.setCaller (pool.widen begin k))
    | _ => none
  | .serial =>
    match s.caller with
    | .serial begin => some ((s.log (begin, call.stop)).setCaller .inSerial)
    | _ => none
  | .serialReturned =>
    match s.caller with
    | .inSerial => some (s.setCaller .returned)
    | _ => none
  | .fanOut =>
    match s.caller with
    | .fanning start fanWidth => some (s.fanOut pool call start fanWidth)
    | _ => none
  | .seed =>
    match s.caller with
    | .seeding w => some (s.seed pool w)
    | _ => none
  | .fetch =>
    match s.caller with
    | .taking =>
      if s.cursor ≥ call.stop then some (s.advance.setCaller .waiting)
      else some ((s.advance.log (s.frame.block call s.cursor)).setCaller
        (.running (s.frame.block call s.cursor)))
    | _ => none
  | .bodyReturned =>
    match s.caller with
    | .running _ => some (s.setCaller .taking)
    | _ => none
  | .waited =>
    match s.caller with
    | .waiting => if s.n % WaiterBit = 0 then some (s.setCaller .returned) else none
    | _ => none
  | .helperFetch _ | .helperReturned _ | .helperDone _ => none

/-- A step of the task `i`. -/
def helperStep (call : Call) (s : State) (i : Nat) : Label → Option State
  | .helperFetch _ =>
    match s.helpers[i]? with
    | some .taking =>
      if s.cursor ≥ call.stop then some (s.advance.setHelper i .left)
      else some ((s.advance.log (s.frame.block call s.cursor)).setHelper i
        (.running (s.frame.block call s.cursor)))
    | _ => none
  | .helperReturned _ =>
    match s.helpers[i]? with
    | some (.running _) => some (s.setHelper i .taking)
    | _ => none
  | .helperDone _ =>
    match s.helpers[i]? with
    | some .left => some { s.setHelper i .done with n := s.n - 1 }
    | _ => none
  | _ => none

def step (pool : Pool) (call : Call) (s : State) : Label → Option State
  | .helperFetch i => helperStep call s i (.helperFetch i)
  | .helperReturned i => helperStep call s i (.helperReturned i)
  | .helperDone i => helperStep call s i (.helperDone i)
  | a => callerStep pool call s a

/-! ## When the cursor does not wrap -/

/-- The tasks that are pushed for a number of lanes. -/
def Pool.helpers (pool : Pool) (lanes : Int) : Nat := (List.range lanes.toNat).countP pool.helps

/-- The blocks that the range comes to. -/
def Frame.slices (call : Call) (f : Frame) : Int := sliceCount (call.stop - f.start) f.grain

/-- The last addition whose result a lane reads stays an `int`.  Each block takes one addition, and
the caller and each task one more to find that there is none left. -/
def Frame.Fits (pool : Pool) (call : Call) (f : Frame) : Prop :=
  f.start + (f.slices call + pool.helpers f.lanes) * f.grain ≤ IntMax

/-- No division by zero, a group that can count the lanes, and a cursor that does not wrap. -/
structure Fits (pool : Pool) (call : Call) (start : Int) (fanWidth : Nat) : Prop where
  leaves : pool.maxLeaves fanWidth ≠ 0
  few : (pool.workers : Int) < WaiterBit
  cursor : (pool.frame call start fanWidth).Fits pool call

instance (pool : Pool) (call : Call) (f : Frame) : Decidable (f.Fits pool call) :=
  inferInstanceAs (Decidable (_ ≤ _))

instance (pool : Pool) (call : Call) (start : Int) (fanWidth : Nat) :
    Decidable (Fits pool call start fanWidth) :=
  decidable_of_iff (pool.maxLeaves fanWidth ≠ 0 ∧ (pool.workers : Int) < WaiterBit ∧
      (pool.frame call start fanWidth).Fits pool call)
    ⟨fun h => ⟨h.1, h.2.1, h.2.2⟩, fun h => ⟨h.leaves, h.few, h.cursor⟩⟩

/-- If the range is handed out from here, then under `Fits`. -/
def Caller.Fitting (pool : Pool) (call : Call) : Caller → Prop
  | .fanning start fanWidth => Fits pool call start fanWidth
  | .entered | .probing _ | .inProbe _ | .measured _ | .serial _ | .inSerial | .seeding _ | .taking
  | .running _ | .waiting | .returned | .crashed => True

instance (pool : Pool) (call : Call) : ∀ c : Caller, Decidable (c.Fitting pool call)
  | .fanning start fanWidth => inferInstanceAs (Decidable (Fits pool call start fanWidth))
  | .entered | .probing _ | .inProbe _ | .measured _ | .serial _ | .inSerial | .seeding _ | .taking
  | .running _ | .waiting | .returned | .crashed => isTrue trivial

/-- The range is handed out under `Fits` only. -/
def fitting (pool : Pool) (call : Call) (s : State) (a : Label) : Prop :=
  a = .fanOut → s.caller.Fitting pool call

instance (pool : Pool) (call : Call) (s : State) (a : Label) : Decidable (fitting pool call s a) :=
  inferInstanceAs (Decidable (_ → _))

/-! ## What the body is called on -/

/-- No call is empty, none leaves the range, no index is in two, and when `ParallelFor` has returned
each index was in one and no task has anything left to do. -/
structure Covered (call : Call) (s : State) : Prop where
  alive : s.caller ≠ .crashed
  proper : ∀ r ∈ s.calls, call.begin ≤ r.1 ∧ r.1 < r.2 ∧ r.2 ≤ call.stop
  most : ∀ i, Ranges.hits s.calls i ≤ 1
  once : s.caller = .returned → ∀ i, call.begin ≤ i → i < call.stop → Ranges.hits s.calls i = 1
  settled : s.caller = .returned → ∀ h ∈ s.helpers, h = .done

end JLibSched.ParallelFor
