import JLibSched.Lib.Ranges
import Mathlib.Algebra.Order.Ring.Int
import Mathlib.Tactic.Linarith

/-!
# The front end of `ParallelFor`

`ParallelFor` decides on a width and a grain before it hands the range out.  The costs it measures
and remembers come from the clock, so a run gives the time of each probe and the width that the
square root comes to.  The numbers below are `int`, `size_t` and `long long`: sums that can leave
the range of an `int` are wrapped, and the products of sizes are taken modulo `2 ^ 64`.
-/

namespace JLibSched.ParallelFor

def IntMin : Int := -2147483648

def IntMax : Int := 2147483647

/-- What an `int` keeps of a number. -/
def wrap (x : Int) : Int := (x + 2147483648) % 4294967296 - 2147483648

theorem wrap_of_int {x : Int} (low : IntMin ≤ x) (high : x ≤ IntMax) : wrap x = x := by
  unfold IntMin at low
  unfold IntMax at high
  unfold wrap
  omega

/-- `SIZE_MAX + 1`. -/
def SizeBound : Nat := 18446744073709551616

/-- A call of the body with two `int`s. -/
abbrev Range := Int × Int

/-! ## The pool and the call -/

/-- `ClampHotWorkersToPool`. -/
def clampHotWorkersToPool (workers hotWorkers : Nat) : Nat :=
  if workers = 0 then 0 else if hotWorkers ≥ workers then workers - 1 else hotWorkers

/-- The pool, the live tunables, and which of the tasks of a call are created and pushed. -/
structure Pool where
  workers : Nat
  /-- `Config::hotWorkers`. -/
  hotWorkers : Nat
  poolActive : Bool
  parallelForSerial : Bool
  measuredWidth : Bool
  rememberedCost : Bool
  minItersPerWorker : Nat
  leavesPerWorker : Nat
  created : Nat → Bool
  pushed : Nat → Bool

def Pool.getHotWorkers (pool : Pool) : Nat := clampHotWorkersToPool pool.workers pool.hotWorkers

/-- The task `w` of a call is created and pushed. -/
def Pool.helps (pool : Pool) (w : Nat) : Bool := pool.created w && pool.pushed w

/-- The arguments of `ParallelFor`. -/
structure Call where
  begin : Int
  stop : Int
  grain : Int
  ordered : begin < stop
  begin_int : IntMin ≤ begin
  stop_int : stop ≤ IntMax
  length_int : stop - begin ≤ IntMax
  grain_int : IntMin ≤ grain ∧ grain ≤ IntMax

/-! ## The probe -/

def kProbeFloorNs : Int := 500

/-- The locals of the probe loop. -/
structure Probe where
  probed : Int
  chunk : Int
  probeNs : Int
  probeLen : Int
deriving DecidableEq, Repr

def Probe.start : Probe := ⟨0, 1, 0, 0⟩

def Call.probeCap (call : Call) : Int :=
  if (call.stop - call.begin) / 32 < 1 then 1 else (call.stop - call.begin) / 32

def Call.take (call : Call) (p : Probe) : Int :=
  if p.chunk > call.probeCap - p.probed then call.probeCap - p.probed else p.chunk

/-- The range of the next probe. -/
def Call.probeRange (call : Call) (p : Probe) : Range :=
  (call.begin + p.probed, call.begin + p.probed + call.take p)

/-- The size of the chunk after one of `take` indices took `ns`. -/
def Call.nextChunk (call : Call) (take ns : Int) : Int :=
  let d := if ns > 0 then ns else 1
  let want := take * kProbeFloorNs / d
  let want := if want < take * 2 then take * 2 else want
  if want > call.probeCap then call.probeCap else want

/-- The end of a round of the probe loop that took `ns`. -/
def Call.probed (call : Call) (p : Probe) (ns : Int) : Probe where
  probed := p.probed + call.take p
  chunk := call.nextChunk (call.take p) ns
  probeNs := if ns > 0 ∧ call.take p ≥ p.probeLen then ns else p.probeNs
  probeLen := if ns > 0 ∧ call.take p ≥ p.probeLen then call.take p else p.probeLen

/-! ## The grain -/

/-- The pieces that `ParallelFor` wants at most. -/
def Pool.maxLeaves (pool : Pool) (fanWidth : Nat) : Nat :=
  fanWidth * pool.leavesPerWorker % SizeBound

def floorGrain (length : Int) (maxLeaves : Nat) : Int :=
  wrap ((length.toNat + maxLeaves - 1) % SizeBound / maxLeaves : Nat)

def kMinGrain : Int := 16

/-- The grain that `ParallelFor` passes on. -/
def leafGrain (grain length : Int) (maxLeaves : Nat) : Int :=
  max (max (max 1 grain) (floorGrain length maxLeaves)) kMinGrain

/-- `W` in `RunCursorRange`. -/
def Pool.compute (pool : Pool) : Int := wrap (pool.workers - pool.getHotWorkers : Nat)

/-- The grain that four blocks for each worker come to. -/
def balanced (total W : Int) : Int :=
  let blocks := W * 4
  let share := (total + blocks - 1).tdiv blocks
  let share := if share < 1 then 1 else share
  if share > 128 then 128 else share

/-- The grain of `RunCursorRange` for the grain it is given. -/
def cursorGrain (grain total W : Int) : Int := max grain (balanced total W)

def sliceCount (total grain : Int) : Int := (total + grain - 1).tdiv grain

def lanes (total grain W : Int) : Int := min W (max 1 (sliceCount total grain))

end JLibSched.ParallelFor
