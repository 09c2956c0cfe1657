import Mathlib.Tactic

/-!
# Tasks, as queues see them

A queue moves `Task*` pointers.  A task is aligned to sixteen bytes, and the work-stealing
deque packs the task's type into the two low bits of the pointer, so that a thief can vet a
task without touching it.
-/

namespace JLibSched

/-- How a task runs. -/
inductive TaskType where
  | fiber
  | coroutine
  | native
deriving DecidableEq, Repr

/-- The enumerator's value. -/
def TaskType.code : TaskType → BitVec 64
  | .fiber => 0
  | .coroutine => 1
  | .native => 2

/-- An address. -/
abbrev Ptr := BitVec 64

/-- A task a queue may hold: its address, which leaves the tag bits free, and its type. -/
structure TaskRef where
  addr : Ptr
  type : TaskType
  aligned : addr &&& 3#64 = 0#64

end JLibSched
