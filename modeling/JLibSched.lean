import JLibSched.Lib.Transition
import JLibSched.Lib.Circular
import JLibSched.Lib.Adjacent
import JLibSched.Lib.Stacks
import JLibSched.Lib.Divided
import JLibSched.Lib.Holding
import JLibSched.Lib.Links
import JLibSched.Lib.DoublyLinked
import JLibSched.Lib.WaitQueue
import JLibSched.Lib.Ring
import JLibSched.Task.Basic
import JLibSched.WaitGroup.Model
import JLibSched.WaitGroup.DestroySafety
import JLibSched.WaitGroup.Rounds
import JLibSched.WaitGroup.Wakes
import JLibSched.WaitGroup.Paced
import JLibSched.WaitGroup.Registering
import JLibSched.Deque.Model
import JLibSched.Deque.Invariant
import JLibSched.Deque.Linearizable
import JLibSched.MPSC.Model
import JLibSched.MPSC.Shape
import JLibSched.MPSC.Fifo
import JLibSched.DAG.Model
import JLibSched.DAG.Moves
import JLibSched.DAG.Tokens
import JLibSched.DAG.Delivery
import JLibSched.DAG.Ledger
import JLibSched.DAG.Order
import JLibSched.DAG.Progress
import JLibSched.DAG.Lifetime
import JLibSched.Epoch.Model
import JLibSched.Epoch.Moves
import JLibSched.Epoch.Safety
import JLibSched.Epoch.Gates
import JLibSched.Epoch.Conserved
import JLibSched.Hazard.Model
import JLibSched.Hazard.Moves
import JLibSched.Hazard.Conservation
import JLibSched.Hazard.Safety
import JLibSched.Hazard.Rows
import JLibSched.Ref.Model
import JLibSched.Ref.Lifetime
import JLibSched.Slab.Model
import JLibSched.Slab.Lists
import JLibSched.Slab.Sections
import JLibSched.Slab.Conserved
import JLibSched.Slab.Generations
import JLibSched.Fiber.Handshake
import JLibSched.Fiber.Pool
import JLibSched.Fiber.Conserved
import JLibSched.Idle.Stack
import JLibSched.Executor.Model
import JLibSched.Executor.Completion
import JLibSched.Executor.Spawned
import JLibSched.Executor.Pass
import JLibSched.Cancel.Token
import JLibSched.Wait.Serving
import JLibSched.Wait.Removed
import JLibSched.Wait.Sweep
import JLibSched.Wait.Cancellation
import JLibSched.Wait.Registry
import JLibSched.Mutex.Model
import JLibSched.Mutex.Moves
import JLibSched.Mutex.Exclusion
import JLibSched.Mutex.Bare
import JLibSched.Mutex.Handover
import JLibSched.Mutex.Cancellation
import JLibSched.Mutex.Calls
import JLibSched.Semaphore.Model
import JLibSched.Semaphore.Moves
import JLibSched.Semaphore.Permits
import JLibSched.Semaphore.Waiters
import JLibSched.Semaphore.Cancellation
import JLibSched.CondVar.Model
import JLibSched.CondVar.Moves
import JLibSched.CondVar.Phases
import JLibSched.CondVar.Reasons
import JLibSched.CondVar.Waiters
import JLibSched.CondVar.Cancellation
import JLibSched.Event.Model
import JLibSched.Event.Unlinking
import JLibSched.Event.Refinement
import JLibSched.Event.Waiters
import JLibSched.Event.Cancellation
import JLibSched.IO.Acceptor
import JLibSched.IO.Descriptors
import JLibSched.IO.Stream
import JLibSched.IO.Chains
import JLibSched.Timer.Wheel
import JLibSched.Timer.Model
import JLibSched.Timer.Linked
import JLibSched.Timer.Advance
import JLibSched.Timer.NextEvent
import JLibSched.Timer.Invariant
import JLibSched.Timer.Steps
import JLibSched.Timer.Cascades
import JLibSched.Timer.Deadlines
import JLibSched.Timer.Ejects
import JLibSched.Timer.History
import JLibSched.Timer.Acts
import JLibSched.Timer.Handles
import JLibSched.Timer.OnTime
import JLibSched.Timer.Sleeper
import JLibSched.Timer.Periodics
import JLibSched.Scopes.Model
import JLibSched.Scopes.Slots
import JLibSched.Scopes.FreeSlots
import JLibSched.Scopes.Nesting
import JLibSched.Scopes.Stale
import JLibSched.Scopes.Ended
import JLibSched.Scopes.Racing
import JLibSched.IO.AcceptWaiters
import JLibSched.Future.Model
import JLibSched.Future.Lists
import JLibSched.Future.Waiters
import JLibSched.Future.Delivery
import JLibSched.Future.Cancellation
import JLibSched.Future.Reused
import JLibSched.Reactor.Request
import JLibSched.Reactor.Leftovers
import JLibSched.Reactor.Model
import JLibSched.Reactor.Lists
import JLibSched.Reactor.Moves
import JLibSched.Reactor.Submission
import JLibSched.Reactor.Holders
import JLibSched.Reactor.Outstanding
import JLibSched.Reactor.Asking
import JLibSched.Reactor.Targets
import JLibSched.Reactor.Sweeps
import JLibSched.Lib.Ranges
import JLibSched.ParallelFor.Width
import JLibSched.ParallelFor.Cursor
import JLibSched.ParallelFor.Drawn
import JLibSched.ParallelFor.Covers
import JLibSched.ParallelFor.Lazy
import JLibSched.ParallelFor.Pieces
import JLibSched.ParallelFor.Splits
import JLibSched.Batch.Push
import JLibSched.Batch.Array
import JLibSched.Placement.Pick
import JLibSched.Placement.Target
import JLibSched.Task.Dispatch
import JLibSched.Lib.Checked
import JLibSched.Timer.Overflow
import JLibSched.Reactor.Message
import JLibSched.Lib.Peeling
import JLibSched.DAG.Cycles
import JLibSched.Fiber.Blocks
import JLibSched.Slab.LiveCount
import JLibSched.Task.Debts
import JLibSched.Task.Locals
import JLibSched.Wait.List
import JLibSched.Topology.CpuList
import JLibSched.Idle.Count
import JLibSched.Deque.Unwrapped
import JLibSched.Deque.Flags
import JLibSched.Deque.GrowLoop
import JLibSched.Timer.Sections
import JLibSched.DAG.ArenaRuns
import JLibSched.Topology.Groups
import JLibSched.Topology.FlagLayout
import JLibSched.Lib.Parking
import JLibSched.Park.Model
import JLibSched.Park.Awake
import JLibSched.Hunt.Model
import JLibSched.Hunt.Watched
import JLibSched.Lib.Ledger
import JLibSched.IO.Accounts
import JLibSched.Lib.Memory
import JLibSched.Lib.Switching
import JLibSched.Context.X86
import JLibSched.Context.AArch64
import JLibSched.Context.Runs
import JLibSched.Lib.Calls
import JLibSched.Coroutine.Model
import JLibSched.Coroutine.Frames
import JLibSched.Coroutine.Calls
import JLibSched.Periodic.Model
import JLibSched.Periodic.Lifetime
