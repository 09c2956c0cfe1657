import JLibSched.Lib.Stacks
import Mathlib.Tactic

/-!
# Hazard pointers

A reader publishes a pointer in a cell of its row and reads the source pointer again
(`HazardGuard::Protect`).  A writer unlinks an object and retires it.  `Scan` reads all cells, one
by one, and runs the deleter of everything in the list of its thread, and in the orphan store, that
no cell named.

Every access of a cell, of a source pointer and of the orphan count is one step, and so is every
section under the mutex of the orphan store; `Scan` holds that mutex while it goes through the store,
and takes a step for each entry, in its own list as well.  A thread has a stack of frames, because a
deleter may retire, scan or protect: while a deleter is on top, its thread may make any call.

A deleter that makes the loop over `items` lose its place (by a `Retire` that makes the vector grow,
or a `Scan` that swaps it) is undefined behaviour in the code.  Here the loop goes on with the
entries it began with.
-/

namespace JLibSched.Hazard

/-- A pair of `items`.  The number says which call of `Retire` it is from, and stands for the
deleter. -/
structure Entry where
  ptr : Nat
  number : Nat
deriving DecidableEq, Repr

/-- What has become of an object.  The code does not keep this. -/
inductive Phase where
  | absent
  /-- No source pointer names it. -/
  | unlinked
  | linked
  | retired
deriving DecidableEq, Repr

/-- The table: the rows of all readers, and the row of each thread. -/
structure Layout (n : Nat) where
  readerCount : Nat
  kCellsPerReader : Nat
  reader : Fin n → Nat
  inside : ∀ i, reader i < readerCount
  apart : ∀ i j, reader i = reader j → i = j

/-- The place of a cell in the table. -/
def Layout.cell {n : Nat} (layout : Layout n) (i : Fin n) (k : Nat) : Nat :=
  layout.reader i * layout.kCellsPerReader + k

def Layout.size {n : Nat} (layout : Layout n) : Nat := layout.readerCount * layout.kCellsPerReader

structure Shared (n : Nat) where
  /-- `TaskScheduler::IsInitialized`. -/
  isInitialized : Bool
  /-- Whether the table is built. -/
  table : Bool
  cells : Nat → Option Nat
  /-- The source pointers. -/
  src : Nat → Option Nat
  object : Nat → Phase
  /-- `RunsGates`. -/
  runsGates : Fin n → Bool
  /-- `t_retire.items`, and `t_retireDead`. -/
  items : Fin n → List Entry
  retireDead : Fin n → Bool
  /-- The orphan store, its count and its mutex. -/
  orphans : List Entry
  orphanCount : Nat
  orphanLock : Bool
  /-- What `Protect` has returned for a cell that was not written since. -/
  held : Fin n → Nat → Option Nat
  /-- What was retired, and what a deleter was run for. -/
  retired : List Entry
  freed : List Entry

/-- The local variables of `Scan`: its argument, how much was retired when it began, and the
pointers found in the cells. -/
structure Sweep where
  orphans : Bool
  since : Nat
  named : List Nat
deriving DecidableEq, Repr

/-- A call under way. -/
inductive Frame where
  /-- `Protect` loads the source pointer. -/
  | load (k source : Nat)
  /-- It sets the cell. -/
  | publish (k source : Nat) (ptr : Option Nat)
  /-- It loads the source pointer again. -/
  | recheck (k source : Nat) (ptr : Option Nat)
  | retire (entry : Entry)
  | scan (orphans : Bool)
  /-- `Scan` loads the cells. -/
  | scanCells (sweep : Sweep) (loaded : Nat)
  /-- It goes through `items`. -/
  | scanItems (sweep : Sweep) (todo keep : List Entry)
  /-- It loads the orphan count. -/
  | loadOrphans (sweep : Sweep)
  /-- It waits for the mutex. -/
  | lockOrphans (sweep : Sweep)
  /-- It goes through the store. -/
  | scanOrphans (sweep : Sweep) (todo stillNamed : List Entry)
  /-- A deleter runs. -/
  | deleting (entry : Entry)
deriving DecidableEq

structure State (n : Nat) where
  shared : Shared n
  stack : Fin n → List Frame

inductive Op where
  | protect (k source : Nat)
  /-- `Set`, and each store of `Clear`, `Swap` and the destructor of a guard. -/
  | set (k : Nat) (ptr : Option Nat)
  | retire (ptr : Option Nat)
  | scan (orphans : Bool)
  | handOffPending
deriving DecidableEq

inductive Label (n : Nat) where
  | call (i : Fin n) (op : Op)
  | step (i : Fin n)
  /-- A thread ends, and `t_retire` is destroyed. -/
  | exit (i : Fin n)
  /-- A thread gets an epoch slot, or gives it back. -/
  | slot (i : Fin n) (runsGates : Bool)
  /-- The scheduler is initialized. -/
  | startPool
  /-- An object is allocated. -/
  | allocate (ptr : Nat)
  /-- A source pointer is written. -/
  | write (source : Nat) (ptr : Option Nat)
deriving DecidableEq

section

variable {n : Nat}

def initial : State n where
  shared :=
    { isInitialized := false
      table := false
      cells := fun _ => none
      src := fun _ => none
      object := fun _ => .absent
      runsGates := fun _ => false
      items := fun _ => []
      retireDead := fun _ => false
      orphans := []
      orphanCount := 0
      orphanLock := false
      held := fun _ _ => none
      retired := []
      freed := [] }
  stack := fun _ => []

def Shared.ensureTable (sh : Shared n) : Shared n :=
  { sh with table := sh.table || sh.isInitialized }

def Shared.setCell (layout : Layout n) (sh : Shared n) (i : Fin n) (k : Nat) (ptr : Option Nat) :
    Shared n :=
  { sh with
    cells := Function.update sh.cells (layout.cell i k) ptr
    held := Function.update sh.held i (Function.update (sh.held i) k none) }

/-- The section of `AdoptOrphans`. -/
def Shared.adopt (sh : Shared n) (entries : List Entry) : Shared n :=
  { sh with
    orphans := sh.orphans ++ entries
    orphanCount := (sh.orphans ++ entries).length }

/-- `AdoptOrphans` on the list of a thread. -/
def Shared.adoptItems (sh : Shared n) (i : Fin n) : Option (Shared n) :=
  if sh.items i = [] then some sh
  else if sh.orphanLock then none
  else some { sh.adopt (sh.items i) with items := Function.update sh.items i [] }

/-- From how many entries on `Retire` scans. -/
def Shared.threshold (layout : Layout n) (sh : Shared n) : Nat :=
  if sh.table ∧ 2 * layout.readerCount * layout.kCellsPerReader ≠ 0 then
    2 * layout.readerCount * layout.kCellsPerReader
  else 64

/-- A call, as far as its first step: the shared state and the frames after it. -/
def call (layout : Layout n) (sh : Shared n) (i : Fin n) : Op → Option (Shared n × List Frame)
  | .protect k source =>
    -- without a table or such a cell it is fatal
    if sh.ensureTable.table ∧ k < layout.kCellsPerReader then
      some (sh.ensureTable, [.load k source])
    else none
  | .set k ptr =>
    if sh.table ∧ k < layout.kCellsPerReader then some (sh.setCell layout i k ptr, []) else none
  | .retire none => some (sh, [])
  | .retire (some ptr) =>
    let entry : Entry := ⟨ptr, sh.retired.length⟩
    some ({ sh with
      object := Function.update sh.object ptr .retired
      retired := sh.retired ++ [entry] }, [.retire entry])
  | .scan orphans => some (sh, [.scan orphans])
  | .handOffPending =>
    if sh.retireDead i then some (sh, []) else (sh.adoptItems i).map fun sh => (sh, [])

/-- A step of the call on top of a thread's stack. -/
def effect (layout : Layout n) (sh : Shared n) (i : Fin n) :
    Frame → Option (Shared n × List Frame)
  | .load k source => some (sh, [.publish k source (sh.src source)])
  | .publish k source ptr => some (sh.setCell layout i k ptr, [.recheck k source ptr])
  | .recheck k source ptr =>
    if sh.src source = ptr then
      some ({ sh with
        held := Function.update sh.held i (Function.update (sh.held i) k ptr) }, [])
    else some (sh, [.load k source])
  | .retire entry =>
    if sh.retireDead i ∨ sh.runsGates i = false then
      if sh.orphanLock then none else some (sh.adopt [entry], [])
    else
      let sh := sh.ensureTable
      let items := sh.items i ++ [entry]
      some ({ sh with items := Function.update sh.items i items },
        if sh.threshold layout ≤ items.length then [.scan false] else [])
  | .scan orphans =>
    let sh := sh.ensureTable
    if sh.items i = [] ∧ (orphans = false ∨ sh.orphanCount = 0) ∨ sh.table = false then
      some (sh, [])
    else some (sh, [.scanCells ⟨orphans, sh.retired.length, []⟩ 0])
  | .scanCells c loaded =>
    if loaded < layout.size then
      match sh.cells loaded with
      | some ptr => some (sh, [.scanCells { c with named := ptr :: c.named } (loaded + 1)])
      | none => some (sh, [.scanCells c (loaded + 1)])
    else some (sh, [.scanItems c (sh.items i) []])
  | .scanItems c (entry :: todo) keep =>
    if entry.ptr ∈ c.named then some (sh, [.scanItems c todo (keep ++ [entry])])
    else some ({ sh with freed := sh.freed ++ [entry] }, [.deleting entry, .scanItems c todo keep])
  | .scanItems c [] keep =>
    some ({ sh with items := Function.update sh.items i keep },
      if c.orphans then [.loadOrphans c] else [])
  | .loadOrphans c => some (sh, if sh.orphanCount ≠ 0 then [.lockOrphans c] else [])
  | .lockOrphans c =>
    -- nobody else reads the store while the mutex is held; its entries stand in the frame
    if sh.orphanLock then none
    else some ({ sh with orphans := [], orphanLock := true }, [.scanOrphans c sh.orphans []])
  | .scanOrphans c (entry :: todo) stillNamed =>
    if entry.ptr ∈ c.named then some (sh, [.scanOrphans c todo (stillNamed ++ [entry])])
    else
      some ({ sh with freed := sh.freed ++ [entry] },
        [.deleting entry, .scanOrphans c todo stillNamed])
  | .scanOrphans _ [] stillNamed =>
    some ({ sh with
      orphans := stillNamed
      orphanCount := stillNamed.length
      orphanLock := false }, [])
  | .deleting entry =>
    some ({ sh with object := Function.update sh.object entry.ptr .absent }, [])

/-- A thread may make a call when it runs its own code or a deleter. -/
def callable : List Frame → Bool
  | [] | .deleting _ :: _ => true
  | _ => false

/-- A source pointer is written: what it named is unlinked, and what it names is linked. -/
def Shared.write (sh : Shared n) (source : Nat) (ptr : Option Nat) : Shared n :=
  let object := match sh.src source with
    | some old => Function.update sh.object old .unlinked
    | none => sh.object
  { sh with
    src := Function.update sh.src source ptr
    object := match ptr with
      | some new => Function.update object new .linked
      | none => object }

def step (layout : Layout n) (s : State n) : Label n → Option (State n)
  | .call i op =>
    if callable (s.stack i) then
      (call layout s.shared i op).map fun (sh, new) =>
        ⟨sh, Stacks.replace s.stack i new (s.stack i)⟩
    else none
  | .step i =>
    match s.stack i with
    | [] => none
    | f :: rest =>
      (effect layout s.shared i f).map fun (sh, new) => ⟨sh, Stacks.replace s.stack i new rest⟩
  | .exit i =>
    if s.stack i = [] then
      (s.shared.adoptItems i).map fun sh =>
        ⟨{ sh with retireDead := Function.update sh.retireDead i true }, s.stack⟩
    else none
  | .slot i runsGates =>
    some { s with shared :=
      { s.shared with runsGates := Function.update s.shared.runsGates i runsGates } }
  | .startPool => some { s with shared := { s.shared with isInitialized := true } }
  | .allocate ptr =>
    if s.shared.object ptr = .absent then
      some { s with shared :=
        { s.shared with object := Function.update s.shared.object ptr .unlinked } }
    else none
  | .write source ptr => some { s with shared := s.shared.write source ptr }

end

end JLibSched.Hazard
