import JLibSched.Lib.Stacks
import Mathlib.Tactic

/-!
# Gates and retired entries

`RetirePtr` puts an entry into the bag of its thread, or into the orphan store when the thread has
no bag, and goes through a gate when the bag is full.  `Gate` reclaims the bag, and the store as
well when it is asked to; an idle thread leaves its bag to the store.  `TryReclaim` runs deleters,
which may retire more, so it works on a detached copy of the bag.  `retiredCount` is adjusted after
an entry was stored, and after all entries of a reclaim pass were freed.

Which entries are safe depends on the guards of all threads: the least active epoch that
`TryReclaim` finds is a choice of its step here.  `HazardDomain::Scan` is a call that may run
deleters.
-/

namespace JLibSched.Gates

/-- `EpochRetired`, with the number of its `RetirePtr`, which stands for the deleter. -/
structure Entry where
  ptr : Nat
  epoch : Nat
  number : Nat
deriving DecidableEq, Repr

def kPublishAt : Nat := 64

structure Shared (n : Nat) where
  /-- `RunsGates`. -/
  runsGates : Fin n → Bool
  /-- `EpochBag`, whether it was destroyed, and `BagLimit`. -/
  bag : Fin n → List Entry
  bagDead : Fin n → Bool
  bagLimit : Fin n → Nat
  inGate : Fin n → Bool
  /-- The orphan store, its count and its mutex. -/
  orphans : List Entry
  orphanCount : Nat
  orphanLock : Bool
  retiredCount : UInt64
  /-- What was retired, and what a deleter was run for. -/
  retired : List Entry
  freed : List Entry

/-- The argument of `TryReclaim`, and its `safeEpoch`. -/
structure Pass where
  orphans : Bool
  safeEpoch : Nat
deriving DecidableEq, Repr

/-- A call under way.  The number of entries a pass has freed is its local `freed`. -/
inductive Frame where
  | retirePtr (entry : Entry)
  /-- `RetirePtr` counts its entry. -/
  | count
  | gate (idle orphans : Bool)
  /-- `Gate` calls `HazardDomain::Scan`. -/
  | scan
  /-- The end of `Gate`. -/
  | rearm (idle : Bool)
  | tryReclaim (orphans : Bool)
  /-- `TryReclaim` goes through the copy of the bag. -/
  | sweep (pass : Pass) (work kept : List Entry) (freed : Nat)
  /-- It loads the orphan count. -/
  | loadOrphans (pass : Pass) (freed : Nat)
  /-- `SweepEpochOrphans` waits for the mutex. -/
  | lockOrphans (pass : Pass) (freed : Nat)
  /-- It goes through the store. -/
  | sweepOrphans (pass : Pass) (todo kept : List Entry) (freed : Nat)
  /-- `TryReclaim` takes what it has freed off the count. -/
  | uncount (freed : Nat)
  /-- A deleter runs. -/
  | deleting (entry : Entry)
deriving DecidableEq

structure State (n : Nat) where
  shared : Shared n
  stack : Fin n → List Frame

inductive Op where
  | retirePtr (ptr epoch : Nat)
  | gate (idle orphans : Bool)
  | tryReclaim (orphans : Bool)
  | tick
deriving DecidableEq

inductive Label (n : Nat) where
  | call (i : Fin n) (op : Op)
  /-- A step of a call; a `TryReclaim` that begins finds the least active epoch. -/
  | step (i : Fin n) (minActiveEpoch : Nat)
  /-- A thread ends and its bag is destroyed. -/
  | exit (i : Fin n)
  /-- A thread gets an epoch slot, or gives it back. -/
  | slot (i : Fin n) (runsGates : Bool)
deriving DecidableEq

section

variable {n : Nat}

def initial : State n where
  shared :=
    { runsGates := fun _ => false
      bag := fun _ => []
      bagDead := fun _ => false
      bagLimit := fun _ => kPublishAt
      inGate := fun _ => false
      orphans := []
      orphanCount := 0
      orphanLock := false
      retiredCount := 0
      retired := []
      freed := [] }
  stack := fun _ => []

/-- The section of `OrphanEpochEntries`. -/
def Shared.orphan (sh : Shared n) (entries : List Entry) : Shared n :=
  { sh with
    orphans := sh.orphans ++ entries
    orphanCount := (sh.orphans ++ entries).length }

/-- `OrphanEpochEntries` on the bag of a thread. -/
def Shared.orphanBag (sh : Shared n) (i : Fin n) : Option (Shared n) :=
  if sh.bag i = [] then some sh
  else if sh.orphanLock then none
  else some { sh.orphan (sh.bag i) with bag := Function.update sh.bag i [] }

/-- The end of `Gate`, after an idle thread has left its bag to the store. -/
def Shared.rearm (sh : Shared n) (i : Fin n) : Shared n :=
  { sh with
    bagLimit := Function.update sh.bagLimit i ((sh.bag i).length + kPublishAt)
    inGate := Function.update sh.inGate i false }

/-- A call, as far as its first step: the shared state and the frames after it. -/
def call (sh : Shared n) : Op → Shared n × List Frame
  | .retirePtr ptr epoch =>
    let entry : Entry := ⟨ptr, epoch, sh.retired.length⟩
    ({ sh with retired := sh.retired ++ [entry] }, [.retirePtr entry, .count])
  | .gate idle orphans => (sh, [.gate idle orphans])
  | .tryReclaim orphans => (sh, [.tryReclaim orphans])
  | .tick => (sh, [.tryReclaim true])  -- after `AdvanceEpoch`

/-- A step of the call on top of a thread's stack. -/
def effect (sh : Shared n) (i : Fin n) (minActiveEpoch : Nat) :
    Frame → Option (Shared n × List Frame)
  | .retirePtr entry =>
    if sh.bagDead i ∨ sh.runsGates i = false then
      if sh.orphanLock then none else some (sh.orphan [entry], [])
    else
      let bag := sh.bag i ++ [entry]
      some ({ sh with bag := Function.update sh.bag i bag },
        if sh.bagLimit i ≤ bag.length then [.gate false false] else [])
  | .count => some ({ sh with retiredCount := sh.retiredCount + 1 }, [])
  | .gate idle orphans =>
    if sh.inGate i ∨ sh.bagDead i then some (sh, [])
    else
      some ({ sh with inGate := Function.update sh.inGate i true },
        [.tryReclaim orphans, .scan, .rearm idle])
  | .scan => some (sh, [])
  | .rearm idle =>
    if idle then (sh.orphanBag i).map fun sh => (sh.rearm i, []) else some (sh.rearm i, [])
  | .tryReclaim orphans =>
    if sh.bag i = [] ∧ (orphans = false ∨ sh.orphanCount = 0) then some (sh, [])
    else
      some ({ sh with bag := Function.update sh.bag i [] },
        [.sweep ⟨orphans, minActiveEpoch⟩ (sh.bag i) [] 0])
  | .sweep pass (entry :: work) kept freed =>
    if entry.epoch < pass.safeEpoch then
      some ({ sh with freed := sh.freed ++ [entry] },
        [.deleting entry, .sweep pass work kept (freed + 1)])
    else some (sh, [.sweep pass work (kept ++ [entry]) freed])
  | .sweep pass [] kept freed =>
    -- the deleters may have put more into the bag
    some ({ sh with bag := Function.update sh.bag i (sh.bag i ++ kept) },
      [if pass.orphans then .loadOrphans pass freed else .uncount freed])
  | .loadOrphans pass freed =>
    some (sh, [if sh.orphanCount ≠ 0 then .lockOrphans pass freed else .uncount freed])
  | .lockOrphans pass freed =>
    -- nobody else reads the store while the mutex is held; its entries stand in the frame
    if sh.orphanLock then none
    else some ({ sh with orphans := [], orphanLock := true },
      [.sweepOrphans pass sh.orphans [] freed])
  | .sweepOrphans pass (entry :: todo) kept freed =>
    if entry.epoch < pass.safeEpoch then
      some ({ sh with freed := sh.freed ++ [entry] },
        [.deleting entry, .sweepOrphans pass todo kept (freed + 1)])
    else some (sh, [.sweepOrphans pass todo (kept ++ [entry]) freed])
  | .sweepOrphans _ [] kept freed =>
    some ({ sh with orphans := kept, orphanCount := kept.length, orphanLock := false },
      [.uncount freed])
  | .uncount freed =>
    some (if freed = 0 then sh
      else { sh with retiredCount := sh.retiredCount - UInt64.ofNat freed }, [])
  | .deleting _ => some (sh, [])

/-- A thread may make a call when it runs its own code or a deleter. -/
def callable : List Frame → Bool
  | [] | .deleting _ :: _ | .scan :: _ => true
  | _ => false

def step (s : State n) : Label n → Option (State n)
  | .call i op =>
    if callable (s.stack i) then
      let (sh, new) := call s.shared op
      some ⟨sh, Stacks.replace s.stack i new (s.stack i)⟩
    else none
  | .step i minActiveEpoch =>
    match s.stack i with
    | [] => none
    | f :: rest =>
      (effect s.shared i minActiveEpoch f).map fun (sh, new) =>
        ⟨sh, Stacks.replace s.stack i new rest⟩
  | .exit i =>
    if s.stack i = [] then
      (s.shared.orphanBag i).map fun sh =>
        ⟨{ sh with bagDead := Function.update sh.bagDead i true }, s.stack⟩
    else none
  | .slot i runsGates =>
    some { s with shared :=
      { s.shared with runsGates := Function.update s.shared.runsGates i runsGates } }

end

end JLibSched.Gates
