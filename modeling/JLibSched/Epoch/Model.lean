import JLibSched.Lib.Stacks
import Mathlib.Tactic

/-!
# Epoch-based reclamation

A reader announces the global epoch in its thread's slot while it holds a guard.  A writer
unlinks an object, reads the epoch and retires the object with it.  `TryReclaim` computes the
least announced epoch and runs the deleter of everything retired before it.

Every access of `globalEpoch`, of a slot, of a claim flag and of the orphan count is one step,
and so is every section under the mutex of the orphan store; the sweep holds that mutex while
deleters run, and takes a step for each entry.  A thread has a stack of frames, because a
deleter may itself retire, reclaim or open a guard: while a deleter is on top, its thread may
make any call.

The epoch is a natural number: it is advanced by one and never wraps.  An empty slot, `SIZE_MAX`
in the code, is `none`.  `clock` counts the steps of the run.  It is not in the code, and neither
are the times at which slots were stored, guards opened and objects unlinked.
-/

namespace JLibSched.Epoch

/-- `EpochRetired`, with the time its object was unlinked. -/
structure Retired where
  ptr : Nat
  epoch : Nat
  unlinkedAt : Nat
deriving DecidableEq, Repr

/-- The slots: main and the workers have the first ones for good, the others are claimed. -/
structure Layout (threads slots : Nat) where
  /-- `externalBase_`. -/
  externalBase : Nat
  /-- The slot a thread of the pool is given. -/
  home : Fin threads → Option (Fin slots)
  apart : ∀ i j slot, home i = some slot → home j = some slot → i = j
  inside : ∀ i slot, home i = some slot → slot.val < externalBase

structure Shared (threads slots : Nat) where
  globalEpoch : Nat
  /-- `localEpoch` of each participant. -/
  localEpoch : Fin slots → Option Nat
  /-- When the slot was stored last. -/
  pinnedAt : Fin slots → Nat
  /-- `externalClaimed_`. -/
  claimed : Fin slots → Bool
  /-- `thread_id`. -/
  threadId : Fin threads → Option (Fin slots)
  /-- The guards each thread holds, innermost first, with the times they were opened. -/
  guards : Fin threads → List Nat
  /-- `EpochBag`, and whether it was destroyed. -/
  bag : Fin threads → List Retired
  bagDead : Fin threads → Bool
  /-- The orphan store, its count and its mutex. -/
  orphans : List Retired
  orphanCount : Nat
  orphanLock : Bool
  clock : Nat

/-- The local variables of `TryReclaim`: its argument, the least epoch found, when the global
epoch was read, and the participants that were loaded. -/
structure Scan where
  orphans : Bool
  minEpoch : Nat
  since : Nat
  loaded : Nat
deriving DecidableEq, Repr

/-- A call under way. -/
inductive Frame where
  /-- `SlotEpochGuard` found its slot empty and loads the epoch. -/
  | readEpoch
  /-- It stores the epoch in its slot. -/
  | storePin (epoch : Nat)
  /-- `AdvanceEpoch` compare-exchanges against the epoch it loaded. -/
  | advance (epoch : Nat)
  /-- The object is unlinked; `CurrentEpoch` comes next. -/
  | stamp (ptr unlinkedAt : Nat)
  /-- `RetirePtr`. -/
  | retirePtr (entry : Retired)
  /-- `MinActiveEpoch` loads the epoch. -/
  | minActiveEpoch (orphans : Bool)
  /-- `MinActiveEpoch` loads the slots one by one. -/
  | scan (scan : Scan)
  /-- `TryReclaim` goes through the entries of its bag. -/
  | sweep (scan : Scan) (work kept : List Retired)
  /-- It loads the orphan count. -/
  | loadOrphans (scan : Scan)
  /-- `SweepEpochOrphans` waits for the mutex. -/
  | lockOrphans (scan : Scan)
  /-- `SweepEpochOrphans` goes through the store. -/
  | sweepOrphans (scan : Scan) (todo kept : List Retired)
  /-- A deleter runs. -/
  | deleting (entry : Retired)
  /-- `ClaimExternalSlot` compare-exchanges the flag of this slot. -/
  | claim (slot : Nat)
deriving DecidableEq

structure State (threads slots : Nat) where
  shared : Shared threads slots
  stack : Fin threads → List Frame

inductive Op where
  | openGuard
  | closeGuard
  | advanceEpoch
  /-- Unlinks an object, to retire it. -/
  | unlink (ptr : Nat)
  | tryReclaim (orphans : Bool)
  /-- `OrphanEpochEntries` on the bag. -/
  | orphanBag
  /-- The thread ends and its bag is destroyed. -/
  | destroyBag
  /-- `ThreadScope`. -/
  | claimSlot
  | releaseSlot
deriving DecidableEq

inductive Label (threads : Nat) where
  | call (i : Fin threads) (op : Op)
  | step (i : Fin threads)
deriving DecidableEq

section

variable {threads slots : Nat}

def initial (layout : Layout threads slots) : State threads slots where
  shared :=
    { globalEpoch := 0
      localEpoch := fun _ => none
      pinnedAt := fun _ => 0
      claimed := fun _ => false
      threadId := layout.home
      guards := fun _ => []
      bag := fun _ => []
      bagDead := fun _ => false
      orphans := []
      orphanCount := 0
      orphanLock := false
      clock := 0 }
  stack := fun _ => []

/-- A call, as far as its first step: the shared state and the frames after it. -/
def call (layout : Layout threads slots) (sh : Shared threads slots) (i : Fin threads) :
    Op → Option (Shared threads slots × List Frame)
  | .openGuard =>
    match sh.threadId i with
    | none => none  -- `FatalNoEpochSlot`
    | some slot =>
      match sh.localEpoch slot with
      | none => some (sh, [.readEpoch])
      | some _ =>
        -- not the outermost guard: the pin is there already
        some ({ sh with guards := Function.update sh.guards i (sh.clock :: sh.guards i) }, [])
  | .closeGuard =>
    match sh.threadId i, sh.guards i with
    | some slot, [_] =>
      some ({ sh with localEpoch := Function.update sh.localEpoch slot none
                      guards := Function.update sh.guards i [] }, [])
    | _, _ :: g :: rest =>
      some ({ sh with guards := Function.update sh.guards i (g :: rest) }, [])
    | _, _ => none
  | .advanceEpoch => some (sh, [.advance sh.globalEpoch])
  | .unlink ptr => some (sh, [.stamp ptr sh.clock])
  | .tryReclaim orphans =>
    if sh.bag i = [] ∧ (orphans = false ∨ sh.orphanCount = 0) then some (sh, [])
    else some (sh, [.minActiveEpoch orphans])
  | .orphanBag =>
    if sh.bag i = [] then some (sh, [])
    else if sh.orphanLock then none
    else some ({ sh with orphans := sh.orphans ++ sh.bag i
                         orphanCount := (sh.orphans ++ sh.bag i).length
                         bag := Function.update sh.bag i [] }, [])
  | .destroyBag =>
    if sh.bag i = [] then some ({ sh with bagDead := Function.update sh.bagDead i true }, [])
    else if sh.orphanLock then none
    else some ({ sh with orphans := sh.orphans ++ sh.bag i
                         orphanCount := (sh.orphans ++ sh.bag i).length
                         bag := Function.update sh.bag i []
                         bagDead := Function.update sh.bagDead i true }, [])
  | .claimSlot =>
    match sh.threadId i with
    | some _ => some (sh, [])
    | none => some (sh, [.claim layout.externalBase])
  | .releaseSlot =>
    match sh.threadId i with
    | none => none
    | some slot =>
      -- an open guard is fatal here, and only an external slot is given back
      if layout.externalBase ≤ slot.val ∧ sh.localEpoch slot = none then
        some ({ sh with threadId := Function.update sh.threadId i none
                        claimed := Function.update sh.claimed slot false }, [])
      else none

/-- A step of the call on top of a thread's stack. -/
def effect (sh : Shared threads slots) (i : Fin threads) :
    Frame → Option (Shared threads slots × List Frame)
  | .readEpoch => some (sh, [.storePin sh.globalEpoch])
  | .storePin epoch =>
    match sh.threadId i with
    | none => none
    | some slot =>
      some ({ sh with localEpoch := Function.update sh.localEpoch slot (some epoch)
                      pinnedAt := Function.update sh.pinnedAt slot sh.clock
                      guards := Function.update sh.guards i (sh.clock :: sh.guards i) }, [])
  | .advance epoch =>
    if sh.globalEpoch = epoch then some ({ sh with globalEpoch := epoch + 1 }, [])
    else some (sh, [])
  | .stamp ptr unlinkedAt => some (sh, [.retirePtr ⟨ptr, sh.globalEpoch, unlinkedAt⟩])
  | .retirePtr entry =>
    if sh.bagDead i ∨ sh.threadId i = none then
      if sh.orphanLock then none
      else some ({ sh with orphans := sh.orphans ++ [entry]
                           orphanCount := (sh.orphans ++ [entry]).length }, [])
    else some ({ sh with bag := Function.update sh.bag i (sh.bag i ++ [entry]) }, [])
  | .minActiveEpoch orphans =>
    some (sh, [.scan ⟨orphans, sh.globalEpoch, sh.clock, 0⟩])
  | .scan c =>
    if bound : c.loaded < slots then
      match sh.localEpoch ⟨c.loaded, bound⟩ with
      | some e => some (sh, [.scan { c with minEpoch := min c.minEpoch e, loaded := c.loaded + 1 }])
      | none => some (sh, [.scan { c with loaded := c.loaded + 1 }])
    else
      -- the bag is worked on in a detached copy
      some ({ sh with bag := Function.update sh.bag i [] }, [.sweep c (sh.bag i) []])
  | .sweep c (entry :: work) kept =>
    if entry.epoch < c.minEpoch then some (sh, [.deleting entry, .sweep c work kept])
    else some (sh, [.sweep c work (kept ++ [entry])])
  | .sweep c [] kept =>
    some ({ sh with bag := Function.update sh.bag i (sh.bag i ++ kept) },
      if c.orphans then [.loadOrphans c] else [])
  | .loadOrphans c => some (sh, if sh.orphanCount ≠ 0 then [.lockOrphans c] else [])
  | .lockOrphans c =>
    if sh.orphanLock then none
    else some ({ sh with orphans := [], orphanLock := true }, [.sweepOrphans c sh.orphans []])
  | .sweepOrphans c (entry :: todo) kept =>
    if entry.epoch < c.minEpoch then some (sh, [.deleting entry, .sweepOrphans c todo kept])
    else some (sh, [.sweepOrphans c todo (kept ++ [entry])])
  | .sweepOrphans _ [] kept =>
    some ({ sh with orphans := kept, orphanCount := kept.length, orphanLock := false }, [])
  | .deleting _ => some (sh, [])
  | .claim slot =>
    if bound : slot < slots then
      if sh.claimed ⟨slot, bound⟩ then some (sh, [.claim (slot + 1)])
      else some ({ sh with claimed := Function.update sh.claimed ⟨slot, bound⟩ true
                           threadId := Function.update sh.threadId i (some ⟨slot, bound⟩) }, [])
    else none  -- no free slot is fatal

/-- A thread may make a call when it runs its own code or a deleter. -/
def callable : List Frame → Bool
  | [] | .deleting _ :: _ => true
  | _ => false

/-- The clock goes on with every step. -/
def Shared.tick (sh : Shared threads slots) : Shared threads slots :=
  { sh with clock := sh.clock + 1 }

def step (layout : Layout threads slots) (s : State threads slots) :
    Label threads → Option (State threads slots)
  | .call i op =>
    if callable (s.stack i) then
      (call layout s.shared i op).map fun (sh, new) =>
        ⟨sh.tick, Stacks.replace s.stack i new (s.stack i)⟩
    else none
  | .step i =>
    match s.stack i with
    | [] => none
    | f :: rest =>
      (effect s.shared i f).map fun (sh, new) =>
        ⟨sh.tick, Stacks.replace s.stack i new rest⟩

end

end JLibSched.Epoch
