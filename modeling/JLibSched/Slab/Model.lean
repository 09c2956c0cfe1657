import JLibSched.Lib.Transition

/-!
# The slab pool

The slots of one size class.  A free slot holds the link to the next one in its own first bytes, so
a list is walked through memory that its user has just given back.  Each thread keeps a list of its
own, the cache, and moves slots between it and the shared list in batches.

A section under the mutex of the pool is one step, and so is what a thread does to its cache before
and after it.  `exit` takes the mutex of the registry, which it keeps for `giveBack`.  The blocks of a
destroyed pool stay mapped, so slots of different pools differ.  The memory of a slot that is handed
out may be written at any time.

Following a null link is no step: such a call would not go on.
-/

namespace JLibSched.Slab

/-- A slot: the pool it is from, the array of blocks it stands in, and its place there. -/
structure Slot where
  pool : Nat
  block : Nat
  index : Nat
deriving DecidableEq, Repr

/-- What stands in the first bytes of each slot. -/
abbrev Next := Slot → Option Slot

def BATCH : Nat := 32

def kGrowSlots : Nat := 4096

/-- An array of blocks: an `Extent`, or the `mem`, `memSlots` and `bumpNext` of the pool. -/
structure Extent where
  block : Nat
  slots : Nat
  bumpNext : Nat
deriving DecidableEq, Repr

structure Pool where
  /-- How many pools there have been, with this one. -/
  number : Nat
  gen : UInt32
  mem : Extent
  /-- The last one first. -/
  extents : List Extent
  sharedHead : Option Slot
deriving DecidableEq, Repr

structure Cache where
  head : Option Slot
  count : Nat
  gen : UInt32
deriving DecidableEq, Repr

/-- `batchHead`, `batchTail` and `moved`. -/
structure Batch where
  head : Option Slot
  tail : Option Slot
  moved : Nat
deriving DecidableEq, Repr

inductive Pc where
  /-- The thread has not started, or has ended. -/
  | absent
  | idle
  /-- `refill` waits for the mutex. -/
  | refill
  /-- It has left the section. -/
  | stitch (batch : Batch)
  /-- `flush` waits for the mutex. -/
  | flush (head tail : Slot)
  /-- `giveBack` waits for the mutex. -/
  | giveBack (head tail : Slot)
deriving DecidableEq, Repr

structure State (n : Nat) where
  generation : UInt32
  /-- How many pools there have been. -/
  pools : Nat
  pool : Option Pool
  growthEnabled : Bool
  next : Next
  cache : Fin n → Cache
  pc : Fin n → Pc
  /-- What is handed out of the pool. -/
  out : List Slot

inductive Label (n : Nat) where
  | construct (slots : Nat) (lazy : Bool)
  | destroy
  | prefault (slots : Nat)
  | enableGrowth (on : Bool)
  | start (i : Fin n)
  | alloc (i : Fin n)
  | free (i : Fin n) (slot : Slot)
  /-- The thread goes on.  An allocation of a new extent may fail. -/
  | step (i : Fin n) (room : Bool)
  | exit (i : Fin n)
  /-- The user writes to a slot. -/
  | write (slot : Slot) (value : Option Slot)
deriving DecidableEq

/-! ## Lists of slots -/

/-- Each of the slots is linked in front of the batch. -/
def bump (slotAt : Nat → Slot) : Nat → Next → Batch → Next × Batch
  | 0, next, batch => (next, batch)
  | k + 1, next, batch =>
    let (next, batch) := bump slotAt k next batch
    (Function.update next (slotAt k) batch.head,
      { batch with
        head := some (slotAt k)
        tail := if batch.head = none then some (slotAt k) else batch.tail })

/-- As many slots as wanted, or as there are, are taken from the end of the array. -/
def Extent.bump (number : Nat) (e : Extent) (wanted : Nat) (next : Next) (batch : Batch) :
    Extent × Next × Batch :=
  let take := min wanted (e.slots - e.bumpNext)
  let (next, batch) := Slab.bump (fun k => ⟨number, e.block, e.bumpNext + k⟩) take next batch
  ({ e with bumpNext := e.bumpNext + take }, next, { batch with moved := batch.moved + take })

/-- The loop that takes a batch off a list: where it stops, the last slot passed, and how many. -/
def cut (next : Next) : Nat → Option Slot → Option Slot → Nat → Option Slot × Option Slot × Nat
  | 0, curr, tail, moved => (curr, tail, moved)
  | _ + 1, none, tail, moved => (none, tail, moved)
  | left + 1, some x, _, moved => cut next left (next x) (some x) (moved + 1)

/-- The slot so many links behind another. -/
def walk (next : Next) : Nat → Slot → Option Slot
  | 0, x => some x
  | k + 1, x => (next x).bind (walk next k)

/-! ## Sections under the mutex -/

def Pool.prefault (p : Pool) (slots : Nat) (next : Next) : Pool × Next :=
  let (mem, next, batch) := p.mem.bump p.number slots next ⟨p.sharedHead, none, 0⟩
  ({ p with mem := mem, sharedHead := batch.head }, next)

/-- The first extent with room gives a batch. -/
def bumpExtents (number : Nat) (next : Next) (batch : Batch) :
    List Extent → Option (List Extent × Next × Batch)
  | [] => none
  | e :: rest =>
    if e.slots ≤ e.bumpNext then
      (bumpExtents number next batch rest).map fun (rest, moved) => (e :: rest, moved)
    else
      let (e, moved) := e.bump number BATCH next batch
      some (e :: rest, moved)

/-- The next extent, where it is allocated. -/
def Pool.freshExtent (p : Pool) : Extent := ⟨p.extents.length + 1, kGrowSlots, 0⟩

/-- The extents give a batch, and the pool grows when none has room. -/
def Pool.grow (p : Pool) (room : Bool) (next : Next) (batch : Batch) : Pool × Next × Batch :=
  match bumpExtents p.number next batch p.extents with
  | some (extents, moved) => ({ p with extents := extents }, moved)
  | none =>
    if room then
      let (e, moved) := p.freshExtent.bump p.number BATCH next batch
      ({ p with extents := e :: p.extents }, moved)
    else (p, next, batch)

def Pool.refill (p : Pool) (growthEnabled room : Bool) (next : Next) : Pool × Next × Batch :=
  let (curr, tail, moved) := cut next BATCH p.sharedHead none 0
  -- with a full batch, or no slot left, this takes none
  let (mem, next, batch) := p.mem.bump p.number (BATCH - moved) next ⟨p.sharedHead, tail, moved⟩
  let p := { p with mem := mem, sharedHead := curr }
  if batch.moved = 0 ∧ growthEnabled then p.grow room next batch else (p, next, batch)

/-- A batch is put in front of the shared list. -/
def Pool.putBack (p : Pool) (head tail : Slot) (next : Next) : Pool × Next :=
  ({ p with sharedHead := some head }, Function.update next tail p.sharedHead)

section

variable {n : Nat}

/-! ## Calls -/

def initial : State n where
  generation := 0
  pools := 0
  pool := none
  growthEnabled := true
  next := fun _ => none
  cache := fun _ => ⟨none, 0, 0⟩
  pc := fun _ => .absent
  out := []

/-- `cache()`: the cache of a thread, emptied first when it is not from this pool. -/
def State.cacheOf (s : State n) (p : Pool) (i : Fin n) : Cache :=
  if (s.cache i).gen = p.gen then s.cache i else ⟨none, 0, p.gen⟩

/-- A slot is taken off the cache and handed out. -/
def State.pop (s : State n) (i : Fin n) (c : Cache) (slot : Slot) : State n :=
  { s with
    cache := Function.update s.cache i { c with head := s.next slot, count := c.count - 1 }
    pc := Function.update s.pc i .idle
    out := slot :: s.out }

def State.alloc (s : State n) (p : Pool) (i : Fin n) : State n :=
  let c := s.cacheOf p i
  match c.head with
  | some slot => s.pop i c slot
  | none =>
    { s with
      cache := Function.update s.cache i c
      pc := Function.update s.pc i (if p.mem.slots = 0 then .idle else .refill) }

/-- What `refill` does after the section, and the rest of `Alloc`. -/
def State.stitch (s : State n) (i : Fin n) (batch : Batch) : Option (State n) :=
  let c := s.cache i
  match batch.head, batch.tail with
  | none, _ => some { s with pc := Function.update s.pc i .idle }
  | some _, none => none
  | some head, some tail =>
    some ({ s with next := Function.update s.next tail c.head }.pop i
      { c with head := some head, count := c.count + batch.moved } head)

/-- `Free`, as far as the section of `flush`. -/
def State.free (s : State n) (p : Pool) (i : Fin n) (slot : Slot) : Option (State n) :=
  let c := s.cacheOf p i
  let next := Function.update s.next slot c.head
  let out := s.out.erase slot
  if c.count + 1 ≤ 2 * BATCH then
    some { s with
      next := next
      cache := Function.update s.cache i { c with head := some slot, count := c.count + 1 }
      out := out }
  else
    (walk next (c.count + 1 - BATCH - 1) slot).map fun tail =>
      { s with
        next := next
        cache := Function.update s.cache i { c with head := next tail, count := BATCH }
        pc := Function.update s.pc i (.flush slot tail)
        out := out }

/-- The thread ends, and its cache is dropped. -/
def State.drop (s : State n) (i : Fin n) : State n :=
  { s with
    cache := Function.update s.cache i { s.cache i with head := none, count := 0 }
    pc := Function.update s.pc i .absent }

/-- The destructor of the cache, as far as the section of `giveBack`. -/
def State.exit (s : State n) (i : Fin n) : Option (State n) :=
  let c := s.cache i
  match c.head, s.pool with
  | some head, some p =>
    if p.gen = c.gen ∧ c.count ≠ 0 then
      (walk s.next (c.count - 1) head).map fun tail =>
        { s with pc := Function.update s.pc i (.giveBack head tail) }
    else some (s.drop i)
  | _, _ => some (s.drop i)

def Pc.isGiveBack : Pc → Bool
  | .giveBack .. => true
  | _ => false

/-- The thread is in no call. -/
def Pc.isCalm : Pc → Bool
  | .absent | .idle => true
  | _ => false

def advance (s : State n) (p : Pool) (i : Fin n) (room : Bool) : Option (State n) :=
  match s.pc i with
  | .absent | .idle => none
  | .refill =>
    let (p, next, batch) := p.refill s.growthEnabled room s.next
    some { s with
      pool := some p
      next := next
      pc := Function.update s.pc i (.stitch batch) }
  | .stitch batch => s.stitch i batch
  | .flush head tail =>
    let (p, next) := p.putBack head tail s.next
    some { s with
      pool := some p
      next := next
      pc := Function.update s.pc i .idle }
  | .giveBack head tail =>
    let (p, next) := p.putBack head tail s.next
    some ({ s with pool := some p, next := next }.drop i)

/-- The user may write to the slot. -/
def State.writable (s : State n) (slot : Slot) : Bool :=
  match s.pool with
  | none => true
  | some p => slot ∈ s.out || slot.pool ≠ p.number

def step (s : State n) : Label n → Option (State n)
  | .construct slots lazy =>
    if s.pool = none then
      let p : Pool := ⟨s.pools + 1, s.generation + 1, ⟨0, slots, 0⟩, [], none⟩
      let (p, next) := if lazy then (p, s.next) else p.prefault slots s.next
      some { s with
        generation := s.generation + 1
        pools := s.pools + 1
        pool := some p
        next := next
        out := [] }
    else none
  | .destroy =>
    if s.pool.isSome ∧ ∀ i, (s.pc i).isCalm then some { s with pool := none } else none
  | .prefault slots =>
    s.pool.map fun p =>
      let (p, next) := p.prefault slots s.next
      { s with pool := some p, next := next }
  | .enableGrowth on => some { s with growthEnabled := on }
  | .start i =>
    if s.pc i = .absent then
      some { s with
        cache := Function.update s.cache i ⟨none, 0, 0⟩
        pc := Function.update s.pc i .idle }
    else none
  | .alloc i => if s.pc i = .idle then s.pool.map fun p => s.alloc p i else none
  | .free i slot =>
    if s.pc i = .idle ∧ slot ∈ s.out then s.pool.bind fun p => s.free p i slot else none
  | .step i room => s.pool.bind fun p => advance s p i room
  | .exit i =>
    if s.pc i = .idle ∧ ∀ j, (s.pc j).isGiveBack = false then s.exit i else none
  | .write slot value =>
    if s.writable slot then some { s with next := Function.update s.next slot value } else none

/-- A pool is built only when no thread has a cache with slots that bears the stamp it will get. -/
def stampsApart (s : State n) : Label n → Prop
  | .construct _ _ =>
    ∀ i, s.pc i = .absent ∨ (s.cache i).gen ≠ s.generation + 1 ∨ (s.cache i).head = none
  | _ => True

instance (s : State n) : (a : Label n) → Decidable (stampsApart s a)
  | .construct _ _ => inferInstanceAs (Decidable
      (∀ i, s.pc i = .absent ∨ (s.cache i).gen ≠ s.generation + 1 ∨ (s.cache i).head = none))
  | .destroy | .prefault _ | .enableGrowth _ | .start _ | .alloc _ | .free _ _ | .step _ _
  | .exit _ | .write _ _ => isTrue trivial

end

end JLibSched.Slab
