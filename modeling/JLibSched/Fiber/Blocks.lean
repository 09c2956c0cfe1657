import JLibSched.Fiber.Pool
import JLibSched.Lib.Ranges
import Mathlib.Tactic

/-!
# Blocks of fibers

`AddBlock` reserves an arena for the stacks of a block and carves the stacks from it, one after the
other.  The arena has room for as many regions as the block has fibers, but each stack is rounded up
to whole pages, below the lowest of which is its guard.  So all fibers are made only if the regions
are whole pages already.

The platform answers for memory.  Sizes have 64 bits.  The free fibers of a pool are known by their
numbers, as in the model of its caches.
-/

namespace JLibSched.Fibers

/-! ## The arena -/

/-- The page size, and whether memory can be had: the start of a reservation of a size, the commit of
a range, the storage of so many fibers, and room for one block more. -/
structure Platform where
  pageSize : Nat
  reserveNoAccess : Nat → Option Nat
  commitReadWrite : Nat → Nat → Bool
  allocFiberStorage : Nat → Bool
  reserveBlocks : Nat → Bool

structure FiberStackArena where
  pageSize : Nat
  base : Nat
  totalSize : Nat
  offset : Nat

/-- The constructor, which throws when the reservation fails. -/
def FiberStackArena.make (p : Platform) (capacity : Nat) : Option FiberStackArena :=
  (p.reserveNoAccess capacity).map fun base => ⟨p.pageSize, base, capacity, 0⟩

/-- `(rawSize + pageSize - 1) & ~(pageSize - 1)`. -/
def stackSize (pageSize rawSize : Nat) : Nat :=
  (rawSize + pageSize - 1) &&& (2 ^ 64 - pageSize)

def FiberStackArena.allocateStack (p : Platform) (arena : FiberStackArena) (rawSize : Nat) :
    Option Nat × FiberStackArena :=
  let size := stackSize arena.pageSize rawSize
  if size ≤ arena.pageSize then (none, arena)
  else
    let current := arena.offset
    let arena := { arena with offset := (arena.offset + size) % 2 ^ 64 }
    if current > arena.totalSize ∨ size > arena.totalSize - current then (none, arena)
    else
      let region := arena.base + current
      if p.commitReadWrite (region + arena.pageSize) (size - arena.pageSize) then
        (some region, arena)
      else (none, arena)

/-! ## The pool -/

structure Fiber where
  stackBase : Nat
  stackSize : Nat
  stackClass : StackClass
  poolIndex : Nat
deriving DecidableEq, Repr

/-- The fibers that were constructed, and their arena. -/
structure Block where
  arena : FiberStackArena
  fibers : List Fiber

structure Pool where
  availableFibers : StackClass → List Nat
  size : Nat
  classCount : StackClass → Nat
  committedBytes : Nat
  nextIndex : Nat
  blocks : StackClass → List Block

def Pool.empty : Pool where
  availableFibers := fun _ => []
  size := 0
  classCount := fun _ => 0
  committedBytes := 0
  nextIndex := 0
  blocks := fun _ => []

def Platform.regionFor (p : Platform) (c : StackClass) : Nat := UsableFor c + p.pageSize

/-- The loop of `AddBlock`: it ends at the first stack that cannot be had. -/
def construct (p : Platform) (c : StackClass) : Nat → FiberStackArena → Nat →
    List Fiber × FiberStackArena
  | 0, arena, _ => ([], arena)
  | todo + 1, arena, nextIndex =>
    match arena.allocateStack p (p.regionFor c) with
    | (none, arena) => ([], arena)
    | (some stackMem, arena) =>
      (⟨stackMem, p.regionFor c, c, nextIndex⟩ :: (construct p c todo arena (nextIndex + 1)).1,
        (construct p c todo arena (nextIndex + 1)).2)

/-- What `AddBlock` does with a block that is not empty. -/
def Pool.publish (pool : Pool) (p : Platform) (c : StackClass) (b : Block) : Pool where
  availableFibers := Function.update pool.availableFibers c
    (pool.availableFibers c ++ b.fibers.map (·.poolIndex))
  size := (pool.size + b.fibers.length) % 2 ^ 64
  classCount := Function.update pool.classCount c
    ((pool.classCount c + b.fibers.length) % 2 ^ 64)
  committedBytes := (pool.committedBytes + b.fibers.length * p.regionFor c) % 2 ^ 64
  nextIndex := pool.nextIndex + b.fibers.length
  blocks := Function.update pool.blocks c (pool.blocks c ++ [b])

def Pool.addBlock (pool : Pool) (p : Platform) (c : StackClass) (count : Nat) : Bool × Pool :=
  match FiberStackArena.make p (count * p.regionFor c % 2 ^ 64) with
  | none => (false, pool)
  | some arena =>
    if p.allocFiberStorage count ∧ p.reserveBlocks ((pool.blocks c).length + 1) then
      let made := construct p c count arena pool.nextIndex
      if made.1 = [] then (false, pool)
      else (true, pool.publish p c ⟨made.2, made.1⟩)
    else (false, pool)

/-- The constructor's loop, for one class; it throws when there is no block. -/
def Pool.provide (pool : Pool) (p : Platform) (c : StackClass) (count : Nat) : Option Pool :=
  if count ≠ 0 then
    if (pool.addBlock p c count).1 then some (pool.addBlock p c count).2 else none
  else some pool

/-- `GlobalFiberPool::Create`. -/
def create (p : Platform) (standardCount deepCount : Nat) : Option Pool :=
  (Pool.empty.provide p .standard standardCount).bind fun pool => pool.provide p .deep deepCount

/-! ## Whole pages -/

variable {p : Platform} {c : StackClass} {arena : FiberStackArena} {k raw count : Nat}

theorem mask_testBit (small : k ≤ 64) (i : Nat) :
    (2 ^ 64 - 2 ^ k).testBit i = (decide (k ≤ i) && decide (i < 64)) := by
  have shifted : 2 ^ 64 - 2 ^ k = (2 ^ (64 - k) - 1) <<< k := by
    rw [Nat.shiftLeft_eq, Nat.sub_mul, Nat.one_mul, ← Nat.pow_add, Nat.sub_add_cancel small]
  rw [shifted, Nat.testBit_shiftLeft, Nat.testBit_two_pow_sub_one]
  by_cases above : k ≤ i
  · rw [decide_eq_true above]
    exact congrArg _ (decide_eq_decide.mpr (by omega))
  · rw [decide_eq_false above]
    rfl

/-- The mask clears the bits below the page size. -/
theorem and_mask (small : k ≤ 64) {x : Nat} (fits : x < 2 ^ 64) :
    x &&& (2 ^ 64 - 2 ^ k) = x / 2 ^ k * 2 ^ k := by
  refine Nat.eq_of_testBit_eq fun i => ?_
  rw [Nat.testBit_and, mask_testBit small, ← Nat.shiftRight_eq_div_pow, ← Nat.shiftLeft_eq,
    Nat.testBit_shiftLeft, Nat.testBit_shiftRight]
  by_cases above : k ≤ i
  · rw [decide_eq_true above, Bool.true_and, Bool.true_and, Nat.add_sub_cancel' above]
    by_cases inside : i < 64
    · rw [decide_eq_true inside, Bool.and_true]
    · have none : x.testBit i = false :=
        Nat.testBit_lt_two_pow (fits.trans_le (Nat.pow_le_pow_right (by decide) (by omega)))
      rw [none, Bool.false_and]
  · rw [decide_eq_false above, Bool.false_and, Bool.and_false, Bool.false_and]

/-- A stack has the fewest pages that hold the region. -/
theorem stackSize_eq (small : k ≤ 63) (fits : raw < 2 ^ 63) :
    stackSize (2 ^ k) raw = (raw + 2 ^ k - 1) / 2 ^ k * 2 ^ k := by
  have page : 2 ^ k ≤ 2 ^ 63 := Nat.pow_le_pow_right (by decide) small
  unfold stackSize
  exact and_mask (by omega) (by omega)

theorem le_stackSize (small : k ≤ 63) (fits : raw < 2 ^ 63) : raw ≤ stackSize (2 ^ k) raw := by
  have positive : 0 < 2 ^ k := Nat.two_pow_pos k
  have split := Nat.div_add_mod (raw + 2 ^ k - 1) (2 ^ k)
  have part := Nat.mod_lt (raw + 2 ^ k - 1) positive
  rw [stackSize_eq small fits, Nat.mul_comm]
  omega

/-- Nothing is added exactly to whole pages. -/
theorem stackSize_eq_iff (small : k ≤ 63) (fits : raw < 2 ^ 63) :
    stackSize (2 ^ k) raw = raw ↔ raw % 2 ^ k = 0 := by
  have positive : 0 < 2 ^ k := Nat.two_pow_pos k
  rw [stackSize_eq small fits]
  constructor
  · intro same
    rw [← same]
    exact Nat.mul_mod_left ..
  · intro whole
    obtain ⟨pages, rfl⟩ := Nat.dvd_of_mod_eq_zero whole
    have rounded : (2 ^ k * pages + 2 ^ k - 1) / 2 ^ k = pages := by
      have split : 2 ^ k * pages + 2 ^ k - 1 = 2 ^ k - 1 + 2 ^ k * pages := by omega
      rw [split, Nat.add_mul_div_left _ _ positive, Nat.div_eq_of_lt (by omega), Nat.zero_add]
    rw [rounded, Nat.mul_comm]

/-! ## One block -/

/-- No reservation, commit or allocation fails. -/
structure Platform.Succeeds (p : Platform) : Prop where
  reserve : ∀ n, (p.reserveNoAccess n).isSome = true
  commit : ∀ start n, p.commitReadWrite start n = true
  storage : ∀ n, p.allocFiberStorage n = true
  blocks : ∀ n, p.reserveBlocks n = true

/-- The stacks of a block lie in its arena and do not overlap. -/
structure Block.Apart (b : Block) : Prop where
  inside : ∀ f ∈ b.fibers, b.arena.base ≤ f.stackBase ∧
    f.stackBase + f.stackSize ≤ b.arena.base + b.arena.totalSize
  disjoint : b.fibers.Pairwise fun f g =>
    f.stackBase + f.stackSize ≤ g.stackBase ∨ g.stackBase + g.stackSize ≤ f.stackBase

theorem allocateStack_some (succeeds : p.Succeeds)
    (page : arena.pageSize < stackSize arena.pageSize raw) (small : arena.totalSize < 2 ^ 64)
    (room : arena.offset + stackSize arena.pageSize raw ≤ arena.totalSize) :
    arena.allocateStack p raw = (some (arena.base + arena.offset),
      { arena with offset := arena.offset + stackSize arena.pageSize raw }) := by
  unfold FiberStackArena.allocateStack
  simp only
  rw [if_neg (Nat.not_le.mpr page), if_neg (by omega), if_pos (succeeds.commit _ _),
    Nat.mod_eq_of_lt (room.trans_lt small)]

theorem allocateStack_none (page : arena.pageSize < stackSize arena.pageSize raw)
    (beyond : arena.totalSize < arena.offset + stackSize arena.pageSize raw) :
    arena.allocateStack p raw = (none,
      { arena with offset := (arena.offset + stackSize arena.pageSize raw) % 2 ^ 64 }) := by
  unfold FiberStackArena.allocateStack
  simp only
  rw [if_neg (Nat.not_le.mpr page), if_pos (by omega)]

/-- The loop makes as many fibers as there is room for, and their stacks follow one another. -/
theorem construct_spec (succeeds : p.Succeeds) (todo : Nat) (arena : FiberStackArena) (index : Nat)
    (page : arena.pageSize < stackSize arena.pageSize (p.regionFor c))
    (small : arena.totalSize < 2 ^ 64) (within : arena.offset ≤ arena.totalSize) :
    (construct p c todo arena index).1.length =
        min todo ((arena.totalSize - arena.offset) / stackSize arena.pageSize (p.regionFor c)) ∧
      (construct p c todo arena index).2.base = arena.base ∧
      (construct p c todo arena index).2.totalSize = arena.totalSize ∧
      (∀ f ∈ (construct p c todo arena index).1, f.stackSize = p.regionFor c) ∧
      ∃ top ≤ arena.base + arena.totalSize, Ranges.Follows (arena.base + arena.offset)
        ((construct p c todo arena index).1.map fun f =>
          (f.stackBase, f.stackBase + stackSize arena.pageSize (p.regionFor c))) top := by
  induction todo generalizing arena index with
  | zero =>
    exact ⟨(Nat.zero_min _).symm, rfl, rfl, fun f mem => (by cases mem),
      _, Nat.add_le_add_left within _, .nil _⟩
  | succ todo ih =>
    unfold construct
    by_cases room : arena.offset + stackSize arena.pageSize (p.regionFor c) ≤ arena.totalSize
    · rw [allocateStack_some succeeds page small room]
      simp only
      obtain ⟨length, base, total, regions, top, below, follows⟩ :=
        ih { arena with offset := arena.offset + stackSize arena.pageSize (p.regionFor c) }
          (index + 1) page small room
      refine ⟨?_, base, total, ?_, top, below, ?_⟩
      · rw [List.length_cons, length]
        generalize stackSize arena.pageSize (p.regionFor c) = size at page room ⊢
        simp only
        have positive : 0 < size := Nat.zero_lt_of_lt page
        have more : (arena.totalSize - arena.offset) / size =
            (arena.totalSize - (arena.offset + size)) / size + 1 := by
          rw [← Nat.add_div_right _ positive]
          exact congrArg (· / size) (by omega)
        rw [more, Nat.add_min_add_right]
      · intro f mem
        rcases List.mem_cons.mp mem with rfl | mem
        · rfl
        · exact regions f mem
      · rw [List.map_cons]
        refine .cons (Nat.lt_add_of_pos_right (Nat.zero_lt_of_lt page)) ?_
        rw [Nat.add_assoc]
        exact follows
    · rw [allocateStack_none page (Nat.not_le.mp room)]
      have none : (arena.totalSize - arena.offset) /
          stackSize arena.pageSize (p.regionFor c) = 0 := Nat.div_eq_of_lt (by omega)
      refine ⟨?_, rfl, rfl, fun f mem => (by cases mem),
        _, Nat.add_le_add_left within _, .nil _⟩
      rw [none]
      rfl

/-- How many fibers `AddBlock` makes. -/
def Platform.made (p : Platform) (c : StackClass) (count : Nat) : Nat :=
  min count (count * p.regionFor c % 2 ^ 64 / stackSize p.pageSize (p.regionFor c))

/-- `AddBlock` makes a block of fibers whose stacks are apart, or nothing if none can be made. -/
theorem addBlock_spec (succeeds : p.Succeeds)
    (page : p.pageSize < stackSize p.pageSize (p.regionFor c))
    (holds : p.regionFor c ≤ stackSize p.pageSize (p.regionFor c)) (pool : Pool) (count : Nat) :
    (p.made c count = 0 ∧ pool.addBlock p c count = (false, pool)) ∨
      ∃ b, p.made c count ≠ 0 ∧ pool.addBlock p c count = (true, pool.publish p c b) ∧
        b.fibers.length = p.made c count ∧ b.Apart := by
  obtain ⟨base, reserved⟩ :=
    Option.isSome_iff_exists.mp (succeeds.reserve (count * p.regionFor c % 2 ^ 64))
  unfold Pool.addBlock FiberStackArena.make
  rw [reserved]
  simp only [Option.map_some]
  rw [if_pos ⟨succeeds.storage _, succeeds.blocks _⟩]
  obtain ⟨length, start, total, regions, top, below, follows⟩ :=
    construct_spec succeeds count ⟨p.pageSize, base, count * p.regionFor c % 2 ^ 64, 0⟩
      pool.nextIndex page (Nat.mod_lt _ (by decide)) (Nat.zero_le _)
  simp only [Nat.sub_zero, Nat.add_zero] at length start total below follows
  split
  · rename_i empty
    rw [empty] at length
    exact .inl ⟨length.symm, rfl⟩
  · rename_i some
    refine .inr ⟨_, ?_, rfl, length, ?_⟩
    · rw [Ne, ← show _ = p.made c count from length, List.length_eq_zero_iff]
      exact some
    · have tiles := follows.tiles
      refine ⟨fun f mem => ?_, ?_⟩
      · have range := tiles.proper _ (List.mem_map_of_mem mem)
        have region := regions f mem
        simp only at range
        rw [start, total, region]
        omega
      · refine List.Pairwise.imp_of_mem ?_ (List.pairwise_map.mp tiles.disjoint)
        intro f g first second apart
        rw [regions f first, regions g second]
        simp only at apart
        omega

/-! ## When all of them are made -/

/-- `AddBlock` adds a block with as many fibers as it was asked for. -/
def Pool.Adds (pool : Pool) (p : Platform) (c : StackClass) (count : Nat) : Prop :=
  ∃ b, pool.addBlock p c count = (true, pool.publish p c b) ∧ b.fibers.length = count ∧ b.Apart

/-- The pool is created with the fibers that were asked for. -/
def Provides (p : Platform) (standardCount deepCount : Nat) : Prop :=
  ∃ pool, create p standardCount deepCount = some pool ∧
    pool.classCount .standard = standardCount ∧ pool.classCount .deep = deepCount

/-- The regions are whole pages, and the size of the arena does not wrap. -/
def Platform.Fits (p : Platform) (c : StackClass) (count : Nat) : Prop :=
  p.pageSize = 4096 ∧ count * p.regionFor c < 2 ^ 64

/-- A power of two from 4 KiB to 64 KiB. -/
def Platform.HasPages (p : Platform) : Prop := ∃ k, 12 ≤ k ∧ k ≤ 16 ∧ p.pageSize = 2 ^ k

theorem usable_whole_iff (low : 12 ≤ k) (high : k ≤ 16) :
    UsableFor c % 2 ^ k = 0 ↔ 2 ^ k = 4096 := by
  cases c with
  | standard => interval_cases k <;> decide
  | deep => interval_cases k <;> decide

theorem regionFor_lt (pages : p.HasPages) : p.regionFor c < 2 ^ 63 := by
  obtain ⟨k, -, high, size⟩ := pages
  have page : 2 ^ k ≤ 2 ^ 16 := Nat.pow_le_pow_right (by decide) high
  have usable : UsableFor c ≤ 508 * 1024 := by
    cases c with
    | standard => decide
    | deep => decide
  unfold Platform.regionFor
  omega

theorem regionFor_le (pages : p.HasPages) :
    p.regionFor c ≤ stackSize p.pageSize (p.regionFor c) := by
  have small := regionFor_lt (c := c) pages
  obtain ⟨k, -, high, size⟩ := pages
  rw [size]
  exact le_stackSize (by omega) small

theorem regionFor_eq_iff (pages : p.HasPages) :
    stackSize p.pageSize (p.regionFor c) = p.regionFor c ↔ p.pageSize = 4096 := by
  have small := regionFor_lt (c := c) pages
  obtain ⟨k, low, high, size⟩ := pages
  have rest : p.regionFor c % 2 ^ k = UsableFor c % 2 ^ k := by
    unfold Platform.regionFor
    rw [size, Nat.add_mod_right]
  rw [size, stackSize_eq_iff (by omega) small, rest, usable_whole_iff low high]

theorem page_lt_stackSize (pages : p.HasPages) :
    p.pageSize < stackSize p.pageSize (p.regionFor c) := by
  refine Nat.lt_of_lt_of_le ?_ (regionFor_le pages)
  cases c with
  | standard => exact Nat.lt_add_of_pos_left (by decide)
  | deep => exact Nat.lt_add_of_pos_left (by decide)

theorem made_eq_iff (pages : p.HasPages) (some : 1 ≤ count) :
    p.made c count = count ↔ p.Fits c count := by
  have holds := regionFor_le (c := c) pages
  have positive : 0 < stackSize p.pageSize (p.regionFor c) :=
    Nat.zero_lt_of_lt (page_lt_stackSize pages)
  have whole := regionFor_eq_iff (c := c) pages
  unfold Platform.made Platform.Fits
  rw [min_eq_left_iff, Nat.le_div_iff_mul_le positive, ← whole]
  constructor
  · intro room
    have bound := Nat.mod_le (count * p.regionFor c) (2 ^ 64)
    have most : stackSize p.pageSize (p.regionFor c) ≤ p.regionFor c :=
      Nat.le_of_mul_le_mul_left (room.trans bound) some
    have same := Nat.le_antisymm most holds
    refine ⟨same, ?_⟩
    rw [same] at room
    exact room.trans_lt (Nat.mod_lt _ (by decide))
  · rintro ⟨same, small⟩
    rw [same, Nat.mod_eq_of_lt small]

theorem made_lt : p.made c count < 2 ^ 64 := by
  refine Nat.lt_of_le_of_lt (min_le_right _ _) ?_
  exact (Nat.div_le_self _ _).trans_lt (Nat.mod_lt _ (by decide))

theorem adds_iff (succeeds : p.Succeeds) (pages : p.HasPages) (pool : Pool) (some : 1 ≤ count) :
    pool.Adds p c count ↔ p.Fits c count := by
  rw [← made_eq_iff pages some]
  rcases addBlock_spec succeeds (page_lt_stackSize pages) (regionFor_le pages) pool count with
    ⟨nothing, fails⟩ | ⟨b, -, added, length, apart⟩
  · refine iff_of_false ?_ fun all => ?_
    · rintro ⟨b, added, -⟩
      rw [fails] at added
      cases added
    · rw [nothing] at all
      omega
  · constructor
    · rintro ⟨b', added', length', -⟩
      -- the pool tells how many fibers its new block has
      have same : (pool.publish p c b).nextIndex = (pool.publish p c b').nextIndex := by
        rw [added] at added'
        exact congrArg (fun result : Bool × Pool => result.2.nextIndex) added'
      have equal : b.fibers.length = b'.fibers.length := Nat.add_left_cancel same
      rw [← length, equal, length']
    · intro all
      exact ⟨b, added, length.trans all, apart⟩

/-- What the constructor does for one class. -/
theorem provide_spec (succeeds : p.Succeeds) (pages : p.HasPages) (pool : Pool)
    (fresh : pool.classCount c = 0) (count : Nat) :
    (count ≠ 0 ∧ p.made c count = 0 ∧ pool.provide p c count = none) ∨
      ∃ pool', pool.provide p c count = some pool' ∧ pool'.classCount c = p.made c count ∧
        ∀ other, other ≠ c → pool'.classCount other = pool.classCount other := by
  unfold Pool.provide
  by_cases asked : count = 0
  · refine .inr ⟨pool, if_neg (not_not.mpr asked), ?_, fun _ _ => rfl⟩
    rw [fresh, asked]
    exact (Nat.zero_min _).symm
  · rw [if_pos asked]
    rcases addBlock_spec succeeds (page_lt_stackSize pages) (regionFor_le pages) pool count with
      ⟨none, fails⟩ | ⟨b, -, added, length, -⟩
    · rw [fails]
      exact .inl ⟨asked, none, rfl⟩
    · rw [added]
      refine .inr ⟨_, rfl, ?_, fun other different => Function.update_of_ne different _ _⟩
      show Function.update pool.classCount c _ c = _
      rw [Function.update_self, fresh, Nat.zero_add, length, Nat.mod_eq_of_lt made_lt]

theorem provides_iff (succeeds : p.Succeeds) (pages : p.HasPages) (standardCount deepCount : Nat) :
    Provides p standardCount deepCount ↔
      (standardCount ≠ 0 → p.Fits .standard standardCount) ∧
        (deepCount ≠ 0 → p.Fits .deep deepCount) := by
  have fits (c : StackClass) (count : Nat) :
      (count ≠ 0 → p.Fits c count) ↔ p.made c count = count := by
    by_cases asked : count = 0
    · rw [asked]
      exact iff_of_true (fun some => absurd rfl some) (Nat.zero_min _)
    · rw [made_eq_iff pages (Nat.one_le_iff_ne_zero.mpr asked)]
      exact ⟨fun fits => fits asked, fun fits _ => fits⟩
  rw [fits, fits]
  unfold Provides create
  rcases provide_spec (c := .standard) succeeds pages Pool.empty rfl standardCount with
    ⟨asked, none, fails⟩ | ⟨pool, provided, count, others⟩
  · rw [fails]
    refine iff_of_false ?_ fun both => asked (both.1.symm.trans none)
    rintro ⟨pool, absurd, -⟩
    cases absurd
  · rw [provided]
    have still : pool.classCount .deep = 0 := others .deep (by decide)
    rcases provide_spec (c := .deep) succeeds pages pool still deepCount with
      ⟨asked, none, fails⟩ | ⟨pool', provided', count', others'⟩
    · refine iff_of_false ?_ fun both => asked (both.2.symm.trans none)
      rintro ⟨pool', created, -⟩
      rw [Option.bind_some, fails] at created
      cases created
    · have standard : pool'.classCount .standard = p.made .standard standardCount :=
        (others' .standard (by decide)).trans count
      rw [← standard, ← count']
      constructor
      · rintro ⟨other, created, both⟩
        rw [Option.bind_some, provided'] at created
        cases created
        exact both
      · exact fun both => ⟨pool', provided', both⟩

/-- Blocks are complete exactly if the pages have 4 KiB and the arena's size does not wrap, and so
are the pools that `Create` makes. -/
theorem blocks_complete_iff (succeeds : p.Succeeds) (pages : p.HasPages) :
    (∀ (pool : Pool) (c : StackClass) (count : Nat), 1 ≤ count →
      (pool.Adds p c count ↔ p.Fits c count)) ∧
    ∀ standardCount deepCount, Provides p standardCount deepCount ↔
      (standardCount ≠ 0 → p.Fits .standard standardCount) ∧
        (deepCount ≠ 0 → p.Fits .deep deepCount) :=
  ⟨fun pool _ _ some => adds_iff succeeds pages pool some, provides_iff succeeds pages⟩

/-- A platform on which nothing fails. -/
def withPages (pageSize : Nat) : Platform where
  pageSize := pageSize
  reserveNoAccess := fun _ => some (2 ^ 32)
  commitReadWrite := fun _ _ => true
  allocFiberStorage := fun _ => true
  reserveBlocks := fun _ => true

theorem withPages_succeeds (pageSize : Nat) : (withPages pageSize).Succeeds :=
  ⟨fun _ => rfl, fun _ _ => rfl, fun _ => rfl, fun _ => rfl⟩

theorem small_pages_complete : Provides (withPages 4096) 64 8 := by
  refine ((blocks_complete_iff (withPages_succeeds 4096) ⟨12, by decide⟩).2 64 8).mpr ⟨?_, ?_⟩
  · exact fun _ => ⟨rfl, by decide⟩
  · exact fun _ => ⟨rfl, by decide⟩

/-- With pages of 16 KiB there is no room for a single fiber. -/
theorem large_pages_empty :
    ¬ Pool.empty.Adds (withPages (2 ^ 14)) .standard 1 ∧ ¬ Provides (withPages (2 ^ 14)) 1 1 := by
  constructor
  · rintro ⟨b, added, -⟩
    have fails : (Pool.empty.addBlock (withPages (2 ^ 14)) .standard 1).1 = false := by
      decide +kernel
    rw [added] at fails
    cases fails
  · rintro ⟨pool, created, -⟩
    have fails : (create (withPages (2 ^ 14)) 1 1).isNone = true := by decide +kernel
    rw [created] at fails
    cases fails

end JLibSched.Fibers
