import JLibSched.Lib.Links
import JLibSched.Lib.Transition
import Mathlib.Tactic

/-!
# The edge arena

`AddDependency` takes its edges from blocks.  Every worker has a slot with its current block, and
the threads outside the pool share the last slot.  An edge is taken by counting up `used`.  A call
that finds no block, or a full one, takes a fresh block, reserves its first edge, puts it on the
chain behind `retireHead`, and then tries to make it the slot's current one.  `~TaskDAG` walks the
chain and retires the blocks.

Every atomic access is one step, and any number `n` of threads call.  Which slot a call uses is
told to it, since nothing depends on threads keeping apart.  An edge is its block and its index.
`used` is a number without bound: it stays below `kEdgesPerBlock + n` (`used_le`), so no word wraps.
-/

namespace JLibSched.DAG.Arena

open Transition Links

abbrev Block := Nat

/-- `EdgeSlotForThisThread`, given the `qIndex` of `Thread::GetCurrent()`. -/
def edgeSlotForThisThread (workers : Nat) : Option Int → Fin (workers + 1)
  | none => Fin.last workers
  | some qIndex =>
    if qIndex < 0 then Fin.last workers
    else if inside : qIndex.toNat < workers then ⟨qIndex.toNat, Nat.lt_succ_of_lt inside⟩
    else Fin.last workers

/-- Where a call of `AllocEdge` stands, with its `slot`, its `block`, its `fresh` and its `head`. -/
inductive Pc (workers : Nat) where
  | idle
  | loadCur (slot : Fin (workers + 1))
  | bump (slot : Fin (workers + 1)) (block : Block)
  | take (slot : Fin (workers + 1)) (block : Option Block)
  | reserve (slot : Fin (workers + 1)) (block : Option Block) (fresh : Block)
  | loadHead (slot : Fin (workers + 1)) (block : Option Block) (fresh : Block)
  | setPrev (slot : Fin (workers + 1)) (block : Option Block) (fresh : Block) (head : Option Block)
  | swap (slot : Fin (workers + 1)) (block : Option Block) (fresh : Block) (head : Option Block)
  | publish (slot : Fin (workers + 1)) (block : Option Block) (fresh : Block)
  /-- There was no memory, and `AddDependency` gave up. -/
  | aborted
deriving DecidableEq, Repr

structure State (n workers : Nat) where
  /-- `EdgeBlock::prev`. -/
  prev : Block → Option Block
  /-- `EdgeBlock::used`. -/
  used : Block → Nat
  /-- `edgeSlots[..].cur`. -/
  cur : Fin (workers + 1) → Option Block
  retireHead : Option Block
  pc : Fin n → Pc workers
  /-- The `block` of `~TaskDAG`, once it runs. -/
  walk : Option (Option Block)
  /-- Record: the blocks ever taken. -/
  taken : List Block
  /-- Record: the edges returned. -/
  returned : List (Block × Nat)
  /-- Record: the blocks retired. -/
  retired : List Block

inductive Label (n : Nat) where
  /-- `AllocEdge` is called by the thread with this `qIndex`, if it has one. -/
  | call (t : Fin n) (qIndex : Option Int)
  /-- An atomic access; a weak compare-exchange may fail. -/
  | step (t : Fin n) (fails : Bool)
  /-- `JLib::Alloc` returns. -/
  | alloc (t : Fin n) (mem : Option Block)
  /-- `~TaskDAG` starts. -/
  | destroy
  | retire
deriving DecidableEq, Repr

variable {n workers kEdgesPerBlock : Nat}

def initial (n workers : Nat) : State n workers where
  prev _ := none
  used _ := 0
  cur _ := none
  retireHead := none
  pc _ := .idle
  walk := none
  taken := []
  returned := []
  retired := []

def State.go (s : State n workers) (t : Fin n) (pc : Pc workers) : State n workers :=
  { s with pc := Function.update s.pc t pc }

def State.setUsed (s : State n workers) (block : Block) (used : Nat) : State n workers :=
  { s with used := Function.update s.used block used }

def State.setPrev (s : State n workers) (block : Block) (prev : Option Block) : State n workers :=
  { s with prev := Function.update s.prev block prev }

def State.setCur (s : State n workers) (slot : Fin (workers + 1)) (block : Block) :
    State n workers :=
  { s with cur := Function.update s.cur slot (some block) }

/-- The call ends with this edge. -/
def State.returns (s : State n workers) (t : Fin n) (edge : Block × Nat) : State n workers :=
  { s.go t .idle with returned := s.returned ++ [edge] }

/-- A block is taken and constructed. -/
def State.construct (s : State n workers) (block : Block) : State n workers :=
  { (s.setUsed block 0).setPrev block none with taken := s.taken ++ [block] }

/-- A step of `AllocEdge`. -/
def allocStep (kEdgesPerBlock : Nat) (s : State n workers) (t : Fin n) (fails : Bool) :
    Option (State n workers) :=
  match s.pc t with
  | .idle | .take _ _ | .aborted => none
  | .loadCur slot =>
    match s.cur slot with
    | some block => some (s.go t (.bump slot block))
    | none => some (s.go t (.take slot none))
  | .bump slot block =>
    if s.used block < kEdgesPerBlock then
      some ((s.setUsed block (s.used block + 1)).returns t (block, s.used block))
    else some ((s.setUsed block (s.used block + 1)).go t (.take slot (some block)))
  | .reserve slot block fresh => some ((s.setUsed fresh 1).go t (.loadHead slot block fresh))
  | .loadHead slot block fresh => some (s.go t (.setPrev slot block fresh s.retireHead))
  | .setPrev slot block fresh head =>
    some ((s.setPrev fresh head).go t (.swap slot block fresh head))
  | .swap slot block fresh head =>
    if s.retireHead = head ∧ fails = false then
      some ({ s with retireHead := some fresh }.go t (.publish slot block fresh))
    else some (s.go t (.setPrev slot block fresh s.retireHead))
  | .publish slot block fresh =>
    if s.cur slot = block then some ((s.setCur slot fresh).returns t (fresh, 0))
    else some (s.go t (.loadCur slot))

/-- The block returned by the allocator is none of those in use. -/
def takeStep (s : State n workers) (t : Fin n) (mem : Option Block) : Option (State n workers) :=
  match s.pc t, mem with
  | .take _ _, none => some (s.go t .aborted)
  | .take slot block, some fresh =>
    if fresh ∈ s.taken then none else some ((s.construct fresh).go t (.reserve slot block fresh))
  | _, _ => none

/-- A graph is destroyed when no call is in progress, and no call is made afterwards. -/
def step (kEdgesPerBlock : Nat) (s : State n workers) : Label n → Option (State n workers)
  | .call t qIndex =>
    if s.pc t = .idle ∧ s.walk = none then
      some (s.go t (.loadCur (edgeSlotForThisThread workers qIndex)))
    else none
  | .step t fails => allocStep kEdgesPerBlock s t fails
  | .alloc t mem => takeStep s t mem
  | .destroy =>
    if (∀ t, s.pc t = .idle) ∧ s.walk = none then some { s with walk := some s.retireHead }
    else none
  | .retire =>
    match s.walk with
    | some (some block) =>
      some { s with walk := some (s.prev block), retired := s.retired ++ [block] }
    | some none | none => none

variable {s s' : State n workers} {t : Fin n} {chain : List Block} {b : Block}

@[simp] theorem State.go_self (s : State n workers) (t : Fin n) (pc : Pc workers) :
    (s.go t pc).pc t = pc := Function.update_self _ _ _

theorem State.go_of_ne (s : State n workers) {t u : Fin n} (pc : Pc workers) (other : u ≠ t) :
    (s.go t pc).pc u = s.pc u := Function.update_of_ne other _ _

/-! ## What a call holds -/

/-- The block it has taken and not put on the chain. -/
def Pc.chaining : Pc workers → Option Block
  | .reserve _ _ fresh | .loadHead _ _ fresh | .setPrev _ _ fresh _ | .swap _ _ fresh _ =>
    some fresh
  | .idle | .loadCur _ | .bump _ _ | .take _ _ | .publish _ _ _ | .aborted => none

/-- The block it has taken and not installed. -/
def Pc.fresh : Pc workers → Option Block
  | .reserve _ _ fresh | .loadHead _ _ fresh | .setPrev _ _ fresh _ | .swap _ _ fresh _
  | .publish _ _ fresh => some fresh
  | .idle | .loadCur _ | .bump _ _ | .take _ _ | .aborted => none

/-- The block of which it has reserved the first edge. -/
def Pc.reserved : Pc workers → Option Block
  | .loadHead _ _ fresh | .setPrev _ _ fresh _ | .swap _ _ fresh _ | .publish _ _ fresh =>
    some fresh
  | .idle | .loadCur _ | .bump _ _ | .take _ _ | .reserve _ _ _ | .aborted => none

/-- The block it has found in its slot. -/
def Pc.loaded : Pc workers → Option (Fin (workers + 1) × Block)
  | .bump slot block => some (slot, block)
  | .take slot block | .reserve slot block _ | .loadHead slot block _ | .setPrev slot block _ _
  | .swap slot block _ _ | .publish slot block _ => block.map fun block => (slot, block)
  | .idle | .loadCur _ | .aborted => none

/-- The block it will put on the chain, and the one it has linked behind it. -/
def Pc.linked : Pc workers → Option (Block × Option Block)
  | .swap _ _ fresh head => some (fresh, head)
  | .idle | .loadCur _ | .bump _ _ | .take _ _ | .reserve _ _ _ | .loadHead _ _ _
  | .setPrev _ _ _ _ | .publish _ _ _ | .aborted => none

theorem Pc.fresh_of_chaining {pc : Pc workers} (chaining : pc.chaining = some b) :
    pc.fresh = some b := by
  cases pc with
  | reserve | loadHead | setPrev | swap => exact chaining
  | idle | loadCur | bump | take | publish | aborted => cases chaining

theorem Pc.fresh_of_reserved {pc : Pc workers} (reserved : pc.reserved = some b) :
    pc.fresh = some b := by
  cases pc with
  | loadHead | setPrev | swap | publish => exact reserved
  | idle | loadCur | bump | take | reserve | aborted => cases reserved

theorem Pc.chaining_of_linked {pc : Pc workers} {head : Option Block}
    (linked : pc.linked = some (b, head)) : pc.chaining = some b := by
  cases pc with
  | swap => cases linked; rfl
  | idle | loadCur | bump | take | reserve | loadHead | setPrev | publish | aborted => cases linked

/-! ## The invariant -/

/-- Following `prev` from `retireHead` one meets the blocks of `chain`, each of them once, and these
are the blocks ever taken but for those that a call is about to put there. -/
structure State.Chained (s : State n workers) (chain : List Block) : Prop where
  leads : Leads s.prev s.retireHead chain none
  nodup : chain.Nodup
  mem : ∀ b, b ∈ chain ↔ b ∈ s.taken ∧ ∀ t, (s.pc t).chaining ≠ some b

/-- The block was installed, so that its edges may be returned. -/
structure State.Open (s : State n workers) (chain : List Block) (b : Block) : Prop where
  mem : b ∈ chain
  used : 0 < s.used b
  installed : ∀ t, (s.pc t).fresh ≠ some b

structure Kept (kEdgesPerBlock : Nat) (s : State n workers) (chain : List Block) : Prop where
  chained : s.Chained chain
  taken : s.taken.Nodup
  fresh : ∀ t b, (s.pc t).fresh = some b → b ∈ s.taken
  alone : ∀ t u b, (s.pc t).fresh = some b → (s.pc u).fresh = some b → t = u
  reserved : ∀ t b, (s.pc t).reserved = some b → s.used b = 1
  linked : ∀ t b head, (s.pc t).linked = some (b, head) → s.prev b = head
  loaded : ∀ t slot b, (s.pc t).loaded = some (slot, b) → s.Open chain b
  cur : ∀ slot b, s.cur slot = some b → s.Open chain b
  once : s.returned.Nodup
  returned : ∀ b i, (b, i) ∈ s.returned → s.Open chain b ∧ i < kEdgesPerBlock ∧ i < s.used b

/-- A block in use was taken. -/
theorem Kept.taken_of_open (kept : Kept kEdgesPerBlock s chain) (isOpen : s.Open chain b) :
    b ∈ s.taken :=
  ((kept.chained.mem b).mp isOpen.mem).1

theorem initial_kept : Kept kEdgesPerBlock (initial n workers) [] where
  chained := ⟨rfl, List.nodup_nil, fun b => by simp [initial]⟩
  taken := List.nodup_nil
  fresh t b absurd := by cases absurd
  alone t u b absurd := by cases absurd
  reserved t b absurd := by cases absurd
  linked t b head absurd := by cases absurd
  loaded t slot b absurd := by cases absurd
  cur slot b absurd := by cases absurd
  once := List.nodup_nil
  returned b i absurd := by cases absurd

/-! ## The accesses -/

/-- A thread moves on.  It may let go of its fresh block once that is on the chain. -/
theorem Kept.moves (kept : Kept kEdgesPerBlock s chain) (pc : Pc workers)
    (chaining : pc.chaining = (s.pc t).chaining)
    (fresh : ∀ b, pc.fresh = some b → (s.pc t).fresh = some b)
    (reserved : ∀ b, pc.reserved = some b → s.used b = 1)
    (linked : ∀ b head, pc.linked = some (b, head) → s.prev b = head)
    (loaded : ∀ slot b, pc.loaded = some (slot, b) → s.Open chain b) :
    Kept kEdgesPerBlock (s.go t pc) chain := by
  have chains : ∀ u, ((s.go t pc).pc u).chaining = (s.pc u).chaining := by
    intro u
    rcases eq_or_ne u t with rfl | other
    · rw [s.go_self, chaining]
    · rw [s.go_of_ne pc other]
  have held : ∀ u b, ((s.go t pc).pc u).fresh = some b → (s.pc u).fresh = some b := by
    intro u b holds
    rcases eq_or_ne u t with rfl | other
    · rw [s.go_self] at holds
      exact fresh b holds
    · rw [s.go_of_ne pc other] at holds
      exact holds
  have opens : ∀ b, s.Open chain b → (s.go t pc).Open chain b := by
    intro b isOpen
    exact ⟨isOpen.mem, isOpen.used, fun u holds => isOpen.installed u (held u b holds)⟩
  constructor
  case chained =>
    refine ⟨kept.chained.leads, kept.chained.nodup, fun b => ?_⟩
    simp only [chains]
    exact kept.chained.mem b
  case taken => exact kept.taken
  case fresh => exact fun u b holds => kept.fresh u b (held u b holds)
  case alone =>
    exact fun u v b first second => kept.alone u v b (held u b first) (held v b second)
  case reserved =>
    intro u b holds
    rcases eq_or_ne u t with rfl | other
    · rw [s.go_self] at holds
      exact reserved b holds
    · rw [s.go_of_ne pc other] at holds
      exact kept.reserved u b holds
  case linked =>
    intro u b head holds
    rcases eq_or_ne u t with rfl | other
    · rw [s.go_self] at holds
      exact linked b head holds
    · rw [s.go_of_ne pc other] at holds
      exact kept.linked u b head holds
  case loaded =>
    intro u slot b holds
    rcases eq_or_ne u t with rfl | other
    · rw [s.go_self] at holds
      exact opens b (loaded slot b holds)
    · rw [s.go_of_ne pc other] at holds
      exact opens b (kept.loaded u slot b holds)
  case cur => exact fun slot b current => opens b (kept.cur slot b current)
  case once => exact kept.once
  case returned =>
    intro b i mem
    obtain ⟨isOpen, inside, counted⟩ := kept.returned b i mem
    exact ⟨opens b isOpen, inside, counted⟩

/-- A thread goes to a place where it holds nothing. -/
theorem Kept.drops (kept : Kept kEdgesPerBlock s chain) (pc : Pc workers)
    (free : (s.pc t).chaining = none) (fresh : pc.fresh = none)
    (loaded : ∀ slot b, pc.loaded = some (slot, b) → s.Open chain b) :
    Kept kEdgesPerBlock (s.go t pc) chain := by
  have empty : ∀ b, pc.fresh ≠ some b := by simp [fresh]
  have chaining : pc.chaining = none :=
    Option.eq_none_iff_forall_ne_some.mpr fun b absurd => empty b (Pc.fresh_of_chaining absurd)
  refine kept.moves pc (chaining.trans free.symm) ?_ ?_ ?_ loaded
  · exact fun b absurd => (empty b absurd).elim
  · exact fun b absurd => (empty b (Pc.fresh_of_reserved absurd)).elim
  · exact fun b head absurd =>
      (empty b (Pc.fresh_of_chaining (Pc.chaining_of_linked absurd))).elim

/-- A call that lets go of its fresh block leaves it open when it is on the chain. -/
theorem Kept.open_of_drops (kept : Kept kEdgesPerBlock s chain) (held : (s.pc t).fresh = some b)
    (reserved : (s.pc t).reserved = some b) (free : (s.pc t).chaining = none) :
    (s.go t .idle).Open chain b := by
  refine ⟨(kept.chained.mem b).mpr ⟨kept.fresh t b held, fun u absurd => ?_⟩, ?_, fun u absurd => ?_⟩
  · have same := kept.alone u t b (Pc.fresh_of_chaining absurd) held
    rw [same, free] at absurd
    cases absurd
  · exact (kept.reserved t b reserved).ge
  · rcases eq_or_ne u t with rfl | other
    · rw [s.go_self] at absurd
      cases absurd
    · rw [s.go_of_ne _ other] at absurd
      exact other (kept.alone u t b absurd held)

/-- Counts and links of blocks are written, and a block in use stays so. -/
theorem Kept.writes (kept : Kept kEdgesPerBlock s chain) {used : Block → Nat}
    {prev : Block → Option Block} (chained : State.Chained { s with used, prev } chain)
    (reserved : ∀ u c, (s.pc u).reserved = some c → used c = 1)
    (linked : ∀ u c head, (s.pc u).linked = some (c, head) → prev c = head)
    (grows : ∀ c, s.Open chain c → s.used c ≤ used c) :
    Kept kEdgesPerBlock { s with used, prev } chain := by
  have opens : ∀ c, s.Open chain c → State.Open { s with used, prev } chain c :=
    fun c was => ⟨was.mem, was.used.trans_le (grows c was), was.installed⟩
  constructor
  case chained => exact chained
  case taken => exact kept.taken
  case fresh => exact kept.fresh
  case alone => exact kept.alone
  case reserved => exact reserved
  case linked => exact linked
  case loaded => exact fun u slot c holds => opens c (kept.loaded u slot c holds)
  case cur => exact fun slot c current => opens c (kept.cur slot c current)
  case once => exact kept.once
  case returned =>
    intro c i mem
    obtain ⟨was, inside, counted⟩ := kept.returned c i mem
    exact ⟨opens c was, inside, counted.trans_le (grows c was)⟩

/-- `used` of a block in use is counted up. -/
theorem Kept.bumps (kept : Kept kEdgesPerBlock s chain) (isOpen : s.Open chain b) :
    Kept kEdgesPerBlock (s.setUsed b (s.used b + 1)) chain := by
  refine kept.writes ⟨kept.chained.leads, kept.chained.nodup, kept.chained.mem⟩
    (fun u c holds => ?_) kept.linked fun c _ => ?_
  · have other : c ≠ b := by
      rintro rfl
      exact isOpen.installed u (Pc.fresh_of_reserved holds)
    exact (Function.update_of_ne other _ s.used).trans (kept.reserved u c holds)
  · rcases eq_or_ne c b with rfl | other
    · exact (Nat.le_succ _).trans (Function.update_self c _ s.used).ge
    · exact (Function.update_of_ne other _ s.used).ge

/-- The first edge of a fresh block is reserved. -/
theorem Kept.reserves (kept : Kept kEdgesPerBlock s chain) (holds : (s.pc t).fresh = some b) :
    Kept kEdgesPerBlock (s.setUsed b 1) chain := by
  refine kept.writes ⟨kept.chained.leads, kept.chained.nodup, kept.chained.mem⟩
    (fun u c first => ?_) kept.linked fun c isOpen => ?_
  · rcases eq_or_ne c b with rfl | other
    · exact Function.update_self c 1 s.used
    · exact (Function.update_of_ne other _ s.used).trans (kept.reserved u c first)
  · refine (Function.update_of_ne ?_ _ s.used).ge
    rintro rfl
    exact isOpen.installed t holds

/-- A block that is not on the chain is linked to what stands at its head. -/
theorem Kept.links (kept : Kept kEdgesPerBlock s chain) (holds : (s.pc t).chaining = some b)
    (free : (s.pc t).linked = none) (head : Option Block) :
    Kept kEdgesPerBlock (s.setPrev b head) chain := by
  have out : b ∉ chain := fun mem => ((kept.chained.mem b).mp mem).2 t holds
  refine kept.writes ⟨kept.chained.leads.write out head, kept.chained.nodup, kept.chained.mem⟩
    kept.reserved (fun u c first linked => ?_) fun c _ => Nat.le_refl _
  have other : c ≠ b := by
    rintro rfl
    have same := kept.alone u t c (Pc.fresh_of_chaining (Pc.chaining_of_linked linked))
      (Pc.fresh_of_chaining holds)
    rw [same] at linked
    cases free.symm.trans linked
  exact (Function.update_of_ne other _ s.prev).trans (kept.linked u c first linked)

/-- A fresh block is put on the chain. -/
theorem Kept.chains (kept : Kept kEdgesPerBlock s chain) {pc : Pc workers}
    (holds : (s.pc t).chaining = some b) (links : s.prev b = s.retireHead)
    (chaining : pc.chaining = none) (fresh : pc.fresh = some b) (reserved : pc.reserved = some b)
    (counted : s.used b = 1) (linked : pc.linked = none) (loaded : pc.loaded = (s.pc t).loaded) :
    Kept kEdgesPerBlock ({ s with retireHead := some b }.go t pc) (b :: chain) := by
  have held := Pc.fresh_of_chaining holds
  have out : b ∉ chain := fun mem => ((kept.chained.mem b).mp mem).2 t holds
  have same : ∀ u, (({ s with retireHead := some b }.go t pc).pc u).fresh = (s.pc u).fresh := by
    intro u
    rcases eq_or_ne u t with rfl | other
    · rw [State.go_self, fresh, held]
    · rw [State.go_of_ne _ pc other]
  have opens : ∀ c, s.Open chain c →
      ({ s with retireHead := some b }.go t pc).Open (b :: chain) c := by
    intro c was
    refine ⟨List.mem_cons_of_mem b was.mem, was.used, fun u holds => ?_⟩
    rw [same] at holds
    exact was.installed u holds
  constructor
  case chained =>
    refine ⟨⟨rfl, links ▸ kept.chained.leads⟩, List.nodup_cons.mpr ⟨out, kept.chained.nodup⟩,
      fun c => ?_⟩
    rw [List.mem_cons, kept.chained.mem c]
    constructor
    · rintro (rfl | ⟨taken, free⟩)
      · refine ⟨kept.fresh t c held, fun u absurd => ?_⟩
        rcases eq_or_ne u t with rfl | other
        · rw [State.go_self, chaining] at absurd
          cases absurd
        · rw [State.go_of_ne _ pc other] at absurd
          exact other (kept.alone u t c (Pc.fresh_of_chaining absurd) held)
      · refine ⟨taken, fun u absurd => ?_⟩
        rcases eq_or_ne u t with rfl | other
        · rw [State.go_self, chaining] at absurd
          cases absurd
        · rw [State.go_of_ne _ pc other] at absurd
          exact free u absurd
    · rintro ⟨taken, free⟩
      rcases eq_or_ne c b with rfl | apart
      · exact .inl rfl
      · refine .inr ⟨taken, fun u absurd => ?_⟩
        rcases eq_or_ne u t with rfl | other
        · exact apart (Option.some.inj (absurd.symm.trans holds))
        · refine free u ?_
          rw [State.go_of_ne _ pc other]
          exact absurd
  case taken => exact kept.taken
  case fresh =>
    intro u c holds
    rw [same] at holds
    exact kept.fresh u c holds
  case alone =>
    intro u v c first second
    rw [same] at first second
    exact kept.alone u v c first second
  case reserved =>
    intro u c holds
    rcases eq_or_ne u t with rfl | other
    · rw [State.go_self, reserved] at holds
      cases holds
      exact counted
    · rw [State.go_of_ne _ pc other] at holds
      exact kept.reserved u c holds
  case linked =>
    intro u c head holds
    rcases eq_or_ne u t with rfl | other
    · rw [State.go_self, linked] at holds
      cases holds
    · rw [State.go_of_ne _ pc other] at holds
      exact kept.linked u c head holds
  case loaded =>
    intro u slot c holds
    rcases eq_or_ne u t with rfl | other
    · rw [State.go_self, loaded] at holds
      exact opens c (kept.loaded u slot c holds)
    · rw [State.go_of_ne _ pc other] at holds
      exact opens c (kept.loaded u slot c holds)
  case cur => exact fun slot c current => opens c (kept.cur slot c current)
  case once => exact kept.once
  case returned =>
    intro c i mem
    obtain ⟨was, inside, counted⟩ := kept.returned c i mem
    exact ⟨opens c was, inside, counted⟩

/-- A block is taken. -/
theorem Kept.takes (kept : Kept kEdgesPerBlock s chain) (new : b ∉ s.taken)
    (free : (s.pc t).chaining = none) {pc : Pc workers} (chaining : pc.chaining = some b)
    (fresh : pc.fresh = some b) (reserved : pc.reserved = none) (linked : pc.linked = none)
    (loaded : pc.loaded = (s.pc t).loaded) :
    Kept kEdgesPerBlock ((s.construct b).go t pc) chain := by
  have out : b ∉ chain := fun mem => new ((kept.chained.mem b).mp mem).1
  have used : ∀ c, c ∈ s.taken → ((s.construct b).go t pc).used c = s.used c := by
    intro c taken
    refine Function.update_of_ne ?_ _ s.used
    rintro rfl
    exact new taken
  have prev : ∀ c, c ∈ s.taken → ((s.construct b).go t pc).prev c = s.prev c := by
    intro c taken
    refine Function.update_of_ne ?_ _ s.prev
    rintro rfl
    exact new taken
  have opens : ∀ c, s.Open chain c → ((s.construct b).go t pc).Open chain c := by
    intro c was
    refine ⟨was.mem, ?_, fun u holds => ?_⟩
    · rw [used c (kept.taken_of_open was)]
      exact was.used
    · rcases eq_or_ne u t with rfl | other
      · rw [State.go_self, fresh] at holds
        cases holds
        exact out was.mem
      · rw [State.go_of_ne _ pc other] at holds
        exact was.installed u holds
  constructor
  case chained =>
    refine ⟨kept.chained.leads.write out none, kept.chained.nodup, fun c => ?_⟩
    rw [kept.chained.mem c]
    constructor
    · rintro ⟨taken, free⟩
      refine ⟨List.mem_append_left _ taken, fun u absurd => ?_⟩
      rcases eq_or_ne u t with rfl | other
      · rw [State.go_self, chaining] at absurd
        cases absurd
        exact new taken
      · rw [State.go_of_ne _ pc other] at absurd
        exact free u absurd
    · rintro ⟨taken, apart⟩
      have other : c ≠ b := by
        rintro rfl
        exact apart t (by rw [State.go_self, chaining])
      refine ⟨(List.mem_append.mp taken).resolve_right fun last =>
        other (List.mem_singleton.mp last), fun u absurd => ?_⟩
      rcases eq_or_ne u t with rfl | further
      · cases free.symm.trans absurd
      · refine apart u ?_
        rw [State.go_of_ne _ pc further]
        exact absurd
  case taken =>
    refine List.nodup_append.mpr ⟨kept.taken, List.nodup_singleton b, ?_⟩
    rintro c mem d last rfl
    rw [List.mem_singleton] at last
    exact new (last ▸ mem)
  case fresh =>
    intro u c holds
    rcases eq_or_ne u t with rfl | other
    · rw [State.go_self, fresh] at holds
      cases holds
      exact List.mem_append_right _ (List.mem_singleton_self b)
    · rw [State.go_of_ne _ pc other] at holds
      exact List.mem_append_left _ (kept.fresh u c holds)
  case alone =>
    intro u v c first second
    rcases eq_or_ne u t with rfl | uOther
    · rcases eq_or_ne v u with rfl | vOther
      · rfl
      · rw [State.go_self, fresh] at first
        cases first
        rw [State.go_of_ne _ pc vOther] at second
        exact (new (kept.fresh v b second)).elim
    · rw [State.go_of_ne _ pc uOther] at first
      rcases eq_or_ne v t with rfl | vOther
      · rw [State.go_self, fresh] at second
        cases second
        exact (new (kept.fresh u b first)).elim
      · rw [State.go_of_ne _ pc vOther] at second
        exact kept.alone u v c first second
  case reserved =>
    intro u c holds
    rcases eq_or_ne u t with rfl | other
    · rw [State.go_self, reserved] at holds
      cases holds
    · rw [State.go_of_ne _ pc other] at holds
      rw [used c (kept.fresh u c (Pc.fresh_of_reserved holds))]
      exact kept.reserved u c holds
  case linked =>
    intro u c head holds
    rcases eq_or_ne u t with rfl | other
    · rw [State.go_self, linked] at holds
      cases holds
    · rw [State.go_of_ne _ pc other] at holds
      rw [prev c (kept.fresh u c (Pc.fresh_of_chaining (Pc.chaining_of_linked holds)))]
      exact kept.linked u c head holds
  case loaded =>
    intro u slot c holds
    rcases eq_or_ne u t with rfl | other
    · rw [State.go_self, loaded] at holds
      exact opens c (kept.loaded u slot c holds)
    · rw [State.go_of_ne _ pc other] at holds
      exact opens c (kept.loaded u slot c holds)
  case cur => exact fun slot c current => opens c (kept.cur slot c current)
  case once => exact kept.once
  case returned =>
    intro c i mem
    obtain ⟨was, inside, counted⟩ := kept.returned c i mem
    refine ⟨opens c was, inside, ?_⟩
    rw [used c (kept.taken_of_open was)]
    exact counted

/-- The slots, the returned edges and the destructor's walk are beside the blocks. -/
theorem Kept.beside (kept : Kept kEdgesPerBlock s chain)
    {cur : Fin (workers + 1) → Option Block} {returned : List (Block × Nat)}
    {walk : Option (Option Block)} {retired : List Block}
    (isCur : ∀ slot c, cur slot = some c → s.Open chain c) (once : returned.Nodup)
    (counted : ∀ c i, (c, i) ∈ returned → s.Open chain c ∧ i < kEdgesPerBlock ∧ i < s.used c) :
    Kept kEdgesPerBlock { s with cur, returned, walk, retired } chain := by
  have opens : ∀ c, s.Open chain c →
      State.Open { s with cur, returned, walk, retired } chain c :=
    fun c was => ⟨was.mem, was.used, was.installed⟩
  constructor
  case chained => exact ⟨kept.chained.leads, kept.chained.nodup, kept.chained.mem⟩
  case taken => exact kept.taken
  case fresh => exact kept.fresh
  case alone => exact kept.alone
  case reserved => exact kept.reserved
  case linked => exact kept.linked
  case loaded => exact fun u slot c holds => opens c (kept.loaded u slot c holds)
  case cur => exact fun slot c current => opens c (isCur slot c current)
  case once => exact once
  case returned => exact fun c i mem => (counted c i mem).imp_left (opens c)

/-- A block in use is made the current one of a slot. -/
theorem Kept.installs (kept : Kept kEdgesPerBlock s chain) (isOpen : s.Open chain b)
    (slot : Fin (workers + 1)) : Kept kEdgesPerBlock (s.setCur slot b) chain := by
  refine kept.beside (fun slot' c current => ?_) kept.once kept.returned
  rcases eq_or_ne slot' slot with rfl | other
  · rw [Function.update_self] at current
    cases current
    exact isOpen
  · rw [Function.update_of_ne other] at current
    exact kept.cur slot' c current

/-- An edge of a block in use that was not returned before is. -/
theorem Kept.returns (kept : Kept kEdgesPerBlock s chain) {i : Nat} (isOpen : s.Open chain b)
    (new : (b, i) ∉ s.returned) (inside : i < kEdgesPerBlock) (counted : i < s.used b) :
    Kept kEdgesPerBlock { s with returned := s.returned ++ [(b, i)] } chain := by
  refine kept.beside kept.cur ?_ fun c j mem => ?_
  · refine List.nodup_append.mpr ⟨kept.once, List.nodup_singleton _, ?_⟩
    rintro edge mem last isLast rfl
    rw [List.mem_singleton] at isLast
    exact new (isLast ▸ mem)
  · rcases List.mem_append.mp mem with before | last
    · exact kept.returned c j before
    · cases List.mem_singleton.mp last
      exact ⟨isOpen, inside, counted⟩

/-- `~TaskDAG` writes nothing a call reads. -/
theorem Kept.walks (kept : Kept kEdgesPerBlock s chain) (walk : Option (Option Block))
    (retired : List Block) :
    Kept kEdgesPerBlock { s with walk := walk, retired := retired } chain :=
  kept.beside kept.cur kept.once kept.returned

end JLibSched.DAG.Arena
