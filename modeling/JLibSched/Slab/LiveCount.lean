import JLibSched.Lib.Transition
import Mathlib.Tactic

/-!
# The live counters of a slab pool

Each size class counts its slots that are in use.  A thread is numbered when it counts for the
first time.  The first ones have a counter each and change it with a load and a store; the later
ones share these counters and change them with `fetch_add`.  The numbers go on from one pool to the
next, while the counters start again from zero.

The lists of the slots are left out: an `Alloc` gets a slot or gets none.  So is the peak, which
nothing here reads.
-/

namespace JLibSched.LiveCount

open Transition

def kLiveSlots : Nat := 128

inductive Op where
  | alloc
  | free
deriving DecidableEq, Repr

/-- What `liveAdd` is called with. -/
def Op.d : Op → Int
  | .alloc => 1
  | .free => -1

inductive Pc where
  | idle
  /-- `Alloc` looks for a slot. -/
  | allocating
  /-- `liveAdd` is about to number the thread, to load, or to call `fetch_add`. -/
  | counting (op : Op)
  /-- It is about to store. -/
  | storing (op : Op) (now : Int)
  | exited
deriving DecidableEq, Repr

def Pc.counts : Pc → Bool
  | .counting _ => true
  | _ => false

def Pc.stores : Pc → Bool
  | .storing _ _ => true
  | _ => false

/-- `allocs` is how many calls of `Alloc` got a slot, and `frees` how many of `Free` there were. -/
structure State (n : Nat) where
  /-- `s_live`. -/
  v : Nat → Int
  /-- `s_liveNext`. -/
  liveNext : Nat
  /-- The number behind `liveSlot`. -/
  number : Fin n → Option Nat
  pc : Fin n → Pc
  allocs : Nat
  frees : Nat

/-- A pool is constructed; the first `before` threads counted for earlier pools. -/
def initial (n before : Nat) : State n where
  v := fun _ => 0
  liveNext := before
  number := fun t => if t.val < before then some t.val else none
  pc := fun _ => .idle
  allocs := 0
  frees := 0

inductive Label (n : Nat) where
  | alloc (t : Fin n)
  /-- `Alloc` gets no slot and returns null. -/
  | noSlot (t : Fin n)
  /-- It gets one. -/
  | slot (t : Fin n)
  | free (t : Fin n)
  /-- A step of `liveAdd`. -/
  | count (t : Fin n)
  | exit (t : Fin n)
deriving DecidableEq, Repr

variable {n before : Nat} {s s' : State n} {t u : Fin n}

def State.go (s : State n) (t : Fin n) (pc : Pc) : State n :=
  { s with pc := Function.update s.pc t pc }

/-- The slot has been taken, or `Free` is called. -/
def State.enter (s : State n) (t : Fin n) (op : Op) : State n :=
  { s with
    pc := Function.update s.pc t (.counting op)
    allocs := s.allocs + if op = .alloc then 1 else 0
    frees := s.frees + if op = .free then 1 else 0 }

/-- The call is counted. -/
def State.counted (s : State n) (t : Fin n) (i : Nat) (now : Int) : State n :=
  { s with v := Function.update s.v i now, pc := Function.update s.pc t .idle }

/-- `liveSlot`, the first time. -/
def State.numbered (s : State n) (t : Fin n) : State n :=
  { s with number := Function.update s.number t (some s.liveNext), liveNext := s.liveNext + 1 }

/-- `liveAdd`, where the thread has a number. -/
def State.liveAdd (s : State n) (t : Fin n) (op : Op) (k : Nat) : State n :=
  if k < kLiveSlots then s.go t (.storing op (s.v (k % kLiveSlots) + op.d))
  else s.counted t (k % kLiveSlots) (s.v (k % kLiveSlots) + op.d)

def step (s : State n) : Label n → Option (State n)
  | .alloc t => if s.pc t = .idle then some (s.go t .allocating) else none
  | .noSlot t => if s.pc t = .allocating then some (s.go t .idle) else none
  | .slot t => if s.pc t = .allocating then some (s.enter t .alloc) else none
  | .free t => if s.pc t = .idle then some (s.enter t .free) else none
  | .count t =>
    match s.pc t, s.number t with
    | .counting _, none => some (s.numbered t)
    | .counting op, some k => some (s.liveAdd t op k)
    | .storing _ now, some k => some (s.counted t (k % kLiveSlots) now)
    | _, _ => none
  | .exit t => if s.pc t = .idle then some (s.go t .exited) else none

/-- `LiveCount`. -/
def State.liveCount (s : State n) : Int := ∑ i ∈ Finset.range kLiveSlots, s.v i

/-- No `Alloc` or `Free` is in progress. -/
def State.Quiet (s : State n) : Prop := ∀ t, s.pc t = .idle ∨ s.pc t = .exited

/-- A thread is between its load and its store of a counter. -/
def State.Stores (s : State n) (u : Fin n) (i : Nat) : Prop :=
  (s.pc u).stores = true ∧ s.number u = some i

instance (s : State n) (u : Fin n) (i : Nat) : Decidable (s.Stores u i) :=
  inferInstanceAs (Decidable (_ ∧ _))

/-- The counter that the thread is about to change with `fetch_add`. -/
def State.adds (s : State n) (t : Fin n) : Option Nat :=
  if (s.pc t).counts then
    (s.number t).bind fun k => if k < kLiveSlots then none else some (k % kLiveSlots)
  else none

/-- No `fetch_add` comes between the load and the store of the owner of its counter. -/
def apart (s : State n) : Label n → Prop
  | .count t => ∀ i ∈ s.adds t, ∀ u, ¬ s.Stores u i
  | .alloc _ | .noSlot _ | .slot _ | .free _ | .exit _ => True

instance (s : State n) : (a : Label n) → Decidable (apart s a)
  | .count t => inferInstanceAs (Decidable (∀ i ∈ s.adds t, ∀ u, ¬ s.Stores u i))
  | .alloc _ | .noSlot _ | .slot _ | .free _ | .exit _ => isTrue trivial

/-! ## The steps -/

/-- What a call under way has still to count. -/
def Pc.pending : Pc → Int
  | .counting op | .storing op _ => op.d
  | .idle | .allocating | .exited => 0

theorem go_self {pc : Pc} : (s.go t pc).pc t = pc := Function.update_self ..

theorem go_of_ne {pc : Pc} (other : u ≠ t) : (s.go t pc).pc u = s.pc u :=
  Function.update_of_ne other ..

theorem enter_self {op : Op} : (s.enter t op).pc t = .counting op := Function.update_self ..

theorem enter_of_ne {op : Op} (other : u ≠ t) : (s.enter t op).pc u = s.pc u :=
  Function.update_of_ne other ..

theorem counted_self {i : Nat} {now : Int} : (s.counted t i now).pc t = .idle :=
  Function.update_self ..

theorem counted_of_ne {i : Nat} {now : Int} (other : u ≠ t) :
    (s.counted t i now).pc u = s.pc u := Function.update_of_ne other ..

theorem counted_elsewhere {i k : Nat} {now : Int} (other : k ≠ i) :
    (s.counted t i now).v k = s.v k := Function.update_of_ne other ..

/-- What a step can do. -/
theorem step_cases {a : Label n} (stepped : step s a = some s') :
    (∃ t pc, (s.pc t).pending = 0 ∧ pc.pending = 0 ∧ s' = s.go t pc) ∨
    (∃ t op, (s.pc t).pending = 0 ∧ s' = s.enter t op) ∨
    (∃ t, s.number t = none ∧ s' = s.numbered t) ∨
    (∃ t op k, s.pc t = .counting op ∧ s.number t = some k ∧ a = .count t ∧
      s' = s.liveAdd t op k) ∨
    ∃ t op now k, s.pc t = .storing op now ∧ s.number t = some k ∧
      s' = s.counted t (k % kLiveSlots) now := by
  cases a with
  | alloc t | noSlot t | exit t =>
    simp only [step] at stepped
    split at stepped
    · rename_i here
      cases stepped
      exact .inl ⟨t, _, by rw [here]; rfl, rfl, rfl⟩
    · cases stepped
  | slot t | free t =>
    simp only [step] at stepped
    split at stepped
    · rename_i here
      cases stepped
      exact .inr (.inl ⟨t, _, by rw [here]; rfl, rfl⟩)
    · cases stepped
  | count t =>
    simp only [step] at stepped
    split at stepped
    · rename_i unnumbered
      cases stepped
      exact .inr (.inr (.inl ⟨t, unnumbered, rfl⟩))
    · rename_i here number
      cases stepped
      exact .inr (.inr (.inr (.inl ⟨t, _, _, here, number, rfl, rfl⟩)))
    · rename_i here number
      cases stepped
      exact .inr (.inr (.inr (.inr ⟨t, _, _, _, here, number, rfl⟩)))
    · cases stepped

/-! ## The invariant -/

/-- The counters add up to what has been counted, and nobody changes a counter that its owner has
loaded. -/
structure Inv (s : State n) : Prop where
  known : ∀ t k, s.number t = some k → k < s.liveNext
  distinct : ∀ t u k, s.number t = some k → s.number u = some k → t = u
  loaded : ∀ t op now, s.pc t = .storing op now →
    ∃ k < kLiveSlots, s.number t = some k ∧ now = s.v k + op.d
  sum : s.liveCount + ∑ t, (s.pc t).pending = (s.allocs : Int) - s.frees

theorem initial_inv : Inv (initial n before) where
  known := by
    intro t k number
    unfold initial at number ⊢
    simp only at number ⊢
    split at number
    · cases number
      assumption
    · cases number
  distinct := by
    intro t u k one two
    unfold initial at one two
    simp only at one two
    split at one
    · cases one
      split at two
      · injection two with same
        exact Fin.ext same.symm
      · cases two
    · cases one
  loaded := fun t op now none => by cases none
  sum := by
    have counters : (initial n before).liveCount = 0 := Finset.sum_const_zero
    have calls : ∑ t, ((initial n before).pc t).pending = 0 := Finset.sum_const_zero
    rw [counters, calls]
    rfl

theorem slot_lt (k : Nat) : k % kLiveSlots < kLiveSlots := Nat.mod_lt k (by decide)

theorem sum_counters {v : Nat → Int} {i : Nat} (inside : i < kLiveSlots) (x : Int) :
    ∑ j ∈ Finset.range kLiveSlots, Function.update v i x j =
      ∑ j ∈ Finset.range kLiveSlots, v j + (x - v i) := by
  have mem : i ∈ Finset.range kLiveSlots := Finset.mem_range.mpr inside
  rw [Finset.sum_update_of_mem mem, ← Finset.add_sum_erase _ v mem, Finset.sdiff_singleton_eq_erase]
  ring

theorem sum_calls (pcs : Fin n → Pc) (t : Fin n) (pc : Pc) :
    ∑ u, (Function.update pcs t pc u).pending =
      ∑ u, (pcs u).pending + (pc.pending - (pcs t).pending) := by
  have others : ∑ u ∈ Finset.univ.erase t, (Function.update pcs t pc u).pending =
      ∑ u ∈ Finset.univ.erase t, (pcs u).pending :=
    Finset.sum_congr rfl fun u mem => by
      rw [Function.update_of_ne (Finset.ne_of_mem_erase mem)]
  rw [← Finset.add_sum_erase _ _ (Finset.mem_univ t), others, Function.update_self,
    ← Finset.add_sum_erase _ (fun u => (pcs u).pending) (Finset.mem_univ t)]
  ring

/-- A step that leaves the counters and the numbers of calls alone. -/
theorem Inv.go (inv : Inv s) (t : Fin n) (pc : Pc) (same : pc.pending = (s.pc t).pending)
    (loaded : ∀ op now, pc = .storing op now →
      ∃ k < kLiveSlots, s.number t = some k ∧ now = s.v k + op.d) : Inv (s.go t pc) where
  known := inv.known
  distinct := inv.distinct
  loaded := by
    intro u op now here
    by_cases mine : u = t
    · subst mine
      rw [go_self] at here
      exact loaded op now here
    · rw [go_of_ne mine] at here
      exact inv.loaded u op now here
  sum := by
    unfold State.go State.liveCount
    simp only
    rw [sum_calls, same, sub_self, add_zero]
    exact inv.sum

theorem Inv.enter (inv : Inv s) (t : Fin n) (op : Op) (idle : (s.pc t).pending = 0) :
    Inv (s.enter t op) where
  known := inv.known
  distinct := inv.distinct
  loaded := by
    intro u op' now here
    by_cases mine : u = t
    · subst mine
      rw [enter_self] at here
      cases here
    · rw [enter_of_ne mine] at here
      exact inv.loaded u op' now here
  sum := by
    have before := inv.sum
    unfold State.enter State.liveCount at *
    simp only at *
    rw [sum_calls, idle, sub_zero, ← add_assoc, before]
    cases op with
    | alloc =>
      simp only [Pc.pending, Op.d, reduceCtorEq, if_true, if_false]
      push_cast
      ring
    | free =>
      simp only [Pc.pending, Op.d, reduceCtorEq, if_true, if_false]
      push_cast
      ring

theorem Inv.numbered (inv : Inv s) (fresh : s.number t = none) : Inv (s.numbered t) where
  known := by
    intro u k number
    unfold State.numbered at number ⊢
    simp only at number ⊢
    by_cases same : u = t
    · rw [same, Function.update_self] at number
      cases number
      exact Nat.lt_succ_self _
    · rw [Function.update_of_ne same] at number
      exact Nat.lt_succ_of_lt (inv.known u k number)
  distinct := by
    intro u w k one two
    unfold State.numbered at one two
    simp only at one two
    by_cases first : u = t
    · by_cases second : w = t
      · rw [first, second]
      · rw [first, Function.update_self] at one
        rw [Function.update_of_ne second] at two
        cases one
        exact absurd (inv.known w _ two) (Nat.lt_irrefl _)
    · rw [Function.update_of_ne first] at one
      by_cases second : w = t
      · rw [second, Function.update_self] at two
        cases two
        exact absurd (inv.known u _ one) (Nat.lt_irrefl _)
      · rw [Function.update_of_ne second] at two
        exact inv.distinct u w k one two
  loaded := by
    intro u op now here
    obtain ⟨k, small, number, value⟩ := inv.loaded u op now here
    have other : u ≠ t := by
      rintro rfl
      rw [fresh] at number
      cases number
    exact ⟨k, small, (Function.update_of_ne other ..).trans number, value⟩
  sum := inv.sum

/-- A counter is changed that no other thread has loaded. -/
theorem Inv.counted (inv : Inv s) (t : Fin n) {op : Op} (mine : (s.pc t).pending = op.d) {i : Nat}
    (inside : i < kLiveSlots) {now : Int} (value : now = s.v i + op.d)
    (alone : ∀ u, s.Stores u i → u = t) : Inv (s.counted t i now) where
  known := inv.known
  distinct := inv.distinct
  loaded := by
    intro u op' now' here
    have other : u ≠ t := by
      rintro rfl
      rw [counted_self] at here
      cases here
    rw [counted_of_ne other] at here
    obtain ⟨k, small, number, loaded⟩ := inv.loaded u op' now' here
    have elsewhere : k ≠ i := by
      rintro rfl
      exact other (alone u ⟨by rw [here]; rfl, number⟩)
    exact ⟨k, small, number, by rw [counted_elsewhere elsewhere]; exact loaded⟩
  sum := by
    have before := inv.sum
    unfold State.counted State.liveCount at *
    simp only at *
    have none : Pc.idle.pending = 0 := rfl
    rw [sum_counters inside, sum_calls, value, mine, none, ← before]
    ring

theorem Inv.step {a : Label n} (inv : Inv s) (allowed : apart s a)
    (stepped : step s a = some s') : Inv s' := by
  rcases step_cases stepped with ⟨t, pc, none, still, rfl⟩ | ⟨t, op, none, rfl⟩ | ⟨t, fresh, rfl⟩ |
    ⟨t, op, k, here, number, rfl, rfl⟩ | ⟨t, op, now, k, here, number, rfl⟩
  · refine inv.go t pc (still.trans none.symm) fun op now stores => ?_
    rw [stores] at still
    cases op with
    | alloc => cases still
    | free => cases still
  · exact inv.enter t op none
  · exact inv.numbered fresh
  · have mine : (s.pc t).pending = op.d := by rw [here]; rfl
    unfold State.liveAdd
    split
    · rename_i small
      have slot : k % kLiveSlots = k := Nat.mod_eq_of_lt small
      refine inv.go t _ mine.symm fun op' now' stores => ?_
      injection stores with same value
      exact ⟨k, small, number, by rw [← value, same, slot]⟩
    · rename_i shared
      refine inv.counted t mine (slot_lt k) rfl fun u stores => ?_
      refine absurd stores (allowed (k % kLiveSlots) ?_ u)
      unfold State.adds
      rw [here, number]
      exact if_neg shared
  · have mine : (s.pc t).pending = op.d := by rw [here]; rfl
    obtain ⟨k', small, number', value⟩ := inv.loaded t op now here
    obtain rfl : k' = k := Option.some.inj (number'.symm.trans number)
    rw [Nat.mod_eq_of_lt small]
    -- the owner of a counter is the only one with its number
    refine inv.counted t mine small value fun u stores => ?_
    exact inv.distinct u t k' stores.2 number

theorem reach_inv : ∀ {s : State n}, Reach step apart (initial n before) s → Inv s :=
  Reach.invariant initial_inv fun inv allowed stepped => inv.step allowed stepped

/-- While nothing is in progress `LiveCount` is what has been allocated and not freed. -/
theorem liveCount_eq (reach : Reach step apart (initial n before) s) (quiet : s.Quiet) :
    s.liveCount = (s.allocs : Int) - s.frees := by
  have calls : ∑ t, (s.pc t).pending = 0 := by
    refine Finset.sum_eq_zero fun t _ => ?_
    rcases quiet t with idle | exited
    · rw [idle]
      rfl
    · rw [exited]
      rfl
  rw [← (reach_inv reach).sum, calls, add_zero]

/-! ## Few threads -/

theorem step_liveNext {a : Label n} (stepped : step s a = some s') :
    s.liveNext ≤ s'.liveNext := by
  rcases step_cases stepped with ⟨t, pc, -, -, rfl⟩ | ⟨t, op, -, rfl⟩ | ⟨t, -, rfl⟩ |
    ⟨t, op, k, -, -, -, rfl⟩ | ⟨t, op, now, k, -, -, rfl⟩
  · exact Nat.le_refl _
  · exact Nat.le_refl _
  · exact Nat.le_succ _
  · unfold State.liveAdd
    split
    · exact Nat.le_refl _
    · exact Nat.le_refl _
  · exact Nat.le_refl _

/-- As long as each thread has a counter of its own, nobody calls `fetch_add`. -/
theorem reach_few (reach : Reach step anyStep (initial n before) s)
    (few : s.liveNext ≤ kLiveSlots) : Reach step apart (initial n before) s := by
  induction reach with
  | start => exact .start
  | @next s s' a _ _ stepped ih =>
    have before := ih ((step_liveNext stepped).trans few)
    refine before.next ?_ stepped
    cases a with
    | alloc | noSlot | slot | free | exit => exact trivial
    | count t =>
      intro i adds
      unfold State.adds at adds
      split at adds
      · obtain ⟨k, number, shared⟩ := Option.bind_eq_some_iff.mp adds
        have small := (reach_inv before).known t k number
        have most := step_liveNext stepped
        rw [if_pos (by omega)] at shared
        cases shared
      · cases adds

/-- The steps of an `Alloc` of a thread that has a number, and the first ones of one that has not. -/
def allocs (t : Fin n) : List (Label n) := [.alloc t, .slot t, .count t, .count t]

/-- The last thread is the first one without a counter of its own.  It comes to its `fetch_add` while
the first thread has loaded that counter, adds once the first thread has stored, and frees. -/
def addsLater : List (Label 129) :=
  [.alloc 0, .slot 0, .count 0, .alloc (Fin.last 128), .slot (Fin.last 128), .count (Fin.last 128),
    .count 0, .count (Fin.last 128), .free (Fin.last 128), .count (Fin.last 128)]

/-- The other threads counted for earlier pools. -/
def addsLaterEnd : State 129 := (run step apart (initial 129 128) addsLater).getD (initial 129 128)

theorem addsLater_liveCount : addsLaterEnd.number (Fin.last 128) = some 128 ∧
    addsLaterEnd.allocs = 2 ∧ addsLaterEnd.liveCount = 1 := by
  have reach : Reach step apart (initial 129 128) addsLaterEnd :=
    Reach.of_isSome addsLater (by decide +kernel)
  have quiet : addsLaterEnd.Quiet := by
    unfold State.Quiet
    decide +kernel
  refine ⟨by decide +kernel, by decide +kernel, ?_⟩
  rw [liveCount_eq reach quiet]
  decide +kernel

/-- The last thread adds to the counter of the first one, which has loaded it. -/
def lostAdd : List (Label 129) :=
  [.alloc 0, .slot 0, .count 0] ++ allocs (Fin.last 128) ++ [.count 0]

def lostAddEnd : State 129 := (run step anyStep (initial 129 128) lostAdd).getD (initial 129 128)

theorem lostAdd_uncounted : Reach step anyStep (initial 129 128) lostAddEnd ∧ lostAddEnd.Quiet ∧
    lostAddEnd.liveCount = 1 ∧ (lostAddEnd.allocs : Int) - lostAddEnd.frees = 2 :=
  ⟨Reach.of_isSome lostAdd (by decide +kernel), (by unfold State.Quiet; decide +kernel),
    by decide +kernel, by decide +kernel⟩

end JLibSched.LiveCount
