import Mathlib.Tactic

/-!
# Task-local slots

A `TaskLocal` handle is a slot number that is handed out once.  The values stand in the record of
the running task, at that number, and a deleter that was set for the slot is called on the value
when the task dies.  Handles with different slots do not touch each other (`Separate`).

The counter that hands out the slots has sixteen bits and goes on counting when there are no slots
left, so it comes round to the first one (`slots_unshared_iff`).
-/

namespace JLibSched.Locals

/-- `TaskRecord::kLocalSlots`. -/
def kLocalSlots : Nat := 8

def kNoTaskLocalSlot : BitVec 16 := 0xFFFF

/-! ## Allocation -/

/-- `AllocTaskLocalSlot`, from the counter: the slot, and the counter afterwards. -/
def allocTaskLocalSlot (next : BitVec 16) : BitVec 16 × BitVec 16 :=
  (if kLocalSlots ≤ next.toNat then kNoTaskLocalSlot else next, next + 1)

/-- What a number of calls return, one after the other. -/
def allocated : Nat → BitVec 16 → List (BitVec 16)
  | 0, _ => []
  | n + 1, next => (allocTaskLocalSlot next).1 :: allocated n (allocTaskLocalSlot next).2

/-! ## Values and deleters -/

/-- The record of the running task, if there is one, and the deleters.  Pointers and functions are
numbers. -/
structure Memory where
  /-- `CurrentRecord` is not null. -/
  record : Bool
  locals : Option (Nat → Option Nat)
  /-- `g_slotDeleter`. -/
  deleter : Nat → Option Nat
  /-- `g_slotDeleterMask`. -/
  mask : BitVec 32

/-- `TaskLocalGet`. -/
def Memory.get (m : Memory) (slot : BitVec 16) : Option Nat :=
  if kLocalSlots ≤ slot.toNat then none
  else if m.record then m.locals.bind fun block => block slot.toNat else none

/-- `TaskLocalSet`. -/
def Memory.set (m : Memory) (slot : BitVec 16) (p : Option Nat) : Memory :=
  if kLocalSlots ≤ slot.toNat then m
  else if m.record then
    { m with
      locals := some (Function.update (m.locals.getD fun _ => none) slot.toNat p) }
  else m

/-- `SetTaskLocalDeleter`. -/
def Memory.setDeleter (m : Memory) (slot : BitVec 16) (fn : Option Nat) : Memory :=
  if kLocalSlots ≤ slot.toNat then m
  else
    { m with
      deleter := Function.update m.deleter slot.toNat fn
      mask := if fn = none then m.mask &&& ~~~ (1#32 <<< slot.toNat)
        else m.mask ||| 1#32 <<< slot.toNat }

/-- One round of `ReleaseFiberSlots`: the slots, and the calls that were made, each with its slot,
its deleter and its value. -/
def Memory.releaseSlot (m : Memory) (s : (Nat → Option Nat) × List (Nat × Nat × Nat)) (i : Nat) :
    (Nat → Option Nat) × List (Nat × Nat × Nat) :=
  if m.mask &&& 1#32 <<< i = 0#32 then s
  else
    match s.1 i, m.deleter i with
    | some p, some fn => (Function.update s.1 i none, s.2 ++ [(i, fn, p)])
    | _, _ => s

/-- `ReleaseFiberSlots`, on the slots of a record that dies. -/
def Memory.release (m : Memory) (slots : Nat → Option Nat) : List (Nat × Nat × Nat) :=
  if m.mask = 0#32 then []
  else ((List.range kLocalSlots).foldl m.releaseSlot (slots, [])).2

/-- The calls for one slot. -/
def Memory.released (m : Memory) (slots : Nat → Option Nat) (slot : BitVec 16) :
    List (Nat × Nat × Nat) :=
  (m.release slots).filter fun call => call.1 = slot.toNat

/-- What is done through `a` is not seen through `b`: neither the value, nor what becomes of it when
its task dies. -/
structure Separate (a b : BitVec 16) : Prop where
  get : ∀ (m : Memory) (p : Option Nat), (m.set a p).get b = m.get b
  value : ∀ (m : Memory) (slots : Nat → Option Nat) (p : Option Nat),
    m.released (Function.update slots a.toNat p) b = m.released slots b
  deleter : ∀ (m : Memory) (slots : Nat → Option Nat) (fn : Option Nat),
    (m.setDeleter a fn).released slots b = m.released slots b

/-- No two handles share a slot. -/
structure Unshared (slots : List (BitVec 16)) : Prop where
  below : ∀ s ∈ slots, s ≠ kNoTaskLocalSlot → s.toNat < kLocalSlots
  distinct : (slots.filter (· ≠ kNoTaskLocalSlot)).Nodup
  separate : ∀ (i j : Nat) (a b : BitVec 16), i ≠ j → slots[i]? = some a → slots[j]? = some b →
    a ≠ kNoTaskLocalSlot → b ≠ kNoTaskLocalSlot → Separate a b

/-! ## Different slots -/

/-- The call that is made for a slot, if any. -/
def Memory.call (m : Memory) (slots : Nat → Option Nat) (i : Nat) : List (Nat × Nat × Nat) :=
  if m.mask &&& 1#32 <<< i = 0#32 then []
  else
    match slots i, m.deleter i with
    | some p, some fn => [(i, fn, p)]
    | _, _ => []

/-- What one round does. -/
theorem releaseSlot_eq (m : Memory) (slots : Nat → Option Nat) (calls : List (Nat × Nat × Nat))
    (i : Nat) : (m.releaseSlot (slots, calls) i).2 = calls ++ m.call slots i ∧
      ∀ j, j ≠ i → (m.releaseSlot (slots, calls) i).1 j = slots j := by
  unfold Memory.releaseSlot Memory.call
  simp only
  split
  · exact ⟨(List.append_nil calls).symm, fun _ _ => rfl⟩
  · split
    · exact ⟨rfl, fun j other => Function.update_of_ne other ..⟩
    · exact ⟨(List.append_nil calls).symm, fun _ _ => rfl⟩

theorem call_congr (m : Memory) {slots slots' : Nat → Option Nat} {i : Nat}
    (same : slots' i = slots i) : m.call slots' i = m.call slots i := by
  unfold Memory.call
  rw [same]

/-- Each slot is looked at once. -/
theorem foldl_releaseSlot (m : Memory) {l : List Nat} (nodup : l.Nodup)
    (slots : Nat → Option Nat) (calls : List (Nat × Nat × Nat)) :
    (l.foldl m.releaseSlot (slots, calls)).2 = calls ++ l.flatMap (m.call slots) := by
  induction l generalizing slots calls with
  | nil => exact (List.append_nil calls).symm
  | cons i l ih =>
    obtain ⟨out, rest⟩ := List.nodup_cons.mp nodup
    obtain ⟨called, others⟩ := releaseSlot_eq m slots calls i
    have later : ∀ j ∈ l, m.call (m.releaseSlot (slots, calls) i).1 j = m.call slots j := by
      intro j mem
      refine call_congr m (others j ?_)
      rintro rfl
      exact out mem
    have through := ih rest (m.releaseSlot (slots, calls) i).1 (calls ++ m.call slots i)
    rw [← called] at through
    rw [List.foldl_cons, List.flatMap_cons, ← List.append_assoc, ← called]
    rw [List.flatMap_congr later] at through
    exact through

theorem mask_bit (mask : BitVec 32) {i : Nat} (small : i < 32) :
    mask &&& 1#32 <<< i = 0#32 ↔ mask.getLsbD i = false := by
  constructor
  · intro clear
    have bit := congrArg (fun v : BitVec 32 => v.getLsbD i) clear
    simpa [small] using bit
  · intro clear
    refine BitVec.eq_of_getLsbD_eq fun j inside => ?_
    rcases eq_or_ne j i with rfl | other
    · simp [clear]
    · have apart : j < i ∨ j - i ≠ 0 := by omega
      rcases apart with before | behind
      · simp [before]
      · simp [behind]

theorem release_eq (m : Memory) (slots : Nat → Option Nat) :
    m.release slots = (List.range kLocalSlots).flatMap (m.call slots) := by
  unfold Memory.release
  split
  · rename_i zero
    symm
    refine List.flatMap_eq_nil_iff.mpr fun i _ => ?_
    unfold Memory.call
    rw [zero, BitVec.zero_and, if_pos rfl]
  · rw [foldl_releaseSlot m List.nodup_range, List.nil_append]

/-- The calls for a slot depend on its own value, deleter and bit. -/
theorem released_eq (m : Memory) (slots : Nat → Option Nat) (slot : BitVec 16) :
    m.released slots slot =
      if slot.toNat < kLocalSlots then m.call slots slot.toNat else [] := by
  have numbered (i : Nat) : (m.call slots i).filter (fun call => call.1 = slot.toNat) =
      if i = slot.toNat then m.call slots i else [] := by
    unfold Memory.call
    split
    · simp
    · split
      · split
        · rename_i same
          simp [same]
        · rename_i other
          simp [other]
      · simp
  have picked (l : List Nat) (nodup : l.Nodup) :
      (l.flatMap fun i => if i = slot.toNat then m.call slots i else []) =
        if slot.toNat ∈ l then m.call slots slot.toNat else [] := by
    induction l with
    | nil => rfl
    | cons i l ih =>
      obtain ⟨out, rest⟩ := List.nodup_cons.mp nodup
      rw [List.flatMap_cons, ih rest]
      rcases eq_or_ne i slot.toNat with rfl | other
      · rw [if_pos rfl, if_neg out, if_pos List.mem_cons_self, List.append_nil]
      · rw [if_neg other, List.nil_append]
        simp only [List.mem_cons, other.symm, false_or]
  unfold Memory.released
  rw [release_eq, List.filter_flatMap]
  simp only [numbered]
  rw [picked _ List.nodup_range]
  simp only [List.mem_range]

theorem call_setDeleter (m : Memory) (slots : Nat → Option Nat) (fn : Option Nat)
    {slot : BitVec 16} {i : Nat} (other : i ≠ slot.toNat) (small : i < kLocalSlots) :
    (m.setDeleter slot fn).call slots i = m.call slots i := by
  unfold Memory.setDeleter
  split
  · rfl
  · rename_i inside
    have narrow : i < 32 := Nat.lt_of_lt_of_le small (by decide)
    have apart : i < slot.toNat ∨ i - slot.toNat ≠ 0 := by omega
    -- the bit of the other slot stays
    have bit : (if fn = none then m.mask &&& ~~~ (1#32 <<< slot.toNat)
        else m.mask ||| 1#32 <<< slot.toNat).getLsbD i = m.mask.getLsbD i := by
      rcases apart with before | behind
      · split
        · simp [narrow, before]
        · simp [before]
      · split
        · simp [narrow, behind]
        · simp [behind]
    have same : (if fn = none then m.mask &&& ~~~ (1#32 <<< slot.toNat)
        else m.mask ||| 1#32 <<< slot.toNat) &&& 1#32 <<< i = 0#32 ↔
          m.mask &&& 1#32 <<< i = 0#32 := by
      rw [mask_bit _ narrow, mask_bit _ narrow, bit]
    unfold Memory.call
    simp only [same, Function.update_of_ne other]

theorem get_set (m : Memory) (p : Option Nat) {a b : BitVec 16} (other : b.toNat ≠ a.toNat) :
    (m.set a p).get b = m.get b := by
  unfold Memory.set
  split
  · rfl
  · split
    · rename_i there
      unfold Memory.get
      simp only [there, Option.bind_some, Function.update_of_ne other]
      cases m.locals with
      | none => rfl
      | some block => rfl
    · rfl

theorem separate_of_ne {a b : BitVec 16} (other : a ≠ b) : Separate a b := by
  have apart : b.toNat ≠ a.toNat := fun same => other (BitVec.eq_of_toNat_eq same.symm)
  refine ⟨fun m p => get_set m p apart, fun m slots p => ?_, fun m slots fn => ?_⟩
  · rw [released_eq, released_eq, call_congr m (Function.update_of_ne apart _ _)]
  · rw [released_eq, released_eq]
    split
    · rename_i small
      exact call_setDeleter m slots fn apart small
    · rfl

/-! ## The counter -/

theorem allocated_length (n : Nat) (next : BitVec 16) : (allocated n next).length = n := by
  induction n generalizing next with
  | zero => rfl
  | succ n ih => exact congrArg (· + 1) (ih _)

/-- The counter when a call is made. -/
theorem allocated_get {n i : Nat} (next : BitVec 16) (made : i < n) :
    (allocated n next)[i]? = some (allocTaskLocalSlot (next + BitVec.ofNat 16 i)).1 := by
  induction n generalizing i next with
  | zero => omega
  | succ n ih =>
    cases i with
    | zero =>
      rw [BitVec.add_zero]
      rfl
    | succ i =>
      have later := ih (next + 1) (Nat.lt_of_succ_lt_succ made)
      have counts : next + 1 + BitVec.ofNat 16 i = next + BitVec.ofNat 16 (i + 1) := by
        rw [Nat.add_comm i 1, BitVec.ofNat_add, BitVec.add_assoc]
        rfl
      rw [counts] at later
      exact later

theorem made_of_get {n i : Nat} {next a : BitVec 16} (there : (allocated n next)[i]? = some a) :
    i < n := by
  have inside := (List.getElem?_eq_some_iff.mp there).1
  rw [allocated_length] at inside
  exact inside

/-- A slot has the number of its call, until the counter comes round. -/
theorem slot_number {n i : Nat} {a : BitVec 16} (there : (allocated n 0)[i]? = some a)
    (early : i < 65536) (given : a ≠ kNoTaskLocalSlot) : a.toNat = i ∧ i < kLocalSlots := by
  rw [allocated_get 0 (made_of_get there)] at there
  cases there
  have count : (0 + BitVec.ofNat 16 i).toNat = i := by
    rw [show (0 : BitVec 16) + BitVec.ofNat 16 i = BitVec.ofNat 16 i from BitVec.zero_add _,
      BitVec.toNat_ofNat]
    exact Nat.mod_eq_of_lt early
  unfold allocTaskLocalSlot at given ⊢
  simp only [count] at given ⊢
  split at given
  · exact absurd rfl given
  · rename_i small
    rw [if_neg small]
    exact ⟨count, Nat.lt_of_not_le small⟩

theorem slots_differ {n i j : Nat} {a b : BitVec 16} (few : n ≤ 65536) (other : i ≠ j)
    (first : (allocated n 0)[i]? = some a) (second : (allocated n 0)[j]? = some b)
    (given : a ≠ kNoTaskLocalSlot) (given' : b ≠ kNoTaskLocalSlot) : a ≠ b := by
  have one := slot_number first (Nat.lt_of_lt_of_le (made_of_get first) few) given
  have two := slot_number second (Nat.lt_of_lt_of_le (made_of_get second) few) given'
  rintro rfl
  exact other (one.1.symm.trans two.1)

theorem unshared_of_few {n : Nat} (few : n ≤ 65536) : Unshared (allocated n 0) where
  below := by
    intro s mem given
    obtain ⟨i, there⟩ := List.mem_iff_getElem?.mp mem
    obtain ⟨number, small⟩ :=
      slot_number there (Nat.lt_of_lt_of_le (made_of_get there) few) given
    rw [number]
    exact small
  distinct := by
    rw [List.Nodup, List.pairwise_filter, List.pairwise_iff_getElem]
    intro i j inside inside' before given given'
    exact slots_differ few (Nat.ne_of_lt before) (List.getElem?_eq_getElem inside)
      (List.getElem?_eq_getElem inside') (of_decide_eq_true given) (of_decide_eq_true given')
  separate := fun i j a b other first second given given' =>
    separate_of_ne (slots_differ few other first second given given')

/-- The call after 65536 others returns the first slot again. -/
theorem first_again {n : Nat} (many : 65536 < n) :
    (allocated n 0)[0]? = some 0 ∧ (allocated n 0)[65536]? = some 0 := by
  rw [allocated_get 0 (Nat.zero_lt_of_lt many), allocated_get 0 many]
  exact ⟨rfl, rfl⟩

theorem shared_of_many {n : Nat} (many : 65536 < n) : ¬ Unshared (allocated n 0) := by
  intro unshared
  obtain ⟨first, again⟩ := first_again many
  have separate := unshared.separate 0 65536 0 0 (by decide) first again (by decide) (by decide)
  have read := separate.get ⟨true, none, fun _ => none, 0⟩ (some 1)
  exact absurd read (by decide)

/-- The slots are handed out once each, and keep apart what is done through them, exactly when the
counter does not come round. -/
theorem slots_unshared_iff (n : Nat) : Unshared (allocated n 0) ↔ n ≤ 65536 :=
  ⟨fun unshared => Nat.le_of_not_lt fun many => shared_of_many many unshared, unshared_of_few⟩

/-- After 65536 requests the next one gets the slot of the first, and what is set through the one
is read through the other. -/
theorem first_slot_again : ¬ Unshared (allocated 65537 0) ∧
    (allocated 65537 0)[0]? = some 0 ∧ (allocated 65537 0)[65536]? = some 0 ∧
    (Memory.set ⟨true, none, fun _ => none, 0⟩ 0 (some 1)).get 0 = some 1 :=
  ⟨shared_of_many (Nat.lt_succ_self 65536), (first_again (Nat.lt_succ_self 65536)).1,
    (first_again (Nat.lt_succ_self 65536)).2, rfl⟩

end JLibSched.Locals
