import JLibSched.Slab.Model
import JLibSched.Lib.Links
import JLibSched.Lib.Divided
import Mathlib.Tactic

/-!
# What the loops do to the lists

A batch spans a list when its head leads through the list to its tail.  Each loop of the pool takes
slots in the order in which they stand in memory or in a list, so what it has moved is a piece of
that.
-/

namespace JLibSched.Slab

open Links

variable {next : Next} {batch : Batch} {l : List Slot} {x y : Slot}

/-- The batch is the list. -/
def Batch.Spans (next : Next) (batch : Batch) (l : List Slot) : Prop :=
  l = [] ∧ batch.head = none ∨ ∃ y, batch.tail = some y ∧ Run next batch.head l y

/-! ## Slots that are taken for the first time -/

section Bump

variable {slotAt : Nat → Slot} {k : Nat}

/-- The slots that the loop has linked, the last one first. -/
def bumped (slotAt : Nat → Slot) (k : Nat) : List Slot := ((List.range k).map slotAt).reverse

theorem bumped_succ : bumped slotAt (k + 1) = slotAt k :: bumped slotAt k := by
  unfold bumped
  rw [List.range_succ, List.map_append, List.reverse_append]
  rfl

theorem mem_bumped : x ∈ bumped slotAt k ↔ ∃ a, a < k ∧ slotAt a = x := by
  unfold bumped
  simp

/-- The links of other slots stay. -/
theorem bump_next (apart : x ∉ bumped slotAt k) : (bump slotAt k next batch).1 x = next x := by
  induction k with
  | zero => rfl
  | succ k ih =>
    rw [bumped_succ, List.mem_cons, not_or] at apart
    exact (Function.update_of_ne apart.1 _ _).trans (ih apart.2)

theorem bump_moved : (bump slotAt k next batch).2.moved = batch.moved := by
  induction k with
  | zero => rfl
  | succ k ih => exact ih

theorem not_mem_bumped (injective : Function.Injective slotAt) : slotAt k ∉ bumped slotAt k := by
  intro mem
  obtain ⟨a, less, same⟩ := mem_bumped.mp mem
  rw [injective same] at less
  exact Nat.lt_irrefl k less

theorem bump_leads {last : Option Slot} (injective : Function.Injective slotAt)
    (leads : Leads next batch.head l last) (apart : ∀ x ∈ bumped slotAt k, x ∉ l) :
    Leads (bump slotAt k next batch).1 (bump slotAt k next batch).2.head (bumped slotAt k ++ l)
      last := by
  induction k with
  | zero => exact leads
  | succ k ih =>
    rw [bumped_succ] at apart ⊢
    refine (ih fun x mem => apart x (List.mem_cons_of_mem _ mem)).push ?_
    rw [List.mem_append, not_or]
    exact ⟨not_mem_bumped injective, apart _ List.mem_cons_self⟩

theorem Batch.Spans.push (spans : batch.Spans next l) (out : x ∉ l) :
    Batch.Spans (Function.update next x batch.head)
      { batch with
        head := some x, tail := if batch.head = none then some x else batch.tail } (x :: l) := by
  rcases spans with ⟨rfl, empty⟩ | ⟨y, tail, run⟩
  · exact .inr ⟨x, if_pos empty, .single⟩
  · obtain ⟨z, rest, here, -⟩ := run.starts
    refine .inr ⟨y, ?_, run.push out⟩
    rw [here, if_neg (by simp)]
    exact tail

theorem bump_spans (injective : Function.Injective slotAt) (spans : batch.Spans next l)
    (apart : ∀ x ∈ bumped slotAt k, x ∉ l) :
    (bump slotAt k next batch).2.Spans (bump slotAt k next batch).1 (bumped slotAt k ++ l) := by
  induction k with
  | zero => exact spans
  | succ k ih =>
    rw [bumped_succ] at apart ⊢
    refine (ih fun x mem => apart x (List.mem_cons_of_mem _ mem)).push ?_
    rw [List.mem_append, not_or]
    exact ⟨not_mem_bumped injective, apart _ List.mem_cons_self⟩

end Bump

/-! ## Arrays -/

section Arrays

variable {number : Nat} {e : Extent} {wanted : Nat}

/-- The slots of an array that were never taken. -/
def Extent.unbumped (number : Nat) (e : Extent) : List Slot :=
  (List.range' e.bumpNext (e.slots - e.bumpNext)).map fun k => ⟨number, e.block, k⟩

def Extent.all (number : Nat) (e : Extent) : List Slot :=
  (List.range e.slots).map fun k => ⟨number, e.block, k⟩

/-- What `Extent.bump` takes, the last one first. -/
def Extent.taken (number : Nat) (e : Extent) (wanted : Nat) : List Slot :=
  bumped (fun k => ⟨number, e.block, e.bumpNext + k⟩) (min wanted (e.slots - e.bumpNext))

theorem slotAt_injective :
    Function.Injective fun k => (⟨number, e.block, e.bumpNext + k⟩ : Slot) := by
  intro a b same
  simp only [Slot.mk.injEq] at same
  omega

/-- The slots of `new` are linked in front of a batch. -/
structure Taken (next : Next) (batch : Batch) (new : List Slot) (next' : Next) (batch' : Batch) :
    Prop where
  links : ∀ x, x ∉ new → next' x = next x
  moved : batch'.moved = batch.moved + new.length
  spans : ∀ l, batch.Spans next l → (∀ x ∈ new, x ∉ l) → batch'.Spans next' (new ++ l)
  leads : ∀ l last, Leads next batch.head l last → (∀ x ∈ new, x ∉ l) →
    Leads next' batch'.head (new ++ l) last

theorem Extent.bump_taken (number : Nat) (e : Extent) (wanted : Nat) (next : Next)
    (batch : Batch) : Taken next batch (e.taken number wanted)
    (e.bump number wanted next batch).2.1 (e.bump number wanted next batch).2.2 where
  links x apart := bump_next apart
  moved := by
    simp [Extent.bump, Extent.taken, bumped, bump_moved]
  spans l spans apart := bump_spans slotAt_injective spans apart
  leads l last leads apart := bump_leads slotAt_injective leads apart

/-- What is taken was fresh, and the rest still is. -/
theorem Extent.count_unbumped (number : Nat) (e : Extent) (wanted : Nat) (next : Next)
    (batch : Batch) (x : Slot) :
    (e.unbumped number).count x = (e.taken number wanted).count x +
      ((e.bump number wanted next batch).1.unbumped number).count x := by
  have split : e.slots - e.bumpNext = min wanted (e.slots - e.bumpNext) +
      (e.slots - (e.bumpNext + min wanted (e.slots - e.bumpNext))) := by omega
  unfold Extent.unbumped Extent.taken bumped Extent.bump
  rw [List.count_reverse, ← List.count_append]
  conv_lhs => rw [split]
  rw [← List.range'_append_1, List.map_append, List.range'_eq_map_range, List.map_map]
  rfl

theorem Extent.bump_all : (e.bump number wanted next batch).1.all number = e.all number := rfl

theorem Extent.taken_unbumped (mem : x ∈ e.taken number wanted) : x ∈ e.unbumped number := by
  have count := e.count_unbumped number wanted (fun _ => none) ⟨none, none, 0⟩ x
  have some := List.count_pos_iff.mpr mem
  exact List.count_pos_iff.mp (by omega)

end Arrays

/-! ## Walks -/

theorem walk_leads {k : Nat} (leads : Leads next (some x) l (some y)) (length : l.length = k) :
    walk next k x = some y := by
  induction l generalizing x k with
  | nil =>
    subst length
    exact leads
  | cons z l ih =>
    obtain ⟨same, rest⟩ := leads
    obtain rfl := Option.some.inj same
    subst length
    rw [List.length_cons]
    unfold walk
    cases l with
    | nil =>
      rw [show next x = some y from rest]
      rfl
    | cons z l =>
      rw [rest.1]
      exact ih (rest.1 ▸ rest) rfl

/-- A list falls into what a walk passes and the rest. -/
theorem leads_split {first : Option Slot} {k : Nat} (leads : Leads next first l none)
    (positive : 0 < k) (enough : k ≤ l.length) :
    ∃ y, Run next first (l.take k) y ∧ Leads next (next y) (l.drop k) none := by
  rw [← List.take_append_drop k l, leads_append] at leads
  obtain ⟨middle, front, back⟩ := leads
  have nonempty : l.take k ≠ [] := by
    intro empty
    have length := congrArg List.length empty
    rw [List.length_take, List.length_nil] at length
    omega
  obtain ⟨init, y, split⟩ := List.eq_nil_or_concat (l.take k) |>.resolve_left nonempty
  rw [split, List.concat_eq_append] at front ⊢
  obtain ⟨before, passed, rfl, rfl⟩ := leads_append.mp front
  exact ⟨y, ⟨init, rfl, passed⟩, back⟩

/-- The walk of so many steps ends at the last slot passed. -/
theorem walk_run {first : Slot} {k : Nat} (run : Run next (some first) l y)
    (length : l.length = k + 1) : walk next k first = some y := by
  obtain ⟨front, rfl, leads⟩ := run
  rw [List.length_append, List.length_singleton] at length
  exact walk_leads leads (by omega)

/-- The loop over the shared list. -/
theorem cut_spec (left moved : Nat) {curr : Option Slot} (tail : Option Slot) (leads : Leads next curr l none) :
    ∃ front back, l = front ++ back ∧ Leads next (cut next left curr tail moved).1 back none ∧
      (cut next left curr tail moved).2.2 = moved + front.length ∧
      (front = [] ∧ (cut next left curr tail moved).2.1 = tail ∧ (left = 0 ∨ curr = none) ∨
        ∃ y, (cut next left curr tail moved).2.1 = some y ∧ Run next curr front y) := by
  induction left generalizing l curr tail moved with
  | zero => exact ⟨[], l, rfl, leads, rfl, .inl ⟨rfl, rfl, .inl rfl⟩⟩
  | succ left ih =>
    cases l with
    | nil =>
      cases leads
      exact ⟨[], [], rfl, rfl, rfl, .inl ⟨rfl, rfl, .inr rfl⟩⟩
    | cons x l =>
      obtain ⟨rfl, rest⟩ := leads
      obtain ⟨front, back, rfl, later, count, ends⟩ := ih (moved + 1) (some x) rest
      refine ⟨x :: front, back, rfl, later, ?_, .inr ?_⟩
      · rw [List.length_cons]
        exact count.trans (by omega)
      · rcases ends with ⟨rfl, same, -⟩ | ⟨y, same, run⟩
        · exact ⟨x, same, .single⟩
        · exact ⟨y, same, run.cons⟩

end JLibSched.Slab
