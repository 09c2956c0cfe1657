import Mathlib.Data.List.Nodup

/-!
# Lists threaded through a `next` field

`Leads next first l last` says that following `next` from `first` one meets the elements of `l`
in order and stands at `last` afterwards.  The list of a whole structure leads to `none`; a part of
it leads to the element behind it.

A write to `next` of an element outside `l` does not change where `l` leads (`Leads.write`), and a
list falls into parts where one likes (`leads_append`).
-/

namespace Links

variable {α : Type*}

/-- From `first` the elements of `l` follow, and then comes `last`. -/
def Leads (next : α → Option α) : Option α → List α → Option α → Prop
  | first, [], last => first = last
  | first, x :: l, last => first = some x ∧ Leads next (next x) l last

variable {next : α → Option α} {first last : Option α} {l m : List α} {x : α}

@[simp] theorem leads_nil : Leads next first [] last ↔ first = last := Iff.rfl

@[simp] theorem leads_cons :
    Leads next first (x :: l) last ↔ first = some x ∧ Leads next (next x) l last := Iff.rfl

theorem leads_append :
    Leads next first (l ++ m) last ↔ ∃ middle, Leads next first l middle ∧
      Leads next middle m last := by
  induction l generalizing first with
  | nil => simp
  | cons x l ih =>
    rw [List.cons_append, leads_cons, ih]
    constructor
    · rintro ⟨here, middle, front, back⟩
      exact ⟨middle, ⟨here, front⟩, back⟩
    · rintro ⟨middle, ⟨here, front⟩, back⟩
      exact ⟨here, middle, front, back⟩

/-- What lies behind depends only on the links of the elements passed. -/
theorem Leads.congr {next' : α → Option α} (leads : Leads next first l last)
    (same : ∀ x ∈ l, next' x = next x) : Leads next' first l last := by
  induction l generalizing first with
  | nil => exact leads
  | cons x l ih =>
    obtain ⟨here, rest⟩ := leads
    refine ⟨here, ?_⟩
    rw [same x List.mem_cons_self]
    exact ih rest fun y mem => same y (List.mem_cons_of_mem _ mem)

/-- Writing the link of an element that is not passed changes nothing. -/
theorem Leads.write [DecidableEq α] (leads : Leads next first l last) (out : x ∉ l)
    (value : Option α) : Leads (Function.update next x value) first l last := by
  refine leads.congr fun y mem => Function.update_of_ne ?_ _ _
  rintro rfl
  exact out mem

/-- An element is linked in front. -/
theorem Leads.push [DecidableEq α] (leads : Leads next first l last) (out : x ∉ l) :
    Leads (Function.update next x first) (some x) (x :: l) last := by
  refine ⟨rfl, ?_⟩
  rw [Function.update_self]
  exact leads.write out first

/-- A list is put behind an element, and what was there is cut off. -/
theorem Leads.splice [DecidableEq α] {second : Option α} (front : Leads next first l (some x))
    (back : Leads next second m last) (before : x ∉ l) (behind : x ∉ m) :
    Leads (Function.update next x second) first (l ++ x :: m) last := by
  rw [leads_append]
  refine ⟨some x, front.write before second, rfl, ?_⟩
  rw [Function.update_self]
  exact back.write behind second

/-! ## Parts with a last element -/

/-- From `first` the elements of `l` follow, and the last of them is `y`. -/
def Run (next : α → Option α) (first : Option α) (l : List α) (y : α) : Prop :=
  ∃ front, l = front ++ [y] ∧ Leads next first front (some y)

theorem Run.single : Run next (some x) [x] x := ⟨[], rfl, rfl⟩

theorem Run.cons {y : α} (run : Run next (next x) l y) : Run next (some x) (x :: l) y := by
  obtain ⟨front, rfl, leads⟩ := run
  exact ⟨x :: front, rfl, rfl, leads⟩

theorem Run.mem {y : α} (run : Run next first l y) : y ∈ l := by
  obtain ⟨front, rfl, -⟩ := run
  exact List.mem_append_right _ (List.mem_singleton_self y)

theorem Run.starts {y : α} (run : Run next first l y) : ∃ x rest, first = some x ∧ l = x :: rest := by
  obtain ⟨front, rfl, leads⟩ := run
  cases front with
  | nil => exact ⟨y, [], leads, rfl⟩
  | cons x front => exact ⟨x, front ++ [y], leads.1, rfl⟩

theorem Run.congr {next' : α → Option α} {y : α} (run : Run next first l y)
    (same : ∀ x ∈ l, next' x = next x) : Run next' first l y := by
  obtain ⟨front, rfl, leads⟩ := run
  exact ⟨front, rfl, leads.congr fun x mem => same x (List.mem_append_left _ mem)⟩

theorem Run.push [DecidableEq α] {y : α} (run : Run next first l y) (out : x ∉ l) :
    Run (Function.update next x first) (some x) (x :: l) y := by
  obtain ⟨front, rfl, leads⟩ := run
  exact ⟨x :: front, rfl, leads.push fun mem => out (List.mem_append_left _ mem)⟩

/-- A list is put behind a part. -/
theorem Run.splice [DecidableEq α] {second : Option α} {y : α} (run : Run next first l y)
    (back : Leads next second m last) (nodup : l.Nodup) (behind : y ∉ m) :
    Leads (Function.update next y second) first (l ++ m) last := by
  obtain ⟨front, rfl, leads⟩ := run
  rw [List.append_assoc, List.singleton_append]
  refine leads.splice back ?_ behind
  intro mem
  exact (List.nodup_append.mp nodup).2.2 y mem y (List.mem_singleton_self y) rfl

/-- An element is linked behind the last one. -/
theorem Leads.concat [DecidableEq α] {y : α} (leads : Leads next first (l ++ [y]) none)
    (nodup : (l ++ [y]).Nodup) (out : x ∉ l ++ [y]) (last : next x = none) :
    Leads (Function.update next y (some x)) first (l ++ [y] ++ [x]) none := by
  obtain ⟨middle, before, rfl, -⟩ := leads_append.mp leads
  have apart : y ∉ l := by
    intro mem
    exact (List.nodup_append.mp nodup).2.2 y mem y (List.mem_singleton_self y) rfl
  have other : x ≠ y := by
    rintro rfl
    exact out (List.mem_append_right _ (List.mem_singleton_self x))
  rw [List.append_assoc, leads_append]
  refine ⟨some y, before.write apart _, rfl, ?_⟩
  rw [Function.update_self]
  refine ⟨rfl, ?_⟩
  rw [Function.update_of_ne other]
  exact last

/-- From one place one meets one list. -/
theorem Leads.unique (leads : Leads next first l none) (leads' : Leads next first m none) :
    l = m := by
  induction l generalizing first m with
  | nil =>
    cases m with
    | nil => rfl
    | cons y m => cases leads.symm.trans leads'.1
  | cons x l ih =>
    cases m with
    | nil => cases leads.1.symm.trans leads'
    | cons y m =>
      obtain rfl : x = y := Option.some.inj (leads.1.symm.trans leads'.1)
      rw [ih leads.2 leads'.2]

/-- The first element is the one that `first` names. -/
theorem Leads.head (leads : Leads next first l none) : l.head? = first := by
  cases l with
  | nil => exact leads.symm
  | cons x l => exact leads.1.symm

/-- The numbers below `top`, linked in their order. -/
theorem leads_range' {top n : Nat} (m : Nat) (ends : m + n + 1 = top) :
    Leads (fun i => if i + 1 < top then some (i + 1) else none) (some m) (List.range' m (n + 1))
      none := by
  induction n generalizing m with
  | zero => exact ⟨rfl, if_neg (by omega)⟩
  | succ n ih =>
    rw [List.range'_succ]
    have next : (if m + 1 < top then some (m + 1) else none) = some (m + 1) :=
      if_pos (by omega)
    refine ⟨rfl, ?_⟩
    simp only [next]
    exact ih (m + 1) (by omega)

end Links
