import Mathlib.Data.List.Nodup

/-!
# Neighbours in a list

`Adjacent l x y` says that `y` follows `x` directly in `l`.  A singly linked list in memory is
described by what holds of its neighbours, so the lemmas say what becomes of the neighbours
when the list is extended at its end or loses its first element.
-/

/-- `y` follows `x` directly. -/
def Adjacent {α : Type*} (l : List α) (x y : α) : Prop :=
  ∃ before after, l = before ++ x :: y :: after

namespace Adjacent

variable {α : Type*} {l m : List α} {x y z : α}

theorem nil : ¬ Adjacent [] x y := by
  rintro ⟨before, after, shape⟩
  simp at shape

theorem cons_iff : Adjacent (z :: l) x y ↔ (z = x ∧ l.head? = some y) ∨ Adjacent l x y := by
  constructor
  · rintro ⟨before, after, shape⟩
    cases before with
    | nil =>
      simp only [List.nil_append, List.cons.injEq] at shape
      exact .inl ⟨shape.1, by rw [shape.2]; rfl⟩
    | cons b before =>
      simp only [List.cons_append, List.cons.injEq] at shape
      exact .inr ⟨before, after, shape.2⟩
  · rintro (⟨rfl, first⟩ | ⟨before, after, rfl⟩)
    · obtain ⟨rest, rfl⟩ := List.head?_eq_some_iff.mp first
      exact ⟨[], rest, rfl⟩
    · exact ⟨z :: before, after, rfl⟩

/-- Appending makes one new pair of neighbours. -/
theorem append_iff : Adjacent (l ++ m) x y ↔
    Adjacent l x y ∨ (l.getLast? = some x ∧ m.head? = some y) ∨ Adjacent m x y := by
  induction l with
  | nil => simp [nil]
  | cons a l ih =>
    rw [List.cons_append, cons_iff, cons_iff, ih]
    cases l with
    | nil =>
      simp [nil]
    | cons b l =>
      simp only [List.cons_append, List.head?_cons, List.getLast?_cons_cons]
      tauto

theorem mem_left (adjacent : Adjacent l x y) : x ∈ l := by
  obtain ⟨before, after, rfl⟩ := adjacent
  simp

theorem mem_right (adjacent : Adjacent l x y) : y ∈ l := by
  obtain ⟨before, after, rfl⟩ := adjacent
  simp

/-- Without repetitions an element has one successor. -/
theorem right_unique (distinct : l.Nodup) (one : Adjacent l x y) (two : Adjacent l x z) :
    y = z := by
  induction l with
  | nil => exact absurd one nil
  | cons a l ih =>
    have fresh : a ∉ l := (List.nodup_cons.mp distinct).1
    rcases cons_iff.mp one with ⟨rfl, first⟩ | one'
    · rcases cons_iff.mp two with ⟨-, second⟩ | two'
      · rw [first] at second
        exact Option.some.inj second
      · exact absurd two'.mem_left fresh
    · rcases cons_iff.mp two with ⟨rfl, second⟩ | two'
      · exact absurd one'.mem_left fresh
      · exact ih (List.nodup_cons.mp distinct).2 one' two'

/-- The first element follows none. -/
theorem not_first (distinct : (y :: l).Nodup) : ¬ Adjacent (y :: l) x y := by
  intro adjacent
  have fresh : y ∉ l := (List.nodup_cons.mp distinct).1
  rcases cons_iff.mp adjacent with ⟨-, second⟩ | rest
  · exact fresh (List.mem_of_mem_head? second)
  · exact fresh rest.mem_right

/-- Without repetitions an element has one predecessor. -/
theorem left_unique (distinct : l.Nodup) (one : Adjacent l x z) (two : Adjacent l y z) :
    x = y := by
  induction l with
  | nil => exact absurd one nil
  | cons a l ih =>
    have rest := (List.nodup_cons.mp distinct).2
    have second (here : l.head? = some z) {w : α} : ¬ Adjacent l w z := by
      obtain ⟨m, rfl⟩ := List.head?_eq_some_iff.mp here
      exact not_first rest
    rcases cons_iff.mp one with ⟨rfl, here⟩ | one'
    · rcases cons_iff.mp two with ⟨rfl, -⟩ | two'
      · rfl
      · exact absurd two' (second here)
    · rcases cons_iff.mp two with ⟨rfl, here⟩ | two'
      · exact absurd one' (second here)
      · exact ih rest one' two'

/-- The last element has no successor. -/
theorem not_last (distinct : l.Nodup) (last : l.getLast? = some x) : ¬ Adjacent l x y := by
  rintro ⟨before, after, rfl⟩
  rw [List.getLast?_append_cons, List.getLast?_cons_cons] at last
  have repeated := List.mem_of_getLast? last
  rw [List.nodup_append] at distinct
  exact (List.nodup_cons.mp distinct.2.1).1 repeated

end Adjacent
