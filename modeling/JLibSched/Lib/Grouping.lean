import Mathlib.Data.List.Nodup
import Mathlib.Data.List.Range
import Mathlib.Tactic

/-!
# Numbers in groups

`of` puts each number below `n` in a group.  The groups, in order, are lists without repetition that
together have each number once (`group_perm`), so they are together as long as `n` (`sum_length`).

Nothing is known of `of` beyond its bound.  That no group is empty follows when the groups below a
number's own are all met (`Filled`).
-/

namespace Grouping

variable {n k : Nat} {of : Nat → Nat} {d g : Nat}

/-- The members of a group, in order. -/
def group (n : Nat) (of : Nat → Nat) (g : Nat) : List Nat :=
  (List.range n).filter fun d => of d = g

/-- The numbers outside a group, in order. -/
def others (n : Nat) (of : Nat → Nat) (g : Nat) : List Nat :=
  (List.range n).filter fun d => of d ≠ g

@[simp] theorem mem_group : d ∈ group n of g ↔ d < n ∧ of d = g := by
  simp [group]

@[simp] theorem mem_others : d ∈ others n of g ↔ d < n ∧ of d ≠ g := by
  simp [others]

theorem nodup_group : (group n of g).Nodup := List.nodup_range.filter _

theorem nodup_others : (others n of g).Nodup := List.nodup_range.filter _

/-- The groups have each number once. -/
theorem group_perm (bound : ∀ d < n, of d < k) :
    ((List.range k).flatMap (group n of)).Perm (List.range n) := by
  refine (List.perm_ext_iff_of_nodup ?_ List.nodup_range).mpr fun d => ?_
  · refine List.nodup_flatMap.mpr ⟨fun g _ => nodup_group, ?_⟩
    refine List.nodup_range.imp fun {g h} apart => ?_
    intro d first second
    exact apart ((mem_group.mp first).2.symm.trans (mem_group.mp second).2)
  · rw [List.mem_flatMap, List.mem_range]
    constructor
    · rintro ⟨g, -, mem⟩
      exact (mem_group.mp mem).1
    · intro inside
      exact ⟨of d, List.mem_range.mpr (bound d inside), mem_group.mpr ⟨inside, rfl⟩⟩

/-- The first groups have no more members than there are numbers. -/
theorem sum_length_le (bound : ∀ d < n, of d < k) {j : Nat} (part : j ≤ k) :
    ((List.range j).map fun g => (group n of g).length).sum ≤ n := by
  have whole := (group_perm bound).length_eq
  rw [List.length_flatMap, List.length_range] at whole
  obtain ⟨more, rfl⟩ := Nat.exists_eq_add_of_le part
  rw [List.range_add, List.map_append, List.sum_append] at whole
  omega

/-- The groups below a number's own are all met. -/
def Filled (n : Nat) (of : Nat → Nat) : Prop := ∀ d < n, ∀ g ≤ of d, ∃ e < n, of e = g

/-- One more than the largest number of a group, and at least 1. -/
def count (n : Nat) (of : Nat → Nat) : Nat :=
  (List.range n).foldl (fun groups d => max groups (of d + 1)) 1

theorem count_succ : count (n + 1) of = max (count n of) (of n + 1) := by
  unfold count
  rw [List.range_succ, List.foldl_append]
  rfl

theorem one_le_count : 1 ≤ count n of := by
  induction n with
  | zero => exact le_rfl
  | succ n ih =>
    rw [count_succ]
    exact ih.trans (le_max_left _ _)

theorem lt_count (inside : d < n) : of d < count n of := by
  induction n with
  | zero => exact absurd inside (Nat.not_lt_zero d)
  | succ n ih =>
    rw [count_succ, lt_max_iff]
    rcases Nat.lt_succ_iff_lt_or_eq.mp inside with before | rfl
    · exact .inl (ih before)
    · exact .inr (Nat.lt_succ_self _)

theorem count_le (bound : ∀ d < n, of d < k) (positive : 1 ≤ k) : count n of ≤ k := by
  induction n with
  | zero => exact positive
  | succ n ih =>
    rw [count_succ, max_le_iff]
    exact ⟨ih fun d before => bound d (Nat.lt_succ_of_lt before), bound n (Nat.lt_succ_self n)⟩

/-- The count is that of some number, unless it is 1. -/
theorem exists_of_count (more : 1 < count n of) : ∃ d < n, count n of = of d + 1 := by
  induction n with
  | zero => exact absurd more (lt_irrefl 1)
  | succ n ih =>
    rw [count_succ] at more ⊢
    rcases le_total (count n of) (of n + 1) with grows | stays
    · exact ⟨n, Nat.lt_succ_self n, max_eq_right grows⟩
    · rw [max_eq_left stays] at more ⊢
      obtain ⟨d, inside, here⟩ := ih more
      exact ⟨d, Nat.lt_succ_of_lt inside, here⟩

/-- No group below the count is empty. -/
theorem Filled.exists (filled : Filled n of) (positive : 0 < n) (below : g < count n of) :
    ∃ d < n, of d = g := by
  rcases Nat.lt_or_ge 1 (count n of) with more | single
  · obtain ⟨d, inside, here⟩ := exists_of_count more
    exact filled d inside g (by omega)
  · have first : g = 0 := by omega
    rw [first]
    exact filled 0 positive 0 (Nat.zero_le _)

/-- With more groups than one, none has everything. -/
theorem Filled.others_ne_nil (filled : Filled n of) (positive : 0 < n) (more : 1 < count n of)
    (g : Nat) : others n of g ≠ [] := by
  have other : ∃ h, h < count n of ∧ h ≠ g := by
    rcases eq_or_ne g 0 with rfl | apart
    · exact ⟨1, more, one_ne_zero⟩
    · exact ⟨0, one_le_count, apart.symm⟩
  obtain ⟨h, below, apart⟩ := other
  obtain ⟨d, inside, here⟩ := filled.exists positive below
  exact List.ne_nil_of_mem (mem_others.mpr ⟨inside, here ▸ apart⟩)

end Grouping
