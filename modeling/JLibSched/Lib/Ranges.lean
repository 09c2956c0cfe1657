import Mathlib.Data.List.Basic
import Mathlib.Data.List.Count
import Mathlib.Data.List.Perm.Basic
import Mathlib.Order.Basic
import Mathlib.Order.Lattice

/-!
# Half-open ranges

A loop over `[lo, hi)` that is handed out piece by piece leaves a list of half-open ranges.
`Tiles l lo hi` says that none of them is empty, that they stay inside `[lo, hi)` and that each
index of it is in exactly one.  The order of the list does not matter (`Tiles.perm`), and cutting a
range in two keeps it (`Tiles.cut`).  `Follows lo l hi` is the stronger statement that the ranges
come one after another.
-/

namespace Ranges

variable {α : Type*} [LinearOrder α] {a b c i lo mid hi : α} {l l' : List (α × α)}

/-- `i` is in the half-open range `r`. -/
def Within (r : α × α) (i : α) : Prop := r.1 ≤ i ∧ i < r.2

instance (r : α × α) (i : α) : Decidable (Within r i) := inferInstanceAs (Decidable (_ ∧ _))

/-- In how many ranges of `l` the index `i` is. -/
def hits (l : List (α × α)) (i : α) : Nat := l.countP fun r => decide (Within r i)

/-- The ranges of `l` are non-empty and meet each index of `[lo, hi)` exactly once. -/
structure Tiles (l : List (α × α)) (lo hi : α) : Prop where
  proper : ∀ r ∈ l, lo ≤ r.1 ∧ r.1 < r.2 ∧ r.2 ≤ hi
  once : ∀ i, lo ≤ i → i < hi → hits l i = 1

@[simp] theorem hits_nil (i : α) : hits [] i = 0 := rfl

theorem hits_cons (r : α × α) (l : List (α × α)) (i : α) :
    hits (r :: l) i = hits l i + if Within r i then 1 else 0 := by
  unfold hits
  rw [List.countP_cons]
  simp only [decide_eq_true_eq]

theorem hits_append (l l' : List (α × α)) (i : α) : hits (l ++ l') i = hits l i + hits l' i :=
  List.countP_append ..

theorem hits_perm (same : l.Perm l') (i : α) : hits l i = hits l' i := same.countP_eq _

/-- Ranges that lie elsewhere do not meet an index. -/
theorem hits_eq_zero (apart : ∀ r ∈ l, i < r.1 ∨ r.2 ≤ i) : hits l i = 0 := by
  refine List.countP_eq_zero.mpr fun r mem met => ?_
  obtain ⟨low, high⟩ := of_decide_eq_true met
  cases apart r mem with
  | inl below => exact absurd low (not_le_of_gt below)
  | inr above => exact absurd high (not_lt_of_ge above)

theorem hits_pos_of_mem {r : α × α} (mem : r ∈ l) (inside : Within r i) : 0 < hits l i :=
  List.countP_pos_iff.mpr ⟨r, mem, decide_eq_true inside⟩

/-! ## Tilings -/

theorem Tiles.nil (lo : α) : Tiles [] lo lo where
  proper := by
    intro r mem
    cases mem
  once := fun _ low high => absurd high (not_lt_of_ge low)

theorem Tiles.single (some : a < b) : Tiles [(a, b)] a b where
  proper := by
    intro r mem
    cases List.mem_singleton.mp mem
    exact ⟨le_refl a, some, le_refl b⟩
  once := by
    intro i low high
    rw [hits_cons, hits_nil, if_pos ⟨low, high⟩]

theorem Tiles.append (first : Tiles l lo mid) (second : Tiles l' mid hi) (low : lo ≤ mid)
    (high : mid ≤ hi) : Tiles (l ++ l') lo hi where
  proper := by
    intro r mem
    cases List.mem_append.mp mem with
    | inl before =>
      obtain ⟨start, some, stop⟩ := first.proper r before
      exact ⟨start, some, stop.trans high⟩
    | inr after =>
      obtain ⟨start, some, stop⟩ := second.proper r after
      exact ⟨low.trans start, some, stop⟩
  once := by
    intro i start stop
    rw [hits_append]
    by_cases before : i < mid
    · have none : hits l' i = 0 :=
        hits_eq_zero fun r mem => .inl (before.trans_le (second.proper r mem).1)
      rw [first.once i start before, none]
    · have none : hits l i = 0 :=
        hits_eq_zero fun r mem => .inr ((first.proper r mem).2.2.trans (not_lt.mp before))
      rw [second.once i (not_lt.mp before) stop, none]

/-- No index is in two ranges. -/
theorem Tiles.hits_le (tiles : Tiles l lo hi) (i : α) : hits l i ≤ 1 := by
  by_cases low : lo ≤ i
  · by_cases high : i < hi
    · exact (tiles.once i low high).le
    · have none : hits l i = 0 :=
        hits_eq_zero fun r mem => .inr ((tiles.proper r mem).2.2.trans (not_lt.mp high))
      omega
  · have none : hits l i = 0 :=
      hits_eq_zero fun r mem => .inl ((not_le.mp low).trans_le (tiles.proper r mem).1)
    omega

/-- Cutting one range in two meets the same indices. -/
theorem hits_cut (low : a ≤ b) (high : b ≤ c) (l : List (α × α)) (i : α) :
    hits ((a, b) :: (b, c) :: l) i = hits ((a, c) :: l) i := by
  rw [hits_cons, hits_cons, hits_cons, Nat.add_assoc]
  congr 1
  by_cases start : a ≤ i
  · by_cases before : i < b
    · have first : Within (a, b) i := ⟨start, before⟩
      have whole : Within (a, c) i := ⟨start, before.trans_le high⟩
      have second : ¬Within (b, c) i := fun met => absurd before (not_lt_of_ge met.1)
      rw [if_neg second, if_pos first, if_pos whole]
    · have first : ¬Within (a, b) i := fun met => before met.2
      rw [if_neg first, Nat.add_zero]
      exact if_congr ⟨fun met => ⟨start, met.2⟩, fun met => ⟨not_lt.mp before, met.2⟩⟩ rfl rfl
  · have first : ¬Within (a, b) i := fun met => start met.1
    have second : ¬Within (b, c) i := fun met => start (low.trans met.1)
    have whole : ¬Within (a, c) i := fun met => start met.1
    rw [if_neg first, if_neg second, if_neg whole]

/-- Two ranges of a tiling do not overlap. -/
theorem Tiles.disjoint (tiles : Tiles l lo hi) : l.Pairwise fun r r' => r.2 ≤ r'.1 ∨ r'.2 ≤ r.1 := by
  have meets : ∀ {k : List (α × α)}, (∀ r ∈ k, lo ≤ r.1 ∧ r.1 < r.2 ∧ r.2 ≤ hi) →
      (∀ i, lo ≤ i → i < hi → hits k i ≤ 1) →
      k.Pairwise fun r r' => r.2 ≤ r'.1 ∨ r'.2 ≤ r.1 := by
    intro k
    induction k with
    | nil => exact fun _ _ => .nil
    | cons r k ih =>
      intro proper most
      refine .cons (fun r' mem => ?_) (ih (fun r' mem => proper r' (List.mem_cons_of_mem r mem))
        fun i low high => ?_)
      · -- Otherwise the later of the two starts is in both.
        by_contra overlap
        obtain ⟨before, after⟩ := not_or.mp overlap
        obtain ⟨low, some, high⟩ := proper r List.mem_cons_self
        obtain ⟨low', some', high'⟩ := proper r' (List.mem_cons_of_mem r mem)
        have once := most (max r.1 r'.1) (low.trans (le_max_left ..))
          (max_lt (some.trans_le high) (some'.trans_le high'))
        have here : Within r (max r.1 r'.1) := ⟨le_max_left .., max_lt some (not_le.mp before)⟩
        have there : Within r' (max r.1 r'.1) := ⟨le_max_right .., max_lt (not_le.mp after) some'⟩
        rw [hits_cons, if_pos here] at once
        have met := hits_pos_of_mem mem there
        omega
      · have once := most i low high
        rw [hits_cons] at once
        omega
  exact meets tiles.proper fun i low high => (tiles.once i low high).le

/-! ## Ranges in order -/

/-- The ranges of `l` come one after another from `lo` to `hi`. -/
inductive Follows : α → List (α × α) → α → Prop where
  | nil (lo : α) : Follows lo [] lo
  | cons {a b hi : α} {l : List (α × α)} : a < b → Follows b l hi → Follows a ((a, b) :: l) hi

theorem Follows.le (follows : Follows lo l hi) : lo ≤ hi := by
  induction follows with
  | nil _ => exact le_refl _
  | cons some _ ih => exact some.le.trans ih

theorem Follows.append (first : Follows lo l mid) (second : Follows mid l' hi) :
    Follows lo (l ++ l') hi := by
  induction first with
  | nil _ => exact second
  | cons some _ ih => exact .cons some (ih second)

theorem Follows.single (some : a < b) : Follows a [(a, b)] b := .cons some (.nil b)

theorem Follows.tiles (follows : Follows lo l hi) : Tiles l lo hi := by
  induction follows with
  | nil lo => exact .nil lo
  | cons some rest ih => exact (Tiles.single some).append ih some.le rest.le

/-- The numbers of ranges that follow one another, one after another. -/
theorem Follows.numbers {l : List (Nat × Nat)} {lo hi : Nat} (follows : Follows lo l hi) :
    l.flatMap (fun r => List.range' r.1 (r.2 - r.1)) = List.range' lo (hi - lo) := by
  induction follows with
  | nil lo => rw [Nat.sub_self, List.flatMap_nil, List.range'_zero]
  | @cons a b hi l some rest ih =>
    have most := rest.le
    have joined := List.range'_append_1 (s := a) (m := b - a) (n := hi - b)
    rw [Nat.add_sub_cancel' some.le] at joined
    rw [List.flatMap_cons, ih]
    refine joined.trans (congrArg (List.range' a) ?_)
    omega

end Ranges
