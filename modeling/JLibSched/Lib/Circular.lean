import Mathlib.Data.Nat.ModEq
import Mathlib.Data.List.Basic
import Mathlib.Tactic.NormNum

/-!
# Circular indices

An index that grows without bound names a place of a circular array by its remainder.  Two
indices inside one window of the array's length name two places.  A search around the array
looks at the places in the order of their distance from where it starts.
-/

namespace Circular

/-- Two indices less than one revolution apart have different remainders. -/
theorem mod_ne_of_window {size i j : Nat} (before : i < j) (window : j < i + size) :
    i % size ≠ j % size := by
  intro same
  have zero : (j - i) % size = 0 := Nat.sub_mod_eq_zero_of_mod_eq same.symm
  have small : j - i < size := by omega
  rw [Nat.mod_eq_of_lt small] at zero
  omega

/-- The same, without an order on the two. -/
theorem mod_ne_of_ne {size base i j : Nat} (low : base ≤ i) (high : i < base + size)
    (low' : base ≤ j) (high' : j < base + size) (different : i ≠ j) : i % size ≠ j % size := by
  rcases Nat.lt_or_gt_of_ne different with before | after
  · exact mod_ne_of_window before (by omega)
  · exact (mod_ne_of_window after (by omega)).symm

/-- Masking with one less than a power of two is taking the remainder. -/
theorem and_pred_eq_mod {size : Nat} (i : Nat) (power : ∃ k, size = 2 ^ k) :
    i &&& (size - 1) = i % size := by
  obtain ⟨k, rfl⟩ := power
  exact Nat.and_two_pow_sub_one_eq_mod i k

/-- The places of a circular array, beginning anywhere. -/
def rotated (size start : Nat) : List Nat := (List.range size).map fun k => (start + k) % size

/-- The rest of the array and then its beginning. -/
theorem rotated_eq {size start : Nat} (inside : start ≤ size) :
    rotated size start = List.range' start (size - start) ++ List.range' 0 start := by
  have split : List.range size =
      List.range' 0 (size - start) ++ List.range' (size - start) start := by
    have join := List.range'_append_1 (s := 0) (m := size - start) (n := start)
    rw [Nat.zero_add, Nat.sub_add_cancel inside] at join
    rw [join, List.range_eq_range']
  unfold rotated
  rw [split, List.map_append]
  congr 1
  · rw [← Nat.add_zero start, ← List.map_add_range', Nat.add_zero]
    refine List.map_congr_left fun k mem => ?_
    rw [List.mem_range'_1] at mem
    exact Nat.mod_eq_of_lt (by omega)
  · have shift : List.range' (size - start) start = (List.range' 0 start).map (size - start + ·) := by
      rw [List.map_add_range', Nat.add_zero]
    rw [shift, List.map_map]
    conv_rhs => rw [← List.map_id (List.range' 0 start)]
    refine List.map_congr_left fun k mem => ?_
    rw [List.mem_range'_1] at mem
    have whole : start + (size - start + k) = size + k := by omega
    simp only [Function.comp, whole, Nat.add_mod_left, id]
    exact Nat.mod_eq_of_lt (by omega)
/-- A search from `start` finds nothing later than a place that is there. -/
theorem find_rotated {size start j : Nat} {p : Nat → Bool} (window : j < size)
    (here : p ((start + j) % size) = true) :
    ∃ k ≤ j, (rotated size start).find? p = some ((start + k) % size) := by
  unfold rotated
  rw [List.find?_map]
  cases found : (List.range size).find? (p ∘ fun k => (start + k) % size) with
  | none =>
    have absent := List.find?_range_eq_none.mp found j window
    simp [here] at absent
  | some k =>
    obtain ⟨-, -, first⟩ := List.find?_range_eq_some.mp found
    refine ⟨k, ?_, rfl⟩
    by_contra later
    have absent := first j (Nat.not_le.mp later)
    simp [here] at absent

end Circular
