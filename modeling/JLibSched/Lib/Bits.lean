import Mathlib.Data.List.Basic
import Mathlib.Tactic

/-!
# Searching the bits of a word

Setting and clearing one bit of a word, the lowest bit that is set, and the first set bit at or
after a place, which one finds as the lowest bit of the word under a mask.
-/

namespace Bits

variable {w : Nat}

/-- The number of the lowest bit that is set; for the word 0 it is the width. -/
def countTrailingZeros (x : BitVec w) : Nat := ((List.range w).find? x.getLsbD).getD w

theorem getLsbD_set (x : BitVec w) {i j : Nat} (inside : j < w) :
    (x ||| 1#w <<< i).getLsbD j = (x.getLsbD j || decide (j = i)) := by
  rw [BitVec.getLsbD_or, BitVec.getLsbD_shiftLeft, BitVec.getLsbD_one]
  congr 1
  by_cases same : j = i
  · subst same
    simp [inside, Nat.zero_lt_of_lt inside]
  · by_cases before : j < i
    · simp [before, same]
    · have above : j - i ≠ 0 := by omega
      simp [above, same]

theorem getLsbD_clear (x : BitVec w) {i j : Nat} (inside : j < w) :
    (x &&& ~~~(1#w <<< i)).getLsbD j = (x.getLsbD j && decide (j ≠ i)) := by
  have bit := getLsbD_set 0#w (i := i) inside
  rw [BitVec.zero_or, BitVec.getLsbD_zero, Bool.false_or] at bit
  rw [BitVec.getLsbD_and, BitVec.getLsbD_not, bit]
  simp [inside]

/-- A word with a bit in it is not 0. -/
theorem eq_zero_iff (x : BitVec w) : x = 0#w ↔ ∀ i < w, x.getLsbD i = false := by
  constructor
  · rintro rfl i -
    exact BitVec.getLsbD_zero
  · intro none
    refine BitVec.eq_of_getLsbD_eq fun i inside => ?_
    rw [none i inside, BitVec.getLsbD_zero]

/-- The search over all bits. -/
theorem find_range (x : BitVec w) : (List.range w).find? x.getLsbD =
    if x = 0#w then none else some (countTrailingZeros x) := by
  unfold countTrailingZeros
  split
  · rename_i zero
    rw [zero]
    exact List.find?_eq_none.mpr fun i _ => by simp
  · rename_i some
    cases found : (List.range w).find? x.getLsbD with
    | some i => rfl
    | none =>
      refine absurd ((eq_zero_iff x).mpr fun i inside => ?_) some
      have absent := List.find?_eq_none.mp found i (List.mem_range.mpr inside)
      exact Bool.eq_false_iff.mpr absent

/-- The mask of the bits from `r` on. -/
theorem getLsbD_high (r : Nat) {i : Nat} (inside : i < w) :
    (~~~(0#w) <<< r).getLsbD i = decide (r ≤ i) := by
  rw [BitVec.getLsbD_shiftLeft, BitVec.getLsbD_not, BitVec.getLsbD_zero]
  by_cases before : i < r
  · simp [before]
  · have shifted : i - r < w := by omega
    simp [before, inside, shifted, Nat.not_lt.mp before]

theorem range_split {r : Nat} (inside : r ≤ w) :
    List.range w = List.range' 0 r ++ List.range' r (w - r) := by
  have join := List.range'_append_1 (s := 0) (m := r) (n := w - r)
  rw [Nat.zero_add, Nat.add_sub_cancel' inside] at join
  rw [join, List.range_eq_range']

/-- The first bit at or after `r`. -/
theorem find_high (x : BitVec w) {r : Nat} (inside : r ≤ w) :
    (List.range' r (w - r)).find? x.getLsbD =
      if x &&& ~~~(0#w) <<< r = 0#w then none
      else some (countTrailingZeros (x &&& ~~~(0#w) <<< r)) := by
  have below : (List.range' 0 r).find? (x &&& ~~~(0#w) <<< r).getLsbD = none := by
    refine List.find?_eq_none.mpr fun i mem => ?_
    have early : i < r := by
      have bound := (List.mem_range'_1.mp mem).2
      omega
    rw [BitVec.getLsbD_and, getLsbD_high r (Nat.lt_of_lt_of_le early inside)]
    simp [early]
  have above : (List.range' r (w - r)).find? x.getLsbD =
      (List.range' r (w - r)).find? (x &&& ~~~(0#w) <<< r).getLsbD := by
    refine List.find?_congr fun i mem => ?_
    obtain ⟨low, high⟩ := List.mem_range'_1.mp mem
    rw [BitVec.getLsbD_and, getLsbD_high r (by omega)]
    simp [low]
  rw [← find_range, range_split inside, List.find?_append, below, Option.none_or, above]

/-- The first bit below `r`. -/
theorem find_low (x : BitVec w) {r : Nat} (inside : r ≤ w) :
    (List.range' 0 r).find? x.getLsbD =
      if x &&& ~~~(~~~(0#w) <<< r) = 0#w then none
      else some (countTrailingZeros (x &&& ~~~(~~~(0#w) <<< r))) := by
  have above : (List.range' r (w - r)).find? (x &&& ~~~(~~~(0#w) <<< r)).getLsbD = none := by
    refine List.find?_eq_none.mpr fun i mem => ?_
    obtain ⟨low, high⟩ := List.mem_range'_1.mp mem
    rw [BitVec.getLsbD_and, BitVec.getLsbD_not, getLsbD_high r (by omega)]
    simp [low]
  have below : (List.range' 0 r).find? x.getLsbD =
      (List.range' 0 r).find? (x &&& ~~~(~~~(0#w) <<< r)).getLsbD := by
    refine List.find?_congr fun i mem => ?_
    obtain ⟨-, high⟩ := List.mem_range'_1.mp mem
    have early : i < r := by omega
    have bit : i < w := Nat.lt_of_lt_of_le early inside
    rw [BitVec.getLsbD_and, BitVec.getLsbD_not, getLsbD_high r bit]
    simp [early, bit]
  rw [← find_range, range_split inside, List.find?_append, above, Option.or_none, below]

end Bits
