import JLibSched.Lib.Transition
import Mathlib.Data.List.Nodup

/-!
# What is divided among places

`Divided whole parts`: every element stands in the parts together as often as in the whole.  When
the whole has no duplicates, an element of it stands in one part only, and once.  Elements go from
part to part in batches (`Divided.move`), and the whole may grow (`Divided.grow`).
-/

namespace Division

open Transition

variable {ι α : Type*} [Fintype ι] [DecidableEq ι] [DecidableEq α] {whole : List α}
  {parts : ι → List α} {i j : ι} {x : α}

def Divided (whole : List α) (parts : ι → List α) : Prop :=
  ∀ x, ∑ i, (parts i).count x = whole.count x

omit [DecidableEq ι] in
theorem Divided.mem (divided : Divided whole parts) (mem : x ∈ parts i) : x ∈ whole := by
  have some := List.count_pos_iff.mpr mem
  have most := le_sum (List.count x) parts i
  have all := divided x
  exact List.count_pos_iff.mp (by omega)

omit [DecidableEq ι] in
theorem Divided.nodup (divided : Divided whole parts) (nodup : whole.Nodup) : (parts i).Nodup := by
  refine List.nodup_iff_count_le_one.mpr fun x => ?_
  calc (parts i).count x ≤ ∑ j, (parts j).count x := le_sum (List.count x) parts i
    _ = whole.count x := divided x
    _ ≤ 1 := List.nodup_iff_count_le_one.mp nodup x

/-- What stands in one part stands in no other. -/
theorem Divided.apart (divided : Divided whole parts) (nodup : whole.Nodup) (other : i ≠ j)
    (mem : x ∈ parts i) : x ∉ parts j := by
  intro also
  have some := List.count_pos_iff.mpr mem
  have more := List.count_pos_iff.mpr also
  have most := le_sum (List.count x) (Function.update parts i []) j
  have without := sum_update (List.count x) parts i []
  rw [Function.update_of_ne other.symm] at most
  rw [List.count_nil] at without
  have all := divided x
  have once := List.nodup_iff_count_le_one.mp nodup x
  omega

/-- Every element stands in exactly one part. -/
theorem Divided.existsUnique (divided : Divided whole parts) (nodup : whole.Nodup)
    (mem : x ∈ whole) : ∃! i, x ∈ parts i := by
  have some : ∃ i, x ∈ parts i := by
    by_contra missing
    have none : ∑ i, (parts i).count x = 0 :=
      Finset.sum_eq_zero fun i _ => List.count_eq_zero.mpr fun mem => missing ⟨i, mem⟩
    rw [divided x] at none
    exact List.count_eq_zero.mp none mem
  obtain ⟨i, here⟩ := some
  refine ⟨i, here, fun j also => ?_⟩
  by_contra other
  exact divided.apart nodup other also here

/-- A batch goes from one part to another. -/
theorem Divided.move (divided : Divided whole parts) (other : i ≠ j) (batch rest target : List α)
    (split : ∀ x, (parts i).count x = batch.count x + rest.count x)
    (joined : ∀ x, target.count x = batch.count x + (parts j).count x) :
    Divided whole (Function.update (Function.update parts i rest) j target) := by
  intro x
  have first := sum_update (List.count x) parts i rest
  have second := sum_update (List.count x) (Function.update parts i rest) j target
  rw [Function.update_of_ne other.symm] at second
  have all := divided x
  have split := split x
  have joined := joined x
  omega

/-- The whole grows, and so does a part. -/
theorem Divided.grow (divided : Divided whole parts) (extra target : List α) {whole' : List α}
    (grown : ∀ x, whole'.count x = extra.count x + whole.count x)
    (joined : ∀ x, target.count x = extra.count x + (parts i).count x) :
    Divided whole' (Function.update parts i target) := by
  intro x
  have moved := sum_update (List.count x) parts i target
  have all := divided x
  have grown := grown x
  have joined := joined x
  omega

/-- When all is in two parts, their lengths add up to the length of the whole. -/
theorem Divided.length (divided : Divided whole parts) (other : i ≠ j)
    (empty : ∀ k, k ≠ i → k ≠ j → parts k = []) :
    (parts i).length + (parts j).length = whole.length := by
  rw [← List.length_append]
  refine (List.perm_iff_count.mpr fun x => ?_).length_eq
  rw [List.count_append, ← divided x, ← Finset.add_sum_erase _ _ (Finset.mem_univ i),
    ← Finset.add_sum_erase (Finset.univ.erase i) _
      (Finset.mem_erase.mpr ⟨other.symm, Finset.mem_univ j⟩)]
  have none : ∑ k ∈ (Finset.univ.erase i).erase j, (parts k).count x = 0 := by
    refine Finset.sum_eq_zero fun k mem => ?_
    rw [Finset.mem_erase, Finset.mem_erase] at mem
    rw [empty k mem.2.1 mem.1]
    exact List.count_nil
  rw [none, Nat.add_zero]

end Division
