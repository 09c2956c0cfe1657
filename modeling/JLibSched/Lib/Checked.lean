import Mathlib.Algebra.Order.Ring.Int
import Mathlib.Tactic.Linarith

/-!
# Arithmetic in a signed machine integer

A machine integer keeps the numbers from `-half` to `half - 1`, and an operation whose exact result
lies outside wraps around.  A computation is kept together with the exact result of each of its
operations, so that one definition says what the machine comes to and where it leaves the range.
As long as no result leaves it, the machine computes with the numbers themselves.
-/

namespace Checked

variable {α β : Type*}

/-- The number is one of the machine's. -/
def InRange (half x : Int) : Prop := -half ≤ x ∧ x < half

instance (half x : Int) : Decidable (InRange half x) :=
  inferInstanceAs (Decidable (-half ≤ x ∧ x < half))

/-- What the machine keeps of a number. -/
def wrap (half x : Int) : Int := (x + half) % (2 * half) - half

theorem wrap_of_inRange {half x : Int} (inside : InRange half x) : wrap half x = x := by
  obtain ⟨low, high⟩ := inside
  unfold wrap
  rw [Int.emod_eq_of_lt (by omega) (by omega)]
  omega

/-- A result, and the exact results of the operations that led to it. -/
structure Computed (α : Type*) where
  value : α
  results : List Int
deriving DecidableEq

instance : Monad Computed where
  pure x := ⟨x, []⟩
  bind m f := ⟨(f m.value).value, m.results ++ (f m.value).results⟩

/-- One operation. -/
def op (half exact : Int) : Computed Int := ⟨wrap half exact, [exact]⟩

/-- No operation leaves the range. -/
def Computed.Fits (half : Int) (m : Computed α) : Prop := ∀ x ∈ m.results, InRange half x

instance (half : Int) (m : Computed α) : Decidable (m.Fits half) :=
  inferInstanceAs (Decidable (∀ x ∈ m.results, InRange half x))

section Rules

variable {half : Int} {α β : Type} {m : Computed α} {f : α → Computed β}

@[simp] theorem value_pure (x : α) : (pure x : Computed α).value = x := rfl

@[simp] theorem value_bind : (m >>= f).value = (f m.value).value := rfl

@[simp] theorem fits_pure (x : α) : (pure x : Computed α).Fits half := fun _ mem => by cases mem

@[simp] theorem fits_bind : (m >>= f).Fits half ↔ m.Fits half ∧ (f m.value).Fits half := by
  constructor
  · intro fits
    exact ⟨fun x mem => fits x (List.mem_append_left _ mem),
      fun x mem => fits x (List.mem_append_right _ mem)⟩
  · rintro ⟨first, rest⟩ x mem
    rcases List.mem_append.mp mem with mem | mem
    · exact first x mem
    · exact rest x mem

@[simp] theorem fits_op (exact : Int) : (op half exact).Fits half ↔ InRange half exact :=
  ⟨fun fits => fits exact List.mem_cons_self, fun inside _ mem => List.mem_singleton.mp mem ▸ inside⟩

theorem value_op {exact : Int} (inside : InRange half exact) : (op half exact).value = exact :=
  wrap_of_inRange inside

/-- After an operation that stays in the range, the rest goes on with its exact result. -/
theorem fits_op_bind {exact : Int} {f : Int → Computed β} :
    (op half exact >>= f).Fits half ↔ InRange half exact ∧ (f exact).Fits half := by
  rw [fits_bind, fits_op]
  constructor
  · rintro ⟨inside, rest⟩
    rw [value_op inside] at rest
    exact ⟨inside, rest⟩
  · rintro ⟨inside, rest⟩
    rw [value_op inside]
    exact ⟨inside, rest⟩

theorem value_op_bind {exact : Int} {f : Int → Computed β} (inside : InRange half exact) :
    (op half exact >>= f).value = (f exact).value := by
  rw [value_bind, value_op inside]

end Rules

end Checked
