import JLibSched.Lib.Transition

/-!
# Families of call stacks

Each thread of a finite family has a stack of frames, innermost call first.  A step replaces
what is on top of one stack: a frame by the frames it goes on with, or nothing by a new call.

`total` sums a weight over all frames.  A weight that is one on the frames that hold some
resource counts its holders, and a step changes the count by what it replaces
(`total_replace`).  When there is one holder and it is on top, no other frame is one
(`others_zero`).
-/

namespace Stacks

open Transition

variable {n : Nat} {φ : Type*} {stack : Fin n → List φ} {old new rest : List φ} {i : Fin n}

/-- The stacks after a step of thread `i`. -/
def replace (stack : Fin n → List φ) (i : Fin n) (new rest : List φ) : Fin n → List φ :=
  Function.update stack i (new ++ rest)

theorem replace_self (here : stack i = new ++ rest) : replace stack i new rest = stack := by
  unfold replace
  rw [← here]
  exact Function.update_eq_self i stack

/-- The sum of a weight over all frames. -/
def total (w : φ → Nat) (stack : Fin n → List φ) : Nat :=
  ∑ j, ((stack j).map w).sum

theorem total_replace (w : φ → Nat) (new : List φ) (here : stack i = old ++ rest) :
    total w (replace stack i new rest) + (old.map w).sum =
      total w stack + (new.map w).sum := by
  have moved := sum_update (fun frames : List φ => (frames.map w).sum) stack i (new ++ rest)
  simp only [here, List.map_append, List.sum_append] at moved
  unfold total replace
  omega

theorem sum_le_total (w : φ → Nat) (here : stack i = old ++ rest) :
    (old.map w).sum ≤ total w stack := by
  have moved := total_replace w [] here
  simp only [List.map_nil, List.sum_nil] at moved
  omega

theorem le_total (w : φ → Nat) {f : φ} (mem : f ∈ stack i) : w f ≤ total w stack :=
  calc w f ≤ ((stack i).map w).sum := List.le_sum_of_mem (List.mem_map_of_mem mem)
    _ ≤ total w stack := le_sum (fun frames : List φ => (frames.map w).sum) stack i

theorem total_mono {v w : φ → Nat} (le : ∀ f, v f ≤ w f) : total v stack ≤ total w stack := by
  refine Finset.sum_le_sum fun j _ => ?_
  induction stack j with
  | nil => exact Nat.le_refl _
  | cons f rest ih =>
    simp only [List.map_cons, List.sum_cons]
    exact Nat.add_le_add (le f) ih

theorem total_empty (w : φ → Nat) (stack : Fin n → List φ) (empty : ∀ j, stack j = []) :
    total w stack = 0 := by
  simp [total, empty]

/-- Every frame of every thread. -/
def All (P : φ → Prop) (stack : Fin n → List φ) : Prop := ∀ j, ∀ f ∈ stack j, P f

theorem mem_replace {j : Fin n} {f : φ} (here : stack i = old ++ rest)
    (mem : f ∈ replace stack i new rest j) : f ∈ new ∨ f ∈ stack j := by
  unfold replace at mem
  rcases eq_or_ne j i with rfl | other
  · rw [Function.update_self, List.mem_append] at mem
    refine mem.imp_right fun later => ?_
    rw [here]
    exact List.mem_append_right _ later
  · rw [Function.update_of_ne other] at mem
    exact .inr mem

/-- A frame after the step is new, or below the new ones, or of another thread. -/
theorem mem_replace_cases {j : Fin n} {f : φ} (mem : f ∈ replace stack i new rest j) :
    j = i ∧ f ∈ new ∨ j = i ∧ f ∈ rest ∨ j ≠ i ∧ f ∈ stack j := by
  unfold replace at mem
  rcases eq_or_ne j i with rfl | other
  · rw [Function.update_self, List.mem_append] at mem
    exact mem.imp (⟨rfl, ·⟩) fun later => .inl ⟨rfl, later⟩
  · rw [Function.update_of_ne other] at mem
    exact .inr (.inr ⟨other, mem⟩)

/-- What holds of the new frames and still holds of the old ones holds of all. -/
theorem All.replace {P Q : φ → Prop} (all : All P stack) (here : stack i = old ++ rest)
    (fresh : ∀ f ∈ new, Q f) (kept : ∀ f, P f → Q f) : All Q (replace stack i new rest) := by
  intro j f mem
  rcases mem_replace here mem with added | before
  · exact fresh f added
  · exact kept f (all j f before)

/-- With one holder, and that on top, no other frame is one. -/
theorem others_zero {w : φ → Nat} {f : φ} (here : stack i = f :: rest)
    (single : total w stack ≤ 1) (holder : w f = 1) :
    All (fun g => w g = 0) (Stacks.replace stack i [] rest) := by
  have moved := total_replace w [] (show stack i = [f] ++ rest from here)
  simp only [List.map_cons, List.map_nil, List.sum_cons, List.sum_nil] at moved
  intro j g mem
  have bound := le_total w mem
  omega

/-- The same rule, where the old frames also have weight zero. -/
theorem All.replace_single {P Q : φ → Prop} {w : φ → Nat} {f : φ} (all : All P stack)
    (here : stack i = f :: rest) (single : total w stack ≤ 1) (holder : w f = 1)
    (fresh : ∀ g ∈ new, Q g) (kept : ∀ g, P g → w g = 0 → Q g) :
    All Q (Stacks.replace stack i new rest) := by
  have zero := others_zero here single holder
  intro j g mem
  unfold Stacks.replace at mem zero
  rcases eq_or_ne j i with rfl | other
  · have light := zero j g
    rw [Function.update_self, List.mem_append] at mem
    rw [Function.update_self, List.nil_append] at light
    rcases mem with added | later
    · exact fresh g added
    · refine kept g (all j g ?_) (light later)
      rw [here]
      exact List.mem_cons_of_mem _ later
  · have light := zero j g
    rw [Function.update_of_ne other] at mem light
    exact kept g (all j g mem) (light mem)

end Stacks
