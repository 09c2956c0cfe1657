import Mathlib.Logic.Function.Basic
import Mathlib.Algebra.BigOperators.Fin
import Mathlib.Algebra.Order.BigOperators.Group.Finset

/-!
# Labelled transition systems with a step function

A concurrent program is given by a partial step function `step : σ → ℓ → Option σ`.  The
label carries every choice the program does not make itself: which thread moves, what a
clock reads, whether a weak compare-exchange fails.  A run is a list of labels.

`Reach step ok s₀` is the set of states reached from `s₀` by steps that all satisfy the
side condition `ok`, which may look at the state before the step.  With `ok` always true
it is plain reachability.  An invariant is proved once for the start state and once for a
step (`Reach.invariant`), and a fact that needs another invariant first is proved relative
to it (`Reach.invariant_of`).
-/

namespace Transition

variable {σ ℓ : Type*}

/-- The states reached from `s₀` by steps that all satisfy `ok`. -/
inductive Reach (step : σ → ℓ → Option σ) (ok : σ → ℓ → Prop) (s₀ : σ) : σ → Prop where
  | start : Reach step ok s₀ s₀
  | next {s t : σ} {a : ℓ} :
      Reach step ok s₀ s → ok s a → step s a = some t → Reach step ok s₀ t

/-- Every step is allowed. -/
def anyStep : σ → ℓ → Prop := fun _ _ => True

instance (s : σ) (a : ℓ) : Decidable (anyStep s a) := isTrue trivial

/-- The state after a list of labels, if every step of it is allowed and enabled. -/
def run (step : σ → ℓ → Option σ) (ok : σ → ℓ → Prop) [∀ s a, Decidable (ok s a)] :
    σ → List ℓ → Option σ
  | s, [] => some s
  | s, a :: as => if ok s a then (step s a).bind fun t => run step ok t as else none

section Rules

variable {step : σ → ℓ → Option σ} {ok : σ → ℓ → Prop} {s₀ : σ}

/-- A predicate that holds at the start and survives every allowed step holds throughout. -/
theorem Reach.invariant {I : σ → Prop} (start : I s₀)
    (preserved : ∀ {s t a}, I s → ok s a → step s a = some t → I t) :
    ∀ {s}, Reach step ok s₀ s → I s := by
  intro s reach
  induction reach with
  | start => exact start
  | next _ allowed stepped ih => exact preserved ih allowed stepped

/-- The same rule when the step lemma may use an invariant proved before. -/
theorem Reach.invariant_of {J I : σ → Prop} (known : ∀ {s}, Reach step ok s₀ s → J s)
    (start : I s₀)
    (preserved : ∀ {s t a}, J s → I s → ok s a → step s a = some t → I t) :
    ∀ {s}, Reach step ok s₀ s → I s := by
  intro s reach
  induction reach with
  | start => exact start
  | next before allowed stepped ih => exact preserved (known before) ih allowed stepped

/-- A stronger side condition reaches fewer states. -/
theorem Reach.weaken {ok' : σ → ℓ → Prop} (weaker : ∀ {s a}, ok s a → ok' s a) :
    ∀ {s}, Reach step ok s₀ s → Reach step ok' s₀ s := by
  intro s reach
  induction reach with
  | start => exact .start
  | next _ allowed stepped ih => exact ih.next (weaker allowed) stepped

/-- One run goes on where another one ends. -/
theorem Reach.trans {t u : σ} (first : Reach step ok s₀ t) (second : Reach step ok t u) :
    Reach step ok s₀ u := by
  induction second with
  | start => exact first
  | next _ allowed stepped ih => exact ih.next allowed stepped

/-- A run reaches its last state. -/
theorem Reach.of_run [∀ s a, Decidable (ok s a)] {t : σ} :
    ∀ {as : List ℓ} {s : σ}, Reach step ok s₀ s → run step ok s as = some t →
      Reach step ok s₀ t
  | [], s, reach, ran => by
      simp only [run, Option.some.injEq] at ran
      exact ran ▸ reach
  | a :: as, s, reach, ran => by
      simp only [run] at ran
      split at ran
      · rename_i allowed
        obtain ⟨u, stepped, rest⟩ := Option.bind_eq_some_iff.mp ran
        exact Reach.of_run (reach.next allowed stepped) rest
      · cases ran

/-- The state a run ends in is reached. -/
theorem Reach.of_isSome [∀ s a, Decidable (ok s a)] (as : List ℓ)
    (ran : (run step ok s₀ as).isSome = true) :
    Reach step ok s₀ ((run step ok s₀ as).getD s₀) := by
  obtain ⟨t, ended⟩ := Option.isSome_iff_exists.mp ran
  rw [ended]
  exact Reach.of_run .start ended

end Rules

/-! ## Families of threads

The program counters of a finite family of threads are a function, on `Fin n` for `n` threads, and
a step of one thread updates one argument. -/

section Family

variable {ι α : Type*} [Fintype ι] [DecidableEq ι]

/-- The sum of a weight over a family changes by the weight of the updated member. -/
theorem sum_update (weight : α → Nat) (f : ι → α) (i : ι) (b : α) :
    (∑ j, weight (Function.update f i b j)) + weight (f i) =
      (∑ j, weight (f j)) + weight b := by
  have split (g : ι → Nat) : ∑ j, g j = g i + ∑ j ∈ Finset.univ.erase i, g j :=
    (Finset.add_sum_erase _ g (Finset.mem_univ i)).symm
  have rest : ∑ j ∈ Finset.univ.erase i, weight (Function.update f i b j) =
      ∑ j ∈ Finset.univ.erase i, weight (f j) := by
    refine Finset.sum_congr rfl fun j hj => ?_
    rw [Function.update_of_ne (Finset.ne_of_mem_erase hj)]
  rw [split fun j => weight (Function.update f i b j), split fun j => weight (f j), rest]
  simp only [Function.update_self]
  omega

omit [DecidableEq ι] in
/-- A member's weight is at most the sum. -/
theorem le_sum (weight : α → Nat) (f : ι → α) (i : ι) :
    weight (f i) ≤ ∑ j, weight (f j) :=
  Finset.single_le_sum (f := fun j => weight (f j)) (fun _ _ => Nat.zero_le _)
    (Finset.mem_univ i)

omit [Fintype ι] in
/-- A member with a property is still there when the updated one keeps it. -/
theorem exists_update {P : α → Prop} {f : ι → α} {i : ι} {b : α} (found : ∃ j, P (f j))
    (kept : P (f i) → P b) : ∃ j, P (Function.update f i b j) := by
  obtain ⟨j, here⟩ := found
  rcases eq_or_ne j i with rfl | other
  · exact ⟨j, by rw [Function.update_self]; exact kept here⟩
  · exact ⟨j, by rw [Function.update_of_ne other]; exact here⟩

/-! The members of a small family are written as numerals. -/

instance one_ne : NeZero (1 : Nat) := ⟨Nat.succ_ne_zero 0⟩

instance two_ne : NeZero (2 : Nat) := ⟨Nat.succ_ne_zero 1⟩

instance three_ne : NeZero (3 : Nat) := ⟨Nat.succ_ne_zero 2⟩

instance four_ne : NeZero (4 : Nat) := ⟨Nat.succ_ne_zero 3⟩

end Family

end Transition
