import JLibSched.Lib.Transition
import Mathlib.Data.List.Perm.Basic

/-!
# Books kept along a run

`entries` says what a step brings in.  What a system holds balances when a step adds to it what the
step brings in and loses nothing; then after a whole run it holds what it held and everything that
came in, each as often (`holds_run`).  A queue is in order when a step leaves a sublist of it with
what the step brings in behind (`ordered_run`).
-/

namespace Ledger

open Transition

variable {σ ℓ β : Type*} {step : σ → ℓ → Option σ} {ok : σ → ℓ → Prop}

/-- What came in along a run. -/
def collect (step : σ → ℓ → Option σ) (entries : σ → ℓ → List β) : σ → List ℓ → List β
  | _, [] => []
  | s, a :: as => entries s a ++
      match step s a with
      | some t => collect step entries t as
      | none => []

variable {entries : σ → ℓ → List β}

@[simp] theorem collect_nil (s : σ) : collect step entries s [] = [] := rfl

@[simp] theorem collect_cons {s t : σ} {a : ℓ} (as : List ℓ) (stepped : step s a = some t) :
    collect step entries s (a :: as) = entries s a ++ collect step entries t as := by
  simp only [collect, stepped]

/-- What came in, looked at one by one. -/
theorem collect_map {γ : Type*} (f : β → γ) (s : σ) (as : List ℓ) :
    collect step (fun s a => (entries s a).map f) s as = (collect step entries s as).map f := by
  induction as generalizing s with
  | nil => rfl
  | cons a as ih =>
    simp only [collect, List.map_append]
    cases step s a with
    | none => rfl
    | some t => exact congrArg _ (ih t)

/-- A step adds what it brings in, and loses nothing. -/
def Balances (step : σ → ℓ → Option σ) (ok : σ → ℓ → Prop) (entries : σ → ℓ → List β)
    (holds : σ → List β) : Prop :=
  ∀ s a t, ok s a → step s a = some t → (holds t).Perm (holds s ++ entries s a)

/-- A step may drop something, and adds at the end what it brings in. -/
def Ordered (step : σ → ℓ → Option σ) (ok : σ → ℓ → Prop) (entries : σ → ℓ → List β)
    (queue : σ → List β) : Prop :=
  ∀ s a t, ok s a → step s a = some t → (queue t).Sublist (queue s ++ entries s a)

section Runs

variable [∀ s a, Decidable (ok s a)] {s t : σ} {as : List ℓ}

/-- The first step of a run. -/
theorem run_cons {a : ℓ} (ran : run step ok s (a :: as) = some t) :
    ∃ u, ok s a ∧ step s a = some u ∧ run step ok u as = some t := by
  simp only [run] at ran
  split at ran
  · rename_i allowed
    obtain ⟨u, stepped, rest⟩ := Option.bind_eq_some_iff.mp ran
    exact ⟨u, allowed, stepped, rest⟩
  · cases ran

/-- The state a run ends in. -/
theorem run_getD (ran : (run step ok s as).isSome = true) :
    run step ok s as = some ((run step ok s as).getD s) := by
  obtain ⟨t, ended⟩ := Option.isSome_iff_exists.mp ran
  rw [ended]
  rfl

theorem Balances.holds_run {holds : σ → List β} (balances : Balances step ok entries holds)
    (ran : run step ok s as = some t) : (holds t).Perm (holds s ++ collect step entries s as) := by
  induction as generalizing s with
  | nil =>
    cases ran
    simp
  | cons a as ih =>
    obtain ⟨u, allowed, stepped, rest⟩ := run_cons ran
    rw [collect_cons as stepped, ← List.append_assoc]
    exact (ih rest).trans ((balances s a u allowed stepped).append_right _)

theorem Ordered.queue_run {queue : σ → List β} (ordered : Ordered step ok entries queue)
    (ran : run step ok s as = some t) :
    (queue t).Sublist (queue s ++ collect step entries s as) := by
  induction as generalizing s with
  | nil =>
    cases ran
    simp
  | cons a as ih =>
    obtain ⟨u, allowed, stepped, rest⟩ := run_cons ran
    rw [collect_cons as stepped, ← List.append_assoc]
    exact (ih rest).trans ((ordered s a u allowed stepped).append_right _)

end Runs

end Ledger
