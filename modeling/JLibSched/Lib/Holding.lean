import Mathlib.Logic.Function.Basic

/-!
# Who holds what

Each place holds at most one resource, with a note on how, and each resource is held in at most
one place.  `f` says what a place holds and `g` where a resource is held; `Tracks f g` says that
they agree, which makes both injective.  When a resource changes hands, both are updated.
-/

namespace Holding

variable {α β γ : Type*}

/-- `f` and `g` say the same. -/
def Tracks (f : α → Option (β × γ)) (g : β → Option (α × γ)) : Prop :=
  ∀ a b x, f a = some (b, x) ↔ g b = some (a, x)

variable {f : α → Option (β × γ)} {g : β → Option (α × γ)} {a a' : α} {b : β} {x x' : γ}

theorem Tracks.single (tracks : Tracks f g) (one : f a = some (b, x)) (two : f a' = some (b, x')) :
    a = a' := by
  have first := (tracks a b x).mp one
  have second := (tracks a' b x').mp two
  rw [first] at second
  cases second
  rfl

theorem Tracks.isSome_iff (tracks : Tracks f g) :
    (g b).isSome = true ↔ ∃ a x, f a = some (b, x) := by
  constructor
  · intro held
    obtain ⟨⟨a, x⟩, here⟩ := Option.isSome_iff_exists.mp held
    exact ⟨a, x, (tracks a b x).mpr here⟩
  · rintro ⟨a, x, here⟩
    rw [(tracks a b x).mp here]
    rfl

section Updates

variable [DecidableEq α] [DecidableEq β]

/-- A place gives a resource up. -/
theorem Tracks.drop (tracks : Tracks f g) (here : f a = some (b, x)) :
    Tracks (Function.update f a none) (Function.update g b none) := by
  intro p r y
  rcases eq_or_ne p a with rfl | other <;> rcases eq_or_ne r b with rfl | apart
  · simp
  · have agree := tracks p r y
    rw [here] at agree
    rw [Function.update_self, Function.update_of_ne apart, ← agree]
    simp [apart.symm]
  · have agree := tracks p r y
    rw [(tracks a r x).mp here] at agree
    rw [Function.update_of_ne other, Function.update_self, agree]
    simp [other.symm]
  · rw [Function.update_of_ne other, Function.update_of_ne apart]
    exact tracks p r y

/-- A place that holds nothing takes a resource that nobody holds. -/
theorem Tracks.take (tracks : Tracks f g) (empty : f a = none) (free : g b = none) (x : γ) :
    Tracks (Function.update f a (some (b, x))) (Function.update g b (some (a, x))) := by
  intro p r y
  rcases eq_or_ne p a with rfl | other <;> rcases eq_or_ne r b with rfl | apart
  · simp
  · have agree := tracks p r y
    rw [empty] at agree
    rw [Function.update_self, Function.update_of_ne apart, ← agree]
    simp [apart.symm]
  · have agree := tracks p r y
    rw [free] at agree
    rw [Function.update_of_ne other, Function.update_self, agree]
    simp [other.symm]
  · rw [Function.update_of_ne other, Function.update_of_ne apart]
    exact tracks p r y

/-- A place goes on with the resource it holds. -/
theorem Tracks.keep (tracks : Tracks f g) (here : f a = some (b, x)) (x' : γ) :
    Tracks (Function.update f a (some (b, x'))) (Function.update g b (some (a, x'))) := by
  have dropped := tracks.drop here
  have taken := dropped.take (Function.update_self a none f) (Function.update_self b none g) x'
  rwa [Function.update_idem, Function.update_idem] at taken

/-- A resource goes to a place that holds nothing. -/
theorem Tracks.pass (tracks : Tracks f g) (here : f a = some (b, x)) (empty : f a' = none)
    (x' : γ) :
    Tracks (Function.update (Function.update f a none) a' (some (b, x')))
      (Function.update g b (some (a', x'))) := by
  have apart : a' ≠ a := by
    rintro rfl
    rw [here] at empty
    cases empty
  have dropped := tracks.drop here
  have taken := dropped.take (by rw [Function.update_of_ne apart]; exact empty)
    (Function.update_self b none g) x'
  rwa [Function.update_idem] at taken

end Updates

end Holding
