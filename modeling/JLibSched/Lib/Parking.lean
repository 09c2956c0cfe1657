import Mathlib.Logic.Basic

/-!
# Sleeping after a last look

A sleeper says in a word that it is about to sleep, looks at each of its sources once more, and
sleeps while the word stays as it left it.  Whoever fills a source changes the word afterwards, and
then wakes the sleeper if it had found the word so.

`Protocol` names what such a program is made of, and `Moves` says what one step of it may do.  Then
nothing is overlooked: what is in a source that the sleeper has looked at will still be announced,
and a sleeper whose word was changed will still be woken.
-/

namespace Parking

/-- What is read off a state: `ι` are the things that may lie in a source. -/
structure Protocol (σ ι : Type*) where
  /-- The word says that the sleeper is about to sleep. -/
  parked : σ → Prop
  /-- The sleeper has looked for the thing since it has said so. -/
  looked : σ → ι → Prop
  /-- The thing lies in its source. -/
  present : σ → ι → Prop
  /-- Somebody has still to change the word because of the thing. -/
  owed : σ → ι → Prop
  asleep : σ → Prop
  /-- Somebody has changed the word and has still to wake the sleeper. -/
  waking : σ → Prop

variable {σ ι : Type*} {protocol : Protocol σ ι} {s t : σ}

/-- Nothing is overlooked, and no wake is lost. -/
structure Protocol.Watchful (protocol : Protocol σ ι) (s : σ) : Prop where
  announced : protocol.parked s → ∀ i, protocol.looked s i → protocol.present s i →
    protocol.owed s i
  woken : protocol.asleep s → protocol.parked s ∨ protocol.waking s

/-- What one step may do. -/
structure Protocol.Moves (protocol : Protocol σ ι) (s t : σ) : Prop where
  /-- What the sleeper looks for and does not stop at is not there. -/
  looks : protocol.parked t → ∀ i, protocol.looked t i →
    protocol.parked s ∧ protocol.looked s i ∨ ¬ protocol.present t i
  /-- Whoever fills a source behind the sleeper's back owes the change of the word. -/
  fills : protocol.parked t → ∀ i, protocol.looked t i → protocol.present t i →
    protocol.present s i ∨ protocol.owed t i
  /-- Nobody forgets what he owes. -/
  pays : protocol.parked t → ∀ i, protocol.owed s i → protocol.present t i → protocol.owed t i
  /-- The sleeper falls asleep over its own word, and whoever changes that word wakes it. -/
  wakes : protocol.asleep t → protocol.parked t ∨ protocol.waking t ∨
    protocol.asleep s ∧ ¬ protocol.parked s ∧ (protocol.waking s → protocol.waking t)

/-- The rule of a step. -/
theorem Protocol.Watchful.step (watchful : protocol.Watchful s) (moves : protocol.Moves s t) :
    protocol.Watchful t where
  announced parked i looked present := by
    rcases moves.looks parked i looked with ⟨before, old⟩ | absent
    · rcases moves.fills parked i looked present with here | owed
      · exact moves.pays parked i (watchful.announced before i old here) present
      · exact owed
    · exact absurd present absent
  woken asleep := by
    rcases moves.wakes asleep with parked | waking | ⟨before, changed, kept⟩
    · exact .inl parked
    · exact .inr waking
    · exact .inr (kept ((watchful.woken before).resolve_left changed))

/-- With nobody on the way to it, a sleeper has nothing left to find. -/
theorem Protocol.Watchful.rests (watchful : protocol.Watchful s) (asleep : protocol.asleep s)
    (calm : ¬ protocol.waking s) (paid : ∀ i, ¬ protocol.owed s i) (i : ι)
    (looked : protocol.looked s i) : ¬ protocol.present s i := by
  intro present
  have parked := (watchful.woken asleep).resolve_right calm
  exact paid i (watchful.announced parked i looked present)

end Parking
