import JLibSched.Future.Cancellation
import JLibSched.Scopes.Ended

/-!
# A token that comes back

A waiter with the token of a scope that has ended lies within no scope, so a sweep leaves it in the
list.  After `2 ^ 16` scopes in the slot the token is that of a new scope, which may be made with
the token of the swept one.
-/

namespace JLibSched.Future

open Transition Cancel Links

variable {n : Nat} {s t : State n} {i w : Nat}

/-- The scopes take their steps, and the swept ones stay marked. -/
theorem reach_scopes {x : Scopes.State} (reach : Reach Scopes.step (Scopes.onlySlot i) s.scopes x)
    (marked : ∀ tok ∈ s.swept, Marked s.scopes.slots tok) (apart : ∀ tok ∈ s.swept, index tok ≠ i) :
    Reach step anyStep s { s with scopes := x } := by
  induction reach with
  | start => exact .start
  | next before allowed stepped ih =>
    rename_i y z a
    refine ih.next (a := .scopes a) trivial ?_
    simp only [step]
    rw [stepped]
    have stay : s.swept.filter (fun tok => decide (Marked z.slots tok)) = s.swept := by
      refine List.filter_eq_self.mpr fun tok mem => decide_eq_true ?_
      have slot := Scopes.slots_of_onlySlot (before.next allowed stepped) (apart tok mem)
      obtain ⟨valid, small, fits, bit⟩ := marked tok mem
      exact ⟨valid, small, by rw [slot]; exact fits, by rw [slot]; exact bit⟩
    simp only [Option.map_some, stay]

/-- A constructor on its way to writing the parent, in slot `i`. -/
structure Making (x y : Scopes.State) (i : Nat) (phase : Scopes.Phase) : Prop where
  reach : Reach Scopes.step (Scopes.onlySlot i) x y
  here : y.phase x.made = phase
  others : ∀ k, k ≠ x.made → y.phase k = x.phase k
  raw : y.raw = x.raw
  generation : (y.slots i).genOf = (x.slots i).genOf

section Making

variable {x y : Scopes.State} {p : Nat}

theorem create_making (rests : ∀ k, (x.phase k).atRest = true) (free : x.freeHead = some i)
    (made : (x.phase p).made = true) :
    ∃ y, Making x y i (.resolving i (x.raw p)) ∧ y.slots = x.slots := by
  have stepped : Scopes.step x (.create (some p)) = some (x.create (some p)) := by
    rw [Scopes.step, if_pos]
    intro k same
    cases same
    exact made
  have slots : (x.create (some p)).slots = x.slots := by
    unfold Scopes.State.create
    rw [free]
    rfl
  have allowed : Scopes.onlySlot i x (.create (some p)) := by
    refine ⟨fun k _ => rests k, fun t stepped' j _ => ?_⟩
    cases stepped.symm.trans stepped'
    rw [slots]
  refine ⟨x.create (some p), ⟨Reach.start.next allowed stepped, ?_, fun k other => ?_, ?_, ?_⟩,
    slots⟩
  all_goals
    unfold Scopes.State.create
    rw [free]
    simp only [Scopes.State.go, Scopes.firstPhase]
  · exact Function.update_self _ _ _
  · exact Function.update_of_ne other _ _

theorem Making.resolve {parent : Nat} (making : Making x y i (.resolving i parent))
    (found : Scopes.finds y.slots parent = true) :
    ∃ z, Making x z i (.storing i parent) := by
  have stepped : Scopes.step y (.advance x.made) =
      some { y.go x.made (.storing i parent) with
        parent := Function.update y.parent x.made (y.within x.made) } := by
    simp only [Scopes.step, Scopes.advance]
    rw [making.here]
    simp only [found, if_true]
  have allowed : Scopes.onlySlot i y (.advance x.made) := by
    refine ⟨trivial, fun t stepped' j _ => ?_⟩
    cases stepped.symm.trans stepped'
    rfl
  exact ⟨_, making.reach.next allowed stepped, Function.update_self _ _ _,
    fun k other => (Function.update_of_ne other _ _).trans (making.others k other), making.raw,
    making.generation⟩

theorem Making.store {parent : Nat} (making : Making x y i (.storing i parent)) :
    ∃ z, Making x z i (.reading i) ∧ (z.slots i).parent = parent := by
  have stepped : Scopes.step y (.advance x.made) =
      some ((y.go x.made (.reading i)).write i { y.slots i with parent := parent }) := by
    simp only [Scopes.step, Scopes.advance]
    rw [making.here]
  have allowed : Scopes.onlySlot i y (.advance x.made) := by
    refine ⟨trivial, fun t stepped' j other => ?_⟩
    cases stepped.symm.trans stepped'
    exact Function.update_of_ne other _ _
  refine ⟨_, ⟨making.reach.next allowed stepped, Function.update_self _ _ _,
    fun k other => (Function.update_of_ne other _ _).trans (making.others k other), making.raw,
    ?_⟩, ?_⟩
  · simp only [Scopes.State.write, Function.update_self]
    exact making.generation
  · simp only [Scopes.State.write, Function.update_self]

end Making

/-- Party 0 waits with the token of scope 0, which ends.  Scope 1 is cancelled and swept. -/
def outlivedLabels : List (Label 2) :=
  [.scopes (.create none), .scopes (.advance 0), .scopes (.advance 0), .scopes (.create none),
    .scopes (.advance 1), .scopes (.advance 1), .readyOrQueue 0 (some 0), .scopes (.destroy 0),
    .scopes (.advance 0), .scopes (.advance 0), .scopes (.cancel 1), .cancelWaiters 1 (some 1),
    .advance 1]

def outlived : State 2 := (run step scopesLast (initial 2) outlivedLabels).getD (initial 2)

theorem outlived_reached : Reach step scopesLast (initial 2) outlived :=
  Reach.of_isSome outlivedLabels (by decide +kernel)

theorem outlived_rests (k : Nat) : (outlived.scopes.phase k).atRest = true := by
  have rests : outlived.scopes.allAtRest := by decide +kernel
  obtain ⟨q, inv, swept⟩ := swept_of_reach outlived_reached
  exact swept.scopes.atRest rests k

/-- A scope is cancelled and swept. -/
def sweptOnceLabels : List (Label 2) :=
  [.scopes (.create none), .scopes (.advance 0), .scopes (.advance 0), .scopes (.cancel 0),
    .cancelWaiters 1 (some 0), .advance 1]

def sweptOnce : State 2 := (run step scopesLast (initial 2) sweptOnceLabels).getD (initial 2)

/-- It ends, and party 0 waits with its token. -/
def staleLabels : List (Label 2) :=
  [.scopes (.destroy 0), .scopes (.advance 0), .scopes (.advance 0), .readyOrQueue 0 (some 0)]

def staleWait : State 2 := (run step scopesLast sweptOnce staleLabels).getD sweptOnce

/-- Scope 1 was cancelled, and a `CancelWaiters` of it has returned.  Then a scope is made with its
token, in the slot of the waiter's scope, and has the token of that one. -/
theorem reused_waiter : ∃ s : State 2, Reach step anyStep (initial 2) s ∧ s.swept = [1] ∧
    s.pc 1 = .idle ∧ s.scopes.phase 1 = .live ∧ s.scopes.raw 1 = 1 ∧ ¬ NoneListed s := by
  have generation : (outlived.scopes.slots 0).generation = 1 := by decide +kernel
  have raw : outlived.scopes.raw 1 = 1 := by decide +kernel
  have live : outlived.scopes.phase 1 = .live := by decide +kernel
  have slot : outlived.scopes.slots 1 = ⟨0, true, kNone⟩ := by decide +kernel
  obtain ⟨x, worn⟩ := Scopes.worn_of_lt (i := 0) (n := 2 ^ 16 - 1) outlived_rests
    (by decide +kernel) (by decide) (by rw [generation]; omega)
  have before : 1 < outlived.scopes.made := by decide +kernel
  obtain ⟨liveX, rawX⟩ := worn.others 1 before
  rw [live] at liveX
  rw [raw] at rawX
  have slotX := Scopes.slots_of_onlySlot worn.reach (j := 1) (by decide)
  rw [slot] at slotX
  obtain ⟨y, created, same⟩ := create_making worn.rests worn.freeHead (p := 1) (by rw [liveX]; rfl)
  rw [rawX] at created
  have found : Scopes.finds y.slots 1 = true := by
    rw [same]
    unfold Scopes.finds Scopes.resolveCancelSlot
    rw [show index 1 = 1 from rfl, slotX]
    rfl
  obtain ⟨z, resolved⟩ := created.resolve found
  obtain ⟨u, stored, parent⟩ := resolved.store
  have reach : Reach step anyStep (initial 2) { outlived with scopes := u } := by
    have marked : ∀ tok ∈ outlived.swept, Marked outlived.scopes.slots tok := by decide +kernel
    have apart : ∀ tok ∈ outlived.swept, index tok ≠ 0 := by decide +kernel
    exact (outlived_reached.weaken fun _ => trivial).trans
      (reach_scopes (worn.reach.trans stored.reach) marked apart)
  have swept : outlived.swept = [1] := by decide +kernel
  have back : outlived.pc 1 = .idle := by decide +kernel
  refine ⟨_, reach, swept, back, ?_, ?_, fun none => ?_⟩
  · have made := worn.made
    exact (stored.others 1 (by omega)).trans liveX
  · rw [stored.raw]
    exact rawX
  · have head : outlived.nodes.waiters = some 0 := by decide +kernel
    have last : outlived.nodes.next 0 = Option.none := by decide +kernel
    have token : outlived.nodes.token 0 = 0 := by decide +kernel
    have mem : 1 ∈ outlived.swept := by
      rw [swept]
      exact List.mem_cons_self
    have outside := none [0] ⟨head, last⟩ 0 List.mem_cons_self 1 mem
    have current : (u.slots 0).genOf = gen 0 := by
      rw [stored.generation]
      unfold Slot.genOf
      rw [worn.generation, generation]
      rfl
    have inside : isWithin u.slots 0 1 = true := by
      unfold isWithin
      rw [if_neg (by decide), show kMaxScopeDepth = 6 + 1 + 1 from rfl, isWithinFrom,
        show index 0 = 0 from rfl, if_neg (by decide), if_neg (by decide), if_neg (by decide),
        if_neg (not_not.mpr current), parent]
      rfl
    simp only [token, inside] at outside
    cases outside

/-- A waiter is queued within a scope that was cancelled and swept: one whose own token has come round,
and one that waits with the token of the swept scope after that has ended. -/
theorem revived_waiter :
    (∃ s : State 2, Reach step anyStep (initial 2) s ∧ s.swept = [1] ∧
      s.pc 1 = .idle ∧ s.scopes.phase 1 = .live ∧ s.scopes.raw 1 = 1 ∧ ¬ NoneListed s) ∧
    ∃ s t : State 2, Reach step scopesLast (initial 2) s ∧ s.swept = [0] ∧ s.pc 1 = .idle ∧
      s.scopes.raw 0 = 0 ∧ Reach step scopesLast s t ∧ t.scopes.phase 0 = .gone ∧
      t.nodes.waiters = some 0 ∧ isWithin t.scopes.slots (t.nodes.token 0) 0 = true :=
  ⟨reused_waiter, sweptOnce, staleWait, Reach.of_isSome sweptOnceLabels (by decide +kernel),
    by decide +kernel, by decide +kernel, by decide +kernel,
    Reach.of_isSome staleLabels (by decide +kernel), by decide +kernel, by decide +kernel,
    by decide +kernel⟩

end JLibSched.Future
