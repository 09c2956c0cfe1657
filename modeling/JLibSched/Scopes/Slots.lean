import JLibSched.Lib.Links
import JLibSched.Scopes.Model

/-!
# The slots of scopes

Every slot of the table is in the list of free ones or belongs to one scope (`Owned`), and while it
belongs to a scope it holds what that scope wrote (`Fit`).
-/

namespace JLibSched.Scopes

open Transition Cancel Links

variable {s t : State} {a : Label} {free : List Nat} {i j k p : Nat}

/-! ## Tokens -/

theorem index_tokenOf {slots : Table} (small : i < kCancelSlots) :
    index (tokenOf slots i) = i := by
  unfold index tokenOf
  unfold kCancelSlots at small
  omega

theorem gen_tokenOf {slots : Table} (small : i < kCancelSlots) :
    gen (tokenOf slots i) = (slots i).genOf := by
  unfold gen tokenOf
  unfold kCancelSlots at small
  omega

theorem tokenOf_ne {slots : Table} (small : i < kCancelSlots) : tokenOf slots i ≠ kNone := by
  intro absurd
  have same : index (tokenOf slots i) = i := index_tokenOf small
  rw [absurd] at same
  subst same
  revert small
  decide

theorem finds_none (slots : Table) : finds slots kNone = false := rfl

theorem finds_of_current {slots : Table} {raw : Nat} (inTable : index raw < kCancelSlots)
    (current : (slots (index raw)).genOf = gen raw) : finds slots raw = true := by
  unfold finds resolveCancelSlot
  rw [if_neg (Nat.not_le.mpr inTable), if_neg (not_not.mpr current)]
  rfl

theorem current_of_finds {slots : Table} {raw : Nat} (found : finds slots raw = true) :
    index raw < kCancelSlots ∧ (slots (index raw)).genOf = gen raw := by
  unfold finds resolveCancelSlot at found
  split at found
  · cases found
  · rename_i inTable
    split at found
    · cases found
    · rename_i current
      exact ⟨Nat.lt_of_not_le inTable, not_not.mp current⟩

/-! ## Who owns a slot -/

/-- The slot that a scope holds. -/
def State.slotOf (s : State) (k : Nat) : Option Nat :=
  match s.phase k with
  | .resolving i _ | .storing i _ | .reading i | .clearing i | .releasing i => some i
  | .live => if s.raw k = kNone then none else some (index (s.raw k))
  | .unborn | .gone => none

/-- The slots in `free` follow one another in the list, and the others are held by at most one scope
each. -/
structure Owned (s : State) (free : List Nat) : Prop where
  leads : Leads s.nextFree s.freeHead free none
  nodup : free.Nodup
  small : ∀ i ∈ free, i < kCancelSlots
  held : ∀ k i, s.slotOf k = some i → i < kCancelSlots ∧ i ∉ free
  single : ∀ j k i, s.slotOf j = some i → s.slotOf k = some i → j = k
  unborn : ∀ k, s.made ≤ k → s.phase k = .unborn
  blank : ∀ k, (s.phase k).made = false → s.raw k = kNone

theorem Owned.small_of_held (owned : Owned s free) (held : s.slotOf k = some i) :
    i < kCancelSlots :=
  (owned.held k i held).1

/-- No scope takes or returns a slot. -/
theorem Owned.same (owned : Owned s free) (slotOf : ∀ j, t.slotOf j = s.slotOf j)
    (nextFree : t.nextFree = s.nextFree) (freeHead : t.freeHead = s.freeHead)
    (unborn : ∀ j, t.made ≤ j → t.phase j = .unborn)
    (blank : ∀ j, (t.phase j).made = false → t.raw j = kNone) : Owned t free where
  leads := by
    rw [nextFree, freeHead]
    exact owned.leads
  nodup := owned.nodup
  small := owned.small
  held j i held := owned.held j i (slotOf j ▸ held)
  single j k i heldJ heldK := owned.single j k i (slotOf j ▸ heldJ) (slotOf k ▸ heldK)
  unborn := unborn
  blank := blank

/-- The first free slot goes to a scope. -/
theorem Owned.take {rest : List Nat} (owned : Owned s (i :: rest))
    (taken : t.slotOf k = some i) (others : ∀ j, j ≠ k → t.slotOf j = s.slotOf j)
    (nextFree : t.nextFree = s.nextFree) (freeHead : t.freeHead = s.nextFree i)
    (unborn : ∀ j, t.made ≤ j → t.phase j = .unborn)
    (blank : ∀ j, (t.phase j).made = false → t.raw j = kNone) : Owned t rest where
  leads := by
    rw [nextFree, freeHead]
    exact owned.leads.2
  nodup := (List.nodup_cons.mp owned.nodup).2
  small j mem := owned.small j (List.mem_cons_of_mem i mem)
  held j i' held := by
    rcases eq_or_ne j k with rfl | other
    · cases taken.symm.trans held
      exact ⟨owned.small i List.mem_cons_self, (List.nodup_cons.mp owned.nodup).1⟩
    · rw [others j other] at held
      obtain ⟨small, out⟩ := owned.held j i' held
      exact ⟨small, fun mem => out (List.mem_cons_of_mem i mem)⟩
  single j j' i' held held' := by
    have other {l : Nat} (apart : l ≠ k) (heldL : t.slotOf l = some i) : False := by
      rw [others l apart] at heldL
      exact (owned.held l i heldL).2 List.mem_cons_self
    rcases eq_or_ne j k with rfl | apart
    · cases taken.symm.trans held
      by_contra apart'
      exact other (Ne.symm apart') held'
    · rcases eq_or_ne j' k with rfl | apart'
      · cases taken.symm.trans held'
        exact (other apart held).elim
      · rw [others j apart] at held
        rw [others j' apart'] at held'
        exact owned.single j j' i' held held'
  unborn := unborn
  blank := blank

/-- A scope gives its slot back. -/
theorem Owned.give (owned : Owned s free) (held : s.slotOf k = some i)
    (returned : t.slotOf k = none) (others : ∀ j, j ≠ k → t.slotOf j = s.slotOf j)
    (nextFree : t.nextFree = Function.update s.nextFree i s.freeHead)
    (freeHead : t.freeHead = some i)
    (unborn : ∀ j, t.made ≤ j → t.phase j = .unborn)
    (blank : ∀ j, (t.phase j).made = false → t.raw j = kNone) : Owned t (i :: free) where
  leads := by
    rw [nextFree, freeHead]
    refine ⟨rfl, ?_⟩
    rw [Function.update_self]
    exact owned.leads.write (owned.held k i held).2 _
  nodup := List.nodup_cons.mpr ⟨(owned.held k i held).2, owned.nodup⟩
  small j mem := by
    rcases List.mem_cons.mp mem with rfl | before
    · exact owned.small_of_held held
    · exact owned.small j before
  held j i' heldJ := by
    have apart : j ≠ k := by
      rintro rfl
      cases returned.symm.trans heldJ
    rw [others j apart] at heldJ
    obtain ⟨small, out⟩ := owned.held j i' heldJ
    refine ⟨small, fun mem => ?_⟩
    rcases List.mem_cons.mp mem with rfl | before
    · exact apart (owned.single j k i' heldJ held)
    · exact out before
  single j j' i' heldJ heldJ' := by
    have still {l : Nat} (heldL : t.slotOf l = some i') : s.slotOf l = some i' := by
      rcases eq_or_ne l k with rfl | apart
      · cases returned.symm.trans heldL
      · rwa [others l apart] at heldL
    exact owned.single j j' i' (still heldJ) (still heldJ')
  unborn := unborn
  blank := blank

theorem leads_range {top : Nat} (some' : 0 < top) :
    ∃ free, Leads (fun i => if i + 1 < top then some (i + 1) else none) (some 0) free none ∧
      free.Nodup ∧ ∀ i ∈ free, i < top := by
  obtain ⟨n, rfl⟩ := Nat.exists_eq_succ_of_ne_zero some'.ne'
  refine ⟨_, leads_range' 0 (Nat.zero_add (n + 1)), List.nodup_range', fun i mem => ?_⟩
  obtain ⟨-, below⟩ := List.mem_range'_1.mp mem
  rwa [Nat.zero_add] at below

theorem initial_owned : ∃ free, Owned initial free := by
  have some' : 0 < kCancelSlots := by
    unfold kCancelSlots
    omega
  obtain ⟨free, leads, nodup, small⟩ := leads_range some'
  refine ⟨free, leads, nodup, small, ?_, ?_, fun _ _ => rfl, fun _ _ => rfl⟩
  · intro k i held
    cases held
  · intro j k i held
    cases held

theorem slotOf_congr (phase : t.phase j = s.phase j) (raw : t.raw j = s.raw j) :
    t.slotOf j = s.slotOf j := by
  unfold State.slotOf
  rw [phase, raw]

theorem slotOf_live (live : s.phase k = .live) (valid : s.raw k ≠ kNone) :
    s.slotOf k = some (index (s.raw k)) := by
  unfold State.slotOf
  rw [live]
  exact if_neg valid

theorem slotOf_invalid (live : s.phase k = .live) (invalid : s.raw k = kNone) :
    s.slotOf k = none := by
  unfold State.slotOf
  rw [live]
  exact if_pos invalid

/-- The slot of a constructor or destructor. -/
def Phase.slot : Phase → Option Nat
  | .resolving i _ | .storing i _ | .reading i | .clearing i | .releasing i => some i
  | .unborn | .live | .gone => none

theorem slotOf_busy {phase : Phase} (here : s.phase k = phase) (slot : phase.slot = some i) :
    s.slotOf k = some i := by
  unfold State.slotOf
  rw [here]
  cases phase with
  | unborn | live | gone => cases slot
  | resolving | storing | reading | clearing | releasing => exact slot

/-- One scope goes on, and keeps its slot. -/
theorem Owned.moves (owned : Owned s free) {phase : Phase} (before : (s.phase k) ≠ .unborn)
    (moved : t.phase = Function.update s.phase k phase)
    (raw : ∀ j, j ≠ k → t.raw j = s.raw j) (kept : t.slotOf k = s.slotOf k)
    (blank : phase.made = false → t.raw k = kNone)
    (nextFree : t.nextFree = s.nextFree) (freeHead : t.freeHead = s.freeHead)
    (made : t.made = s.made) : Owned t free := by
  have others (j : Nat) (other : j ≠ k) : t.phase j = s.phase j := by
    rw [moved, Function.update_of_ne other]
  refine owned.same (fun j => ?_) nextFree freeHead (fun j old => ?_) (fun j unmade => ?_)
  · rcases eq_or_ne j k with rfl | other
    · exact kept
    · exact slotOf_congr (others j other) (raw j other)
  · rw [made] at old
    have other : j ≠ k := by
      rintro rfl
      exact before (owned.unborn j old)
    rw [others j other]
    exact owned.unborn j old
  · rcases eq_or_ne j k with rfl | other
    · rw [moved, Function.update_self] at unmade
      exact blank unmade
    · rw [others j other] at unmade
      rw [raw j other]
      exact owned.blank j unmade

theorem firstPhase_slot {parent : Option Nat} : (firstPhase s i parent).slot = some i := by
  cases parent with
  | none => rfl
  | some p => rfl

theorem firstPhase_made {parent : Option Nat} : (firstPhase s i parent).made = false := by
  cases parent with
  | none => rfl
  | some p => rfl

theorem Owned.create (owned : Owned s free) (parent : Option Nat) :
    ∃ free', Owned (s.create parent) free' := by
  have fresh := owned.unborn s.made (Nat.le_refl _)
  have noRaw : s.raw s.made = kNone := owned.blank s.made (by rw [fresh]; rfl)
  have noSlot : s.slotOf s.made = none := by
    unfold State.slotOf
    rw [fresh]
  have later {phase : Phase} (j : Nat) (old : s.made + 1 ≤ j) :
      Function.update s.phase s.made phase j = .unborn := by
    rw [Function.update_of_ne (by omega)]
    exact owned.unborn j (by omega)
  have blank {phase : Phase} (j : Nat)
      (unmade : (Function.update s.phase s.made phase j).made = false) : s.raw j = kNone := by
    rcases eq_or_ne j s.made with rfl | other
    · exact noRaw
    · rw [Function.update_of_ne other] at unmade
      exact owned.blank j unmade
  unfold State.create
  have leads := owned.leads
  cases head : s.freeHead with
  | none =>
    refine ⟨free, owned.same (fun j => ?_) rfl head.symm later blank⟩
    rcases eq_or_ne j s.made with rfl | other
    · rw [noSlot]
      exact slotOf_invalid (Function.update_self _ _ _) noRaw
    · exact slotOf_congr (Function.update_of_ne other _ _) rfl
  | some i =>
    rw [head] at leads
    cases free with
    | nil => cases leads
    | cons i' rest =>
      obtain rfl : i = i' := Option.some.inj leads.1
      refine ⟨rest, owned.take (k := s.made) ?_ (fun j other => ?_) rfl rfl later blank⟩
      · exact slotOf_busy (Function.update_self _ _ _) firstPhase_slot
      · exact slotOf_congr (Function.update_of_ne other _ _) rfl

theorem Owned.destroy (owned : Owned s free) (live : s.phase k = .live) :
    Owned (s.destroy k) free := by
  have born : s.phase k ≠ .unborn := by
    rw [live]
    decide
  unfold State.destroy
  split
  · rename_i invalid
    refine owned.moves born rfl (fun _ _ => rfl) ?_ (fun absurd => by cases absurd) rfl rfl rfl
    rw [slotOf_invalid live invalid]
    unfold State.slotOf
    simp only [State.go, Function.update_self]
  · rename_i valid
    refine owned.moves born rfl (fun _ _ => rfl) ?_ (fun absurd => by cases absurd) rfl rfl rfl
    rw [slotOf_live live valid]
    exact slotOf_busy (Function.update_self _ _ _) rfl

theorem Owned.advance (owned : Owned s free) (stepped : advance s k = some t) :
    ∃ free', Owned t free' := by
  -- a scope has no token before its constructor returns
  have blank {phase : Phase} (here : s.phase k = phase) (unmade : phase.made = false) :
      s.raw k = kNone := owned.blank k (by rw [here]; exact unmade)
  unfold Scopes.advance at stepped
  cases here : s.phase k with
  | unborn | live | gone =>
    rw [here] at stepped
    cases stepped
  | resolving i parent =>
    have born : s.phase k ≠ .unborn := by
      rw [here]
      exact fun absurd => by cases absurd
    rw [here] at stepped
    refine ⟨free, ?_⟩
    have kept {t : State} {v : Nat} (phase : t.phase k = .storing i v) :
        t.slotOf k = s.slotOf k := by
      rw [slotOf_busy here (i := i) rfl]
      exact slotOf_busy phase rfl
    simp only at stepped
    split at stepped
    · cases stepped
      exact owned.moves born rfl (fun _ _ => rfl) (kept (Function.update_self _ _ _))
        (fun _ => blank here rfl) rfl rfl rfl
    · cases stepped
      exact owned.moves born rfl (fun _ _ => rfl) (kept (Function.update_self _ _ _))
        (fun _ => blank here rfl) rfl rfl rfl
  | storing i parent =>
    have born : s.phase k ≠ .unborn := by
      rw [here]
      exact fun absurd => by cases absurd
    rw [here] at stepped
    cases stepped
    refine ⟨free, owned.moves born rfl (fun _ _ => rfl) ?_ (fun _ => blank here rfl) rfl rfl rfl⟩
    rw [slotOf_busy here (i := i) rfl]
    exact slotOf_busy (Function.update_self _ _ _) rfl
  | reading i =>
    have born : s.phase k ≠ .unborn := by
      rw [here]
      exact fun absurd => by cases absurd
    rw [here] at stepped
    cases stepped
    have held := slotOf_busy here (i := i) rfl
    have small := owned.small_of_held held
    refine ⟨free, owned.moves born rfl (fun j other => Function.update_of_ne other _ _) ?_
      (fun absurd => by cases absurd) rfl rfl rfl⟩
    have raw : Function.update s.raw k (tokenOf s.slots i) k = tokenOf s.slots i :=
      Function.update_self _ _ _
    have valid : tokenOf s.slots i ≠ kNone := tokenOf_ne small
    rw [← raw] at valid
    rw [held, slotOf_live (Function.update_self _ _ _) valid]
    simp only [raw]
    rw [index_tokenOf small]
  | clearing i =>
    have born : s.phase k ≠ .unborn := by
      rw [here]
      exact fun absurd => by cases absurd
    rw [here] at stepped
    cases stepped
    refine ⟨free, owned.moves born rfl (fun _ _ => rfl) ?_ (fun absurd => by cases absurd)
      rfl rfl rfl⟩
    rw [slotOf_busy here (i := i) rfl]
    exact slotOf_busy (Function.update_self _ _ _) rfl
  | releasing i =>
    rw [here] at stepped
    cases stepped
    have held := slotOf_busy here (i := i) rfl
    refine ⟨i :: free, owned.give held ?_ (fun j other => ?_) rfl rfl (fun j old => ?_)
      (fun j unmade => ?_)⟩
    · unfold State.slotOf
      simp only [State.go, Function.update_self]
    · exact slotOf_congr (Function.update_of_ne other _ _) rfl
    · have other : j ≠ k := by
        rintro rfl
        rw [owned.unborn j old] at here
        cases here
      exact (Function.update_of_ne other _ _).trans (owned.unborn j old)
    · rcases eq_or_ne j k with rfl | other
      · simp only [State.go, Function.update_self] at unmade
        cases unmade
      · simp only [State.go, Function.update_of_ne other] at unmade
        exact owned.blank j unmade

theorem Owned.step (owned : Owned s free) (stepped : step s a = some t) :
    ∃ free', Owned t free' := by
  cases a with
  | create parent =>
    simp only [Scopes.step] at stepped
    split at stepped
    · cases stepped
      exact owned.create parent
    · cases stepped
  | destroy k =>
    simp only [Scopes.step] at stepped
    split at stepped
    · rename_i live
      cases stepped
      exact ⟨free, owned.destroy live⟩
    · cases stepped
  | advance k => exact owned.advance stepped
  | cancel k =>
    simp only [Scopes.step] at stepped
    split at stepped
    · cases stepped
      refine ⟨free, ?_⟩
      unfold State.cancel
      split
      · exact owned.same (fun _ => rfl) rfl rfl owned.unborn owned.blank
      · exact owned.same (fun _ => rfl) rfl rfl owned.unborn owned.blank
    · cases stepped
  | cancelVia k =>
    simp only [Scopes.step] at stepped
    split at stepped
    · cases stepped
      exact ⟨free, owned.same (fun _ => rfl) rfl rfl owned.unborn owned.blank⟩
    · cases stepped

theorem owned_of_reach {ok : State → Label → Prop} (reach : Reach Scopes.step ok initial s) :
    ∃ free, Owned s free :=
  reach.invariant (I := fun s => ∃ free, Owned s free) initial_owned
    fun ⟨_, owned⟩ _ stepped => owned.step stepped

end JLibSched.Scopes
