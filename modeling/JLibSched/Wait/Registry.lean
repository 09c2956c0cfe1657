import JLibSched.Lib.DoublyLinked
import JLibSched.Lib.Transition

/-!
# The registry of wait primitives

Every event, mutex, semaphore and condition variable is on a list of the scheduler from its
constructor to `LeaveRegistry`, which its destructor calls first.  `Join` takes the primitives off
that list, one at a time and under the list's lock, and drains each one after it has dropped the
lock.  Addresses are used again once a primitive is destroyed.
-/

namespace JLibSched.Primitives

open Links Transition

/-- `primitivesHead`, and the links of the primitives. -/
structure Registry where
  next : Nat → Option Nat
  prev : Nat → Option Nat
  head : Option Nat

/-- A primitive that is not constructed, one that has not left the registry, and one that has. -/
inductive Phase where
  | absent
  | alive
  | left
deriving DecidableEq, Repr

/-- Where `Join` is in its drain loop.  It has dropped the lock with `p` in hand (`taken`), and
then called `DrainForShutdown`. -/
inductive JoinPc where
  | outside
  | looping
  | taken (p : Nat)
  | draining (p : Nat)
deriving DecidableEq, Repr

structure State where
  list : Registry
  phase : Nat → Phase
  join : JoinPc
  /-- The primitives that `Join` has taken off the list. -/
  off : Nat → Bool

def initial : State where
  list := ⟨fun _ => none, fun _ => none, none⟩
  phase _ := .absent
  join := .outside
  off _ := false

inductive Label where
  | construct (p : Nat)
  | leaveRegistry (p : Nat)
  | destroy (p : Nat)
  | joins
  /-- The locked section of the drain loop. -/
  | take
  | drainForShutdown
  | drained
deriving DecidableEq, Repr

namespace Registry

/-- The constructor of `WaitPrimitive`. -/
def enter (d : Registry) (p : Nat) : Registry where
  next := Function.update d.next p d.head
  prev := match d.head with
    | some first => Function.update (Function.update d.prev p none) first (some p)
    | none => Function.update d.prev p none
  head := some p

def leaveRegistry (d : Registry) (p : Nat) : Registry :=
  if d.next p = none ∧ d.prev p = none ∧ d.head ≠ some p then d
  else
    { next := Function.update
        (match d.prev p with
          | some before => Function.update d.next before (d.next p)
          | none => d.next) p none
      prev := Function.update
        (match d.next p with
          | some behind => Function.update d.prev behind (d.prev p)
          | none => d.prev) p none
      head := match d.prev p with
        | some _ => d.head
        | none => if d.head = some p then d.next p else d.head }

/-- The locked section of `Join`, for the first primitive of the list. -/
def takeFirst (d : Registry) (p : Nat) : Registry where
  next := Function.update d.next p none
  prev := Function.update
    (match d.next p with
      | some second => Function.update d.prev second none
      | none => d.prev) p none
  head := d.next p

end Registry

def step (s : State) : Label → Option State
  | .construct p =>
    if s.phase p = .absent then
      some { s with
        list := s.list.enter p
        phase := Function.update s.phase p .alive
        off := Function.update s.off p false }
    else none
  | .leaveRegistry p =>
    -- by the destructor of the primitive's class, and again by that of `WaitPrimitive`
    if s.phase p = .absent then none
    else some { s with
      list := s.list.leaveRegistry p
      phase := Function.update s.phase p .left }
  | .destroy p =>
    if s.phase p = .left then some { s with phase := Function.update s.phase p .absent }
    else none
  | .joins => if s.join = .outside then some { s with join := .looping } else none
  | .take =>
    if s.join = .looping then
      match s.list.head with
      | none => some { s with join := .outside }
      | some p => some { s with
          list := s.list.takeFirst p
          join := .taken p
          off := Function.update s.off p true }
    else none
  | .drainForShutdown =>
    match s.join with
    | .taken p => some { s with join := .draining p }
    | _ => none
  | .drained =>
    match s.join with
    | .draining _ => some { s with join := .looping }
    | _ => none

/-- The primitive that `Join` has in hand does not leave the registry before it is drained. -/
def staysForDrain (s : State) : Label → Prop
  | .leaveRegistry p => s.join ≠ .taken p
  | _ => True


instance (s : State) : ∀ a, Decidable (staysForDrain s a)
  | .leaveRegistry p => inferInstanceAs (Decidable (s.join ≠ .taken p))
  | .construct _ | .destroy _ | .joins | .take | .drainForShutdown | .drained => isTrue trivial

/-! ## The list -/

/-- The registry, with what would be its last primitive. -/
def Registry.doubly (d : Registry) (tail : Option Nat) : Doubly Nat := ⟨d.next, d.prev, d.head, tail⟩

/-- The primitives of the registry are those of `l`, and no other one has links. -/
structure Registry.Holds (d : Registry) (l : List Nat) : Prop where
  list : ∃ tail, (d.doubly tail).Holds l
  nodup : l.Nodup
  out : ∀ p, p ∉ l → d.next p = none ∧ d.prev p = none

variable {d : Registry} {l : List Nat} {p q : Nat} {s t : State} {a : Label}

namespace Registry

theorem Holds.head (holds : d.Holds l) : d.head = l.head? := by
  obtain ⟨tail, doubly⟩ := holds.list
  exact doubly.head

theorem Holds.first_prev (holds : d.Holds (p :: l)) : d.prev p = none := by
  obtain ⟨tail, doubly⟩ := holds.list
  exact Doubly.Holds.prev (a := []) doubly

theorem Holds.enter (holds : d.Holds l) (new : p ∉ l) : (d.enter p).Holds (p :: l) where
  list := by
    obtain ⟨tail, doubly⟩ := holds.list
    have same : (d.enter p).prev = ((d.doubly tail).pushFront p).prev := by
      unfold Registry.enter Doubly.pushFront Registry.doubly
      simp only
      cases d.head with
      | none => rfl
      | some first => rfl
    exact ⟨((d.doubly tail).pushFront p).tail, (doubly.pushFront holds.nodup new).congr rfl rfl
      (fun x _ => rfl) fun x _ => congrFun same x⟩
  nodup := List.nodup_cons.mpr ⟨new, holds.nodup⟩
  out q outside := by
    obtain ⟨other, outside⟩ : q ≠ p ∧ q ∉ l := by
      rw [← not_or, ← List.mem_cons]
      exact outside
    obtain ⟨next, prev⟩ := holds.out q outside
    refine ⟨(Function.update_of_ne other _ _).trans next, ?_⟩
    have head := holds.head
    unfold Registry.enter
    cases first : d.head with
    | none => exact (Function.update_of_ne other _ _).trans prev
    | some x =>
      have apart : q ≠ x := by
        rintro rfl
        exact outside (List.mem_of_head? (head.symm.trans first))
      exact (Function.update_of_ne apart _ _).trans ((Function.update_of_ne other _ _).trans prev)

/-- Who is not in the list leaves it as it is. -/
theorem Holds.leaveRegistry_out (holds : d.Holds l) (outside : p ∉ l) : d.leaveRegistry p = d := by
  obtain ⟨next, prev⟩ := holds.out p outside
  have notFirst : d.head ≠ some p := by
    rw [holds.head]
    exact fun first => outside (List.mem_of_head? first)
  exact if_pos ⟨next, prev, notFirst⟩

/-- Who is in the list is unlinked, and its links are cleared. -/
theorem Holds.leaveRegistry_links (holds : d.Holds l) (mem : p ∈ l) {tail : Option Nat}
    (doubly : (d.doubly tail).Holds l) :
    (d.leaveRegistry p).next = (((d.doubly tail).unlink p).write p none none).next ∧
      (d.leaveRegistry p).prev = (((d.doubly tail).unlink p).write p none none).prev ∧
      (d.leaveRegistry p).head = ((d.doubly tail).unlink p).head := by
  obtain ⟨a, b, rfl⟩ := List.append_of_mem mem
  have prev : d.prev p = a.getLast? := doubly.prev
  have first (alone : d.prev p = none) : d.head = some p := by
    rw [prev, List.getLast?_eq_none_iff] at alone
    rw [holds.head, alone]
    rfl
  unfold Registry.leaveRegistry
  rw [if_neg fun absurd => absurd.2.2 (first absurd.2.1)]
  unfold Doubly.write Doubly.unlink Registry.doubly
  simp only
  refine ⟨?_, ?_, ?_⟩
  · cases d.prev p with
    | none => rfl
    | some before => rfl
  · cases d.next p with
    | none => rfl
    | some behind => rfl
  · cases before : d.prev p with
    | none => exact if_pos (first before)
    | some x => rfl

theorem Holds.leaveRegistry (holds : d.Holds l) (p : Nat) :
    (d.leaveRegistry p).Holds (l.erase p) := by
  by_cases mem : p ∈ l
  case neg =>
    rw [holds.leaveRegistry_out mem, List.erase_of_not_mem mem]
    exact holds
  obtain ⟨tail, doubly⟩ := holds.list
  obtain ⟨next, prev, head⟩ := holds.leaveRegistry_links mem doubly
  obtain ⟨a, b, rfl⟩ := List.append_of_mem mem
  have nodup := holds.nodup
  have outside : p ∉ a ++ b := (List.nodup_middle.mp nodup).notMem
  have erased : (a ++ p :: b).erase p = a ++ b := by
    rw [List.erase_append_right _ fun inside => outside (List.mem_append_left _ inside),
      List.erase_cons_head]
  rw [erased]
  refine ⟨⟨((d.doubly tail).unlink p).tail, ?_⟩, (List.nodup_middle.mp nodup).of_cons,
    fun q gone => ?_⟩
  · exact ((doubly.unlink nodup).write outside none none).congr head rfl
      (fun x _ => congrFun next x) fun x _ => congrFun prev x
  · rw [next, prev]
    rcases eq_or_ne q p with rfl | other
    · exact ⟨Function.update_self _ _ _, Function.update_self _ _ _⟩
    · have before : q ∉ a ++ p :: b := by
        simp only [List.mem_append, List.mem_cons, not_or] at gone ⊢
        exact ⟨gone.1, other, gone.2⟩
      obtain ⟨noNext, noPrev⟩ := holds.out q before
      refine ⟨(Function.update_of_ne other _ _).trans ?_, (Function.update_of_ne other _ _).trans ?_⟩
      · rw [doubly.unlink_next fun inside => gone (List.mem_append_left _ inside)]
        exact noNext
      · rw [doubly.unlink_prev fun inside => gone (List.mem_append_right _ inside)]
        exact noPrev

/-- `Join` takes the first primitive off as its own `LeaveRegistry` does. -/
theorem Holds.takeFirst_eq (holds : d.Holds (p :: l)) : d.takeFirst p = d.leaveRegistry p := by
  have head : d.head = some p := holds.head
  have prev := holds.first_prev
  unfold Registry.leaveRegistry Registry.takeFirst
  rw [if_neg fun absurd => absurd.2.2 head, prev]
  simp only
  rw [if_pos head]

theorem Holds.takeFirst (holds : d.Holds (p :: l)) : (d.takeFirst p).Holds l := by
  have left := holds.leaveRegistry p
  rw [← holds.takeFirst_eq, List.erase_cons_head] at left
  exact left

end Registry

/-! ## The runs -/

/-- The registry holds the primitives that are constructed, have not left it and were not taken off,
and the one that `Join` has in hand is constructed and has not left. -/
structure Inv (s : State) (l : List Nat) : Prop where
  holds : s.list.Holds l
  mem : ∀ p, p ∈ l ↔ s.phase p = .alive ∧ s.off p = false
  hand : ∀ p, s.join = .taken p → s.phase p = .alive ∧ s.off p = true

theorem initial_inv : Inv initial [] where
  holds := ⟨⟨none, Doubly.holds_empty _ _⟩, List.nodup_nil, fun _ _ => ⟨rfl, rfl⟩⟩
  mem p := ⟨fun absurd => (by cases absurd), fun absurd => (by cases absurd.1)⟩
  hand p absurd := by cases absurd


theorem Inv.construct (inv : Inv s l) (absent : s.phase p = .absent) :
    Inv { s with
      list := s.list.enter p
      phase := Function.update s.phase p .alive
      off := Function.update s.off p false } (p :: l) where
  holds := by
    refine inv.holds.enter fun mem => ?_
    have alive := ((inv.mem p).mp mem).1
    rw [absent] at alive
    cases alive
  mem q := by
    simp only
    rcases eq_or_ne q p with rfl | other
    · simp only [Function.update_self, List.mem_cons_self, and_self]
    · rw [List.mem_cons, Function.update_of_ne other, Function.update_of_ne other]
      exact ⟨fun mem => (inv.mem q).mp (mem.resolve_left other), fun here => .inr ((inv.mem q).mpr here)⟩
  hand q taken := by
    obtain ⟨alive, off⟩ := inv.hand q taken
    have other : q ≠ p := by
      rintro rfl
      rw [absent] at alive
      cases alive
    simp only
    rw [Function.update_of_ne other, Function.update_of_ne other]
    exact ⟨alive, off⟩

theorem Inv.leaveRegistry (inv : Inv s l) (stays : s.join ≠ .taken p) :
    Inv { s with
      list := s.list.leaveRegistry p
      phase := Function.update s.phase p .left } (l.erase p) where
  holds := inv.holds.leaveRegistry p
  mem q := by
    simp only
    rw [inv.holds.nodup.mem_erase_iff]
    rcases eq_or_ne q p with rfl | other
    · rw [Function.update_self]
      exact ⟨fun absurd => False.elim (absurd.1 rfl), fun absurd => by cases absurd.1⟩
    · rw [Function.update_of_ne other]
      exact ⟨fun here => (inv.mem q).mp here.2, fun here => ⟨other, (inv.mem q).mpr here⟩⟩
  hand q taken := by
    have other : q ≠ p := by
      rintro rfl
      exact stays taken
    simp only
    rw [Function.update_of_ne other]
    exact inv.hand q taken

theorem Inv.destroy (inv : Inv s l) (left : s.phase p = .left) :
    Inv { s with phase := Function.update s.phase p .absent } l where
  holds := inv.holds
  mem q := by
    simp only
    rcases eq_or_ne q p with rfl | other
    · rw [Function.update_self, inv.mem q, left]
      exact ⟨fun absurd => (by cases absurd.1), fun absurd => (by cases absurd.1)⟩
    · rw [Function.update_of_ne other]
      exact inv.mem q
  hand q taken := by
    obtain ⟨alive, off⟩ := inv.hand q taken
    have other : q ≠ p := by
      rintro rfl
      rw [left] at alive
      cases alive
    simp only
    rw [Function.update_of_ne other]
    exact ⟨alive, off⟩

theorem Inv.take (inv : Inv s (p :: l)) :
    Inv { s with
      list := s.list.takeFirst p
      join := .taken p
      off := Function.update s.off p true } l where
  holds := inv.holds.takeFirst
  mem q := by
    simp only
    rcases eq_or_ne q p with rfl | other
    · rw [Function.update_self]
      exact ⟨fun absurd => False.elim ((List.nodup_cons.mp inv.holds.nodup).1 absurd),
        fun absurd => by cases absurd.2⟩
    · rw [Function.update_of_ne other, ← inv.mem q, List.mem_cons]
      exact ⟨.inr, fun mem => mem.resolve_left other⟩
  hand q taken := by
    cases taken
    simp only
    rw [Function.update_self]
    exact ⟨((inv.mem p).mp List.mem_cons_self).1, rfl⟩

/-- `Join` goes on, with nothing that is still to be drained in hand. -/
theorem Inv.joinAt (inv : Inv s l) {pc : JoinPc} (free : ∀ q, pc ≠ .taken q) :
    Inv { s with join := pc } l :=
  ⟨inv.holds, inv.mem, fun q taken => absurd taken (free q)⟩

theorem Inv.step (inv : Inv s l) (stays : staysForDrain s a)
    (stepped : Primitives.step s a = some t) : ∃ l', Inv t l' := by
  cases a with
  | construct p =>
    obtain ⟨absent, moved⟩ := Option.ite_none_right_eq_some.mp stepped
    cases moved
    exact ⟨_, inv.construct absent⟩
  | leaveRegistry p =>
    obtain ⟨-, moved⟩ := Option.ite_none_left_eq_some.mp stepped
    cases moved
    exact ⟨_, inv.leaveRegistry stays⟩
  | destroy p =>
    obtain ⟨left, moved⟩ := Option.ite_none_right_eq_some.mp stepped
    cases moved
    exact ⟨_, inv.destroy left⟩
  | joins =>
    obtain ⟨-, moved⟩ := Option.ite_none_right_eq_some.mp stepped
    cases moved
    exact ⟨_, inv.joinAt fun q absurd => by cases absurd⟩
  | take =>
    obtain ⟨-, moved⟩ := Option.ite_none_right_eq_some.mp stepped
    rw [inv.holds.head] at moved
    cases l with
    | nil =>
      cases moved
      exact ⟨_, inv.joinAt fun q absurd => by cases absurd⟩
    | cons p l =>
      cases moved
      exact ⟨_, inv.take⟩
  | drainForShutdown =>
    unfold Primitives.step at stepped
    cases here : s.join with
    | taken p =>
      rw [here] at stepped
      cases stepped
      exact ⟨_, inv.joinAt fun q absurd => by cases absurd⟩
    | outside | looping | draining p =>
      rw [here] at stepped
      cases stepped
  | drained =>
    unfold Primitives.step at stepped
    cases here : s.join with
    | draining p =>
      rw [here] at stepped
      cases stepped
      exact ⟨_, inv.joinAt fun q absurd => by cases absurd⟩
    | outside | looping | taken p =>
      rw [here] at stepped
      cases stepped

theorem inv_of_reach (reach : Reach Primitives.step staysForDrain initial s) : ∃ l, Inv s l := by
  refine reach.invariant (I := fun s => ∃ l, Inv s l) ⟨[], initial_inv⟩ ?_
  intro s t a ⟨l, inv⟩ stays stepped
  exact inv.step stays stepped

/-- In every state of a run the registry is a doubly linked list of exactly the primitives that are
constructed, have not left it and were not taken off, and what `Join` is about to drain is
constructed and has not left. -/
theorem drains_alive (s : State) (reach : Reach Primitives.step staysForDrain initial s) :
    (∃ l, s.list.Holds l ∧ ∀ p, p ∈ l ↔ s.phase p = .alive ∧ s.off p = false) ∧
      ∀ p, s.join = .taken p → s.phase p = .alive := by
  obtain ⟨l, inv⟩ := inv_of_reach reach
  exact ⟨⟨l, inv.holds, inv.mem⟩, fun p taken => (inv.hand p taken).1⟩

/-- `Join` takes one of three primitives, another one leaves, and a new one comes. -/
def orderlyLabels : List Label :=
  [.construct 1, .construct 2, .construct 3, .joins, .take, .leaveRegistry 2, .leaveRegistry 2,
    .destroy 2, .construct 2]

def orderlyAt : State := (run Primitives.step staysForDrain initial orderlyLabels).getD initial

theorem orderlyAt_drains :
    orderlyAt.join = .taken 3 ∧ orderlyAt.list.head = some 2 ∧
      (∃ l, orderlyAt.list.Holds l ∧
        ∀ p, p ∈ l ↔ orderlyAt.phase p = .alive ∧ orderlyAt.off p = false) ∧
      ∀ p, orderlyAt.join = .taken p → orderlyAt.phase p = .alive :=
  ⟨by decide +kernel, by decide +kernel,
    drains_alive orderlyAt (Reach.of_isSome orderlyLabels (by decide +kernel))⟩

/-- `Join` has dropped the lock; the destructor finds its primitive off the list and does not
wait. -/
def overtakenLabels : List Label := [.construct 1, .joins, .take, .leaveRegistry 1, .destroy 1]

def overtakenAt : State := (run Primitives.step anyStep initial overtakenLabels).getD initial

theorem drains_dead :
    Reach Primitives.step anyStep initial overtakenAt ∧ overtakenAt.join = .taken 1 ∧
      overtakenAt.phase 1 = .absent ∧
      (Primitives.step overtakenAt .drainForShutdown).map State.join = some (.draining 1) :=
  ⟨Reach.of_isSome overtakenLabels (by decide +kernel), by decide +kernel, by decide +kernel,
    by decide +kernel⟩

/-! ## While a primitive is drained -/

/-- The primitive that `Join` has in hand does not leave the registry until it is drained. -/
def staysDrained (s : State) (a : Label) : Prop :=
  staysForDrain s a ∧ ∀ p, a = .leaveRegistry p → s.join ≠ .draining p

/-- Then it is alive while it is drained. -/
theorem drained_while_alive (s : State) (reach : Reach Primitives.step staysDrained initial s) :
    ∀ p, s.join = .draining p → s.phase p = .alive := by
  have known {u : State} (before : Reach Primitives.step staysDrained initial u) (p : Nat) :
      u.join = .taken p → u.phase p = .alive := by
    obtain ⟨_, inv⟩ := inv_of_reach (before.weaken And.left)
    exact fun taken => (inv.hand p taken).1
  refine reach.invariant_of (I := fun s => ∀ p, s.join = .draining p → s.phase p = .alive) known
    (fun p absurd => by cases absurd) ?_
  intro s t a taken kept stays stepped p here
  cases a with
  | construct q | destroy q =>
    obtain ⟨other, moved⟩ := Option.ite_none_right_eq_some.mp stepped
    cases moved
    have alive := kept p here
    refine (Function.update_of_ne ?_ _ _).trans alive
    rintro rfl
    cases other.symm.trans alive
  | leaveRegistry q =>
    obtain ⟨-, moved⟩ := Option.ite_none_left_eq_some.mp stepped
    cases moved
    refine (Function.update_of_ne ?_ _ _).trans (kept p here)
    rintro rfl
    exact stays.2 p rfl here
  | joins =>
    obtain ⟨-, moved⟩ := Option.ite_none_right_eq_some.mp stepped
    cases moved
    cases here
  | take =>
    obtain ⟨-, moved⟩ := Option.ite_none_right_eq_some.mp stepped
    cases first : s.list.head <;> rw [first] at moved <;> cases moved <;> cases here
  | drainForShutdown =>
    unfold Primitives.step at stepped
    cases now : s.join <;> rw [now] at stepped <;> cases stepped
    cases here
    exact taken p now
  | drained =>
    unfold Primitives.step at stepped
    cases now : s.join <;> rw [now] at stepped <;> cases stepped
    cases here

end JLibSched.Primitives
