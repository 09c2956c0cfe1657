import JLibSched.Cancel.Token
import JLibSched.Lib.Links
import JLibSched.Lib.Transition

/-!
# The free slots, access by access

`AcquireSlot` and `ReleaseSlot` take a slot off a stack of free ones and put it back, without a
lock: each looks at `FreeHead`, reads or writes the `nextFree` of one slot, and exchanges the head if
it has not changed.  The head carries a tag that every exchange counts up.

Any number of scopes may be made and destroyed at the same time, each by a thread of its own.
`changes` and the `since` of an `AcquireSlot` are kept for what is proved: no step looks at them.
-/

namespace JLibSched.FreeSlots

open Transition Cancel Links

/-- `FreeHead`: a tag in the high 32 bits, and the first free slot.  The source has the number of the
slot plus one, or 0. -/
structure Head where
  tag : Nat
  index : Option Nat
deriving DecidableEq, Repr

/-- The head after an exchange. -/
def Head.move (head : Head) (index : Option Nat) : Head := ⟨(head.tag + 1) % 2 ^ 32, index⟩

/-- What a scope is doing.  `since` counts the changes of the head before it was loaded. -/
inductive Phase where
  | unborn
  /-- `AcquireSlot` is about to load the head. -/
  | loading
  /-- It has found slot `i` there and is about to read its `nextFree`. -/
  | reading (head : Head) (i since : Nat)
  /-- It is about to exchange the head. -/
  | taking (head : Head) (i : Nat) (next : Option Nat) (since : Nat)
  /-- The rest of the constructor. -/
  | creating (i : Nat)
  | live (i : Nat)
  /-- The destructor, until `ReleaseSlot` loads the head. -/
  | destroying (i : Nat)
  /-- `ReleaseSlot` is about to write `nextFree`. -/
  | linking (i : Nat) (head : Head)
  /-- It is about to exchange the head. -/
  | returning (i : Nat) (head : Head)
  /-- The scope was made without a slot: `raw_` is `kNone`. -/
  | invalid
  | gone
deriving DecidableEq, Repr

structure State where
  /-- `FreeHead`. -/
  head : Head
  nextFree : Nat → Option Nat
  phase : Nat → Phase
  /-- How often the head was changed. -/
  changes : Nat

def initial : State where
  head := ⟨0, some 0⟩
  nextFree := fun i => if i + 1 < kCancelSlots then some (i + 1) else none
  phase := fun _ => .unborn
  changes := 0

inductive Label where
  | create (k : Nat)
  | destroy (k : Nat)
  /-- A constructor or destructor takes its next step; a weak exchange may fail. -/
  | advance (k : Nat) (fails : Bool)
deriving DecidableEq, Repr

/-! ## Steps -/

def State.go (s : State) (k : Nat) (phase : Phase) : State :=
  { s with phase := Function.update s.phase k phase }

def State.move (s : State) (index : Option Nat) : State :=
  { s with head := s.head.move index, changes := s.changes + 1 }

/-- `AcquireSlot` has loaded the head. -/
def State.look (s : State) (k : Nat) : State :=
  match s.head.index with
  | none => s.go k .invalid
  | some i => s.go k (.reading s.head i s.changes)

def advance (s : State) (k : Nat) (fails : Bool) : Option State :=
  match s.phase k with
  | .loading => some (s.look k)
  | .reading head i since => some (s.go k (.taking head i (s.nextFree i) since))
  | .taking head i next _ =>
    if s.head = head ∧ fails = false then some ((s.move next).go k (.creating i))
    -- the failed exchange has loaded the head
    else some (s.look k)
  | .creating i => some (s.go k (.live i))
  | .destroying i => some (s.go k (.linking i s.head))
  | .linking i head =>
    some ({ s with nextFree := Function.update s.nextFree i head.index }.go k (.returning i head))
  | .returning i head =>
    if s.head = head ∧ fails = false then some ((s.move (some i)).go k .gone)
    else some (s.go k (.linking i s.head))
  | .unborn | .live _ | .invalid | .gone => none

def step (s : State) : Label → Option State
  | .create k => if s.phase k = .unborn then some (s.go k .loading) else none
  | .destroy k =>
    match s.phase k with
    | .live i => some (s.go k (.destroying i))
    | .invalid => some (s.go k .gone)
    | _ => none
  | .advance k fails => advance s k fails

/-- The exchange of an `AcquireSlot` comes before `2 ^ 32` changes of the head since it was loaded. -/
def Phase.InTime (changes : Nat) : Phase → Prop
  | .taking _ _ _ since => changes < since + 2 ^ 32
  | _ => True

instance (changes : Nat) : (phase : Phase) → Decidable (phase.InTime changes)
  | .taking _ _ _ since => inferInstanceAs (Decidable (changes < since + 2 ^ 32))
  | .unborn | .loading | .reading _ _ _ | .creating _ | .live _ | .destroying _ | .linking _ _
  | .returning _ _ | .invalid | .gone => isTrue trivial

def fewChanges (s : State) : Label → Prop
  | .advance k _ => (s.phase k).InTime s.changes
  | .create _ | .destroy _ => True

instance (s : State) : (a : Label) → Decidable (fewChanges s a)
  | .advance k _ => inferInstanceAs (Decidable ((s.phase k).InTime s.changes))
  | .create _ | .destroy _ => isTrue trivial

/-! ## Who holds a slot -/

/-- The slot of a live scope, or of one that is being made or destroyed. -/
def Phase.slot : Phase → Option Nat
  | .creating i | .live i | .destroying i | .linking i _ | .returning i _ => some i
  | .unborn | .loading | .reading _ _ _ | .taking _ _ _ _ | .invalid | .gone => none

/-- The list of free slots is `free`, and every other slot has one holder. -/
structure Allocated (s : State) (free : List Nat) : Prop where
  leads : Leads s.nextFree s.head.index free none
  nodup : free.Nodup
  small : ∀ i ∈ free, i < kCancelSlots
  held : ∀ k i, (s.phase k).slot = some i → i < kCancelSlots ∧ i ∉ free
  single : ∀ j k i, (s.phase j).slot = some i → (s.phase k).slot = some i → j = k
  everywhere : ∀ i < kCancelSlots, i ∈ free ∨ ∃ k, (s.phase k).slot = some i

/-- What has been read is still so, unless the head has changed. -/
def Phase.Current (s : State) : Phase → Prop
  | .reading head i since =>
    head.tag = since % 2 ^ 32 ∧ since ≤ s.changes ∧ (since = s.changes → s.head.index = some i)
  | .taking head i next since =>
    head.tag = since % 2 ^ 32 ∧ since ≤ s.changes ∧
      (since = s.changes → s.head.index = some i ∧ s.nextFree i = next)
  | .returning i head => s.nextFree i = head.index
  | _ => True

structure Inv (s : State) (free : List Nat) : Prop where
  allocated : Allocated s free
  tag : s.head.tag = s.changes % 2 ^ 32
  current : ∀ k, (s.phase k).Current s

variable {s t : State} {free : List Nat} {i k : Nat}

/-- The phases of the others, and of the one that moves. -/
theorem go_phase (s : State) (k : Nat) (phase : Phase) (j : Nat) :
    (s.go k phase).phase j = if j = k then phase else s.phase j := Function.update_apply ..

/-- The first slot on the list is free. -/
theorem Allocated.first (allocated : Allocated s free) (first : s.head.index = some i) :
    ∃ rest, free = i :: rest := by
  have head := allocated.leads.head
  rw [first] at head
  exact List.head?_eq_some_iff.mp head

/-- A scope goes on without taking or returning a slot. -/
theorem Inv.goes {phase : Phase} (inv : Inv s free) (slot : phase.slot = (s.phase k).slot)
    (current : phase.Current s) : Inv (s.go k phase) free := by
  have slots (j : Nat) : ((s.go k phase).phase j).slot = (s.phase j).slot := by
    rw [go_phase]
    split
    · rename_i here
      rw [here, slot]
    · rfl
  have allocated := inv.allocated
  refine ⟨⟨allocated.leads, allocated.nodup, allocated.small, fun j i => ?_, fun j j' i => ?_,
    fun i inside => ?_⟩, inv.tag, fun j => ?_⟩
  · rw [slots]
    exact allocated.held j i
  · rw [slots, slots]
    exact allocated.single j j' i
  · simp only [slots]
    exact allocated.everywhere i inside
  · rw [go_phase]
    split
    · cases phase <;> exact current
    · have before := inv.current j
      cases here : s.phase j <;> rw [here] at before <;> exact before

/-- The head has changed, so that nothing depends on what was read. -/
theorem Phase.Current.moved {phase : Phase} (current : phase.Current s)
    (changes : t.changes = s.changes + 1) (nextFree : t.nextFree = s.nextFree) :
    phase.Current t := by
  cases phase with
  | reading head i since =>
    obtain ⟨tag, before, -⟩ := current
    exact ⟨tag, by omega, fun now => by omega⟩
  | taking head i next since =>
    obtain ⟨tag, before, -⟩ := current
    exact ⟨tag, by omega, fun now => by omega⟩
  | returning i head => exact (congrFun nextFree i).trans current
  | _ => exact trivial

/-- The tags of two heads are equal only if the head has not changed. -/
theorem since_eq {since changes tag : Nat} (before : since ≤ changes) (few : changes < since + 2 ^ 32)
    (old : tag = since % 2 ^ 32) (now : tag = changes % 2 ^ 32) : since = changes := by
  omega

/-- `AcquireSlot` has its slot. -/
theorem Inv.take {next : Option Nat} (inv : Inv s free) (first : s.head.index = some i)
    (read : s.nextFree i = next) (holds : (s.phase k).slot = none) :
    ∃ rest, Inv ((s.move next).go k (.creating i)) rest := by
  have allocated := inv.allocated
  obtain ⟨rest, rfl⟩ := allocated.first first
  obtain ⟨fresh, once⟩ := List.nodup_cons.mp allocated.nodup
  have slots (j : Nat) : (((s.move next).go k (.creating i)).phase j).slot =
      if j = k then some i else (s.phase j).slot := by
    rw [go_phase]
    split <;> rfl
  have unheld (j : Nat) (held : (s.phase j).slot = some i) : False :=
    (allocated.held j i held).2 List.mem_cons_self
  refine ⟨rest, ⟨?_, once, fun j mem => allocated.small j (List.mem_cons_of_mem i mem),
    fun j i' held => ?_, fun j j' i' held held' => ?_, fun i' inside => ?_⟩, ?_, fun j => ?_⟩
  · have leads := allocated.leads.2
    rw [read] at leads
    exact leads
  · rw [slots] at held
    split at held
    · cases held
      exact ⟨allocated.small i List.mem_cons_self, fresh⟩
    · obtain ⟨small, out⟩ := allocated.held j i' held
      exact ⟨small, fun mem => out (List.mem_cons_of_mem i mem)⟩
  · rw [slots] at held held'
    split at held <;> split at held'
    · rename_i here here'
      exact here.trans here'.symm
    · cases held
      exact (unheld j' held').elim
    · cases held'
      exact (unheld j held).elim
    · exact allocated.single j j' i' held held'
  · rcases allocated.everywhere i' inside with mem | ⟨j, held⟩
    · rcases List.mem_cons.mp mem with rfl | later
      · exact .inr ⟨k, by rw [slots, if_pos rfl]⟩
      · exact .inl later
    · refine .inr ⟨j, ?_⟩
      rw [slots, if_neg, held]
      rintro rfl
      rw [holds] at held
      cases held
  · change (s.head.tag + 1) % 2 ^ 32 = (s.changes + 1) % 2 ^ 32
    rw [inv.tag, Nat.mod_add_mod]
  · rw [go_phase]
    split
    · exact trivial
    · exact (inv.current j).moved rfl rfl

/-- `ReleaseSlot` writes the link of its slot. -/
theorem Inv.link {head : Head} (inv : Inv s free) (here : s.phase k = .linking i head) :
    Inv ({ s with nextFree := Function.update s.nextFree i head.index }.go k (.returning i head))
      free := by
  have allocated := inv.allocated
  have holds : (s.phase k).slot = some i := by rw [here]; rfl
  have out := (allocated.held k i holds).2
  have slots (j : Nat) : (({ s with nextFree := Function.update s.nextFree i head.index }.go k
      (.returning i head)).phase j).slot = (s.phase j).slot := by
    rw [go_phase]
    split
    · rename_i same
      rw [same, here]
      rfl
    · rfl
  refine ⟨⟨allocated.leads.write out _, allocated.nodup, allocated.small, fun j i' => ?_,
    fun j j' i' => ?_, fun i' inside => ?_⟩, inv.tag, fun j => ?_⟩
  · rw [slots]
    exact allocated.held j i'
  · rw [slots, slots]
    exact allocated.single j j' i'
  · simp only [slots]
    exact allocated.everywhere i' inside
  · rw [go_phase]
    split
    · exact Function.update_self ..
    · rename_i other
      have before := inv.current j
      cases phase : s.phase j <;> rw [phase] at before
      case taking head' i' next since =>
        obtain ⟨tag, since_le, kept⟩ := before
        refine ⟨tag, since_le, fun now => ?_⟩
        obtain ⟨first, read⟩ := kept now
        -- The first free slot is not the one that is written.
        obtain ⟨rest, split⟩ := allocated.first first
        refine ⟨first, (Function.update_of_ne ?_ _ _).trans read⟩
        rintro rfl
        exact out (split ▸ List.mem_cons_self)
      case returning i' head' =>
        refine (Function.update_of_ne ?_ _ _).trans before
        rintro rfl
        exact other (allocated.single j k i' (by rw [phase]; rfl) holds)
      all_goals exact before

/-- `ReleaseSlot` has returned its slot. -/
theorem Inv.give (inv : Inv s free) (here : s.phase k = .returning i s.head) :
    Inv ((s.move (some i)).go k .gone) (i :: free) := by
  have allocated := inv.allocated
  have holds : (s.phase k).slot = some i := by rw [here]; rfl
  obtain ⟨small, out⟩ := allocated.held k i holds
  have wrote : s.nextFree i = s.head.index := by
    have current := inv.current k
    rw [here] at current
    exact current
  have slots (j : Nat) : (((s.move (some i)).go k .gone).phase j).slot =
      if j = k then none else (s.phase j).slot := by
    rw [go_phase]
    split <;> rfl
  refine ⟨⟨⟨rfl, ?_⟩, List.nodup_cons.mpr ⟨out, allocated.nodup⟩, fun j mem => ?_,
    fun j i' held => ?_, fun j j' i' held held' => ?_, fun i' inside => ?_⟩, ?_, fun j => ?_⟩
  · have leads := allocated.leads
    rw [← wrote] at leads
    exact leads
  · rcases List.mem_cons.mp mem with rfl | before
    · exact small
    · exact allocated.small j before
  · rw [slots] at held
    split at held
    · cases held
    · rename_i other
      obtain ⟨inside, apart⟩ := allocated.held j i' held
      refine ⟨inside, fun mem => ?_⟩
      rcases List.mem_cons.mp mem with rfl | before
      · exact other (allocated.single j k i' held holds)
      · exact apart before
  · rw [slots] at held held'
    split at held
    · cases held
    split at held'
    · cases held'
    · exact allocated.single j j' i' held held'
  · rcases allocated.everywhere i' inside with mem | ⟨j, held⟩
    · exact .inl (List.mem_cons_of_mem i mem)
    · by_cases same : j = k
      · rw [same, holds] at held
        cases held
        exact .inl List.mem_cons_self
      · exact .inr ⟨j, by rw [slots, if_neg same, held]⟩
  · change (s.head.tag + 1) % 2 ^ 32 = (s.changes + 1) % 2 ^ 32
    rw [inv.tag, Nat.mod_add_mod]
  · rw [go_phase]
    split
    · exact trivial
    · exact (inv.current j).moved rfl rfl

/-! ## Runs -/

theorem Inv.look (inv : Inv s free) (holds : (s.phase k).slot = none) : Inv (s.look k) free := by
  unfold State.look
  cases first : s.head.index with
  | none => exact inv.goes holds.symm trivial
  | some i => exact inv.goes holds.symm ⟨inv.tag, Nat.le_refl _, fun _ => first⟩

theorem Inv.advance {fails : Bool} (inv : Inv s free) (few : (s.phase k).InTime s.changes)
    (stepped : advance s k fails = some t) : ∃ free, Inv t free := by
  have current := inv.current k
  unfold FreeSlots.advance at stepped
  cases here : s.phase k <;> rw [here] at stepped current few <;> simp only at stepped
  case loading =>
    cases stepped
    exact ⟨free, inv.look (by rw [here]; rfl)⟩
  case reading head i since =>
    cases stepped
    obtain ⟨tag, before, kept⟩ := current
    exact ⟨free, inv.goes (by rw [here]; rfl) ⟨tag, before, fun now => ⟨kept now, rfl⟩⟩⟩
  case taking head i next since =>
    obtain ⟨tag, before, kept⟩ := current
    split at stepped
    · rename_i swapped
      cases stepped
      have now := since_eq before few tag (swapped.1 ▸ inv.tag)
      obtain ⟨first, read⟩ := kept now
      exact inv.take first read (by rw [here]; rfl)
    · cases stepped
      exact ⟨free, inv.look (by rw [here]; rfl)⟩
  case creating i =>
    cases stepped
    exact ⟨free, inv.goes (by rw [here]; rfl) trivial⟩
  case destroying i =>
    cases stepped
    exact ⟨free, inv.goes (by rw [here]; rfl) trivial⟩
  case linking i head =>
    cases stepped
    exact ⟨free, inv.link here⟩
  case returning i head =>
    split at stepped
    · rename_i swapped
      cases stepped
      exact ⟨i :: free, inv.give (swapped.1 ▸ here)⟩
    · cases stepped
      exact ⟨free, inv.goes (by rw [here]; rfl) trivial⟩
  all_goals cases stepped

theorem Inv.preserved {a : Label} (inv : Inv s free) (allowed : fewChanges s a)
    (stepped : step s a = some t) : ∃ free, Inv t free := by
  cases a with
  | create k =>
    obtain ⟨here, moved⟩ := Option.ite_none_right_eq_some.mp stepped
    cases moved
    exact ⟨free, inv.goes (by rw [here]; rfl) trivial⟩
  | destroy k =>
    simp only [step] at stepped
    split at stepped <;> cases stepped
    · rename_i i here
      exact ⟨free, inv.goes (by rw [here]; rfl) trivial⟩
    · rename_i here
      exact ⟨free, inv.goes (by rw [here]; rfl) trivial⟩
  | advance k fails => exact inv.advance allowed stepped

theorem initial_inv : Inv initial (List.range' 0 kCancelSlots) := by
  refine ⟨⟨leads_range' 0 rfl, List.nodup_range', fun i mem => ?_, fun _ _ none => (by cases none),
    fun _ _ _ none => (by cases none), fun i inside => .inl ?_⟩, rfl, fun _ => trivial⟩
  · have below := (List.mem_range'_1.mp mem).2
    rwa [Nat.zero_add] at below
  · exact List.mem_range'_1.mpr ⟨Nat.zero_le i, by rwa [Nat.zero_add]⟩

/-- A scope that becomes invalid is the one that has moved. -/
theorem invalid_moved {u : State} {j : Nat} {phase : Phase} (same : u.phase = s.phase)
    (before : s.phase k ≠ .invalid) (after : (u.go j phase).phase k = .invalid) :
    phase = .invalid := by
  rw [go_phase] at after
  split at after
  · exact after
  · rw [same] at after
    exact absurd after before

theorem look_invalid {j : Nat} (before : s.phase k ≠ .invalid)
    (after : (s.look j).phase k = .invalid) : s.head.index = none := by
  unfold State.look at after
  cases first : s.head.index with
  | none => rfl
  | some i =>
    rw [first] at after
    cases invalid_moved (s := s) rfl before after

/-- A scope is made invalid only when no slot is free. -/
theorem invalid_none {a : Label} (stepped : step s a = some t) (before : s.phase k ≠ .invalid)
    (after : t.phase k = .invalid) : s.head.index = none := by
  cases a with
  | create j =>
    obtain ⟨-, moved⟩ := Option.ite_none_right_eq_some.mp stepped
    cases moved
    cases invalid_moved (s := s) rfl before after
  | destroy j =>
    simp only [step] at stepped
    split at stepped <;> cases stepped
    · cases invalid_moved (s := s) rfl before after
    · cases invalid_moved (s := s) rfl before after
  | advance j fails =>
    simp only [step, advance] at stepped
    cases here : s.phase j <;> rw [here] at stepped <;> simp only at stepped
    case loading =>
      cases stepped
      exact look_invalid before after
    case taking head i next since =>
      split at stepped <;> cases stepped
      · cases invalid_moved (s := s) rfl before after
      · exact look_invalid before after
    case returning i head =>
      split at stepped <;> cases stepped
      · cases invalid_moved (s := s) rfl before after
      · cases invalid_moved (s := s) rfl before after
    case reading | creating | destroying | linking =>
      cases stepped
      cases invalid_moved (s := s) rfl before after
    all_goals cases stepped

/-- In every state each slot is free once or has one holder, and a step that makes a scope invalid
finds no slot free. -/
theorem slots_allocated (reach : Reach step fewChanges initial s) :
    (∃ free, Allocated s free) ∧
    ∀ {a t k}, step s a = some t → s.phase k ≠ .invalid → t.phase k = .invalid → Allocated s [] := by
  have known : ∃ free, Inv s free :=
    reach.invariant (I := fun s => ∃ free, Inv s free) ⟨_, initial_inv⟩ fun known allowed stepped => by
      obtain ⟨free, inv⟩ := known
      exact inv.preserved allowed stepped
  obtain ⟨free, inv⟩ := known
  refine ⟨⟨free, inv.allocated⟩, fun stepped before after => ?_⟩
  have allocated := inv.allocated
  have leads := allocated.leads
  rw [invalid_none stepped before after] at leads
  cases free with
  | nil => exact allocated
  | cons i rest => cases leads.1

/-- Two scopes take slots while a third one stands before its exchange, having read a link; one of
them ends, and the third one finds that the head has changed. -/
def recycledLabels : List Label :=
  [.create 0, .advance 0 false, .advance 0 false, .advance 0 false, .advance 0 false,
    .create 1, .advance 1 false, .advance 1 false,
    .create 2, .advance 2 false, .advance 2 false, .advance 2 false, .advance 2 false,
    .destroy 2, .advance 2 false, .advance 2 false, .advance 2 false,
    .advance 1 false, .advance 1 false, .advance 1 false]

def recycledRun : State := (run step fewChanges initial recycledLabels).getD initial

theorem recycledRun_reach : Reach step fewChanges initial recycledRun :=
  Reach.of_isSome recycledLabels (by decide +kernel)

/-- What is next to make a scope invalid would find no slot free. -/
theorem recycledRun_allocated : recycledRun.phase 1 ≠ .invalid ∧
    (∃ free, Allocated recycledRun free) ∧
    ∀ a t k, step recycledRun a = some t → recycledRun.phase k ≠ .invalid →
      t.phase k = .invalid → Allocated recycledRun [] :=
  ⟨by decide +kernel, (slots_allocated recycledRun_reach).1,
    fun _ _ _ => (slots_allocated recycledRun_reach).2⟩

end JLibSched.FreeSlots
