import JLibSched.Scopes.Stale

/-!
# `Cancelled` beside constructors and destructors

`Cancelled` loads the state of a slot, and then its parent.  In between the scope may end and the
slot go to another one, whose parent it then follows.  If no constructor writes a parent into a slot
while a reader stands between its two loads of it, whatever reads as cancelled has been cancelled,
or a scope of its chain has.
-/

namespace JLibSched.Scopes.Racing

open Transition Cancel

/-- A call of `Cancelled` on the token of scope `k`, with the rounds that are left. -/
inductive Reader where
  | idle
  /-- It is about to look at a token and to load the state of its slot. -/
  | loadState (k depth raw : Nat)
  /-- The generation fits and the bit is not set: it is about to load the parent. -/
  | loadParent (k depth raw : Nat)
  | returned (k : Nat) (result : Bool)
deriving DecidableEq, Repr

structure State (n : Nat) where
  scopes : Scopes.State
  reader : Fin n → Reader
  /-- The ancestors of a scope that were alive when it was made, up to the first one that was
  not.  No step looks at it. -/
  lineage : Nat → List Nat

def initial (n : Nat) : State n where
  scopes := Scopes.initial
  reader := fun _ => .idle
  lineage := fun _ => []

inductive Label (n : Nat) where
  | scopes (a : Scopes.Label)
  | cancelled (r : Fin n) (k : Nat)
  /-- A reader takes its next step. -/
  | read (r : Fin n)
deriving DecidableEq, Repr

variable {n : Nat}

/-- The test of the token and the load of the state. -/
def loadState (slots : Table) (k : Nat) : Nat → Nat → Reader
  | 0, _ => .returned k false
  | depth + 1, raw =>
    if raw = kNone then .returned k false
    else if kCancelSlots ≤ index raw then .returned k false
    else if (slots (index raw)).genOf ≠ gen raw then .returned k false
    else if (slots (index raw)).cancelled then .returned k true
    else .loadParent k depth raw

def readStep (slots : Table) : Reader → Option Reader
  | .loadState k depth raw => some (loadState slots k depth raw)
  | .loadParent k depth raw => some (.loadState k depth (slots (index raw)).parent)
  | .returned _ _ => some .idle
  | .idle => none

/-- The ancestors of a scope that has found its parent `p`. -/
def ancestors (s : State n) (p : Nat) : List Nat :=
  p :: (s.lineage p).takeWhile fun x => !(s.scopes.phase x).ended

/-- What a step of a scope adds to the lineages. -/
def nextLineage (s : State n) : Scopes.Label → Nat → List Nat
  | .advance k =>
    match s.scopes.phase k, s.scopes.within k with
    | .resolving _ parent, some p =>
      if finds s.scopes.slots parent then Function.update s.lineage k (ancestors s p)
      else s.lineage
    | _, _ => s.lineage
  | .create _ | .destroy _ | .cancel _ | .cancelVia _ => s.lineage

def step (s : State n) : Label n → Option (State n)
  | .scopes a =>
    (Scopes.step s.scopes a).map fun scopes =>
      { s with scopes := scopes, lineage := nextLineage s a }
  | .cancelled r k =>
    if s.reader r = .idle ∧ (s.scopes.phase k).made then
      some { s with
        reader := Function.update s.reader r (.loadState k kMaxScopeDepth (s.scopes.raw k)) }
    else none
  | .read r =>
    (readStep s.scopes.slots (s.reader r)).map fun reader =>
      { s with reader := Function.update s.reader r reader }

/-- It stands between its two loads of slot `i`. -/
def Reader.between (i : Nat) : Reader → Bool
  | .loadParent _ _ raw => decide (index raw = i)
  | .idle | .loadState _ _ _ | .returned _ _ => false

/-- The slot that a constructor is about to write a parent into. -/
def writesParent : Phase → Option Nat
  | .storing i parent => if parent = kNone then none else some i
  | .unborn | .resolving _ _ | .reading _ | .live | .clearing _ | .releasing _ | .gone => none

/-- No constructor writes a parent into a slot between a reader's two loads of it. -/
def undisturbed (s : State n) : Label n → Prop
  | .scopes (.advance k) =>
    ∀ i ∈ writesParent (s.scopes.phase k), ∀ r, (s.reader r).between i = false
  | .scopes (.create _) | .scopes (.destroy _) | .scopes (.cancel _) | .scopes (.cancelVia _)
  | .cancelled _ _ | .read _ => True

instance (s : State n) : (a : Label n) → Decidable (undisturbed s a)
  | .scopes (.advance k) => inferInstanceAs (Decidable
      (∀ i ∈ writesParent (s.scopes.phase k), ∀ r, (s.reader r).between i = false))
  | .scopes (.create _) | .scopes (.destroy _) | .scopes (.cancel _) | .scopes (.cancelVia _)
  | .cancelled _ _ | .read _ => isTrue trivial

/-- Each slot is used less than `2 ^ 16` times. -/
def scopesLast (s : State n) : Label n → Prop
  | .scopes a => lasting s.scopes a
  | .cancelled _ _ | .read _ => True

instance (s : State n) : (a : Label n) → Decidable (scopesLast s a)
  | .scopes a => inferInstanceAs (Decidable (lasting s.scopes a))
  | .cancelled _ _ | .read _ => isTrue trivial

/-- Besides, no constructor comes between the two loads of a reader. -/
def apart (s : State n) (a : Label n) : Prop := scopesLast s a ∧ undisturbed s a

instance (s : State n) (a : Label n) : Decidable (apart s a) :=
  inferInstanceAs (Decidable (scopesLast s a ∧ undisturbed s a))

/-- A scope of the chain of `k` has been cancelled. -/
def CancelledBefore (s : State n) (k : Nat) : Prop :=
  ∃ x ∈ k :: s.lineage k, s.scopes.asked x = true

/-! ## A reader that nobody disturbs -/

/-- A reader takes its next step. -/
theorem reads (s : State n) (r : Fin n) {pc pc' : Reader} (here : s.reader r = pc)
    (next : readStep s.scopes.slots pc = some pc') :
    Reach step (fun _ a => a = .read r) s
      { s with reader := Function.update s.reader r pc' } := by
  refine Reach.start.next (a := .read r) rfl ?_
  simp only [step]
  rw [here, next]
  rfl

/-- A reader comes to the result of `Cancelled` if the slots stay as they are. -/
theorem reads_cancelled (s : State n) (r : Fin n) {k depth raw : Nat}
    (here : s.reader r = .loadState k depth raw) :
    Reach step (fun _ a => a = .read r) s { s with
      reader := Function.update s.reader r
        (.returned k (cancelledFrom s.scopes.slots depth raw)) } := by
  induction depth generalizing s raw with
  | zero => exact reads s r here rfl
  | succ depth ih =>
    have first := reads s r here rfl
    simp only [Racing.loadState] at first
    rw [cancelledFrom]
    split at first
    · rename_i none
      rw [if_pos none]
      exact first
    · rename_i valid
      rw [if_neg valid]
      split at first
      · rename_i out
        rw [if_pos out]
        exact first
      · rename_i inTable
        rw [if_neg inTable]
        split at first
        · rename_i stale
          rw [if_pos stale]
          exact first
        · rename_i current
          rw [if_neg current]
          split at first
          · rename_i bit
            rw [if_pos bit]
            exact first
          · rename_i clear
            rw [if_neg clear]
            have second := reads { s with
              reader := Function.update s.reader r (.loadParent k depth raw) } r
              (Function.update_self _ _ _) rfl
            have rest := ih { s with
              reader := Function.update (Function.update s.reader r (.loadParent k depth raw)) r
                (.loadState k depth (s.scopes.slots (index raw)).parent) }
              (Function.update_self _ _ _)
            simp only [Function.update_idem] at second rest
            exact (first.trans second).trans rest

/-! ## What a step does to the scopes -/

section Scopes

variable {s t : Scopes.State} {a : Scopes.Label} {i k p x y : Nat}

/-- A parent that is looked up. -/
structure Finds (s t : Scopes.State) (a : Scopes.Label) (k : Nat) : Prop where
  label : a = .advance k
  found : ∃ i v, s.phase k = .resolving i v ∧ finds s.slots v = true
  parent : t.parent = Function.update s.parent k (s.within k)

/-- What a step may do to the parents and the bits. -/
structure Effects (s t : Scopes.State) (a : Scopes.Label) : Prop where
  asked : ∀ k, s.asked k = true → t.asked k = true
  parent : t.parent = s.parent ∨ ∃ k, Finds s t a k
  slot : ∀ i, (t.slots i).parent = (s.slots i).parent ∨ (t.slots i).parent = kNone ∨
    ∃ k v, a = .advance k ∧ s.phase k = .storing i v ∧ (t.slots i).parent = v
  /-- A bit is set by `Cancel` or `CancelVia`. -/
  bit : ∀ i, (t.slots i).cancelled = true → (s.slots i).cancelled = true ∨
    ∃ k, index (s.raw k) = i ∧ (s.phase k).made = true ∧ s.raw k ≠ kNone ∧
      (s.phase k = .live → t.asked k = true ∧ t.phase k = .live) ∧
      (s.phase k ≠ .live → (s.slots i).genOf = gen (s.raw k))

/-- A step that leaves the slots alone. -/
theorem Effects.calm (asked : t.asked = s.asked) (parent : t.parent = s.parent ∨ ∃ k, Finds s t a k)
    (slots : t.slots = s.slots) : Effects s t a where
  asked k here := by rwa [asked]
  parent := parent
  slot i := .inl (by rw [slots])
  bit i here := .inl (by rwa [slots] at here)

/-- A step that writes the parent of a slot. -/
theorem Effects.write (asked : t.asked = s.asked) (parent : t.parent = s.parent) {v : Nat}
    (slots : t.slots = Function.update s.slots i { s.slots i with parent := v })
    (known : v = kNone ∨ ∃ k, a = .advance k ∧ s.phase k = .storing i v) : Effects s t a where
  asked k here := by rwa [asked]
  parent := .inl parent
  slot i' := by
    rcases eq_or_ne i' i with rfl | other
    · have written : (t.slots i').parent = v := by
        rw [slots, Function.update_self]
      rcases known with none | ⟨k, label, here⟩
      · exact .inr (.inl (written.trans none))
      · exact .inr (.inr ⟨k, v, label, here, written⟩)
    · rw [slots, Function.update_of_ne other]
      exact .inl rfl
  bit i' here := by
    left
    rw [slots] at here
    rcases eq_or_ne i' i with rfl | other
    · rwa [Function.update_self] at here
    · rwa [Function.update_of_ne other] at here

theorem effects_advance (stepped : Scopes.advance s k = some t) : Effects s t (.advance k) := by
  unfold Scopes.advance at stepped
  cases here : s.phase k with
  | unborn | live | gone =>
    rw [here] at stepped
    cases stepped
  | resolving i v =>
    rw [here] at stepped
    simp only at stepped
    split at stepped
    · rename_i found
      cases stepped
      exact .calm rfl (.inr ⟨k, rfl, ⟨i, v, here, found⟩, rfl⟩) rfl
    · cases stepped
      exact .calm rfl (.inl rfl) rfl
  | storing i v =>
    rw [here] at stepped
    cases stepped
    exact .write rfl rfl rfl (.inr ⟨k, rfl, here⟩)
  | reading i | releasing i =>
    rw [here] at stepped
    cases stepped
    exact .calm rfl (.inl rfl) rfl
  | clearing i =>
    rw [here] at stepped
    cases stepped
    exact .write rfl rfl rfl (.inl rfl)

theorem effects_destroy : Effects s (s.destroy k) (.destroy k) := by
  unfold State.destroy
  split
  · exact .calm rfl (.inl rfl) rfl
  · constructor
    case asked => exact fun _ => id
    case parent => exact .inl rfl
    case slot =>
      intro i
      left
      simp only [State.write]
      rcases eq_or_ne i (index (s.raw k)) with rfl | other
      · rw [Function.update_self]
        rfl
      · rw [Function.update_of_ne other]
        rfl
    case bit =>
      intro i here
      left
      simp only [State.write] at here
      rcases eq_or_ne i (index (s.raw k)) with rfl | other
      · rw [Function.update_self] at here
        cases here
      · rw [Function.update_of_ne other] at here
        exact here

theorem asked_update {asked : Nat → Bool} (here : asked x = true) :
    Function.update asked k true x = true := by
  rcases eq_or_ne x k with rfl | other
  · exact Function.update_self _ _ _
  · rwa [Function.update_of_ne other]

theorem effects_cancel (live : s.phase k = .live) : Effects s (s.cancel k) (.cancel k) := by
  unfold State.cancel
  split
  · exact ⟨fun _ => asked_update, .inl rfl, fun _ => .inl rfl, fun _ => .inl⟩
  · rename_i valid
    refine ⟨fun _ => asked_update, .inl rfl, fun i => .inl ?_, fun i here => ?_⟩
    · simp only [State.write]
      rcases eq_or_ne i (index (s.raw k)) with rfl | other
      · rw [Function.update_self]
      · rw [Function.update_of_ne other]
    · simp only [State.write] at here
      rcases eq_or_ne i (index (s.raw k)) with rfl | other
      · exact .inr ⟨k, rfl, by rw [live]; rfl, valid,
          fun _ => ⟨Function.update_self _ _ _, live⟩, fun absurd => absurd.elim live⟩
      · rw [Function.update_of_ne other] at here
        exact .inl here

theorem effects_cancelVia (made : (s.phase k).made = true) :
    Effects s { s with
      slots := (Cancel.cancelVia s.slots (s.raw k)).1
      asked := if s.phase k = .live then Function.update s.asked k true else s.asked }
      (.cancelVia k) := by
  refine ⟨fun x here => ?_, .inl rfl, fun i => .inl (cancelVia_slot s.slots (s.raw k) i).2,
    fun i here => ?_⟩
  · simp only
    split
    · exact asked_update here
    · exact here
  · simp only [Cancel.cancelVia] at here
    split at here
    · exact .inl here
    · rename_i valid
      split at here
      · exact .inl here
      · split at here
        · exact .inl here
        · rename_i current
          rcases eq_or_ne i (index (s.raw k)) with rfl | other
          · refine .inr ⟨k, rfl, made, valid, fun live => ⟨?_, live⟩, fun _ => not_not.mp current⟩
            simp only [if_pos live, Function.update_self]
          · simp only [Function.update_of_ne other] at here
            exact .inl here

theorem effects_of_step (stepped : Scopes.step s a = some t) : Effects s t a := by
  cases a with
  | advance k => exact effects_advance stepped
  | create parent =>
    simp only [Scopes.step] at stepped
    split at stepped
    · cases stepped
      unfold State.create
      cases s.freeHead with
      | none => exact .calm rfl (.inl rfl) rfl
      | some i => exact .calm rfl (.inl rfl) rfl
    · cases stepped
  | destroy k =>
    simp only [Scopes.step] at stepped
    split at stepped
    · cases stepped
      exact effects_destroy
    · cases stepped
  | cancel k =>
    simp only [Scopes.step] at stepped
    split at stepped
    · rename_i live
      cases stepped
      exact effects_cancel live
    · cases stepped
  | cancelVia k =>
    simp only [Scopes.step] at stepped
    split at stepped
    · rename_i made
      cases stepped
      exact effects_cancelVia made
    · cases stepped

/-- The cancelled slots are those of live scopes that were cancelled. -/
def Clean (s : Scopes.State) : Prop :=
  ∀ i, (s.slots i).cancelled = true → ∃ k, s.Holds k ∧ index (s.raw k) = i ∧ s.asked k = true

theorem Clean.step (clean : Clean s) (sound : Sound s) (stepped : Scopes.step s a = some t) :
    Clean t := by
  have effects := effects_of_step stepped
  have grows := sound.grows stepped
  -- a live scope is still alive, or its destructor has begun
  have stays {k : Nat} (holds : s.Holds k) (stays : a ≠ .destroy k) : t.Holds k := by
    rcases made_cases (grows.made k holds.made) with live | ended
    · exact ⟨live, by rw [grows.raw k holds.made]; exact holds.valid⟩
    · rcases ended_before stepped ended with before | destroyed
      · rw [holds.live] at before
        cases before
      · exact absurd destroyed stays
  intro i bit
  rcases effects.bit i bit with before | ⟨k, rfl, made, valid, live, notLive⟩
  · obtain ⟨k, holds, rfl, asked⟩ := clean i before
    rcases eq_or_ne a (.destroy k) with rfl | other
    · -- the exchange clears the bit
      simp only [Scopes.step] at stepped
      rw [if_pos holds.live] at stepped
      cases stepped
      unfold State.destroy at bit
      simp only [if_neg holds.valid, State.write, Function.update_self] at bit
      cases bit
    · refine ⟨k, stays holds other, ?_, effects.asked k asked⟩
      rw [grows.raw k holds.made]
  · have holds : s.Holds k := by
      by_cases here : s.phase k = .live
      · exact ⟨here, valid⟩
      · exact sound.dated.live_of_current made valid (notLive here)
    obtain ⟨asked, still⟩ := live holds.live
    refine ⟨k, ⟨still, ?_⟩, ?_, asked⟩
    · rw [grows.raw k made]
      exact valid
    · rw [grows.raw k made]

/-- The cancelled bit that a reader finds is its own scope's. -/
theorem Clean.asked (clean : Clean s) (sound : Sound s) (holds : s.Holds x)
    (bit : (s.slots (index (s.raw x))).cancelled = true) : s.asked x = true := by
  obtain ⟨free, owned⟩ := sound.owned
  obtain ⟨k, holds', same, asked⟩ := clean _ bit
  have held := holds'.slotOf
  rw [same] at held
  rwa [owned.single k x _ held holds.slotOf] at asked

/-! ## Lineages -/

/-- The list goes from a scope to the parents that were found, as far as they had not ended. -/
def Follows (s : Scopes.State) : Nat → List Nat → Prop
  | x, [] => ∀ y, s.parent x = some y → (s.phase y).ended = true
  | x, y :: rest => s.parent x = some y ∧ Follows s y rest

theorem Follows.next {l : List Nat} {z : Nat} (follows : Follows s x l) (mem : z ∈ x :: l)
    (parent : s.parent z = some y) : y ∈ l ∨ (s.phase y).ended = true := by
  induction l generalizing x with
  | nil =>
    obtain rfl := List.mem_singleton.mp mem
    exact .inr (follows y parent)
  | cons w rest ih =>
    obtain ⟨first, others⟩ := follows
    rcases List.mem_cons.mp mem with rfl | behind
    · cases first.symm.trans parent
      exact .inl List.mem_cons_self
    · rcases ih others behind with found | ended
      · exact .inl (List.mem_cons_of_mem w found)
      · exact .inr ended

theorem Follows.mono {l : List Nat} (follows : Follows s x l)
    (same : ∀ z ∈ x :: l, t.parent z = s.parent z)
    (ended : ∀ z, (s.phase z).ended = true → (t.phase z).ended = true) : Follows t x l := by
  induction l generalizing x with
  | nil =>
    intro y parent
    rw [same x (List.mem_singleton_self x)] at parent
    exact ended y (follows y parent)
  | cons w rest ih =>
    obtain ⟨first, others⟩ := follows
    refine ⟨?_, ih others fun z mem => same z (List.mem_cons_of_mem x mem)⟩
    rw [same x List.mem_cons_self]
    exact first

/-- The list may be cut where a scope has ended. -/
theorem Follows.takeWhile {l : List Nat} (follows : Follows s x l) :
    Follows s x (l.takeWhile fun z => !(s.phase z).ended) := by
  induction l generalizing x with
  | nil => exact follows
  | cons w rest ih =>
    obtain ⟨first, others⟩ := follows
    rw [List.takeWhile_cons]
    split
    · exact ⟨first, ih others⟩
    · rename_i ended
      intro y parent
      cases first.symm.trans parent
      rwa [Bool.not_eq_true, Bool.not_eq_false'] at ended

end Scopes

/-! ## What readers know -/

variable {s t : State n}

/-- What a reader knows about the token it follows. -/
def Knows (s : State n) : Reader → Prop
  | .idle => True
  | .loadState k _ raw => (s.scopes.phase k).made = true ∧
      (raw = kNone ∨ ∃ x, (s.scopes.phase x).made = true ∧ s.scopes.raw x = raw ∧
        (x ∈ k :: s.lineage k ∨ (s.scopes.phase x).ended = true))
  | .loadParent k _ raw => (s.scopes.phase k).made = true ∧
      ∃ x ∈ k :: s.lineage k, (s.scopes.phase x).made = true ∧ s.scopes.raw x = raw ∧
        ((s.scopes.slots (index raw)).parent = kNone ∨
          (s.scopes.slots (index raw)).parent = s.scopes.parentRaw x)
  | .returned k result => (s.scopes.phase k).made = true ∧ (result = true → CancelledBefore s k)

structure Inv (s : State n) : Prop where
  sound : Sound s.scopes
  clean : Clean s.scopes
  follows : ∀ k, Follows s.scopes k (s.lineage k)
  members : ∀ k, ∀ x ∈ s.lineage k, (s.scopes.phase x).made = true
  readers : ∀ r, Knows s (s.reader r)

theorem initial_inv : Inv (initial n) where
  sound := initial_sound
  clean i absurd := by cases absurd
  follows k y absurd := by cases absurd
  members k x absurd := by cases absurd
  readers r := trivial

/-- A reader looks at a token that names a live scope, or one that has ended. -/
theorem Inv.loadState (inv : Inv s) {k depth raw : Nat}
    (knows : Knows s (.loadState k depth raw)) :
    Knows s (Racing.loadState s.scopes.slots k depth raw) := by
  obtain ⟨made, names⟩ := knows
  have no : Knows s (.returned k false) := ⟨made, fun absurd => by cases absurd⟩
  cases depth with
  | zero => exact no
  | succ depth =>
    simp only [Racing.loadState]
    split
    · exact no
    · rename_i valid
      split
      · exact no
      · split
        · exact no
        · rename_i current
          rcases names with none | ⟨x, madeX, rfl, place⟩
          · exact absurd none valid
          · have holds := inv.sound.dated.live_of_current madeX valid (not_not.mp current)
            have mem : x ∈ k :: s.lineage k := by
              rcases place with here | ended
              · exact here
              · rw [holds.live] at ended
                cases ended
            split
            · rename_i bit
              exact ⟨made, fun _ => ⟨x, mem, inv.clean.asked inv.sound holds bit⟩⟩
            · refine ⟨made, x, mem, madeX, rfl, .inr ?_⟩
              exact (inv.sound.fits x).stored _ holds.slotOf (by rw [holds.live]; rfl)

/-- It goes on to the parent that was found. -/
theorem Inv.loadParent (inv : Inv s) {k depth raw : Nat}
    (knows : Knows s (.loadParent k depth raw)) :
    Knows s (.loadState k depth (s.scopes.slots (index raw)).parent) := by
  obtain ⟨made, x, mem, madeX, rfl, parent⟩ := knows
  refine ⟨made, ?_⟩
  rcases parent with none | same
  · exact .inl none
  · rw [same]
    cases here : s.scopes.parent x with
    | none => exact .inl (parentRaw_none here)
    | some y =>
      have within := (inv.sound.fits x).parent y here
      exact .inr ⟨y, ((inv.sound.fits x).older y within).2, (parentRaw_some here).symm,
        (inv.follows k).next mem here |>.imp_left (List.mem_cons_of_mem k)⟩

theorem Inv.read (inv : Inv s) {r : Fin n} (stepped : step s (.read r) = some t) : Inv t := by
  simp only [step] at stepped
  obtain ⟨reader, next, rfl⟩ := Option.map_eq_some_iff.mp stepped
  have knows := inv.readers r
  have new : Knows s reader := by
    cases here : s.reader r with
    | idle =>
      rw [here] at next
      cases next
    | loadState k depth raw =>
      rw [here] at next knows
      cases next
      exact inv.loadState knows
    | loadParent k depth raw =>
      rw [here] at next knows
      cases next
      exact inv.loadParent knows
    | returned k result =>
      rw [here] at next
      cases next
      trivial
  refine ⟨inv.sound, inv.clean, inv.follows, inv.members, fun r' => ?_⟩
  rcases eq_or_ne r' r with rfl | other
  · simp only [Function.update_self]
    exact new
  · simp only [Function.update_of_ne other]
    exact inv.readers r'

theorem Inv.call (inv : Inv s) {r : Fin n} {k : Nat}
    (stepped : step s (.cancelled r k) = some t) : Inv t := by
  simp only [step] at stepped
  split at stepped
  · rename_i may
    cases stepped
    refine ⟨inv.sound, inv.clean, inv.follows, inv.members, fun r' => ?_⟩
    rcases eq_or_ne r' r with rfl | other
    · simp only [Function.update_self]
      exact ⟨may.2, .inr ⟨k, may.2, rfl, .inl List.mem_cons_self⟩⟩
    · simp only [Function.update_of_ne other]
      exact inv.readers r'
  · cases stepped

/-! ## Steps of scopes -/

/-- What a step of a scope does to the parents and the lineages. -/
inductive Lines (s t : State n) : Prop where
  | same (parent : t.scopes.parent = s.scopes.parent) (lineage : t.lineage = s.lineage)
  | found (k p : Nat) (unmade : (s.scopes.phase k).made = false)
      (made : (s.scopes.phase p).made = true)
      (parent : t.scopes.parent = Function.update s.scopes.parent k (some p))
      (lineage : t.lineage = Function.update s.lineage k (ancestors s p))

theorem lines_of_step (inv : Inv s) {a : Scopes.Label} (stepped : step s (.scopes a) = some t) :
    Lines s t := by
  simp only [step] at stepped
  obtain ⟨scopes, moved, rfl⟩ := Option.map_eq_some_iff.mp stepped
  have effects := effects_of_step moved
  cases a with
  | create | destroy | cancel | cancelVia =>
    rcases effects.parent with same | ⟨k, finds⟩
    · exact .same same rfl
    · cases finds.label
  | advance k =>
    cases here : s.scopes.phase k with
    | resolving i v =>
      obtain ⟨p, within, rfl⟩ := (inv.sound.fits k).resolving i v here
      have made := ((inv.sound.fits k).older p within).2
      simp only [Scopes.step, Scopes.advance] at moved
      rw [here] at moved
      simp only at moved
      split at moved
      · rename_i found
        cases moved
        refine .found k p (by rw [here]; rfl) made (by rw [← within]) ?_
        simp only [nextLineage]
        rw [here, within]
        exact if_pos found
      · rename_i lost
        cases moved
        refine .same rfl ?_
        simp only [nextLineage]
        rw [here, within]
        exact if_neg lost
    | unborn | storing | reading | live | clearing | releasing | gone =>
      refine .same ?_ ?_
      · rcases effects.parent with same | ⟨l, finds⟩
        · exact same
        · obtain ⟨i, v, absurd, -⟩ := finds.found
          cases finds.label
          cases here.symm.trans absurd
      · simp only [nextLineage]
        rw [here]

/-- A scope that was made keeps its parent and its lineage. -/
theorem Lines.kept (lines : Lines s t) {x : Nat} (made : (s.scopes.phase x).made = true) :
    t.scopes.parent x = s.scopes.parent x ∧ t.lineage x = s.lineage x := by
  cases lines with
  | same parent lineage => exact ⟨by rw [parent], by rw [lineage]⟩
  | found k p unmade madeP parent lineage =>
    have other : x ≠ k := by
      rintro rfl
      rw [made] at unmade
      cases unmade
    rw [parent, lineage]
    exact ⟨Function.update_of_ne other _ _, Function.update_of_ne other _ _⟩

theorem Inv.follows_step (inv : Inv s) (lines : Lines s t) (grows : Grows s.scopes t.scopes)
    (k : Nat) : Follows t.scopes k (t.lineage k) := by
  have old {x : Nat} {l : List Nat} (follows : Follows s.scopes x l)
      (same : t.scopes.parent x = s.scopes.parent x)
      (members : ∀ z ∈ l, (s.scopes.phase z).made = true) : Follows t.scopes x l := by
    refine follows.mono (fun z mem => ?_) grows.ended
    rcases List.mem_cons.mp mem with rfl | behind
    · exact same
    · exact (lines.kept (members z behind)).1
  cases lines with
  | same parent lineage =>
    rw [lineage]
    exact old (inv.follows k) (by rw [parent]) (inv.members k)
  | found k' p unmade made parent lineage =>
    rcases eq_or_ne k k' with rfl | other
    · rw [lineage, Function.update_self]
      refine ⟨by rw [parent, Function.update_self], ?_⟩
      refine old (inv.follows p).takeWhile ?_ fun z mem => ?_
      · exact (Lines.kept (.found k p unmade made parent lineage) made).1
      · exact inv.members p z ((List.takeWhile_sublist _).subset mem)
    · rw [lineage, Function.update_of_ne other]
      exact old (inv.follows k) (by rw [parent, Function.update_of_ne other]) (inv.members k)

theorem Inv.members_step (inv : Inv s) (lines : Lines s t) (grows : Grows s.scopes t.scopes)
    (k x : Nat) (mem : x ∈ t.lineage k) : (t.scopes.phase x).made = true := by
  refine grows.made x ?_
  cases lines with
  | same parent lineage =>
    rw [lineage] at mem
    exact inv.members k x mem
  | found k' p unmade made parent lineage =>
    rw [lineage] at mem
    rcases eq_or_ne k k' with rfl | other
    · rw [Function.update_self] at mem
      rcases List.mem_cons.mp mem with rfl | behind
      · exact made
      · exact inv.members p x ((List.takeWhile_sublist _).subset behind)
    · rw [Function.update_of_ne other] at mem
      exact inv.members k x mem

/-- A reader between its two loads of a slot finds the parent of its own scope there, or none. -/
theorem between_step {a : Scopes.Label} {r : Fin n} {k depth raw : Nat}
    (stepped : step s (.scopes a) = some t) (allowed : undisturbed s (.scopes a))
    (here : s.reader r = .loadParent k depth raw) :
    (t.scopes.slots (index raw)).parent = (s.scopes.slots (index raw)).parent ∨
      (t.scopes.slots (index raw)).parent = kNone := by
  simp only [step] at stepped
  obtain ⟨scopes, moved, rfl⟩ := Option.map_eq_some_iff.mp stepped
  rcases (effects_of_step moved).slot (index raw) with same | none | ⟨l, v, rfl, storing, written⟩
  · exact .inl same
  · exact .inr none
  · right
    by_contra foreign
    have writes : writesParent (s.scopes.phase l) = some (index raw) := by
      rw [storing]
      exact if_neg (written ▸ foreign)
    have between := allowed (index raw) writes r
    rw [here] at between
    exact of_decide_eq_false between rfl

theorem Inv.knows_step (inv : Inv s) {a : Scopes.Label} {r : Fin n}
    (stepped : step s (.scopes a) = some t) (allowed : undisturbed s (.scopes a)) :
    Knows t (s.reader r) := by
  have lines := lines_of_step inv stepped
  have slot {k depth raw : Nat} (here : s.reader r = .loadParent k depth raw) :=
    between_step stepped allowed here
  simp only [step] at stepped
  obtain ⟨scopes, moved, rfl⟩ := Option.map_eq_some_iff.mp stepped
  have grows := inv.sound.grows moved
  have effects := effects_of_step moved
  have knows := inv.readers r
  cases here : s.reader r with
  | idle => trivial
  | loadState k depth raw =>
    rw [here] at knows
    obtain ⟨made, names⟩ := knows
    refine ⟨grows.made k made, ?_⟩
    rcases names with none | ⟨x, madeX, same, place⟩
    · exact .inl none
    · refine .inr ⟨x, grows.made x madeX, (grows.raw x madeX).trans same, ?_⟩
      rw [(lines.kept made).2]
      exact place.imp_right (grows.ended x)
  | loadParent k depth raw =>
    rw [here] at knows
    obtain ⟨made, x, mem, madeX, same, parent⟩ := knows
    refine ⟨grows.made k made, x, ?_, grows.made x madeX, (grows.raw x madeX).trans same, ?_⟩
    · rw [(lines.kept made).2]
      exact mem
    · rw [(inv.sound.fits x).parentRaw_eq grows (lines.kept madeX).1]
      rcases slot here with still | none
      · simp only at still
        rw [still]
        exact parent
      · exact .inl none
  | returned k result =>
    rw [here] at knows
    obtain ⟨made, before⟩ := knows
    refine ⟨grows.made k made, fun yes => ?_⟩
    obtain ⟨x, mem, asked⟩ := before yes
    exact ⟨x, by rw [(lines.kept made).2]; exact mem, effects.asked x asked⟩

theorem Inv.scopes (inv : Inv s) {a : Scopes.Label} (stepped : step s (.scopes a) = some t)
    (allowed : apart s (.scopes a)) : Inv t := by
  have lines := lines_of_step inv stepped
  have knows (r : Fin n) := inv.knows_step (r := r) stepped allowed.2
  simp only [step] at stepped
  obtain ⟨scopes, moved, rfl⟩ := Option.map_eq_some_iff.mp stepped
  have grows := inv.sound.grows moved
  exact {
    sound := inv.sound.step allowed.1 moved
    clean := inv.clean.step inv.sound moved
    follows := inv.follows_step lines grows
    members := inv.members_step lines grows
    readers := knows }

theorem inv_of_reach (reach : Reach step apart (initial n) s) : Inv s := by
  refine reach.invariant initial_inv fun {s t a} inv allowed stepped => ?_
  cases a with
  | scopes a => exact inv.scopes stepped allowed
  | cancelled r k => exact inv.call stepped
  | read r => exact inv.read stepped

/-- If no constructor writes a parent between a reader's two loads of a slot, and no slot comes to
its last generation, a scope whose token reads as cancelled has been cancelled, or one of the
ancestors has that were alive when it was made. -/
theorem cancelled_sound (reach : Reach step apart (initial n) s) (r : Fin n) (k : Nat)
    (returned : s.reader r = .returned k true) : CancelledBefore s k := by
  have knows := (inv_of_reach reach).readers r
  rw [returned] at knows
  exact knows.2 rfl

/-- Scope 1 is made with the token of scope 0, which is cancelled; a reader finds that. -/
def quietLabels : List (Label 1) :=
  [.scopes (.create none), .scopes (.advance 0), .scopes (.advance 0),
    .scopes (.create (some 0)), .scopes (.advance 1), .scopes (.advance 1), .scopes (.advance 1),
    .cancelled 0 1, .read 0, .scopes (.cancel 0), .read 0, .read 0]

def quiet : State 1 := (run step apart (initial 1) quietLabels).getD (initial 1)

theorem quiet_sound : quiet.lineage 1 = [0] ∧ CancelledBefore quiet 1 :=
  ⟨by decide +kernel,
    cancelled_sound (Reach.of_isSome quietLabels (by decide +kernel)) 0 1 (by decide +kernel)⟩

/-- A reader has loaded the state of scope 0.  The scope ends, and its slot goes to scope 2, which
is made with the token of scope 1; the reader goes on to scope 1, which is cancelled. -/
def strayLabels : List (Label 1) :=
  [.scopes (.create none), .scopes (.advance 0), .scopes (.advance 0),
    .scopes (.create none), .scopes (.advance 1), .scopes (.advance 1), .scopes (.cancel 1),
    .cancelled 0 0, .read 0,
    .scopes (.destroy 0), .scopes (.advance 0), .scopes (.advance 0),
    .scopes (.create (some 1)), .scopes (.advance 2), .scopes (.advance 2), .read 0, .read 0]

def stray : State 1 := (run step scopesLast (initial 1) strayLabels).getD (initial 1)

/-- Scope 0 reads as cancelled, and has no ancestors and was never cancelled. -/
theorem stray_cancelled : Reach step scopesLast (initial 1) stray ∧
    stray.reader 0 = .returned 0 true ∧ ¬ CancelledBefore stray 0 := by
  refine ⟨Reach.of_isSome strayLabels (by decide +kernel), by decide +kernel, ?_⟩
  rintro ⟨x, mem, asked⟩
  have alone : stray.lineage 0 = [] := by decide +kernel
  rw [alone] at mem
  obtain rfl := List.mem_singleton.mp mem
  have unasked : stray.scopes.asked 0 = false := by decide +kernel
  rw [asked] at unasked
  cases unasked

end JLibSched.Scopes.Racing
