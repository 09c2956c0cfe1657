import JLibSched.Deque.Linearizable

/-!
# The work flag

A hunter looks at a deque's work flag before it looks at the deque.  The owner sets the flag at the
end of a push and clears it on the exits of `pop_bottom` that leave nothing, and writes it only when
its own copy of it says that it changes.

In the middle of a call the flag lags behind, but never the way that hides work: as long as the
owner is not about to set it, it is set while thieves have something to take.
-/

namespace JLibSched.Deque

open Transition

/-- Between the owner's calls the flag of a deque with something in it is 1, and the owner's copy
of the flag is right. -/
def WorkShown (s : State) : Prop :=
  s.owner = .idle → (s.top < s.bottom → s.workFlag = 1) ∧ s.flagMirror = s.workFlag

/-! ## Invariant -/

/-- Thieves may take what is below this index. -/
def State.limit (s : State) : Nat := s.owner.limit s.bottom

/-- What the owner's place says of `top` and `bottom`. -/
def OwnerPc.Marks (top bottom : Nat) : OwnerPc → Prop
  | .pushTop _ b | .pushRing _ b _ | .growLoad _ b _ _ _ | .growStore _ b _ _ _ _
  | .growPublish _ b _ _ | .pushReload _ b _ | .pushSlot _ b _ _ _ | .pushBottom _ b => b = bottom
  | .popTop b => b = bottom
  | .popStore b => b + 1 = bottom
  | .popReload b => bottom = b
  | .lastRing b | .lastSlot b _ | .lastCas b _ => bottom = b ∧ b ≤ top
  | .lastRestore b _ => bottom = b ∧ top = b + 1
  | .popRestore t => top = t ∧ bottom ≤ t
  | .popFlag _ => top = bottom
  | .idle | .pushFlag | .popRing _ | .popSlot _ _ | .fatal => True

/-- The owner is about to set the flag. -/
def OwnerPc.Flagging : OwnerPc → Prop
  | .pushFlag => True
  | _ => False

/-- What a thief has read: `top` at some earlier moment, and later that there was something to
take. -/
def ThiefPc.Saw (s : State) : ThiefPc → Prop
  | .idle => True
  | .bottom _ t => t ≤ s.top
  | .ring _ t | .slot _ t _ | .cas _ t _ => t ≤ s.top ∧ (t = s.top → s.top < s.limit)

structure Showing (s : State) : Prop where
  hasFlag : s.hasFlag = true
  mirror : s.flagMirror = s.workFlag
  top : s.top ≤ s.limit
  marks : s.owner.Marks s.top s.bottom
  flag : ¬ s.owner.Flagging → s.top < s.limit → s.workFlag = 1
  thief : ∀ i, (s.thief i).Saw s

variable {s u : State} {capacity maxCapacity : Nat} {pushOnly : Bool}

theorem initial_showing : Showing (initial capacity maxCapacity pushOnly true) where
  hasFlag := rfl
  mirror := rfl
  top := Nat.le_refl 0
  marks := trivial
  flag _ work := absurd work (Nat.lt_irrefl 0)
  thief _ := trivial

theorem Showing.shown (showing : Showing s) : WorkShown s := by
  intro idle
  have flag := showing.flag
  unfold State.limit at flag
  rw [idle] at flag
  exact ⟨flag id, showing.mirror⟩

/-- What a thief has read stays right while `top` only grows, and there stays something to take
as long as it does not. -/
theorem ThiefPc.Saw.transfer {pc : ThiefPc} (saw : pc.Saw s) (top : s.top ≤ u.top)
    (work : u.top = s.top → s.top < s.limit → s.top < u.limit) : pc.Saw u := by
  cases pc with
  | idle => trivial
  | bottom vet t => exact Nat.le_trans saw top
  | ring vet t | slot vet t r | cas vet t v =>
    refine ⟨Nat.le_trans saw.1 top, fun now => ?_⟩
    have still : u.top = s.top := Nat.le_antisymm (now ▸ saw.1) top
    rw [still]
    exact work still (saw.2 (now.trans still))

/-! ## The owner's steps -/

/-- The owner moves, and neither `top` nor the flag changes. -/
theorem Showing.moves (showing : Showing s) (hasFlag : u.hasFlag = s.hasFlag)
    (mirror : u.flagMirror = s.flagMirror) (workFlag : u.workFlag = s.workFlag)
    (top : u.top = s.top) (thief : u.thief = s.thief) (within : s.top ≤ u.limit)
    (work : s.top < s.limit → s.top < u.limit) (marks : u.owner.Marks s.top u.bottom)
    (flag : ¬ u.owner.Flagging → s.top < u.limit → ¬ s.owner.Flagging ∧ s.top < s.limit) :
    Showing u where
  hasFlag := hasFlag.trans showing.hasFlag
  mirror := by
    rw [mirror, workFlag]
    exact showing.mirror
  top := by
    rw [top]
    exact within
  marks := by
    rw [top]
    exact marks
  flag still below := by
    rw [top] at below
    rw [workFlag]
    obtain ⟨calm, before⟩ := flag still below
    exact showing.flag calm before
  thief i := by
    rw [thief]
    exact (showing.thief i).transfer (Nat.le_of_eq top.symm) fun _ => work

/-- It moves within the same bounds. -/
theorem Showing.stays (showing : Showing s) (hasFlag : u.hasFlag = s.hasFlag)
    (mirror : u.flagMirror = s.flagMirror) (workFlag : u.workFlag = s.workFlag)
    (top : u.top = s.top) (thief : u.thief = s.thief) (limit : u.limit = s.limit)
    (calm : ¬ s.owner.Flagging) (marks : u.owner.Marks s.top u.bottom) : Showing u :=
  showing.moves hasFlag mirror workFlag top thief (limit ▸ showing.top) (fun work => limit ▸ work)
    marks fun _ work => ⟨calm, limit ▸ work⟩

/-- `StoreFlag` with a flag. -/
theorem Showing.storeFlag (showing : Showing s) (v : Nat) :
    s.storeFlag v = { s with flagMirror := v, workFlag := v } := by
  have mirror := showing.mirror
  unfold State.storeFlag
  split
  · rfl
  · rename_i same
    have level : s.flagMirror = v := by
      by_contra other
      exact same ⟨showing.hasFlag, other⟩
    cases s
    simp only at mirror level
    subst level
    subst mirror
    rfl

/-- A push goes on at another place. -/
theorem Showing.pushes (showing : Showing s) (hasFlag : u.hasFlag = s.hasFlag)
    (mirror : u.flagMirror = s.flagMirror) (workFlag : u.workFlag = s.workFlag)
    (top : u.top = s.top) (bottom : u.bottom = s.bottom) (thief : u.thief = s.thief)
    (was : s.limit = s.bottom) (is : u.owner.limit s.bottom = s.bottom)
    (calm : ¬ s.owner.Flagging) (marks : u.owner.Marks s.top s.bottom) : Showing u := by
  refine showing.stays hasFlag mirror workFlag top thief ?_ calm (bottom ▸ marks)
  unfold State.limit at was ⊢
  rw [bottom, is, was]

theorem Showing.grow (showing : Showing s) {op : Push} {b t : Nat} (allocates : Bool)
    (here : s.owner = .pushRing op b t) : Showing (s.grow op b t allocates) := by
  have marks := showing.marks
  have was : s.limit = s.bottom := by
    unfold State.limit
    rw [here]
    rfl
  have calm : ¬ s.owner.Flagging := by
    rw [here]
    exact id
  rw [here] at marks
  unfold State.grow
  simp only
  split
  · exact showing.pushes rfl rfl rfl rfl rfl rfl was rfl calm trivial
  · split
    · exact showing.pushes rfl rfl rfl rfl rfl rfl was rfl calm trivial
    · refine showing.pushes rfl rfl rfl rfl rfl rfl was ?_ calm ?_
      · simp only
        split <;> rfl
      · simp only
        split <;> exact marks

theorem pushEntry_limit (op : Push) (b t r bottom : Nat) :
    (pushEntry op b t r).limit bottom = bottom := by
  unfold pushEntry
  split <;> rfl

theorem pushEntry_marks {op : Push} {b t r top bottom : Nat} (marks : b = bottom) :
    (pushEntry op b t r).Marks top bottom := by
  unfold pushEntry
  split <;> exact marks

theorem Showing.ownerStep (showing : Showing s) {allocates : Bool}
    (stepped : ownerStep s allocates = some u) : Showing u := by
  have marks := showing.marks
  have within := showing.top
  unfold Deque.ownerStep at stepped
  unfold State.limit at within
  cases here : s.owner with
  | idle | fatal =>
    rw [here] at stepped
    cases stepped
  | pushTop op b | growLoad op b t new i =>
    rw [here] at marks
    simp only [here] at stepped
    cases stepped
    exact showing.pushes rfl rfl rfl rfl rfl rfl (by rw [State.limit, here]; rfl) rfl
      (by rw [here]; exact id) marks
  | pushRing op b t =>
    rw [here] at marks
    simp only [here] at stepped
    split at stepped
    · cases stepped
      exact showing.grow allocates here
    · cases stepped
      exact showing.pushes rfl rfl rfl rfl rfl rfl (by rw [State.limit, here]; rfl)
        (pushEntry_limit op b t s.ring s.bottom) (by rw [here]; exact id) (pushEntry_marks marks)
  | growStore op b t new i v | growPublish op b t new =>
    rw [here] at marks
    simp only [here] at stepped
    cases stepped
    refine showing.pushes rfl rfl rfl rfl rfl rfl (by rw [State.limit, here]; rfl) ?_
      (by rw [here]; exact id) ?_
    · simp only
      split <;> rfl
    · simp only
      split <;> exact marks
  | pushReload op b t =>
    rw [here] at marks
    simp only [here] at stepped
    cases stepped
    exact showing.pushes rfl rfl rfl rfl rfl rfl (by rw [State.limit, here]; rfl)
      (pushEntry_limit op b t s.ring s.bottom) (by rw [here]; exact id) (pushEntry_marks marks)
  | pushSlot op b t r k =>
    rw [here] at marks
    simp only [here] at stepped
    cases item : op.items[k]? with
    | none =>
      rw [item] at stepped
      cases stepped
    | some task =>
      simp only [item] at stepped
      cases stepped
      refine showing.pushes rfl rfl rfl rfl rfl rfl (by rw [State.limit, here]; rfl) ?_
        (by rw [here]; exact id) ?_
      · simp only
        split <;> rfl
      · simp only
        split <;> exact marks
  | pushBottom op b =>
    rw [here] at marks within
    simp only [here] at stepped
    cases stepped
    have grown : s.limit ≤ b + op.items.length := by
      rw [State.limit, here, ← show b = s.bottom from marks]
      exact Nat.le_add_right b _
    exact showing.moves rfl rfl rfl rfl rfl (Nat.le_trans showing.top grown)
      (fun work => Nat.lt_of_lt_of_le work grown) trivial fun calm => absurd trivial calm
  | pushFlag =>
    simp only [here] at stepped
    rw [showing.storeFlag] at stepped
    cases stepped
    have same : s.limit = s.bottom := by
      rw [State.limit, here]
      rfl
    exact ⟨showing.hasFlag, rfl, same ▸ showing.top, trivial, fun _ _ => rfl, fun i =>
      (showing.thief i).transfer (Nat.le_refl _) fun _ work => same ▸ work⟩
  | popTop b =>
    rw [here] at marks within
    simp only [here] at stepped
    cases stepped
    have level : b = s.bottom := marks
    refine showing.pushes rfl rfl rfl rfl rfl rfl (by rw [State.limit, here]; rfl) ?_
      (by rw [here]; exact id) ?_
    · simp only
      split <;> rfl
    · simp only
      split
      · rename_i none
        exact Nat.le_antisymm within (level ▸ none)
      · simp only [OwnerPc.Marks]
        omega
  | popStore b =>
    rw [here] at marks
    simp only [here] at stepped
    cases stepped
    exact showing.stays rfl rfl rfl rfl rfl (by simp only [State.limit, here]; exact marks)
      (by rw [here]; exact id) rfl
  | popReload b =>
    rw [here] at marks within
    simp only [here] at stepped
    cases stepped
    have level : s.bottom = b := marks
    have calm : ¬ s.owner.Flagging := by
      rw [here]
      exact id
    have limit : s.limit = b + 1 := by
      rw [State.limit, here]
      rfl
    have most : s.top ≤ b + 1 := within
    rcases Nat.lt_trichotomy s.top b with more | last | none
    · rw [if_pos more]
      have below : s.top < s.bottom := level ▸ more
      refine showing.moves rfl rfl rfl rfl rfl ?_ ?_ trivial fun _ _ => ⟨calm, ?_⟩
      · exact Nat.le_of_lt below
      · exact fun _ => below
      · rw [limit]
        exact Nat.lt_succ_of_lt more
    · rw [if_neg (Nat.not_lt_of_le (Nat.le_of_eq last.symm)), if_pos last]
      exact showing.stays rfl rfl rfl rfl rfl limit.symm calm ⟨level, Nat.le_of_eq last.symm⟩
    · rw [if_neg (Nat.not_lt_of_gt none), if_neg (Nat.ne_of_gt none)]
      have taken : s.top = s.limit := by
        rw [limit]
        exact Nat.le_antisymm most none
      exact showing.stays rfl rfl rfl rfl rfl taken calm ⟨rfl, level ▸ Nat.le_of_lt none⟩
  | popRing b | popSlot b r =>
    rw [here] at marks
    simp only [here] at stepped
    cases stepped
    exact showing.pushes rfl rfl rfl rfl rfl rfl (by rw [State.limit, here]; rfl) rfl
      (by rw [here]; exact id) trivial
  | lastRing b | lastSlot b r =>
    rw [here] at marks
    simp only [here] at stepped
    cases stepped
    exact showing.stays rfl rfl rfl rfl rfl (by simp only [State.limit, here, OwnerPc.limit])
      (by rw [here]; exact id) marks
  | lastCas b v =>
    rw [here] at marks within
    simp only [here] at stepped
    obtain ⟨level, last⟩ : s.bottom = b ∧ b ≤ s.top := marks
    have calm : ¬ s.owner.Flagging := by
      rw [here]
      exact id
    have most : s.top ≤ b + 1 := within
    have limit : s.limit = b + 1 := by
      rw [State.limit, here]
      rfl
    split at stepped
    · rename_i won
      cases stepped
      refine ⟨showing.hasFlag, showing.mirror, Nat.le_refl _, ⟨level, rfl⟩,
        fun _ work => absurd work (Nat.lt_irrefl _), fun i => ?_⟩
      refine (showing.thief i).transfer (won ▸ Nat.le_succ b) fun still => ?_
      exact absurd (won ▸ still) (Nat.succ_ne_self b)
    · rename_i lost
      cases stepped
      have taken : s.top = b + 1 := by omega
      exact showing.stays rfl rfl rfl rfl rfl limit.symm calm ⟨level, taken⟩
  | lastRestore b result =>
    rw [here] at marks
    simp only [here] at stepped
    cases stepped
    exact showing.stays rfl rfl rfl rfl rfl (by simp only [State.limit, here, OwnerPc.limit])
      (by rw [here]; exact id) marks.2
  | popRestore t =>
    rw [here] at marks
    simp only [here] at stepped
    cases stepped
    exact showing.stays rfl rfl rfl rfl rfl (by simp only [State.limit, here, OwnerPc.limit])
      (by rw [here]; exact id) marks.1
  | popFlag result =>
    rw [here] at marks
    simp only [here] at stepped
    rw [showing.storeFlag] at stepped
    cases stepped
    have level : s.top = s.bottom := marks
    have same : s.limit = s.bottom := by
      rw [State.limit, here]
      rfl
    refine ⟨showing.hasFlag, rfl, same ▸ showing.top, trivial, fun _ work => ?_, fun i =>
      (showing.thief i).transfer (Nat.le_refl _) fun _ work => same ▸ work⟩
    exact absurd level (Nat.ne_of_lt work)

/-! ## The thieves' steps -/

/-- A thief moves, and nothing else does. -/
theorem Showing.thiefMoves (showing : Showing s) (i : Nat) {pc : ThiefPc} (saw : pc.Saw s) :
    Showing (s.setThief i pc) where
  hasFlag := showing.hasFlag
  mirror := showing.mirror
  top := showing.top
  marks := showing.marks
  flag := showing.flag
  thief j := by
    have kept : ((s.setThief i pc).thief j).Saw s := by
      simp only [State.setThief]
      rcases eq_or_ne j i with rfl | other
      · rw [Function.update_self]
        exact saw
      · rw [Function.update_of_ne other]
        exact showing.thief j
    exact kept.transfer (Nat.le_refl _) fun _ => id

/-- A thief takes the oldest task. -/
theorem Showing.takes (showing : Showing s) (work : s.top < s.limit) (log : List Event) :
    Showing { s with top := s.top + 1, log } where
  hasFlag := showing.hasFlag
  mirror := showing.mirror
  top := work
  marks := by
    have marks := showing.marks
    unfold State.limit at work
    cases here : s.owner with
    | lastRing b | lastSlot b r | lastCas b v =>
      rw [here] at marks
      exact ⟨marks.1, Nat.le_succ_of_le marks.2⟩
    | lastRestore b result =>
      rw [here] at marks work
      exact absurd marks.2 (Nat.ne_of_lt work)
    | popRestore t =>
      rw [here] at marks work
      exact absurd marks.1 (Nat.ne_of_lt work)
    | popFlag result =>
      rw [here] at marks work
      exact absurd marks (Nat.ne_of_lt work)
    | _ =>
      rw [here] at marks
      exact marks
  flag calm _ := showing.flag calm work
  thief i := (showing.thief i).transfer (Nat.le_succ _) fun still =>
    absurd still (Nat.succ_ne_self _)

/-- What a thief that finds `bottom` above its `top` has to know. -/
theorem Showing.work_of_bottom (showing : Showing s) (below : s.top < s.bottom) :
    s.top < s.limit := by
  have marks := showing.marks
  unfold State.limit
  cases here : s.owner with
  | popReload b | lastRing b | lastSlot b r | lastCas b v | lastRestore b result =>
    rw [here] at marks
    simp only [OwnerPc.Marks, OwnerPc.limit] at *
    omega
  | popRestore t =>
    rw [here] at marks
    exact absurd below (Nat.not_lt_of_le (marks.1 ▸ marks.2))
  | _ => exact below

theorem Showing.thiefStep (showing : Showing s) {i : Nat} (stepped : thiefStep s i = some u) :
    Showing u := by
  have saw := showing.thief i
  unfold Deque.thiefStep at stepped
  cases here : s.thief i with
  | idle =>
    rw [here] at stepped
    cases stepped
  | bottom vet t =>
    rw [here] at saw
    simp only [here] at stepped
    cases stepped
    refine showing.thiefMoves i ?_
    split
    · rename_i below
      exact ⟨saw, fun now => showing.work_of_bottom (now ▸ below)⟩
    · trivial
  | ring vet t =>
    rw [here] at saw
    simp only [here] at stepped
    cases stepped
    exact showing.thiefMoves i saw
  | slot vet t r =>
    rw [here] at saw
    simp only [here] at stepped
    cases stepped
    refine showing.thiefMoves i ?_
    split
    · exact saw
    · trivial
  | cas vet t v =>
    rw [here] at saw
    simp only [here] at stepped
    split at stepped
    · rename_i won
      cases stepped
      subst won
      exact (showing.takes (saw.2 rfl) _).thiefMoves i trivial
    · cases stepped
      exact showing.thiefMoves i trivial

theorem Showing.stealIf (showing : Showing s) {i : Nat} {vet : Vet}
    (stepped : stealIf s i vet = some u) : Showing u := by
  unfold Deque.stealIf at stepped
  cases here : s.thief i with
  | idle =>
    simp only [here] at stepped
    cases stepped
    exact showing.thiefMoves i (Nat.le_refl _)
  | _ =>
    simp only [here] at stepped
    cases stepped

/-! ## The run -/

/-- The owner enters a call. -/
theorem Showing.enter (showing : Showing s) {pc : OwnerPc} (stepped : s.enter pc = some u)
    (limit : pc.limit s.bottom = s.bottom) (marks : pc.Marks s.top s.bottom) : Showing u := by
  unfold State.enter at stepped
  cases here : s.owner with
  | idle =>
    simp only [here] at stepped
    cases stepped
    exact showing.pushes rfl rfl rfl rfl rfl rfl (by rw [State.limit, here]; rfl) limit
      (by rw [here]; exact id) marks
  | _ =>
    simp only [here] at stepped
    cases stepped

theorem Showing.step (showing : Showing s) {a : Label} (stepped : step s a = some u) :
    Showing u := by
  unfold Deque.step at stepped
  split at stepped
  · cases stepped
  · cases a with
    | pushBottom item =>
      cases item with
      | none => exact showing.enter stepped rfl trivial
      | some item => exact showing.enter stepped rfl rfl
    | pushBottomBatch items => exact showing.enter stepped rfl rfl
    | popBottom =>
      refine showing.enter stepped ?_ ?_
      · split <;> rfl
      · split <;> trivial
    | owner allocates => exact showing.ownerStep stepped
    | steal i => exact showing.stealIf stepped
    | stealIf i vet => exact showing.stealIf stepped
    | thief i => exact showing.thiefStep stepped

/-- Work never stands in a deque between its owner's calls without the flag showing it. -/
theorem work_shown (capacity maxCapacity : Nat) (pushOnly : Bool) {s : State}
    (reach : Reach step anyStep (initial capacity maxCapacity pushOnly true) s) :
    WorkShown s := by
  have showing : Showing s :=
    reach.invariant initial_showing fun showing _ stepped => showing.step stepped
  exact showing.shown

/-- Of two tasks one is stolen, and one is left. -/
def sharedLabels : List Label :=
  List.flatten [[.pushBottomBatch [olderTask, newerTask]], List.replicate 6 (.owner true),
    [.steal 0], List.replicate 4 (.thief 0)]

theorem shared_shown :
    ∃ s, Reach step anyStep (initial 2 2 false true) s ∧ s.owner = .idle ∧ s.top = 1 ∧
      s.bottom = 2 ∧ WorkShown s :=
  ⟨_, Reach.of_run .start (rfl : run step anyStep (initial 2 2 false true) sharedLabels = some _),
    rfl, rfl, rfl, work_shown 2 2 false (Reach.of_run .start
      (rfl : run step anyStep (initial 2 2 false true) sharedLabels = some _))⟩

end JLibSched.Deque
