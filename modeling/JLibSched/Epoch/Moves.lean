import JLibSched.Epoch.Model

/-!
# What a step of the epoch scheme can do

`Move layout i sh old sh' new`: thread `i` finds the frames `old` on top of its stack, none for
a new call, and leaves the frames `new` there and the shared state `sh'`.
-/

namespace JLibSched.Epoch

open Transition

variable {threads slots : Nat}

inductive Move (layout : Layout threads slots) (i : Fin threads) (sh : Shared threads slots) :
    List Frame → Shared threads slots → List Frame → Prop where
  -- Calls.
  | nothing {dead : Fin threads → Bool} : Move layout i sh [] { sh with bagDead := dead } []
  | openOutermost {slot : Fin slots} (own : sh.threadId i = some slot)
      (empty : sh.localEpoch slot = none) :
      Move layout i sh [] sh [.readEpoch]
  | openNested {slot : Fin slots} {epoch : Nat} (own : sh.threadId i = some slot)
      (pinned : sh.localEpoch slot = some epoch) :
      Move layout i sh []
        { sh with guards := Function.update sh.guards i (sh.clock :: sh.guards i) } []
  | closeOutermost {slot : Fin slots} {g : Nat} (own : sh.threadId i = some slot)
      (single : sh.guards i = [g]) :
      Move layout i sh []
        { sh with localEpoch := Function.update sh.localEpoch slot none
                  guards := Function.update sh.guards i [] } []
  | closeNested {g g' : Nat} {rest : List Nat} (several : sh.guards i = g :: g' :: rest) :
      Move layout i sh [] { sh with guards := Function.update sh.guards i (g' :: rest) } []
  | advanceEpoch : Move layout i sh [] sh [.advance sh.globalEpoch]
  | unlink {ptr : Nat} : Move layout i sh [] sh [.stamp ptr sh.clock]
  | tryReclaim {orphans : Bool} : Move layout i sh [] sh [.minActiveEpoch orphans]
  | orphanBag {dead : Fin threads → Bool} :
      Move layout i sh []
        { sh with orphans := sh.orphans ++ sh.bag i
                  orphanCount := (sh.orphans ++ sh.bag i).length
                  bag := Function.update sh.bag i []
                  bagDead := dead } []
  | claimSlot (none : sh.threadId i = none) :
      Move layout i sh [] sh [.claim layout.externalBase]
  | releaseSlot {slot : Fin slots} (own : sh.threadId i = some slot)
      (external : layout.externalBase ≤ slot.val) (empty : sh.localEpoch slot = none) :
      Move layout i sh []
        { sh with threadId := Function.update sh.threadId i none
                  claimed := Function.update sh.claimed slot false } []
  -- `SlotEpochGuard`.
  | readEpoch : Move layout i sh [.readEpoch] sh [.storePin sh.globalEpoch]
  | storePin {epoch : Nat} {slot : Fin slots} (own : sh.threadId i = some slot) :
      Move layout i sh [.storePin epoch]
        { sh with localEpoch := Function.update sh.localEpoch slot (some epoch)
                  pinnedAt := Function.update sh.pinnedAt slot sh.clock
                  guards := Function.update sh.guards i (sh.clock :: sh.guards i) } []
  -- `AdvanceEpoch`.
  | advance {epoch : Nat} (same : sh.globalEpoch = epoch) :
      Move layout i sh [.advance epoch] { sh with globalEpoch := epoch + 1 } []
  | advanceLost {epoch : Nat} : Move layout i sh [.advance epoch] sh []
  -- `RetirePtr`.
  | stamp {ptr unlinkedAt : Nat} :
      Move layout i sh [.stamp ptr unlinkedAt] sh
        [.retirePtr ⟨ptr, sh.globalEpoch, unlinkedAt⟩]
  | retireOrphan {entry : Retired} :
      Move layout i sh [.retirePtr entry]
        { sh with orphans := sh.orphans ++ [entry]
                  orphanCount := (sh.orphans ++ [entry]).length } []
  | retireBag {entry : Retired} :
      Move layout i sh [.retirePtr entry]
        { sh with bag := Function.update sh.bag i (sh.bag i ++ [entry]) } []
  -- `TryReclaim`.
  | minActiveEpoch {orphans : Bool} :
      Move layout i sh [.minActiveEpoch orphans] sh
        [.scan ⟨orphans, sh.globalEpoch, sh.clock, 0⟩]
  | scanPinned {c : Scan} {epoch : Nat} (bound : c.loaded < slots)
      (pinned : sh.localEpoch ⟨c.loaded, bound⟩ = some epoch) :
      Move layout i sh [.scan c] sh
        [.scan { c with minEpoch := min c.minEpoch epoch, loaded := c.loaded + 1 }]
  | scanEmpty {c : Scan} (bound : c.loaded < slots)
      (empty : sh.localEpoch ⟨c.loaded, bound⟩ = none) :
      Move layout i sh [.scan c] sh [.scan { c with loaded := c.loaded + 1 }]
  | scanEnd {c : Scan} (all : slots ≤ c.loaded) :
      Move layout i sh [.scan c] { sh with bag := Function.update sh.bag i [] }
        [.sweep c (sh.bag i) []]
  | sweepDelete {c : Scan} {entry : Retired} {work kept : List Retired}
      (older : entry.epoch < c.minEpoch) :
      Move layout i sh [.sweep c (entry :: work) kept] sh [.deleting entry, .sweep c work kept]
  | sweepKeep {c : Scan} {entry : Retired} {work kept : List Retired} :
      Move layout i sh [.sweep c (entry :: work) kept] sh [.sweep c work (kept ++ [entry])]
  | sweepEnd {c : Scan} {kept : List Retired} {new : List Frame}
      (next : new = [] ∨ new = [.loadOrphans c]) :
      Move layout i sh [.sweep c [] kept]
        { sh with bag := Function.update sh.bag i (sh.bag i ++ kept) } new
  | loadOrphans {c : Scan} {new : List Frame} (next : new = [] ∨ new = [.lockOrphans c]) :
      Move layout i sh [.loadOrphans c] sh new
  | lockOrphans {c : Scan} :
      Move layout i sh [.lockOrphans c] { sh with orphans := [], orphanLock := true }
        [.sweepOrphans c sh.orphans []]
  | orphanDelete {c : Scan} {entry : Retired} {todo kept : List Retired}
      (older : entry.epoch < c.minEpoch) :
      Move layout i sh [.sweepOrphans c (entry :: todo) kept] sh
        [.deleting entry, .sweepOrphans c todo kept]
  | orphanKeep {c : Scan} {entry : Retired} {todo kept : List Retired} :
      Move layout i sh [.sweepOrphans c (entry :: todo) kept] sh
        [.sweepOrphans c todo (kept ++ [entry])]
  | orphanEnd {c : Scan} {kept : List Retired} :
      Move layout i sh [.sweepOrphans c [] kept]
        { sh with orphans := kept, orphanCount := kept.length, orphanLock := false } []
  | deleted {entry : Retired} : Move layout i sh [.deleting entry] sh []
  -- `ClaimExternalSlot`.
  | claimTaken {slot : Nat} : Move layout i sh [.claim slot] sh [.claim (slot + 1)]
  | claimWon {slot : Fin slots} (free : sh.claimed slot = false) :
      Move layout i sh [.claim slot.val]
        { sh with claimed := Function.update sh.claimed slot true
                  threadId := Function.update sh.threadId i (some slot) } []

variable {layout : Layout threads slots} {i : Fin threads} {sh sh' : Shared threads slots}
  {old new : List Frame}

theorem Move.of_call {op : Op} (called : call layout sh i op = some (sh', new)) :
    Move layout i sh [] sh' new := by
  cases op with
  | openGuard =>
    simp only [call] at called
    split at called
    · cases called
    · rename_i slot own
      split at called
      · rename_i empty
        cases called
        exact .openOutermost own empty
      · rename_i epoch pinned
        cases called
        exact .openNested own pinned
  | closeGuard =>
    simp only [call] at called
    split at called
    · rename_i slot g own single
      cases called
      exact .closeOutermost own single
    · rename_i g g' rest several
      cases called
      exact .closeNested several
    · cases called
  | advanceEpoch =>
    cases called
    exact .advanceEpoch
  | unlink ptr =>
    cases called
    exact .unlink
  | tryReclaim orphans =>
    simp only [call] at called
    split at called
    · cases called
      exact .nothing
    · cases called
      exact .tryReclaim
  | orphanBag | destroyBag =>
    simp only [call] at called
    split at called
    · cases called
      exact .nothing
    · split at called
      · cases called
      · cases called
        exact .orphanBag
  | claimSlot =>
    simp only [call] at called
    split at called
    · cases called
      exact .nothing
    · rename_i none
      cases called
      exact .claimSlot none
  | releaseSlot =>
    simp only [call] at called
    split at called
    · cases called
    · rename_i slot own
      split at called
      · rename_i idle
        cases called
        exact .releaseSlot own idle.1 idle.2
      · cases called

theorem Move.of_effect {f : Frame} (moved : effect sh i f = some (sh', new)) :
    Move layout i sh [f] sh' new := by
  cases f with
  | readEpoch =>
    cases moved
    exact .readEpoch
  | storePin epoch =>
    simp only [effect] at moved
    split at moved
    · cases moved
    · rename_i slot own
      cases moved
      exact .storePin own
  | advance epoch =>
    simp only [effect] at moved
    split at moved
    · rename_i same
      cases moved
      exact .advance same
    · cases moved
      exact .advanceLost
  | stamp ptr unlinkedAt =>
    cases moved
    exact .stamp
  | retirePtr entry =>
    simp only [effect] at moved
    split at moved
    · split at moved
      · cases moved
      · cases moved
        exact .retireOrphan
    · cases moved
      exact .retireBag
  | minActiveEpoch orphans =>
    cases moved
    exact .minActiveEpoch
  | scan c =>
    simp only [effect] at moved
    split at moved
    · rename_i bound
      split at moved
      · rename_i epoch pinned
        cases moved
        exact .scanPinned bound pinned
      · rename_i empty
        cases moved
        exact .scanEmpty bound empty
    · rename_i all
      cases moved
      exact .scanEnd (Nat.le_of_not_lt all)
  | sweep c work kept =>
    cases work with
    | nil =>
      cases moved
      refine .sweepEnd ?_
      cases c.orphans
      · exact .inl rfl
      · exact .inr rfl
    | cons entry work =>
      simp only [effect] at moved
      split at moved
      · rename_i older
        cases moved
        exact .sweepDelete older
      · cases moved
        exact .sweepKeep
  | loadOrphans c =>
    cases moved
    refine .loadOrphans ?_
    split
    · exact .inr rfl
    · exact .inl rfl
  | lockOrphans c =>
    simp only [effect] at moved
    split at moved
    · cases moved
    · cases moved
      exact .lockOrphans
  | sweepOrphans c todo kept =>
    cases todo with
    | nil =>
      cases moved
      exact .orphanEnd
    | cons entry todo =>
      simp only [effect] at moved
      split at moved
      · rename_i older
        cases moved
        exact .orphanDelete older
      · cases moved
        exact .orphanKeep
  | deleting entry =>
    cases moved
    exact .deleted
  | claim slot =>
    simp only [effect] at moved
    split at moved
    · rename_i bound
      split at moved
      · cases moved
        exact .claimTaken
      · rename_i free
        cases moved
        have free : sh.claimed ⟨slot, bound⟩ = false := by simpa using free
        exact .claimWon free
    · cases moved

/-- A step moves one thread; a new call is made from outside or from a deleter. -/
theorem step_cases {s t : State threads slots} {a : Label threads}
    (stepped : step layout s a = some t) :
    ∃ i old rest sh new, s.stack i = old ++ rest ∧ Move layout i s.shared old sh new ∧
      (old = [] → callable rest = true) ∧
      t = ⟨sh.tick, Stacks.replace s.stack i new rest⟩ := by
  cases a with
  | call i op =>
    simp only [step] at stepped
    split at stepped
    · rename_i free
      obtain ⟨⟨sh, new⟩, called, rfl⟩ := Option.map_eq_some_iff.mp stepped
      exact ⟨i, [], s.stack i, sh, new, rfl, .of_call called, fun _ => free, rfl⟩
    · cases stepped
  | step i =>
    simp only [step] at stepped
    split at stepped
    · cases stepped
    · rename_i f rest here
      obtain ⟨⟨sh, new⟩, moved, rfl⟩ := Option.map_eq_some_iff.mp stepped
      exact ⟨i, [f], rest, sh, new, here, .of_effect moved, by simp, rfl⟩

/-! ## What is retired, and who is scanning -/

/-- The entries a frame has taken out of a bag, or has yet to put into one. -/
def Frame.entries : Frame → List Retired
  | .retirePtr entry => [entry]
  | .sweep _ work kept => work ++ kept
  | .sweepOrphans _ todo kept => todo ++ kept
  | _ => []

/-- The locals of a reclaim that has loaded the epoch. -/
def Frame.scan? : Frame → Option Scan
  | .scan c | .sweep c _ _ | .loadOrphans c | .lockOrphans c | .sweepOrphans c _ _ => some c
  | _ => none

/-- In a bag or in the orphan store. -/
def Shared.Has (sh : Shared threads slots) (r : Retired) : Prop :=
  (∃ j, r ∈ sh.bag j) ∨ r ∈ sh.orphans

/-- Entries come from a stamp and are moved about. -/
theorem Move.entries (move : Move layout i sh old sh' new) {r : Retired}
    (has : sh'.Has r ∨ ∃ f ∈ new, r ∈ f.entries) :
    (sh.Has r ∨ ∃ f ∈ old, r ∈ f.entries) ∨
      ∃ ptr u, old = [.stamp ptr u] ∧ r = ⟨ptr, sh.globalEpoch, u⟩ := by
  -- an update of the mover's own bag
  have bags {bag : List Retired} (inside : ∃ j, r ∈ Function.update sh.bag i bag j) :
      r ∈ bag ∨ ∃ j, r ∈ sh.bag j := by
    obtain ⟨j, mem⟩ := inside
    rcases eq_or_ne j i with rfl | other
    · rw [Function.update_self] at mem
      exact .inl mem
    · rw [Function.update_of_ne other] at mem
      exact .inr ⟨j, mem⟩
  cases move with
  | stamp =>
    rcases has with has | ⟨f, mem, inside⟩
    · exact .inl (.inl has)
    · rw [List.mem_singleton] at mem
      subst mem
      exact .inr ⟨_, _, rfl, List.mem_singleton.mp inside⟩
  | orphanBag =>
    rcases has.resolve_right (by simp) with inside | mem
    · exact .inl (.inl (.inl ((bags inside).resolve_left (by simp))))
    · rcases List.mem_append.mp mem with before | mine
      · exact .inl (.inl (.inr before))
      · exact .inl (.inl (.inl ⟨i, mine⟩))
  | retireOrphan =>
    rcases has.resolve_right (by simp) with inside | mem
    · exact .inl (.inl (.inl inside))
    · rcases List.mem_append.mp mem with before | mine
      · exact .inl (.inl (.inr before))
      · exact .inl (.inr ⟨_, List.mem_cons_self, mine⟩)
  | retireBag =>
    rcases has.resolve_right (by simp) with inside | mem
    · rcases bags inside with mine | before
      · rcases List.mem_append.mp mine with before | added
        · exact .inl (.inl (.inl ⟨i, before⟩))
        · exact .inl (.inr ⟨_, List.mem_cons_self, added⟩)
      · exact .inl (.inl (.inl before))
    · exact .inl (.inl (.inr mem))
  | scanEnd =>
    rcases has with (inside | mem) | ⟨f, mem, inside⟩
    · exact .inl (.inl (.inl ((bags inside).resolve_left (by simp))))
    · exact .inl (.inl (.inr mem))
    · rw [List.mem_singleton] at mem
      subst mem
      simp only [Frame.entries, List.append_nil] at inside
      exact .inl (.inl (.inl ⟨i, inside⟩))
  | sweepEnd next =>
    have none : ¬ ∃ f ∈ new, r ∈ f.entries := by
      rcases next with rfl | rfl <;> simp [Frame.entries]
    rcases has.resolve_right none with inside | mem
    · rcases bags inside with mine | before
      · rcases List.mem_append.mp mine with before | added
        · exact .inl (.inl (.inl ⟨i, before⟩))
        · exact .inl (.inr ⟨_, List.mem_cons_self, List.mem_append_right _ added⟩)
      · exact .inl (.inl (.inl before))
    · exact .inl (.inl (.inr mem))
  | loadOrphans next =>
    refine .inl (.inl (has.resolve_right ?_))
    rcases next with rfl | rfl <;> simp [Frame.entries]
  | lockOrphans =>
    rcases has with (inside | mem) | ⟨f, mem, inside⟩
    · exact .inl (.inl (.inl inside))
    · cases mem
    · rw [List.mem_singleton] at mem
      subst mem
      simp only [Frame.entries, List.append_nil] at inside
      exact .inl (.inl (.inr inside))
  | orphanEnd =>
    rcases has.resolve_right (by simp) with inside | mem
    · exact .inl (.inl (.inl inside))
    · exact .inl (.inr ⟨_, List.mem_cons_self, by simpa [Frame.entries] using mem⟩)
  | sweepDelete | sweepKeep | orphanDelete | orphanKeep =>
    rcases has with has | ⟨f, mem, inside⟩
    · exact .inl (.inl has)
    · refine .inl (.inr ⟨_, List.mem_cons_self, ?_⟩)
      simp only [List.mem_cons, List.not_mem_nil, or_false] at mem
      rcases mem with rfl | rfl <;>
        simp only [Frame.entries, List.mem_append, List.mem_cons, List.not_mem_nil, or_false]
          at inside ⊢
      all_goals tauto
  | _ => exact .inl (.inl (has.resolve_right (by simp [Frame.entries])))

end JLibSched.Epoch
