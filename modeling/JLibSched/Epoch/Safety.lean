import JLibSched.Epoch.Moves

/-!
# No deleter runs under a guard that may see the object

A guard announces an epoch no later than the one at its announcement, and an object is stamped
with an epoch no earlier than the one at its unlinking.  So the stamp of an object unlinked
under a guard is at least the guard's epoch.

A reclaim loads the epoch and then the slots, one by one, and it may load a slot before a guard
is announced there.  But then the epoch it has loaded is older still: the object is unlinked
after that load, and its stamp is at least the epoch loaded (`paired`).  If the slot is loaded
after the announcement, the guard's epoch is among those compared (`ScanOk`).  Either way the
stamp is not below the least epoch, and the object is kept.

Entries may be handed to the orphan store and swept by another thread at any time: nothing above
depends on who sweeps.
-/

namespace JLibSched.Epoch

open Transition Stacks

variable {threads slots : Nat} {layout : Layout threads slots} {s t : State threads slots}
  {i : Fin threads} {sh sh' : Shared threads slots} {old new rest : List Frame}

/-! ## Each slot has one thread -/

/-- A frame other calls may stand on. -/
def Frame.waits : Frame → Bool
  | .deleting _ | .sweep _ _ _ | .sweepOrphans _ _ _ => true
  | _ => false

/-- What a frame on top knows of its thread. -/
def Frame.Local (layout : Layout threads slots) (sh : Shared threads slots) (i : Fin threads) :
    Frame → Prop
  | .readEpoch => sh.guards i = []
  | .storePin epoch => sh.guards i = [] ∧ epoch ≤ sh.globalEpoch
  | .claim slot => sh.threadId i = none ∧ layout.externalBase ≤ slot
  | _ => True

structure Owned (layout : Layout threads slots) (s : State threads slots) : Prop where
  apart : ∀ i j a, s.shared.threadId i = some a → s.shared.threadId j = some a → i = j
  claimed : ∀ i a, s.shared.threadId i = some a → layout.externalBase ≤ a.val →
    s.shared.claimed a = true
  waiting : ∀ i, ∀ f ∈ (s.stack i).tail, f.waits = true
  frames : ∀ i, ∀ f ∈ s.stack i, f.Local layout s.shared i
  guards : ∀ i, ∀ g ∈ s.shared.guards i, ∃ a e, s.shared.threadId i = some a ∧
    s.shared.localEpoch a = some e ∧ s.shared.pinnedAt a ≤ g
  pins : ∀ a e, s.shared.localEpoch a = some e →
    e ≤ s.shared.globalEpoch ∧ s.shared.pinnedAt a < s.shared.clock

theorem initial_owned (layout : Layout threads slots) : Owned layout (initial layout) where
  apart := layout.apart
  claimed i a own external := absurd (layout.inside i a own) (Nat.not_lt.mpr external)
  waiting _ _ none := by cases none
  frames _ _ none := by cases none
  guards _ _ none := by cases none
  pins _ _ none := by cases none

theorem Move.epoch_le (move : Move layout i sh old sh' new) : sh.globalEpoch ≤ sh'.globalEpoch := by
  cases move with
  | advance same =>
    rw [same]
    exact Nat.le_succ _
  | _ => exact Nat.le_refl _

theorem Move.clock (move : Move layout i sh old sh' new) : sh'.clock = sh.clock := by
  cases move <;> rfl

/-- Other threads keep their slot and their guards. -/
theorem Move.others (move : Move layout i sh old sh' new) {j : Fin threads} (other : j ≠ i) :
    sh'.threadId j = sh.threadId j ∧ sh'.guards j = sh.guards j := by
  cases move <;> simp [Function.update_of_ne other]

/-- A call leaves the frames below it able to wait. -/
theorem Move.waits (move : Move layout i sh old sh' new) : ∀ f ∈ new.tail, f.waits = true := by
  cases move with
  | sweepDelete | orphanDelete => simp [Frame.waits]
  | sweepEnd next | loadOrphans next => rcases next with rfl | rfl <;> simp
  | _ => simp

theorem callable_waits (free : callable rest = true) (tail : ∀ f ∈ rest.tail, f.waits = true) :
    ∀ f ∈ rest, f.waits = true := by
  cases rest with
  | nil => simp
  | cons f rest =>
    cases f with
    | deleting r => simpa [Frame.waits] using tail
    | _ => cases free

/-- The frames under a move can wait. -/
theorem Owned.below (owned : Owned layout s) (here : s.stack i = old ++ rest)
    (move : Move layout i s.shared old sh new) (free : old = [] → callable rest = true) :
    ∀ f ∈ rest, f.waits = true := by
  have tail := owned.waiting i
  rw [here] at tail
  have single : old = [] ∨ ∃ f, old = [f] := by
    cases move <;> first | exact .inl rfl | exact .inr ⟨_, rfl⟩
  rcases single with rfl | ⟨f, rfl⟩
  · exact callable_waits (free rfl) tail
  · exact tail

theorem Frame.Local.of_waits {f : Frame} (waits : f.waits = true) : f.Local layout sh i := by
  cases f <;> trivial

theorem Owned.own_pin (owned : Owned layout s) {a : Fin slots}
    (own : s.shared.threadId i = some a) (empty : s.shared.localEpoch a = none) :
    s.shared.guards i = [] := by
  cases guards : s.shared.guards i with
  | nil => rfl
  | cons g rest =>
    obtain ⟨b, e, own', pinned, -⟩ := owned.guards i g (by rw [guards]; exact List.mem_cons_self)
    rw [own] at own'
    cases own'
    rw [empty] at pinned
    cases pinned

/-- Two threads never get one slot: the claim flag was free, and owners keep it set. -/
theorem Owned.move_apart (owned : Owned layout s) (top : ∀ f ∈ old, f.Local layout s.shared i)
    (move : Move layout i s.shared old sh new) {j k : Fin threads} {a : Fin slots}
    (mine : sh.threadId j = some a) (yours : sh.threadId k = some a) : j = k := by
  cases move with
  | releaseSlot own external empty =>
    dsimp only at mine yours
    rcases eq_or_ne j i with rfl | other
    · rw [Function.update_self] at mine
      cases mine
    rcases eq_or_ne k i with rfl | other'
    · rw [Function.update_self] at yours
      cases yours
    rw [Function.update_of_ne other] at mine
    rw [Function.update_of_ne other'] at yours
    exact owned.apart j k a mine yours
  | @claimWon slot unclaimed =>
    have external := (top _ List.mem_cons_self).2
    -- nobody else has it
    have unowned {l : Fin threads} (other : l ≠ i)
        (own : Function.update s.shared.threadId i (some slot) l = some slot) : False := by
      rw [Function.update_of_ne other] at own
      rw [owned.claimed l slot own external] at unclaimed
      cases unclaimed
    dsimp only at mine yours
    rcases eq_or_ne j i with rfl | other <;> rcases eq_or_ne k j with rfl | apart
    · rfl
    · rw [Function.update_self] at mine
      cases mine
      exact absurd yours (unowned apart)
    · rfl
    · rcases eq_or_ne k i with rfl | other'
      · rw [Function.update_self] at yours
        cases yours
        exact absurd mine (unowned other)
      · rw [Function.update_of_ne other] at mine
        rw [Function.update_of_ne other'] at yours
        exact owned.apart j k a mine yours
  | _ => exact owned.apart j k a mine yours

theorem Owned.move_claimed (owned : Owned layout s) (move : Move layout i s.shared old sh new)
    {j : Fin threads} {a : Fin slots} (own : sh.threadId j = some a)
    (external : layout.externalBase ≤ a.val) : sh.claimed a = true := by
  cases move with
  | @releaseSlot slot mine =>
    dsimp only at own ⊢
    rcases eq_or_ne j i with rfl | other
    · rw [Function.update_self] at own
      cases own
    · rw [Function.update_of_ne other] at own
      rcases eq_or_ne a slot with rfl | apart
      · exact absurd (owned.apart j i a own mine) other
      · rw [Function.update_of_ne apart]
        exact owned.claimed j a own external
  | @claimWon slot unclaimed =>
    dsimp only at own ⊢
    rcases eq_or_ne a slot with rfl | apart
    · rw [Function.update_self]
    · rw [Function.update_of_ne apart]
      rcases eq_or_ne j i with rfl | other
      · rw [Function.update_self] at own
        cases own
        exact absurd rfl apart
      · rw [Function.update_of_ne other] at own
        exact owned.claimed j a own external
  | _ => exact owned.claimed j a own external

/-- New frames know of their thread what they should. -/
theorem Owned.move_new (owned : Owned layout s) (top : ∀ f ∈ old, f.Local layout s.shared i)
    (move : Move layout i s.shared old sh new) : ∀ f ∈ new, f.Local layout sh i := by
  cases move with
  | openOutermost own empty =>
    rintro f mem
    rw [List.mem_singleton] at mem
    subst mem
    exact owned.own_pin own empty
  | readEpoch =>
    rintro f mem
    rw [List.mem_singleton] at mem
    subst mem
    exact ⟨top _ List.mem_cons_self, Nat.le_refl _⟩
  | claimSlot none =>
    rintro f mem
    rw [List.mem_singleton] at mem
    subst mem
    exact ⟨none, Nat.le_refl _⟩
  | claimTaken =>
    rintro f mem
    rw [List.mem_singleton] at mem
    subst mem
    obtain ⟨none, external⟩ := top _ List.mem_cons_self
    exact ⟨none, Nat.le_succ_of_le external⟩
  | sweepEnd next | loadOrphans next =>
    rcases next with rfl | rfl <;> simp [Frame.Local]
  | _ => simp [Frame.Local]

/-- A slot holds what it held, or a pin stored now. -/
theorem Owned.move_pin (top : ∀ f ∈ old, f.Local layout s.shared i)
    (move : Move layout i s.shared old sh new) {a : Fin slots} {e : Nat}
    (pinned : sh.localEpoch a = some e) :
    (s.shared.localEpoch a = some e ∧ sh.pinnedAt a = s.shared.pinnedAt a) ∨
      (sh.pinnedAt a = s.shared.clock ∧ e ≤ s.shared.globalEpoch) := by
  cases move with
  | @closeOutermost slot =>
    dsimp only at pinned
    rcases eq_or_ne a slot with rfl | apart
    · rw [Function.update_self] at pinned
      cases pinned
    · rw [Function.update_of_ne apart] at pinned
      exact .inl ⟨pinned, rfl⟩
  | @storePin epoch slot =>
    dsimp only at pinned ⊢
    rcases eq_or_ne a slot with rfl | apart
    · rw [Function.update_self] at pinned ⊢
      cases pinned
      exact .inr ⟨rfl, (top _ List.mem_cons_self).2⟩
    · rw [Function.update_of_ne apart] at pinned ⊢
      exact .inl ⟨pinned, rfl⟩
  | _ => exact .inl ⟨pinned, rfl⟩

/-- Every guard is behind a pin that is no younger. -/
theorem Owned.move_guards (owned : Owned layout s) (top : ∀ f ∈ old, f.Local layout s.shared i)
    (move : Move layout i s.shared old sh new) {j : Fin threads} {g : Nat}
    (mem : g ∈ sh.guards j) :
    ∃ a e, sh.threadId j = some a ∧ sh.localEpoch a = some e ∧ sh.pinnedAt a ≤ g := by
  rcases eq_or_ne j i with rfl | other
  · cases move with
    | @openNested slot epoch own pinned =>
      dsimp only at mem ⊢
      rw [Function.update_self, List.mem_cons] at mem
      rcases mem with rfl | before
      · exact ⟨slot, epoch, own, pinned, Nat.le_of_lt (owned.pins slot epoch pinned).2⟩
      · exact owned.guards j g before
    | closeOutermost =>
      dsimp only at mem
      rw [Function.update_self] at mem
      cases mem
    | closeNested several =>
      dsimp only at mem
      rw [Function.update_self] at mem
      refine owned.guards j g ?_
      rw [several]
      exact List.mem_cons_of_mem _ mem
    | @storePin epoch slot own =>
      dsimp only at mem ⊢
      rw [Function.update_self, (top _ List.mem_cons_self).1, List.mem_singleton] at mem
      subst mem
      exact ⟨slot, epoch, own, Function.update_self .., by rw [Function.update_self]⟩
    | releaseSlot own external empty =>
      rw [show _ = s.shared.guards j from rfl, owned.own_pin own empty] at mem
      cases mem
    | claimWon =>
      obtain ⟨a, e, own, -⟩ := owned.guards j g mem
      rw [(top _ List.mem_cons_self).1] at own
      cases own
    | _ => exact owned.guards j g mem
  · obtain ⟨thread, guards⟩ := move.others other
    rw [guards] at mem
    obtain ⟨a, e, own, pinned, since⟩ := owned.guards j g mem
    refine ⟨a, e, thread.trans own, ?_⟩
    -- the mover writes its own slot only
    have apart {slot : Fin slots} (mine : s.shared.threadId i = some slot) : a ≠ slot := by
      rintro rfl
      exact other (owned.apart j i a own mine)
    cases move with
    | closeOutermost mine =>
      dsimp only
      rw [Function.update_of_ne (apart mine)]
      exact ⟨pinned, since⟩
    | storePin mine =>
      dsimp only
      rw [Function.update_of_ne (apart mine), Function.update_of_ne (apart mine)]
      exact ⟨pinned, since⟩
    | _ => exact ⟨pinned, since⟩

theorem Owned.move (owned : Owned layout s) (here : s.stack i = old ++ rest)
    (move : Move layout i s.shared old sh new) (free : old = [] → callable rest = true) :
    Owned layout ⟨sh.tick, replace s.stack i new rest⟩ := by
  have below := owned.below here move free
  have top : ∀ f ∈ old, f.Local layout s.shared i := fun f mem =>
    owned.frames i f (by rw [here]; exact List.mem_append_left _ mem)
  refine ⟨fun j k a mine yours => owned.move_apart top move mine yours,
    fun j a own external => owned.move_claimed move own external, fun j f mem => ?_,
    fun j f mem => ?_, fun j g mem => owned.move_guards top move mem, fun a e pinned => ?_⟩
  · unfold replace at mem
    dsimp only at mem
    rcases eq_or_ne j i with rfl | other
    · rw [Function.update_self] at mem
      cases frames : new with
      | nil =>
        rw [frames, List.nil_append] at mem
        exact below f (List.mem_of_mem_tail mem)
      | cons g more =>
        rw [frames, List.cons_append, List.tail_cons, List.mem_append] at mem
        rcases mem with inside | later
        · exact move.waits f (by rw [frames]; exact inside)
        · exact below f later
    · rw [Function.update_of_ne other] at mem
      exact owned.waiting j f mem
  · unfold replace at mem
    dsimp only at mem
    rcases eq_or_ne j i with rfl | other
    · rw [Function.update_self, List.mem_append] at mem
      rcases mem with inside | later
      · have fresh := owned.move_new top move f inside
        cases f <;> exact fresh
      · exact .of_waits (below f later)
    · rw [Function.update_of_ne other] at mem
      obtain ⟨thread, guards⟩ := move.others other
      have before := owned.frames j f mem
      have epoch := move.epoch_le
      cases f with
      | readEpoch => exact guards.trans before
      | storePin e => exact ⟨guards.trans before.1, before.2.trans epoch⟩
      | claim slot => exact ⟨thread.trans before.1, before.2⟩
      | _ => trivial
  · have epoch := move.epoch_le
    have clock := move.clock
    show e ≤ sh.globalEpoch ∧ sh.pinnedAt a < sh.clock + 1
    rcases Owned.move_pin top move pinned with ⟨before, same⟩ | ⟨now, le⟩
    · obtain ⟨le, past⟩ := owned.pins a e before
      exact ⟨le.trans epoch, by omega⟩
    · exact ⟨le.trans epoch, by omega⟩

theorem reach_owned (reach : Reach (step layout) anyStep (initial layout) s) : Owned layout s := by
  refine Reach.invariant (I := Owned layout) (initial_owned layout) ?_ reach
  intro s t a owned _ stepped
  obtain ⟨i, old, rest, sh, new, here, move, free, rfl⟩ := step_cases stepped
  exact owned.move here move free

/-! ## Stamps, pins and scans -/

/-- Retired, wherever the entry is now. -/
def State.Has (s : State threads slots) (r : Retired) : Prop :=
  s.shared.Has r ∨ ∃ i, ∃ f ∈ s.stack i, r ∈ f.entries

/-- The stamp is at least the epoch of every pin stored before the object was unlinked. -/
structure Stamped (sh : Shared threads slots) (r : Retired) : Prop where
  past : r.unlinkedAt < sh.clock
  pins : ∀ a e, sh.localEpoch a = some e → sh.pinnedAt a < r.unlinkedAt → e ≤ r.epoch

/-- The least epoch found so far is at most that of every pin in a slot already loaded, unless
the pin was stored after the scan began. -/
structure ScanOk (sh : Shared threads slots) (c : Scan) : Prop where
  past : c.since < sh.clock
  epoch : c.minEpoch ≤ sh.globalEpoch
  pins : ∀ a e, sh.localEpoch a = some e → a.val < c.loaded →
    c.minEpoch ≤ e ∨ c.since < sh.pinnedAt a

/-- No guard is open that was opened before the object was unlinked. -/
structure Unseen (sh : Shared threads slots) (r : Retired) : Prop where
  past : r.unlinkedAt < sh.clock
  guards : ∀ j, ∀ g ∈ sh.guards j, r.unlinkedAt ≤ g

/-- A reclaim that goes through entries has loaded every slot. -/
def Frame.swept (slots : Nat) : Frame → Prop
  | .sweep c _ _ | .loadOrphans c | .lockOrphans c | .sweepOrphans c _ _ => slots ≤ c.loaded
  | _ => True

structure Safe (s : State threads slots) : Prop where
  entries : ∀ r, s.Has r → Stamped s.shared r
  scans : ∀ i, ∀ f ∈ s.stack i, ∀ c, f.scan? = some c → ScanOk s.shared c
  swept : ∀ i, ∀ f ∈ s.stack i, f.swept slots
  /-- What was unlinked since a scan began has a stamp that the scan does not reach. -/
  paired : ∀ r, s.Has r → ∀ i, ∀ f ∈ s.stack i, ∀ c, f.scan? = some c → c.since < r.unlinkedAt →
    c.minEpoch ≤ r.epoch
  unlinked : ∀ i ptr u, .stamp ptr u ∈ s.stack i → u < s.shared.clock
  deleting : ∀ i r, .deleting r ∈ s.stack i → Unseen s.shared r

theorem initial_safe (layout : Layout threads slots) : Safe (initial layout) := by
  have none (r : Retired) : ¬ (initial layout).Has r := by
    rintro ((⟨j, mem⟩ | mem) | ⟨j, f, mem, -⟩) <;> cases mem
  refine ⟨fun r has => absurd has (none r), fun _ _ mem => (by cases mem),
    fun _ _ mem => (by cases mem), fun r has => absurd has (none r), fun _ _ _ mem => (by cases mem),
    fun _ _ mem => (by cases mem)⟩

/-- An entry whose stamp a finished scan has passed is seen by no open guard. -/
theorem Safe.unseen (safe : Safe s) (owned : Owned layout s) {f : Frame} {c : Scan} {r : Retired}
    (mem : f ∈ s.stack i) (scan : f.scan? = some c) (all : slots ≤ c.loaded) (has : r ∈ f.entries)
    (older : r.epoch < c.minEpoch) : Unseen s.shared r := by
  have retired : s.Has r := .inr ⟨i, f, mem, has⟩
  refine ⟨(safe.entries r retired).past, fun j g open' => ?_⟩
  by_contra seen
  obtain ⟨a, e, -, pinned, since⟩ := owned.guards j g open'
  have before : s.shared.pinnedAt a < r.unlinkedAt := by omega
  -- the guard's epoch bounds the stamp, and the scan has found it or begun before it
  have stamp := (safe.entries r retired).pins a e pinned before
  rcases (safe.scans i f mem c scan).pins a e pinned (Nat.lt_of_lt_of_le a.isLt all) with
    found | later
  · omega
  · have := safe.paired r retired i f mem c scan (by omega)
    omega

/-! ## Moves -/

/-- A guard was open before, or is opened now. -/
theorem Move.guards (move : Move layout i sh old sh' new) {j : Fin threads} {g : Nat}
    (mem : g ∈ sh'.guards j) : g ∈ sh.guards j ∨ g = sh.clock := by
  rcases eq_or_ne j i with rfl | other
  · cases move with
    | openNested | storePin =>
      dsimp only at mem
      rw [Function.update_self, List.mem_cons] at mem
      exact mem.symm
    | closeOutermost =>
      dsimp only at mem
      rw [Function.update_self] at mem
      cases mem
    | closeNested several =>
      dsimp only at mem
      rw [Function.update_self] at mem
      rw [several]
      exact .inl (List.mem_cons_of_mem _ mem)
    | _ => exact .inl mem
  · rw [(move.others other).2] at mem
    exact .inl mem

theorem Unseen.move {r : Retired} (unseen : Unseen sh r) (move : Move layout i sh old sh' new) :
    Unseen sh'.tick r := by
  have clock := move.clock
  have past := unseen.past
  refine ⟨show r.unlinkedAt < sh'.clock + 1 by omega, fun j g mem => ?_⟩
  rcases move.guards mem with before | now
  · exact unseen.guards j g before
  · omega

theorem Stamped.move {r : Retired} (stamped : Stamped s.shared r)
    (top : ∀ f ∈ old, f.Local layout s.shared i) (move : Move layout i s.shared old sh new) :
    Stamped sh.tick r := by
  have clock := move.clock
  have past := stamped.past
  refine ⟨show r.unlinkedAt < sh.clock + 1 by omega, fun a e pinned before => ?_⟩
  rcases Owned.move_pin top move pinned with ⟨old, same⟩ | ⟨now, -⟩
  · exact stamped.pins a e old (same ▸ before)
  · have before' : sh.pinnedAt a < r.unlinkedAt := before
    omega

theorem ScanOk.move {c : Scan} (ok : ScanOk s.shared c)
    (top : ∀ f ∈ old, f.Local layout s.shared i) (move : Move layout i s.shared old sh new) :
    ScanOk sh.tick c := by
  have clock := move.clock
  have past := ok.past
  refine ⟨show c.since < sh.clock + 1 by omega, ok.epoch.trans move.epoch_le,
    fun a e pinned loaded => ?_⟩
  rcases Owned.move_pin top move pinned with ⟨old, same⟩ | ⟨now, -⟩
  · exact (ok.pins a e old loaded).imp_right fun later => show c.since < sh.pinnedAt a by omega
  · exact .inr (show c.since < sh.pinnedAt a by omega)

/-- A scan goes on from one on top of the stack, or begins now. -/
theorem Safe.new_scan (top : ∀ f ∈ old, ∀ c, f.scan? = some c → ScanOk s.shared c)
    (move : Move layout i s.shared old sh new) {f : Frame} (mem : f ∈ new) {c : Scan}
    (scan : f.scan? = some c) :
    (∃ f' ∈ old, ∃ c', f'.scan? = some c' ∧ c.since = c'.since ∧ c.minEpoch ≤ c'.minEpoch ∧
      ScanOk s.shared c) ∨
    (c.since = s.shared.clock ∧ c.minEpoch = s.shared.globalEpoch ∧ c.loaded = 0) := by
  -- the locals are passed on as they are
  have same {f' : Frame} (here : old = [f']) (before : f'.scan? = some c) :
      ∃ f' ∈ old, ∃ c', f'.scan? = some c' ∧ c.since = c'.since ∧ c.minEpoch ≤ c'.minEpoch ∧
        ScanOk s.shared c := by
    subst here
    exact ⟨f', List.mem_cons_self, c, before, rfl, Nat.le_refl _,
      top f' List.mem_cons_self c before⟩
  cases move with
  | minActiveEpoch =>
    rw [List.mem_singleton] at mem
    subst mem
    cases scan
    exact .inr ⟨rfl, rfl, rfl⟩
  | @scanPinned c' epoch bound pinned =>
    rw [List.mem_singleton] at mem
    subst mem
    cases scan
    have ok := top _ List.mem_cons_self c' rfl
    refine .inl ⟨_, List.mem_cons_self, c', rfl, rfl, Nat.min_le_left _ _, ok.past,
      (Nat.min_le_left _ _).trans ok.epoch, fun a e here loaded => ?_⟩
    dsimp only at loaded ⊢
    rcases Nat.lt_succ_iff_lt_or_eq.mp loaded with before | now
    · exact (ok.pins a e here before).imp_left (Nat.min_le_left _ _).trans
    · obtain rfl : a = ⟨c'.loaded, bound⟩ := Fin.ext now
      rw [pinned] at here
      cases here
      exact .inl (Nat.min_le_right _ _)
  | @scanEmpty c' bound empty =>
    rw [List.mem_singleton] at mem
    subst mem
    cases scan
    have ok := top _ List.mem_cons_self c' rfl
    refine .inl ⟨_, List.mem_cons_self, c', rfl, rfl, Nat.le_refl _, ok.past, ok.epoch,
      fun a e here loaded => ?_⟩
    dsimp only at loaded ⊢
    rcases Nat.lt_succ_iff_lt_or_eq.mp loaded with before | now
    · exact ok.pins a e here before
    · obtain rfl : a = ⟨c'.loaded, bound⟩ := Fin.ext now
      rw [empty] at here
      cases here
  | scanEnd | sweepKeep | lockOrphans | orphanKeep =>
    rw [List.mem_singleton] at mem
    subst mem
    exact .inl (same rfl scan)
  | sweepDelete | orphanDelete =>
    simp only [List.mem_cons, List.not_mem_nil, or_false] at mem
    rcases mem with rfl | rfl
    · cases scan
    · exact .inl (same rfl scan)
  | sweepEnd next | loadOrphans next =>
    rcases next with rfl | rfl
    · cases mem
    · rw [List.mem_singleton] at mem
      subst mem
      exact .inl (same rfl scan)
  | openOutermost | advanceEpoch | unlink | tryReclaim | claimSlot | readEpoch | stamp
  | claimTaken =>
    rw [List.mem_singleton] at mem
    subst mem
    cases scan
  | _ => cases mem

theorem Safe.new_swept (top : ∀ f ∈ old, f.swept slots) (move : Move layout i sh old sh' new) :
    ∀ f ∈ new, f.swept slots := by
  have first {f : Frame} (here : old = [f]) : f.swept slots := top f (by simp [here])
  cases move with
  | scanEnd all => simpa [Frame.swept] using all
  | sweepDelete | orphanDelete | sweepKeep | orphanKeep | lockOrphans =>
    simpa [Frame.swept] using first rfl
  | sweepEnd next | loadOrphans next =>
    rcases next with rfl | rfl
    · simp
    · simpa [Frame.swept] using first rfl
  | _ => simp [Frame.swept]

theorem Safe.has (safe : Safe s) (here : s.stack i = old ++ rest)
    (move : Move layout i s.shared old sh new) {r : Retired}
    (has : State.Has ⟨sh.tick, replace s.stack i new rest⟩ r) :
    s.Has r ∨ (r.epoch = s.shared.globalEpoch ∧ r.unlinkedAt < s.shared.clock) := by
  have above {f : Frame} (mem : f ∈ old) : f ∈ s.stack i := by
    rw [here]
    exact List.mem_append_left _ mem
  have moved (has : sh.Has r ∨ ∃ f ∈ new, r ∈ f.entries) :
      s.Has r ∨ (r.epoch = s.shared.globalEpoch ∧ r.unlinkedAt < s.shared.clock) := by
    rcases move.entries has with (before | ⟨f, mem, inside⟩) | ⟨ptr, u, rfl, rfl⟩
    · exact .inl (.inl before)
    · exact .inl (.inr ⟨i, f, above mem, inside⟩)
    · exact .inr ⟨rfl, safe.unlinked i ptr u (above List.mem_cons_self)⟩
  rcases has with before | ⟨j, f, mem, inside⟩
  · exact moved (.inl before)
  · rcases mem_replace here mem with added | before
    · exact moved (.inr ⟨f, added, inside⟩)
    · exact .inl (.inr ⟨j, f, before, inside⟩)

theorem Safe.move (safe : Safe s) (owned : Owned layout s) (here : s.stack i = old ++ rest)
    (move : Move layout i s.shared old sh new) :
    Safe ⟨sh.tick, replace s.stack i new rest⟩ := by
  have above {f : Frame} (mem : f ∈ old) : f ∈ s.stack i := by
    rw [here]
    exact List.mem_append_left _ mem
  have top : ∀ f ∈ old, f.Local layout s.shared i := fun f mem => owned.frames i f (above mem)
  have scans : ∀ f ∈ old, ∀ c, f.scan? = some c → ScanOk s.shared c := fun f mem =>
    safe.scans i f (above mem)
  have clock := move.clock
  refine ⟨fun r has => ?_, fun j f mem c scan => ?_, fun j f mem => ?_,
    fun r has j f mem c scan since => ?_, fun j ptr u mem => ?_, fun j r mem => ?_⟩
  · rcases safe.has here move has with before | ⟨now, past⟩
    · exact (safe.entries r before).move top move
    · refine Stamped.move ⟨past, fun a e pinned _ => ?_⟩ top move
      rw [now]
      exact (owned.pins a e pinned).1
  · rcases mem_replace here mem with added | before
    · rcases Safe.new_scan scans move added scan with ⟨-, -, -, -, -, -, ok⟩ | ⟨now, epoch, none⟩
      · exact ok.move top move
      · refine ⟨show c.since < sh.clock + 1 by omega, epoch ▸ move.epoch_le, fun a e _ loaded => ?_⟩
        omega
    · exact (safe.scans j f before c scan).move top move
  · rcases mem_replace here mem with added | before
    · exact Safe.new_swept (fun f mem => safe.swept i f (above mem)) move f added
    · exact safe.swept j f before
  · -- an older scan, of an entry stamped before or now
    have old_scan {k : Fin threads} {f' : Frame} {c' : Scan} (inside : f' ∈ s.stack k)
        (scan' : f'.scan? = some c') (same : c.since = c'.since) (le : c.minEpoch ≤ c'.minEpoch) :
        c.minEpoch ≤ r.epoch := by
      rcases safe.has here move has with before | ⟨now, -⟩
      · exact le.trans (safe.paired r before k f' inside c' scan' (same ▸ since))
      · rw [now]
        exact le.trans (safe.scans k f' inside c' scan').epoch
    rcases mem_replace here mem with added | before
    · rcases Safe.new_scan scans move added scan with
        ⟨f', inside, c', scan', same, le, -⟩ | ⟨now, -⟩
      · exact old_scan (above inside) scan' same le
      · have past : r.unlinkedAt < s.shared.clock := by
          rcases safe.has here move has with before | ⟨-, past⟩
          · exact (safe.entries r before).past
          · exact past
        omega
    · exact old_scan before scan rfl (Nat.le_refl _)
  · show u < sh.clock + 1
    rcases mem_replace here mem with added | before
    · cases move with
      | unlink =>
        cases List.mem_singleton.mp added
        exact Nat.lt_succ_self _
      | sweepEnd next | loadOrphans next => rcases next with rfl | rfl <;> simp at added
      | _ => simp at added
    · have := safe.unlinked j ptr u before
      omega
  · rcases mem_replace here mem with added | before
    · refine Unseen.move ?_ move
      have swept := fun f mem => safe.swept i f (above mem)
      cases move with
      | sweepDelete older | orphanDelete older =>
        simp only [List.mem_cons, Frame.deleting.injEq, List.not_mem_nil, or_false,
          reduceCtorEq] at added
        subst added
        exact safe.unseen owned (above List.mem_cons_self) rfl (swept _ List.mem_cons_self)
          (List.mem_append_left _ List.mem_cons_self) older
      | sweepEnd next | loadOrphans next => rcases next with rfl | rfl <;> simp at added
      | _ => simp at added
    · exact (safe.deleting j r before).move move

theorem reach_safe (reach : Reach (step layout) anyStep (initial layout) s) : Safe s := by
  refine Reach.invariant_of (J := Owned layout) (I := Safe) reach_owned (initial_safe layout) ?_
    reach
  intro s t a owned safe _ stepped
  obtain ⟨i, old, rest, sh, new, here, move, -, rfl⟩ := step_cases stepped
  exact safe.move owned here move

/-! ## The theorem -/

/-- While a deleter runs, no guard is open that was opened before its object was unlinked. -/
theorem no_deleter_under_guard (threads slots : Nat) (layout : Layout threads slots)
    (s : State threads slots) (reach : Reach (step layout) anyStep (initial layout) s)
    (i j : Fin threads) (r : Retired) (g : Nat) (runs : .deleting r ∈ s.stack i)
    (held : g ∈ s.shared.guards j) : r.unlinkedAt ≤ g :=
  ((reach_safe reach).deleting i r runs).guards j g held

/-- Two threads of the pool, each with its slot. -/
def twoThreads : Layout 2 2 where
  externalBase := 2
  home := some
  apart := by simp
  inside := by
    intro i slot _
    exact slot.isLt

/-- The first thread retires an object and advances the epoch, the second opens a guard, and the
first reclaims under it. -/
def reclaimUnderLaterGuard : List (Label 2) :=
  [.call 0 (.unlink 7), .step 0, .step 0, .call 0 .advanceEpoch, .step 0,
   .call 1 .openGuard, .step 1, .step 1,
   .call 0 (.tryReclaim true), .step 0, .step 0, .step 0, .step 0, .step 0]

def reclaiming : State 2 2 :=
  (run (step twoThreads) anyStep (initial twoThreads) reclaimUnderLaterGuard).getD
    (initial twoThreads)

theorem later_guard_open :
    Reach (step twoThreads) anyStep (initial twoThreads) reclaiming ∧
      .deleting ⟨7, 0, 0⟩ ∈ reclaiming.stack 0 ∧ 7 ∈ reclaiming.shared.guards 1 ∧
      (Retired.mk 7 0 0).unlinkedAt ≤ 7 := by
  have reach : Reach (step twoThreads) anyStep (initial twoThreads) reclaiming :=
    Reach.of_isSome reclaimUnderLaterGuard (by decide +kernel)
  have runs : .deleting ⟨7, 0, 0⟩ ∈ reclaiming.stack 0 := by decide +kernel
  have held : 7 ∈ reclaiming.shared.guards 1 := by decide +kernel
  exact ⟨reach, runs, held, no_deleter_under_guard 2 2 twoThreads _ reach 0 1 _ 7 runs held⟩

end JLibSched.Epoch
