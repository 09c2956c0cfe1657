import JLibSched.Timer.Pointers

/-!
# What the memory of the wheel shows

`Shows m w` says that the links, the bits and the free list in memory are those of a wheel of
lists.  Every operation in memory shows what the operation on lists does.
-/

namespace JLibSched.Timer

open Transition Links

/-- No entry is on two lists, or twice on one. -/
structure Apart (w : Wheel) : Prop where
  nodup : ∀ l s, (w.heads l s).Nodup
  apart : ∀ {i l s l' s'}, i ∈ w.heads l s → i ∈ w.heads l' s' → l = l' ∧ s = s'

theorem Wheel.Linked.apart {w : Wheel} (linked : w.Linked) : Apart w where
  nodup := linked.nodup
  apart mem mem' := by
    obtain ⟨level, slot⟩ := (linked.mem _ _ _).mp mem
    obtain ⟨level', slot'⟩ := (linked.mem _ _ _).mp mem'
    rw [level] at level'
    exact ⟨Option.some.inj level', slot.symm.trans slot'⟩

structure Shows (m : Memory) (w : Wheel) : Prop where
  entries : m.entries = w.entries
  size : m.size = w.size
  currentTick : m.currentTick = w.currentTick
  armedCount : m.armedCount = w.armedCount
  free : Leads (fun i => Memory.index (m.nextFree i)) (Memory.index m.freeHead) w.free none
  lists : ∀ l s, (m.chain l s (w.heads l s).getLast?).Holds (w.heads l s)
  occ : ∀ l, ∀ s < slots, (m.occ l (s / 64)).getLsbD (s % 64) = decide (w.heads l s ≠ [])

namespace Shows

variable {m : Memory} {w : Wheel} {i j l s : Nat}

theorem head (shows : Shows m w) (l s : Nat) : m.heads l s = (w.heads l s).head? :=
  (shows.lists l s).head

theorem head_none (shows : Shows m w) : m.heads l s = none ↔ w.heads l s = [] := by
  rw [shows.head, List.head?_eq_none_iff]

/-! ## Fields that say nothing of the lists -/

theorem modify (shows : Shows m w) (i : Nat) (f : Entry → Entry) :
    Shows (m.modify i f) (w.modify i f) where
  entries := by
    unfold Memory.modify Wheel.modify
    simp only [shows.entries]
  size := shows.size
  currentTick := shows.currentTick
  armedCount := shows.armedCount
  free := shows.free
  lists := shows.lists
  occ := shows.occ

theorem setTick (shows : Shows m w) (tick : Nat) :
    Shows { m with currentTick := tick } { w with currentTick := tick } :=
  ⟨shows.entries, shows.size, rfl, shows.armedCount, shows.free, shows.lists, shows.occ⟩

theorem setArmed (shows : Shows m w) (count : Nat) :
    Shows { m with armedCount := count } { w with armedCount := count } :=
  ⟨shows.entries, shows.size, shows.currentTick, rfl, shows.free, shows.lists, shows.occ⟩

/-! ## Occupancy -/

/-- Two slots with one word and one bit are one. -/
theorem same_slot (word : j / 64 = s / 64) (bit : j % 64 = s % 64) : j = s := by omega

theorem occ_mark (occ : Nat → Nat → BitVec 64) (l s l' j : Nat) :
    (Memory.setCell occ l (s / 64) (occ l (s / 64) ||| 1#64 <<< (s % 64)) l' (j / 64)).getLsbD
      (j % 64) = ((occ l' (j / 64)).getLsbD (j % 64) || decide (l' = l ∧ j = s)) := by
  unfold Memory.setCell
  split
  · rename_i here
    obtain ⟨rfl, word⟩ := here
    rw [← word, Bits.getLsbD_set _ (Nat.mod_lt _ (by decide))]
    congr 1
    refine decide_eq_decide.mpr ⟨fun bit => ⟨rfl, same_slot word bit⟩, fun same => ?_⟩
    rw [same.2]
  · rename_i elsewhere
    have other : ¬ (l' = l ∧ j = s) := fun same => elsewhere ⟨same.1, by rw [same.2]⟩
    rw [decide_eq_false other, Bool.or_false]

theorem occ_unmark (occ : Nat → Nat → BitVec 64) (l s l' j : Nat) :
    (Memory.setCell occ l (s / 64) (occ l (s / 64) &&& ~~~(1#64 <<< (s % 64))) l' (j / 64)).getLsbD
      (j % 64) = ((occ l' (j / 64)).getLsbD (j % 64) && decide (¬ (l' = l ∧ j = s))) := by
  unfold Memory.setCell
  split
  · rename_i here
    obtain ⟨rfl, word⟩ := here
    rw [← word, Bits.getLsbD_clear _ (Nat.mod_lt _ (by decide))]
    congr 1
    refine decide_eq_decide.mpr ⟨fun bit same => bit (by rw [same.2]), fun other bit => ?_⟩
    exact other ⟨rfl, same_slot word bit⟩
  · rename_i elsewhere
    have other : ¬ (l' = l ∧ j = s) := fun same => elsewhere ⟨same.1, by rw [same.2]⟩
    rw [decide_eq_true other, Bool.and_true]

/-! ## Links -/

theorem link_prev (m : Memory) (i l s : Nat) (last : Option Nat) :
    (m.link i l s).prev = ((m.chain l s last).pushFront i).prev := by
  unfold Memory.link Memory.markOccupied Doubly.pushFront Memory.chain
  cases m.heads l s with
  | none => rfl
  | some n => rfl

/-- Only the entry and the first one of the slot get other links back. -/
theorem link_prev_of_ne {x : Nat} (other : x ≠ i) (first : m.heads l s ≠ some x) :
    (m.link i l s).prev x = m.prev x := by
  unfold Memory.link Memory.markOccupied
  cases head : m.heads l s with
  | none => exact Function.update_of_ne other _ _
  | some n =>
    have second : x ≠ n := fun same => first (by rw [head, same])
    simp only
    rw [Function.update_of_ne second, Function.update_of_ne other]

theorem link (shows : Shows m w) (lists : Apart w) (out : ∀ l s, i ∉ w.heads l s) :
    Shows (m.link i l s) (w.link i l s) := by
  have pushed := (shows.lists l s).pushFront (lists.nodup l s) (out l s)
  refine ⟨?_, shows.size, shows.currentTick, shows.armedCount, shows.free, fun l' s' => ?_,
    fun l' s' inside => ?_⟩
  · unfold Memory.link Memory.markOccupied Wheel.link
    rw [Wheel.setHead_entries]
    unfold Wheel.modify
    simp only [shows.entries]
  · have before := shows.lists l' s'
    unfold Wheel.link
    rw [Wheel.setHead_heads]
    split
    · rename_i here
      obtain ⟨rfl, rfl⟩ := here
      refine pushed.congr (if_pos ⟨rfl, rfl⟩) pushed.tail.symm (fun _ _ => rfl) fun x _ => ?_
      exact congrFun (link_prev m i l' s' _) x
    · rename_i elsewhere
      refine before.congr (if_neg elsewhere) rfl (fun x mem => ?_) fun x mem => ?_
      · refine Function.update_of_ne ?_ _ _
        rintro rfl
        exact out l' s' mem
      · refine link_prev_of_ne (fun same => out l' s' (same ▸ mem)) fun first => ?_
        rw [shows.head] at first
        exact elsewhere (lists.apart mem (List.mem_of_mem_head? first))
  · unfold Memory.link Memory.markOccupied Wheel.link
    rw [Wheel.setHead_heads, occ_mark, shows.occ l' s' inside]
    split
    · rename_i here
      simp [here]
    · rename_i elsewhere
      rw [decide_eq_false elsewhere, Bool.or_false]
      rfl

theorem place (shows : Shows m w) (lists : Apart w) (out : ∀ l s, i ∉ w.heads l s) (d : Nat) :
    Shows (m.place i d) (w.place i d) := by
  unfold Memory.place Wheel.place
  rw [shows.currentTick]
  exact shows.link lists out

/-! ## Unlinking -/

/-- On its own slot `Unlink` is the unlinking of a doubly linked list, and clears the links. -/
theorem unlink_chain (m : Memory) {i l : Nat} (level : (m.entries i).level = some l)
    (last : Option Nat) :
    (m.unlink i).next = (((m.chain l (m.entries i).slot last).unlink i).write i none none).next ∧
    (m.unlink i).prev = (((m.chain l (m.entries i).slot last).unlink i).write i none none).prev ∧
    (m.unlink i).heads = Memory.setCell m.heads l (m.entries i).slot
      ((m.chain l (m.entries i).slot last).unlink i).head := by
  unfold Memory.unlink Doubly.unlink Doubly.write Memory.chain
  simp only [level]
  cases m.prev i with
  | none =>
    cases m.next i with
    | none => exact ⟨rfl, rfl, rfl⟩
    | some n => exact ⟨rfl, rfl, rfl⟩
  | some p =>
    cases m.next i with
    | none => exact ⟨rfl, rfl, rfl⟩
    | some n => exact ⟨rfl, rfl, rfl⟩

theorem unlink_occ (m : Memory) {i l : Nat} (level : (m.entries i).level = some l) :
    (m.unlink i).occ = if (m.unlink i).heads l (m.entries i).slot = none then
      (m.markEmpty l (m.entries i).slot).occ else m.occ := by
  have head (cell : Option Nat) :
      Memory.setCell m.heads l (m.entries i).slot cell l (m.entries i).slot = cell :=
    if_pos ⟨rfl, rfl⟩
  unfold Memory.unlink
  simp only [level, head]
  cases prev : m.prev i with
  | none =>
    simp only
    cases next : m.next i with
    | none => rfl
    | some n => rfl
  | some p =>
    simp only
    cases first : m.heads l (m.entries i).slot with
    | none => rfl
    | some n => rfl

theorem unlink_entries (m : Memory) {i l : Nat} (level : (m.entries i).level = some l) :
    (m.unlink i).entries = Function.update m.entries i { m.entries i with level := none } ∧
    (m.unlink i).size = m.size ∧ (m.unlink i).currentTick = m.currentTick ∧
    (m.unlink i).armedCount = m.armedCount ∧ (m.unlink i).nextFree = m.nextFree ∧
    (m.unlink i).freeHead = m.freeHead := by
  unfold Memory.unlink
  simp only [level, and_self]

theorem unlink (shows : Shows m w) (linked : w.Linked) : Shows (m.unlink i) (w.unlink i) := by
  cases level : (w.entries i).level with
  | none =>
    have same : m.unlink i = m := by
      unfold Memory.unlink
      rw [shows.entries, level]
    have same' : w.unlink i = w := by
      unfold Wheel.unlink
      rw [level]
    rw [same, same']
    exact shows
  | some l =>
    have level' : (m.entries i).level = some l := by
      rw [shows.entries]
      exact level
    have slot : (m.entries i).slot = (w.entries i).slot := by rw [shows.entries]
    have mem : i ∈ w.heads l (w.entries i).slot := (linked.mem i l _).mpr ⟨level, rfl⟩
    have nodup := linked.nodup l (w.entries i).slot
    have holds := shows.lists l (w.entries i).slot
    obtain ⟨next, prev, heads⟩ := unlink_chain m level' (w.heads l (w.entries i).slot).getLast?
    obtain ⟨entries, size, tick, armed, nextFree, freeHead⟩ := unlink_entries m level'
    have occ := unlink_occ m level'
    rw [slot] at next prev heads occ
    obtain ⟨a, b, split⟩ := List.append_of_mem mem
    rw [split] at nodup
    have chain := holds
    rw [split] at chain
    have outside : i ∉ a ++ b := (List.nodup_middle.mp nodup |> List.nodup_cons.mp).1
    have erased : (w.heads l (w.entries i).slot).erase i = a ++ b := by
      rw [split, List.erase_append_right _ fun front => outside (List.mem_append_left b front),
        List.erase_cons_head]
    have left := (chain.unlink nodup).write outside none none
    have heads' (l' s' : Nat) : (w.unlink i).heads l' s' =
        if l' = l ∧ s' = (w.entries i).slot then a ++ b else w.heads l' s' := by
      unfold Wheel.unlink
      simp only [level]
      rw [Wheel.setHead_heads, erased]
      rfl
    have here : (m.unlink i).heads l (w.entries i).slot = (a ++ b).head? := by
      rw [heads]
      exact (if_pos ⟨rfl, rfl⟩).trans (split ▸ left.head)
    obtain ⟨tick', size', free'⟩ := Wheel.unlink_rest (w := w) (i := i)
    have armed' : (w.unlink i).armedCount = w.armedCount := by
      unfold Wheel.unlink
      simp only [level]
      rfl
    refine ⟨?_, size.trans (shows.size.trans size'.symm),
      tick.trans (shows.currentTick.trans tick'.symm),
      armed.trans (shows.armedCount.trans armed'.symm), ?_, fun l' s' => ?_,
      fun l' s' inside => ?_⟩
    · unfold Wheel.unlink
      simp only [level]
      rw [entries, Wheel.setHead_entries, shows.entries]
      rfl
    · rw [nextFree, freeHead, free']
      exact shows.free
    · rw [heads']
      split
      · rename_i same
        obtain ⟨rfl, rfl⟩ := same
        refine left.congr (here.trans left.head.symm) left.tail.symm (fun x _ => ?_) fun x _ => ?_
        · rw [← split]
          exact congrFun next x
        · rw [← split]
          exact congrFun prev x
      · rename_i elsewhere
        have absent {x : Nat} (mem' : x ∈ w.heads l' s') : x ∉ a ++ i :: b :=
          fun on => elsewhere (linked.apart.apart mem' (split ▸ on))
        refine (shows.lists l' s').congr ?_ rfl (fun x mem' => ?_) fun x mem' => ?_
        · exact (congrFun (congrFun heads l') s').trans (if_neg elsewhere)
        · have other : x ≠ i := fun same =>
            absent mem' (same ▸ List.mem_append_right a List.mem_cons_self)
          refine (congrFun next x).trans ((Function.update_of_ne other _ _).trans ?_)
          rw [split]
          exact chain.unlink_next fun front => absent mem' (List.mem_append_left _ front)
        · have other : x ≠ i := fun same =>
            absent mem' (same ▸ List.mem_append_right a List.mem_cons_self)
          refine (congrFun prev x).trans ((Function.update_of_ne other _ _).trans ?_)
          rw [split]
          exact chain.unlink_prev fun back =>
            absent mem' (List.mem_append_right a (List.mem_cons_of_mem i back))
    · rw [heads', occ, here]
      have before := shows.occ l' s' inside
      cases rest : a ++ b with
      | nil =>
        rw [List.head?_nil, if_pos rfl]
        unfold Memory.markEmpty
        rw [occ_unmark, before]
        split
        · rename_i same
          simp [same]
        · rename_i elsewhere
          simp [elsewhere]
      | cons x rest =>
        rw [List.head?_cons, if_neg (Option.some_ne_none x), before]
        split
        · rename_i same
          rw [same.1, same.2]
          simp [split]
        · rfl

/-! ## Cascades -/

/-- The entry of a round is off its list, and its links are cleared. -/
theorem takeOff (shows : Shows m w) (out : ∀ l s, i ∉ w.heads l s) :
    Shows
      { m with
        entries := Function.update m.entries i { m.entries i with level := none }
        next := Function.update m.next i none
        prev := Function.update m.prev i none }
      (w.modify i fun e => { e with level := none }) where
  entries := by
    unfold Wheel.modify
    simp only [shows.entries]
  size := shows.size
  currentTick := shows.currentTick
  armedCount := shows.armedCount
  free := shows.free
  lists l s := (shows.lists l s).write (out l s) none none
  occ := shows.occ

theorem link_apart (lists : Apart w) (out : ∀ l s, i ∉ w.heads l s) : Apart (w.link i l s) := by
  have heads (l' s' : Nat) : (w.link i l s).heads l' s' =
      if l' = l ∧ s' = s then i :: w.heads l s else w.heads l' s' := rfl
  constructor
  · intro l' s'
    rw [heads]
    split
    · exact List.nodup_cons.mpr ⟨out l s, lists.nodup l s⟩
    · exact lists.nodup l' s'
  · -- an old entry of the slot was apart from the others before, and `i` was on none
    have alone {x l' s' : Nat} (mem : x ∈ i :: w.heads l s) (mem' : x ∈ w.heads l' s') :
        l = l' ∧ s = s' := by
      rcases List.mem_cons.mp mem with rfl | old
      · exact absurd mem' (out l' s')
      · exact lists.apart old mem'
    intro x l' s' k t mem mem'
    rw [heads] at mem mem'
    split at mem
    · rename_i first
      obtain ⟨rfl, rfl⟩ := first
      split at mem'
      · rename_i second
        exact ⟨second.1.symm, second.2.symm⟩
      · exact alone mem mem'
    · split at mem'
      · rename_i second
        obtain ⟨rfl, rfl⟩ := second
        have same := alone mem' mem
        exact ⟨same.1.symm, same.2.symm⟩
      · exact lists.apart mem mem'

theorem replaceAll {list : List Nat} {rounds : Nat} (shows : Shows m w) (lists : Apart w)
    (out : ∀ i ∈ list, ∀ l s, i ∉ w.heads l s) (once : list.Nodup) {idx : Option Nat}
    (leads : Leads m.next idx list none) (enough : list.length ≤ rounds) :
    Shows (m.replaceAll rounds idx) (w.replaceAll list) := by
  induction list generalizing m w rounds idx with
  | nil =>
    cases leads
    cases rounds with
    | zero => exact shows
    | succ rounds => exact shows
  | cons i rest ih =>
    obtain ⟨rfl, rest_leads⟩ := leads
    obtain ⟨fresh, once⟩ := List.nodup_cons.mp once
    cases rounds with
    | zero => cases enough
    | succ rounds =>
      have free := out i List.mem_cons_self
      have off := shows.takeOff free
      have same : (m.entries i).deadlineTick = (w.entries i).deadlineTick := by
        rw [shows.entries]
      unfold Memory.replaceAll Wheel.replaceAll
      rw [same]
      refine ih (off.place ⟨lists.nodup, lists.apart⟩ free _)
        (link_apart ⟨lists.nodup, lists.apart⟩ free) (fun j mem l s => ?_) once ?_
        (Nat.le_of_succ_le_succ enough)
      · have absent := out j (List.mem_cons_of_mem i mem) l s
        rw [Wheel.round_heads]
        split
        · rw [List.mem_cons, not_or]
          exact ⟨fun this => fresh (this ▸ mem), absent⟩
        · exact absent
      · refine rest_leads.congr fun j mem => ?_
        have other : j ≠ i := fun this => fresh (this ▸ mem)
        exact (Function.update_of_ne other _ _).trans (Function.update_of_ne other _ _)

/-- The head of a slot is cleared. -/
theorem clear (shows : Shows m w) (l s : Nat) :
    Shows (Memory.markEmpty { m with heads := Memory.setCell m.heads l s none } l s)
      (w.setHead l s []) where
  entries := shows.entries
  size := shows.size
  currentTick := shows.currentTick
  armedCount := shows.armedCount
  free := shows.free
  lists l' s' := by
    rw [Wheel.setHead_heads]
    split
    · rename_i here
      exact ⟨if_pos here, rfl⟩
    · rename_i elsewhere
      exact (shows.lists l' s').congr (if_neg elsewhere) rfl (fun _ _ => rfl) fun _ _ => rfl
  occ l' s' inside := by
    unfold Memory.markEmpty
    rw [Wheel.setHead_heads, occ_unmark, shows.occ l' s' inside]
    split
    · rename_i here
      simp [here]
    · rename_i elsewhere
      simp [elsewhere]

end Shows

/-- A linked entry is one of the vector's. -/
def Known (w : Wheel) : Prop := ∀ i l, (w.entries i).level = some l → i < w.size

namespace Shows

variable {m : Memory} {w : Wheel} {i j l s : Nat}

/-- No list is longer than the vector of entries. -/
theorem length_le (linked : w.Linked) (known : Known w) (l s : Nat) :
    (w.heads l s).length ≤ w.size := by
  have within : w.heads l s ⊆ List.range w.size := by
    intro i mem
    exact List.mem_range.mpr (known i l ((linked.mem i l s).mp mem).1)
  have bound := ((linked.nodup l s).subperm within).length_le
  rwa [List.length_range] at bound

theorem cascade (shows : Shows m w) (linked : w.Linked) (known : Known w) :
    Shows (m.cascade l s) (w.cascade l s) := by
  unfold Memory.cascade Wheel.cascade
  have apart : Apart (w.setHead l s []) := by
    constructor
    · intro l' s'
      rw [Wheel.setHead_heads]
      split
      · exact List.nodup_nil
      · exact linked.nodup l' s'
    · intro x l' s' k t mem mem'
      rw [Wheel.setHead_heads] at mem mem'
      split at mem
      · cases mem
      · split at mem'
        · cases mem'
        · exact linked.apart.apart mem mem'
  refine (shows.clear l s).replaceAll apart (fun i on l' s' => ?_) (linked.nodup l s)
    (shows.lists l s).forth (shows.size ▸ length_le linked known l s)
  rw [Wheel.setHead_heads]
  split
  · exact List.not_mem_nil
  · rename_i elsewhere
    intro mem
    have same := linked.apart.apart on mem
    exact elsewhere ⟨same.1.symm, same.2.symm⟩

/-- A cascade changes nothing of an entry but where it hangs. -/
theorem known_recast {w' : Wheel} {done : Nat → Nat → Prop} (recast : Wheel.Recast done w w')
    (known : Known w) : Known w' := by
  intro x k level
  rw [recast.rest.1]
  rcases recast.entries x with same | ⟨on, -⟩
  · exact known x k (same ▸ level)
  · obtain ⟨k', level'⟩ := Option.ne_none_iff_exists'.mp on
    exact known x k' level'

theorem cascadeSlots (shows : Shows m w) (linked : w.Linked) (known : Known w) (l : Nat)
    (list : List Nat) : Shows (m.cascadeSlots l list) (w.cascadeSlots l list) := by
  induction list generalizing m w with
  | nil => exact shows
  | cons s rest ih =>
    unfold Memory.cascadeSlots Wheel.cascadeSlots
    by_cases empty : w.heads l s = []
    · rw [if_neg (not_not.mpr (shows.head_none.mpr empty)), if_neg (not_not.mpr empty)]
      exact ih shows linked known
    · have recast := Wheel.cascade_recast (l := l) (s := s) linked
      rw [if_pos (fun none => empty (shows.head_none.mp none)), if_pos empty]
      exact ih (shows.cascade linked known) recast.linked (known_recast recast known)

theorem cascadeLevels (shows : Shows m w) (linked : w.Linked) (known : Known w) (from0 target : Nat)
    (ls : List Nat) : Shows (m.cascadeLevels from0 target ls) (w.cascadeLevels from0 target ls) := by
  induction ls generalizing m w with
  | nil => exact shows
  | cons l rest ih =>
    unfold Memory.cascadeLevels Wheel.cascadeLevels
    split
    · exact shows
    · have recast := Wheel.cascadeSlots_recast linked l
        (Wheel.enteredSlots (from0 / granularity l) (target / granularity l))
      exact ih (shows.cascadeSlots linked known l _) recast.linked (known_recast recast known)

theorem advanceTo (shows : Shows m w) (linked : w.Linked) (known : Known w) (target : Nat) :
    Shows (m.advanceTo target) (w.advanceTo target) := by
  unfold Memory.advanceTo Wheel.advanceTo
  rw [shows.currentTick]
  split
  · exact shows
  · exact (shows.setTick target).cascadeLevels ⟨linked.mem, linked.nodup⟩ known _ _ _

/-! ## The free list -/

/-- A recycled entry, or a new one behind the others. -/
theorem acquireEntry (shows : Shows m w) (linked : w.Linked) (known : Known w) :
    Shows m.acquireEntry.1 w.acquireEntry.1 ∧ m.acquireEntry.2 = w.acquireEntry.2 := by
  have free := shows.free
  unfold Memory.acquireEntry Wheel.acquireEntry
  cases list : w.free with
  | nil =>
    rw [list] at free
    have none : m.freeHead = 0 := by
      cases head : m.freeHead with
      | zero => rfl
      | succ i =>
        rw [head] at free
        cases free
    rw [if_neg (not_not.mpr none)]
    have out (l s : Nat) : m.size ∉ w.heads l s := by
      intro mem
      have inside := known _ _ ((linked.mem _ _ _).mp mem).1
      rw [shows.size] at inside
      exact Nat.lt_irrefl _ inside
    refine ⟨⟨?_, ?_, shows.currentTick, shows.armedCount, ?_, fun l s => ?_, shows.occ⟩,
      shows.size⟩
    · simp only [shows.entries, shows.size]
    · simp only [shows.size]
    · rw [none]
      exact rfl
    · exact (shows.lists l s).write (out l s) Option.none Option.none
  | cons i rest =>
    rw [list] at free
    obtain ⟨head, leads⟩ := free
    have first : m.freeHead = i + 1 := by
      cases here : m.freeHead with
      | zero =>
        rw [here] at head
        cases head
      | succ k =>
        rw [here] at head
        cases head
        rfl
    rw [if_pos (by rw [first]; exact Nat.succ_ne_zero i)]
    simp only [first, Nat.add_sub_cancel]
    exact ⟨⟨shows.entries, shows.size, shows.currentTick, shows.armedCount, leads, shows.lists,
      shows.occ⟩, trivial⟩

theorem releaseEntry (shows : Shows m w) (fresh : i ∉ w.free) :
    Shows (m.releaseEntry i) (w.releaseEntry i) where
  entries := by
    unfold Memory.releaseEntry Memory.modify Wheel.releaseEntry Wheel.modify
    simp only [shows.entries]
  size := shows.size
  currentTick := shows.currentTick
  armedCount := shows.armedCount
  free := by
    have links : (fun j => Memory.index (Function.update m.nextFree i m.freeHead j)) =
        Function.update (fun j => Memory.index (m.nextFree j)) i (Memory.index m.freeHead) := by
      funext j
      rcases eq_or_ne j i with rfl | other
      · rw [Function.update_self, Function.update_self]
      · rw [Function.update_of_ne other, Function.update_of_ne other]
    have pushed := shows.free.push fresh
    rw [← links] at pushed
    exact pushed
  lists := shows.lists
  occ := shows.occ

/-! ## Sections -/

theorem insert (shows : Shows m w) (valid : w.Valid) (known : Known w) (d : Nat)
    (fill : Entry → Entry) :
    Shows (m.insert d fill).1 (State.insert w d fill).1 ∧
      (m.insert d fill).2 = (State.insert w d fill).2 := by
  obtain ⟨acquired, same⟩ := shows.acquireEntry valid.linked known
  obtain ⟨-, off, -, -, -, heads, -⟩ := Wheel.acquireEntry_spec valid
  have filled := acquired.modify w.acquireEntry.2 fun e =>
    { fill (Wheel.bump e) with deadlineTick := d }
  have apart : Apart w.acquireEntry.1 := by
    have linked := valid.linked.apart
    exact ⟨heads ▸ linked.nodup, heads ▸ linked.apart⟩
  have out (l s : Nat) : w.acquireEntry.2 ∉ w.acquireEntry.1.heads l s := by
    rw [heads, valid.linked.mem, off]
    exact fun on => by cases on.1
  have placed := (filled.place ⟨apart.nodup, apart.apart⟩ out d).setArmed
    (w.acquireEntry.1.armedCount + 1)
  unfold Memory.insert State.insert
  simp only [same, acquired.armedCount]
  exact ⟨placed, trivial⟩

theorem disarm (shows : Shows m w) (valid : w.Valid) (on : (w.entries i).level ≠ none) :
    Shows (m.disarm i) (w.disarm i) := by
  have off := (shows.unlink (i := i) valid.linked).modify i Wheel.bump
  have fresh : i ∉ ((w.unlink i).modify i Wheel.bump).free := by
    rw [Wheel.modify_free, Wheel.unlink_rest.2.2]
    exact fun mem => on (valid.free.2 i mem).2
  have released := (off.releaseEntry fresh).setArmed (w.armedCount - 1)
  unfold Memory.disarm Wheel.disarm
  rw [shows.armedCount]
  exact released

theorem refire (shows : Shows m w) (linked : w.Linked) (d : Nat) :
    Shows (m.refire i d) (w.refire i d) := by
  have unlinked := Wheel.unlink_linked (i := i) linked
  have off := (shows.unlink (i := i) linked).modify i fun e => { e with deadlineTick := d }
  refine off.place ⟨unlinked.nodup, unlinked.apart.apart⟩ (fun l s => ?_) d
  rw [Wheel.modify_heads, unlinked.mem, Wheel.unlink_entries, if_pos rfl]
  exact fun on => by cases on.1

end Shows

end JLibSched.Timer
