import JLibSched.Timer.Representation

/-!
# The four records agree

Between two calls under the mutex an entry is on the list of its slot, on the free list or in a
hand (`Kept`), and between two sections no hand has any.  So the memory of a wheel that is shown is
as it should be, and `NextOccupied`, which masks and scans words, finds the first occupied slot in
circular order.
-/

namespace JLibSched.Timer

open Transition Links

/-! ## The scan -/

namespace Memory

variable {m : Memory} {l q r : Nat}

def bit (m : Memory) (l s : Nat) : Bool := (m.occ l (s / 64)).getLsbD (s % 64)

/-- The bits of one word. -/
theorem find_word (m : Memory) (l q a n : Nat) (inside : a + n ≤ 64) :
    (List.range' (q * 64 + a) n).find? (m.bit l) =
      ((List.range' a n).find? (m.occ l q).getLsbD).map (q * 64 + ·) := by
  rw [← List.map_add_range', List.find?_map]
  congr 1
  refine List.find?_congr fun b mem => ?_
  obtain ⟨-, high⟩ := List.mem_range'_1.mp mem
  have quotient : (q * 64 + b) / 64 = q := by omega
  have remainder : (q * 64 + b) % 64 = b := by omega
  simp only [Function.comp, bit, quotient, remainder]

theorem lowest_eq (w : BitVec 64) (q : Nat) : lowest q w =
    (if w = 0#64 then none else some (Bits.countTrailingZeros w)).map (q * 64 + ·) := by
  unfold lowest
  split <;> rfl

theorem lowest_high (m : Memory) (l q : Nat) {r : Nat} (inside : r ≤ 64) :
    lowest q (m.occ l q &&& ~~~0#64 <<< r) =
      (List.range' (q * 64 + r) (64 - r)).find? (m.bit l) := by
  rw [find_word m l q r (64 - r) (by omega), Bits.find_high _ inside, lowest_eq]

theorem lowest_low (m : Memory) (l q : Nat) {r : Nat} (inside : r ≤ 64) :
    lowest q (m.occ l q &&& ~~~(~~~0#64 <<< r)) = (List.range' (q * 64) r).find? (m.bit l) := by
  have words := find_word m l q 0 r (by omega)
  rw [Nat.add_zero] at words
  rw [words, Bits.find_low _ inside, lowest_eq]

theorem lowest_whole (m : Memory) (l q : Nat) :
    lowest q (m.occ l q) = (List.range' (q * 64) 64).find? (m.bit l) := by
  have words := find_word m l q 0 64 (by omega)
  rw [Nat.add_zero, ← List.range_eq_range'] at words
  rw [words, Bits.find_range, lowest_eq]

theorem nextOccupied_eq (m : Memory) (l start : Nat) :
    m.nextOccupied l start = ((Wheel.scanOrder start).find? (m.bit l)).getD slots := by
  have bound : start % 64 ≤ 64 := Nat.le_of_lt (Nat.mod_lt _ (by decide))
  have first := lowest_high m l (start / 64) bound
  have begins : start / 64 * 64 + start % 64 = start := by omega
  rw [begins] at first
  have last := lowest_low m l (start / 64) bound
  have middle : ([1, 2, 3].findSome? fun i =>
      lowest ((start / 64 + i) % 4) (m.occ l ((start / 64 + i) % 4))) =
      ([1, 2, 3].flatMap fun i =>
        List.range' ((start / 64 + i) % 4 * 64) 64).find? (m.bit l) := by
    rw [List.find?_flatMap]
    exact congrArg (List.findSome? · [1, 2, 3]) (funext fun i => lowest_whole m l _)
  unfold nextOccupied Wheel.scanOrder
  rw [List.find?_append, List.find?_append]
  simp only
  rw [first, middle, last]
  cases (List.range' start (64 - start % 64)).find? (m.bit l) with
  | some s => rfl
  | none =>
    cases ([1, 2, 3].flatMap fun i =>
      List.range' ((start / 64 + i) % 4 * 64) 64).find? (m.bit l) with
    | some s => rfl
    | none =>
      cases (List.range' (start / 64 * 64) (start % 64)).find? (m.bit l) with
      | some s => rfl
      | none => rfl

end Memory

/-! ## Between two calls -/

theorem placeOf_slot (c d : Nat) : (Wheel.placeOf c d).2 < slots := by
  have small (n : Nat) : n % slots < slots := Nat.mod_lt n (by decide)
  unfold Wheel.placeOf
  split
  · exact small _
  · split
    · exact small _
    · exact small _

/-- An entry is linked, free or in a hand. -/
structure Kept (w : Wheel) (hand : List Nat) : Prop where
  linked : w.Linked
  bound : ∀ i l, (w.entries i).level = some l →
    l < levels ∧ (w.entries i).slot < slots ∧ i < w.size
  nodup : w.free.Nodup
  free : ∀ i, i ∈ w.free ↔ i < w.size ∧ (w.entries i).level = none ∧ i ∉ hand
  held : ∀ i ∈ hand, i < w.size ∧ (w.entries i).level = none

namespace Kept

variable {w w' : Wheel} {hand : List Nat} {i l s : Nat}

theorem empty : Kept .empty [] where
  linked := Wheel.empty_linked
  bound i l level := by cases level
  nodup := List.nodup_nil
  free i := ⟨fun mem => (by cases mem), fun known => absurd known.1 (Nat.not_lt_zero i)⟩
  held i mem := by cases mem

theorem known (kept : Kept w hand) : Known w := fun i l level => (kept.bound i l level).2.2

theorem setTick (kept : Kept w hand) (tick : Nat) : Kept { w with currentTick := tick } hand :=
  ⟨⟨kept.linked.mem, kept.linked.nodup⟩, kept.bound, kept.nodup, kept.free, kept.held⟩

theorem setArmed (kept : Kept w hand) (count : Nat) : Kept { w with armedCount := count } hand :=
  ⟨⟨kept.linked.mem, kept.linked.nodup⟩, kept.bound, kept.nodup, kept.free, kept.held⟩

/-- A call that leaves the free list alone, and every entry linked or not as it was. -/
theorem congr (kept : Kept w hand) (linked : w'.Linked) (size : w'.size = w.size)
    (free : w'.free = w.free)
    (bound : ∀ i l, (w'.entries i).level = some l → l < levels ∧ (w'.entries i).slot < slots)
    (level : ∀ i, (w'.entries i).level = none ↔ (w.entries i).level = none) : Kept w' hand where
  linked := linked
  bound j k on := by
    refine ⟨(bound j k on).1, (bound j k on).2, ?_⟩
    have before : (w.entries j).level ≠ none := by
      rw [Ne, ← level, on]
      exact Option.some_ne_none k
    obtain ⟨k', on'⟩ := Option.ne_none_iff_exists'.mp before
    rw [size]
    exact kept.known j k' on'
  nodup := by
    rw [free]
    exact kept.nodup
  free j := by
    rw [free, size, level]
    exact kept.free j
  held j mem := by
    rw [size, level]
    exact kept.held j mem

theorem modify (kept : Kept w hand) (i : Nat) {f : Entry → Entry}
    (level : (f (w.entries i)).level = (w.entries i).level)
    (slot : (f (w.entries i)).slot = (w.entries i).slot) : Kept (w.modify i f) hand := by
  have fields (j : Nat) : ((w.modify i f).entries j).level = (w.entries j).level ∧
      ((w.modify i f).entries j).slot = (w.entries j).slot := by
    rw [Wheel.modify_entries]
    split
    · rename_i same
      rw [same]
      exact ⟨level, slot⟩
    · exact ⟨rfl, rfl⟩
  refine kept.congr (Wheel.modify_linked kept.linked ⟨level, slot⟩) rfl rfl (fun j k on => ?_)
    fun j => by rw [(fields j).1]
  rw [(fields j).1] at on
  rw [(fields j).2]
  exact ⟨(kept.bound j k on).1, (kept.bound j k on).2.1⟩

theorem recast {done : Nat → Nat → Prop} (kept : Kept w hand) (recast : Wheel.Recast done w w') :
    Kept w' hand := by
  refine kept.congr recast.linked recast.rest.1 recast.rest.2.1 (fun j k on => ?_) fun j => ?_
  · rcases recast.entries j with same | ⟨-, moved⟩
    · rw [same] at on ⊢
      exact ⟨(kept.bound j k on).1, (kept.bound j k on).2.1⟩
    · rw [moved] at on ⊢
      cases on
      exact ⟨placeOf_bound _ _, placeOf_slot _ _⟩
  · rcases recast.entries j with same | ⟨on, moved⟩
    · rw [same]
    · rw [moved]
      exact ⟨fun off => (by cases off), fun off => absurd off on⟩

theorem advanceTo (kept : Kept w hand) (target : Nat) : Kept (w.advanceTo target) hand := by
  rcases Nat.lt_or_ge w.currentTick target with later | before
  · exact (kept.setTick target).recast (Wheel.advanceTo_recast kept.linked later)
  · unfold Wheel.advanceTo
    rw [if_pos before]
    exact kept

theorem acquireEntry (kept : Kept w hand) :
    Kept w.acquireEntry.1 (w.acquireEntry.2 :: hand) := by
  unfold Wheel.acquireEntry
  cases list : w.free with
  | nil =>
    have off : (w.entries w.size).level = none := by
      cases level : (w.entries w.size).level with
      | none => rfl
      | some l => exact absurd (kept.known _ l level) (Nat.lt_irrefl _)
    have level (j : Nat) :
        (Function.update w.entries w.size .blank j).level = (w.entries j).level := by
      rcases eq_or_ne j w.size with rfl | other
      · rw [Function.update_self, off]
        rfl
      · rw [Function.update_of_ne other]
    have slot (j l : Nat) (on : (w.entries j).level = some l) :
        (Function.update w.entries w.size .blank j).slot = (w.entries j).slot := by
      have other : j ≠ w.size := Nat.ne_of_lt (kept.known j l on)
      rw [Function.update_of_ne other]
    have none (j : Nat) : ¬ (j < w.size ∧ (w.entries j).level = none ∧ j ∉ hand) := by
      rw [← kept.free j, list]
      exact List.not_mem_nil
    refine ⟨⟨fun j l s => ?_, kept.linked.nodup⟩, fun j l on => ?_, List.nodup_nil, fun j => ?_,
      fun j mem => ?_⟩
    · simp only
      rw [level, kept.linked.mem]
      exact and_congr_right fun on => by rw [slot j l on]
    · simp only at on ⊢
      rw [level] at on
      rw [slot j l on]
      obtain ⟨low, inside, before⟩ := kept.bound j l on
      exact ⟨low, inside, Nat.lt_succ_of_lt before⟩
    · simp only
      rw [level]
      refine ⟨fun mem => (by cases mem), fun free => ?_⟩
      obtain ⟨inside, off, out⟩ := free
      rw [List.mem_cons, not_or] at out
      have before : j < w.size := by omega
      exact absurd ⟨before, off, out.2⟩ (none j)
    · simp only
      rw [level]
      rcases List.mem_cons.mp mem with rfl | old
      · exact ⟨Nat.lt_succ_self _, off⟩
      · exact ⟨Nat.lt_succ_of_lt (kept.held j old).1, (kept.held j old).2⟩
  | cons i rest =>
    have nodup := kept.nodup
    rw [list] at nodup
    obtain ⟨fresh, once⟩ := List.nodup_cons.mp nodup
    have free (j : Nat) : j = i ∨ j ∈ rest ↔
        j < w.size ∧ (w.entries j).level = none ∧ j ∉ hand := by
      rw [← List.mem_cons, ← list]
      exact kept.free j
    refine ⟨⟨kept.linked.mem, kept.linked.nodup⟩, kept.bound, once, fun j => ?_, fun j mem => ?_⟩
    · simp only
      rw [List.mem_cons, not_or]
      constructor
      · intro mem
        obtain ⟨inside, off, out⟩ := (free j).mp (.inr mem)
        exact ⟨inside, off, fun same => fresh (same ▸ mem), out⟩
      · rintro ⟨inside, off, other, out⟩
        exact ((free j).mpr ⟨inside, off, out⟩).resolve_left other
    · rcases List.mem_cons.mp mem with rfl | old
      · obtain ⟨inside, off, -⟩ := (free j).mp (.inl rfl)
        exact ⟨inside, off⟩
      · exact kept.held j old

/-- The hand without an entry. -/
theorem mem_drop {j : Nat} : j ∈ hand.filter (· ≠ i) ↔ j ∈ hand ∧ j ≠ i := by
  rw [List.mem_filter, decide_eq_true_iff]

theorem link (kept : Kept w hand) (mem : i ∈ hand) (low : l < levels) (inside : s < slots) :
    Kept (w.link i l s) (hand.filter (· ≠ i)) := by
  obtain ⟨known, off⟩ := kept.held i mem
  have same {j : Nat} (other : j ≠ i) : (w.link i l s).entries j = w.entries j := by
    rw [Wheel.link_entries, if_neg other]
  have here : (w.link i l s).entries i = (w.entries i).hang (l, s) := by
    rw [Wheel.link_entries, if_pos rfl]
  refine ⟨Wheel.link_linked kept.linked off, fun j k on => ?_, kept.nodup, fun j => ?_,
    fun j held => ?_⟩
  · rcases eq_or_ne j i with rfl | other
    · rw [here] at on ⊢
      cases on
      exact ⟨low, inside, known⟩
    · rw [same other] at on ⊢
      exact kept.bound j k on
  · refine (kept.free j).trans ?_
    rcases eq_or_ne j i with rfl | other
    · rw [here]
      exact ⟨fun free => absurd mem free.2.2, fun absurd => by cases absurd.2.1⟩
    · rw [same other, mem_drop]
      exact and_congr_right fun _ => and_congr_right fun _ =>
        not_congr (and_iff_left other).symm
  · obtain ⟨held, other⟩ := mem_drop.mp held
    rw [same other]
    exact kept.held j held

theorem place (kept : Kept w hand) (mem : i ∈ hand) (d : Nat) :
    Kept (w.place i d) (hand.filter (· ≠ i)) :=
  kept.link mem (placeOf_bound _ _) (placeOf_slot _ _)

theorem unlink (kept : Kept w hand) (i : Nat) :
    Kept (w.unlink i) (if (w.entries i).level = none then hand else i :: hand) := by
  split
  · rename_i off
    have same : w.unlink i = w := by
      unfold Wheel.unlink
      rw [off]
    rw [same]
    exact kept
  · rename_i on
    obtain ⟨-, size, free⟩ := Wheel.unlink_rest (w := w) (i := i)
    obtain ⟨l, level⟩ := Option.ne_none_iff_exists'.mp on
    have same {j : Nat} (other : j ≠ i) : (w.unlink i).entries j = w.entries j := by
      rw [Wheel.unlink_entries, if_neg other]
    have here : (w.unlink i).entries i = { w.entries i with level := none } := by
      rw [Wheel.unlink_entries, if_pos rfl]
    refine ⟨Wheel.unlink_linked kept.linked, fun j k on' => ?_, free ▸ kept.nodup, fun j => ?_,
      fun j held => ?_⟩
    · rcases eq_or_ne j i with rfl | other
      · rw [here] at on'
        cases on'
      · rw [same other] at on' ⊢
        rw [size]
        exact kept.bound j k on'
    · rw [free, size, kept.free j, List.mem_cons, not_or]
      rcases eq_or_ne j i with rfl | other
      · exact ⟨fun off => absurd off.2.1 on, fun absurd => (absurd.2.2.1 rfl).elim⟩
      · rw [same other]
        exact and_congr_right fun _ => and_congr_right fun _ => (and_iff_right other).symm
    · rw [size]
      rcases List.mem_cons.mp held with rfl | old
      · rw [here]
        exact ⟨kept.known j l level, rfl⟩
      · have other : j ≠ i := by
          rintro rfl
          exact on (kept.held j old).2
        rw [same other]
        exact kept.held j old

theorem releaseEntry (kept : Kept w hand) (mem : i ∈ hand) :
    Kept (w.releaseEntry i) (hand.filter (· ≠ i)) := by
  obtain ⟨known, off⟩ := kept.held i mem
  have fields (j : Nat) : ((w.releaseEntry i).entries j).level = (w.entries j).level ∧
      ((w.releaseEntry i).entries j).slot = (w.entries j).slot := by
    unfold Wheel.releaseEntry
    simp only
    rw [Wheel.modify_entries]
    split
    · rename_i same
      rw [same]
      exact ⟨off.symm, rfl⟩
    · exact ⟨rfl, rfl⟩
  have out : i ∉ w.free := fun free => ((kept.free i).mp free).2.2 mem
  have linked : (w.releaseEntry i).Linked := by
    refine ⟨fun j l s => ?_, kept.linked.nodup⟩
    rw [(fields j).1, (fields j).2]
    exact kept.linked.mem j l s
  refine ⟨linked, fun j k on => ?_, List.nodup_cons.mpr ⟨out, kept.nodup⟩, fun j => ?_,
    fun j held => ?_⟩
  · rw [(fields j).1] at on
    rw [(fields j).2]
    exact kept.bound j k on
  · rw [(fields j).1, mem_drop]
    refine List.mem_cons.trans ?_
    rcases eq_or_ne j i with rfl | other
    · exact ⟨fun _ => ⟨known, off, fun held => held.2 rfl⟩, fun _ => .inl rfl⟩
    · rw [or_iff_right other, kept.free j]
      exact and_congr_right fun _ => and_congr_right fun _ => not_congr (and_iff_left other).symm
  · obtain ⟨held, -⟩ := mem_drop.mp held
    rw [(fields j).1]
    exact kept.held j held

end Kept

/-! ## The memory represents the wheel -/

section Shown

variable {m : Memory} {w : Wheel} {hand : List Nat}

theorem Shows.bit (shows : Shows m w) (l : Nat) {s : Nat} (inside : s < slots) :
    m.bit l s = (m.heads l s).isSome := by
  refine (shows.occ l s inside).trans ?_
  rw [shows.head]
  cases w.heads l s with
  | nil => rfl
  | cons i rest => rfl

theorem Shows.scan (shows : Shows m w) (l : Nat) {start : Nat} (inside : start < slots) :
    m.nextOccupied l start =
      ((Circular.rotated slots start).find? fun s => (m.heads l s).isSome).getD slots := by
  rw [Memory.nextOccupied_eq, Wheel.scanOrder_eq inside]
  congr 1
  refine List.find?_congr fun s mem => ?_
  obtain ⟨k, -, rfl⟩ := List.mem_map.mp mem
  exact shows.bit l (Nat.mod_lt _ (by decide))

theorem Shows.represented (shows : Shows m w) (kept : Kept w hand) : m.Represented hand where
  lists l _ s _ := by
    refine ⟨w.heads l s, shows.lists l s, kept.linked.nodup l s, fun i => ?_⟩
    rw [shows.entries, shows.size, kept.linked.mem]
    exact ⟨fun on => ⟨kept.known i l on.1, on⟩, fun on => on.2⟩
  occupied l _ s inside := by
    rw [shows.occ l s inside, decide_eq_true_iff, Ne, Ne, shows.head_none]
  placed i _ l level := by
    rw [shows.entries] at level ⊢
    obtain ⟨low, inside, -⟩ := kept.bound i l level
    exact ⟨low, inside⟩
  free := by
    refine ⟨w.free, shows.free, kept.nodup, fun i => ?_⟩
    rw [shows.entries, shows.size]
    exact kept.free i
  scan l _ start inside := shows.scan l inside

end Shown

end JLibSched.Timer
