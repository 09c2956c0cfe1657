import JLibSched.Timer.NextEvent
import JLibSched.Timer.Model

/-!
# Entries, free and armed

An entry is armed when it hangs on the wheel and free otherwise, and the entry of a periodic is
armed as long as its record names it.  Every operation on the wheel is described by the entries
it leaves: an insertion and a re-fire hang one entry where it belongs, a disarm takes one off,
and `AdvanceTo` hangs some again.
-/

namespace JLibSched.Timer

namespace Wheel

variable {w : Wheel} {i j d : Nat}

/-- The bookkeeping of the wheel. -/
structure Valid (w : Wheel) : Prop where
  linked : Linked w
  bound : ∀ i l, (w.entries i).level = some l → l < levels
  parity : ∀ i, (w.entries i).armed ↔ (w.entries i).level ≠ none
  plain : ∀ i, (w.entries i).level = none → (w.entries i).periodic = none
  blank : ∀ i, w.size ≤ i → w.entries i = .blank
  free : w.free.Nodup ∧ ∀ i ∈ w.free, i < w.size ∧ (w.entries i).level = none

theorem empty_valid : Valid empty :=
  ⟨empty_linked, fun _ _ none => (by cases none), fun _ => (by simp [empty, Entry.blank, Entry.armed]),
    fun _ _ => rfl, fun _ _ => rfl, List.nodup_nil, fun _ none => (by cases none)⟩

theorem bump_armed (e : Entry) : (bump e).armed ↔ ¬ e.armed := by
  unfold bump Entry.armed
  dsimp only
  omega

@[simp, grind =] theorem place_currentTick : (w.place i d).currentTick = w.currentTick := rfl

@[simp, grind =] theorem place_size : (w.place i d).size = w.size := rfl

@[simp, grind =] theorem place_free : (w.place i d).free = w.free := rfl

theorem place_entries : (w.place i d).entries j =
    if j = i then (w.entries i).hang (placeOf w.currentTick d) else w.entries j := link_entries

theorem unlink_rest : (w.unlink i).currentTick = w.currentTick ∧ (w.unlink i).size = w.size ∧
    (w.unlink i).free = w.free := by
  unfold unlink
  split <;> exact ⟨rfl, rfl, rfl⟩

/-- Fields that say nothing of where an entry hangs. -/
theorem modify_linked {f : Entry → Entry} (linked : Linked w)
    (same : (f (w.entries i)).level = (w.entries i).level ∧
      (f (w.entries i)).slot = (w.entries i).slot) : Linked (w.modify i f) := by
  refine ⟨fun j l s => ?_, linked.nodup⟩
  rw [modify_heads, linked.mem, modify_entries]
  split
  · rename_i here
    rw [here, same.1, same.2]
  · rfl

/-! ## `AdvanceTo` -/

theorem advanceTo_currentTick {target : Nat} (linked : Linked w) :
    (w.advanceTo target).currentTick = max w.currentTick target := by
  rcases Nat.lt_or_ge w.currentTick target with later | before
  · rw [(advanceTo_recast linked later).currentTick, Nat.max_eq_right (Nat.le_of_lt later)]
  · rw [Nat.max_eq_left before, advanceTo, if_pos before]

/-- `AdvanceTo` changes nothing of an entry but where it hangs. -/
theorem advanceTo_entries (target : Nat) (linked : Linked w) (i : Nat) :
    (w.advanceTo target).entries i = w.entries i ∨ (w.entries i).level ≠ none ∧
      ∃ place, place.1 < levels ∧ (w.advanceTo target).entries i = (w.entries i).hang place := by
  rcases Nat.lt_or_ge w.currentTick target with later | before
  · rcases (advanceTo_recast linked later).entries i with same | ⟨on, moved⟩
    · exact .inl same
    · exact .inr ⟨on, _, placeOf_bound _ _, moved⟩
  · rw [advanceTo, if_pos before]
    exact .inl rfl

theorem advanceTo_rest (target : Nat) (linked : Linked w) :
    Linked (w.advanceTo target) ∧ (w.advanceTo target).size = w.size ∧
      (w.advanceTo target).free = w.free := by
  rcases Nat.lt_or_ge w.currentTick target with later | before
  · have recast := advanceTo_recast linked later
    exact ⟨recast.linked, recast.rest.1, recast.rest.2.1⟩
  · rw [advanceTo, if_pos before]
    exact ⟨linked, rfl, rfl⟩

theorem advanceTo_valid (target : Nat) (valid : Valid w) : Valid (w.advanceTo target) := by
  obtain ⟨linked, size, free⟩ := advanceTo_rest target valid.linked
  have entries := advanceTo_entries target valid.linked
  have none (i : Nat) : ((w.advanceTo target).entries i).level = none ↔
      (w.entries i).level = none := by
    rcases entries i with same | ⟨on, place, -, moved⟩
    · rw [same]
    · rw [moved]
      exact ⟨fun off => (by cases off), fun off => absurd off on⟩
  refine ⟨linked, fun i l level => ?_, fun i => ?_, fun i off => ?_, fun i beyond => ?_, ?_⟩
  · rcases entries i with same | ⟨on, place, inside, moved⟩
    · exact valid.bound i l (same ▸ level)
    · rw [moved] at level
      cases level
      exact inside
  · rw [Ne, none, ← Ne, ← valid.parity i]
    rcases entries i with same | ⟨on, place, -, moved⟩
    · rw [same]
    · rw [moved]
      rfl
  · have before := valid.plain i ((none i).mp off)
    rcases entries i with same | ⟨on, place, -, moved⟩
    · rw [same]
      exact before
    · exact absurd ((none i).mp off) on
  · rw [size] at beyond
    have before := valid.blank i beyond
    rcases entries i with same | ⟨on, -⟩
    · rw [same]
      exact before
    · rw [before] at on
      exact absurd rfl on
  · rw [free, size]
    exact ⟨valid.free.1, fun i mem => ⟨(valid.free.2 i mem).1, (none i).mpr (valid.free.2 i mem).2⟩⟩

/-! ## `Disarm` -/

theorem disarm_entries : (w.disarm i).entries j = if j = i then
    { bump (w.entries i) with eject := ⟨none, none, none⟩, periodic := none, level := none }
    else w.entries j := by
  unfold disarm releaseEntry
  simp only [modify_entries, unlink_entries]
  split <;> rfl

theorem disarm_rest : (w.disarm i).currentTick = w.currentTick ∧ (w.disarm i).size = w.size ∧
    (w.disarm i).free = i :: w.free := by
  obtain ⟨tick, size, free⟩ := unlink_rest (w := w) (i := i)
  exact ⟨tick, size, congrArg (i :: ·) free⟩

theorem disarm_linked (linked : Linked w) : Linked (w.disarm i) := by
  have off := unlink_linked (i := i) linked
  refine ⟨fun j l s => ?_, off.nodup⟩
  have before := off.mem j l s
  rw [unlink_entries] at before
  rw [disarm_entries]
  refine before.trans ?_
  split <;> simp

theorem disarm_valid (valid : Valid w) (on : (w.entries i).level ≠ none) : Valid (w.disarm i) := by
  obtain ⟨-, size, free⟩ := disarm_rest (w := w) (i := i)
  have armed := (valid.parity i).mpr on
  have known : i < w.size := by
    by_contra beyond
    rw [valid.blank i (Nat.not_lt.mp beyond)] at on
    exact on rfl
  refine ⟨disarm_linked valid.linked, fun j l => ?_, fun j => ?_, fun j => ?_, fun j => ?_, ?_⟩
  · rw [disarm_entries]
    split
    · exact fun none => by cases none
    · exact valid.bound j l
  · rw [disarm_entries]
    split
    · exact ⟨fun still => absurd armed ((bump_armed _).mp still), fun some => absurd rfl some⟩
    · exact valid.parity j
  · rw [disarm_entries]
    split
    · exact fun _ => rfl
    · exact valid.plain j
  · rw [disarm_entries, size]
    intro beyond
    rw [if_neg (by omega)]
    exact valid.blank j beyond
  · rw [free, size]
    refine ⟨List.nodup_cons.mpr ⟨fun mem => on (valid.free.2 i mem).2, valid.free.1⟩, ?_⟩
    intro j mem
    rw [disarm_entries]
    rcases List.mem_cons.mp mem with rfl | later
    · rw [if_pos rfl]
      exact ⟨known, rfl⟩
    · refine ⟨(valid.free.2 j later).1, ?_⟩
      split
      · rfl
      · exact (valid.free.2 j later).2

/-! ## Firing again -/

theorem refire_entries : (w.refire i d).entries j = if j = i then
    Entry.hang { w.entries i with deadlineTick := d } (placeOf w.currentTick d)
    else w.entries j := by
  unfold refire
  rw [place_entries, modify_currentTick, unlink_rest.1, modify_entries, modify_entries,
    unlink_entries, unlink_entries]
  split <;> simp_all [Entry.hang]

theorem refire_periodic (j d : Nat) :
    ((w.refire i d).entries j).periodic = (w.entries j).periodic := by
  rw [refire_entries]
  split
  · rename_i same
    rw [same]
    rfl
  · rfl

theorem refire_generation (j d : Nat) :
    ((w.refire i d).entries j).generation = (w.entries j).generation := by
  rw [refire_entries]
  split
  · rename_i same
    rw [same]
    rfl
  · rfl

theorem refire_deadlineTick (i d : Nat) : ((w.refire i d).entries i).deadlineTick = d := by
  rw [refire_entries, if_pos rfl]
  rfl

theorem refire_on (d : Nat) (on : (w.entries j).level ≠ none) :
    ((w.refire i d).entries j).level ≠ none := by
  rw [refire_entries]
  split
  · exact Option.some_ne_none _
  · exact on

theorem refire_rest : (w.refire i d).currentTick = w.currentTick ∧ (w.refire i d).size = w.size ∧
    (w.refire i d).free = w.free := unlink_rest

theorem refire_valid (valid : Valid w) (on : (w.entries i).level ≠ none) :
    Valid (w.refire i d) := by
  obtain ⟨-, size, free⟩ := refire_rest (w := w) (i := i) (d := d)
  refine ⟨?_, fun j l => ?_, fun j => ?_, fun j => ?_, fun j => ?_, ?_⟩
  · refine link_linked (modify_linked (unlink_linked valid.linked) ⟨rfl, rfl⟩) ?_
    rw [modify_entries, if_pos rfl, unlink_entries, if_pos rfl]
  · rw [refire_entries]
    split
    · intro level
      cases level
      exact placeOf_bound _ _
    · exact valid.bound j l
  · rw [refire_entries]
    split
    · exact ⟨fun _ none => (by cases none), fun _ => (valid.parity i).mpr on⟩
    · exact valid.parity j
  · rw [refire_entries]
    split
    · exact fun none => by cases none
    · exact valid.plain j
  · rw [refire_entries, size]
    intro beyond
    have before := valid.blank j beyond
    rw [if_neg]
    · exact before
    · rintro rfl
      rw [before] at on
      exact on rfl
  · rw [free, size]
    refine ⟨valid.free.1, fun j mem => ⟨(valid.free.2 j mem).1, ?_⟩⟩
    have off := (valid.free.2 j mem).2
    rw [refire_entries, if_neg]
    · exact off
    · rintro rfl
      exact on off

/-! ## New entries -/

/-- `AcquireEntry` hands out an entry that is not linked, and changes no entry. -/
theorem acquireEntry_spec (valid : Valid w) :
    w.acquireEntry.1.entries = w.entries ∧ (w.entries w.acquireEntry.2).level = none ∧
      w.acquireEntry.2 < w.acquireEntry.1.size ∧ w.size ≤ w.acquireEntry.1.size ∧
      w.acquireEntry.1.currentTick = w.currentTick ∧ w.acquireEntry.1.heads = w.heads ∧
      (w.acquireEntry.2 :: w.acquireEntry.1.free).Nodup ∧
      ∀ j ∈ w.acquireEntry.1.free, j ∈ w.free := by
  unfold acquireEntry
  split
  · rename_i i rest free
    have nodup := valid.free.1
    have mem : i ∈ w.free := by rw [free]; exact List.mem_cons_self
    rw [free] at nodup ⊢
    exact ⟨rfl, (valid.free.2 i mem).2, (valid.free.2 i mem).1, Nat.le_refl _, rfl, rfl, nodup,
      fun j later => List.mem_cons_of_mem _ later⟩
  · rename_i free
    have blank := valid.blank w.size (Nat.le_refl _)
    refine ⟨?_, by rw [blank]; rfl, Nat.lt_succ_self _, Nat.le_succ _, rfl, rfl, ?_, ?_⟩
    · dsimp only
      rw [← blank, Function.update_eq_self]
    · dsimp only
      rw [free]
      exact List.nodup_singleton _
    · exact fun j mem => mem

section Insert

variable {fill : Entry → Entry}

theorem insert_entries (valid : Valid w) : (State.insert w d fill).1.entries j =
    if j = (State.insert w d fill).2 then
      Entry.hang { fill (bump (w.entries (State.insert w d fill).2)) with deadlineTick := d }
        (placeOf w.currentTick d)
    else w.entries j := by
  obtain ⟨entries, -, -, -, tick, -⟩ := acquireEntry_spec valid
  unfold State.insert
  dsimp only
  rw [place_entries, modify_currentTick, tick, modify_entries, modify_entries, entries,
    if_pos rfl]
  split <;> rfl

theorem insert_off (d : Nat) (fill : Entry → Entry) (valid : Valid w) :
    (w.entries (State.insert w d fill).2).level = none :=
  (acquireEntry_spec valid).2.1

theorem insert_currentTick (valid : Valid w) :
    (State.insert w d fill).1.currentTick = w.currentTick :=
  (acquireEntry_spec valid).2.2.2.2.1

theorem insert_valid (valid : Valid w) (fills : ∀ e, (fill e).generation = e.generation ∧
    (fill e).level = e.level ∧ (fill e).slot = e.slot) : Valid (State.insert w d fill).1 := by
  obtain ⟨entries, off, known, grows, tick, heads, nodup, kept⟩ := acquireEntry_spec valid
  have even : ¬ (w.entries w.acquireEntry.2).armed := by
    rw [valid.parity]
    exact not_not.mpr off
  have linked : Linked w.acquireEntry.1 := by
    refine ⟨fun j l s => ?_, fun l s => ?_⟩
    · rw [heads, entries]
      exact valid.linked.mem j l s
    · rw [heads]
      exact valid.linked.nodup l s
  refine ⟨?_, fun j l => ?_, fun j => ?_, fun j => ?_, fun j => ?_, ?_⟩
  · refine (fun linked' : Linked _ => ⟨linked'.mem, linked'.nodup⟩)
      (link_linked (modify_linked linked ?_) ?_)
    · exact (fills (bump _)).2
    · rw [modify_entries, if_pos rfl]
      refine (fills (bump _)).2.1.trans ?_
      rw [entries]
      exact off
  · rw [insert_entries valid]
    split
    · intro level
      cases level
      exact placeOf_bound _ _
    · exact valid.bound j l
  · rw [insert_entries valid]
    split
    · refine ⟨fun _ none => (by cases none), fun _ => ?_⟩
      have odd := (bump_armed _).mpr even
      unfold Entry.armed at odd ⊢
      exact (congrArg (· % 2) (fills _).1).trans odd
    · exact valid.parity j
  · rw [insert_entries valid]
    split
    · exact fun none => by cases none
    · exact valid.plain j
  · intro beyond
    have size : (State.insert w d fill).1.size = w.acquireEntry.1.size := rfl
    rw [size] at beyond
    rw [insert_entries valid, if_neg]
    · exact valid.blank j (Nat.le_trans grows beyond)
    · rintro rfl
      exact absurd known (Nat.not_lt.mpr beyond)
  · refine ⟨(List.nodup_cons.mp nodup).2, fun j mem => ?_⟩
    have free := valid.free.2 j (kept j mem)
    refine ⟨Nat.lt_of_lt_of_le free.1 grows, ?_⟩
    rw [insert_entries valid, if_neg]
    · exact free.2
    · rintro rfl
      exact (List.nodup_cons.mp nodup).1 mem

end Insert

end Wheel

end JLibSched.Timer
