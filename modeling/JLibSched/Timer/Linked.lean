import JLibSched.Timer.Wheel

/-!
# The lists of the wheel

An entry that has a level and a slot is on that list once, and on no other.  `Link`, `Unlink`
and `Cascade` keep this.  A cascade changes nothing but where the entries of its list hang:
afterwards each hangs where `Place` puts it now (`Recast`).
-/

namespace JLibSched.Timer

/-- The entry hung on a place. -/
def Entry.hang (e : Entry) (place : Nat × Nat) : Entry :=
  { e with level := some place.1, slot := place.2 }

@[simp] theorem Entry.hang_hang (e : Entry) (place place' : Nat × Nat) :
    (e.hang place).hang place' = e.hang place' := rfl

@[simp, grind =] theorem Entry.hang_deadlineTick (e : Entry) (place : Nat × Nat) :
    (e.hang place).deadlineTick = e.deadlineTick := rfl

namespace Wheel

variable {w w' w'' : Wheel} {i j l s : Nat}

/-! ## Fields -/

@[grind =] theorem modify_entries (f : Entry → Entry) :
    (w.modify i f).entries j = if j = i then f (w.entries i) else w.entries j := by
  simp [modify, Function.update_apply]

@[simp, grind =] theorem modify_heads (f : Entry → Entry) : (w.modify i f).heads = w.heads := rfl

@[simp, grind =] theorem modify_currentTick (f : Entry → Entry) :
    (w.modify i f).currentTick = w.currentTick := rfl

@[simp, grind =] theorem modify_size (f : Entry → Entry) : (w.modify i f).size = w.size := rfl

@[simp, grind =] theorem modify_free (f : Entry → Entry) : (w.modify i f).free = w.free := rfl

@[grind =] theorem setHead_heads (list : List Nat) (l' s' : Nat) :
    (w.setHead l s list).heads l' s' = if l' = l ∧ s' = s then list else w.heads l' s' := rfl

@[simp, grind =] theorem setHead_entries (list : List Nat) :
    (w.setHead l s list).entries = w.entries := rfl

@[simp, grind =] theorem setHead_currentTick (list : List Nat) :
    (w.setHead l s list).currentTick = w.currentTick := rfl

@[simp, grind =] theorem setHead_size (list : List Nat) : (w.setHead l s list).size = w.size := rfl

@[simp, grind =] theorem setHead_free (list : List Nat) : (w.setHead l s list).free = w.free := rfl

/-! ## Linked wheels -/

/-- The lists hold the entries that say they are there, once each. -/
structure Linked (w : Wheel) : Prop where
  mem : ∀ i l s, i ∈ w.heads l s ↔ (w.entries i).level = some l ∧ (w.entries i).slot = s
  nodup : ∀ l s, (w.heads l s).Nodup

theorem empty_linked : Linked empty :=
  ⟨fun _ _ _ => ⟨fun none => (by cases none), fun linked => (by cases linked.1)⟩,
    fun _ _ => List.nodup_nil⟩

theorem link_entries : (w.link i l s).entries j =
    if j = i then (w.entries i).hang (l, s) else w.entries j := by
  unfold link
  rw [setHead_entries, modify_entries]
  rfl

theorem link_linked (linked : Linked w) (off : (w.entries i).level = none) :
    Linked (w.link i l s) := by
  have absent (l' s' : Nat) : i ∉ w.heads l' s' := by
    rw [linked.mem, off]
    exact fun on => by cases on.1
  constructor
  · intro j l' s'
    have before := linked.mem j l' s'
    have none := absent l' s'
    rw [link_entries]
    unfold link
    rw [setHead_heads]
    rcases eq_or_ne j i with rfl | other
    · simp only [if_true, Entry.hang, Option.some.injEq]
      split <;> grind
    · simp only [if_neg other]
      split <;> grind
  · intro l' s'
    unfold link
    rw [setHead_heads]
    split
    · exact List.nodup_cons.mpr ⟨absent l s, linked.nodup l s⟩
    · exact linked.nodup l' s'

theorem unlink_entries : (w.unlink i).entries j =
    if j = i then { w.entries i with level := none } else w.entries j := by
  unfold unlink
  split
  · rename_i off
    split
    · rename_i same
      rw [same, ← off]
    · rfl
  · rw [setHead_entries, modify_entries]

theorem unlink_linked (linked : Linked w) : Linked (w.unlink i) := by
  constructor
  · intro j l' s'
    have before := linked.mem j l' s'
    rw [unlink_entries]
    unfold unlink
    split
    · grind
    · rename_i l on
      have once := linked.nodup l (w.entries i).slot
      rw [setHead_heads]
      split
      · rename_i here
        obtain ⟨rfl, rfl⟩ := here
        rw [once.mem_erase_iff]
        grind
      · grind
  · intro l' s'
    unfold unlink
    split
    · exact linked.nodup l' s'
    · rw [setHead_heads]
      split
      · exact (linked.nodup _ _).erase i
      · exact linked.nodup l' s'

/-! ## Cascades -/

theorem replaceAll_currentTick (list : List Nat) :
    (w.replaceAll list).currentTick = w.currentTick := by
  induction list generalizing w with
  | nil => rfl
  | cons i rest ih => exact ih

theorem replaceAll_size (list : List Nat) :
    (w.replaceAll list).size = w.size ∧ (w.replaceAll list).free = w.free ∧
      (w.replaceAll list).armedCount = w.armedCount := by
  induction list generalizing w with
  | nil => exact ⟨rfl, rfl, rfl⟩
  | cons i rest ih => exact ih

/-- One round of the loop. -/
theorem round_entries : ((w.modify i fun e => { e with level := none }).place i
      (w.entries i).deadlineTick).entries j =
    if j = i then (w.entries i).hang (placeOf w.currentTick (w.entries i).deadlineTick)
    else w.entries j := by
  unfold place
  rw [link_entries, modify_entries, modify_entries]
  split
  · simp [Entry.hang]
  · rfl

theorem replaceAll_entries (list : List Nat) : (w.replaceAll list).entries j =
    if j ∈ list then (w.entries j).hang (placeOf w.currentTick (w.entries j).deadlineTick)
    else w.entries j := by
  induction list generalizing w with
  | nil => rfl
  | cons i rest ih =>
    rw [replaceAll, ih, round_entries]
    rcases eq_or_ne j i with rfl | other
    · simp only [if_true, Entry.hang_hang, Entry.hang_deadlineTick, List.mem_cons_self]
      split <;> rfl
    · simp only [List.mem_cons, other, false_or]
      rfl

/-- The lists after one round of the loop. -/
theorem round_heads (l s : Nat) : ((w.modify i fun e => { e with level := none }).place i
      (w.entries i).deadlineTick).heads l s =
    if placeOf w.currentTick (w.entries i).deadlineTick = (l, s) then i :: w.heads l s
    else w.heads l s := by
  unfold place link
  rw [setHead_heads]
  simp only [modify_currentTick, modify_heads]
  by_cases here : placeOf w.currentTick (w.entries i).deadlineTick = (l, s)
  · simp [here]
  · rw [if_neg here]
    exact if_neg fun same => here (Prod.ext same.1.symm same.2.symm)

theorem round_currentTick : ((w.modify i fun e => { e with level := none }).place i
    (w.entries i).deadlineTick).currentTick = w.currentTick := rfl

theorem replaceAll_mem (list : List Nat) : j ∈ (w.replaceAll list).heads l s ↔
    j ∈ w.heads l s ∨ j ∈ list ∧ placeOf w.currentTick (w.entries j).deadlineTick = (l, s) := by
  induction list generalizing w with
  | nil => simp [replaceAll]
  | cons i rest ih =>
    rw [replaceAll, ih, round_entries, round_heads, round_currentTick]
    rcases eq_or_ne j i with rfl | other
    · simp only [if_true, Entry.hang_deadlineTick, List.mem_cons_self, true_and]
      split <;> grind
    · simp only [if_neg other, List.mem_cons]
      split <;> grind

theorem replaceAll_nodup {list : List Nat} (once : list.Nodup)
    (off : ∀ i ∈ list, ∀ l s, i ∉ w.heads l s) (nodup : ∀ l s, (w.heads l s).Nodup) :
    ∀ l s, ((w.replaceAll list).heads l s).Nodup := by
  induction list generalizing w with
  | nil => exact nodup
  | cons i rest ih =>
    obtain ⟨fresh, once⟩ := List.nodup_cons.mp once
    refine ih once (fun k mem l s => ?_) fun l s => ?_
    · have absent := off k (List.mem_cons_of_mem _ mem) l s
      rw [round_heads]
      split
      · rw [List.mem_cons, not_or]
        exact ⟨fun same => fresh (same ▸ mem), absent⟩
      · exact absent
    · rw [round_heads]
      split
      · exact List.nodup_cons.mpr ⟨off i List.mem_cons_self l s, nodup l s⟩
      · exact nodup l s

/-- What re-placing does: an entry stays as it is or hangs where it belongs at the current tick,
and those on the places `done` do the latter. -/
structure Recast (done : Nat → Nat → Prop) (w w' : Wheel) : Prop where
  linked : Linked w'
  currentTick : w'.currentTick = w.currentTick
  rest : w'.size = w.size ∧ w'.free = w.free ∧ w'.armedCount = w.armedCount
  entries : ∀ i, w'.entries i = w.entries i ∨ (w.entries i).level ≠ none ∧ w'.entries i =
    (w.entries i).hang (placeOf w.currentTick (w.entries i).deadlineTick)
  placed : ∀ i l, (w.entries i).level = some l → done l (w.entries i).slot →
    w'.entries i = (w.entries i).hang (placeOf w.currentTick (w.entries i).deadlineTick)

theorem Recast.refl (linked : Linked w) : Recast (fun _ _ => False) w w :=
  ⟨linked, rfl, ⟨rfl, rfl, rfl⟩, fun _ => .inl rfl, fun _ _ _ none => none.elim⟩

/-- An entry that was placed again stays there when it is placed once more. -/
theorem Recast.trans {done done' : Nat → Nat → Prop} (one : Recast done w w')
    (two : Recast done' w' w'') : Recast (fun l s => done l s ∨ done' l s) w w'' := by
  obtain ⟨-, tick, ⟨size, free, armed⟩, entries, placed⟩ := one
  obtain ⟨linked, tick', ⟨size', free', armed'⟩, entries', placed'⟩ := two
  have again {i : Nat} (moved : w'.entries i = (w.entries i).hang
      (placeOf w.currentTick (w.entries i).deadlineTick)) : w''.entries i = w'.entries i := by
    rcases entries' i with same | ⟨-, moved'⟩
    · exact same
    · rw [moved', moved, tick, Entry.hang_hang, Entry.hang_deadlineTick]
  refine ⟨linked, tick'.trans tick, ⟨size'.trans size, free'.trans free, armed'.trans armed⟩,
    fun i => ?_, fun i l level place => ?_⟩
  · rcases entries i with same | ⟨on, moved⟩
    · have second := entries' i
      rwa [same, tick] at second
    · exact .inr ⟨on, (again moved).trans moved⟩
  · rcases entries i with same | ⟨-, moved⟩
    · rcases place with first | second
      · have moved := placed i l level first
        exact (again moved).trans moved
      · have moved := placed' i l (by rw [same]; exact level) (by rw [same]; exact second)
        rwa [same, tick] at moved
    · exact (again moved).trans moved

theorem Recast.weaken {done done' : Nat → Nat → Prop} (recast : Recast done w w')
    (weaker : ∀ l s, done' l s → done l s) : Recast done' w w' :=
  ⟨recast.linked, recast.currentTick, recast.rest, recast.entries,
    fun i l level place => recast.placed i l level (weaker l _ place)⟩

theorem cascade_recast (linked : Linked w) :
    Recast (fun l' s' => l' = l ∧ s' = s) w (w.cascade l s) := by
  have entries (j : Nat) : (w.cascade l s).entries j = if j ∈ w.heads l s then
      (w.entries j).hang (placeOf w.currentTick (w.entries j).deadlineTick) else w.entries j :=
    replaceAll_entries (w := w.setHead l s []) (w.heads l s)
  have off : ∀ i ∈ w.heads l s, ∀ l' s', i ∉ (w.setHead l s []).heads l' s' := by
    intro i on l' s'
    rw [setHead_heads]
    split
    · exact List.not_mem_nil
    · rename_i elsewhere
      intro mem
      obtain ⟨level, slot⟩ := (linked.mem i l s).mp on
      obtain ⟨level', slot'⟩ := (linked.mem i l' s').mp mem
      rw [level] at level'
      exact elsewhere ⟨(Option.some.inj level').symm, slot'.symm.trans slot⟩
  refine ⟨⟨fun i l' s' => ?_, ?_⟩, replaceAll_currentTick _, replaceAll_size _, fun i => ?_,
    fun i l' level place => ?_⟩
  · have here := linked.mem i l s
    have there := linked.mem i l' s'
    rw [entries]
    unfold cascade
    rw [replaceAll_mem, setHead_heads, setHead_currentTick, setHead_entries]
    generalize placeOf w.currentTick (w.entries i).deadlineTick = place at *
    obtain ⟨l₀, s₀⟩ := place
    by_cases on : i ∈ w.heads l s
    · have absent := off i on l' s'
      rw [setHead_heads] at absent
      simp only [on, if_true, true_and, Entry.hang, Option.some.injEq, Prod.mk.injEq]
      exact ⟨fun either => either.elim (fun mem => absurd mem absent) id, .inr⟩
    · simp only [on, if_false, false_and, or_false]
      split
      · rename_i same
        obtain ⟨rfl, rfl⟩ := same
        exact ⟨fun none => (by cases none), fun level => absurd (here.mpr level) on⟩
      · exact there
  · refine replaceAll_nodup (linked.nodup l s) off fun l' s' => ?_
    rw [setHead_heads]
    split
    · exact List.nodup_nil
    · exact linked.nodup l' s'
  · rw [entries]
    split
    · rename_i on
      refine .inr ⟨?_, rfl⟩
      rw [((linked.mem i l s).mp on).1]
      exact Option.some_ne_none l
    · exact .inl rfl
  · obtain ⟨rfl, slot⟩ := place
    rw [entries, if_pos ((linked.mem i l' s).mpr ⟨level, slot⟩)]

end Wheel

end JLibSched.Timer
