import JLibSched.Timer.Represented

/-!
# Runs of the wheel in memory

In every run of single calls and in every run of sections the four records agree.  A section ends
with no entry in a hand: what it takes off it puts back or releases, since an entry with an odd
generation is linked, and so is the entry that a record names.
-/

namespace JLibSched.Timer

open Transition Links

/-! ## Single calls -/

/-- A wheel is shown whose entries are linked, free or in the hand. -/
def Held.Sound (h : Held) : Prop := ∃ w, Shows h.memory w ∧ Kept w h.hand

theorem Held.Sound.step {h k : Held} {call : Call} (sound : h.Sound)
    (stepped : h.step call = some k) : k.Sound := by
  obtain ⟨w, shows, kept⟩ := sound
  have out {i : Nat} (mem : i ∈ h.hand) (l s : Nat) : i ∉ w.heads l s := by
    rw [kept.linked.mem, (kept.held i mem).2]
    exact fun on => by cases on.1
  cases call with
  | acquireEntry =>
    cases stepped
    obtain ⟨acquired, same⟩ := shows.acquireEntry kept.linked kept.known
    refine ⟨w.acquireEntry.1, acquired, ?_⟩
    rw [same]
    exact kept.acquireEntry
  | write i deadlineTick eject periodic generation =>
    simp only [Held.step] at stepped
    split at stepped
    · cases stepped
      have written := shows.modify i fun e =>
        { e with deadlineTick, eject, periodic, generation }
      exact ⟨_, written, kept.modify i rfl rfl⟩
    · cases stepped
  | link i l s =>
    simp only [Held.step] at stepped
    split at stepped
    · rename_i allowed
      obtain ⟨mem, low, inside⟩ := allowed
      cases stepped
      exact ⟨_, shows.link kept.linked.apart (out mem), kept.link mem low inside⟩
    · cases stepped
  | place i deadlineTick =>
    simp only [Held.step] at stepped
    split at stepped
    · rename_i mem
      cases stepped
      exact ⟨_, shows.place kept.linked.apart (out mem) deadlineTick,
        kept.place mem deadlineTick⟩
    · cases stepped
  | unlink i =>
    simp only [Held.step] at stepped
    split at stepped
    · cases stepped
      rw [shows.entries]
      exact ⟨_, shows.unlink kept.linked, kept.unlink i⟩
    · cases stepped
  | releaseEntry i =>
    simp only [Held.step] at stepped
    split at stepped
    · rename_i mem
      cases stepped
      exact ⟨_, shows.releaseEntry fun free => ((kept.free i).mp free).2.2 mem,
        kept.releaseEntry mem⟩
    · cases stepped
  | cascade l s =>
    simp only [Held.step] at stepped
    split at stepped
    · cases stepped
      exact ⟨_, shows.cascade kept.linked kept.known,
        kept.recast (Wheel.cascade_recast kept.linked)⟩
    · cases stepped
  | advanceTo target =>
    cases stepped
    exact ⟨_, shows.advanceTo kept.linked kept.known target, kept.advanceTo target⟩
  | setTick tick =>
    cases stepped
    exact ⟨_, shows.setTick tick, kept.setTick tick⟩

theorem empty_shows : Shows .empty .empty where
  entries := rfl
  size := rfl
  currentTick := rfl
  armedCount := rfl
  free := rfl
  lists _ _ := ⟨rfl, rfl⟩
  occ _ _ _ := BitVec.getLsbD_zero

theorem Held.reach_sound {h : Held} (reach : Reach Held.step anyStep Held.initial h) : h.Sound :=
  reach.invariant (I := Held.Sound) ⟨.empty, empty_shows, .empty⟩ fun sound _ stepped =>
    sound.step stepped

/-! ## Sections -/

/-- A wheel is shown that is valid, whose entries are linked or free. -/
structure Memory.Sound (m : Memory) (w : Wheel) : Prop where
  shows : Shows m w
  valid : w.Valid
  kept : Kept w []

/-- A record that has an entry is the one that the entry has, and the entry is linked. -/
def Names (entry : Nat → Option Nat) (w : Wheel) : Prop :=
  ∀ r i, entry r = some i → (w.entries i).periodic = some r ∧ (w.entries i).level ≠ none

namespace Memory.Sound

variable {m : Memory} {w : Wheel} {i l s : Nat} {entry : Nat → Option Nat}

theorem empty : Memory.Sound .empty .empty := ⟨empty_shows, Wheel.empty_valid, .empty⟩

theorem setTick (sound : m.Sound w) (tick : Nat) :
    Memory.Sound { m with currentTick := tick } { w with currentTick := tick } where
  shows := sound.shows.setTick tick
  valid :=
    ⟨⟨sound.valid.linked.mem, sound.valid.linked.nodup⟩, sound.valid.bound, sound.valid.parity,
      sound.valid.plain, sound.valid.blank, sound.valid.free⟩
  kept := sound.kept.setTick tick

theorem advanceTo (sound : m.Sound w) (target : Nat) :
    (m.advanceTo target).Sound (w.advanceTo target) where
  shows := sound.shows.advanceTo sound.kept.linked sound.kept.known target
  valid := Wheel.advanceTo_valid target sound.valid
  kept := sound.kept.advanceTo target

/-- A hand with one entry, which is put down. -/
theorem drop_single (i : Nat) : [i].filter (· ≠ i) = [] := by simp

theorem insert (sound : m.Sound w) (d : Nat) (fill : Entry → Entry)
    (fills : ∀ e, (fill e).generation = e.generation ∧ (fill e).level = e.level ∧
      (fill e).slot = e.slot) :
    (m.insert d fill).1.Sound (State.insert w d fill).1 ∧
      (m.insert d fill).2 = (State.insert w d fill).2 := by
  obtain ⟨shows, same⟩ := sound.shows.insert sound.valid sound.kept.known d fill
  refine ⟨⟨shows, Wheel.insert_valid sound.valid fills, ?_⟩, same⟩
  have filled := sound.kept.acquireEntry.modify w.acquireEntry.2
    (f := fun e => { fill (Wheel.bump e) with deadlineTick := d }) (fills (Wheel.bump _)).2.1
    (fills (Wheel.bump _)).2.2
  have placed := filled.place List.mem_cons_self d
  rw [drop_single] at placed
  exact placed.setArmed _

theorem disarm (sound : m.Sound w) (on : (w.entries i).level ≠ none) :
    (m.disarm i).Sound (w.disarm i) := by
  refine ⟨sound.shows.disarm sound.valid on, Wheel.disarm_valid sound.valid on, ?_⟩
  have off := sound.kept.unlink i
  rw [if_neg on] at off
  have released := (off.modify i (f := Wheel.bump) rfl rfl).releaseEntry List.mem_cons_self
  rw [drop_single] at released
  exact released.setArmed _

theorem refire (sound : m.Sound w) (on : (w.entries i).level ≠ none) (d : Nat) :
    (m.refire i d).Sound (w.refire i d) := by
  refine ⟨sound.shows.refire sound.valid.linked d, Wheel.refire_valid sound.valid on, ?_⟩
  have off := sound.kept.unlink i
  rw [if_neg on] at off
  have placed := (off.modify i (f := fun e => { e with deadlineTick := d }) rfl rfl).place
    List.mem_cons_self d
  rw [drop_single] at placed
  exact placed

end Memory.Sound

/-! ## The loop of a fire -/

section Loop

variable {m : Memory} {w : Wheel} {i : Nat} {entry : Nat → Option Nat}

/-- The rest of the loop stands at the end of the slot. -/
def Remains (w : Wheel) (rest : List Nat) : Prop :=
  ∃ front, w.heads 0 (w.currentTick % slots) = front ++ rest

theorem Remains.next {rest : List Nat} (remains : Remains w (i :: rest)) : Remains w rest := by
  obtain ⟨front, split⟩ := remains
  refine ⟨front ++ [i], ?_⟩
  rw [split, List.append_assoc]
  rfl

theorem unlink_remains {rest : List Nat} (linked : w.Linked) (remains : Remains w (i :: rest)) :
    Remains (w.unlink i) rest := by
  obtain ⟨front, split⟩ := remains
  have mem : i ∈ w.heads 0 (w.currentTick % slots) :=
    split ▸ List.mem_append_right front List.mem_cons_self
  obtain ⟨level, slot⟩ := (linked.mem i 0 _).mp mem
  have nodup := linked.nodup 0 (w.currentTick % slots)
  rw [split] at nodup
  have fresh := (List.nodup_cons.mp (List.nodup_middle.mp nodup)).1
  refine ⟨front, ?_⟩
  rw [Wheel.unlink_rest.1]
  unfold Wheel.unlink
  simp only [level]
  rw [Wheel.setHead_heads, if_pos ⟨rfl, slot.symm⟩, slot, split,
    List.erase_append_right _ fun on => fresh (List.mem_append_left rest on), List.erase_cons_head]

theorem place_remains {rest : List Nat} (remains : Remains w rest) (i d : Nat) :
    Remains (w.place i d) rest := by
  obtain ⟨front, split⟩ := remains
  have heads (l s : Nat) : (w.place i d).heads l s =
      if l = (Wheel.placeOf w.currentTick d).1 ∧ s = (Wheel.placeOf w.currentTick d).2 then
        i :: w.heads (Wheel.placeOf w.currentTick d).1 (Wheel.placeOf w.currentTick d).2
      else w.heads l s := rfl
  unfold Remains
  rw [Wheel.place_currentTick, heads]
  split
  · rename_i here
    rw [← here.1, ← here.2, split]
    exact ⟨i :: front, rfl⟩
  · exact ⟨front, split⟩

theorem disarm_remains {rest : List Nat} (linked : w.Linked) (remains : Remains w (i :: rest)) :
    Remains (w.disarm i) rest := unlink_remains linked remains

theorem refire_remains {rest : List Nat} (linked : w.Linked) (remains : Remains w (i :: rest)) (d : Nat) :
    Remains (w.refire i d) rest :=
  place_remains (w := (w.unlink i).modify i fun e => { e with deadlineTick := d })
    (unlink_remains linked remains) i d

/-- The entry that the loop is at, and the one it goes to. -/
theorem Memory.Sound.visit {rest : List Nat} (sound : m.Sound w) (remains : Remains w (i :: rest)) :
    (w.entries i).level ≠ none ∧ m.next i = rest.head? := by
  obtain ⟨front, split⟩ := remains
  have mem : i ∈ w.heads 0 (w.currentTick % slots) :=
    split ▸ List.mem_append_right front List.mem_cons_self
  have holds := sound.shows.lists 0 (w.currentTick % slots)
  rw [split] at holds
  refine ⟨?_, holds.next⟩
  rw [((sound.valid.linked.mem i 0 _).mp mem).1]
  exact Option.some_ne_none 0

/-- A plain entry ends; no record names it. -/
theorem Names.disarm (names : Names entry w) (plain : (w.entries i).periodic = none) :
    Names entry (w.disarm i) := by
  intro r j named
  have other : j ≠ i := by
    rintro rfl
    have owner := (names r j named).1
    rw [plain] at owner
    cases owner
  rw [Wheel.disarm_entries, if_neg other]
  exact names r j named

theorem Names.refire (names : Names entry w) (i d : Nat) : Names entry (w.refire i d) := by
  intro r j named
  obtain ⟨owner, on⟩ := names r j named
  rw [Wheel.refire_periodic]
  exact ⟨owner, Wheel.refire_on d on⟩

/-- The loop keeps the wheel, and more rounds than there are entries left change nothing. -/
theorem Memory.Sound.collect {rest : List Nat} (sound : m.Sound w) (names : Names entry w)
    (remains : Remains w rest) (grid : Nat → Nat) (launches : Nat → Bool) {rounds collected : Nat}
    (enough : rest.length ≤ rounds) :
    (∃ w', (m.collect grid launches rounds rest.head? collected).1.Sound w' ∧ Names entry w') ∧
      ∀ more, m.collect grid launches (rounds + more) rest.head? collected =
        m.collect grid launches rounds rest.head? collected := by
  induction rest generalizing m w rounds collected with
  | nil =>
    have stays (k : Nat) : m.collect grid launches k none collected = (m, collected) := by
      cases k with
      | zero => rfl
      | succ k => rfl
    simp only [List.head?_nil, stays]
    exact ⟨⟨w, sound, names⟩, fun _ => trivial⟩
  | cons i rest ih =>
    cases rounds with
    | zero => cases enough
    | succ rounds =>
      have less := Nat.le_of_succ_le_succ enough
      obtain ⟨on, next⟩ := sound.visit remains
      have due : (m.entries i).deadlineTick ≤ m.currentTick ↔
          (w.entries i).deadlineTick ≤ w.currentTick := by
        rw [sound.shows.entries, sound.shows.currentTick]
      have periodic : (m.entries i).periodic = (w.entries i).periodic := by
        rw [sound.shows.entries]
      have shift (more : Nat) : rounds + 1 + more = (rounds + more) + 1 := by omega
      simp only [List.head?_cons, shift]
      unfold Memory.collect
      rw [next]
      split
      · exact ⟨⟨w, sound, names⟩, fun _ => rfl⟩
      · split
        · cases record : (w.entries i).periodic with
          | some r =>
            rw [record] at periodic
            simp only [periodic]
            exact ih (sound.refire on (grid r)) (names.refire i (grid r))
              (refire_remains sound.valid.linked remains (grid r)) less
          | none =>
            rw [record] at periodic
            simp only [periodic]
            exact ih (sound.disarm on) (names.disarm record)
              (disarm_remains sound.valid.linked remains) less
        · exact ih sound names remains.next less

end Loop

/-! ## Runs of sections -/

def Queue.Sound (q : Queue) : Prop := ∃ w, q.memory.Sound w ∧ Names q.entry w

section Step

variable {m : Memory} {w : Wheel} {i d : Nat} {entry : Nat → Option Nat}

/-- `AdvanceTo` changes neither what an entry is for nor whether it is linked. -/
theorem Names.advanceTo (names : Names entry w) (linked : w.Linked) (target : Nat) :
    Names entry (w.advanceTo target) := by
  intro r j named
  obtain ⟨owner, on⟩ := names r j named
  rcases Wheel.advanceTo_entries target linked j with same | ⟨-, place, -, moved⟩
  · rw [same]
    exact ⟨owner, on⟩
  · rw [moved]
    exact ⟨owner, Option.some_ne_none _⟩

/-- The new entry was not linked, so no record named it. -/
theorem Names.insert (names : Names entry w) (valid : w.Valid) (fill : Entry → Entry) :
    Names entry (State.insert w d fill).1 := by
  intro r j named
  have other : j ≠ (State.insert w d fill).2 := by
    rintro rfl
    exact (names r _ named).2 (Wheel.insert_off d fill valid)
  rw [Wheel.insert_entries valid, if_neg other]
  exact names r j named

theorem Memory.Sound.fireStep (sound : m.Sound w) (names : Names entry w) (next : Nat)
    (grid : Nat → Nat) (launches : Nat → Bool) :
    ∃ w', (m.fireStep next grid launches).Sound w' ∧ Names entry w' := by
  have ahead := sound.advanceTo next
  have named := names.advanceTo sound.valid.linked next
  have head := ahead.shows.head 0 ((w.advanceTo next).currentTick % slots)
  have enough : ((w.advanceTo next).heads 0 ((w.advanceTo next).currentTick % slots)).length ≤
      (m.advanceTo next).size := by
    rw [ahead.shows.size]
    exact Shows.length_le ahead.valid.linked ahead.kept.known 0 _
  obtain ⟨⟨w', collected, named'⟩, -⟩ := @Memory.Sound.collect _ _ _ _ ahead named ⟨[], rfl⟩ grid
    launches _ 0 enough
  unfold Memory.fireStep
  simp only
  rw [ahead.shows.currentTick, head]
  split
  · rw [collected.shows.currentTick]
    exact ⟨_, collected.setTick _, named'⟩
  · exact ⟨w', collected, named'⟩

theorem Queue.Sound.step {q t : Queue} {a : Section} (sound : q.Sound)
    (stepped : q.step a = some t) : t.Sound := by
  obtain ⟨w, sound, names⟩ := sound
  cases a with
  | arm nowTick deadlineTick eject =>
    cases stepped
    have ahead := sound.advanceTo nowTick
    have named := names.advanceTo sound.valid.linked nowTick
    have inserted := ahead.insert deadlineTick (fun e => { e with eject }) fun _ =>
      ⟨rfl, rfl, rfl⟩
    exact ⟨_, inserted.1, named.insert ahead.valid _⟩
  | disarm index generation =>
    simp only [Queue.step] at stepped
    split at stepped
    · cases stepped
      exact ⟨w, sound, names⟩
    · split at stepped
      · cases stepped
        exact ⟨w, sound, names⟩
      · rename_i matching
        split at stepped
        · cases stepped
        · rename_i plain
          cases stepped
          rw [sound.shows.entries] at matching plain
          rw [not_or, not_not] at matching
          have on : (w.entries index).level ≠ none := by
            rw [← sound.valid.parity index]
            unfold Entry.armed
            rw [matching.1]
            omega
          exact ⟨_, sound.disarm on, names.disarm (not_not.mp plain)⟩
  | start nowTick deadlineTick =>
    cases stepped
    have ahead := sound.advanceTo nowTick
    have named := names.advanceTo sound.valid.linked nowTick
    obtain ⟨inserted, same⟩ := ahead.insert deadlineTick
      (fun e => { e with periodic := some q.records }) fun _ => ⟨rfl, rfl, rfl⟩
    refine ⟨_, inserted, fun r j names => ?_⟩
    simp only at names
    rcases eq_or_ne r q.records with rfl | other
    · rw [Function.update_self, same] at names
      cases names
      rw [Wheel.insert_entries ahead.valid, if_pos rfl]
      exact ⟨rfl, Option.some_ne_none _⟩
    · rw [Function.update_of_ne other] at names
      exact named.insert ahead.valid _ r j names
  | cancelPeriodic r =>
    simp only [Queue.step] at stepped
    cases entry : q.entry r with
    | none =>
      simp only [entry] at stepped
      cases stepped
      exact ⟨w, sound, names⟩
    | some i =>
      simp only [entry] at stepped
      cases stepped
      obtain ⟨owner, on⟩ := names r i entry
      refine ⟨_, sound.disarm on, fun r' j named => ?_⟩
      simp only at named
      rcases eq_or_ne r' r with rfl | other
      · rw [Function.update_self] at named
        cases named
      · rw [Function.update_of_ne other] at named
        obtain ⟨owner', on'⟩ := names r' j named
        have apart : j ≠ i := by
          rintro rfl
          rw [owner] at owner'
          exact other (Option.some.inj owner').symm
        rw [Wheel.disarm_entries, if_neg apart]
        exact ⟨owner', on'⟩
  | fireStep next grid launches =>
    cases stepped
    exact sound.fireStep names next grid launches
  | idle nowTick =>
    cases stepped
    exact ⟨_, sound.setTick nowTick, names⟩

end Step

theorem Queue.reach_sound {q : Queue} (reach : Reach Queue.step anyStep Queue.initial q) :
    q.Sound :=
  reach.invariant (I := Queue.Sound)
    ⟨.empty, .empty, fun r i absurd => by cases absurd⟩ fun sound _ stepped => sound.step stepped

/-- The lists, the occupancy, the entries and the free list agree after any calls, but for the
entries in a hand, and after any sections for all. -/
theorem timer_represented :
    (∀ h, Reach Held.step anyStep Held.initial h → h.memory.Represented h.hand) ∧
      ∀ q, Reach Queue.step anyStep Queue.initial q → q.memory.Represented [] := by
  refine ⟨fun h reach => ?_, fun q reach => ?_⟩
  · obtain ⟨w, shows, kept⟩ := Held.reach_sound reach
    exact shows.represented kept
  · obtain ⟨w, sound, -⟩ := Queue.reach_sound reach
    exact sound.shows.represented sound.kept

/-- A long timer, and a short one due together with a periodic. -/
def dueSections : List Section :=
  [.arm 0 300 ⟨some 1, none, none⟩, .arm 0 5 ⟨some 2, none, none⟩, .start 0 5,
    .fireStep 5 (fun _ => 6) fun _ => true]

def due : Queue := (run Queue.step anyStep Queue.initial dueSections).getD Queue.initial

/-- The long timer is where it was, the periodic has moved on, and the short one's entry is
free. -/
theorem due_represented : due.memory.heads 1 1 = some 0 ∧ due.memory.heads 0 6 = some 2 ∧
    due.memory.heads 0 5 = none ∧ due.memory.freeHead = 2 ∧ due.memory.Represented [] := by
  have represented := timer_represented.2 due (Reach.of_isSome dueSections (by decide +kernel))
  exact ⟨by decide +kernel, by decide +kernel, by decide +kernel, by decide +kernel, represented⟩

end JLibSched.Timer
