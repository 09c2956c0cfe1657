import JLibSched.Lib.Circular
import Mathlib.Tactic

/-!
# A ring with counters that wrap

A producer writes entries at the tail of an array, and a consumer takes them from its head.  Head
and tail count on without end, as 32-bit numbers, and the place of an entry is its number under a
mask.  While there are not more entries than places, what lies between head and tail is a queue.
-/

namespace Ring

/-- The array, its length and the two counters. -/
structure Buffer (α : Type*) where
  entries : UInt32
  mask : UInt32
  head : UInt32
  tail : UInt32
  slot : UInt32 → α

variable {α : Type*} {b : Buffer α} {x : α} {i : UInt32}

namespace Buffer

/-- The place for the next entry, if there is room. -/
def next (b : Buffer α) : Option UInt32 :=
  if b.tail - b.head ≥ b.entries then none else some (b.tail &&& b.mask)

/-- An entry is written at the tail, which goes on by one. -/
def put (b : Buffer α) (x : α) : Buffer α :=
  { b with
    slot := Function.update b.slot (b.tail &&& b.mask) x
    tail := b.tail + 1 }

/-- The entry at the head. -/
def first (b : Buffer α) : Option α :=
  if b.head = b.tail then none else some (b.slot (b.head &&& b.mask))

/-- The head goes on by one. -/
def drop (b : Buffer α) : Buffer α := { b with head := b.head + 1 }

/-- The place of the entry that is `k` behind the head. -/
def place (b : Buffer α) (k : Nat) : UInt32 := (b.head + UInt32.ofNat k) &&& b.mask

/-- How many entries there are. -/
def count (b : Buffer α) : Nat := (b.tail - b.head).toNat

/-- The entries from head to tail. -/
def pending (b : Buffer α) : List α := (List.range b.count).map fun k => b.slot (b.place k)

/-- The length is a power of two, and there are not more entries than places. -/
structure Sound (b : Buffer α) : Prop where
  power : ∃ k, k < 32 ∧ b.entries.toNat = 2 ^ k
  mask : b.mask.toNat = b.entries.toNat - 1
  room : b.count ≤ b.entries.toNat

/-! ## Places -/

theorem Sound.place (sound : b.Sound) (k : Nat) :
    (b.place k).toNat = (b.head.toNat + k) % b.entries.toNat := by
  obtain ⟨e, small, power⟩ := sound.power
  have divides : 2 ^ e ∣ 2 ^ 32 := Nat.pow_dvd_pow 2 (Nat.le_of_lt small)
  unfold Buffer.place
  rw [UInt32.toNat_and, sound.mask, Circular.and_pred_eq_mod _ ⟨e, power⟩, power,
    UInt32.toNat_add, Nat.mod_mod_of_dvd _ divides, Nat.add_mod, UInt32.toNat_ofNat',
    Nat.mod_mod_of_dvd _ divides, ← Nat.add_mod]

theorem Sound.place_ne (sound : b.Sound) {j k : Nat} (small : j < b.entries.toNat)
    (small' : k < b.entries.toNat) (apart : j ≠ k) : b.place j ≠ b.place k := by
  intro same
  have places := congrArg UInt32.toNat same
  rw [sound.place, sound.place] at places
  have low (k : Nat) : b.head.toNat ≤ b.head.toNat + k := Nat.le_add_right _ _
  exact Circular.mod_ne_of_ne (low j) (Nat.add_lt_add_left small _) (low k)
    (Nat.add_lt_add_left small' _) (mt Nat.add_left_cancel apart) places

/-- The tail is as far behind the head as there are entries. -/
theorem tail_eq : b.tail = b.head + UInt32.ofNat b.count := by
  unfold count
  rw [UInt32.ofNat_toNat, UInt32.add_comm, UInt32.sub_add_cancel]

theorem tail_place : b.tail &&& b.mask = b.place b.count := by
  unfold place
  rw [← tail_eq]

theorem next_eq_some : b.next = some i ↔ b.count < b.entries.toNat ∧ i = b.place b.count := by
  have full : b.tail - b.head ≥ b.entries ↔ b.entries.toNat ≤ b.count := UInt32.le_iff_toNat_le
  unfold next
  rw [← tail_place]
  constructor
  · intro found
    split at found
    · cases found
    · rename_i room
      cases found
      exact ⟨Nat.not_le.mp (mt full.mpr room), rfl⟩
  · rintro ⟨room, rfl⟩
    rw [if_neg (mt full.mp (Nat.not_le.mpr room))]

/-- The place that is handed out holds none of the entries. -/
theorem Sound.next_fresh (sound : b.Sound) (found : b.next = some i) {k : Nat}
    (inside : k < b.count) : b.place k ≠ i := by
  obtain ⟨room, rfl⟩ := next_eq_some.mp found
  exact sound.place_ne (by omega) room (by omega)

/-! ## Put and drop -/

theorem place_put (k : Nat) : (b.put x).place k = b.place k := rfl

theorem count_put (room : b.count + 1 < 2 ^ 32) : (b.put x).count = b.count + 1 := by
  have headSmall := UInt32.toNat_lt b.head
  have tailSmall := UInt32.toNat_lt b.tail
  have before : b.count = (b.tail - b.head).toNat := rfl
  have after : (b.put x).count = (b.tail + 1 - b.head).toNat := rfl
  rw [UInt32.toNat_sub] at before after
  rw [UInt32.toNat_add, UInt32.toNat_one] at after
  omega

theorem Sound.count_put (sound : b.Sound) (found : b.next = some i) :
    (b.put x).count = b.count + 1 := by
  obtain ⟨room, -⟩ := next_eq_some.mp found
  obtain ⟨k, small, power⟩ := sound.power
  have bound : 2 ^ k ≤ 2 ^ 31 := Nat.pow_le_pow_right (by omega) (by omega)
  exact Buffer.count_put (by omega)

theorem Sound.put (sound : b.Sound) (found : b.next = some i) : (b.put x).Sound where
  power := sound.power
  mask := sound.mask
  room := by
    obtain ⟨room, -⟩ := next_eq_some.mp found
    rw [sound.count_put found]
    exact room

/-- The entry comes last. -/
theorem Sound.pending_put (sound : b.Sound) (found : b.next = some i) :
    (b.put x).pending = b.pending ++ [x] := by
  obtain ⟨room, -⟩ := next_eq_some.mp found
  unfold pending
  rw [sound.count_put found, List.range_succ, List.map_append, List.map_singleton]
  congr 1
  · refine List.map_congr_left fun k mem => ?_
    have inside := List.mem_range.mp mem
    have other : b.place k ≠ b.tail &&& b.mask := by
      rw [tail_place]
      exact sound.place_ne (by omega) room (by omega)
    rw [place_put]
    exact Function.update_of_ne other _ _
  · rw [place_put, ← tail_place]
    exact congrArg (fun y => [y]) (Function.update_self _ _ _)

theorem count_eq_zero : b.count = 0 ↔ b.head = b.tail := by
  unfold count
  have headSmall := UInt32.toNat_lt b.head
  have tailSmall := UInt32.toNat_lt b.tail
  rw [UInt32.toNat_sub, ← UInt32.toNat_inj]
  omega

theorem count_drop (some : b.count ≠ 0) : b.drop.count + 1 = b.count := by
  have headSmall := UInt32.toNat_lt b.head
  have tailSmall := UInt32.toNat_lt b.tail
  have before : b.count = (b.tail - b.head).toNat := rfl
  have after : b.drop.count = (b.tail - (b.head + 1)).toNat := rfl
  rw [UInt32.toNat_sub] at before after
  rw [UInt32.toNat_add, UInt32.toNat_one] at after
  omega

theorem place_drop (k : Nat) : b.drop.place k = b.place (k + 1) := by
  unfold place drop
  simp only
  rw [UInt32.ofNat_add, UInt32.add_assoc, UInt32.add_comm (UInt32.ofNat k)]
  rfl

theorem first_eq : b.first = b.pending.head? := by
  unfold first pending
  split
  · rename_i empty
    rw [count_eq_zero.mpr empty]
    rfl
  · rename_i some
    have counted := mt count_eq_zero.mp some
    obtain ⟨k, more⟩ := Nat.exists_eq_succ_of_ne_zero counted
    rw [more, List.range_succ_eq_map, List.map_cons, List.head?_cons]
    unfold place
    rw [show UInt32.ofNat 0 = 0 from rfl, UInt32.add_zero]

/-- The entry at the head goes away. -/
theorem pending_drop (some : b.count ≠ 0) : b.drop.pending = b.pending.tail := by
  unfold pending
  rw [← count_drop some, List.range_succ_eq_map, List.map_cons, List.tail_cons, List.map_map]
  refine List.map_congr_left fun k _ => ?_
  rw [place_drop]
  rfl

theorem Sound.drop (sound : b.Sound) (some : b.count ≠ 0) : b.drop.Sound where
  power := sound.power
  mask := sound.mask
  room := by
    have counted := count_drop some
    have room := sound.room
    have same : b.drop.entries = b.entries := rfl
    rw [same]
    omega

theorem length_pending : b.pending.length = b.count := by
  unfold pending
  rw [List.length_map, List.length_range]

end Buffer

end Ring
