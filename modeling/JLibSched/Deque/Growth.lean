import JLibSched.Deque.Words
import JLibSched.Lib.Circular
import Mathlib.Tactic

/-!
# Indices and growth of the deque

`bottom_` is the low word of an index that grows without bound, the limit below which thieves may
take, and `top_` does not wrap: it is raised only while it is below a `bottom_` that was read.
From a capacity other than 0 every ring has a power of two of slots, less than `2 ^ 61`, and the
limit is at most one revolution above `top_`.  So indices are masked into the ring, live ones to
different slots.
-/

namespace JLibSched.Deque.Words

open Transition

/-! ## Rings -/

/-- A ring as `MakeRing` makes it from a power of two. -/
structure Ring.Fits (r : Ring) : Prop where
  power : ∃ k, r.capacity.toNat = 2 ^ k
  small : Addressable r.capacity.toNat
  mask : r.mask = r.capacity - 1

theorem Ring.Fits.pos {r : Ring} (fits : r.Fits) : 0 < r.capacity.toNat := by
  obtain ⟨k, power⟩ := fits.power
  rw [power]
  exact Nat.two_pow_pos k

theorem Ring.Fits.lt {r : Ring} (fits : r.Fits) : r.capacity.toNat < 2 ^ 61 := by
  have small := fits.small
  unfold Addressable at small
  omega

/-- Masking takes the remainder. -/
theorem Ring.Fits.place_eq {r : Ring} (fits : r.Fits) (i : Word) :
    (r.place i).toNat = i.toNat % r.capacity.toNat := by
  have pos := fits.pos
  have pred : (r.capacity - 1).toNat = r.capacity.toNat - 1 := by
    have bound := r.capacity.isLt
    have one : (1 : Word).toNat = 1 := rfl
    rw [BitVec.toNat_sub, one]
    omega
  rw [Ring.place, fits.mask, BitVec.toNat_and, pred]
  exact Circular.and_pred_eq_mod _ fits.power

theorem Ring.Fits.place_lt {r : Ring} (fits : r.Fits) (i : Word) :
    (r.place i).toNat < r.capacity.toNat := by
  rw [fits.place_eq]
  exact Nat.mod_lt _ fits.pos

theorem Ring.Fits.store {r : Ring} (fits : r.Fits) (i : Word) (v : BitVec 64) :
    (r.store i v).Fits :=
  ⟨fits.power, fits.small, fits.mask⟩

/-- The remainder of the low word is the remainder. -/
theorem Ring.Fits.mod_low {r : Ring} (fits : r.Fits) (n : Nat) :
    n % 2 ^ 64 % r.capacity.toNat = n % r.capacity.toNat := by
  obtain ⟨k, power⟩ := fits.power
  have lt := fits.lt
  rw [power] at lt ⊢
  have below : k < 61 := (Nat.pow_lt_pow_iff_right (by decide)).mp lt
  exact Nat.mod_mod_of_dvd n (Nat.pow_dvd_pow 2 (by omega))

/-- A grow makes a ring of twice the slots. -/
theorem makeRing_double {r new : Ring} {allocates : Bool} (fits : r.Fits)
    (made : makeRing allocates (r.capacity * 2) = some new) :
    new.Fits ∧ new.capacity.toNat = 2 * r.capacity.toNat := by
  unfold makeRing at made
  split at made
  · rename_i granted
    cases made
    have lt := fits.lt
    have twice : (r.capacity * 2).toNat = 2 * r.capacity.toNat := by
      have two : (2 : Word).toNat = 2 := rfl
      rw [BitVec.toNat_mul, two]
      omega
    obtain ⟨k, power⟩ := fits.power
    refine ⟨⟨⟨k + 1, ?_⟩, granted.2, rfl⟩, twice⟩
    rw [twice, power, Nat.pow_succ, Nat.mul_comm]
  · cases made

/-! ## Differences -/

/-- The difference of two low words, less than a word apart. -/
theorem toNat_sub_lows {w t : Word} {n m : Nat} (low : w.toNat = n % 2 ^ 64)
    (low' : t.toNat = m % 2 ^ 64) (above : m ≤ n) (near : n < m + 2 ^ 64) :
    (w - t).toNat = n - m := by
  rw [BitVec.toNat_sub, low, low']
  omega

/-- A word is its own low word. -/
theorem toNat_low (w : Word) : w.toNat = w.toNat % 2 ^ 64 := (Nat.mod_eq_of_lt w.isLt).symm

theorem toNat_sub_low {w t : Word} {n : Nat} (low : w.toNat = n % 2 ^ 64) (above : t.toNat ≤ n)
    (near : n < t.toNat + 2 ^ 64) : (w - t).toNat = n - t.toNat :=
  toNat_sub_lows low (toNat_low t) above near

theorem Push.fits (op : Push) : Addressable op.items.length := by
  cases op with
  | one item =>
    unfold Addressable Push.items
    rw [List.length_singleton]
    decide
  | batch items fits => exact fits

/-- The low word of an index that is raised. -/
theorem toNat_add_low {w : Word} {n : Nat} (k : Nat) (low : w.toNat = n % 2 ^ 64) :
    (w + BitVec.ofNat 64 k).toNat = (n + k) % 2 ^ 64 := by
  rw [BitVec.toNat_add, low, BitVec.toNat_ofNat]
  omega

/-- A push that does not grow has room for what it pushes. -/
theorem Push.room_of_not_full {op : Push} {b t capacity : Word} {limit : Nat}
    (low : b.toNat = limit % 2 ^ 64) (above : t.toNat ≤ limit)
    (room : limit ≤ t.toNat + capacity.toNat) (small : capacity.toNat < 2 ^ 61)
    (not : ¬ op.Full b t capacity) : limit + op.items.length ≤ t.toNat + capacity.toNat := by
  have fits := op.fits
  unfold Addressable at fits
  cases op with
  | one item =>
    have diff := toNat_sub_low low above (by omega)
    have less : b - t < capacity := BitVec.not_le.mp not
    rw [BitVec.lt_def, diff] at less
    simp only [Push.items, List.length_singleton]
    omega
  | batch items addressable =>
    have raised : (b + (Push.batch items addressable).count).toNat =
        (limit + items.length) % 2 ^ 64 :=
      toNat_add_low _ low
    simp only [Push.items] at fits ⊢
    have diff := toNat_sub_low (t := t) raised (by omega) (by omega)
    have less : b + (Push.batch items addressable).count - t ≤ capacity := BitVec.not_lt.mp not
    rw [BitVec.le_def, diff] at less
    omega

/-! ## Invariant -/

/-- What a push keeps while it works from the `bottom_` and `top_` it read. -/
structure Pushing (bottom top capacity : Word) (limit : Nat) (b t : Word) : Prop where
  bottom : b = bottom
  low : b.toNat = limit % 2 ^ 64
  top : t.toNat ≤ top.toNat
  room : limit ≤ t.toNat + capacity.toNat

def State.Pushing (s : State) (limit : Nat) (b t : Word) : Prop :=
  Words.Pushing s.bottom s.top s.cur.capacity limit b t

/-- The push has room for what it pushes. -/
def State.HasRoom (s : State) (limit : Nat) (op : Push) (t : Word) : Prop :=
  limit + op.items.length ≤ t.toNat + s.cur.capacity.toNat

/-- The ring under construction. -/
def State.Growing (s : State) (new : Nat) : Prop :=
  new < s.made ∧ (s.rings new).capacity.toNat = 2 * s.cur.capacity.toNat

/-- The copy has come to index `i`, which lies below the limit. -/
def Copying (limit : Nat) (t i : Word) : Prop :=
  ∃ j, i.toNat = j % 2 ^ 64 ∧ t.toNat ≤ j ∧ j < limit

/-- A pop has lowered `bottom_`, and thieves may still take what stands there. -/
def State.Lowered (s : State) (limit : Nat) (b : Word) : Prop :=
  s.bottom = b ∧ limit = b.toNat + 1 ∧ limit < 2 ^ 64

/-- What the owner's place says. -/
def OwnerInv (s : State) (limit : Nat) : OwnerPc → Prop
  | .idle | .popReturn _ | .fatal => s.bottom.toNat = limit % 2 ^ 64
  | .pushTop _ b | .popTop b => b = s.bottom ∧ b.toNat = limit % 2 ^ 64
  | .pushRing _ b t => s.Pushing limit b t
  | .growCopy _ b t new i => s.Pushing limit b t ∧ s.Growing new ∧ Copying limit t i
  | .growPublish _ b t new => s.Pushing limit b t ∧ s.Growing new
  | .pushReload op b t => s.Pushing limit b t ∧ s.HasRoom limit op t
  | .pushSlot op b t r _ => s.Pushing limit b t ∧ s.HasRoom limit op t ∧ r < s.made
  | .pushBottom op b => b = s.bottom ∧ b.toNat = limit % 2 ^ 64 ∧ s.HasRoom limit op s.top
  | .popStore b => s.bottom.toNat = limit ∧ limit = b.toNat + 1
  | .popReload b => s.Lowered limit b
  | .popRing b => s.bottom = b ∧ b.toNat = limit
  | .popSlot b r => s.bottom = b ∧ b.toNat = limit ∧ r < s.made
  | .lastRing b => s.Lowered limit b ∧ b.toNat ≤ s.top.toNat
  | .lastSlot b r => s.Lowered limit b ∧ b.toNat ≤ s.top.toNat ∧ r < s.made
  | .lastCas b _ => s.Lowered limit b ∧ b.toNat ≤ s.top.toNat
  | .lastRestore b _ => s.Lowered limit b ∧ s.top.toNat = limit
  | .popRestore t => t.toNat = limit ∧ s.top = t

/-- What a thief has read: `top_` at some earlier moment, and later that `bottom_` was above it. -/
def Saw (s : State) (limit : Nat) (t : Word) : Prop :=
  t.toNat ≤ s.top.toNat ∧ t.toNat + 1 < 2 ^ 64 ∧ (t = s.top → s.top.toNat < limit)

def ThiefInv (s : State) (limit : Nat) : ThiefPc → Prop
  | .idle => True
  | .bottom _ t => t.toNat ≤ s.top.toNat
  | .ring _ t | .cas _ t _ => Saw s limit t
  | .slot _ t r => Saw s limit t ∧ r < s.made

structure Inv (s : State) (limit : Nat) : Prop where
  rings : ∀ r < s.made, (s.rings r).Fits
  ring : s.ring < s.made
  top : s.top.toNat ≤ limit
  room : limit ≤ s.top.toNat + s.cur.capacity.toNat
  bottom : s.bottom.toNat ≤ limit
  owner : OwnerInv s limit s.owner
  thief : ∀ i, ThiefInv s limit (s.thief i)

variable {s u : State} {limit : Nat}

theorem Inv.cur (inv : Inv s limit) : s.cur.Fits := inv.rings s.ring inv.ring

/-- The constructor's test lets powers of two through, and 0. -/
theorem power_of_test {capacity : Word} (test : capacity &&& (capacity - 1) = 0)
    (nonempty : capacity ≠ 0) : ∃ k, capacity.toNat = 2 ^ k := by
  have positive : capacity.toNat ≠ 0 := fun none => nonempty (BitVec.eq_of_toNat_eq none)
  have bound := capacity.isLt
  have one : (1 : Word).toNat = 1 := rfl
  have pred : (capacity - 1).toNat = capacity.toNat - 1 := by
    rw [BitVec.toNat_sub, one]
    omega
  have bits : capacity.toNat &&& (capacity.toNat - 1) = 0 := by
    rw [← pred, ← BitVec.toNat_and, test]
    rfl
  exact (Nat.and_sub_one_eq_zero_iff_isPowerOfTwo positive).mp bits

theorem construct_inv {capacity maxCapacity : Word} {allocates pushOnly : Bool}
    (nonempty : capacity ≠ 0)
    (made : construct capacity maxCapacity allocates pushOnly = some s) : Inv s 0 := by
  unfold construct at made
  split at made
  · cases made
  · rename_i test
    obtain ⟨ring, granted, rfl⟩ := Option.map_eq_some_iff.mp made
    unfold makeRing at granted
    split at granted
    · rename_i allowed
      cases granted
      have fits : Ring.Fits { mask := capacity - 1, capacity, slots := fun _ => 0 } :=
        ⟨power_of_test (not_not.mp test) nonempty, allowed.2, rfl⟩
      exact ⟨fun _ _ => fits, Nat.one_pos, Nat.le_refl 0, Nat.zero_le _, Nat.le_refl 0, rfl,
        fun _ => trivial⟩
    · cases granted

/-! ## The live elements fit on the ring -/

/-- The end of the live elements, unwrapped. -/
theorem Inv.reach (inv : Inv s limit) :
    ∃ n, (s.owner.reach s.bottom).toNat = n % 2 ^ 64 ∧ s.top.toNat ≤ n ∧
      n ≤ s.top.toNat + s.cur.capacity.toNat := by
  have owner := inv.owner
  have top := inv.top
  have room := inv.room
  cases here : s.owner with
  | idle | popReturn | fatal =>
    rw [here] at owner
    exact ⟨limit, owner, top, room⟩
  | pushTop op b | popTop b =>
    rw [here] at owner
    obtain ⟨rfl, low⟩ := owner
    exact ⟨limit, low, top, room⟩
  | pushRing op b t =>
    rw [here] at owner
    exact ⟨limit, owner.bottom ▸ owner.low, top, room⟩
  | growCopy op b t new i | growPublish op b t new | pushReload op b t =>
    rw [here] at owner
    exact ⟨limit, owner.1.bottom ▸ owner.1.low, top, room⟩
  | pushSlot op b t r k =>
    rw [here] at owner
    obtain ⟨pushing, space, -⟩ := owner
    have earlier := pushing.top
    exact ⟨limit + op.items.length, toNat_add_low _ pushing.low, Nat.le_add_right_of_le top,
      Nat.le_trans space (Nat.add_le_add_right earlier _)⟩
  | pushBottom op b =>
    rw [here] at owner
    obtain ⟨-, low, space⟩ := owner
    exact ⟨limit + op.items.length, toNat_add_low _ low, Nat.le_add_right_of_le top, space⟩
  | popStore b =>
    rw [here] at owner
    exact ⟨limit, owner.1 ▸ toNat_low s.bottom, top, room⟩
  | popReload b =>
    rw [here] at owner
    exact ⟨limit, owner.2.1 ▸ toNat_add_low 1 (toNat_low b), top, room⟩
  | lastRing b | lastSlot b r | lastCas b v | lastRestore b result =>
    rw [here] at owner
    exact ⟨limit, owner.1.2.1 ▸ toNat_add_low 1 (toNat_low b), top, room⟩
  | popRing b =>
    rw [here] at owner
    obtain ⟨rfl, level⟩ := owner
    exact ⟨limit, level ▸ toNat_low s.bottom, top, room⟩
  | popSlot b r =>
    rw [here] at owner
    obtain ⟨rfl, level, -⟩ := owner
    exact ⟨limit, level ▸ toNat_low s.bottom, top, room⟩
  | popRestore t =>
    rw [here] at owner
    exact ⟨limit, owner.1 ▸ toNat_low t, top, room⟩

theorem Inv.unshared (inv : Inv s limit) : Unshared s := by
  obtain ⟨n, low, above, near⟩ := inv.reach
  have fits := inv.cur
  have lt := fits.lt
  have bound := s.top.isLt
  have span := toNat_sub_low low above (by omega)
  intro i j live live' same
  unfold State.Live at live live'
  rw [BitVec.lt_def, span] at live live'
  -- an index is the low word of its distance from `top_`
  have unwrapped (w : Word) : w.toNat = (s.top.toNat + (w - s.top).toNat) % 2 ^ 64 := by
    have word := w.isLt
    rw [BitVec.toNat_sub]
    omega
  have place (w : Word) : (s.cur.place w).toNat =
      (s.top.toNat + (w - s.top).toNat) % s.cur.capacity.toNat := by
    rw [fits.place_eq, unwrapped w, fits.mod_low]
  have level : (s.top.toNat + (i - s.top).toNat) % s.cur.capacity.toNat =
      (s.top.toNat + (j - s.top).toNat) % s.cur.capacity.toNat := by
    rw [← place i, ← place j, same]
  have distance : s.top.toNat + (i - s.top).toNat = s.top.toNat + (j - s.top).toNat := by
    by_contra other
    exact Circular.mod_ne_of_ne (Nat.le_add_right _ _) (by omega) (Nat.le_add_right _ _) (by omega)
      other level
  refine BitVec.eq_of_toNat_eq ?_
  rw [unwrapped i, unwrapped j, distance]

theorem Inv.inBounds (inv : Inv s limit) : InBounds s := by
  have on {r : Nat} (made : r < s.made) (i : Word) : s.OnRing (r, i) :=
    (inv.rings r made).place_lt i
  constructor
  · have owner := inv.owner
    unfold State.ownerUses
    cases here : s.owner with
    | growCopy op b t new i =>
      rw [here] at owner
      intro use mem
      rcases List.mem_cons.mp mem with rfl | mem
      · exact on inv.ring i
      · rw [List.mem_singleton.mp mem]
        exact on owner.2.1.1 i
    | pushSlot op b t r k | popSlot b r | lastSlot b r =>
      rw [here] at owner
      intro use mem
      rw [List.mem_singleton.mp mem]
      exact on owner.2.2 _
    | _ => exact fun use absurd => (List.not_mem_nil absurd).elim
  · intro i
    have thief := inv.thief i
    unfold State.thiefUses
    cases here : s.thief i with
    | slot vet t r =>
      rw [here] at thief
      intro use mem
      rw [List.mem_singleton.mp mem]
      exact on thief.2 _
    | _ => exact fun use absurd => (List.not_mem_nil absurd).elim

/-! ## Thieves -/

/-- What a thief has read stays right while `top_` only grows, and there stays something to take
as long as it does not. -/
theorem ThiefInv.transfer {limit' : Nat} {pc : ThiefPc} (thief : ThiefInv s limit pc)
    (top : s.top.toNat ≤ u.top.toNat) (made : s.made ≤ u.made)
    (work : u.top = s.top → s.top.toNat < limit → s.top.toNat < limit') :
    ThiefInv u limit' pc := by
  have saw {t : Word} (before : Saw s limit t) : Saw u limit' t := by
    obtain ⟨low, small, more⟩ := before
    refine ⟨Nat.le_trans low top, small, fun now => ?_⟩
    have still : u.top = s.top :=
      BitVec.eq_of_toNat_eq (Nat.le_antisymm (now ▸ low) top)
    rw [still]
    exact work still (more (now.trans still))
  cases pc with
  | idle => trivial
  | bottom vet t => exact Nat.le_trans thief top
  | ring vet t | cas vet t v => exact saw thief
  | slot vet t r => exact ⟨saw thief.1, Nat.lt_of_lt_of_le thief.2 made⟩

theorem OwnerInv.setThief {place : OwnerPc} (owner : OwnerInv s limit place) (i : Nat)
    (pc : ThiefPc) : OwnerInv (s.setThief i pc) limit place := by
  cases place with
  | _ => exact owner

/-- A thief moves, and nothing else does. -/
theorem Inv.thiefMoves (inv : Inv s limit) (i : Nat) {pc : ThiefPc}
    (thief : ThiefInv s limit pc) : Inv (s.setThief i pc) limit where
  rings := inv.rings
  ring := inv.ring
  top := inv.top
  room := inv.room
  bottom := inv.bottom
  owner := inv.owner.setThief i pc
  thief j := by
    have kept : ThiefInv s limit ((s.setThief i pc).thief j) := by
      simp only [State.setThief]
      rcases eq_or_ne j i with rfl | other
      · rw [Function.update_self]
        exact thief
      · rw [Function.update_of_ne other]
        exact inv.thief j
    exact kept.transfer (Nat.le_refl _) (Nat.le_refl _) fun _ => id

/-- A thief takes the oldest task. -/
theorem Inv.takes (inv : Inv s limit) (small : s.top.toNat + 1 < 2 ^ 64)
    (work : s.top.toNat < limit) : Inv { s with top := s.top + 1 } limit := by
  have raised : (s.top + 1).toNat = s.top.toNat + 1 := by
    have one : (1 : Word).toNat = 1 := rfl
    rw [BitVec.toNat_add, one]
    exact Nat.mod_eq_of_lt small
  have grows : s.top.toNat ≤ (s.top + 1).toNat := raised ▸ Nat.le_succ _
  have pushing {b t : Word} (before : s.Pushing limit b t) :
      { s with top := s.top + 1 }.Pushing limit b t :=
    ⟨before.bottom, before.low, Nat.le_trans before.top grows, before.room⟩
  refine ⟨inv.rings, inv.ring, raised ▸ work, ?_, inv.bottom, ?_, fun i =>
    (inv.thief i).transfer grows (Nat.le_refl _) fun still => ?_⟩
  · have room := inv.room
    show limit ≤ (s.top + 1).toNat + s.cur.capacity.toNat
    omega
  · have owner := inv.owner
    cases here : s.owner with
    | pushRing op b t =>
      rw [here] at owner
      exact pushing owner
    | growCopy op b t new i | growPublish op b t new | pushReload op b t | pushSlot op b t r k =>
      rw [here] at owner
      exact ⟨pushing owner.1, owner.2⟩
    | pushBottom op b =>
      rw [here] at owner
      exact ⟨owner.1, owner.2.1, Nat.le_trans owner.2.2 (Nat.add_le_add_right grows _)⟩
    | lastRing b | lastCas b v =>
      rw [here] at owner
      exact ⟨owner.1, Nat.le_trans owner.2 grows⟩
    | lastSlot b r =>
      rw [here] at owner
      exact ⟨owner.1, Nat.le_trans owner.2.1 grows, owner.2.2⟩
    -- here nothing is left to take
    | lastRestore b result =>
      rw [here] at owner
      exact absurd owner.2 (Nat.ne_of_lt work)
    | popRestore t =>
      rw [here] at owner
      obtain ⟨level, rfl⟩ := owner
      exact absurd level (Nat.ne_of_lt work)
    | _ =>
      rw [here] at owner
      exact owner
  · have moved : (s.top + 1).toNat = s.top.toNat := congrArg BitVec.toNat still
    omega

/-- `bottom_` above `top_` means that there is something to take. -/
theorem Inv.work_of_bottom (inv : Inv s limit) (below : s.top < s.bottom) :
    s.top.toNat < limit :=
  Nat.lt_of_lt_of_le (BitVec.lt_def.mp below) inv.bottom

theorem Inv.thiefStep (inv : Inv s limit) {i : Nat} (stepped : thiefStep s i = some u) :
    Inv u limit := by
  have thief := inv.thief i
  unfold Words.thiefStep at stepped
  cases here : s.thief i with
  | idle =>
    rw [here] at stepped
    cases stepped
  | bottom vet t =>
    rw [here] at thief
    simp only [here] at stepped
    cases stepped
    refine inv.thiefMoves i ?_
    split
    · rename_i below
      have lower := BitVec.lt_def.mp below
      have word := s.bottom.isLt
      exact ⟨thief, by omega, fun now => inv.work_of_bottom (now ▸ below)⟩
    · trivial
  | ring vet t =>
    rw [here] at thief
    simp only [here] at stepped
    cases stepped
    exact inv.thiefMoves i ⟨thief, inv.ring⟩
  | slot vet t r =>
    rw [here] at thief
    simp only [here] at stepped
    cases stepped
    refine inv.thiefMoves i ?_
    split
    · exact thief.1
    · trivial
  | cas vet t v =>
    rw [here] at thief
    simp only [here] at stepped
    split at stepped
    · rename_i won
      cases stepped
      subst won
      exact (inv.takes thief.2.1 (thief.2.2 rfl)).thiefMoves i trivial
    · cases stepped
      exact inv.thiefMoves i trivial

theorem Inv.stealIf (inv : Inv s limit) {i : Nat} {vet : Vet}
    (stepped : stealIf s i vet = some u) : Inv u limit := by
  unfold Words.stealIf at stepped
  cases here : s.thief i with
  | idle =>
    simp only [here] at stepped
    cases stepped
    exact inv.thiefMoves i (Nat.le_refl _)
  | _ =>
    simp only [here] at stepped
    cases stepped

/-! ## The owner -/

/-- A store into a ring changes no capacity. -/
theorem capacity_store (rings : Nat → Ring) (r q : Nat) (i : Word) (v : BitVec 64) :
    (Function.update rings r ((rings r).store i v) q).capacity = (rings q).capacity := by
  rcases eq_or_ne q r with rfl | other
  · rw [Function.update_self]
    rfl
  · rw [Function.update_of_ne other]

theorem fits_store {rings : Nat → Ring} {q : Nat} (fits : (rings q).Fits) (r : Nat) (i : Word)
    (v : BitVec 64) : (Function.update rings r ((rings r).store i v) q).Fits := by
  rcases eq_or_ne q r with rfl | other
  · rw [Function.update_self]
    exact fits.store i v
  · rw [Function.update_of_ne other]
    exact fits

/-- What the owner knows depends on the indices and on the capacities of the rings. -/
theorem OwnerInv.transfer {pc : OwnerPc} (owner : OwnerInv s limit pc) (top : u.top = s.top)
    (bottom : u.bottom = s.bottom) (made : s.made ≤ u.made)
    (cur : u.cur.capacity = s.cur.capacity)
    (capacities : ∀ r < s.made, (u.rings r).capacity = (s.rings r).capacity) :
    OwnerInv u limit pc := by
  have pushing {b t : Word} (before : s.Pushing limit b t) : u.Pushing limit b t := by
    unfold State.Pushing at before ⊢
    rw [top, bottom, cur]
    exact before
  have room {op : Push} {t : Word} (before : s.HasRoom limit op t) : u.HasRoom limit op t := by
    unfold State.HasRoom at before ⊢
    rw [cur]
    exact before
  have growing {new : Nat} (before : s.Growing new) : u.Growing new := by
    refine ⟨Nat.lt_of_lt_of_le before.1 made, ?_⟩
    rw [capacities new before.1, cur]
    exact before.2
  have lowered {b : Word} (before : s.Lowered limit b) : u.Lowered limit b :=
    ⟨bottom.trans before.1, before.2⟩
  cases pc with
  | pushRing op b t => exact pushing owner
  | growCopy op b t new i => exact ⟨pushing owner.1, growing owner.2.1, owner.2.2⟩
  | growPublish op b t new => exact ⟨pushing owner.1, growing owner.2⟩
  | pushReload op b t => exact ⟨pushing owner.1, room owner.2⟩
  | pushSlot op b t r k =>
    exact ⟨pushing owner.1, room owner.2.1, Nat.lt_of_lt_of_le owner.2.2 made⟩
  | pushBottom op b =>
    refine ⟨bottom ▸ owner.1, owner.2.1, ?_⟩
    rw [top]
    exact room owner.2.2
  | popReload b => exact lowered owner
  | popSlot b r => exact ⟨bottom.trans owner.1, owner.2.1, Nat.lt_of_lt_of_le owner.2.2 made⟩
  | lastRing b | lastCas b v => exact ⟨lowered owner.1, top ▸ owner.2⟩
  | lastSlot b r =>
    exact ⟨lowered owner.1, top ▸ owner.2.1, Nat.lt_of_lt_of_le owner.2.2 made⟩
  | lastRestore b result => exact ⟨lowered owner.1, top ▸ owner.2⟩
  | popRestore t => exact ⟨owner.1, top.trans owner.2⟩
  | _ =>
    simp only [OwnerInv, bottom] at owner ⊢
    exact owner

/-- The owner comes to another place. -/
theorem Inv.goesTo (inv : Inv s limit) {pc : OwnerPc} (owner : OwnerInv s limit pc) :
    Inv { s with owner := pc } limit where
  rings := inv.rings
  ring := inv.ring
  top := inv.top
  room := inv.room
  bottom := inv.bottom
  owner := owner.transfer rfl rfl (Nat.le_refl _) rfl fun _ _ => rfl
  thief i := (inv.thief i).transfer (Nat.le_refl _) (Nat.le_refl _) fun _ => id

/-- It stores into a slot. -/
theorem Inv.writes (inv : Inv s limit) {pc : OwnerPc} (owner : OwnerInv s limit pc) (r : Nat)
    (i : Word) (v : BitVec 64) :
    Inv { s with
      rings := Function.update s.rings r ((s.rings r).store i v)
      owner := pc } limit := by
  have cur := capacity_store s.rings r s.ring i v
  refine ⟨fun q made => fits_store (inv.rings q made) r i v, inv.ring, inv.top, ?_, inv.bottom,
    owner.transfer rfl rfl (Nat.le_refl _) cur fun q _ => capacity_store s.rings r q i v,
    fun j => (inv.thief j).transfer (Nat.le_refl _) (Nat.le_refl _) fun _ => id⟩
  simp only [State.cur]
  rw [cur]
  exact inv.room

/-- It stores `bottom_`. -/
theorem Inv.stores (inv : Inv s limit) {pc : OwnerPc} {bottom : Word}
    (below : bottom.toNat ≤ limit) (owner : OwnerInv { s with bottom } limit pc) :
    Inv { s with bottom, owner := pc } limit where
  rings := inv.rings
  ring := inv.ring
  top := inv.top
  room := inv.room
  bottom := below
  owner := owner.transfer rfl rfl (Nat.le_refl _) rfl fun _ _ => rfl
  thief i := (inv.thief i).transfer (Nat.le_refl _) (Nat.le_refl _) fun _ => id

/-- The first place of a push that has room. -/
theorem pushEntry_inv (inv : Inv s limit) {op : Push} {b t : Word}
    (pushing : s.Pushing limit b t) (room : s.HasRoom limit op t) :
    OwnerInv s limit (pushEntry op b t s.ring) := by
  unfold pushEntry
  split
  · exact ⟨pushing.bottom, pushing.low, Nat.le_trans room (Nat.add_le_add_right pushing.top _)⟩
  · exact ⟨pushing, room, inv.ring⟩

/-- The owner has got a ring of twice the slots. -/
theorem Inv.makes (inv : Inv s limit) {new : Ring} (fits : new.Fits)
    (double : new.capacity.toNat = 2 * s.cur.capacity.toNat) :
    Inv { s with rings := Function.update s.rings s.made new, made := s.made + 1 } limit ∧
      ({ s with rings := Function.update s.rings s.made new, made := s.made + 1 } : State).Growing
        s.made := by
  have old {r : Nat} (made : r < s.made) : Function.update s.rings s.made new r = s.rings r :=
    Function.update_of_ne (Nat.ne_of_lt made) _ _
  have cur := old inv.ring
  have last : Function.update s.rings s.made new s.made = new := Function.update_self _ _ _
  refine ⟨⟨fun r made => ?_, Nat.lt_succ_of_lt inv.ring, inv.top, ?_, inv.bottom, ?_, fun i =>
    (inv.thief i).transfer (Nat.le_refl _) (Nat.le_succ _) fun _ => id⟩, Nat.lt_succ_self _, ?_⟩
  · simp only
    rcases Nat.lt_or_eq_of_le (Nat.le_of_lt_succ made) with earlier | rfl
    · rw [old earlier]
      exact inv.rings r earlier
    · rw [last]
      exact fits
  · simp only [State.cur]
    rw [cur]
    exact inv.room
  · refine inv.owner.transfer rfl rfl (Nat.le_succ _) ?_ fun r made => by simp only [old made]
    simp only [State.cur]
    rw [cur]
  · simp only [State.cur]
    rw [cur, last]
    exact double

/-- A grow stops the process, or goes on with a new ring. -/
theorem Inv.grow (inv : Inv s limit) {op : Push} {b t : Word} (allocates : Bool)
    (here : s.owner = .pushRing op b t) : Inv (s.grow op b t allocates) limit := by
  have pushing : s.Pushing limit b t := by
    have owner := inv.owner
    rw [here] at owner
    exact owner
  have low : s.bottom.toNat = limit % 2 ^ 64 := pushing.bottom ▸ pushing.low
  have stopped : Inv { s with owner := .fatal } limit := inv.goesTo low
  unfold State.grow
  simp only
  split
  · exact stopped
  · cases granted : makeRing allocates (s.cur.capacity * 2) with
    | none => exact stopped
    | some new =>
      obtain ⟨fits, double⟩ := makeRing_double inv.cur granted
      obtain ⟨made, growing⟩ := inv.makes fits double
      have still := made.owner
      simp only [here] at still
      refine made.goesTo ?_
      split
      · exact ⟨still, growing⟩
      · rename_i some
        refine ⟨still, growing, t.toNat, toNat_low t, Nat.le_refl _, ?_⟩
        refine Nat.lt_of_le_of_ne (Nat.le_trans pushing.top inv.top) fun level => some ?_
        refine BitVec.eq_of_toNat_eq ?_
        rw [pushing.low, ← level]
        exact toNat_low t

theorem Inv.ownerStep (inv : Inv s limit) {allocates : Bool}
    (stepped : ownerStep s allocates = some u) : ∃ limit', Inv u limit' := by
  have owner := inv.owner
  have top := inv.top
  have room := inv.room
  have lt := inv.cur.lt
  have word := s.bottom.isLt
  unfold Words.ownerStep at stepped
  cases here : s.owner with
  | idle | fatal =>
    rw [here] at stepped
    cases stepped
  | pushTop op b =>
    rw [here] at owner
    simp only [here] at stepped
    cases stepped
    exact ⟨limit, inv.goesTo ⟨owner.1, owner.2, Nat.le_refl _, room⟩⟩
  | pushRing op b t =>
    rw [here] at owner
    simp only [here] at stepped
    split at stepped
    · cases stepped
      exact ⟨limit, inv.grow allocates here⟩
    · rename_i not
      cases stepped
      exact ⟨limit, inv.goesTo (pushEntry_inv inv owner (Push.room_of_not_full owner.low
        (Nat.le_trans owner.top top) owner.room lt not))⟩
  | growCopy op b t new i =>
    rw [here] at owner
    obtain ⟨pushing, growing, j, low, above, below⟩ := owner
    simp only [here] at stepped
    cases stepped
    refine ⟨limit, inv.writes ?_ new i _⟩
    split
    · exact ⟨pushing, growing⟩
    · rename_i more
      have next := toNat_add_low 1 low
      refine ⟨pushing, growing, j + 1, next, Nat.le_succ_of_le above, ?_⟩
      refine Nat.lt_of_le_of_ne below fun level => more ?_
      refine BitVec.eq_of_toNat_eq ?_
      rw [pushing.low, ← level]
      exact next
  | growPublish op b t new =>
    rw [here] at owner
    obtain ⟨pushing, made, double⟩ := owner
    simp only [here] at stepped
    cases stepped
    have pos := inv.cur.pos
    have larger : s.cur.capacity.toNat ≤ (s.rings new).capacity.toNat := by omega
    have still : Pushing s.bottom s.top (s.rings new).capacity limit b t :=
      ⟨pushing.bottom, pushing.low, pushing.top,
        Nat.le_trans pushing.room (Nat.add_le_add_left larger _)⟩
    refine ⟨limit, inv.rings, made, top, Nat.le_trans room (Nat.add_le_add_left larger _),
      inv.bottom, ?_, fun i =>
        (inv.thief i).transfer (Nat.le_refl _) (Nat.le_refl _) fun _ => id⟩
    cases op with
    | one item =>
      refine ⟨still, ?_⟩
      have before := pushing.room
      simp only [State.HasRoom, State.cur, Push.items, List.length_singleton] at *
      omega
    | batch items fits => exact still
  | pushReload op b t =>
    rw [here] at owner
    simp only [here] at stepped
    cases stepped
    exact ⟨limit, inv.goesTo (pushEntry_inv inv owner.1 owner.2)⟩
  | pushSlot op b t r k =>
    rw [here] at owner
    obtain ⟨pushing, space, made⟩ := owner
    simp only [here] at stepped
    cases item : op.items[k]? with
    | none =>
      rw [item] at stepped
      cases stepped
    | some task =>
      simp only [item] at stepped
      cases stepped
      refine ⟨limit, inv.writes ?_ r _ _⟩
      split
      · exact ⟨pushing.bottom, pushing.low,
          Nat.le_trans space (Nat.add_le_add_right pushing.top _)⟩
      · exact ⟨pushing, space, made⟩
  | pushBottom op b =>
    rw [here] at owner
    obtain ⟨-, low, space⟩ := owner
    simp only [here] at stepped
    cases stepped
    have raised : (b + op.count).toNat = (limit + op.items.length) % 2 ^ 64 :=
      toNat_add_low _ low
    refine ⟨limit + op.items.length, inv.rings, inv.ring, Nat.le_add_right_of_le top, space,
      raised ▸ Nat.mod_le _ _, raised, fun i =>
        (inv.thief i).transfer (Nat.le_refl _) (Nat.le_refl _) fun _ work => ?_⟩
    exact Nat.lt_add_right _ work
  | popTop b =>
    rw [here] at owner
    obtain ⟨rfl, low⟩ := owner
    simp only [here] at stepped
    cases stepped
    refine ⟨limit, inv.goesTo ?_⟩
    split
    · exact low
    · rename_i some
      have below := BitVec.lt_def.mp (BitVec.not_le.mp some)
      have one : (1 : Word).toNat = 1 := rfl
      have level : s.bottom.toNat = limit := by omega
      refine ⟨level, ?_⟩
      rw [BitVec.toNat_sub, one]
      omega
  | popStore b =>
    rw [here] at owner
    obtain ⟨whole, level⟩ := owner
    simp only [here] at stepped
    cases stepped
    exact ⟨limit, inv.stores (level ▸ Nat.le_succ _) ⟨rfl, level, whole ▸ word⟩⟩
  | popReload b =>
    rw [here] at owner
    obtain ⟨rfl, level, small⟩ := owner
    simp only [here] at stepped
    cases stepped
    split
    · rename_i some
      split
      · rename_i last
        exact ⟨limit, inv.goesTo ⟨⟨rfl, level, small⟩,
          Nat.le_of_eq (congrArg _ last.symm)⟩⟩
      · rename_i more
        have least := BitVec.le_def.mp some
        have other : s.top.toNat ≠ s.bottom.toNat := fun same => more (BitVec.eq_of_toNat_eq same)
        refine ⟨s.bottom.toNat, inv.rings, inv.ring, least, ?_, Nat.le_refl _, ⟨rfl, rfl⟩,
          fun i => (inv.thief i).transfer (Nat.le_refl _) (Nat.le_refl _) fun _ _ => ?_⟩
        · show s.bottom.toNat ≤ s.top.toNat + s.cur.capacity.toNat
          omega
        · omega
    · rename_i none
      have above := BitVec.lt_def.mp (BitVec.not_le.mp none)
      exact ⟨limit, inv.goesTo ⟨by omega, rfl⟩⟩
  | popRing b | lastRing b =>
    rw [here] at owner
    simp only [here] at stepped
    cases stepped
    exact ⟨limit, inv.goesTo ⟨owner.1, owner.2, inv.ring⟩⟩
  | popSlot b r =>
    rw [here] at owner
    obtain ⟨rfl, level, -⟩ := owner
    simp only [here] at stepped
    cases stepped
    exact ⟨limit, inv.goesTo (level ▸ toNat_low s.bottom)⟩
  | lastSlot b r =>
    rw [here] at owner
    simp only [here] at stepped
    cases stepped
    exact ⟨limit, inv.goesTo ⟨owner.1, owner.2.1⟩⟩
  | lastCas b v =>
    rw [here] at owner
    obtain ⟨⟨rfl, level, small⟩, least⟩ := owner
    simp only [here] at stepped
    split at stepped
    · rename_i won
      cases stepped
      have next := toNat_add_low 1 (toNat_low s.bottom)
      rw [← level] at next
      have takes := inv.takes (by rw [won]; omega) (by rw [won]; omega)
      rw [won] at takes
      refine ⟨limit, takes.goesTo ⟨⟨rfl, level, small⟩, ?_⟩⟩
      exact next.trans (Nat.mod_eq_of_lt small)
    · rename_i lost
      cases stepped
      have other : s.top.toNat ≠ s.bottom.toNat := fun same => lost (BitVec.eq_of_toNat_eq same)
      exact ⟨limit, inv.goesTo ⟨⟨rfl, level, small⟩, by omega⟩⟩
  | lastRestore b result =>
    rw [here] at owner
    obtain ⟨⟨rfl, level, -⟩, taken⟩ := owner
    simp only [here] at stepped
    cases stepped
    have raised := toNat_add_low 1 (toNat_low s.bottom)
    rw [← level] at raised
    exact ⟨limit, inv.stores (raised ▸ Nat.mod_le _ _) raised⟩
  | popRestore t =>
    rw [here] at owner
    obtain ⟨level, rfl⟩ := owner
    simp only [here] at stepped
    cases stepped
    exact ⟨limit, inv.stores (Nat.le_of_eq level) (level ▸ toNat_low s.top)⟩
  | popReturn result =>
    rw [here] at owner
    simp only [here] at stepped
    cases stepped
    exact ⟨limit, inv.goesTo owner⟩

/-! ## The run -/

/-- The owner enters a call. -/
theorem Inv.enter (inv : Inv s limit) {pc : OwnerPc} (stepped : s.enter pc = some u)
    (owner : s.bottom.toNat = limit % 2 ^ 64 → OwnerInv s limit pc) : Inv u limit := by
  have before := inv.owner
  unfold State.enter at stepped
  cases here : s.owner with
  | idle =>
    rw [here] at before
    simp only [here] at stepped
    cases stepped
    exact inv.goesTo (owner before)
  | _ =>
    simp only [here] at stepped
    cases stepped

theorem Inv.step (inv : Inv s limit) {a : Label} (stepped : step s a = some u) :
    ∃ limit', Inv u limit' := by
  unfold Words.step at stepped
  split at stepped
  · cases stepped
  · cases a with
    | pushBottom item =>
      cases item with
      | none => exact ⟨limit, inv.enter stepped id⟩
      | some item => exact ⟨limit, inv.enter stepped fun low => ⟨rfl, low⟩⟩
    | pushBottomBatch items fits => exact ⟨limit, inv.enter stepped fun low => ⟨rfl, low⟩⟩
    | popBottom =>
      refine ⟨limit, inv.enter stepped fun low => ?_⟩
      split
      · exact low
      · exact ⟨rfl, low⟩
    | owner allocates => exact inv.ownerStep stepped
    | steal i => exact ⟨limit, inv.stealIf stepped⟩
    | stealIf i vet => exact ⟨limit, inv.stealIf stepped⟩
    | thief i => exact ⟨limit, inv.thiefStep stepped⟩

theorem reach_inv {capacity maxCapacity : Word} {allocates pushOnly : Bool} {start : State}
    (nonempty : capacity ≠ 0)
    (made : construct capacity maxCapacity allocates pushOnly = some start)
    (reach : Reach Words.step anyStep start s) : ∃ limit, Inv s limit := by
  refine reach.invariant (I := fun s => ∃ limit, Inv s limit) ⟨0, construct_inv nonempty made⟩ ?_
  rintro s u a ⟨limit, inv⟩ _ stepped
  exact inv.step stepped

end JLibSched.Deque.Words
