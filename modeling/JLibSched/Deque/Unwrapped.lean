import JLibSched.Deque.Growth
import JLibSched.Deque.Linearizable

/-!
# The deque in words is the deque

While no push takes `bottom_` to `2 ^ 64`, no index wraps, and the deque in words does what the deque
with unbounded indices does.  There a copied slot is two steps, and a call that ends makes one more
for the work flag.
-/

namespace JLibSched.Deque.Words

open Transition

/-- Where a push is about to move `bottom_`. -/
def OwnerPc.raised : OwnerPc → Nat
  | .pushBottom op b => b.toNat + op.items.length
  | _ => 0

/-- No push takes `bottom_` to `2 ^ 64`. -/
def unwrapped (s : State) : Label → Prop
  | .owner _ => s.owner.raised < 2 ^ 64
  | _ => True

instance (s : State) : ∀ a, Decidable (unwrapped s a)
  | .owner _ => inferInstanceAs (Decidable (s.owner.raised < 2 ^ 64))
  | .pushBottom _ | .pushBottomBatch .. | .popBottom | .steal _ | .stealIf .. | .thief _ =>
    isTrue trivial

/-! ## What a state shows -/

structure Ring.Shows (w : Ring) (r : Deque.Ring) : Prop where
  fits : w.Fits
  capacity : w.capacity.toNat = r.capacity
  slots : ∀ i, w.slots i = r.slots i.toNat

def Push.plain (op : Push) : Deque.Push := ⟨op.items, op.isBatch⟩

def OwnerPc.plain : OwnerPc → Deque.OwnerPc
  | .idle => .idle
  | .pushTop op b => .pushTop op.plain b.toNat
  | .pushRing op b t => .pushRing op.plain b.toNat t.toNat
  | .growCopy op b t new i => .growLoad op.plain b.toNat t.toNat new i.toNat
  | .growPublish op b t new => .growPublish op.plain b.toNat t.toNat new
  | .pushReload op b t => .pushReload op.plain b.toNat t.toNat
  | .pushSlot op b t r k => .pushSlot op.plain b.toNat t.toNat r k
  | .pushBottom op b => .pushBottom op.plain b.toNat
  | .popTop b => .popTop b.toNat
  | .popStore b => .popStore b.toNat
  | .popReload b => .popReload b.toNat
  | .popRing b => .popRing b.toNat
  | .popSlot b r => .popSlot b.toNat r
  | .lastRing b => .lastRing b.toNat
  | .lastSlot b r => .lastSlot b.toNat r
  | .lastCas b v => .lastCas b.toNat v
  | .lastRestore b result => .lastRestore b.toNat result
  | .popRestore t => .popRestore t.toNat
  | .popReturn result => .popFlag result
  | .fatal => .fatal

/-- A pop that left others behind has no flag to clear, so there it has returned. -/
def OwnerPc.Shows : OwnerPc → Deque.OwnerPc → Prop
  | .popReturn result, pc' => pc' = .popFlag result ∨ pc' = .idle
  | pc, pc' => pc' = pc.plain

def ThiefPc.plain : ThiefPc → Deque.ThiefPc
  | .idle => .idle
  | .bottom vet t => .bottom vet t.toNat
  | .ring vet t => .ring vet t.toNat
  | .slot vet t r => .slot vet t.toNat r
  | .cas vet t v => .cas vet t.toNat v

structure Shows (s : State) (m : Deque.State) : Prop where
  top : s.top.toNat = m.top
  bottom : s.bottom.toNat = m.bottom
  ring : s.ring = m.ring
  rings : ∀ r, (s.rings r).Shows (m.rings r)
  made : s.made = m.made
  maxCapacity : s.maxCapacity.toNat = m.maxCapacity
  ceilingIsHard : s.ceilingIsHard = m.ceilingIsHard
  pushOnly : s.pushOnly = m.pushOnly
  owner : s.owner.Shows m.owner
  thief : ∀ i, m.thief i = (s.thief i).plain

variable {s t : State} {m : Deque.State} {limit : Nat} {c held : List TaskRef}

/-! ## Rings -/

/-- An index and its low word have the same slot. -/
theorem Ring.Shows.place {w : Ring} {r : Deque.Ring} (shows : w.Shows r) {i : Word} {j : Nat}
    (low : i.toNat = j % 2 ^ 64) : (w.place i).toNat = j &&& r.mask := by
  have power : ∃ k, r.capacity = 2 ^ k := shows.capacity ▸ shows.fits.power
  unfold Deque.Ring.mask
  rw [shows.fits.place_eq, low, shows.fits.mod_low, shows.capacity, Circular.and_pred_eq_mod j power]

theorem Ring.Shows.load {w : Ring} {r : Deque.Ring} (shows : w.Shows r) (i : Word) :
    w.load i = r.load i.toNat := by
  unfold Ring.load Deque.Ring.load
  rw [shows.slots, shows.place (toNat_low i)]

theorem Ring.Shows.store {w : Ring} {r : Deque.Ring} (shows : w.Shows r) {i : Word} {j : Nat}
    (low : i.toNat = j % 2 ^ 64) (v : BitVec 64) : (w.store i v).Shows (r.store j v) where
  fits := shows.fits.store i v
  capacity := shows.capacity
  slots k := by
    show Function.update w.slots (w.place i) v k = Function.update r.slots (j &&& r.mask) v k.toNat
    rw [← shows.place low]
    rcases eq_or_ne k (w.place i) with rfl | other
    · rw [Function.update_self, Function.update_self]
    · rw [Function.update_of_ne other, Function.update_of_ne fun same => other
        (BitVec.eq_of_toNat_eq same)]
      exact shows.slots k

theorem Shows.update (shows : Shows s m) (k : Nat) {w : Ring} {r : Deque.Ring} (new : w.Shows r)
    (j : Nat) : (Function.update s.rings k w j).Shows (Function.update m.rings k r j) := by
  rcases eq_or_ne j k with rfl | other
  · rw [Function.update_self, Function.update_self]
    exact new
  · rw [Function.update_of_ne other, Function.update_of_ne other]
    exact shows.rings j

theorem Shows.cur (shows : Shows s m) : s.cur.Shows m.cur := by
  unfold State.cur Deque.State.cur
  rw [← shows.ring]
  exact shows.rings s.ring

/-! ## Steps -/

theorem OwnerPc.Shows.of_eq {pc : OwnerPc} {pc' : Deque.OwnerPc} (same : pc' = pc.plain) :
    pc.Shows pc' := by
  cases pc with
  | popReturn result => exact .inl same
  | _ => exact same

theorem OwnerPc.Shows.alive {pc : OwnerPc} {pc' : Deque.OwnerPc} (shows : pc.Shows pc')
    (alive : pc.isFatal = false) : pc'.isFatal = false := by
  cases pc with
  | fatal => cases alive
  | popReturn result => obtain rfl | rfl := shows <;> rfl
  | _ => exact (congrArg Deque.OwnerPc.isFatal shows).trans rfl

theorem reach_owner {m' : Deque.State} {allocates : Bool}
    (stepped : Deque.ownerStep m allocates = some m') : Reach Deque.step anyStep m m' := by
  refine .next .start trivial (a := .owner allocates) ?_
  unfold Deque.step
  split
  · rename_i gone
    unfold Deque.ownerStep at stepped
    cases here : m.owner with
    | fatal =>
      rw [here] at stepped
      cases stepped
    | _ =>
      rw [here] at gone
      cases gone
  · exact stepped

/-- What the owner's next access does there. -/
def Follows (m : Deque.State) (t : State) : Prop :=
  ∃ m', Reach Deque.step anyStep m m' ∧ Shows t m'

/-- With `top_` and `bottom_` unwrapped, a push tests for room as it would without words. -/
theorem Push.full_iff (op : Push) {b t capacity : Word} (low : t.toNat ≤ b.toNat)
    (room : b.toNat ≤ t.toNat + capacity.toNat) (small : capacity.toNat < 2 ^ 61) :
    op.Full b t capacity ↔ b.toNat + op.items.length - t.toNat > capacity.toNat := by
  have fits := op.fits
  unfold Addressable at fits
  cases op with
  | one item =>
    show capacity ≤ b - t ↔ _
    rw [BitVec.le_def, toNat_sub_low (toNat_low b) low (by omega)]
    simp only [Push.items, List.length_singleton]
    omega
  | batch items addressable =>
    simp only [Push.items] at fits ⊢
    have raised := toNat_add_low items.length (toNat_low b)
    have diff := toNat_sub_low (t := t) raised (by omega) (by omega)
    show capacity < b + BitVec.ofNat 64 items.length - t ↔ _
    rw [BitVec.lt_def, diff]

theorem Shows.grow (shows : Shows s m) (op : Push) (b t : Word) (allocates : Bool) :
    ∃ allocates', Shows (s.grow op b t allocates)
      (m.grow op.plain b.toNat t.toNat allocates') := by
  have cur := shows.cur
  have twice : (s.cur.capacity * 2).toNat = m.cur.capacity * 2 := by
    have lt := cur.fits.lt
    have two : (2 : Word).toNat = 2 := rfl
    rw [← cur.capacity, BitVec.toNat_mul, two]
    omega
  have ceiling : s.AtCeiling (s.cur.capacity * 2) ↔ m.cur.capacity * 2 > m.maxCapacity ∧
      (m.ceilingIsHard = true ∨ m.cur.capacity * 2 > hardMaxCapacity) := by
    have hard : kHardMaxCapacity.toNat = hardMaxCapacity := rfl
    unfold State.AtCeiling
    rw [gt_iff_lt, gt_iff_lt, BitVec.lt_def, BitVec.lt_def, twice, shows.maxCapacity, hard,
      shows.ceilingIsHard]
  unfold State.grow Deque.State.grow
  by_cases stops : s.AtCeiling (s.cur.capacity * 2)
  · refine ⟨true, ?_⟩
    simp only [if_pos stops, if_pos (ceiling.mp stops)]
    exact { shows with owner := rfl }
  · simp only [if_neg stops, if_neg (mt ceiling.mpr stops)]
    cases made : makeRing allocates (s.cur.capacity * 2) with
    | none => exact ⟨false, { shows with owner := rfl }⟩
    | some r =>
      refine ⟨true, ?_⟩
      obtain ⟨fits, -⟩ := makeRing_double cur.fits made
      have new : r.Shows (Deque.makeRing (m.cur.capacity * 2)) := by
        obtain ⟨-, same⟩ := Option.ite_none_right_eq_some.mp made
        cases same
        exact ⟨fits, twice, fun _ => rfl⟩
      rw [if_neg (not_not.mpr rfl)]
      refine { shows with rings := ?_, made := ?_, owner := .of_eq ?_ }
      · show ∀ j, (Function.update s.rings s.made r j).Shows _
        rw [shows.made]
        exact shows.update m.made new
      · exact congrArg (· + 1) shows.made
      · rw [apply_ite OwnerPc.plain]
        simp only [BitVec.toNat_inj, shows.made]
        rfl

theorem pushEntry_plain (op : Push) (b t : Word) (r : Nat) :
    Deque.pushEntry op.plain b.toNat t.toNat r = (pushEntry op b t r).plain := by
  unfold pushEntry Deque.pushEntry
  rw [apply_ite OwnerPc.plain]
  rfl

/-- The push tests for room and stores, or grows. -/
theorem Shows.pushRing {op : Push} {b t : Word} (shows : Shows s m) (inv : Deque.Inv m c held)
    (allocates : Bool) (place : m.owner = .pushRing op.plain b.toNat t.toNat) :
    Follows m (if op.Full b t s.cur.capacity then s.grow op b t allocates
      else { s with owner := pushEntry op b t s.ring }) := by
  have pushing := inv.owner
  have level := inv.limit
  rw [place] at pushing level
  obtain ⟨-, bottom, top, room, -⟩ := pushing
  have level : m.top + c.length = m.bottom := level
  have cur := shows.cur
  have full := op.full_iff (b := b) (t := t) (by omega)
    (room.trans_eq (by rw [cur.capacity])) cur.fits.lt
  rw [cur.capacity] at full
  split
  · rename_i grows
    obtain ⟨allocates', grown⟩ := shows.grow op b t allocates
    have next : Deque.ownerStep m allocates' = some (m.grow op.plain b.toNat t.toNat allocates') := by
      unfold Deque.ownerStep
      rw [place]
      exact if_pos (full.mp grows)
    exact ⟨_, reach_owner next, grown⟩
  · rename_i fits
    have next : Deque.ownerStep m true =
        some { m with owner := Deque.pushEntry op.plain b.toNat t.toNat m.ring } := by
      unfold Deque.ownerStep
      rw [place]
      exact if_neg (mt full.mpr fits)
    refine ⟨_, reach_owner next, { shows with owner := .of_eq ?_ }⟩
    rw [← pushEntry_plain, shows.ring]

theorem toNat_succ {w : Word} (below : w.toNat + 1 < 2 ^ 64) : (w + 1).toNat = w.toNat + 1 :=
  (toNat_add_low 1 (toNat_low w)).trans (Nat.mod_eq_of_lt below)

theorem toNat_pred {w : Word} (positive : 0 < w.toNat) : (w - 1).toNat = w.toNat - 1 :=
  BitVec.toNat_sub_of_le (BitVec.le_def.mpr positive)

theorem Shows.ownerStep (shows : Shows s m) (inv : Inv s limit) (inv' : Deque.Inv m c held)
    {allocates : Bool} (fits : s.owner.raised < 2 ^ 64)
    (stepped : ownerStep s allocates = some t) : Follows m t := by
  have place := shows.owner
  have owner := inv.owner
  have owner' := inv'.owner
  have step {m' : Deque.State} (next : Deque.ownerStep m true = some m') (after : Shows t m') :
      Follows m t := ⟨m', reach_owner next, after⟩
  have twice {m' m'' : Deque.State} (next : Deque.ownerStep m true = some m')
      (next' : Deque.ownerStep m' true = some m'') (after : Shows t m'') : Follows m t :=
    ⟨m'', (reach_owner next).trans (reach_owner next'), after⟩
  unfold Words.ownerStep at stepped
  unfold Deque.ownerStep at step twice
  generalize s.owner = pc at stepped place owner fits
  cases pc with
  | idle | fatal =>
    cases stepped
  | popReturn result =>
    cases stepped
    obtain place | place := place
    · obtain ⟨mirror, flag, same⟩ := m.storeFlag_eq 0
      rw [place, same] at step
      exact step rfl { shows with owner := rfl }
    · exact ⟨m, .start, { shows with owner := place }⟩
  | pushRing op b t =>
    have next := shows.pushRing inv' allocates place
    split at next
    · rename_i full
      cases (if_pos full).symm.trans stepped
      exact next
    · rename_i room
      cases (if_neg room).symm.trans stepped
      exact next
  | growCopy op b t new i =>
    rw [show m.owner = _ from place] at owner' twice
    cases stepped
    have below : i.toNat < b.toNat := owner'.2.2
    have next : (i + 1).toNat = i.toNat + 1 := toNat_succ (by omega)
    refine twice rfl rfl { shows with rings := ?_, owner := .of_eq ?_ }
    · rw [shows.cur.load i]
      exact shows.update new ((shows.rings new).store (toNat_low i) _)
    · simp only [apply_ite OwnerPc.plain, ← BitVec.toNat_inj]
      rw [← next]
      rfl
  | pushSlot op b t r k =>
    rw [show m.owner = _ from place] at step
    cases found : op.items[k]? with
    | none =>
      simp only [found] at stepped
      cases stepped
    | some item =>
      simp only [found] at stepped
      cases stepped
      simp only [OwnerPc.plain, Push.plain, found] at step
      refine step rfl { shows with rings := ?_, owner := .of_eq ?_ }
      · exact shows.update r ((shows.rings r).store (toNat_add_low k (toNat_low b)) (tag item))
      · rw [apply_ite OwnerPc.plain]
        rfl
  | pushBottom op b =>
    rw [show m.owner = _ from place] at twice
    cases stepped
    refine twice rfl rfl ?_
    obtain ⟨mirror, flag, same⟩ := State.storeFlag_eq { m with
      bottom := b.toNat + op.plain.items.length
      owner := .pushFlag
      log := m.log ++ [.pushed op.plain.items] } 1
    rw [same]
    refine { shows with bottom := ?_, owner := rfl }
    exact (toNat_add_low _ (toNat_low b)).trans (Nat.mod_eq_of_lt fits)
  | popTop b =>
    rw [show m.owner = _ from place] at step
    cases stepped
    refine step rfl { shows with owner := .of_eq ?_ }
    simp only [apply_ite OwnerPc.plain, ge_iff_le, BitVec.le_def, shows.top]
    split
    · rfl
    · rename_i more
      rw [OwnerPc.plain, toNat_pred (by omega)]
  | popReload b =>
    rw [show m.owner = _ from place] at step
    cases stepped
    refine step rfl { shows with owner := .of_eq ?_ }
    simp only [apply_ite OwnerPc.plain, BitVec.le_def, ← BitVec.toNat_inj, shows.top]
    rcases Nat.lt_trichotomy m.top b.toNat with less | same | more
    · rw [if_pos less, if_pos less.le, if_neg less.ne]
      rfl
    · rw [if_neg same.not_lt, if_pos same, if_pos same.le, if_pos same]
      rfl
    · rw [if_neg more.not_gt, if_neg more.ne', if_neg (not_le.mpr more)]
      exact congrArg Deque.OwnerPc.popRestore shows.top.symm
  | lastCas b v =>
    obtain ⟨⟨-, rfl, below⟩, -⟩ := owner
    rw [show m.owner = _ from place] at step
    by_cases same : s.top = b
    · cases (if_pos same).symm.trans stepped
      have same' : m.top = b.toNat := by rw [← same, shows.top]
      exact step (if_pos same') { shows with top := toNat_succ below, owner := rfl }
    · cases (if_neg same).symm.trans stepped
      have other : m.top ≠ b.toNat := by rwa [← shows.top, ne_eq, BitVec.toNat_inj]
      exact step (if_neg other) { shows with owner := rfl }
  | lastRestore b result =>
    obtain ⟨⟨-, rfl, below⟩, -⟩ := owner
    rw [show m.owner = _ from place] at step
    cases stepped
    exact step rfl { shows with bottom := toNat_succ below, owner := .inl rfl }
  | popSlot b r =>
    rw [show m.owner = _ from place] at step
    cases stepped
    exact step rfl { shows with owner := .inr rfl }
  | growPublish op b t new =>
    rw [show m.owner = _ from place] at step
    cases stepped
    refine step rfl { shows with ring := rfl, owner := .of_eq ?_ }
    rw [apply_ite OwnerPc.plain]
    rfl
  | popStore | popRestore =>
    rw [show m.owner = _ from place] at step
    cases stepped
    exact step rfl { shows with bottom := rfl, owner := .of_eq rfl }
  | pushReload op b t =>
    rw [show m.owner = _ from place] at step
    cases stepped
    refine step rfl { shows with owner := .of_eq ?_ }
    rw [← pushEntry_plain, shows.ring]
  | pushTop | popRing | lastRing | lastSlot =>
    rw [show m.owner = _ from place] at step
    cases stepped
    refine step rfl { shows with owner := .of_eq ?_ }
    simp only [OwnerPc.plain, shows.top, shows.ring, (shows.rings _).load]

theorem Shows.setThief (shows : Shows s m) (i : Nat) {pc : ThiefPc} {pc' : Deque.ThiefPc}
    (same : pc' = pc.plain) : Shows (s.setThief i pc) (m.setThief i pc') :=
  { shows with
    thief j := by
      show Function.update m.thief i pc' j = (Function.update s.thief i pc j).plain
      rcases eq_or_ne j i with rfl | other
      · rw [Function.update_self, Function.update_self, same]
      · rw [Function.update_of_ne other, Function.update_of_ne other]
        exact shows.thief j }

theorem Shows.stealIf (shows : Shows s m) {i : Nat} {vet : Vet}
    (stepped : stealIf s i vet = some t) : ∃ m', Deque.stealIf m i vet = some m' ∧ Shows t m' := by
  have place := shows.thief i
  unfold Words.stealIf at stepped
  unfold Deque.stealIf
  generalize s.thief i = pc at stepped place
  cases pc with
  | idle =>
    rw [place]
    cases stepped
    exact ⟨_, rfl, shows.setThief i (congrArg _ shows.top.symm)⟩
  | _ =>
    cases stepped

theorem Shows.thiefStep (shows : Shows s m) (inv : Inv s limit) {i : Nat}
    (stepped : thiefStep s i = some t) : ∃ m', Deque.thiefStep m i = some m' ∧ Shows t m' := by
  have place := shows.thief i
  have saw := inv.thief i
  unfold Words.thiefStep at stepped
  unfold Deque.thiefStep
  generalize s.thief i = pc at stepped place saw
  cases pc with
  | idle =>
    cases stepped
  | bottom vet t =>
    rw [place]
    cases stepped
    refine ⟨_, rfl, shows.setThief i ?_⟩
    simp only [apply_ite ThiefPc.plain, BitVec.lt_def, shows.bottom]
    rfl
  | ring vet t =>
    rw [place]
    cases stepped
    exact ⟨_, rfl, shows.setThief i (congrArg _ shows.ring.symm)⟩
  | slot vet t r =>
    rw [place]
    cases stepped
    refine ⟨_, rfl, shows.setThief i ?_⟩
    rw [apply_ite ThiefPc.plain, (shows.rings r).load]
    rfl
  | cas vet t v =>
    rw [place]
    by_cases same : s.top = t
    · cases (if_pos same).symm.trans stepped
      have same' : m.top = t.toNat := by rw [← same, shows.top]
      have raised : Shows { s with top := t + 1 }
          { m with top := t.toNat + 1, log := m.log ++ [.stole vet (untag v)] } :=
        { shows with top := toNat_succ saw.2.1 }
      exact ⟨_, if_pos same', raised.setThief i rfl⟩
    · cases (if_neg same).symm.trans stepped
      have other : m.top ≠ t.toNat := by rwa [← shows.top, ne_eq, BitVec.toNat_inj]
      exact ⟨_, if_neg other, shows.setThief i rfl⟩

theorem Shows.enter (shows : Shows s m) {pc : OwnerPc} {pc' : Deque.OwnerPc} (same : pc' = pc.plain)
    (stepped : s.enter pc = some t) : ∃ m', m.enter pc' = some m' ∧ Shows t m' := by
  have place := shows.owner
  unfold State.enter at stepped
  unfold Deque.State.enter
  generalize s.owner = pc at stepped place
  cases pc with
  | idle =>
    rw [show m.owner = .idle from place]
    cases stepped
    exact ⟨_, rfl, { shows with owner := .of_eq same }⟩
  | _ =>
    cases stepped

/-! ## Runs -/

/-- A step of the deque in words is none, one or two steps of the other. -/
theorem Shows.step (shows : Shows s m) (inv : Inv s limit) (inv' : Deque.Inv m c held) {a : Label}
    (fits : unwrapped s a) (stepped : step s a = some t) : Follows m t := by
  unfold Words.step at stepped
  split at stepped
  · cases stepped
  · rename_i alive
    have alive' := shows.owner.alive (Bool.eq_false_of_not_eq_true alive)
    have one (a : Deque.Label) {next : Option Deque.State}
        (enabled : Deque.step m a = if m.owner.isFatal then none else next)
        (found : ∃ m', next = some m' ∧ Shows t m') : Follows m t := by
      obtain ⟨m', rfl, after⟩ := found
      rw [alive'] at enabled
      exact ⟨m', .next .start trivial enabled, after⟩
    cases a with
    | pushBottom item =>
      cases item with
      | none => exact one (.pushBottom none) rfl (shows.enter rfl stepped)
      | some item =>
        have entered := shows.enter (congrArg (Deque.OwnerPc.pushTop _) shows.bottom.symm) stepped
        exact one (.pushBottom (some item)) rfl entered
    | pushBottomBatch items fits =>
      have entered := shows.enter (congrArg (Deque.OwnerPc.pushTop _) shows.bottom.symm) stepped
      exact one (.pushBottomBatch items) rfl entered
    | popBottom =>
      refine one .popBottom rfl (shows.enter ?_ stepped)
      rw [apply_ite OwnerPc.plain, ← shows.pushOnly, ← shows.bottom]
      rfl
    | owner allocates => exact shows.ownerStep inv inv' fits stepped
    | steal i => exact one (.steal i) rfl (shows.stealIf stepped)
    | stealIf i vet => exact one (.stealIf i vet) rfl (shows.stealIf stepped)
    | thief i => exact one (.thief i) rfl (shows.thiefStep inv stepped)

/-- The ring of a new deque has a power of two of slots, and both start alike. -/
theorem construct_shows {capacity maxCapacity : Word} {allocates pushOnly : Bool} (hasFlag : Bool)
    (nonempty : capacity ≠ 0)
    (made : construct capacity maxCapacity allocates pushOnly = some s) :
    (∃ k, capacity.toNat = 2 ^ k) ∧
      Shows s (Deque.initial capacity.toNat maxCapacity.toNat pushOnly hasFlag) := by
  have inv := construct_inv nonempty made
  unfold construct at made
  split at made
  · cases made
  · rename_i test
    obtain ⟨ring, granted, rfl⟩ := Option.map_eq_some_iff.mp made
    obtain ⟨-, same⟩ := Option.ite_none_right_eq_some.mp granted
    cases same
    refine ⟨power_of_test (not_not.mp test) nonempty,
      ⟨rfl, rfl, rfl, fun r => ⟨inv.rings 0 Nat.one_pos, rfl, fun _ => rfl⟩, rfl, ?_, ?_, rfl, rfl,
        fun _ => rfl⟩⟩
    · simp only [BitVec.lt_def, apply_ite BitVec.toNat]
      rfl
    · show (maxCapacity != kDefaultMaxCapacity) = (maxCapacity.toNat != defaultMaxCapacity)
      rw [Bool.eq_iff_iff, bne_iff_ne, bne_iff_ne, ne_eq, ne_eq, ← BitVec.toNat_inj]
      rfl

/-- While no push takes `bottom_` to `2 ^ 64`, the deque in words is always where some run of the
deque with unbounded indices ends, and the log of that run is a history of the sequential deque. -/
theorem words_refine {capacity maxCapacity : Word} {allocates pushOnly : Bool} (hasFlag : Bool)
    {start : State} (nonempty : capacity ≠ 0)
    (made : construct capacity maxCapacity allocates pushOnly = some start)
    (reach : Reach Words.step unwrapped start s) :
    ∃ m, Reach Deque.step anyStep
        (Deque.initial capacity.toNat maxCapacity.toNat pushOnly hasFlag) m ∧
      Shows s m ∧ Linearized m := by
  obtain ⟨power, shows⟩ := construct_shows hasFlag nonempty made
  have follows : ∃ m, Reach Deque.step anyStep
      (Deque.initial capacity.toNat maxCapacity.toNat pushOnly hasFlag) m ∧ Shows s m := by
    refine reach.invariant_of (J := fun s => ∃ limit, Inv s limit) (I := fun s => ∃ m,
      Reach Deque.step anyStep _ m ∧ Shows s m)
      (fun before => reach_inv nonempty made (before.weaken fun _ => trivial)) ⟨_, .start, shows⟩ ?_
    rintro s t a ⟨limit, inv⟩ ⟨m, before, shows⟩ fits stepped
    obtain ⟨c, held, -, inv'⟩ := reach_replay power before
    obtain ⟨m', after, shows'⟩ := shows.step inv inv' fits stepped
    exact ⟨m', before.trans after, shows'⟩
  obtain ⟨m, before, shows⟩ := follows
  obtain ⟨c, held, replayed, inv'⟩ := reach_replay power before
  exact ⟨m, before, shows, inv'.linearized replayed⟩

end JLibSched.Deque.Words
