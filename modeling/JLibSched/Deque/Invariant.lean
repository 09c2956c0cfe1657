import JLibSched.Lib.Circular
import JLibSched.Deque.Model

/-!
# What a deque holds at every step

At every moment the deque holds a list of tasks that thieves may still take, at the indices
from `top` up to a limit, and at most one task that a pop has already claimed.  The limit is
`bottom`, except inside a pop that has lowered `bottom` and not yet decided: there it is one
more, since a thief that read the old `bottom` may still win the last task.

A thief has read `top` at some earlier moment.  `top` only grows, so what the thief knows is
needed only while `top` still has the value it read, and during that time the oldest task is
not moved: the owner's stores stay within one revolution of `top` (`Circular`), a grown-out
ring is never written again, and a pop cannot claim the task at `top` without changing `top`
(`ThiefInv.transfer`).
-/

namespace JLibSched.Deque

open Transition

/-! ## Tags -/

theorem untag_tag (item : TaskRef) : untag (tag item) = item.addr := by
  have aligned := item.aligned
  have keep : item.addr &&& ~~~ 3#64 = item.addr := by
    have split : (item.addr &&& 3#64) ||| (item.addr &&& ~~~ 3#64) = item.addr := by
      rw [← BitVec.and_or_distrib_left]
      exact BitVec.and_allOnes
    rw [aligned] at split
    simpa using split
  have code : (item.type.code &&& 3#64) &&& ~~~ 3#64 = 0#64 := by
    cases item.type <;> decide
  show (item.addr ||| (item.type.code &&& 3#64)) &&& ~~~ 3#64 = item.addr
  rw [BitVec.and_or_distrib_right, keep, code]
  simp

theorem tag_and_mask (item : TaskRef) : tag item &&& 3 = item.type.code := by
  have code : (item.type.code &&& 3#64) &&& 3#64 = item.type.code := by
    cases item.type <;> decide
  show (item.addr ||| (item.type.code &&& 3#64)) &&& 3#64 = item.type.code
  rw [BitVec.and_or_distrib_right, item.aligned, code]
  simp

theorem bits_tag (item : TaskRef) : bits (tag item) = some item.type := by
  unfold bits
  rw [tag_and_mask]
  cases item.type <;> decide

/-! ## Rings -/

/-- The tasks at the indices from `base` on. -/
def Holds (r : Ring) (base : Nat) (content : List TaskRef) : Prop :=
  ∀ k (h : k < content.length), r.load (base + k) = tag content[k]

theorem load_store_self (r : Ring) (i : Nat) (v : BitVec 64) : (r.store i v).load i = v := by
  simp [Ring.load, Ring.store, Ring.mask]

/-- A store leaves every other index of the same revolution alone. -/
theorem load_store_of_ne {r : Ring} (base : Nat) {i j : Nat} {v : BitVec 64}
    (power : ∃ k, r.capacity = 2 ^ k) (low : base ≤ i) (high : i < base + r.capacity)
    (low' : base ≤ j) (high' : j < base + r.capacity) (different : i ≠ j) :
    (r.store i v).load j = r.load j := by
  have places := Circular.mod_ne_of_ne low high low' high' different
  rw [← Circular.and_pred_eq_mod i power, ← Circular.and_pred_eq_mod j power] at places
  simp [Ring.load, Ring.store, Ring.mask, Function.update_of_ne places.symm]

@[simp] theorem store_capacity (r : Ring) (i : Nat) (v : BitVec 64) :
    (r.store i v).capacity = r.capacity := rfl

/-! ## The invariant -/

/-- Thieves may take the tasks below this index. -/
def OwnerPc.limit (bottom : Nat) : OwnerPc → Nat
  | .popReload b | .lastRing b | .lastSlot b _ | .lastCas b _ | .lastRestore b _ => b + 1
  | .popRestore t => t
  | _ => bottom

/-- What a push keeps while it works from the `bottom` and `top` it read. -/
structure Pushing (s : State) (held : List TaskRef) (op : Push) (b t : Nat) : Prop where
  held : held = []
  bottom : b = s.bottom
  top : t ≤ s.top
  room : b ≤ t + s.cur.capacity
  single : op.batch = false → op.items.length ≤ 1

/-- The ring under construction has the old ring's tasks up to index `i`. -/
structure Growing (s : State) (b t new i : Nat) : Prop where
  fresh : s.ring < new
  made : new < s.made
  capacity : (s.rings new).capacity = s.cur.capacity * 2
  low : t ≤ i
  high : i ≤ b
  copied : ∀ j, t ≤ j → j < i → (s.rings new).load j = s.cur.load j

/-- The answer of a pop and the task it claimed. -/
def Claims (result : Option Ptr) (held : List TaskRef) : Prop :=
  match result with
  | none => held = []
  | some item => ∃ x, held = [x] ∧ x.addr = item

/-- What the owner's place says. -/
def OwnerInv (s : State) (c held : List TaskRef) : OwnerPc → Prop
  | .idle => held = []
  | .pushTop op b => held = [] ∧ b = s.bottom ∧ (op.batch = false → op.items.length ≤ 1)
  | .pushRing op b t => Pushing s held op b t
  | .growLoad op b t new i => Pushing s held op b t ∧ Growing s b t new i ∧ i < b
  | .growStore op b t new i v =>
    Pushing s held op b t ∧ Growing s b t new i ∧ i < b ∧ v = s.cur.load i
  | .growPublish op b t new => Pushing s held op b t ∧ Growing s b t new b
  | .pushReload op b t =>
    Pushing s held op b t ∧ b + op.items.length ≤ t + s.cur.capacity
  | .pushSlot op b t r k =>
    Pushing s held op b t ∧ b + op.items.length ≤ t + s.cur.capacity ∧ r = s.ring ∧
      k < op.items.length ∧ Holds s.cur b (op.items.take k)
  | .pushBottom op b =>
    held = [] ∧ b = s.bottom ∧ b + op.items.length ≤ s.top + s.cur.capacity ∧
      Holds s.cur b op.items
  | .pushFlag => held = []
  | .popTop b => held = [] ∧ b = s.bottom
  | .popStore b => held = [] ∧ b + 1 = s.bottom
  | .popReload b => held = [] ∧ s.bottom = b
  | .popRing b => s.bottom = b ∧ ∃ x, held = [x] ∧ s.cur.load b = tag x
  | .popSlot b r => s.bottom = b ∧ r = s.ring ∧ ∃ x, held = [x] ∧ s.cur.load b = tag x
  | .lastRing b => held = [] ∧ s.bottom = b ∧ b ≤ s.top
  | .lastSlot b r => held = [] ∧ s.bottom = b ∧ b ≤ s.top ∧ r = s.ring
  | .lastCas b v =>
    held = [] ∧ s.bottom = b ∧ b ≤ s.top ∧ (s.top = b → ∀ x ∈ c.head?, v = tag x)
  | .lastRestore b result => s.bottom = b ∧ s.top = b + 1 ∧ Claims result held
  | .popRestore t => held = [] ∧ t = s.top ∧ s.bottom ≤ t
  | .popFlag result => s.top = s.bottom ∧ Claims result held
  | .fatal => held = []

/-- What a thief knows, while `top` is still the value it read. -/
def ThiefInv (s : State) (c : List TaskRef) : ThiefPc → Prop
  | .idle => True
  | .bottom _ t => t ≤ s.top
  | .ring _ t => t ≤ s.top ∧ (t = s.top → c ≠ [])
  | .slot _ t r =>
    t ≤ s.top ∧ r ≤ s.ring ∧ (t = s.top → ∃ x ∈ c.head?, (s.rings r).load t = tag x)
  | .cas vet t v => t ≤ s.top ∧ (t = s.top → ∃ x ∈ c.head?, v = tag x ∧ vet x.type)

/-- The deque holds `c`, oldest first, for thieves to take, and `held` is claimed by a pop. -/
structure Inv (s : State) (c held : List TaskRef) : Prop where
  power : ∀ r < s.made, ∃ k, (s.rings r).capacity = 2 ^ k
  ring : s.ring < s.made
  limit : s.top + c.length = s.owner.limit s.bottom
  bottom : s.bottom ≤ s.owner.limit s.bottom
  fits : s.owner.limit s.bottom ≤ s.top + s.cur.capacity
  holds : Holds s.cur s.top c
  owner : OwnerInv s c held s.owner
  thief : ∀ i, ThiefInv s c (s.thief i)

/-- How a step moves the content: not at all, or as the logged event says. -/
def Moves (s : State) (content : List TaskRef) (t : State) (content' : List TaskRef) : Prop :=
  (t.log = s.log ∧ content' = content) ∨
    ∃ e, t.log = s.log ++ [e] ∧ applyEvent content e = some content'

/-- A thief's knowledge survives a step of somebody else that leaves the oldest task in its
place for as long as `top` does not move. -/
theorem ThiefInv.transfer {s u : State} {c c' : List TaskRef} {pc : ThiefPc}
    (inv : ThiefInv s c pc) (top : s.top ≤ u.top) (ring : s.ring ≤ u.ring)
    (head : u.top = s.top → ∀ x ∈ c.head?, x ∈ c'.head?)
    (loads : u.top = s.top → c ≠ [] → ∀ r ≤ s.ring,
      (u.rings r).load s.top = (s.rings r).load s.top) :
    ThiefInv u c' pc := by
  have still {t : Nat} (low : t ≤ s.top) (now : t = u.top) : u.top = s.top ∧ t = s.top := by
    omega
  cases pc with
  | idle => trivial
  | bottom vet t => exact Nat.le_trans inv top
  | ring vet t =>
    refine ⟨Nat.le_trans inv.1 top, fun now => ?_⟩
    obtain ⟨same, before⟩ := still inv.1 now
    obtain ⟨x, rest, shape⟩ := List.exists_cons_of_ne_nil (inv.2 before)
    have kept := head same x (by simp [shape])
    intro none
    simp [none] at kept
  | slot vet t r =>
    refine ⟨Nat.le_trans inv.1 top, Nat.le_trans inv.2.1 ring, fun now => ?_⟩
    obtain ⟨same, before⟩ := still inv.1 now
    obtain ⟨x, oldest, loaded⟩ := inv.2.2 before
    have nonempty : c ≠ [] := by
      intro none
      simp [none] at oldest
    refine ⟨x, head same x oldest, ?_⟩
    rw [before, loads same nonempty r inv.2.1, ← before, loaded]
  | cas vet t v =>
    refine ⟨Nat.le_trans inv.1 top, fun now => ?_⟩
    obtain ⟨same, before⟩ := still inv.1 now
    obtain ⟨x, oldest, loaded⟩ := inv.2 before
    exact ⟨x, head same x oldest, loaded⟩

end JLibSched.Deque
