import JLibSched.IO.Acceptor

/-!
# Which descriptors the acceptor hands out

When the kernel completes every accept with the number that `MakeSocket` gave the slot, the
socket `OnComplete` hands out is the one that was accepted.  Then each completed accept stands
in one place until it is delivered or closed, and nothing else is (`Balanced`).

With any other number, or when an accept is refused, fails or is cancelled, the acceptor hands
out, or closes, a descriptor it gave away when it posted the slot.
-/

namespace JLibSched.Acceptor

open Transition

variable {depth : Nat} {s t : State depth} {a : Label depth}

/-! ## Books that balance -/

def Holder.isAccepted : Holder → Bool
  | .accepted _ => true
  | _ => false

theorem Holder.isAccepted_iff {h : Holder} : h.isAccepted = true ↔ ∃ k, h = .accepted k := by
  cases h <;> simp [Holder.isAccepted]

/-- Each completed accept is settled once, or held under one number in one place. -/
structure Balanced (b : Books) (places : Nat → Nat) : Prop where
  places : ∀ fd, places fd = (b.holder fd).isAccepted.toNat
  unique : ∀ fd fd' k, b.holder fd = .accepted k → b.holder fd' = .accepted k → fd = fd'
  unsettled : ∀ fd k, b.holder fd = .accepted k → k < b.accepts ∧ b.settled k = 0
  held : ∀ k < b.accepts, b.settled k = 0 → ∃ fd, b.holder fd = .accepted k
  once : ∀ k, b.settled k ≤ 1
  known : ∀ k, b.settled k ≠ 0 → k < b.accepts
  delivered : ∀ e ∈ b.deliveries, ∃ k, e.2 = .accepted k
  owned : ∀ e ∈ b.closes, e.2 = .made ∨ ∃ k, e.2 = .accepted k

theorem eventsOf_append (k : Nat) (events : List (Nat × Holder)) (e : Nat × Holder) :
    eventsOf k (events ++ [e]) = eventsOf k events + if e.2 = .accepted k then 1 else 0 := by
  simp [eventsOf, List.countP_append, List.countP_cons]

theorem Books.settled_close (b : Books) (fd k : Nat) :
    (b.close fd).settled k = b.settled k + if b.holder fd = .accepted k then 1 else 0 := by
  simp only [Books.settled, Books.close, eventsOf_append]
  omega

theorem Books.settled_deliver (b : Books) (fd k : Nat) :
    (b.deliver fd).settled k = b.settled k + if b.holder fd = .accepted k then 1 else 0 := by
  simp only [Books.settled, Books.deliver, eventsOf_append]
  omega

/-- A descriptor that is not an accepted one changes hands. -/
theorem Balanced.set {b : Books} {places : Nat → Nat} {fd : Nat} {holder : Holder}
    (balanced : Balanced b places) (before : (b.holder fd).isAccepted = false)
    (after : holder.isAccepted = false) : Balanced (b.set fd holder) places := by
  have same (x k : Nat) : (b.set fd holder).holder x = .accepted k ↔ b.holder x = .accepted k := by
    rcases eq_or_ne x fd with rfl | other
    · simp only [Books.set, Function.update_self]
      constructor <;> intro here
      · rw [here] at after
        cases after
      · rw [here] at before
        cases before
    · simp only [Books.set, Function.update_of_ne other]
  refine ⟨fun x => ?_, fun x y k mine yours => ?_, fun x k here => ?_, fun k bound none => ?_,
    balanced.once, balanced.known, balanced.delivered, balanced.owned⟩
  · rw [balanced.places x]
    rcases eq_or_ne x fd with rfl | other
    · simp only [Books.set, Function.update_self, before, after]
    · simp only [Books.set, Function.update_of_ne other]
  · exact balanced.unique x y k ((same x k).mp mine) ((same y k).mp yours)
  · exact balanced.unsettled x k ((same x k).mp here)
  · obtain ⟨x, here⟩ := balanced.held k bound none
    exact ⟨x, (same x k).mpr here⟩

/-- The acceptor closes a socket it made. -/
theorem Balanced.close_made {b : Books} {places : Nat → Nat} {fd : Nat}
    (balanced : Balanced b places) (made : b.holder fd = .made) : Balanced (b.close fd) places := by
  have moved : Balanced (b.set fd .nobody) places := balanced.set (by rw [made]; rfl) rfl
  have settled (k : Nat) : (b.close fd).settled k = b.settled k := by
    rw [b.settled_close]
    simp [made]
  refine ⟨moved.places, moved.unique, fun x k here => ?_, fun k bound none => ?_, fun k => ?_,
    fun k some => ?_, balanced.delivered, fun e mem => ?_⟩
  · rw [settled]
    exact moved.unsettled x k here
  · rw [settled] at none
    exact moved.held k bound none
  · rw [settled]
    exact balanced.once k
  · rw [settled] at some
    exact balanced.known k some
  · rcases List.mem_append.mp mem with before | now
    · exact balanced.owned e before
    · rw [List.mem_singleton] at now
      rw [now]
      exact .inl made

theorem Balanced.congr {b : Books} {places places' : Nat → Nat} (balanced : Balanced b places)
    (same : ∀ fd, places' fd = places fd) : Balanced b places' :=
  (funext same : places' = places) ▸ balanced

/-- An accepted descriptor is delivered or closed: one place less, and settled. -/
theorem Balanced.settle {b b' : Books} {places places' : Nat → Nat} {fd k : Nat} {holder : Holder}
    (balanced : Balanced b places) (here : b.holder fd = .accepted k)
    (holders : b'.holder = Function.update b.holder fd holder)
    (after : holder.isAccepted = false) (accepts : b'.accepts = b.accepts)
    (settled : ∀ j, b'.settled j = b.settled j + if b.holder fd = .accepted j then 1 else 0)
    (moved : ∀ x, places' x + (if x = fd then 1 else 0) = places x)
    (delivered : ∀ e ∈ b'.deliveries, ∃ k, e.2 = .accepted k)
    (owned : ∀ e ∈ b'.closes, e.2 = .made ∨ ∃ k, e.2 = .accepted k) : Balanced b' places' := by
  have gone (x j : Nat) : b'.holder x = .accepted j ↔ x ≠ fd ∧ b.holder x = .accepted j := by
    rw [holders]
    rcases eq_or_ne x fd with rfl | other
    · rw [Function.update_self]
      constructor
      · intro now
        rw [now] at after
        cases after
      · exact fun absurd => (absurd.1 rfl).elim
    · rw [Function.update_of_ne other]
      exact ⟨fun now => ⟨other, now⟩, fun now => now.2⟩
  have now (j : Nat) (other : j ≠ k) : b'.settled j = b.settled j := by
    rw [settled, here]
    simp [other.symm]
  have one : b'.settled k = 1 := by
    rw [settled, here, (balanced.unsettled fd k here).2]
    simp
  refine ⟨fun x => ?_, fun x y j mine yours => ?_, fun x j mine => ?_, fun j bound none => ?_,
    fun j => ?_, fun j some => ?_, delivered, owned⟩
  · have before := balanced.places x
    have step := moved x
    rw [holders]
    rcases eq_or_ne x fd with rfl | other
    · rw [Function.update_self, after]
      rw [here] at before
      simp only [if_true, Holder.isAccepted, Bool.toNat_true] at step before
      simp only [Bool.toNat_false]
      omega
    · rw [Function.update_of_ne other]
      simp only [other, if_false] at step
      omega
  · exact balanced.unique x y j ((gone x j).mp mine).2 ((gone y j).mp yours).2
  · obtain ⟨other, before⟩ := (gone x j).mp mine
    obtain ⟨bound, none⟩ := balanced.unsettled x j before
    have apart : j ≠ k := by
      rintro rfl
      exact other (balanced.unique x fd j before here)
    rw [now j apart, accepts]
    exact ⟨bound, none⟩
  · rcases eq_or_ne j k with rfl | other
    · omega
    · rw [accepts] at bound
      rw [now j other] at none
      obtain ⟨x, before⟩ := balanced.held j bound none
      refine ⟨x, (gone x j).mpr ⟨?_, before⟩⟩
      rintro rfl
      rw [here] at before
      cases before
      exact other rfl
  · rcases eq_or_ne j k with rfl | other
    · omega
    · rw [now j other]
      exact balanced.once j
  · rw [accepts]
    rcases eq_or_ne j k with rfl | other
    · exact (balanced.unsettled fd j here).1
    · rw [now j other] at some
      exact balanced.known j some

/-- What is somewhere was accepted. -/
theorem Balanced.accepted {b : Books} {places : Nat → Nat} {fd : Nat}
    (balanced : Balanced b places) (here : places fd ≠ 0) : ∃ k, b.holder fd = .accepted k := by
  refine Holder.isAccepted_iff.mp ?_
  have count := balanced.places fd
  cases known : (b.holder fd).isAccepted with
  | true => rfl
  | false =>
    rw [known, Bool.toNat_false] at count
    exact absurd count here

theorem Balanced.close {b : Books} {places places' : Nat → Nat} {fd : Nat}
    (balanced : Balanced b places) (here : places fd ≠ 0)
    (moved : ∀ x, places' x + (if x = fd then 1 else 0) = places x) :
    Balanced (b.close fd) places' := by
  obtain ⟨k, accepted⟩ := balanced.accepted here
  refine balanced.settle accepted rfl rfl rfl (b.settled_close fd) moved balanced.delivered
    fun e mem => ?_
  rcases List.mem_append.mp mem with before | now
  · exact balanced.owned e before
  · rw [List.mem_singleton] at now
    rw [now]
    exact .inr ⟨k, accepted⟩

theorem Balanced.deliver {b : Books} {places places' : Nat → Nat} {fd : Nat}
    (balanced : Balanced b places) (here : places fd ≠ 0)
    (moved : ∀ x, places' x + (if x = fd then 1 else 0) = places x) :
    Balanced (b.deliver fd) places' := by
  obtain ⟨k, accepted⟩ := balanced.accepted here
  have taken : (b.deliver fd).holder = Function.update b.holder fd (.taken k) := by
    simp only [Books.deliver, accepted]
  refine balanced.settle accepted taken rfl rfl (b.settled_deliver fd) moved
    (fun e mem => ?_) balanced.owned
  · rcases List.mem_append.mp mem with before | now
    · exact balanced.delivered e before
    · rw [List.mem_singleton] at now
      rw [now]
      exact ⟨k, accepted⟩

theorem Balanced.accept {b : Books} {places places' : Nat → Nat} {fd : Nat}
    (balanced : Balanced b places) (free : b.holder fd = .nobody)
    (moved : ∀ x, places' x = places x + if x = fd then 1 else 0) :
    Balanced (b.accept fd) places' := by
  have settled (k : Nat) : (b.accept fd).settled k = b.settled k := rfl
  have fresh : b.settled b.accepts = 0 := by
    by_contra some
    exact Nat.lt_irrefl _ (balanced.known _ some)
  have holds (x k : Nat) : (b.accept fd).holder x = .accepted k ↔
      (x = fd ∧ k = b.accepts) ∨ (x ≠ fd ∧ b.holder x = .accepted k) := by
    rcases eq_or_ne x fd with rfl | other
    · simp [Books.accept, eq_comm]
    · simp [Books.accept, other]
  refine ⟨fun x => ?_, fun x y k mine yours => ?_, fun x k here => ?_, fun k bound none => ?_,
    balanced.once, fun k some => Nat.lt_succ_of_lt (balanced.known k some), balanced.delivered,
    balanced.owned⟩
  · have before := balanced.places x
    have step := moved x
    rcases eq_or_ne x fd with rfl | other
    · rw [free] at before
      simp only [Holder.isAccepted, Bool.toNat_false, if_true] at before step
      simp only [Books.accept, Function.update_self, Holder.isAccepted, Bool.toNat_true]
      omega
    · simp only [other, if_false] at step
      simp only [Books.accept, Function.update_of_ne other]
      omega
  · rcases (holds x k).mp mine with ⟨first, number⟩ | ⟨-, before⟩ <;>
      rcases (holds y k).mp yours with ⟨second, number'⟩ | ⟨-, before'⟩
    · rw [first, second]
    · have bound := (balanced.unsettled y k before').1
      omega
    · have bound := (balanced.unsettled x k before).1
      omega
    · exact balanced.unique x y k before before'
  · rw [settled]
    rcases (holds x k).mp here with ⟨rfl, rfl⟩ | ⟨other, before⟩
    · exact ⟨Nat.lt_succ_self _, fresh⟩
    · obtain ⟨bound, none⟩ := balanced.unsettled x k before
      exact ⟨Nat.lt_succ_of_lt bound, none⟩
  · rcases Nat.lt_succ_iff_lt_or_eq.mp bound with old | now
    · obtain ⟨x, before⟩ := balanced.held k old none
      refine ⟨x, (holds x k).mpr (.inr ⟨?_, before⟩)⟩
      rintro rfl
      rw [free] at before
      cases before
    · exact ⟨fd, (holds fd k).mpr (.inl ⟨rfl, now⟩)⟩

theorem accounted_of_balanced (balanced : Balanced s.books (places s)) : Accounted s where
  delivered := balanced.delivered
  once := balanced.once
  held k bound none := by
    obtain ⟨fd, here⟩ := balanced.held k bound none
    exact ⟨fd, here, by rw [balanced.places fd, here]; rfl⟩
  owned := balanced.owned

/-! ## Places -/

theorem places_setSlot (s : State depth) (i : Fin depth) (slot : Slot) (fd : Nat) :
    places (s.setSlot i slot) fd + (s.slot i).pc.held.count fd =
      places s fd + slot.pc.held.count fd := by
  have sums := sum_update (fun x : Slot => x.pc.held.count fd) s.slot i slot
  simp only [places, State.setSlot]
  omega

/-- A slot goes on without taking or giving up a descriptor. -/
theorem places_setSlot_same (s : State depth) {i : Fin depth} {slot : Slot}
    (same : slot.pc.held = (s.slot i).pc.held) : places (s.setSlot i slot) = places s := by
  funext fd
  have moved := places_setSlot s i slot fd
  rw [same] at moved
  omega

theorem getLast_count {l : List Nat} {fd : Nat} (last : l.getLast? = some fd) (x : Nat) :
    l.dropLast.count x + (if x = fd then 1 else 0) = l.count x := by
  obtain ⟨init, rfl⟩ := List.getLast?_eq_some_iff.mp last
  rw [List.dropLast_concat, List.count_append]
  rcases eq_or_ne x fd with rfl | other
  · simp
  · simp [other, other.symm]

/-! ## The slots -/

/-- The socket made for the slot has not been closed. -/
def SlotPc.given : SlotPc → Bool
  | .count | .closeGiven => true
  | _ => false

/-- What holds of a slot when every accept is taken and completes with its own number. -/
structure SlotOk (b : Books) (slot : Slot) : Prop where
  made : slot.pc.given = true → b.holder slot.sock = .made
  same : ∀ result, slot.pc = .completed result → result = some slot.sock
  number : slot.pc = .pending ∨ slot.pc = .submit ∨ slot.pc.given = true ∨
    (∃ result, slot.pc = .completed result) → slot.sock ≠ 0
  taken : slot.pc ≠ .uncount ∧ slot.pc ≠ .closeRefused

structure Inv (s : State depth) : Prop where
  balanced : Balanced s.books (places s)
  slots : ∀ i, SlotOk s.books (s.slot i)
  apart : ∀ i j, (s.slot i).pc.given = true → (s.slot j).pc.given = true →
    (s.slot i).sock = (s.slot j).sock → i = j

theorem initial_inv (depth : Nat) (isOpen : Nat → Bool) : Inv (initial depth isOpen) := by
  have outside (fd : Nat) : ((initial depth isOpen).books.holder fd).isAccepted = false := by
    simp only [initial]
    split <;> rfl
  have none (fd k : Nat) : (initial depth isOpen).books.holder fd ≠ .accepted k := by
    intro here
    have wrong := outside fd
    rw [here] at wrong
    cases wrong
  refine ⟨⟨fun fd => ?_, fun fd fd' k here => absurd here (none fd k),
    fun fd k here => absurd here (none fd k), fun k bound => absurd bound (Nat.not_lt_zero k),
    fun k => Nat.zero_le 1, fun k some => absurd rfl some, fun e mem => (by cases mem),
    fun e mem => (by cases mem)⟩, fun i => ?_, fun i j given => (by cases given)⟩
  · rw [outside]
    simp [places, initial, SlotPc.held, StopPc.held]
  · exact ⟨fun given => (by cases given), fun result here => (by cases here),
      fun here => (by simp [initial, SlotPc.given] at here), ⟨by simp [initial], by simp [initial]⟩⟩

/-! ## Steps -/

theorem SlotOk.books {b b' : Books} {slot : Slot} (ok : SlotOk b slot)
    (made : slot.pc.given = true → b'.holder slot.sock = .made) : SlotOk b' slot :=
  ⟨made, ok.same, ok.number, ok.taken⟩

/-- One slot moves. -/
theorem Inv.slot (inv : Inv s) {i : Fin depth} {slot : Slot}
    (slots : t.slot = Function.update s.slot i slot) (balanced : Balanced t.books (places t))
    (ok : SlotOk t.books slot)
    (kept : ∀ j, j ≠ i → (s.slot j).pc.given = true → t.books.holder (s.slot j).sock = .made)
    (fresh : slot.pc.given = true → ∀ j, j ≠ i → (s.slot j).pc.given = true →
      (s.slot j).sock ≠ slot.sock) : Inv t := by
  refine ⟨balanced, fun j => ?_, fun j k mine yours same => ?_⟩
  · rw [slots]
    rcases eq_or_ne j i with rfl | other
    · rw [Function.update_self]
      exact ok
    · rw [Function.update_of_ne other]
      exact (inv.slots j).books (kept j other)
  · rw [slots] at mine yours same
    rcases eq_or_ne j i with rfl | other <;> rcases eq_or_ne k j with rfl | apart
    · rfl
    · rw [Function.update_self] at mine same
      rw [Function.update_of_ne apart] at yours same
      exact absurd same.symm (fresh mine k apart yours)
    · rfl
    · rw [Function.update_of_ne other] at mine same
      rcases eq_or_ne k i with rfl | other'
      · rw [Function.update_self] at yours same
        exact absurd same (fresh yours j other mine)
      · rw [Function.update_of_ne other'] at yours same
        exact inv.apart j k mine yours same

/-- No slot moves. -/
theorem Inv.others (inv : Inv s) (slots : t.slot = s.slot)
    (balanced : Balanced t.books (places t))
    (kept : ∀ j, (s.slot j).pc.given = true → t.books.holder (s.slot j).sock = .made) : Inv t := by
  refine ⟨balanced, fun j => ?_, fun j k => ?_⟩
  · rw [slots]
    exact (inv.slots j).books (kept j)
  · rw [slots]
    exact inv.apart j k

/-- A change to a descriptor that no slot was given keeps the others. -/
theorem Inv.kept (inv : Inv s) {fd : Nat} {holder : Holder} (unmade : s.books.holder fd ≠ .made)
    (j : Fin depth) (given : (s.slot j).pc.given = true) :
    Function.update s.books.holder fd holder (s.slot j).sock = .made := by
  have made := (inv.slots j).made given
  rw [Function.update_of_ne]
  · exact made
  · rintro rfl
    exact unmade made

theorem Books.holder_deliver (b : Books) (fd : Nat) :
    (b.deliver fd).holder = b.holder ∨ b.holder fd ≠ .made ∧
      ∃ holder, (b.deliver fd).holder = Function.update b.holder fd holder := by
  cases here : b.holder fd with
  | accepted k => exact .inr ⟨by simp, .taken k, by simp [Books.deliver, here]⟩
  | _ => exact .inl (by simp [Books.deliver, here])

theorem Inv.kept_deliver (inv : Inv s) {fd : Nat} (j : Fin depth)
    (given : (s.slot j).pc.given = true) :
    (s.books.deliver fd).holder (s.slot j).sock = .made := by
  rcases s.books.holder_deliver fd with same | ⟨unmade, holder, changed⟩
  · rw [same]
    exact (inv.slots j).made given
  · rw [changed]
    exact inv.kept unmade j given

/-- Whatever stands in a place is not a made socket. -/
theorem Inv.placed (inv : Inv s) {fd : Nat} (here : places s fd ≠ 0) :
    s.books.holder fd ≠ .made := by
  intro made
  have count := inv.balanced.places fd
  rw [made] at count
  exact here count

theorem ready_place {fd : Nat} (last : s.ready.getLast? = some fd) : places s fd ≠ 0 := by
  have mem : fd ∈ s.ready := List.mem_of_getLast? last
  have positive := List.count_pos_iff.mpr mem
  unfold places
  omega

theorem held_place {i : Fin depth} {fd : Nat} (mem : fd ∈ (s.slot i).pc.held) :
    places s fd ≠ 0 := by
  have mine := le_sum (fun x : Slot => x.pc.held.count fd) s.slot i
  have positive := List.count_pos_iff.mpr mem
  unfold places
  omega

theorem Inv.take (inv : Inv s) {fd : Nat} (last : s.ready.getLast? = some fd) :
    Inv { s with books := s.books.deliver fd, ready := s.ready.dropLast } := by
  refine inv.others rfl ?_ fun j given => inv.kept_deliver j given
  refine inv.balanced.deliver (ready_place last) fun x => ?_
  have moved := getLast_count last x
  simp only [places]
  omega

theorem Inv.stopStep (inv : Inv s) (stepped : stopStep s = some t) : Inv t := by
  unfold Acceptor.stopStep at stepped
  split at stepped
  · cases stepped
  · rename_i here
    cases stepped
    refine inv.others rfl ?_ fun j given => (inv.slots j).made given
    have same : places { s with waiting := [], stop := .cancelScope } = places s := by
      funext fd
      simp [places, here, StopPc.held]
    rw [same]
    exact inv.balanced
  · rename_i here
    cases stepped
    refine inv.others rfl ?_ fun j given => (inv.slots j).made given
    have same : places { s with scopeCancelled := true, stop := .wait } = places s := by
      funext fd
      simp [places, here, StopPc.held]
    rw [same]
    exact inv.balanced
  · rename_i here
    cases stepped
    refine inv.others rfl ?_ fun j given => (inv.slots j).made given
    have same : places { s with ready := [], stop := .closeLeftovers s.ready } = places s := by
      funext fd
      simp [places, here, StopPc.held]
    rw [same]
    exact inv.balanced
  · rename_i fd leftovers here
    cases stepped
    have place : places s fd ≠ 0 := by
      simp only [places, here, StopPc.held, List.count_cons_self]
      omega
    refine inv.others rfl ?_ fun j given => inv.kept (inv.placed place) j given
    refine inv.balanced.close place fun x => ?_
    simp only [places, here, StopPc.held, List.count_cons]
    rcases eq_or_ne x fd with rfl | other
    · simp
      omega
    · simp [other, other.symm]
  · cases stepped


/-- A slot that goes on with the same socket and nothing to close or hand out. -/
theorem Inv.goto (inv : Inv s) {i : Fin depth} {pc : SlotPc}
    (held : pc.held = (s.slot i).pc.held) (given : pc.given = true → (s.slot i).pc.given = true)
    (ok : SlotOk s.books { s.slot i with pc := pc }) : Inv (s.goto i pc) := by
  refine inv.slot rfl ?_ ok (fun j _ mine => (inv.slots j).made mine) ?_
  · have same : places (s.goto i pc) = places s := places_setSlot_same s held
    rw [same]
    exact inv.balanced
  · intro mine j other yours same
    exact other (inv.apart j i yours (given mine) same)

/-- A slot with no open socket of its own satisfies all but what its place asks. -/
theorem SlotOk.plain {b : Books} {slot : Slot} (given : slot.pc.given = false)
    (same : ∀ result, slot.pc ≠ .completed result)
    (number : slot.pc = .pending ∨ slot.pc = .submit → slot.sock ≠ 0)
    (taken : slot.pc ≠ .uncount ∧ slot.pc ≠ .closeRefused) : SlotOk b slot := by
  refine ⟨fun absurd => ?_, fun result here => absurd here (same result), fun here => ?_, taken⟩
  · rw [given] at absurd
    cases absurd
  · rcases here with here | here | here | ⟨result, here⟩
    · exact number (.inl here)
    · exact number (.inr here)
    · rw [given] at here
      cases here
    · exact absurd here (same result)



/-- What `OnComplete` does with the slot's socket: it goes to `ready`, to a waiter, or is closed. -/
theorem onComplete_cases (s : State depth) (i : Fin depth) (result : Option Nat) :
    (∃ skipped, onComplete s i result =
      { s with
        outstanding := s.outstanding - 1
        waiting := []
        ready := s.ready ++ [(s.slot i).sock] }.setSlot i
        { s.slot i with sock := 0, pc := .skip skipped }) ∨
    (∃ w rest skipped, onComplete s i result =
      { s with outstanding := s.outstanding - 1, waiting := rest }.setSlot i
        { s.slot i with sock := 0, pc := .hand (s.slot i).sock w skipped }) ∨
    onComplete s i result =
      { s with outstanding := s.outstanding - 1 }.setSlot i
        { s.slot i with
          sock := 0
          pc := if (s.slot i).sock = 0 then .idle else .closeUnkept (s.slot i).sock } := by
  simp only [onComplete]
  split
  · cases s.waiting.dropWhile fun w => s.cancelled w.token with
    | nil => exact .inl ⟨_, rfl⟩
    | cons w rest => exact .inr (.inl ⟨w, rest, _, rfl⟩)
  · exact .inr (.inr rfl)

/-- `OnComplete` reads the slot's socket, which is the accepted one. -/
theorem Inv.onComplete (inv : Inv s) {i : Fin depth} {result : Option Nat}
    (here : (s.slot i).pc = .completed result) : Inv (onComplete s i result) := by
  have ok := inv.slots i
  have number : (s.slot i).sock ≠ 0 := ok.number (.inr (.inr (.inr ⟨result, here⟩)))
  have held : (s.slot i).pc.held = [(s.slot i).sock] := by
    rw [here, ok.same result here]
    rfl
  have kept (j : Fin depth) (given : (s.slot j).pc.given = true) :
      s.books.holder (s.slot j).sock = .made := (inv.slots j).made given
  have moved (slot : Slot) (fd : Nat) := places_setSlot s i slot fd
  rw [held] at moved
  rcases onComplete_cases s i result with ⟨skipped, after⟩ | ⟨w, rest, skipped, after⟩ | after
  · rw [after]
    refine inv.slot rfl ?_ (.plain rfl (by simp) (by simp) (by simp)) (fun j _ => kept j)
      (fun absurd => by cases absurd)
    -- from the slot to `ready`
    refine inv.balanced.congr fun fd => ?_
    have one := moved { s.slot i with sock := 0, pc := .skip skipped } fd
    simp only [places, State.setSlot, SlotPc.held, List.count_append, List.count_nil] at one ⊢
    omega
  · rw [after]
    refine inv.slot rfl ?_ (.plain rfl (by simp) (by simp) (by simp)) (fun j _ => kept j)
      (fun absurd => by cases absurd)
    refine inv.balanced.congr fun fd => ?_
    have one := moved { s.slot i with sock := 0, pc := .hand (s.slot i).sock w skipped } fd
    simp only [places, State.setSlot, SlotPc.held] at one ⊢
    omega
  · rw [after, if_neg number]
    refine inv.slot rfl ?_ (.plain rfl (by simp) (by simp) (by simp)) (fun j _ => kept j)
      (fun absurd => by cases absurd)
    refine inv.balanced.congr fun fd => ?_
    have one := moved { s.slot i with sock := 0, pc := .closeUnkept (s.slot i).sock } fd
    simp only [places, State.setSlot, SlotPc.held] at one ⊢
    omega

/-- A slot settles the one descriptor it holds. -/
theorem Inv.settled (inv : Inv s) {i : Fin depth} {fd : Nat} {pc : SlotPc} {books : Books}
    (held : (s.slot i).pc.held = [fd]) (after : pc.held = [])
    (balanced : ∀ places' : Nat → Nat, (∀ x, places' x + (if x = fd then 1 else 0) = places s x) →
      Balanced books places')
    (ok : SlotOk books { s.slot i with pc := pc }) (given : pc.given = false)
    (kept : ∀ j, (s.slot j).pc.given = true → books.holder (s.slot j).sock = .made) :
    Inv ({ s with books := books }.goto i pc) := by
  refine inv.slot rfl (balanced _ fun x => ?_) ok (fun j _ => kept j) fun absurd => ?_
  · have one := places_setSlot s i { s.slot i with pc := pc } x
    rw [held, after, List.count_nil, List.count_singleton] at one
    simp only [places, State.goto, State.setSlot, beq_iff_eq] at one ⊢
    rcases eq_or_ne x fd with rfl | other
    · simpa using one
    · simpa [other, other.symm] using one
  · rw [given] at absurd
    cases absurd

theorem Inv.slotStep (inv : Inv s) {i : Fin depth} (stepped : slotStep s i = some t) : Inv t := by
  have ok := inv.slots i
  unfold Acceptor.slotStep at stepped
  cases here : (s.slot i).pc with
  | count =>
    rw [here] at stepped
    cases stepped
    have given : (s.slot i).pc.given = true := by rw [here]; rfl
    have counted : Inv { s with outstanding := s.outstanding + 1 } :=
      inv.others rfl inv.balanced fun j mine => (inv.slots j).made mine
    exact counted.goto (by rw [here]; rfl) (fun _ => given)
      ⟨fun _ => ok.made given, fun _ absurd => (by cases absurd),
        fun _ => ok.number (.inr (.inr (.inl given))), by simp⟩
  | closeGiven =>
    rw [here] at stepped
    cases stepped
    have given : (s.slot i).pc.given = true := by rw [here]; rfl
    have made := ok.made given
    refine inv.slot rfl ?_ (.plain rfl (by simp) (fun _ => ok.number (.inr (.inr (.inl given))))
      (by simp)) (fun j other mine => ?_) (fun absurd => by cases absurd)
    · refine (inv.balanced.close_made made).congr fun fd => ?_
      exact congrFun (places_setSlot_same _ (by rw [here]; rfl)) fd
    · -- the other slots were given other sockets
      have distinct : (s.slot j).sock ≠ (s.slot i).sock :=
        fun same => other (inv.apart j i mine given same)
      simp only [State.goto, State.setSlot, Books.close, Function.update_of_ne distinct]
      exact (inv.slots j).made mine
  | uncount => exact absurd here ok.taken.1
  | closeRefused => exact absurd here ok.taken.2
  | completed result =>
    rw [here] at stepped
    cases stepped
    exact inv.onComplete here
  | closeUnkept fd =>
    rw [here] at stepped
    cases stepped
    have held : (s.slot i).pc.held = [fd] := by rw [here]; rfl
    have place : places s fd ≠ 0 := held_place (i := i) (by rw [held]; simp)
    exact inv.settled held rfl (fun _ => inv.balanced.close place)
      (.plain rfl (by simp) (by simp) (by simp)) rfl (inv.kept (inv.placed place))
  | hand fd w skipped =>
    rw [here] at stepped
    cases stepped
    have held : (s.slot i).pc.held = [fd] := by rw [here]; rfl
    have place : places s fd ≠ 0 := held_place (i := i) (by rw [held]; simp)
    exact inv.settled held rfl (fun _ => inv.balanced.deliver place)
      (.plain rfl (by simp) (by simp) (by simp)) rfl fun j => inv.kept_deliver j
  | skip skipped =>
    rw [here] at stepped
    cases skipped with
    | nil | cons _ skipped =>
      cases stepped
      exact inv.goto (by rw [here]; rfl) (fun absurd => by cases absurd)
        (.plain rfl (by simp) (by simp) (by simp))
  | idle | make | submit | pending =>
    rw [here] at stepped
    cases stepped

/-- A descriptor that nobody in the acceptor has changes hands. -/
theorem Inv.set (inv : Inv s) {fd : Nat} {holder : Holder}
    (before : (s.books.holder fd).isAccepted = false) (after : holder.isAccepted = false)
    (unmade : s.books.holder fd ≠ .made) : Inv { s with books := s.books.set fd holder } :=
  inv.others rfl (inv.balanced.set before after) (inv.kept unmade)

theorem Inv.makeSocket (inv : Inv s) {i : Fin depth} {fd : Nat} (here : (s.slot i).pc = .make)
    (free : s.books.holder fd = .nobody) :
    Inv ({ s with books := s.books.set fd .made }.setSlot i
      { s.slot i with sock := fd, pc := if fd = 0 then .idle else .count }) := by
  have unmade : s.books.holder fd ≠ .made := by rw [free]; simp
  have balanced := inv.balanced.set (by rw [free]; rfl) (rfl : Holder.made.isAccepted = false)
  refine inv.slot rfl (balanced.congr fun x => ?_) ⟨fun _ => ?_, fun result absurd => ?_,
    fun some => ?_, ?_⟩ (fun j _ => inv.kept unmade j) fun _ j _ mine same => ?_
  · refine congrFun (places_setSlot_same _ ?_) x
    rw [here]
    split <;> rfl
  · exact Function.update_self fd _ _
  · split at absurd <;> cases absurd
  · split at some
    · simp [SlotPc.given] at some
    · assumption
  · split <;> simp
  · apply unmade
    have made := (inv.slots j).made mine
    rw [same] at made
    exact made

theorem Inv.complete (inv : Inv s) {i : Fin depth} (here : (s.slot i).pc = .pending)
    (free : s.books.holder (s.slot i).sock = .nobody) :
    Inv ({ s with books := s.books.accept (s.slot i).sock }.setSlot i
      { s.slot i with aux := (s.slot i).sock, pc := .completed (some (s.slot i).sock) }) := by
  have unmade : s.books.holder (s.slot i).sock ≠ .made := by rw [free]; simp
  refine inv.slot rfl (inv.balanced.accept free fun x => ?_)
    ⟨fun absurd => (by cases absurd), fun result same => ?_, fun _ => ?_, by simp⟩
    (fun j _ => inv.kept unmade j) (fun absurd => by cases absurd)
  · have one := places_setSlot s i { s.slot i with
      aux := (s.slot i).sock, pc := .completed (some (s.slot i).sock) } x
    rw [here] at one
    simp only [SlotPc.held, List.count_nil, List.count_singleton, beq_iff_eq] at one
    simp only [places, State.setSlot] at one ⊢
    rcases eq_or_ne x (s.slot i).sock with same | other
    · simpa [same] using one
    · simpa [other, other.symm] using one
  · cases same
    rfl
  · exact (inv.slots i).number (.inl here)

/-! ## Every run -/

/-- `Stop` runs once, after it has set `stopping`. -/
def Unstopped (s : State depth) : Prop := s.stopping = false → s.stop = .notCalled

theorem onComplete_unstopped (unstopped : Unstopped s) (i : Fin depth) (result : Option Nat) :
    Unstopped (onComplete s i result) := by
  rcases onComplete_cases s i result with ⟨_, after⟩ | ⟨_, _, _, after⟩ | after <;> rw [after] <;>
    exact unstopped

theorem Unstopped.step (unstopped : Unstopped s) (stepped : step s a = some t) : Unstopped t := by
  cases a with
  | step i =>
    simp only [Acceptor.step, Acceptor.slotStep] at stepped
    split at stepped <;> cases stepped <;> first | exact unstopped | skip
    exact onComplete_unstopped unstopped i _
  | stop =>
    simp only [Acceptor.step] at stepped
    split at stepped <;> cases stepped
    · exact unstopped
    · exact fun absurd => by cases absurd
  | stopStep =>
    simp only [Acceptor.step, Acceptor.stopStep] at stepped
    intro running
    split at stepped <;> cases stepped <;> have none := unstopped running <;> simp_all
  | tryTake | cancelToken _ | cancelWaiters _ =>
    simp only [Acceptor.step] at stepped
    try split at stepped
    all_goals
      cases stepped
      exact unstopped
  | openOther _ | closeOther _ | post _ | takeOrQueue _
  | makeSocket _ _ | submit _ _ | complete _ _ =>
    simp only [Acceptor.step] at stepped
    repeat' split at stepped
    all_goals
      cases stepped <;> exact unstopped

theorem Inv.step (inv : Inv s) (unstopped : Unstopped s) (allowed : SameNumber s a)
    (stepped : step s a = some t) : Inv t := by
  cases a with
  | openOther fd =>
    simp only [Acceptor.step] at stepped
    split at stepped
    · rename_i free
      cases stepped
      exact inv.set (by rw [free]; rfl) rfl (by rw [free]; simp)
    · cases stepped
  | closeOther fd =>
    simp only [Acceptor.step] at stepped
    split at stepped
    · rename_i others
      cases stepped
      exact inv.set (by rw [others]; rfl) rfl (by rw [others]; simp)
    · rename_i taken
      cases stepped
      exact inv.set (by rw [taken]; rfl) rfl (by rw [taken]; simp)
    · cases stepped
  | cancelToken token =>
    cases stepped
    exact inv.others rfl inv.balanced fun j given => (inv.slots j).made given
  | post i =>
    simp only [Acceptor.step] at stepped
    split at stepped
    · rename_i here
      cases stepped
      exact inv.goto (by rw [here]; rfl) (fun absurd => by cases absurd)
        (.plain rfl (by simp) (by simp) (by simp))
    · cases stepped
  | makeSocket i fd =>
    simp only [Acceptor.step] at stepped
    split at stepped
    · rename_i here
      cases fd with
      | none =>
        cases stepped
        refine inv.slot rfl (inv.balanced.congr fun fd => ?_)
          (.plain rfl (by simp) (by simp) (by simp)) (fun j _ mine => (inv.slots j).made mine)
          (fun absurd => by cases absurd)
        exact congrFun (places_setSlot_same _ (by rw [here]; rfl)) fd
      | some fd =>
        simp only at stepped
        split at stepped
        · rename_i free
          cases stepped
          exact inv.makeSocket here free
        · cases stepped
    · cases stepped
  | submit i refused =>
    cases (allowed : refused = false)
    simp only [Acceptor.step, Bool.false_eq_true, if_false] at stepped
    split at stepped
    · rename_i here
      split at stepped
      · cases stepped
      · cases stepped
        refine inv.slot rfl (inv.balanced.congr fun fd => ?_)
          (.plain rfl (by simp) (fun _ => (inv.slots i).number (.inr (.inl here))) (by simp))
          (fun j _ mine => (inv.slots j).made mine) (fun absurd => by cases absurd)
        exact congrFun (places_setSlot_same _ (by rw [here]; rfl)) fd
    · cases stepped
  | complete i result =>
    cases (allowed : result = some (s.slot i).sock)
    simp only [Acceptor.step] at stepped
    split at stepped
    · rename_i here
      split at stepped
      · rename_i free
        cases stepped
        exact inv.complete here free
      · cases stepped
    · cases stepped
  | step i => exact inv.slotStep stepped
  | tryTake =>
    simp only [Acceptor.step] at stepped
    split at stepped
    · cases stepped
      exact inv
    · rename_i last
      cases stepped
      exact inv.take last
  | takeOrQueue waiter =>
    simp only [Acceptor.step] at stepped
    split at stepped
    · rename_i last
      cases stepped
      exact inv.take last
    · split at stepped
      · cases stepped
        exact inv
      · cases stepped
        exact inv.others rfl inv.balanced fun j given => (inv.slots j).made given
  | cancelWaiters tokens =>
    cases stepped
    exact inv.others rfl inv.balanced fun j given => (inv.slots j).made given
  | stop =>
    simp only [Acceptor.step] at stepped
    split at stepped
    · cases stepped
      exact inv
    · rename_i running
      cases stepped
      have none : s.stop = .notCalled := unstopped (Bool.eq_false_iff.mpr running)
      refine inv.others rfl (inv.balanced.congr fun fd => ?_) fun j given =>
        (inv.slots j).made given
      simp [places, none, StopPc.held]
  | stopStep => exact inv.stopStep stepped

/-- When the ring takes every accept and the kernel completes each with the number that was made
for the slot, what is handed out is what was accepted. -/
theorem same_number_accounted (depth : Nat) (isOpen : Nat → Bool) {s : State depth}
    (reach : Reach step SameNumber (initial depth isOpen) s) : Accounted s := by
  have unstopped {s : State depth} (reach : Reach step SameNumber (initial depth isOpen) s) :
      Unstopped s :=
    reach.invariant (fun _ => rfl) fun known _ stepped => known.step stepped
  have inv : Inv s := reach.invariant_of unstopped (initial_inv depth isOpen)
    fun known inv allowed stepped => inv.step known allowed stepped
  exact accounted_of_balanced inv.balanced

/-- Two slots are posted.  The first accept to complete passes over a waiter whose token is cancelled
and goes to the one behind it, and the other one is left to `TryTake`. -/
def twoAcceptsLabels : List (Label 2) :=
  [.takeOrQueue ⟨0, 7⟩, .takeOrQueue ⟨1, 8⟩, .cancelToken 7,
    .post 0, .makeSocket 0 (some 5), .step 0, .step 0, .submit 0 false,
    .post 1, .makeSocket 1 (some 6), .step 1, .step 1, .submit 1 false,
    .complete 1 (some 6), .step 1, .step 1, .step 1, .step 1,
    .complete 0 (some 5), .step 0, .tryTake]

def twoAccepts : State 2 :=
  (run step SameNumber (initial 2 fun _ => false) twoAcceptsLabels).getD (initial 2 fun _ => false)

theorem twoAccepts_accounted : twoAccepts.books.deliveries = [(6, .accepted 0), (5, .accepted 1)] ∧
    Accounted twoAccepts :=
  ⟨by decide +kernel,
    same_number_accounted 2 (fun _ => false) (.of_isSome twoAcceptsLabels (by decide +kernel))⟩

/-- One accept from its post to `TryTake`, completed with the given descriptor. -/
def oneAccept (fd : Nat) : List (Label 1) :=
  [.post 0, .makeSocket 0 (some 5), .step 0, .step 0, .submit 0 false, .complete 0 (some fd),
    .step 0, .tryTake]

/-- Completed with the number 6, the accept makes the acceptor hand out number 5, which is
nobody's. -/
def otherNumber : State 1 :=
  (run step anyStep (initial 1 fun _ => false) (oneAccept 6)).getD (initial 1 fun _ => false)

theorem other_number_not_accounted :
    ∃ s, Reach step anyStep (initial 1 fun _ => false) s ∧ ¬ Accounted s := by
  refine ⟨otherNumber, .of_isSome (oneAccept 6) (by decide +kernel), fun accounted => ?_⟩
  have mem : ((5, .nobody) : Nat × Holder) ∈ otherNumber.books.deliveries := by decide +kernel
  obtain ⟨k, wrong⟩ := accounted.delivered _ mem
  cases wrong

end JLibSched.Acceptor
