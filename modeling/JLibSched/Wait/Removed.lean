import JLibSched.Wait.Serving

/-!
# Waiters that a `CancelWaiters` took off

`Removed` keeps the history of each party: how often a `CancelWaiters` took it off a queue, how
often it returned `Cancelled` after that, and whether it is in between.  In between it is asleep in
the hand of that `CancelWaiters`, or woken with `Cancelled`.
-/

namespace JLibSched.Wait

open Transition WaitQueue Cancel

structure Removed (n : Nat) where
  removed : Fin n → Nat
  answered : Fin n → Nat
  off : Fin n → Bool

variable {n : Nat} {κ : Type} {desk : Desk κ} {tasks : Tasks n} {q q' : Queue n κ}
  {r : Removed n} {p u w : Fin n}

namespace Removed

def none (n : Nat) : Removed n where
  removed := fun _ => 0
  answered := fun _ => 0
  off := fun _ => false

/-- A `CancelWaiters` takes waiters off. -/
def take (r : Removed n) (victims : List (Fin n)) : Removed n where
  removed := fun p => r.removed p + victims.count p
  answered := r.answered
  off := fun p => r.off p || decide (p ∈ victims)

/-- A waiter returns. -/
def back (r : Removed n) (p : Fin n) (wake : Wake) : Removed n where
  removed := r.removed
  answered := fun s => if s = p ∧ r.off p = true ∧ wake = ⟨true, .cancelled⟩ then r.answered s + 1
    else r.answered s
  off := Function.update r.off p false

/-- In the hand of a `CancelWaiters`, or woken by one. -/
def Between (desk : Desk κ) (q : Queue n κ) (p : Fin n) : Prop :=
  (∃ u chain, q.pc u = .walks desk.sweep chain ∧ p ∈ chain) ∨ q.pc p = .woken ⟨true, .cancelled⟩

structure Ok (desk : Desk κ) (q : Queue n κ) (r : Removed n) : Prop where
  counted : ∀ p, r.removed p = r.answered p + (r.off p).toNat
  between : ∀ p, r.off p = true → Between desk q p

theorem none_ok (q : Queue n κ) : Ok desk q (none n) where
  counted _ := rfl
  between _ absurd := by cases absurd

/-- Nobody is taken off and nobody returns. -/
theorem Ok.keep (ok : Ok desk q r) (kept : ∀ p, Between desk q p → Between desk q' p) :
    Ok desk q' r where
  counted := ok.counted
  between p off := kept p (ok.between p off)

/-- A party moves that neither sweeps nor was woken. -/
theorem Between.turn {s : Fin n} (between : Between desk q s) (pc : Pc n κ)
    (moved : q'.pc = Function.update q.pc p pc) (free : (q.pc p).hand = [])
    (awake : ∀ wake, q.pc p ≠ .woken wake) : Between desk q' s := by
  rcases between with ⟨u, chain, here, mem⟩ | told
  · have other : u ≠ p := by
      rintro rfl
      rw [here] at free
      simp only [hand_walks] at free
      rw [free] at mem
      cases mem
    exact .inl ⟨u, chain, by rw [moved, Function.update_of_ne other]; exact here, mem⟩
  · have other : s ≠ p := by
      rintro rfl
      exact awake _ told
    exact .inr (by rw [moved, Function.update_of_ne other]; exact told)

/-- The same for a party that holds a waiter. -/
theorem Between.test {s : Fin n} (between : Between desk q s) {place : κ} (pc : Pc n κ)
    (moved : q'.pc = Function.update q.pc p pc) (here : q.pc p = .holds place w) :
    Between desk q' s := by
  rcases between with ⟨u, chain, there, mem⟩ | told
  · have other : u ≠ p := by
      rintro rfl
      rw [here] at there
      cases there
    exact .inl ⟨u, chain, by rw [moved, Function.update_of_ne other]; exact there, mem⟩
  · have other : s ≠ p := by
      rintro rfl
      rw [here] at told
      cases told
    exact .inr (by rw [moved, Function.update_of_ne other]; exact told)

theorem Between.wake {s : Fin n} (between : Between desk q s) (kept : Kept desk q)
    {result : WaitResult} {pc : Pc n κ} (waking : Waking desk tasks q u w result pc) :
    Between desk (Wait.wake q u w result pc) s := by
  obtain ⟨node, asleep⟩ := waking.asleep kept.sound
  obtain ⟨atU, atW, others⟩ := waking.parties kept asleep
  have mem := waking.mem
  rcases between with ⟨v, chain, here, inChain⟩ | told
  · rcases eq_or_ne v u with rfl | notU
    · -- the waker sweeps: its first waiter is told, the others stay in its hand
      cases waking with
      | skipped there | granted there =>
        rw [here] at there
        cases there
      | everyone other there =>
        rw [here] at there
        exact absurd (Pc.walks.inj there).1.symm other
      | victim there =>
        have cancellable := kept.victim there
        rw [Line.node_eq_some.mpr asleep, Option.any_some] at cancellable
        rw [cancellable] at atW
        rw [here] at there
        obtain rfl := (Pc.walks.inj there).2
        rcases List.mem_cons.mp inChain with rfl | later
        · exact .inr atW
        · exact .inl ⟨v, _, atU, later⟩
    · have notW : v ≠ w := by
        rintro rfl
        rw [asleep] at here
        cases here
      exact .inl ⟨v, chain, by rw [others v notU notW]; exact here, inChain⟩
  · have notU : s ≠ u := by
      rintro rfl
      rw [told] at mem
      cases mem
    have notW : s ≠ w := by
      rintro rfl
      rw [asleep] at told
      cases told
    exact .inr (by rw [others s notU notW]; exact told)

theorem Between.not_queued (sound : q.Sound) (between : Between desk q p) : p ∉ q.queue := by
  intro queued
  rcases between with ⟨u, chain, here, mem⟩ | told
  · exact sound.not_queued (u := u) (by rw [here]; exact mem) queued
  · have asleep := sound.queued queued
    rw [told] at asleep
    cases asleep

theorem Ok.sweep (ok : Ok desk q r) (sound : q.Sound) (select : Fin n → Bool)
    (free : Free (q.pc p)) (awake : ∀ wake, q.pc p ≠ .woken wake) :
    Ok desk (q.takeIf p desk.sweep select) (r.take (q.queue.filter select)) where
  counted s := by
    have counted := ok.counted s
    change r.removed s + (q.queue.filter select).count s =
      r.answered s + (r.off s || decide (s ∈ q.queue.filter select)).toNat
    by_cases mem : s ∈ q.queue.filter select
    · have queued : s ∈ q.queue := List.mem_of_mem_filter mem
      have off : r.off s = false := by
        by_contra on
        exact (ok.between s (Bool.eq_true_of_not_eq_false on)).not_queued sound queued
      have once : (q.queue.filter select).count s = 1 := by
        have some := List.count_pos_iff.mpr mem
        have fewer := List.Sublist.count_le s (List.filter_sublist (p := select) (l := q.queue))
        have placed := sound.placed s
        have most := Line.Sound.sleeps_le (q := q) s
        omega
      rw [off, Bool.toNat_false] at counted
      rw [off, once, decide_eq_true mem, Bool.false_or, Bool.toNat_true]
      omega
    · rw [List.count_eq_zero.mpr mem, decide_eq_false mem, Bool.or_false]
      exact counted
  between s off := by
    simp only [take, Bool.or_eq_true, decide_eq_true_eq] at off
    rcases off with before | mem
    · exact (ok.between s before).turn (.walks desk.sweep (q.queue.filter select)) rfl free.1 awake
    · exact .inl ⟨p, _, Function.update_self _ _ _, mem⟩

theorem Ok.back (ok : Ok desk q r) (sound : q.Sound) {wake : Wake} (pc : Pc n κ)
    (moved : q'.pc = Function.update q.pc p pc) (here : q.pc p = .woken wake) :
    Ok desk q' (r.back p wake) where
  counted s := by
    have counted := ok.counted s
    simp only [Removed.back]
    rcases eq_or_ne s p with rfl | other
    · rw [Function.update_self]
      cases off : r.off s with
      | false =>
        rw [off] at counted
        rw [if_neg (by simp)]
        exact counted
      | true =>
        have told : wake = ⟨true, .cancelled⟩ := by
          rcases ok.between s off with ⟨u, chain, there, mem⟩ | told
          · have asleep := sound.carried (w := s) (u := u) (by rw [there]; exact mem)
            rw [here] at asleep
            cases asleep
          · rw [here] at told
            exact Pc.woken.inj told
        rw [off] at counted
        rw [if_pos ⟨rfl, rfl, told⟩]
        exact counted
    · rw [Function.update_of_ne other, if_neg fun same => other same.1]
      exact counted
  between s off := by
    simp only [Removed.back] at off
    have other : s ≠ p := by
      rintro rfl
      rw [Function.update_self] at off
      cases off
    rw [Function.update_of_ne other] at off
    rcases ok.between s off with ⟨u, chain, there, mem⟩ | told
    · have notP : u ≠ p := by
        rintro rfl
        rw [here] at there
        cases there
      exact .inl ⟨u, chain, by rw [moved, Function.update_of_ne notP]; exact there, mem⟩
    · exact .inr (by rw [moved, Function.update_of_ne other]; exact told)

end Removed

end JLibSched.Wait
