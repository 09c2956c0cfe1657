import JLibSched.Lib.Transition
import Mathlib.Tactic

/-!
# A queue of sleeping parties

A party that has to wait joins the queue and goes to sleep.  Others take sleepers off, the first
one or all that a predicate selects, and carry them until they wake them, one after the other.

`κ` are the places of the program where a party may stand, `ν` is what a sleeper leaves in the
queue, and `ρ` what its waker tells it.  Every sleeper is in the queue or in one hand, once
(`Sound.placed`), so it is woken once, by the party that took it off; the queue is in the order of
going to sleep, and who was taken first is older than all that are left (`Sound.ahead`).
-/

namespace WaitQueue

open Transition

variable {n : Nat} {κ ν ρ : Type*}

/-- What a party is doing. -/
inductive Pc (n : Nat) (κ ν ρ : Type*) where
  | stands (place : κ)
  | asleep (node : ν)
  | woken (result : ρ)
  /-- It has taken the first sleeper off. -/
  | holds (place : κ) (w : Fin n)
  /-- It has taken a chain of sleepers off. -/
  | walks (place : κ) (chain : List (Fin n))
deriving DecidableEq, Repr

/-- The sleepers it carries. -/
def Pc.hand : Pc n κ ν ρ → List (Fin n)
  | .holds _ w => [w]
  | .walks _ chain => chain
  | _ => []

/-- One for a sleeper. -/
def Pc.sleeps : Pc n κ ν ρ → Nat
  | .asleep _ => 1
  | _ => 0

section Hands

variable {place : κ} {node : ν} {result : ρ} {w : Fin n} {chain : List (Fin n)}

@[simp] theorem hand_stands : (Pc.stands place : Pc n κ ν ρ).hand = [] := rfl
@[simp] theorem hand_asleep : (Pc.asleep node : Pc n κ ν ρ).hand = [] := rfl
@[simp] theorem hand_woken : (Pc.woken result : Pc n κ ν ρ).hand = [] := rfl
@[simp] theorem hand_holds : (Pc.holds place w : Pc n κ ν ρ).hand = [w] := rfl
@[simp] theorem hand_walks : (Pc.walks place chain : Pc n κ ν ρ).hand = chain := rfl
@[simp] theorem sleeps_stands : (Pc.stands place : Pc n κ ν ρ).sleeps = 0 := rfl
@[simp] theorem sleeps_asleep : (Pc.asleep node : Pc n κ ν ρ).sleeps = 1 := rfl
@[simp] theorem sleeps_woken : (Pc.woken result : Pc n κ ν ρ).sleeps = 0 := rfl
@[simp] theorem sleeps_holds : (Pc.holds place w : Pc n κ ν ρ).sleeps = 0 := rfl
@[simp] theorem sleeps_walks : (Pc.walks place chain : Pc n κ ν ρ).sleeps = 0 := rfl

end Hands

theorem Pc.sleeps_of_hand {pc : Pc n κ ν ρ} {w : Fin n} (mem : w ∈ pc.hand) : pc.sleeps = 0 := by
  cases pc with
  | asleep => cases mem
  | _ => rfl

theorem Pc.asleep_of_sleeps {pc : Pc n κ ν ρ} (sleeps : pc.sleeps = 1) :
    ∃ node, pc = .asleep node := by
  cases pc with
  | asleep node => exact ⟨node, rfl⟩
  | _ => cases sleeps

/-- The queue and its parties. -/
structure Line (n : Nat) (κ ν ρ : Type*) where
  queue : List (Fin n)
  pc : Fin n → Pc n κ ν ρ
  /-- The order in which the parties went to sleep. -/
  ticket : Fin n → Nat
  clock : Nat
  /-- How often a party went to sleep, and how often it was woken. -/
  waits : Fin n → Nat
  wakes : Fin n → Nat

namespace Line

def empty (place : κ) : Line n κ ν ρ where
  queue := []
  pc := fun _ => .stands place
  ticket := fun _ => 0
  clock := 0
  waits := fun _ => 0
  wakes := fun _ => 0

def set (q : Line n κ ν ρ) (u : Fin n) (pc : Pc n κ ν ρ) : Line n κ ν ρ :=
  { q with pc := Function.update q.pc u pc }

/-- A party goes to sleep at the end of the queue. -/
def join (q : Line n κ ν ρ) (u : Fin n) (node : ν) : Line n κ ν ρ :=
  { q with
    queue := q.queue ++ [u]
    pc := Function.update q.pc u (.asleep node)
    ticket := Function.update q.ticket u q.clock
    clock := q.clock + 1
    waits := Function.update q.waits u (q.waits u + 1) }

/-- A party takes the first sleeper off, which leaves `rest`. -/
def pop (q : Line n κ ν ρ) (u : Fin n) (place : κ) (w : Fin n) (rest : List (Fin n)) :
    Line n κ ν ρ :=
  { q with queue := rest }.set u (.holds place w)

/-- A party takes all sleepers off that are selected; the others stay in their order. -/
def takeIf (q : Line n κ ν ρ) (u : Fin n) (place : κ) (select : Fin n → Bool) : Line n κ ν ρ :=
  { q with queue := q.queue.filter fun p => !select p }.set u (.walks place (q.queue.filter select))

/-- A party wakes a sleeper and goes on. -/
def wake (q : Line n κ ν ρ) (u w : Fin n) (result : ρ) (pc : Pc n κ ν ρ) : Line n κ ν ρ :=
  ({ q with wakes := Function.update q.wakes w (q.wakes w + 1) }.set w (.woken result)).set u pc

/-- What a sleeper has left in the queue. -/
def node (q : Line n κ ν ρ) (w : Fin n) : Option ν :=
  match q.pc w with
  | .asleep node => some node
  | _ => none

theorem node_eq_some {q : Line n κ ν ρ} {w : Fin n} {node : ν} :
    q.node w = some node ↔ q.pc w = .asleep node := by
  unfold Line.node
  cases q.pc w with
  | asleep node' => simp
  | _ => simp

/-! ## Sound lines -/

/-- Each sleeper is in the queue or in one hand, and each wait is ended by one wake. -/
structure Sound (q : Line n κ ν ρ) : Prop where
  placed : ∀ p, q.queue.count p + ∑ u, (q.pc u).hand.count p = (q.pc p).sleeps
  ahead : ∀ u place w, q.pc u = .holds place w → ∀ p ∈ q.queue, q.ticket w < q.ticket p
  sorted : q.queue.Pairwise fun p r => q.ticket p < q.ticket r
  fresh : ∀ p, 0 < (q.pc p).sleeps → q.ticket p < q.clock
  once : ∀ p, q.waits p = q.wakes p + (q.pc p).sleeps

theorem empty_sound (place : κ) : Sound (empty place : Line n κ ν ρ) where
  placed p := by simp [empty]
  ahead u place w absurd := by cases absurd
  sorted := List.Pairwise.nil
  fresh p absurd := by simp [empty] at absurd
  once p := rfl

variable {q : Line n κ ν ρ} {u w p : Fin n}

theorem Sound.sleeps_le (p : Fin n) : (q.pc p).sleeps ≤ 1 := by
  cases q.pc p with
  | asleep => exact Nat.le_refl 1
  | _ => exact Nat.zero_le 1

/-- Who is carried sleeps. -/
theorem Sound.carried (sound : Sound q) (mem : w ∈ (q.pc u).hand) : (q.pc w).sleeps = 1 := by
  have placed := sound.placed w
  have some := List.count_pos_iff.mpr mem
  have bound := le_sum (fun pc : Pc n κ ν ρ => pc.hand.count w) q.pc u
  have most := Sound.sleeps_le (q := q) w
  omega

/-- Who is in the queue sleeps. -/
theorem Sound.queued (sound : Sound q) (mem : w ∈ q.queue) : (q.pc w).sleeps = 1 := by
  have placed := sound.placed w
  have some := List.count_pos_iff.mpr mem
  have most := Sound.sleeps_le (q := q) w
  omega

/-- Who is carried is in the queue no more. -/
theorem Sound.not_queued (sound : Sound q) (mem : w ∈ (q.pc u).hand) : w ∉ q.queue := by
  intro queued
  have placed := sound.placed w
  have some := List.count_pos_iff.mpr mem
  have some' := List.count_pos_iff.mpr queued
  have bound := le_sum (fun pc : Pc n κ ν ρ => pc.hand.count w) q.pc u
  have most := Sound.sleeps_le (q := q) w
  omega

/-- One party carries a sleeper. -/
theorem Sound.single (sound : Sound q) {v : Fin n} (mem : w ∈ (q.pc u).hand)
    (mem' : w ∈ (q.pc v).hand) : u = v := by
  by_contra apart
  have placed := sound.placed w
  have one := List.count_pos_iff.mpr mem
  have two := List.count_pos_iff.mpr mem'
  have most := Sound.sleeps_le (q := q) w
  have both : (q.pc u).hand.count w + (q.pc v).hand.count w ≤ ∑ j, (q.pc j).hand.count w :=
    Finset.add_le_sum (f := fun j => (q.pc j).hand.count w) (fun _ _ => Nat.zero_le _)
      (Finset.mem_univ u) (Finset.mem_univ v) apart
  omega

theorem Sound.nodup_queue (sound : Sound q) : q.queue.Nodup := by
  refine List.nodup_iff_count_le_one.mpr fun w => ?_
  have placed := sound.placed w
  have most := Sound.sleeps_le (q := q) w
  omega

theorem Sound.nodup_hand (sound : Sound q) (u : Fin n) : (q.pc u).hand.Nodup := by
  refine List.nodup_iff_count_le_one.mpr fun w => ?_
  have placed := sound.placed w
  have bound := le_sum (fun pc : Pc n κ ν ρ => pc.hand.count w) q.pc u
  have most := Sound.sleeps_le (q := q) w
  omega

/-- The sum of a weight over the parties. -/
def total (weight : Pc n κ ν ρ → Nat) (q : Line n κ ν ρ) : Nat := ∑ u, weight (q.pc u)

theorem le_total (weight : Pc n κ ν ρ → Nat) (q : Line n κ ν ρ) (u : Fin n) :
    weight (q.pc u) ≤ total weight q :=
  le_sum weight q.pc u

theorem total_update (weight : Pc n κ ν ρ → Nat) {q' : Line n κ ν ρ} {pc : Pc n κ ν ρ}
    (moved : q'.pc = Function.update q.pc u pc) :
    total weight q' + weight (q.pc u) = total weight q + weight pc := by
  unfold total
  rw [moved]
  exact sum_update weight q.pc u pc

theorem total_set (weight : Pc n κ ν ρ → Nat) (pc : Pc n κ ν ρ) :
    total weight (q.set u pc) + weight (q.pc u) = total weight q + weight pc :=
  total_update weight rfl

theorem total_wake (weight : Pc n κ ν ρ → Nat) (result : ρ) (pc : Pc n κ ν ρ) (apart : w ≠ u) :
    total weight (q.wake u w result pc) + weight (q.pc u) + weight (q.pc w) =
      total weight q + weight (.woken result) + weight pc := by
  have first : total weight (q.set w (.woken result)) + weight (q.pc w) =
      total weight q + weight (.woken result) := total_set weight _
  have second : total weight (q.wake u w result pc) + weight ((q.set w (.woken result)).pc u) =
      total weight (q.set w (.woken result)) + weight pc := total_update weight rfl
  have still : (q.set w (.woken result)).pc u = q.pc u := Function.update_of_ne apart.symm _ _
  rw [still] at second
  omega

/-! ## What a step keeps -/

/-- Parties move that are awake, and everybody carries what it carried. -/
theorem Sound.calm (sound : Sound q) {q' : Line n κ ν ρ} (queue : q'.queue = q.queue)
    (ticket : q'.ticket = q.ticket) (clock : q'.clock = q.clock) (waits : q'.waits = q.waits)
    (wakes : q'.wakes = q.wakes) (hand : ∀ p, (q'.pc p).hand = (q.pc p).hand)
    (sleeps : ∀ p, (q'.pc p).sleeps = (q.pc p).sleeps)
    (held : ∀ p place w, q'.pc p = .holds place w → ∃ place', q.pc p = .holds place' w) :
    Sound q' where
  placed p := by
    rw [queue, sleeps, ← sound.placed p]
    simp only [hand]
  ahead u place w carried := by
    obtain ⟨place', before⟩ := held u place w carried
    rw [queue, ticket]
    exact sound.ahead u place' w before
  sorted := by
    rw [queue, ticket]
    exact sound.sorted
  fresh p asleep := by
    rw [sleeps] at asleep
    rw [ticket, clock]
    exact sound.fresh p asleep
  once p := by
    rw [waits, wakes, sleeps]
    exact sound.once p

/-- A party moves that is awake, and carries what it carried. -/
theorem Sound.set (sound : Sound q) {pc : Pc n κ ν ρ} (hand : pc.hand = (q.pc u).hand)
    (sleeps : pc.sleeps = (q.pc u).sleeps)
    (held : ∀ place w, pc = .holds place w → ∃ place', q.pc u = .holds place' w) :
    Sound (q.set u pc) := by
  have same (p : Fin n) : (q.set u pc).pc p = if p = u then pc else q.pc p :=
    Function.update_apply _ _ _ _
  refine sound.calm rfl rfl rfl rfl rfl (fun p => ?_) (fun p => ?_) fun p place w carried => ?_
  · rw [same]
    split
    · rename_i here
      rw [here, hand]
    · rfl
  · rw [same]
    split
    · rename_i here
      rw [here, sleeps]
    · rfl
  · rw [same] at carried
    split at carried
    · rename_i here
      rw [here]
      exact held place w carried
    · exact ⟨place, carried⟩

/-- A party that carries nothing goes to sleep. -/
theorem Sound.join (sound : Sound q) (node : ν) (free : (q.pc u).hand = [])
    (awake : (q.pc u).sleeps = 0) : Sound (q.join u node) := by
  have stays {p : Fin n} (asleep : 0 < (q.pc p).sleeps) : p ≠ u := by
    rintro rfl
    omega
  constructor
  case placed =>
    intro p
    have placed := sound.placed p
    have moved : total _ (q.join u node) + _ = total _ q + _ :=
      total_update (fun pc : Pc n κ ν ρ => pc.hand.count p) rfl
    simp only [free, hand_asleep, List.count_nil, Nat.add_zero] at moved
    change ∑ v, ((q.join u node).pc v).hand.count p = ∑ v, (q.pc v).hand.count p at moved
    rw [moved]
    simp only [Line.join, List.count_append]
    rcases eq_or_ne p u with rfl | other
    · rw [Function.update_self, List.count_singleton_self, sleeps_asleep]
      omega
    · rw [Function.update_of_ne other, List.count_singleton, if_neg (by simpa using other.symm)]
      omega
  case ahead =>
    intro v place w carried p mem
    simp only [Line.join] at carried mem ⊢
    have other : v ≠ u := by
      rintro rfl
      rw [Function.update_self] at carried
      cases carried
    rw [Function.update_of_ne other] at carried
    have asleep := sound.carried (w := w) (u := v)
      (by rw [carried]; exact List.mem_singleton_self w)
    rw [Function.update_of_ne (stays (by omega))]
    rcases List.mem_append.mp mem with before | last
    · rw [Function.update_of_ne (stays (by rw [sound.queued before]; exact Nat.one_pos))]
      exact sound.ahead v place w carried p before
    · rw [List.mem_singleton.mp last, Function.update_self]
      exact sound.fresh w (by omega)
  case sorted =>
    simp only [Line.join]
    have old (p : Fin n) (mem : p ∈ q.queue) : Function.update q.ticket u q.clock p = q.ticket p :=
      Function.update_of_ne (stays (by rw [sound.queued mem]; exact Nat.one_pos)) _ _
    rw [List.pairwise_append]
    refine ⟨?_, List.pairwise_singleton _ _, ?_⟩
    · refine sound.sorted.imp_of_mem ?_
      intro p r memP memR less
      rw [old p memP, old r memR]
      exact less
    · intro p mem r last
      rw [old p mem, List.mem_singleton.mp last, Function.update_self]
      exact sound.fresh p (by rw [sound.queued mem]; exact Nat.one_pos)
  case fresh =>
    intro p asleep
    simp only [Line.join] at asleep ⊢
    rcases eq_or_ne p u with rfl | other
    · rw [Function.update_self]
      exact Nat.lt_succ_self _
    · rw [Function.update_of_ne other] at asleep ⊢
      exact Nat.lt_succ_of_lt (sound.fresh p asleep)
  case once =>
    intro p
    have once := sound.once p
    simp only [Line.join]
    rcases eq_or_ne p u with rfl | other
    · rw [Function.update_self, Function.update_self, sleeps_asleep]
      omega
    · rw [Function.update_of_ne other, Function.update_of_ne other]
      exact once

/-- What becomes of a sound line when sleepers go from the queue to the hand of a party that is
awake and carries nothing. -/
theorem Sound.taken (sound : Sound q) {queue chain : List (Fin n)} {pc : Pc n κ ν ρ}
    (free : (q.pc u).hand = []) (awake : (q.pc u).sleeps = 0) (hand : pc.hand = chain)
    (split : ∀ p, q.queue.count p = queue.count p + chain.count p)
    (order : List.Sublist queue q.queue)
    (ahead : ∀ place w, pc = .holds place w → ∀ p ∈ queue, q.ticket w < q.ticket p)
    (still : pc.sleeps = 0) : Sound ({ q with queue := queue }.set u pc) where
  placed p := by
    have placed := sound.placed p
    have apart := split p
    have moved : total _ ({ q with queue := queue }.set u pc) + _ = total _ q + _ :=
      total_update (fun pc : Pc n κ ν ρ => pc.hand.count p) rfl
    simp only [free, hand, List.count_nil, Nat.add_zero] at moved
    have asleep : (({ q with queue := queue }.set u pc).pc p).sleeps = (q.pc p).sleeps := by
      simp only [Line.set]
      rcases eq_or_ne p u with rfl | other
      · rw [Function.update_self, still, awake]
      · rw [Function.update_of_ne other]
    change ∑ v, (({ q with queue := queue }.set u pc).pc v).hand.count p =
      (∑ v, (q.pc v).hand.count p) + chain.count p at moved
    rw [asleep, moved]
    simp only [Line.set]
    omega
  ahead v place w carried p mem := by
    simp only [Line.set] at carried mem ⊢
    rcases eq_or_ne v u with rfl | other
    · rw [Function.update_self] at carried
      exact ahead place w carried p mem
    · rw [Function.update_of_ne other] at carried
      exact sound.ahead v place w carried p (order.subset mem)
  sorted := sound.sorted.sublist order
  fresh p asleep := by
    refine sound.fresh p ?_
    simp only [Line.set] at asleep
    rcases eq_or_ne p u with rfl | other
    · rw [Function.update_self, still] at asleep
      omega
    · rwa [Function.update_of_ne other] at asleep
  once p := by
    have once := sound.once p
    simp only [Line.set]
    rcases eq_or_ne p u with rfl | other
    · rw [Function.update_self, still]
      omega
    · rwa [Function.update_of_ne other]

theorem Sound.pop (sound : Sound q) (place : κ) {rest : List (Fin n)} (first : q.queue = w :: rest)
    (free : (q.pc u).hand = []) (awake : (q.pc u).sleeps = 0) : Sound (q.pop u place w rest) := by
  have sorted := sound.sorted
  rw [first, List.pairwise_cons] at sorted
  refine sound.taken free awake rfl (fun p => ?_) (first ▸ List.sublist_cons_self w rest) ?_ rfl
  · rw [first, hand_holds, List.count_cons, List.count_singleton]
  · intro place' w' same p mem
    cases same
    exact sorted.1 p mem

theorem Sound.takeIf (sound : Sound q) (place : κ) (select : Fin n → Bool)
    (free : (q.pc u).hand = []) (awake : (q.pc u).sleeps = 0) :
    Sound (q.takeIf u place select) := by
  refine sound.taken free awake rfl (fun p => ?_) List.filter_sublist ?_ rfl
  · rw [hand_walks]
    cases chosen : select p with
    | true =>
      have out : (q.queue.filter fun p => !select p).count p = 0 :=
        List.count_eq_zero.mpr fun mem => by simp [chosen] at mem
      rw [List.count_filter chosen, out, Nat.zero_add]
    | false =>
      have out : (q.queue.filter select).count p = 0 :=
        List.count_eq_zero.mpr fun mem => by simp [chosen] at mem
      rw [List.count_filter (p := fun p => !select p) (by rw [chosen]; rfl), out, Nat.add_zero]
  · intro place' w' absurd
    cases absurd

/-- A party wakes the first sleeper that it carries. -/
theorem Sound.wake (sound : Sound q) (result : ρ) {pc : Pc n κ ν ρ}
    (hand : (q.pc u).hand = w :: pc.hand) (awake : pc.sleeps = 0)
    (free : ∀ place w, pc ≠ .holds place w) : Sound (q.wake u w result pc) := by
  have mem : w ∈ (q.pc u).hand := by
    rw [hand]
    exact List.mem_cons_self
  have asleep := sound.carried mem
  have carrier := Pc.sleeps_of_hand mem
  have apart : w ≠ u := by
    rintro rfl
    omega
  have empty : (q.pc w).hand = [] := by
    cases here : q.pc w with
    | asleep => rfl
    | _ => simp [here] at asleep
  have sleeps (p : Fin n) : ((q.wake u w result pc).pc p).sleeps =
      if p = w then 0 else (q.pc p).sleeps := by
    simp only [Line.wake, Line.set]
    rcases eq_or_ne p u with rfl | other
    · rw [Function.update_self, awake, carrier]
      split <;> rfl
    · rw [Function.update_of_ne other]
      rcases eq_or_ne p w with rfl | other'
      · rw [Function.update_self, if_pos rfl]
        rfl
      · rw [Function.update_of_ne other', if_neg other']
  constructor
  case placed =>
    intro p
    have placed := sound.placed p
    have moved := total_wake (q := q) (fun pc : Pc n κ ν ρ => pc.hand.count p) result pc apart
    simp only [hand, empty, hand_woken, List.count_nil, Nat.add_zero, List.count_cons] at moved
    change (∑ v, ((q.wake u w result pc).pc v).hand.count p) + _ =
      (∑ v, (q.pc v).hand.count p) + _ at moved
    rw [sleeps]
    simp only [beq_iff_eq] at moved
    change q.queue.count p + _ = _
    rcases eq_or_ne p w with rfl | other
    · rw [if_pos rfl] at moved ⊢
      omega
    · rw [if_neg other.symm] at moved
      rw [if_neg other]
      omega
  case ahead =>
    intro v place r carried
    simp only [Line.wake, Line.set] at carried ⊢
    rcases eq_or_ne v u with rfl | other
    · rw [Function.update_self] at carried
      exact absurd carried (free place r)
    · rw [Function.update_of_ne other] at carried
      rcases eq_or_ne v w with rfl | other'
      · rw [Function.update_self] at carried
        cases carried
      · rw [Function.update_of_ne other'] at carried
        exact sound.ahead v place r carried
  case sorted => exact sound.sorted
  case fresh =>
    intro p still
    rw [sleeps] at still
    split at still
    · cases still
    · exact sound.fresh p still
  case once =>
    intro p
    have once := sound.once p
    rw [sleeps]
    simp only [Line.wake, Line.set]
    rcases eq_or_ne p w with rfl | other
    · rw [Function.update_self, if_pos rfl]
      omega
    · rw [Function.update_of_ne other, if_neg other]
      exact once

/-! ## Marked sleepers

Some parties carry only sleepers with a property, which they have looked at before. -/

/-- Those who satisfy `C` carry sleepers whose nodes satisfy `P`. -/
def Marked (C : Pc n κ ν ρ → Prop) (P : ν → Prop) (q : Line n κ ν ρ) : Prop :=
  ∀ u, C (q.pc u) → ∀ w ∈ (q.pc u).hand, ∃ node, q.pc w = .asleep node ∧ P node

variable {C : Pc n κ ν ρ → Prop} {P : ν → Prop} {q' : Line n κ ν ρ}

theorem Marked.update (marked : Marked C P q) {pc : Pc n κ ν ρ}
    (moved : q'.pc = Function.update q.pc u pc) (awake : (q.pc u).sleeps = 0)
    (new : C pc → ∀ w ∈ pc.hand, ∃ node, q.pc w = .asleep node ∧ P node) : Marked C P q' := by
  intro v chosen w mem
  rw [moved] at chosen mem ⊢
  have found : ∃ node, q.pc w = .asleep node ∧ P node := by
    rcases eq_or_ne v u with rfl | other
    · rw [Function.update_self] at chosen mem
      exact new chosen w mem
    · rw [Function.update_of_ne other] at chosen mem
      exact marked v chosen w mem
  obtain ⟨node, asleep, good⟩ := found
  have apart : w ≠ u := by
    rintro rfl
    rw [asleep] at awake
    cases awake
  exact ⟨node, by rw [Function.update_of_ne apart]; exact asleep, good⟩

theorem Marked.calm (marked : Marked C P q) (hand : ∀ p, (q'.pc p).hand = (q.pc p).hand)
    (asleep : ∀ p node, q.pc p = .asleep node → q'.pc p = .asleep node)
    (chosen : ∀ p, C (q'.pc p) → (q'.pc p).hand = [] ∨ C (q.pc p)) : Marked C P q' := by
  intro u here w mem
  rcases chosen u here with empty | before
  · rw [empty] at mem
    cases mem
  · rw [hand] at mem
    obtain ⟨node, sleeping, good⟩ := marked u before w mem
    exact ⟨node, asleep w node sleeping, good⟩

theorem Marked.wake (marked : Marked C P q) (sound : Sound q) (result : ρ) {pc : Pc n κ ν ρ}
    (hand : (q.pc u).hand = w :: pc.hand) (new : C pc → C (q.pc u) ∨ pc.hand = []) :
    Marked C P (q.wake u w result pc) := by
  have here : w ∈ (q.pc u).hand := by
    rw [hand]
    exact List.mem_cons_self
  have once : w ∉ pc.hand := by
    intro again
    have placed := sound.placed w
    have bound := le_sum (fun pc : Pc n κ ν ρ => pc.hand.count w) q.pc u
    have most := Sound.sleeps_le (q := q) w
    simp only [hand, List.count_cons_self] at bound
    have some := List.count_pos_iff.mpr again
    omega
  have carrier := Pc.sleeps_of_hand here
  intro v chosen r mem
  have found : (∃ node, q.pc r = .asleep node ∧ P node) ∧ r ≠ w := by
    simp only [Line.wake, Line.set] at chosen mem
    rcases eq_or_ne v u with rfl | other
    · rw [Function.update_self] at chosen mem
      rcases new chosen with before | none
      · exact ⟨marked v before r (by rw [hand]; exact List.mem_cons_of_mem _ mem),
          fun same => once (same ▸ mem)⟩
      · rw [none] at mem
        cases mem
    · rw [Function.update_of_ne other] at chosen mem
      rcases eq_or_ne v w with rfl | other'
      · rw [Function.update_self] at mem
        cases mem
      · rw [Function.update_of_ne other'] at chosen mem
        refine ⟨marked v chosen r mem, ?_⟩
        rintro rfl
        exact other (sound.single mem here)
  obtain ⟨⟨node, asleep, good⟩, apart⟩ := found
  have apart' : r ≠ u := by
    rintro rfl
    rw [asleep] at carrier
    cases carrier
  refine ⟨node, ?_, good⟩
  simp only [Line.wake, Line.set]
  rw [Function.update_of_ne apart', Function.update_of_ne apart]
  exact asleep

end Line

end WaitQueue
