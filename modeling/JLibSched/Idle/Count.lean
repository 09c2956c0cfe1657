import JLibSched.Idle.Stack
import Mathlib.Tactic

/-!
# The idle count

`idleCount_` is to count the armed workers.  `UnregisterIdleWorker` and `PopIdleWorker` count down
for every node they disarm.  `RegisterIdleWorker` arms first and counts up last, and a worker that
finds its node still linked returns without counting.

`Audited` keeps beside the state which calls of `RegisterIdleWorker` have armed a node that was not
armed, and owe the count one for it.  The count is right in every run in which the calls that find
their node linked are those that owe nothing.
-/

namespace JLibSched.Idle

open Transition

variable {n : Nat}

/-- None of the calls is in progress. -/
def State.Quiet (s : State n) : Prop :=
  (∀ q, s.worker q = .idle) ∧ ∀ p, s.popper p = .idle ∨ ∃ q, s.popper p = .returned q

/-- `IdleWorkerCount` is the number of workers whose node is armed. -/
def State.Counts (s : State n) : Prop :=
  s.idleCount = (Finset.univ.filter fun q => s.armed q = true).card

/-! ## The audited run -/

structure Audited (n : Nat) extends State n where
  /-- The worker's `RegisterIdleWorker` has armed its node and not counted it. -/
  owes : Fin n → Bool

def Audited.initial (n : Nat) : Audited n := ⟨Idle.initial n, fun _ => false⟩

def Audited.owesAfter (s : Audited n) : Label n → Fin n → Bool
  | .register q => Function.update s.owes q (!s.armed q)
  | .worker q _ => if s.worker q = .addCount then Function.update s.owes q false else s.owes
  | .setState _ _ | .unregister _ | .pop _ | .popper _ _ => s.owes

def Audited.step (s : Audited n) (a : Label n) : Option (Audited n) :=
  (Idle.step s.toState a).map fun t => ⟨t, s.owesAfter a⟩

/-- A `RegisterIdleWorker` finds its node linked if and only if it found it armed. -/
def linkedIfArmed (s : Audited n) : Label n → Prop
  | .worker q _ => s.worker q = .checkLinked → s.idleLinked q = !s.owes q
  | .setState _ _ | .register _ | .unregister _ | .pop _ | .popper _ _ => True

instance (s : Audited n) (a : Label n) : Decidable (linkedIfArmed s a) :=
  match a with
  | .worker q _ =>
    inferInstanceAs (Decidable (s.worker q = .checkLinked → s.idleLinked q = !s.owes q))
  | .setState _ _ | .register _ | .unregister _ | .pop _ | .popper _ _ => isTrue trivial

theorem Audited.step_of {s : Audited n} {t : State n} {a : Label n}
    (stepped : Idle.step s.toState a = some t) : s.step a = some ⟨t, s.owesAfter a⟩ := by
  unfold Audited.step
  rw [stepped]
  rfl

/-- A worker that does not count keeps what it owes. -/
theorem Audited.owesAfter_worker (s : Audited n) {q : Fin n} (fails : Bool) {pc : WorkerPc n}
    (here : s.worker q = pc) (other : pc ≠ .addCount) :
    s.owesAfter (.worker q fails) = s.owes :=
  if_neg (here ▸ other)

theorem Audited.owesAfter_addCount (s : Audited n) {q : Fin n} (fails : Bool)
    (here : s.worker q = .addCount) :
    s.owesAfter (.worker q fails) = Function.update s.owes q false :=
  if_pos here

/-- Every run has its audit. -/
theorem audited {s : State n} (reach : Reach Idle.step anyStep (Idle.initial n) s) :
    ∃ owes, Reach Audited.step anyStep (Audited.initial n) ⟨s, owes⟩ := by
  induction reach with
  | start => exact ⟨_, .start⟩
  | @next s t a _ _ stepped ih =>
    obtain ⟨owes, reach⟩ := ih
    exact ⟨_, reach.next trivial (Audited.step_of (s := ⟨s, owes⟩) stepped)⟩

/-! ## The balance -/

/-- The worker has still to count its node. -/
def WorkerPc.Owing : WorkerPc n → Prop
  | .mark | .loadHead | .setNext _ | .swap _ | .addCount => True
  | .idle | .checkLinked | .subCount => False

/-- The worker has nothing to count. -/
def WorkerPc.Clear : WorkerPc n → Prop
  | .idle | .subCount => True
  | .checkLinked | .mark | .loadHead | .setNext _ | .swap _ | .addCount => False

/-- What the worker has disarmed and not counted down. -/
def WorkerPc.debt : WorkerPc n → Nat
  | .subCount => 1
  | .idle | .checkLinked | .mark | .loadHead | .setNext _ | .swap _ | .addCount => 0

/-- The threads that have disarmed a node in `PopIdleWorker` and not counted it down. -/
def Disarmers (s : State n) (ps : Finset Nat) : Prop :=
  ∀ p, p ∈ ps ↔ ∃ q, s.popper p = .subCount q

/-- The count, with what is owed to it, is the number of armed nodes, with what is still to be
counted down. -/
def Audited.Even (s : Audited n) (ps : Finset Nat) : Prop :=
  (s.idleCount + ∑ q, (s.owes q).toNat) % 2 ^ 32 =
    (∑ q, (s.armed q).toNat + ∑ q, (s.worker q).debt + ps.card) % 2 ^ 32

structure Balanced (s : Audited n) (ps : Finset Nat) : Prop where
  small : s.idleCount < 2 ^ 32
  even : s.Even ps
  disarmers : Disarmers s.toState ps
  owing : ∀ q, (s.worker q).Owing → s.owes q = true
  clear : ∀ q, (s.worker q).Clear → s.owes q = false

variable {s t : Audited n} {ps : Finset Nat} {a : Label n}

theorem initial_balanced : Balanced (Audited.initial n) ∅ where
  small := Nat.two_pow_pos 32
  even := by
    unfold Audited.Even
    simp [Audited.initial, Idle.initial, WorkerPc.debt]
  disarmers p := by simp [Audited.initial, Idle.initial]
  owing q absurd := absurd.elim
  clear q _ := rfl

/-- The worker moves, and no thread in `PopIdleWorker` does. -/
theorem Balanced.workerMoves (balanced : Balanced s ps) {q : Fin n} (pc : WorkerPc n)
    (worker : t.worker = Function.update s.worker q pc) (popper : t.popper = s.popper)
    (small : t.idleCount < 2 ^ 32)
    (others : ∀ r, r ≠ q → t.owes r = s.owes r)
    (owing : pc.Owing → t.owes q = true) (clear : pc.Clear → t.owes q = false)
    (even : t.Even ps) : Balanced t ps where
  small := small
  even := even
  disarmers p := by
    rw [popper]
    exact balanced.disarmers p
  owing r owes := by
    rw [worker] at owes
    rcases eq_or_ne r q with rfl | other
    · rw [Function.update_self] at owes
      exact owing owes
    · rw [Function.update_of_ne other] at owes
      rw [others r other]
      exact balanced.owing r owes
  clear r isClear := by
    rw [worker] at isClear
    rcases eq_or_ne r q with rfl | other
    · rw [Function.update_self] at isClear
      exact clear isClear
    · rw [Function.update_of_ne other] at isClear
      rw [others r other]
      exact balanced.clear r isClear

/-- The worker moves on without a change of what is counted. -/
theorem Balanced.passes (balanced : Balanced s ps) {q : Fin n} {pc : WorkerPc n}
    (worker : t.worker = Function.update s.worker q pc) (popper : t.popper = s.popper)
    (count : t.idleCount = s.idleCount) (armed : t.armed = s.armed) (owes : t.owes = s.owes)
    (debt : pc.debt = (s.worker q).debt) (owing : pc.Owing → s.owes q = true)
    (clear : pc.Clear → s.owes q = false) : Balanced t ps := by
  refine balanced.workerMoves pc worker popper (count ▸ balanced.small)
    (fun _ _ => by rw [owes]) (owes ▸ owing) (owes ▸ clear) ?_
  have even := balanced.even
  have debts := sum_update WorkerPc.debt s.worker q pc
  unfold Audited.Even at even ⊢
  rw [count, armed, owes, worker]
  omega

/-- A thread in `PopIdleWorker` moves. -/
theorem Balanced.popperMoves (balanced : Balanced s ps) {p : Nat} (pc : PopPc n)
    {ps' : Finset Nat} (popper : t.popper = Function.update s.popper p pc)
    (worker : t.worker = s.worker) (small : t.idleCount < 2 ^ 32) (owes : t.owes = s.owes)
    (others : ∀ p', p' ≠ p → (p' ∈ ps' ↔ p' ∈ ps)) (self : p ∈ ps' ↔ ∃ q, pc = .subCount q)
    (even : t.Even ps') : Balanced t ps' where
  small := small
  even := even
  disarmers p' := by
    rw [popper]
    rcases eq_or_ne p' p with rfl | other
    · rw [Function.update_self]
      exact self
    · rw [Function.update_of_ne other, others p' other]
      exact balanced.disarmers p'
  owing q := by
    rw [worker, owes]
    exact balanced.owing q
  clear q := by
    rw [worker, owes]
    exact balanced.clear q

/-- It moves without a change of what is counted. -/
theorem Balanced.popperPasses (balanced : Balanced s ps) {p : Nat} {pc : PopPc n}
    (popper : t.popper = Function.update s.popper p pc) (worker : t.worker = s.worker)
    (count : t.idleCount = s.idleCount) (armed : t.armed = s.armed) (owes : t.owes = s.owes)
    (was : ∀ q, s.popper p ≠ .subCount q) (is : ∀ q, pc ≠ .subCount q) : Balanced t ps := by
  refine balanced.popperMoves pc popper worker (count ▸ balanced.small) owes
    (fun _ _ => Iff.rfl) ⟨fun mem => ?_, fun there => ?_⟩ ?_
  · obtain ⟨q, here⟩ := (balanced.disarmers p).mp mem
    exact absurd here (was q)
  · obtain ⟨q, here⟩ := there
    exact absurd here (is q)
  · have even := balanced.even
    unfold Audited.Even at even ⊢
    rw [count, armed, owes, worker]
    exact even

/-! ## One step -/

/-- Counting down stays within the word. -/
theorem down_lt (count : Nat) : (count + (2 ^ 32 - 1)) % 2 ^ 32 < 2 ^ 32 :=
  Nat.mod_lt _ (Nat.two_pow_pos 32)

theorem Balanced.register (balanced : Balanced s ps) {q : Fin n} {t : State n}
    (stepped : Idle.step s.toState (.register q) = some t) :
    Balanced ⟨t, s.owesAfter (.register q)⟩ ps := by
  simp only [Idle.step] at stepped
  split at stepped
  · rename_i here
    cases stepped
    have unowed := balanced.clear q (here ▸ trivial)
    refine balanced.workerMoves .checkLinked rfl rfl balanced.small
      (fun r other => Function.update_of_ne other _ _) False.elim False.elim ?_
    have even := balanced.even
    have debts := sum_update WorkerPc.debt s.worker q .checkLinked
    have arms := sum_update Bool.toNat s.armed q true
    have owed := sum_update Bool.toNat s.owes q (!s.armed q)
    rw [here] at debts
    rw [unowed] at owed
    unfold Audited.Even at even ⊢
    simp only [Audited.owesAfter, State.setWorker, WorkerPc.debt] at *
    cases armed : s.armed q with
    | false =>
      simp only [armed, Bool.toNat_false, Bool.toNat_true, Bool.not_false] at arms owed ⊢
      omega
    | true =>
      simp only [armed, Bool.toNat_false, Bool.toNat_true, Bool.not_true] at arms owed ⊢
      omega
  · cases stepped

theorem Balanced.unregister (balanced : Balanced s ps) {q : Fin n} {t : State n}
    (stepped : Idle.step s.toState (.unregister q) = some t) : Balanced ⟨t, s.owes⟩ ps := by
  simp only [Idle.step] at stepped
  split at stepped
  · rename_i here
    cases stepped
    have unowed := balanced.clear q (here ▸ trivial)
    have even := balanced.even
    have arms := sum_update Bool.toNat s.armed q false
    cases armed : s.armed q with
    | false =>
      refine balanced.workerMoves .idle rfl rfl balanced.small (fun _ _ => rfl) False.elim
        (fun _ => unowed) ?_
      have debts := sum_update WorkerPc.debt s.worker q .idle
      rw [here] at debts
      rw [armed] at arms
      unfold Audited.Even at even ⊢
      simp only [State.setWorker, WorkerPc.debt, Bool.toNat_false, Bool.false_eq_true,
        if_false] at *
      omega
    | true =>
      refine balanced.workerMoves .subCount rfl rfl balanced.small (fun _ _ => rfl) False.elim
        (fun _ => unowed) ?_
      have debts := sum_update WorkerPc.debt s.worker q .subCount
      rw [here] at debts
      rw [armed] at arms
      unfold Audited.Even at even ⊢
      simp only [State.setWorker, WorkerPc.debt, Bool.toNat_false, Bool.toNat_true, if_true] at *
      omega
  · cases stepped

theorem Balanced.workerStep (balanced : Balanced s ps) {q : Fin n} {fails : Bool} {t : State n}
    (allowed : linkedIfArmed s (.worker q fails))
    (stepped : workerStep s.toState q fails = some t) :
    Balanced ⟨t, s.owesAfter (.worker q fails)⟩ ps := by
  have owing := balanced.owing q
  have clear := balanced.clear q
  unfold Idle.workerStep at stepped
  cases here : s.worker q with
  | idle =>
    rw [here] at stepped
    cases stepped
  | checkLinked =>
    have found := allowed here
    simp only [here] at stepped
    rw [s.owesAfter_worker fails here (by simp)]
    split at stepped
    · rename_i linked
      cases stepped
      rw [linked] at found
      exact balanced.passes rfl rfl rfl rfl rfl (by rw [here]; rfl) False.elim
        fun _ => by simpa using found.symm
    · rename_i unlinked
      cases stepped
      rw [Bool.eq_false_iff.mpr unlinked] at found
      exact balanced.passes rfl rfl rfl rfl rfl (by rw [here]; rfl)
        (fun _ => by simpa using found.symm) False.elim
  | mark | loadHead | setNext head =>
    simp only [here] at stepped
    rw [s.owesAfter_worker fails here (by simp)]
    cases stepped
    exact balanced.passes rfl rfl rfl rfl rfl (by rw [here]; rfl)
      (fun _ => owing (here ▸ trivial)) False.elim
  | swap head =>
    simp only [here] at stepped
    rw [s.owesAfter_worker fails here (by simp)]
    split at stepped
    · cases stepped
      exact balanced.passes rfl rfl rfl rfl rfl (by rw [here]; rfl)
        (fun _ => owing (here ▸ trivial)) False.elim
    · cases stepped
      exact balanced.passes rfl rfl rfl rfl rfl (by rw [here]; rfl)
        (fun _ => owing (here ▸ trivial)) False.elim
  | addCount =>
    simp only [here] at stepped
    rw [s.owesAfter_addCount fails here]
    cases stepped
    refine balanced.workerMoves .idle rfl rfl (Nat.mod_lt _ (Nat.two_pow_pos 32))
      (fun r other => Function.update_of_ne other _ _) False.elim
      (fun _ => Function.update_self _ _ _) ?_
    have even := balanced.even
    have debts := sum_update WorkerPc.debt s.worker q .idle
    have owed := sum_update Bool.toNat s.owes q false
    rw [here] at debts
    rw [owing (here ▸ trivial)] at owed
    unfold Audited.Even at even ⊢
    simp only [State.setWorker, WorkerPc.debt, Bool.toNat_false, Bool.toNat_true] at *
    omega
  | subCount =>
    simp only [here] at stepped
    rw [s.owesAfter_worker fails here (by simp)]
    obtain ⟨count, down, rfl⟩ : ∃ count, count = (s.idleCount + (2 ^ 32 - 1)) % 2 ^ 32 ∧
        t = { s.toState with idleCount := count }.setWorker q .idle :=
      ⟨_, rfl, (Option.some.inj stepped).symm⟩
    refine balanced.workerMoves .idle rfl rfl (down ▸ down_lt s.idleCount) (fun _ _ => rfl)
      False.elim (fun _ => clear (here ▸ trivial)) ?_
    have even := balanced.even
    have debts := sum_update WorkerPc.debt s.worker q .idle
    rw [here] at debts
    unfold Audited.Even at even ⊢
    simp only [State.setWorker, WorkerPc.debt] at *
    omega

theorem Balanced.popStep (balanced : Balanced s ps) {p : Nat} {fails : Bool} {t : State n}
    (stepped : popStep s.toState p fails = some t) : ∃ ps', Balanced ⟨t, s.owes⟩ ps' := by
  have even := balanced.even
  unfold Idle.popStep at stepped
  cases here : s.popper p with
  | idle | returned =>
    rw [here] at stepped
    cases stepped
  | loadHead =>
    simp only [here] at stepped
    cases first : s.top.index with
    | none | some q =>
      simp only [first] at stepped
      cases stepped
      exact ⟨ps, balanced.popperPasses rfl rfl rfl rfl rfl (by simp [here]) (by simp)⟩
  | loadNext head q since | clearLinked q =>
    simp only [here] at stepped
    cases stepped
    exact ⟨ps, balanced.popperPasses rfl rfl rfl rfl rfl (by simp [here]) (by simp)⟩
  | swap head q next since =>
    simp only [here] at stepped
    split at stepped
    · cases stepped
      exact ⟨ps, balanced.popperPasses rfl rfl rfl rfl rfl (by simp [here]) (by simp)⟩
    · cases stepped
      exact ⟨ps, balanced.popperPasses rfl rfl rfl rfl rfl (by simp [here]) (by simp)⟩
  | takeArmed q =>
    have new : p ∉ ps := by
      intro mem
      obtain ⟨r, absurd⟩ := (balanced.disarmers p).mp mem
      rw [here] at absurd
      cases absurd
    have arms := sum_update Bool.toNat s.armed q false
    simp only [here] at stepped
    cases stepped
    cases armed : s.armed q with
    | false =>
      refine ⟨ps, balanced.popperMoves .loadHead rfl rfl balanced.small rfl
        (fun _ _ => Iff.rfl) ⟨fun mem => absurd mem new, fun absurd => ?_⟩ ?_⟩
      · obtain ⟨r, absurd⟩ := absurd
        cases absurd
      · rw [armed] at arms
        unfold Audited.Even at even ⊢
        simp only [State.setPopper, Bool.toNat_false] at *
        omega
    | true =>
      refine ⟨insert p ps, balanced.popperMoves (.subCount q) rfl rfl balanced.small rfl
        (fun p' other => ?_) ⟨fun _ => ⟨q, rfl⟩, fun _ => Finset.mem_insert_self p ps⟩ ?_⟩
      · rw [Finset.mem_insert]
        exact or_iff_right other
      · rw [armed] at arms
        unfold Audited.Even at even ⊢
        rw [Finset.card_insert_of_notMem new]
        simp only [State.setPopper, Bool.toNat_false, Bool.toNat_true] at *
        omega
  | subCount q =>
    have mem : p ∈ ps := (balanced.disarmers p).mpr ⟨q, here⟩
    simp only [here] at stepped
    obtain ⟨count, down, rfl⟩ : ∃ count, count = (s.idleCount + (2 ^ 32 - 1)) % 2 ^ 32 ∧
        t = { s.toState with idleCount := count }.setPopper p (.checkState q) :=
      ⟨_, rfl, (Option.some.inj stepped).symm⟩
    refine ⟨ps.erase p, balanced.popperMoves (.checkState q) rfl rfl
      (down ▸ down_lt s.idleCount) rfl (fun p' other => ?_) ⟨fun absurd => ?_, fun absurd => ?_⟩
      ?_⟩
    · rw [Finset.mem_erase]
      exact and_iff_right other
    · exact (Finset.notMem_erase p ps absurd).elim
    · obtain ⟨r, absurd⟩ := absurd
      cases absurd
    · have fewer := Finset.card_erase_add_one mem
      unfold Audited.Even at even ⊢
      simp only [State.setPopper] at *
      omega
  | checkState q =>
    simp only [here] at stepped
    cases stepped
    refine ⟨ps, balanced.popperPasses rfl rfl rfl rfl rfl (by simp [here]) fun r => ?_⟩
    split <;> simp

theorem Balanced.step (balanced : Balanced s ps) (allowed : linkedIfArmed s a)
    (stepped : s.step a = some t) : ∃ ps', Balanced t ps' := by
  unfold Audited.step at stepped
  obtain ⟨u, moved, rfl⟩ := Option.map_eq_some_iff.mp stepped
  cases a with
  | setState q parked =>
    cases moved
    exact ⟨ps, balanced.small, balanced.even, balanced.disarmers, balanced.owing,
      balanced.clear⟩
  | register q => exact ⟨ps, balanced.register moved⟩
  | unregister q => exact ⟨ps, balanced.unregister moved⟩
  | worker q fails => exact ⟨ps, balanced.workerStep allowed moved⟩
  | pop p =>
    simp only [Idle.step] at moved
    cases here : s.popper p with
    | idle | returned =>
      simp only [here] at moved
      cases moved
      exact ⟨ps, balanced.popperPasses rfl rfl rfl rfl rfl (by simp [here]) (by simp)⟩
    | _ =>
      simp only [here] at moved
      cases moved
  | popper p fails => exact balanced.popStep moved

/-! ## The run -/

/-- Between the calls nothing is owed. -/
theorem Balanced.counts (balanced : Balanced s ps) (workers : n < 2 ^ 32)
    (quiet : s.Quiet) : s.Counts := by
  have unowed : ∑ q, (s.owes q).toNat = 0 :=
    Finset.sum_eq_zero fun q _ => by
      rw [balanced.clear q (quiet.1 q ▸ trivial)]
      rfl
  have paid : ∑ q, (s.worker q).debt = 0 :=
    Finset.sum_eq_zero fun q _ => by
      rw [quiet.1 q]
      rfl
  have none : ps = ∅ := by
    refine Finset.eq_empty_of_forall_notMem fun p mem => ?_
    obtain ⟨q, here⟩ := (balanced.disarmers p).mp mem
    rcases quiet.2 p with idle | ⟨r, returned⟩
    · rw [here] at idle
      cases idle
    · rw [here] at returned
      cases returned
  have number : ∑ q, (s.armed q).toNat = (Finset.univ.filter fun q => s.armed q = true).card := by
    rw [Finset.card_filter]
    exact Finset.sum_congr rfl fun q _ => by cases s.armed q <;> rfl
  have most : (Finset.univ.filter fun q => s.armed q = true).card ≤ n :=
    (Finset.card_filter_le _ _).trans_eq (Finset.card_fin n)
  have even := balanced.even
  have small := balanced.small
  unfold Audited.Even at even
  rw [unowed, paid, none, number, Finset.card_empty] at even
  unfold State.Counts
  omega

/-- Between the calls the count is right, in every run in which a `RegisterIdleWorker` finds its
node linked exactly when it found it armed. -/
theorem idleCount_counts {n : Nat} (workers : n < 2 ^ 32) {s : Audited n}
    (reach : Reach Audited.step linkedIfArmed (Audited.initial n) s) (quiet : s.Quiet) :
    s.Counts := by
  have inv : ∃ ps, Balanced s ps := by
    refine reach.invariant (I := fun s => ∃ ps, Balanced s ps) ⟨∅, initial_balanced⟩ ?_
    rintro s t a ⟨ps, balanced⟩ allowed stepped
    exact balanced.step allowed stepped
  obtain ⟨ps, balanced⟩ := inv
  exact balanced.counts workers quiet

/-- Two workers register, and one of them is popped. -/
def poppedLabels : List (Label 2) :=
  List.flatten [[.setState 0 true, .register 0], List.replicate 6 (.worker 0 false),
    [.setState 1 true, .register 1], List.replicate 6 (.worker 1 false),
    [.pop 0], List.replicate 7 (.popper 0 false)]

def popped : Audited 2 :=
  (run Audited.step linkedIfArmed (Audited.initial 2) poppedLabels).getD (Audited.initial 2)

theorem popped_quiet : popped.Quiet := by
  refine ⟨by decide +kernel, fun p => ?_⟩
  rcases Nat.eq_zero_or_pos p with rfl | other
  · exact .inr ⟨some 1, by decide +kernel⟩
  · obtain ⟨k, rfl⟩ := Nat.exists_eq_succ_of_ne_zero other.ne'
    exact .inl rfl

theorem popped_counts : popped.idleCount = 1 ∧ popped.Counts :=
  ⟨by decide +kernel, idleCount_counts (by decide)
    (Reach.of_isSome poppedLabels (by decide +kernel)) popped_quiet⟩

/-- A worker registers, is woken without being popped, and registers again over its link. -/
def relinkedLabels : List (Label 1) :=
  List.flatten [[.register 0], List.replicate 6 (.worker 0 false),
    [.unregister 0, .worker 0 false, .register 0, .worker 0 false]]

def relinked : State 1 := (run Idle.step anyStep (initial 1) relinkedLabels).getD (initial 1)

/-- It is woken so once more. -/
def wrapped : State 1 :=
  (run Idle.step anyStep relinked [.unregister 0, .worker 0 false]).getD relinked

theorem relinked_quiet : relinked.Quiet := ⟨by decide +kernel, fun _ => .inl rfl⟩

/-- The worker that is armed over its link is not counted, and its disarming takes the count below
zero. -/
theorem relinked_uncounted :
    (¬ ∀ s : State 1, Reach Idle.step anyStep (initial 1) s → s.Quiet → s.Counts) ∧
      wrapped.idleCount = 2 ^ 32 - 1 := by
  refine ⟨fun counts => ?_, by decide +kernel⟩
  have wrong := counts relinked (Reach.of_isSome relinkedLabels (by decide +kernel)) relinked_quiet
  exact absurd wrong (by unfold State.Counts; decide +kernel)

end JLibSched.Idle
