import JLibSched.Executor.Completion

/-!
# Spawned coroutines

A coroutine's promise keeps what it owes in `Complete`: `Done` on the group, `FreeTask`, and the
signal to the node; after that the frame is destroyed.  `DiscardIfCancelled` knows the task only: it
calls `Done` and `FreeTask`, and the frame of an unstarted coroutine stays, with the node that waits
for it.
-/

namespace JLibSched.Executor

open Transition

variable {n : Nat} {c : Setup} {s : State n}

/-- What a spawned coroutine owes in the end. -/
def Paid (c : Setup) (l : Ledger) : Prop :=
  l.dones = c.waitGroup.toNat ∧ l.frees = 1 ∧ l.signals = c.dagNode.toNat ∧ l.destroyed = 1

/-- Nothing is done twice, and in the end all is done if the task was not discarded. -/
structure Reports (c : Setup) (s : State n) : Prop where
  done : s.ledger.dones ≤ c.waitGroup.toNat
  free : s.ledger.frees ≤ 1
  signal : s.ledger.signals ≤ c.dagNode.toNat
  destroy : s.ledger.destroyed ≤ 1
  ended : s.loc = .gone → (∀ e, s.pc e = .idle) →
    (Paid c s.ledger ↔ s.ledger.discarded = false)

theorem Over.paid_iff (ended : Over c s) (coroutine : c.type = .coroutine) :
    Paid c s.ledger ↔ s.ledger.discarded = false := by
  unfold Paid
  cases ended with
  | finished body signals destroyed freed reports =>
    obtain ⟨rfl, rfl⟩ := reports coroutine
    unfold Freed at freed
    rw [freed]
    simp
  | discarded body discarded =>
    unfold Discarded at discarded
    rw [discarded]
    simp

/-- Nothing is done twice as long as an executor or a queue has the task. -/
theorem Reports.of {dones frees signals destroyed : Nat} {discarded : Bool}
    (ledger : s.ledger = ⟨dones, frees, signals, destroyed, discarded, false⟩)
    (most : dones ≤ c.waitGroup.toNat ∧ frees ≤ 1 ∧ signals ≤ c.dagNode.toNat ∧ destroyed ≤ 1)
    (ended : s.loc = .gone → (∀ e, s.pc e = .idle) →
      (Paid c s.ledger ↔ s.ledger.discarded = false)) : Reports c s where
  done := by
    rw [ledger]
    exact most.1
  free := by
    rw [ledger]
    exact most.2.1
  signal := by
    rw [ledger]
    exact most.2.2.1
  destroy := by
    rw [ledger]
    exact most.2.2.2
  ended := ended

theorem Reports.of_alive (alive : Alive s) (stays : s.loc ≠ .gone) : Reports c s :=
  .of alive ⟨Nat.zero_le _, Nat.zero_le _, Nat.zero_le _, Nat.zero_le _⟩
    fun gone => absurd gone stays

theorem RestOk.reports (rest : RestOk c s) (coroutine : c.type = .coroutine) : Reports c s := by
  unfold RestOk at rest
  cases loc : s.loc with
  | hand =>
    rw [loc] at rest
    exact rest.elim
  | mainQ =>
    rw [loc] at rest
    exact absurd coroutine rest.2
  | waiting | unborn | shared | placing =>
    rw [loc] at rest
    exact .of_alive rest.alive (by rw [loc]; decide)
  | inbox worker =>
    rw [loc] at rest
    exact .of_alive rest.alive (by rw [loc]; exact fun absurd => by cases absurd)
  | gone =>
    rw [loc] at rest
    have over' := rest
    cases rest with
    | finished body signals destroyed freed reports =>
      obtain ⟨rfl, rfl⟩ := reports coroutine
      exact .of freed ⟨le_rfl, le_rfl, le_rfl, le_rfl⟩ fun _ _ => over'.paid_iff coroutine
    | discarded body discarded =>
      exact .of discarded ⟨le_rfl, le_rfl, Nat.zero_le _, Nat.zero_le _⟩
        fun _ _ => over'.paid_iff coroutine

theorem PcOk.reports {pc : Pc} (ok : PcOk c s pc) {e : Fin n} (busy : s.pc e ≠ .idle) :
    Reports c s := by
  have hand (loc : s.loc = .hand) : s.loc ≠ .gone := by
    rw [loc]
    decide
  have later : s.loc = .gone → (∀ e, s.pc e = .idle) →
      (Paid c s.ledger ↔ s.ledger.discarded = false) := fun _ idle => absurd (idle e) busy
  cases pc with
  | idle => exact ok.elim
  | taken | passed => exact .of_alive ok.2.1.alive (hand ok.1)
  | onStack | onFiber | leaving | returned | executed | completing =>
    exact .of_alive ok.2.1 (hand ok.1)
  | discarding =>
    exact .of ok.2.1 ⟨Nat.zero_le _, Nat.zero_le _, Nat.zero_le _, Nat.zero_le _⟩ later
  | discardFree | releasing | freeing | completeFree =>
    exact .of ok.2.1 ⟨le_rfl, Nat.zero_le _, Nat.zero_le _, Nat.zero_le _⟩ later
  | completeSignal => exact .of ok.2.1 ⟨le_rfl, le_rfl, Nat.zero_le _, Nat.zero_le _⟩ later
  | completed => exact .of ok.2.1 ⟨le_rfl, le_rfl, le_rfl, Nat.zero_le _⟩ later

/-- A spawned coroutine that does not get to main out of the pool pays what it owes if and only if
it was not discarded. -/
theorem spawned_reports (coroutine : c.type = .coroutine)
    (reach : Reach (step c) (offMain c) initial s) : Reports c s := by
  have inv := inv_of_reach reach
  by_cases idle : ∀ e, s.pc e = .idle
  · exact (inv.rest idle).reports coroutine
  · push Not at idle
    obtain ⟨e, busy⟩ := idle
    exact (inv.alone e busy).1.reports busy

/-- A coroutine with a node and no group. -/
def withNode : Setup where
  type := .coroutine
  waitGroup := false
  dagNode := true
  outOfPool := false
  pinForced := false
  workers := 1

/-- It suspends, is resumed by a waker and finishes. -/
def reportedLabels : List (Label 1) :=
  [.push, .take 0 (.worker 0), .advance 0 false, .advance 0 false, .body 0 (.suspend .none),
    .resume, .place, .take 0 (.worker 0), .advance 0 false, .advance 0 false, .body 0 .finish,
    .advance 0 false, .advance 0 false, .advance 0 false, .advance 0 false]

def reported : State 1 := (run (step withNode) (offMain withNode) initial reportedLabels).getD initial

theorem reported_paid : reported.ledger = ⟨0, 1, 1, 1, false, false⟩ ∧ Reports withNode reported :=
  ⟨by decide +kernel, spawned_reports rfl (Reach.of_isSome reportedLabels (by decide +kernel))⟩

/-- Its token is cancelled before a worker takes it. -/
def unreportedLabels : List (Label 1) :=
  [.push, .take 0 (.worker 0), .advance 0 true, .advance 0 false, .advance 0 false]

def unreported : State 1 :=
  (run (step withNode) (offMain withNode) initial unreportedLabels).getD initial

/-- The node was not signalled and the frame was not destroyed, and nobody has the task. -/
theorem discarded_unpaid : Reach (step withNode) (offMain withNode) initial unreported ∧
    unreported.loc = .gone ∧ (∀ e, unreported.pc e = .idle) ∧
      unreported.ledger.signals = 0 ∧ unreported.ledger.destroyed = 0 ∧
      ¬ Paid withNode unreported.ledger := by
  have signals : unreported.ledger.signals = 0 := by decide +kernel
  refine ⟨Reach.of_isSome unreportedLabels (by decide +kernel), by decide +kernel,
    by decide +kernel, signals, by decide +kernel, fun paid => ?_⟩
  have signalled := paid.2.2.1
  rw [signals] at signalled
  cases signalled

end JLibSched.Executor
