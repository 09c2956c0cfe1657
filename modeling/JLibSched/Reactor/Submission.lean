import JLibSched.Reactor.Moves

/-!
# What the ring does with a submission

`SubmitOp` puts an entry into the ring before it calls `io_uring_enter`, and leaves it there when the
call fails; the next call that succeeds takes it.  While no call of `SubmitOp` fails so, a submission
that was reported as failed never completes, and while a cancel or a wake is left in the ring only
when there is nothing else, a submission that was accepted is taken by the next call at the latest.
-/

namespace JLibSched.Reactor

open Transition Ring

variable {n : Nat} {s t : State n} {a : Label n} {p u : Fin n} {c : Call} {x : Sqe} {entered : Bool}
  {k : Nat}

/-- The number of the call of `SubmitOp` that a party is in. -/
def Pc.number : Pc → Option Nat
  | .tested c | .passed c | .linked c | .failing c => some c.number
  | .idle | .resubmitting _ | .finishing _ | .sweeping _ _ _ | .cancelling _ _ _ _ => none

/-- The entry of a call has come into the ring. -/
def State.Sent (s : State n) (k : Nat) : Prop :=
  (∃ r, .op r k ∈ s.ring.pending) ∨ (∃ r, (r, k) ∈ s.kernel) ∨ k ∈ s.delivered

/-- `io_uring_enter` does not fail for an operation, and for a cancel only when nothing was left in
the ring. -/
def State.entersInOrder (s : State n) (entered : Bool) : Pc → Prop
  | .linked _ => entered = true
  | .cancelling _ _ (_ :: _) _ => entered = true ∨ s.ring.count = 0
  | _ => True

/-- The same for a wake. -/
def inOrder (s : State n) : Label n → Prop
  | .advance p entered => s.entersInOrder entered (s.pc p)
  | .postWake _ entered => entered = true ∨ s.ring.count = 0
  | _ => True

instance (s : State n) (entered : Bool) : ∀ pc, Decidable (s.entersInOrder entered pc)
  | .linked _ => inferInstanceAs (Decidable (entered = true))
  | .cancelling _ _ (_ :: _) _ => inferInstanceAs (Decidable (entered = true ∨ s.ring.count = 0))
  | .idle | .tested _ | .passed _ | .failing _ | .resubmitting _ | .finishing _ | .sweeping _ _ _
  | .cancelling _ _ [] _ => isTrue trivial

instance (s : State n) : ∀ a, Decidable (inOrder s a)
  | .advance p entered => inferInstanceAs (Decidable (s.entersInOrder entered (s.pc p)))
  | .postWake _ entered => inferInstanceAs (Decidable (entered = true ∨ s.ring.count = 0))
  | .submit _ _ _ _ _ _ | .complete _ _ _ _ | .requestCancel _ _ | .start | .stop | .scopes _ =>
    isTrue trivial

/-! ## The entries -/

theorem mem_ops {r : Nat} : (r, k) ∈ x.ops ↔ x = .op r k := by
  cases x with
  | op r' k' =>
    unfold Sqe.ops
    rw [List.mem_singleton, Prod.mk.injEq, Sqe.op.injEq, eq_comm, @eq_comm _ k]
  | cancel | wake =>
    constructor
    · intro mem
      cases mem
    · intro same
      cases same

/-- Whether an entry is taken or not, its call has come into the ring, and no other one. -/
theorem enter_sent (sound : s.ring.Sound) {i : UInt32} (room : s.ring.next = some i) :
    (s.enter x entered).Sent k ↔ s.Sent k ∨ ∃ r, x = .op r k := by
  unfold State.Sent
  cases entered with
  | false =>
    obtain ⟨ring, -, pending, same⟩ := enter_failed (x := x) sound room
    rw [same]
    simp only [pending, List.mem_append, List.mem_singleton, exists_or, @eq_comm _ _ x]
    tauto
  | true =>
    obtain ⟨first, rest, ring, whole, -, pending, same⟩ := enter_taken (x := x) sound room
    have ops (r : Nat) : .op r k ∈ s.ring.pending ∨ x = .op r k ↔
        (r, k) ∈ first.ops ∨ .op r k ∈ rest := by
      rw [mem_ops, @eq_comm _ x, @eq_comm _ first, ← List.mem_singleton, ← List.mem_append, whole,
        List.mem_cons]
    rw [same]
    simp only [pending, List.mem_append, exists_or]
    have split : ((∃ r, .op r k ∈ s.ring.pending) ∨ ∃ r, x = .op r k) ↔
        (∃ r, (r, k) ∈ first.ops) ∨ ∃ r, .op r k ∈ rest := by
      rw [← exists_or, ← exists_or]
      exact exists_congr ops
    tauto

/-- At most one entry is left when there was at most one. -/
theorem enter_short (sound : s.ring.Sound) {i : UInt32} (room : s.ring.next = some i)
    (may : entered = true ∨ s.ring.count = 0) (short : s.ring.pending.length ≤ 1) :
    (s.enter x entered).ring.pending.length ≤ 1 := by
  cases entered with
  | false =>
    obtain ⟨ring, -, pending, same⟩ := enter_failed (x := x) sound room
    have empty : s.ring.pending.length = 0 := by
      rw [Buffer.length_pending]
      exact may.resolve_left Bool.false_ne_true
    rw [same, pending, List.length_append, List.length_singleton, empty]
  | true =>
    obtain ⟨first, rest, ring, whole, -, pending, same⟩ := enter_taken (x := x) sound room
    have lengths := congrArg List.length whole
    rw [List.length_append, List.length_singleton, List.length_cons] at lengths
    rw [same, pending]
    omega

/-- The call changes the ring, what the kernel has and how often it was entered. -/
theorem enter_calls (s : State n) (x : Sqe) (entered : Bool) : (s.enter x entered).pc = s.pc ∧ (s.enter x entered).calls = s.calls ∧
    (s.enter x entered).failed = s.failed ∧ (s.enter x entered).accepted = s.accepted := by
  obtain ⟨ring, kernel, times, same⟩ := enter_frame s x entered
  rw [same]
  exact ⟨rfl, rfl, rfl, rfl⟩

/-! ## What a step does to the calls -/

/-- The calls of `SubmitOp` after a step. -/
inductive Counts (s t : State n) : Prop
  /-- No call begins, fails or is accepted, though one may return. -/
  | same (calls : t.calls = s.calls) (failed : t.failed = s.failed)
      (accepted : t.accepted = s.accepted)
      (numbers : ∀ u k, (t.pc u).number = some k → (s.pc u).number = some k)
      (sent : ∀ k, t.Sent k ↔ s.Sent k)
  | begin (p : Fin n) (calls : t.calls = s.calls + 1) (failed : t.failed = s.failed)
      (accepted : t.accepted = s.accepted)
      (numbers : ∀ u k, (t.pc u).number = some k →
        u = p ∧ k = s.calls ∨ (s.pc u).number = some k)
      (sent : ∀ k, t.Sent k ↔ s.Sent k)
  | fail (p : Fin n) (k : Nat) (here : (s.pc p).number = some k) (calls : t.calls = s.calls)
      (failed : t.failed = k :: s.failed) (accepted : t.accepted = s.accepted)
      (numbers : ∀ u k, (t.pc u).number = some k → u ≠ p ∧ (s.pc u).number = some k)
      (sent : ∀ k, t.Sent k ↔ s.Sent k)
  | accept (p : Fin n) (k : Nat) (here : (s.pc p).number = some k) (calls : t.calls = s.calls)
      (failed : t.failed = s.failed) (accepted : t.accepted = k :: s.accepted)
      (numbers : ∀ u k, (t.pc u).number = some k → u ≠ p ∧ (s.pc u).number = some k)
      (sent : ∀ j, t.Sent j ↔ s.Sent j ∨ j = k)

/-- What does not matter for the calls may be written before. -/
theorem Counts.of_frame {s' : State n} (counts : Counts s' t) (calls : s'.calls = s.calls)
    (failed : s'.failed = s.failed) (accepted : s'.accepted = s.accepted) (pc : s'.pc = s.pc)
    (sent : ∀ k, s'.Sent k ↔ s.Sent k) : Counts s t := by
  cases counts with
  | same calls' failed' accepted' numbers sent' =>
    rw [pc] at numbers
    exact .same (calls'.trans calls) (failed'.trans failed) (accepted'.trans accepted) numbers
      fun k => (sent' k).trans (sent k)
  | begin p calls' failed' accepted' numbers sent' =>
    rw [pc, calls] at numbers
    rw [calls] at calls'
    exact .begin p calls' (failed'.trans failed) (accepted'.trans accepted) numbers
      fun k => (sent' k).trans (sent k)
  | fail p k here calls' failed' accepted' numbers sent' =>
    rw [pc] at numbers here
    rw [failed] at failed'
    exact .fail p k here (calls'.trans calls) failed' (accepted'.trans accepted) numbers
      fun k => (sent' k).trans (sent k)
  | accept p k here calls' failed' accepted' numbers sent' =>
    rw [pc] at numbers here
    rw [accepted] at accepted'
    exact .accept p k here (calls'.trans calls) (failed'.trans failed) accepted' numbers
      fun j => (sent' j).trans (or_congr_left (sent j))

/-- A party that goes where it is in no call. -/
theorem numbers_none {pc : Pc} (none : pc.number = none) (u : Fin n) (k : Nat)
    (has : (Function.update s.pc p pc u).number = some k) : u ≠ p ∧ (s.pc u).number = some k := by
  rcases eq_or_ne u p with rfl | other
  · rw [Function.update_self, none] at has
    cases has
  · rw [Function.update_of_ne other] at has
    exact ⟨other, has⟩

/-- A party that goes on in its call. -/
theorem numbers_same {pc : Pc} (same : pc.number = (s.pc p).number) (u : Fin n) (k : Nat)
    (has : (Function.update s.pc p pc u).number = some k) : (s.pc u).number = some k := by
  rcases eq_or_ne u p with rfl | other
  · rw [Function.update_self, same] at has
    exact has
  · rw [Function.update_of_ne other] at has
    exact has

/-- Where a party that is refused goes, it is in no call. -/
theorem refuse_pc : ∃ pc : Pc, pc.number = none ∧ (s.refuse p c).pc = Function.update s.pc p pc := by
  unfold State.refuse
  split
  · exact ⟨.idle, rfl, rfl⟩
  · exact ⟨.finishing c.r, rfl, rfl⟩

theorem refuse_frame : (s.refuse p c).calls = s.calls ∧ (s.refuse p c).failed = s.failed := by
  unfold State.refuse
  split <;> exact ⟨rfl, rfl⟩

theorem sent_of_quiet (quiet : Quiet s t) : t.Sent k ↔ s.Sent k := by
  unfold State.Sent
  rw [quiet.ring, quiet.kernel, quiet.delivered]

theorem fail_counts (here : (s.pc p).number = some c.number) : Counts s (s.fail p c) := by
  obtain ⟨pc, none, went⟩ := refuse_pc (s := s) (p := p) (c := c)
  have calls := (refuse_frame (s := s) (p := p) (c := c)).1
  refine .fail p c.number here calls rfl fail_quiet.accepted (fun u k has => ?_)
    fun k => sent_of_quiet fail_quiet
  have same : (s.fail p c).pc = (s.refuse p c).pc := rfl
  rw [same, went] at has
  exact numbers_none none u k has

theorem submitOp_counts (number : c.number = s.calls) : Counts s (s.submitOp p c) := by
  have sent (k : Nat) : (s.submitOp p c).Sent k ↔ s.Sent k := sent_of_quiet submitOp_quiet
  have accepted := (submitOp_quiet (s := s) (p := p) (c := c)).accepted
  generalize after : s.submitOp p c = t at sent accepted ⊢
  unfold State.submitOp at after
  simp only at after
  split at after
  · subst after
    obtain ⟨calls, failed⟩ := refuse_frame (p := p) (c := c)
      (s := { s with calls := s.calls + 1, busy := Function.update s.busy c.r true })
    obtain ⟨pc, none, went⟩ := refuse_pc (p := p) (c := c)
      (s := { s with calls := s.calls + 1, busy := Function.update s.busy c.r true })
    refine .begin p calls failed accepted (fun u k has => ?_) sent
    rw [went] at has
    exact .inr (numbers_none none u k has).2
  · subst after
    refine .begin p rfl rfl accepted (fun u k has => ?_) sent
    have has : (Function.update s.pc p (.tested c) u).number = some k := has
    rcases eq_or_ne u p with rfl | other
    · rw [Function.update_self] at has
      cases has
      exact .inl ⟨rfl, number⟩
    · rw [Function.update_of_ne other] at has
      exact .inr has

theorem complete_counts (p : Fin n) (r call : Nat) (res : Int) (has : (r, call) ∈ s.kernel) :
    Counts s (s.complete p r call res) := by
  obtain ⟨ring, kernel, -⟩ := complete_ring (s := s) p r call res
  have delivered : (s.complete p r call res).delivered = call :: s.delivered := by
    unfold State.complete
    simp only
    split <;> rfl
  have pc : ∃ pc : Pc, pc.number = none ∧
      (s.complete p r call res).pc = Function.update s.pc p pc := by
    unfold State.complete
    simp only
    split
    · exact ⟨.resubmitting r, rfl, rfl⟩
    · exact ⟨.finishing r, rfl, rfl⟩
  have rest : (s.complete p r call res).calls = s.calls ∧
      (s.complete p r call res).failed = s.failed ∧
      (s.complete p r call res).accepted = s.accepted := by
    unfold State.complete
    simp only
    split <;> exact ⟨rfl, rfl, rfl⟩
  obtain ⟨pc, none, went⟩ := pc
  refine .same rest.1 rest.2.1 rest.2.2 (fun u k number => ?_) fun k => ?_
  · rw [went] at number
    exact (numbers_none none u k number).2
  · unfold State.Sent
    rw [ring, kernel, delivered, List.mem_cons]
    constructor
    · rintro (pending | ⟨x, mem⟩ | rfl | before)
      · exact .inl pending
      · exact .inr (.inl ⟨x, List.mem_of_mem_erase mem⟩)
      · exact .inr (.inl ⟨r, has⟩)
      · exact .inr (.inr before)
    · rintro (pending | ⟨x, mem⟩ | before)
      · exact .inl pending
      · rcases eq_or_ne (x, k) (r, call) with same | other
        · cases same
          exact .inr (.inr (.inl rfl))
        · exact .inr (.inl ⟨x, (List.mem_erase_of_ne other).mpr mem⟩)
      · exact .inr (.inr (.inr before))

/-- An entry of which the kernel has taken another one, or none. -/
theorem submitEntry_counts (sound : s.ring.Sound) (here : s.pc p = .linked c)
    (may : entered = true) : Counts s (s.submitEntry p c entered) := by
  subst may
  have number : (s.pc p).number = some c.number := by
    rw [here]
    rfl
  cases room : s.ring.next with
  | none =>
    rw [submitEntry_full room]
    exact .same rfl rfl rfl (numbers_same (number.symm)) fun _ => Iff.rfl
  | some i =>
    obtain ⟨pc, calls, failed, accepted⟩ :=
      enter_calls s (.op c.r c.number) true
    rw [submitEntry_taken room]
    refine .accept p c.number number calls failed (congrArg (c.number :: ·) accepted)
      (fun u k has => ?_) fun j => ?_
    · have has : (Function.update (s.enter (.op c.r c.number) true).pc p .idle u).number = some k :=
        has
      rw [pc] at has
      exact numbers_none rfl u k has
    · have sent : (s.enter (.op c.r c.number) true).Sent j ↔ _ := enter_sent sound room
      refine sent.trans (or_congr_right ⟨?_, ?_⟩)
      · rintro ⟨r, same⟩
        cases same
        rfl
      · rintro rfl
        exact ⟨c.r, rfl⟩

theorem submitCancel_counts {token shard r : Nat} {targets : List Nat} {marked : Bool}
    (sound : s.ring.Sound) : Counts s (s.submitCancel p token shard r targets marked entered) := by
  cases room : s.ring.next with
  | none =>
    rw [submitCancel_full room]
    exact .same rfl rfl rfl (fun u k has => (numbers_none rfl u k has).2) fun _ => Iff.rfl
  | some i =>
    obtain ⟨pc, calls, failed, accepted⟩ :=
      enter_calls s (.cancel r) entered
    have sent (k : Nat) : (s.enter (.cancel r) entered).Sent k ↔ s.Sent k := by
      rw [enter_sent sound room]
      exact or_iff_left fun ⟨_, absurd⟩ => by cases absurd
    cases entered with
    | false =>
      rw [submitCancel_failed room]
      refine .same calls failed accepted (fun u k has => ?_) sent
      unfold State.go at has
      simp only [pc] at has
      exact (numbers_none rfl u k has).2
    | true =>
      rw [submitCancel_taken room]
      refine .same calls failed accepted (fun u k has => ?_) sent
      unfold State.go at has
      simp only [pc] at has
      exact (numbers_none rfl u k has).2

theorem wake_counts (sound : s.ring.Sound) {i : UInt32} (room : s.ring.next = some i) :
    Counts s (s.enter .wake entered) := by
  obtain ⟨pc, calls, failed, accepted⟩ := enter_calls s .wake entered
  refine .same calls failed accepted (fun u k has => ?_) fun k => ?_
  · rw [pc] at has
    exact has
  · rw [enter_sent sound room]
    exact or_iff_left fun ⟨_, absurd⟩ => by cases absurd

theorem Move.counts (move : Move s a t) (sound : s.ring.Sound) (may : inOrder s a) :
    Counts s t := by
  cases move with
  | nothing | start | stop | scopes =>
    exact .same rfl rfl rfl (fun u k has => has) fun k => Iff.rfl
  | giveUp | finish | requestCancel | collect | sweep | nextShard =>
    exact .same rfl rfl rfl (fun u k has => (numbers_none rfl u k has).2) fun k => Iff.rfl
  | pass p c entered here =>
    have number : (Pc.passed c).number = (s.pc p).number := by
      rw [here]
      rfl
    exact .same rfl rfl rfl (numbers_same number) fun k => Iff.rfl
  | link p c entered here =>
    have number : (Pc.linked c).number = (s.pc p).number := by
      rw [here]
      rfl
    exact .same rfl rfl rfl (numbers_same number) fun k => Iff.rfl
  | submit p r op out resume scope filled =>
    have begun : Counts (s.fill r filled) ((s.fill r filled).submitOp p
        ⟨r, ⟨out, resume, s.tokenOf scope⟩, s.calls, .caller⟩) := submitOp_counts rfl
    exact begun.of_frame rfl rfl rfl rfl fun k => Iff.rfl
  | resubmit => exact submitOp_counts rfl
  | fail p c entered here => exact fail_counts (congrArg Pc.number here)
  | drop p c entered here =>
    have number : ((s.unlink c.r).pc p).number = some c.number := congrArg Pc.number here
    exact (fail_counts number).of_frame rfl rfl rfl rfl fun k => Iff.rfl
  | entry p c entered here =>
    refine submitEntry_counts sound here ?_
    simp only [inOrder, here] at may
    exact may
  | cancel => exact submitCancel_counts sound
  | wake p entered idle room => exact wake_counts sound room
  | complete p r call res idle has => exact complete_counts p r call res has

/-! ## Runs -/

/-- What holds of the calls, and of what is left in the ring. -/
structure InOrder (s : State n) : Prop where
  sound : s.ring.Sound
  short : s.ring.pending.length ≤ 1
  /-- A call that has not returned is not told anything, and its entry is not in the ring. -/
  own : ∀ p k, (s.pc p).number = some k → k < s.calls ∧ k ∉ s.failed ∧ ¬ s.Sent k
  apart : ∀ p u k, (s.pc p).number = some k → (s.pc u).number = some k → p = u
  sent : ∀ k, s.Sent k → k < s.calls
  failed : ∀ k ∈ s.failed, k < s.calls ∧ ¬ s.Sent k
  accepted : ∀ k ∈ s.accepted, s.Sent k

theorem initial_inOrder {ringUp : Bool} : InOrder (initial n ringUp) where
  sound := initial_ring
  short := by
    rw [initial_pending]
    exact Nat.zero_le _
  own p k absurd := by cases absurd
  apart p u k absurd := by cases absurd
  sent k sent := by
    rcases sent with ⟨r, absurd⟩ | ⟨r, absurd⟩ | absurd
    · rw [initial_pending] at absurd
      cases absurd
    · cases absurd
    · cases absurd
  failed k absurd := by cases absurd
  accepted k absurd := by cases absurd

/-- At most one entry is left after a step. -/
theorem Move.short (move : Move s a t) (sound : s.ring.Sound) (may : inOrder s a)
    (short : s.ring.pending.length ≤ 1) : t.ring.pending.length ≤ 1 := by
  cases move with
  | nothing | giveUp | pass | link | finish | requestCancel | collect | sweep | nextShard | start
  | stop | scopes => exact short
  | submit p r op out resume scope filled =>
    rw [(submitOp_quiet (s := s.fill r filled)).ring]
    exact short
  | resubmit =>
    rw [submitOp_quiet.ring]
    exact short
  | fail =>
    rw [fail_quiet.ring]
    exact short
  | drop p c =>
    rw [(fail_quiet (s := s.unlink c.r)).ring]
    exact short
  | entry p c entered here =>
    simp only [inOrder, here] at may
    have entered : entered = true := may
    subst entered
    cases room : s.ring.next with
    | none =>
      rw [submitEntry_full room]
      exact short
    | some i =>
      rw [submitEntry_taken room]
      exact enter_short sound room (.inl rfl) short
  | cancel p token shard r targets marked entered here =>
    simp only [inOrder, here] at may
    cases room : s.ring.next with
    | none =>
      rw [submitCancel_full room]
      exact short
    | some i =>
      have left := enter_short (x := .cancel r) sound room may short
      cases entered with
      | false =>
        rw [submitCancel_failed room]
        exact left
      | true =>
        rw [submitCancel_taken room]
        exact left
  | wake p entered idle room => exact enter_short sound room may short
  | complete p r call res =>
    rw [(complete_ring (s := s) p r call res).1]
    exact short

theorem InOrder.counts (inv : InOrder s) (counts : Counts s t) (sound : t.ring.Sound)
    (short : t.ring.pending.length ≤ 1) : InOrder t := by
  cases counts with
  | same calls failed accepted numbers sent =>
    refine ⟨sound, short, fun p k has => ?_, fun p u k has has' => ?_, fun k mem => ?_,
      fun k mem => ?_, fun k mem => ?_⟩
    · rw [calls, failed, sent]
      exact inv.own p k (numbers p k has)
    · exact inv.apart p u k (numbers p k has) (numbers u k has')
    · rw [calls]
      exact inv.sent k ((sent k).mp mem)
    · rw [failed] at mem
      rw [calls, sent]
      exact inv.failed k mem
    · rw [accepted] at mem
      exact (sent k).mpr (inv.accepted k mem)
  | begin p calls failed accepted numbers sent =>
    -- the number is a new one
    have new : s.calls ∉ s.failed ∧ ¬ s.Sent s.calls :=
      ⟨fun mem => Nat.lt_irrefl _ (inv.failed _ mem).1, fun mem => Nat.lt_irrefl _ (inv.sent _ mem)⟩
    have others (u : Fin n) : (s.pc u).number ≠ some s.calls :=
      fun has => Nat.lt_irrefl _ (inv.own u _ has).1
    refine ⟨sound, short, fun u k has => ?_, fun u v k has has' => ?_, fun k mem => ?_,
      fun k mem => ?_, fun k mem => ?_⟩
    · rw [calls, failed, sent]
      rcases numbers u k has with ⟨rfl, rfl⟩ | before
      · exact ⟨Nat.lt_succ_self _, new⟩
      · obtain ⟨bound, rest⟩ := inv.own u k before
        exact ⟨Nat.lt_succ_of_lt bound, rest⟩
    · rcases numbers u k has with ⟨rfl, rfl⟩ | before
      · rcases numbers v _ has' with ⟨rfl, -⟩ | before
        · rfl
        · exact absurd before (others v)
      · rcases numbers v k has' with ⟨rfl, rfl⟩ | before'
        · exact absurd before (others u)
        · exact inv.apart u v k before before'
    · rw [calls]
      exact Nat.lt_succ_of_lt (inv.sent k ((sent k).mp mem))
    · rw [failed] at mem
      rw [calls, sent]
      obtain ⟨bound, silent⟩ := inv.failed k mem
      exact ⟨Nat.lt_succ_of_lt bound, silent⟩
    · rw [accepted] at mem
      exact (sent k).mpr (inv.accepted k mem)
  | fail p k here calls failed accepted numbers sent =>
    obtain ⟨bound, -, silent⟩ := inv.own p k here
    refine ⟨sound, short, fun u j has => ?_, fun u v j has has' => ?_, fun j mem => ?_,
      fun j mem => ?_, fun j mem => ?_⟩
    · obtain ⟨other, before⟩ := numbers u j has
      obtain ⟨small, unfailed, unsent⟩ := inv.own u j before
      rw [calls, failed, sent, List.mem_cons, not_or]
      refine ⟨small, ⟨?_, unfailed⟩, unsent⟩
      rintro rfl
      exact other (inv.apart u p j before here)
    · exact inv.apart u v j (numbers u j has).2 (numbers v j has').2
    · rw [calls]
      exact inv.sent j ((sent j).mp mem)
    · rw [failed] at mem
      rw [calls, sent]
      rcases List.mem_cons.mp mem with rfl | before
      · exact ⟨bound, silent⟩
      · exact inv.failed j before
    · rw [accepted] at mem
      exact (sent j).mpr (inv.accepted j mem)
  | accept p k here calls failed accepted numbers sent =>
    obtain ⟨bound, unfailed, -⟩ := inv.own p k here
    refine ⟨sound, short, fun u j has => ?_, fun u v j has has' => ?_, fun j mem => ?_,
      fun j mem => ?_, fun j mem => ?_⟩
    · obtain ⟨other, before⟩ := numbers u j has
      obtain ⟨small, unfailed, unsent⟩ := inv.own u j before
      rw [calls, failed, sent, not_or]
      refine ⟨small, unfailed, unsent, ?_⟩
      rintro rfl
      exact other (inv.apart u p j before here)
    · exact inv.apart u v j (numbers u j has).2 (numbers v j has').2
    · rw [calls]
      rcases (sent j).mp mem with before | rfl
      · exact inv.sent j before
      · exact bound
    · rw [failed] at mem
      obtain ⟨small, unsent⟩ := inv.failed j mem
      rw [calls, sent, not_or]
      refine ⟨small, unsent, ?_⟩
      rintro rfl
      exact unfailed mem
    · rw [accepted] at mem
      rw [sent]
      rcases List.mem_cons.mp mem with rfl | before
      · exact .inr rfl
      · exact .inl (inv.accepted j before)

theorem inOrder_of_reach {ringUp : Bool} (reach : Reach step inOrder (initial n ringUp) s) :
    InOrder s := by
  refine reach.invariant (I := InOrder) initial_inOrder fun inv may stepped => ?_
  have move := move_of_step stepped
  exact inv.counts (move.counts inv.sound may) (move.wired inv.sound).1
    (move.short inv.sound may inv.short)

/-- The next call that succeeds takes what was left in the ring. -/
theorem InOrder.consumed (inv : InOrder s) (stepped : step s a = some t)
    (entered : t.entered = s.entered + 1) (mem : k ∈ s.accepted) :
    (∃ r, (r, k) ∈ t.kernel) ∨ k ∈ s.delivered := by
  obtain ⟨-, wired⟩ := (move_of_step stepped).wired inv.sound
  cases wired with
  | quiet same => exact absurd (same.entered.symm.trans entered) (Nat.ne_of_lt (Nat.lt_succ_self _))
  | put x room pending kernel same =>
    exact absurd (same.symm.trans entered) (Nat.ne_of_lt (Nat.lt_succ_self _))
  | deliver r call has ring kernel same =>
    exact absurd (same.symm.trans entered) (Nat.ne_of_lt (Nat.lt_succ_self _))
  | take x first rest room whole pending kernel =>
    rw [kernel]
    rcases inv.accepted k mem with ⟨r, left⟩ | ⟨r, has⟩ | has
    · have alone : s.ring.pending = [first] := by
        have short := inv.short
        cases before : s.ring.pending with
        | nil =>
          rw [before] at left
          cases left
        | cons y l =>
          rw [before] at short whole
          obtain rfl := List.eq_nil_of_length_eq_zero (Nat.le_zero.mp (Nat.le_of_succ_le_succ short))
          cases whole
          rfl
      rw [alone, List.mem_singleton] at left
      exact .inl ⟨r, List.mem_append_left _ (mem_ops.mpr left.symm)⟩
    · exact .inl ⟨r, List.mem_append_right _ has⟩
    · exact .inr has

/-- In every run a place is handed out only when nothing is in it.  In a run in order, a call that
has failed never completes, and a call that was accepted is with the kernel, or done, when
`io_uring_enter` has succeeded once more. -/
theorem submitted_in_order {ringUp : Bool} :
    (Reach step anyStep (initial n ringUp) s →
      ∀ i, s.ring.next = some i → ∀ j < s.ring.count, s.ring.place j ≠ i) ∧
    (Reach step inOrder (initial n ringUp) s →
      (∀ k ∈ s.failed, k ∉ s.delivered) ∧
        ∀ a t, step s a = some t → t.entered = s.entered + 1 →
          ∀ k ∈ s.accepted, (∃ r, (r, k) ∈ t.kernel) ∨ k ∈ s.delivered) := by
  constructor
  · intro reach i found j inside
    exact (ring_of_reach reach).next_fresh found inside
  · intro reach
    have inv := inOrder_of_reach reach
    constructor
    · intro k mem done
      exact (inv.failed k mem).2 (.inr (.inr done))
    · intro a t stepped entered k mem
      exact inv.consumed stepped entered mem

/-- A receive is refused before the reactor has started; then another one goes into the ring, behind
a wake that was left there, and the next one takes it. -/
def orderlyLabels : List (Label 1) :=
  [.submit 0 0 (.recv 3 64 8 0) 1 2 none, .advance 0 true, .start, .postWake 0 false,
    .submit 0 16 (.recv 4 64 8 0) 1 2 none, .advance 0 true, .advance 0 true, .advance 0 true]

def orderly : State 1 :=
  (run step inOrder (initial 1 true) orderlyLabels).getD (initial 1 true)

def orderlyNext : State 1 := (step orderly (.postWake 0 true)).getD orderly

theorem orderly_submitted : (0 ∈ orderly.failed ∧ 0 ∉ orderly.delivered) ∧
    .op 16 1 ∈ orderly.ring.pending ∧
    ((∃ r, (r, 1) ∈ orderlyNext.kernel) ∨ 1 ∈ orderly.delivered) := by
  have reach : Reach step inOrder (initial 1 true) orderly :=
    Reach.of_isSome orderlyLabels (by decide +kernel)
  have failed : 0 ∈ orderly.failed := by decide +kernel
  obtain ⟨silent, consumed⟩ := submitted_in_order.2 reach
  have stepped : step orderly (.postWake 0 true) = some orderlyNext := by
    unfold orderlyNext
    cases after : step orderly (.postWake 0 true) with
    | none => exact absurd (congrArg Option.isSome after) (by decide +kernel)
    | some t => rfl
  exact ⟨⟨failed, silent 0 failed⟩, by decide +kernel,
    consumed (.postWake 0 true) orderlyNext stepped (by decide +kernel) 1 (by decide +kernel)⟩

/-- The call of party 0 fails, and its caller is told so.  That of party 1 takes the entry of party
0, which completes. -/
def driftLabels : List (Label 2) :=
  [.start, .submit 0 0 (.recv 3 64 8 0) 1 2 none, .advance 0 true, .advance 0 true,
    .advance 0 false, .advance 0 true,
    .submit 1 16 (.recv 4 64 8 0) 1 2 none, .advance 1 true, .advance 1 true, .advance 1 true,
    .complete 1 0 0 8]

def drift : State 2 := (run step anyStep (initial 2 true) driftLabels).getD (initial 2 true)

theorem failed_delivered : Reach step anyStep (initial 2 true) drift ∧ 0 ∈ drift.failed ∧
    0 ∈ drift.delivered :=
  ⟨Reach.of_isSome driftLabels (by decide +kernel), by decide +kernel, by decide +kernel⟩

end JLibSched.Reactor
