import JLibSched.Reactor.Model

/-!
# What a step of the reactor does

The steps by what they do (`Move`), and what the operations on the state leave alone.  The ring stays
a ring of entries that the kernel has not taken, whatever fails.
-/

namespace JLibSched.Reactor

open Transition Cancel Ring

variable {n : Nat} {s t : State n} {a : Label n} {p u : Fin n} {c : Call} {x : Sqe} {entered : Bool}

/-- The steps by what they do. -/
inductive Move (s : State n) : Label n → State n → Prop where
  /-- A call that is refused before anything is written, or finds nothing to do. -/
  | nothing (a : Label n) : Move s a s
  | submit (p : Fin n) (r : Nat) (op : Op) (out resume : Nat) (scope : Option Nat)
      (filled : IoRequest) (idle : s.pc p = .idle) (free : s.busy r = false)
      (has : s.scopes.has scope) :
      Move s (.submit p r op out resume scope) ((s.fill r filled).submitOp p
        ⟨r, ⟨out, resume, s.tokenOf scope⟩, s.calls, .caller⟩)
  | resubmit (p : Fin n) (r : Nat) (entered : Bool) (here : s.pc p = .resubmitting r) :
      Move s (.advance p entered) (s.submitOp p
        ⟨r, ⟨(s.req r).out, (s.req r).resume, (s.req r).token⟩, s.calls, .complete⟩)
  | giveUp (p : Fin n) (r : Nat) (entered : Bool) (here : s.pc p = .resubmitting r)
      (empty : (s.req r).bufCount = 0) : Move s (.advance p entered) (s.go p (.finishing r))
  | fail (p : Fin n) (c : Call) (entered : Bool) (here : s.pc p = .tested c)
      (down : s.ringUp = false ∨ s.stopping = true) : Move s (.advance p entered) (s.fail p c)
  | pass (p : Fin n) (c : Call) (entered : Bool) (here : s.pc p = .tested c) :
      Move s (.advance p entered) (s.go p (.passed c))
  | link (p : Fin n) (c : Call) (entered : Bool) (here : s.pc p = .passed c) :
      Move s (.advance p entered) ((s.link c).go p (.linked c))
  | entry (p : Fin n) (c : Call) (entered : Bool) (here : s.pc p = .linked c) :
      Move s (.advance p entered) (s.submitEntry p c entered)
  | drop (p : Fin n) (c : Call) (entered : Bool) (here : s.pc p = .failing c) :
      Move s (.advance p entered) ((s.unlink c.r).fail p c)
  | finish (p : Fin n) (r : Nat) (entered : Bool) (here : s.pc p = .finishing r) :
      Move s (.advance p entered)
        { (s.unlink r).go p .idle with busy := Function.update s.busy r false }
  | requestCancel (p : Fin n) (scope : Option Nat) (idle : s.pc p = .idle)
      (has : s.scopes.has scope) :
      Move s (.requestCancel p scope) (s.go p (.sweeping (s.tokenOf scope) 0
        (decide (Marked s.scopes.slots (s.tokenOf scope)))))
  | collect (p : Fin n) (token shard : Nat) (marked entered : Bool) (targets : List Nat)
      (here : s.pc p = .sweeping token shard marked) (inside : shard < kShards)
      (found : collect s.shards.next (s.matches token) s.shards.made (s.shards.head shard) 0 =
        some targets) :
      Move s (.advance p entered) (s.go p (.cancelling token shard targets marked))
  | sweep (p : Fin n) (token shard : Nat) (marked entered : Bool)
      (here : s.pc p = .sweeping token shard marked) (all : kShards ≤ shard) :
      Move s (.advance p entered) (s.sweep p token marked)
  | nextShard (p : Fin n) (token shard : Nat) (marked entered : Bool)
      (here : s.pc p = .cancelling token shard [] marked) :
      Move s (.advance p entered) (s.go p (.sweeping token (shard + 1) marked))
  | cancel (p : Fin n) (token shard r : Nat) (targets : List Nat) (marked entered : Bool)
      (here : s.pc p = .cancelling token shard (r :: targets) marked) :
      Move s (.advance p entered) (s.submitCancel p token shard r targets marked entered)
  | complete (p : Fin n) (r call : Nat) (res : Int) (idle : s.pc p = .idle)
      (has : (r, call) ∈ s.kernel) :
      Move s (.complete p r call res) (s.complete p r call res)
  | wake (p : Fin n) (entered : Bool) (idle : s.pc p = .idle) {i : UInt32}
      (room : s.ring.next = some i) : Move s (.postWake p entered) (s.enter .wake entered)
  | start : Move s .start { s with stopping := if s.ringUp then false else s.stopping }
  | stop : Move s .stop { s with stopping := true }
  | scopes (b : Scopes.Label) (scopes : Scopes.State)
      (stepped : Scopes.step s.scopes b = some scopes) :
      Move s (.scopes b) { s with
        scopes := scopes
        swept := s.swept.filter fun tok => decide (Marked scopes.slots tok) }

theorem move_of_advance (stepped : advance s p entered = some t) :
    Move s (.advance p entered) t := by
  unfold advance at stepped
  cases here : s.pc p with
  | idle =>
    rw [here] at stepped
    cases stepped
  | tested c =>
    rw [here] at stepped
    simp only [Option.some.injEq] at stepped
    subst stepped
    split
    · rename_i down
      exact .fail p c entered here down
    · exact .pass p c entered here
  | passed c =>
    rw [here] at stepped
    cases stepped
    exact .link p c entered here
  | linked c =>
    rw [here] at stepped
    cases stepped
    exact .entry p c entered here
  | failing c =>
    rw [here] at stepped
    cases stepped
    exact .drop p c entered here
  | resubmitting r =>
    rw [here] at stepped
    simp only [Option.some.injEq] at stepped
    subst stepped
    split
    · rename_i empty
      exact .giveUp p r entered here empty
    · exact .resubmit p r entered here
  | finishing r =>
    rw [here] at stepped
    cases stepped
    exact .finish p r entered here
  | sweeping token shard marked =>
    rw [here] at stepped
    simp only at stepped
    split at stepped
    · rename_i inside
      obtain ⟨targets, found, rfl⟩ := Option.map_eq_some_iff.mp stepped
      exact .collect p token shard marked entered targets here inside found
    · rename_i all
      cases stepped
      exact .sweep p token shard marked entered here (Nat.not_lt.mp all)
  | cancelling token shard targets marked =>
    rw [here] at stepped
    cases targets with
    | nil =>
      cases stepped
      exact .nextShard p token shard marked entered here
    | cons r targets =>
      cases stepped
      exact .cancel p token shard r targets marked entered here

theorem move_of_step (stepped : step s a = some t) : Move s a t := by
  cases a with
  | submit p r op out resume scope =>
    simp only [step] at stepped
    split at stepped
    · rename_i may
      split at stepped
      · cases stepped
        exact .nothing _
      · rename_i filled _
        cases stepped
        exact .submit p r op out resume scope filled may.1 may.2.1 may.2.2
    · cases stepped
  | advance p entered => exact move_of_advance stepped
  | complete p r call res =>
    simp only [step] at stepped
    split at stepped
    · rename_i may
      cases stepped
      exact .complete p r call res may.1 may.2
    · cases stepped
  | requestCancel p scope =>
    simp only [step] at stepped
    split at stepped
    · rename_i may
      cases stepped
      split
      · exact .requestCancel p scope may.1 may.2
      · exact .nothing _
    · cases stepped
  | postWake p entered =>
    simp only [step] at stepped
    split at stepped
    · rename_i idle
      cases stepped
      split
      · exact .nothing _
      · rename_i i room
        exact .wake p entered idle room
    · cases stepped
  | start =>
    cases stepped
    exact .start
  | stop =>
    cases stepped
    exact .stop
  | scopes b =>
    simp only [step] at stepped
    obtain ⟨scopes, moved, rfl⟩ := Option.map_eq_some_iff.mp stepped
    exact .scopes b scopes moved

/-! ## The ring -/

/-- The operation of an entry. -/
def Sqe.ops : Sqe → List (Nat × Nat)
  | .op r call => [(r, call)]
  | .cancel _ | .wake => []

/-- An entry that is not taken stays in the ring. -/
theorem enter_failed (sound : s.ring.Sound) {i : UInt32} (room : s.ring.next = some i) :
    ∃ ring, ring.Sound ∧ ring.pending = s.ring.pending ++ [x] ∧
      s.enter x false = { s with ring := ring } :=
  ⟨s.ring.put x, sound.put room, sound.pending_put room, rfl⟩

/-- The first entry is taken, which may be another one. -/
theorem enter_taken (sound : s.ring.Sound) {i : UInt32} (room : s.ring.next = some i) :
    ∃ first rest ring, s.ring.pending ++ [x] = first :: rest ∧ ring.Sound ∧
      ring.pending = rest ∧ s.enter x true =
        { s with ring := ring, kernel := first.ops ++ s.kernel, entered := s.entered + 1 } := by
  have put := sound.put (x := x) room
  have pending := sound.pending_put (x := x) room
  have some : (s.ring.put x).count ≠ 0 := by
    rw [sound.count_put room]
    exact Nat.succ_ne_zero _
  cases whole : s.ring.pending ++ [x] with
  | nil => exact absurd whole (List.append_ne_nil_of_right_ne_nil _ (List.cons_ne_nil _ _))
  | cons first rest =>
    rw [whole] at pending
    refine ⟨first, rest, (s.ring.put x).drop, rfl, put.drop some, ?_, ?_⟩
    · rw [Buffer.pending_drop some, pending]
      rfl
    · have head : (s.ring.put x).first = .some first := by
        rw [Buffer.first_eq, pending]
        rfl
      unfold State.enter State.consume
      simp only [if_true, head]
      cases first with
      | op | cancel | wake => rfl

/-- Nothing else changes. -/
theorem enter_frame (s : State n) (x : Sqe) (entered : Bool) : ∃ ring kernel times,
    s.enter x entered = { s with ring := ring, kernel := kernel, entered := times } := by
  unfold State.enter State.consume
  simp only
  split
  · split
    · exact ⟨_, _, _, rfl⟩
    · exact ⟨_, _, _, rfl⟩
  · exact ⟨_, _, _, rfl⟩

theorem submitEntry_full (full : s.ring.next = none) :
    s.submitEntry p c entered = s.go p (.failing c) := by
  unfold State.submitEntry
  rw [full]

theorem submitEntry_failed {i : UInt32} (room : s.ring.next = some i) :
    s.submitEntry p c false = { s.enter (.op c.r c.number) false with
      submitted := Function.update s.submitted c.r true }.go p
        (.failing c) := by
  unfold State.submitEntry
  rw [room]
  rfl

theorem submitEntry_taken {i : UInt32} (room : s.ring.next = some i) :
    s.submitEntry p c true =
      { { s.enter (.op c.r c.number) true with
          submitted := Function.update s.submitted c.r true }.go p .idle with
        accepted := c.number :: (s.enter (.op c.r c.number) true).accepted } := by
  unfold State.submitEntry
  rw [room]
  rfl

section Cancel

variable {token shard r : Nat} {targets : List Nat} {marked : Bool}

theorem submitCancel_full (full : s.ring.next = none) :
    s.submitCancel p token shard r targets marked entered =
      s.go p (.cancelling token shard [] marked) := by
  unfold State.submitCancel
  rw [full]

theorem submitCancel_failed {i : UInt32} (room : s.ring.next = some i) :
    s.submitCancel p token shard r targets marked false =
      (s.enter (.cancel r) false).go p (.cancelling token shard [] marked) := by
  unfold State.submitCancel
  rw [room]
  rfl

theorem submitCancel_taken {i : UInt32} (room : s.ring.next = some i) :
    s.submitCancel p token shard r targets marked true =
      { (s.enter (.cancel r) true).go p (.cancelling token shard targets marked) with
        asked := Function.update (s.enter (.cancel r) true).asked r
          ((s.enter (.cancel r) true).asked r || (s.enter (.cancel r) true).submitted r) } := by
  unfold State.submitCancel
  rw [room]
  rfl

end Cancel

/-! ## Steps that leave the ring alone -/

/-- Ring and kernel, and the numbers of calls, are as before. -/
structure Quiet (s t : State n) : Prop where
  ring : t.ring = s.ring
  kernel : t.kernel = s.kernel
  entered : t.entered = s.entered
  accepted : t.accepted = s.accepted
  delivered : t.delivered = s.delivered

theorem refuse_quiet : Quiet s (s.refuse p c) := by
  unfold State.refuse
  split <;> exact ⟨rfl, rfl, rfl, rfl, rfl⟩

theorem fail_quiet : Quiet s (s.fail p c) := by
  have refused := refuse_quiet (s := s) (p := p) (c := c)
  exact ⟨refused.ring, refused.kernel, refused.entered, refused.accepted, refused.delivered⟩

theorem submitOp_quiet : Quiet s (s.submitOp p c) := by
  unfold State.submitOp
  simp only
  split
  · have refused := refuse_quiet (p := p) (c := c)
      (s := { s with calls := s.calls + 1, busy := Function.update s.busy c.r true })
    exact ⟨refused.ring, refused.kernel, refused.entered, refused.accepted, refused.delivered⟩
  · exact ⟨rfl, rfl, rfl, rfl, rfl⟩

/-- What a step does to the ring: at most one entry is put in, and then at most one is taken. -/
inductive Wired (s t : State n) : Prop where
  | quiet (same : Quiet s t)
  | put (x : Sqe) {i : UInt32} (room : s.ring.next = some i)
      (pending : t.ring.pending = s.ring.pending ++ [x]) (kernel : t.kernel = s.kernel)
      (entered : t.entered = s.entered)
  | take (x first : Sqe) (rest : List Sqe) {i : UInt32} (room : s.ring.next = some i)
      (whole : s.ring.pending ++ [x] = first :: rest) (pending : t.ring.pending = rest)
      (kernel : t.kernel = first.ops ++ s.kernel) (entered : t.entered = s.entered + 1)
  | deliver (r call : Nat) (has : (r, call) ∈ s.kernel) (ring : t.ring = s.ring)
      (kernel : t.kernel = s.kernel.erase (r, call)) (entered : t.entered = s.entered)

theorem complete_ring (p : Fin n) (r call : Nat) (res : Int) :
    (s.complete p r call res).ring = s.ring ∧
      (s.complete p r call res).kernel = s.kernel.erase (r, call) ∧
      (s.complete p r call res).entered = s.entered := by
  unfold State.complete
  simp only
  split <;> exact ⟨rfl, rfl, rfl⟩

theorem submitEntry_wired (sound : s.ring.Sound) :
    (s.submitEntry p c entered).ring.Sound ∧ Wired s (s.submitEntry p c entered) := by
  cases room : s.ring.next with
  | none =>
    rw [submitEntry_full room]
    exact ⟨sound, .quiet ⟨rfl, rfl, rfl, rfl, rfl⟩⟩
  | some i =>
    cases entered with
    | false =>
      obtain ⟨ring, sound', pending, same⟩ := enter_failed (x := .op c.r c.number) sound room
      rw [submitEntry_failed room, same]
      exact ⟨sound', .put _ room pending rfl rfl⟩
    | true =>
      obtain ⟨first, rest, ring, whole, sound', pending, same⟩ :=
        enter_taken (x := .op c.r c.number) sound room
      rw [submitEntry_taken room, same]
      exact ⟨sound', .take _ first rest room whole pending rfl rfl⟩

theorem submitCancel_wired {token shard r : Nat} {targets : List Nat} {marked : Bool}
    (sound : s.ring.Sound) :
    (s.submitCancel p token shard r targets marked entered).ring.Sound ∧
      Wired s (s.submitCancel p token shard r targets marked entered) := by
  cases room : s.ring.next with
  | none =>
    rw [submitCancel_full room]
    exact ⟨sound, .quiet ⟨rfl, rfl, rfl, rfl, rfl⟩⟩
  | some i =>
    cases entered with
    | false =>
      obtain ⟨ring, sound', pending, same⟩ := enter_failed (x := .cancel r) sound room
      rw [submitCancel_failed room, same]
      exact ⟨sound', .put _ room pending rfl rfl⟩
    | true =>
      obtain ⟨first, rest, ring, whole, sound', pending, same⟩ :=
        enter_taken (x := .cancel r) sound room
      rw [submitCancel_taken room, same]
      exact ⟨sound', .take _ first rest room whole pending rfl rfl⟩

theorem wake_wired (sound : s.ring.Sound) {i : UInt32} (room : s.ring.next = some i) :
    (s.enter .wake entered).ring.Sound ∧ Wired s (s.enter .wake entered) := by
  cases entered with
  | false =>
    obtain ⟨ring, sound', pending, same⟩ := enter_failed (x := .wake) sound room
    rw [same]
    exact ⟨sound', .put _ room pending rfl rfl⟩
  | true =>
    obtain ⟨first, rest, ring, whole, sound', pending, same⟩ :=
      enter_taken (x := .wake) sound room
    rw [same]
    exact ⟨sound', .take _ first rest room whole pending rfl rfl⟩

theorem Quiet.wired (quiet : Quiet s t) (sound : s.ring.Sound) : t.ring.Sound ∧ Wired s t := by
  refine ⟨?_, .quiet quiet⟩
  rw [quiet.ring]
  exact sound

theorem Move.wired (move : Move s a t) (sound : s.ring.Sound) : t.ring.Sound ∧ Wired s t := by
  cases move with
  | nothing | giveUp | pass | link | finish | requestCancel | collect | sweep | nextShard | start
  | stop | scopes =>
    exact Quiet.wired ⟨rfl, rfl, rfl, rfl, rfl⟩ sound
  | submit p r op out resume scope filled =>
    have called := submitOp_quiet (s := s.fill r filled) (p := p)
      (c := ⟨r, ⟨out, resume, s.tokenOf scope⟩, s.calls, .caller⟩)
    exact Quiet.wired ⟨called.ring, called.kernel, called.entered, called.accepted,
      called.delivered⟩ sound
  | resubmit => exact submitOp_quiet.wired sound
  | fail => exact fail_quiet.wired sound
  | drop p c =>
    have failed := fail_quiet (s := s.unlink c.r) (p := p) (c := c)
    exact Quiet.wired ⟨failed.ring, failed.kernel, failed.entered, failed.accepted,
      failed.delivered⟩ sound
  | entry => exact submitEntry_wired sound
  | cancel => exact submitCancel_wired sound
  | wake p entered idle room => exact wake_wired sound room
  | complete p r call res idle has =>
    obtain ⟨ring, kernel, entered⟩ := complete_ring (s := s) p r call res
    exact ⟨by rw [ring]; exact sound, .deliver r call has ring kernel entered⟩

theorem initial_count {ringUp : Bool} : (initial n ringUp).ring.count = 0 :=
  Buffer.count_eq_zero.mpr rfl

theorem initial_pending {ringUp : Bool} : (initial n ringUp).ring.pending = [] := by
  rw [← List.length_eq_zero_iff, Buffer.length_pending]
  exact initial_count

theorem initial_ring {ringUp : Bool} : (initial n ringUp).ring.Sound where
  power := ⟨8, by decide, rfl⟩
  mask := rfl
  room := by
    rw [initial_count]
    exact Nat.zero_le _

/-- The ring is a ring in every run. -/
theorem ring_of_reach {ok : State n → Label n → Prop} {ringUp : Bool}
    (reach : Reach step ok (initial n ringUp) s) : s.ring.Sound := by
  refine reach.invariant (I := fun s => s.ring.Sound) initial_ring fun sound _ stepped => ?_
  exact ((move_of_step stepped).wired sound).1

end JLibSched.Reactor
