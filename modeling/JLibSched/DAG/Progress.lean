import JLibSched.DAG.Order

/-!
# No node is left waiting

Once `Submit` has looked at a node, the node is fired, or is about to be fired, or its counter
is above zero.  A delivered edge has fired its dependent or been taken off its counter.  So in
a state where nothing is under way, a node that was never fired waits for an edge that was not
delivered, of a dependency that was never fired either.  In a graph without cycles there is no
such chain.
-/

namespace JLibSched.DAG

open Transition Stacks

variable {n : Nat} {s t : State n}

/-- Frames that are going to call `Fire` on a node. -/
@[grind =] def willFire (d : Nat) : Frame → Nat
  | .fire m _ => if m = d then 1 else 0
  | .scan _ found => found.count d
  | .roots rest => rest.count d
  | _ => 0

/-- Frames of `Submit` that are still to look at a node. -/
@[grind =] def unscanned (d : Nat) : Frame → Nat
  | .scan pending _ => pending.count d
  | _ => 0

/-- The calls of a `Submit` that has begun. -/
@[grind =] def submits : Frame → Nat
  | .scan _ _ | .roots _ => 1
  | _ => 0

structure Waiting (s : State n) : Prop where
  submitted : 0 < total submits s.stack ∨ s.shared.returned = true → s.shared.submitted = true
  scanned : s.shared.submitted = true → ∀ d < s.shared.count,
    0 < total (unscanned d) s.stack ∨ (s.shared.node d).released = true ∨
      0 < (s.shared.node d).left ∨ (s.shared.node d).submitted = true
  released : ∀ d, (s.shared.node d).released = true →
    (s.shared.node d).submitted = true ∨ 0 < total (willFire d) s.stack
  delivered : ∀ e, 0 < s.shared.delivered e →
    (s.shared.node e.dep).submitted = true ∨ 0 < total (willFire e.dep) s.stack ∨
      e ∉ (s.shared.node e.dep).counted
  armed : ∀ d, (s.shared.node d).armed = true → (s.shared.node d).kind = .external

theorem initial_waiting : Waiting (initial n) := by
  have none (w : Frame → Nat) : total w (initial n).stack = 0 := total_empty w _ fun _ => rfl
  refine ⟨?_, fun no => (by cases no), fun _ no => (by cases no), fun _ no => (by cases no),
    fun _ no => (by cases no)⟩
  rw [none]
  rintro (no | no)
  · exact absurd no (Nat.lt_irrefl _)
  · cases no

theorem addHead_willFire (d : Nat) (e : Edge) (g : Nat) (head : Head) :
    ((addHead e g head).map (willFire d)).sum = 0 :=
  addHead_sum _ (fun _ _ _ _ => ⟨rfl, rfl, rfl⟩) e g head

/-- A call that was going to fire a node has fired it. -/
theorem move_willFire {sh sh' : Shared} {old new : List Frame} (move : Move sh old sh' new)
    (d : Nat) : (sh'.node d).submitted = true ∨
      (old.map (willFire d)).sum ≤ (new.map (willFire d)).sum := by
  cases move with
  | addLoad | addRetry =>
    rw [addHead_willFire]
    simp [willFire]
  | _ => grind [Shared.reject]

theorem move_fired {sh sh' : Shared} {old new : List Frame} (move : Move sh old sh' new)
    {d : Nat} (fired : (sh.node d).submitted = true) : (sh'.node d).submitted = true := by
  cases move <;> grind [Shared.reject]

theorem move_newly_released {sh sh' : Shared} {old new : List Frame} (move : Move sh old sh' new)
    {d : Nat} (released : (sh'.node d).released = true) :
    (sh.node d).released = true ∨ 0 < (new.map (willFire d)).sum := by
  cases move <;> grind [Shared.reject]

/-- A counter falls to zero only at a release. -/
theorem move_waits {sh sh' : Shared} {old new : List Frame} (move : Move sh old sh' new)
    {d : Nat} (left : 0 < (sh.node d).left) :
    0 < (sh'.node d).left ∨ (sh'.node d).released = true := by
  cases move <;> grind [Shared.reject]

theorem move_unscanned {sh sh' : Shared} {old new : List Frame} (move : Move sh old sh' new)
    {d : Nat} (left : (sh.node d).left = (sh.node d).counted.length) :
    (old.map (unscanned d)).sum ≤ (new.map (unscanned d)).sum ∨
      (sh'.node d).released = true ∨ 0 < (sh'.node d).left := by
  cases move with
  | addLoad | addRetry =>
    rw [addHead_sum _ fun _ _ _ _ => ⟨rfl, rfl, rfl⟩]
    simp [unscanned]
  | _ => grind [Shared.reject]

/-- A delivery fires its dependent or takes the edge off. -/
theorem move_newly_delivered {sh sh' : Shared} {old new : List Frame}
    (move : Move sh old sh' new) {e : Edge} (more : sh'.delivered e ≠ sh.delivered e)
    (once : (sh.node e.dep).counted.count e ≤ 1) :
    0 < (new.map (willFire e.dep)).sum ∨ e ∉ (sh'.node e.dep).counted := by
  cases move with
  | @deliverCount e' type left =>
    obtain rfl : e = e' := by
      by_contra other
      exact more (by grind)
    refine .inr fun mem => ?_
    have inside : e ∈ (sh.node e.dep).counted.erase e := by simpa [modify_node] using mem
    have positive := List.count_pos_iff.mpr inside
    rw [List.count_erase_self] at positive
    omega
  | _ => grind [Shared.reject]

/-- An edge is counted by its own `AddDependency`. -/
theorem move_newly_counted {sh sh' : Shared} {old new : List Frame} (move : Move sh old sh' new)
    {e : Edge} (mem : e ∈ (sh'.node e.dep).counted) (fresh : e ∉ (sh.node e.dep).counted) :
    ∃ g, old = [.addCount e g] := by
  cases move with
  | @addCount e' g =>
    obtain rfl : e = e' := by grind
    exact ⟨g, rfl⟩
  | _ => grind [Shared.reject, List.mem_of_mem_erase]

theorem move_submits {sh sh' : Shared} {old new : List Frame} (move : Move sh old sh' new) :
    (sh.submitted = true → sh'.submitted = true) ∧
    (sh'.submitted = true ∨ ((new.map submits).sum ≤ (old.map submits).sum ∧
      (sh'.returned = true → sh.returned = true ∨ 0 < (old.map submits).sum))) := by
  cases move with
  | addLoad | addRetry =>
    rw [addHead_sum _ fun _ _ _ _ => ⟨rfl, rfl, rfl⟩]
    simp_all [submits]
  | _ => simp_all [submits, Shared.reject, Shared.openGuard, Shared.closeGuard, Shared.modify]

/-- `Submit` begins by looking at every node. -/
theorem move_begins {sh sh' : Shared} {old new : List Frame} (move : Move sh old sh' new)
    (before : sh.submitted = false) (after : sh'.submitted = true) (accepted : sh'.rejected = false)
    {d : Nat} (known : d < sh.count) : 0 < (new.map (unscanned d)).sum := by
  cases move with
  | reject => cases accepted
  | submit => simp [unscanned, known]
  | _ => exact absurd (before.symm.trans after) Bool.false_ne_true

theorem move_armed {sh sh' : Shared} {old new : List Frame} (move : Move sh old sh' new) {d : Nat}
    (before : (sh.node d).armed = true → (sh.node d).kind = .external)
    (armed : (sh'.node d).armed = true) : (sh'.node d).kind = .external := by
  cases move <;> grind [Shared.reject]

theorem Waiting.move {i : Fin n} {old rest new : List Frame} {sh : Shared} (waiting : Waiting s)
    (delivery : Delivery s) (ledger : Ledger s) (here : s.stack i = old ++ rest)
    (move : Move s.shared old sh new) (accepted : sh.rejected = false) :
    Waiting ⟨sh, replace s.stack i new rest⟩ := by
  have frames (w : Frame → Nat) := total_replace w new here
  have top (w : Frame → Nat) := sum_le_total w here
  have fires (d : Nat) (before : (s.shared.node d).submitted = true ∨
      0 < total (willFire d) s.stack) :
      (sh.node d).submitted = true ∨ 0 < total (willFire d) (replace s.stack i new rest) := by
    have sums := frames (willFire d)
    rcases before with fired | pending
    · exact .inl (move_fired move fired)
    · rcases move_willFire move d with fired | more
      · exact .inl fired
      · exact .inr (by omega)
  refine ⟨fun begun => ?_, fun begun d known => ?_, fun d released => ?_, fun e more => ?_,
    fun d armed => move_armed move (waiting.armed d) armed⟩ <;> dsimp only at *
  · obtain ⟨still, now | ⟨fewer, answer⟩⟩ := move_submits move
    · exact now
    · have sums := frames submits
      have first := top submits
      refine still (waiting.submitted ?_)
      rcases begun with pending | returned
      · exact .inl (by omega)
      · rcases answer returned with already | ending
        · exact .inr already
        · exact .inl (by omega)
  · have sums := frames (unscanned d)
    have first := top (unscanned d)
    rw [move_count move] at known
    cases before : s.shared.submitted with
    | false =>
      have all := move_begins move before begun accepted known
      exact .inl (by omega)
    | true =>
      rcases waiting.scanned before d known with pending | released | left | fired
      · rcases move_unscanned move (ledger.left d) with still | released | left
        · exact .inl (by omega)
        · exact .inr (.inl released)
        · exact .inr (.inr (.inl left))
      · exact .inr (.inl (move_released move released))
      · rcases move_waits move left with left | released
        · exact .inr (.inr (.inl left))
        · exact .inr (.inl released)
      · exact .inr (.inr (.inr (move_fired move fired)))
  · rcases move_newly_released move released with already | now
    · exact fires d (waiting.released d already)
    · have sums := frames (willFire d)
      have first := top (willFire d)
      exact .inr (by omega)
  · by_cases same : sh.delivered e = s.shared.delivered e
    · rw [same] at more
      rcases waiting.delivered e more with fired | pending | off
      · exact (fires e.dep (.inl fired)).imp_right .inl
      · exact (fires e.dep (.inr pending)).imp_right .inl
      · refine .inr (.inr fun mem => ?_)
        -- A delivered edge is not being counted.
        obtain ⟨g, rfl⟩ := move_newly_counted move mem off
        have place := delivery.one_place e
        have carried := top (carries e)
        simp only [carries, List.map_cons, List.map_nil, List.sum_cons, List.sum_nil, if_true]
          at carried
        omega
    · have once := ledger.once e
      have single := List.nodup_iff_count_le_one.mp delivery.nodup e
      rcases move_newly_delivered move same (by omega) with now | off
      · have sums := frames (willFire e.dep)
        have first := top (willFire e.dep)
        exact .inr (.inl (by omega))
      · exact .inr (.inr off)

theorem Waiting.create {kind : Kind} {task : Bool} {sh : Shared} (waiting : Waiting s)
    (known : Known s) (made : create s.shared kind task = some sh) :
    Waiting (n := n) ⟨sh, s.stack⟩ := by
  unfold DAG.create at made
  split at made
  · cases made
  rename_i allowed
  cases made
  have blank := known.blank s.shared.count (Nat.le_refl _)
  have fresh : s.shared.submitted = false := by
    simp only [not_or, Bool.not_eq_true] at allowed
    exact allowed.1
  refine ⟨waiting.submitted, fun begun => ?_, fun d released => ?_, fun e more => ?_,
    fun d armed => ?_⟩ <;> dsimp only at *
  · rw [fresh] at begun
    cases begun
  · rcases eq_or_ne d s.shared.count with rfl | other
    · rw [Function.update_self] at released
      cases released
    · rw [Function.update_of_ne other] at released ⊢
      exact waiting.released d released
  · rcases eq_or_ne e.dep s.shared.count with same | other
    · refine .inr (.inr ?_)
      rw [same, Function.update_self]
      simp [Node.new]
    · rw [Function.update_of_ne other]
      exact waiting.delivered e more
  · rcases eq_or_ne d s.shared.count with rfl | other
    · rw [Function.update_self] at armed
      cases armed
    · rw [Function.update_of_ne other] at armed ⊢
      exact waiting.armed d armed

theorem Waiting.free {d : Nat} {sh : Shared} (waiting : Waiting s)
    (freed : free s.shared d = some sh) : Waiting (n := n) ⟨sh, s.stack⟩ := by
  obtain ⟨guards, -, -, rfl⟩ := free_eq freed
  have scanned := waiting.scanned
  have released := waiting.released
  have delivered := waiting.delivered
  have armed := waiting.armed
  refine ⟨waiting.submitted, ?_, ?_, ?_, ?_⟩ <;> dsimp only <;> grind

theorem reach_waiting : ∀ {s : State n}, Reach step anyStep (initial n) s →
    s.shared.rejected = false → Waiting s := by
  refine Reach.invariant_of
    (J := fun s => Known s ∧ (s.shared.rejected = false → Delivery s ∧ Ledger s))
    (I := fun s => s.shared.rejected = false → Waiting s)
    (fun reach => ⟨reach_known reach, fun accepted =>
      ⟨reach_delivery reach accepted, reach_ledger reach accepted⟩⟩) (fun _ => initial_waiting) ?_
  rintro s t a ⟨known, before⟩ waiting - stepped accepted
  rcases step_cases stepped with ⟨_, _, _, made, rfl⟩ |
    ⟨i, old, rest, sh, new, here, move, -, rfl⟩ | ⟨_, _, freed, rfl⟩
  · have same := create_rejected made
    exact (waiting (same ▸ accepted)).create known made
  · have still := move_rejected move accepted
    obtain ⟨delivery, ledger⟩ := before still
    exact (waiting still).move delivery ledger here move accepted
  · obtain ⟨guards, -, -, rfl⟩ := free_eq freed
    exact (waiting accepted).free freed

/-! ## Terminal states -/

/-- The edges of the graph, late ones included. -/
def DependsOn (sh : Shared) (dependent dependency : Nat) : Prop :=
  ∃ e ∈ sh.created, e.source = dependency ∧ e.dep = dependent

/-- `Submit` has returned, no call is under way, no task waits, and every external node has
been signalled. -/
structure Terminal (s : State n) : Prop where
  accepted : s.shared.rejected = false
  returned : s.shared.returned = true
  idle : ∀ i, s.stack i = []
  queued : ∀ d, (s.shared.node d).queued = false
  signalled : ∀ d < s.shared.count, (s.shared.node d).kind = .external →
    (s.shared.node d).signalled = true

/-- What has been fired has finished: nobody holds it any more. -/
theorem Terminal.finished (terminal : Terminal s) (reach : Reach step anyStep (initial n) s)
    {d : Nat} (known : d < s.shared.count) (fired : (s.shared.node d).submitted = true) :
    (s.shared.node d).finished.length = 1 := by
  have held := (reach_tokens reach terminal.accepted).held d
  have armed : ((s.shared.node d).armed && !(s.shared.node d).signalled) = false := by
    cases here : (s.shared.node d).armed with
    | false => rfl
    | true =>
      have kind := (reach_waiting reach terminal.accepted).armed d here
      rw [terminal.signalled d known kind]
      rfl
  rw [total_empty _ _ terminal.idle, fired] at held
  simp only [Node.elsewhere, terminal.queued d, armed, Bool.toNat_false, Bool.toNat_true] at held
  omega

/-- A node that was never fired has a dependency that was never fired. -/
theorem Terminal.stuck (terminal : Terminal s) (reach : Reach step anyStep (initial n) s)
    {d : Nat} (known : d < s.shared.count) (waits : (s.shared.node d).submitted = false) :
    ∃ m < s.shared.count, DependsOn s.shared d m ∧ (s.shared.node m).submitted = false := by
  have nodes := reach_known reach
  have delivery := reach_delivery reach terminal.accepted
  have ledger := reach_ledger reach terminal.accepted
  have waiting := reach_waiting reach terminal.accepted
  have none (w : Frame → Nat) : total w s.stack = 0 := total_empty w _ terminal.idle
  have notReleased : (s.shared.node d).released ≠ true := by
    intro released
    rcases waiting.released d released with fired | pending
    · rw [waits] at fired
      cases fired
    · rw [none] at pending
      exact absurd pending (Nat.lt_irrefl _)
  have left : 0 < (s.shared.node d).left := by
    rcases waiting.scanned (waiting.submitted (.inr terminal.returned)) d known with
      pending | released | left | fired
    · rw [none] at pending
      exact absurd pending (Nat.lt_irrefl _)
    · exact absurd released notReleased
    · exact left
    · rw [waits] at fired
      cases fired
  rw [ledger.left d] at left
  obtain ⟨e, counted⟩ := List.exists_mem_of_length_pos (show 0 < _ from Int.natCast_pos.mp left)
  have dep := ledger.dep d e counted
  subst dep
  have created : e ∈ s.shared.created := by
    have once := ledger.once e
    have positive := List.count_pos_iff.mpr counted
    exact List.count_pos_iff.mp (by omega)
  refine ⟨e.source, (nodes.created e created).2, ⟨e, created, rfl, rfl⟩, ?_⟩
  cases fired : (s.shared.node e.source).submitted with
  | false => rfl
  | true =>
    -- Its dependency has finished, so the edge was delivered, and that fired the node.
    have finished := terminal.finished reach (nodes.created e created).2 fired
    have walkers := delivery.walkers e.source
    rw [none, finished, Nat.zero_add] at walkers
    have isSealed : (s.shared.node e.source).firstEdge.isSealed = true := by
      cases here : (s.shared.node e.source).firstEdge.isSealed with
      | true => rfl
      | false =>
        rw [here] at walkers
        cases walkers
    have once := delivery.once e
    rw [none, delivery.isSealed _ isSealed, List.count_eq_one_of_mem delivery.nodup created]
      at once
    simp only [List.count_nil] at once
    rcases waiting.delivered e (by omega) with done | pending | off
    · rw [waits] at done
      cases done
    · rw [none] at pending
      exact absurd pending (Nat.lt_irrefl _)
    · exact absurd counted off

/-- In a terminal state of a graph without cycles every node has finished once, and every task
has been run, discarded or disposed of once. -/
theorem terminal_complete {s : State n} (reach : Reach step anyStep (initial n) s)
    (terminal : Terminal s) (acyclic : ∀ d, ¬ Relation.TransGen (DependsOn s.shared) d d) :
    ∀ d < s.shared.count, (s.shared.node d).finished.length = 1 ∧
      ((s.shared.node d).given = true → (s.shared.node d).ran + (s.shared.node d).discarded +
        (s.shared.node d).disposed = 1) := by
  have tokens := reach_tokens reach terminal.accepted
  have fired : ∀ d : Fin s.shared.count, (s.shared.node d.val).submitted = true := by
    let below : Fin s.shared.count → Fin s.shared.count → Prop := fun m d =>
      Relation.TransGen (DependsOn s.shared) d.val m.val
    have order : WellFounded below := by
      have : IsTrans (Fin s.shared.count) below := ⟨fun _ _ _ one two => two.trans one⟩
      have : Std.Irrefl below := ⟨fun d => acyclic d.val⟩
      exact Finite.wellFounded_of_trans_of_irrefl below
    intro d
    induction d using order.induction with
    | _ d ih =>
      by_contra waits
      obtain ⟨m, known, depends, stuck⟩ :=
        terminal.stuck reach d.isLt (by simpa using waits)
      have done := ih ⟨m, known⟩ (.single depends)
      rw [stuck] at done
      cases done
  intro d known
  have done := fired ⟨d, known⟩
  refine ⟨terminal.finished reach known done, fun given => ?_⟩
  have decided := tokens.decided d given
  have taken := tokens.taken d
  rw [total_empty _ _ terminal.idle] at decided taken
  rw [done, Bool.toNat_true] at decided
  rw [terminal.queued d, Bool.toNat_false] at taken
  omega

/-- Where the run of two tasks ends. -/
def pipelineEnd : State 1 := (run step anyStep (initial 1) pipeline).getD (initial 1)

theorem pipeline_complete :
    Reach step anyStep (initial 1) pipelineEnd ∧ Terminal pipelineEnd ∧
      pipelineEnd.shared.count = 2 ∧
      ∀ d < pipelineEnd.shared.count, (pipelineEnd.shared.node d).finished.length = 1 ∧
        ((pipelineEnd.shared.node d).given = true → (pipelineEnd.shared.node d).ran +
          (pipelineEnd.shared.node d).discarded + (pipelineEnd.shared.node d).disposed = 1) := by
  have reach : Reach step anyStep (initial 1) pipelineEnd :=
    Reach.of_run .start (rfl : run step anyStep (initial 1) pipeline = some pipelineEnd)
  have count : pipelineEnd.shared.count = 2 := rfl
  have terminal : Terminal pipelineEnd := by
    refine ⟨rfl, rfl, by decide, fun d => ?_, by decide⟩
    rcases Nat.lt_or_ge d 2 with known | above
    · interval_cases d <;> rfl
    · rw [(reach_known reach).blank d (by rw [count]; exact above)]
      rfl
  have down {a b : Nat} (depends : Relation.TransGen (DependsOn pipelineEnd.shared) a b) :
      b < a := by
    have edge {a b : Nat} (depends : DependsOn pipelineEnd.shared a b) : b < a := by
      obtain ⟨e, mem, rfl, rfl⟩ := depends
      have created : pipelineEnd.shared.created = [⟨0, 0, 1⟩] := rfl
      rw [created, List.mem_singleton] at mem
      subst mem
      decide
    induction depends with
    | single one => exact edge one
    | tail _ one ih => exact Nat.lt_trans (edge one) ih
  exact ⟨reach, terminal, count,
    terminal_complete reach terminal fun d cycle => Nat.lt_irrefl d (down cycle)⟩

end JLibSched.DAG
