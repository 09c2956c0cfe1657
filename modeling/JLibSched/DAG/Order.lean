import JLibSched.DAG.Ledger

/-!
# An AND node runs after its dependencies

The counter of an AND node reaches zero when every edge counted so far has been delivered as
completed.  From then on the node is released: `Fire` will exchange `submitted` and push its
task without looking at the counter again.  `Submit` releases its roots in the same way, long
before it fires them.

An edge that is counted between the release and the exchange comes too late: the node runs
without waiting for it.  So the order holds in the runs that count no such edge, unless its
dependency has already completed.
-/

namespace JLibSched.DAG

open Transition Stacks

variable {n : Nat} {s t : State n}

/-- The dependency of an edge has finished as completed. -/
def Done (sh : Shared) (e : Edge) : Prop := .completed ∈ (sh.node e.source).finished

instance (sh : Shared) (e : Edge) : Decidable (Done sh e) :=
  inferInstanceAs (Decidable (_ ∈ _))

def IsAnd (sh : Shared) (d : Nat) : Prop := (sh.node d).kind.gateType = .and

instance (sh : Shared) (d : Nat) : Decidable (IsAnd sh d) := inferInstanceAs (Decidable (_ = _))

/-- `AddDependency` does not count an edge of an AND node that is released and not yet fired,
unless the dependency has completed. -/
def countsInTime (s : State n) : Label n → Prop
  | .step i _ =>
    match s.stack i with
    | .addCount e _ :: _ =>
      IsAnd s.shared e.dep ∧ (s.shared.node e.dep).released = true ∧
        (s.shared.node e.dep).submitted = false → Done s.shared e
    | _ => True
  | _ => True

instance (s : State n) (a : Label n) : Decidable (countsInTime s a) := by
  cases a with
  | step i choice =>
    simp only [countsInTime]
    split <;> infer_instance
  | _ => exact isTrue trivial

/-- What a frame knows of outcomes and releases. -/
def Fires (sh : Shared) : Frame → Prop
  | .scan _ found => ∀ d ∈ found, (sh.node d).released = true
  | .roots rest => ∀ d ∈ rest, (sh.node d).released = true
  | .fire d .completed => IsAnd sh d → (sh.node d).released = true
  | .loadCancelled d .completed | .dispatch d =>
    IsAnd sh d → ∀ e ∈ (sh.node d).before, Done sh e
  | .walk d outcome _ _ _ _ | .trySeal d outcome _ _ => outcome ∈ (sh.node d).finished
  | .deliver e outcome => outcome ∈ (sh.node e.source).finished
  | _ => True

structure Ordered (s : State n) : Prop where
  fires : All (Fires s.shared) s.stack
  isSealed : ∀ d, (s.shared.node d).firstEdge.isSealed = true →
    (s.shared.node d).firstEdge.outcome ∈ (s.shared.node d).finished
  met : ∀ d, IsAnd s.shared d → ∀ e ∈ (s.shared.node d).incs,
    e ∈ (s.shared.node d).counted ∨ Done s.shared e
  released : ∀ d, IsAnd s.shared d → (s.shared.node d).released = true →
    (s.shared.node d).submitted = false → ∀ e ∈ (s.shared.node d).incs, Done s.shared e
  dispatched : ∀ d, IsAnd s.shared d → (s.shared.node d).dispatched = true →
    ∀ e ∈ (s.shared.node d).before, Done s.shared e
  fired : ∀ d, (s.shared.node d).dispatched = true → (s.shared.node d).submitted = true

theorem initial_ordered : Ordered (initial n) :=
  ⟨fun _ _ none => (by cases none), fun _ none => (by cases none), fun _ _ _ none => (by cases none),
    fun _ _ none => (by cases none), fun _ _ none => (by cases none), fun _ none => (by cases none)⟩

/-! ## What only grows -/

theorem move_finished {sh sh' : Shared} {old new : List Frame} (move : Move sh old sh' new)
    {d : Nat} {outcome : Outcome} (mem : outcome ∈ (sh.node d).finished) :
    outcome ∈ (sh'.node d).finished := by
  cases move <;> grind [Shared.reject]

theorem Done.move {sh sh' : Shared} {old new : List Frame} {e : Edge} (done : Done sh e)
    (move : Move sh old sh' new) : Done sh' e := move_finished move done

theorem move_released {sh sh' : Shared} {old new : List Frame} (move : Move sh old sh' new)
    {d : Nat} (released : (sh.node d).released = true) : (sh'.node d).released = true := by
  cases move <;> grind [Shared.reject]

/-- Once fired, always fired. -/
theorem move_unfired {sh sh' : Shared} {old new : List Frame} (move : Move sh old sh' new)
    {d : Nat} (unfired : (sh'.node d).submitted = false) : (sh.node d).submitted = false := by
  cases move <;> grind [Shared.reject]

/-- The frames whose step may count an edge, deliver one or release a node. -/
def Frame.editsCounter : Frame → Bool
  | .scan .. | .deliver .. | .addCount .. => true
  | _ => false

theorem move_counter_same {sh sh' : Shared} {old new : List Frame} (move : Move sh old sh' new)
    (quiet : ∀ f ∈ old, f.editsCounter = false) (d : Nat) :
    (sh'.node d).incs = (sh.node d).incs ∧ (sh'.node d).counted = (sh.node d).counted ∧
      (sh'.node d).released = (sh.node d).released := by
  cases move with
  | scanRoot | deliverLast | deliverCount | addCount => simp [Frame.editsCounter] at quiet
  | _ => grind [Shared.reject]

theorem move_isAnd {sh sh' : Shared} {old new : List Frame} (move : Move sh old sh' new) (d : Nat) :
    IsAnd sh' d ↔ IsAnd sh d := by
  unfold IsAnd
  rw [(move_given d move).2]

/-- What was counted before a node was fired is fixed when it is fired. -/
theorem move_before {sh sh' : Shared} {old new : List Frame} (move : Move sh old sh' new) {d : Nat}
    (fired : (sh.node d).submitted = true) : (sh'.node d).before = (sh.node d).before := by
  cases move <;> grind [Shared.reject]

theorem Tokens.fired (tokens : Tokens s) {d : Nat} {i : Fin n} {f : Frame} (mem : f ∈ s.stack i)
    (holder : holds d f = 1) : (s.shared.node d).submitted = true := by
  have held := tokens.held d
  have mine := le_total (holds d) mem
  cases here : (s.shared.node d).submitted with
  | true => rfl
  | false =>
    rw [here, Bool.toNat_false] at held
    omega

theorem Fires.move {sh sh' : Shared} {old new : List Frame} {f : Frame} (fires : Fires sh f)
    (move : Move sh old sh' new)
    (fired : ∀ d, holds d f = 1 → (sh.node d).submitted = true) : Fires sh' f := by
  cases f with
  | scan pending found => exact fun d mem => move_released move (fires d mem)
  | roots rest => exact fun d mem => move_released move (fires d mem)
  | fire d outcome =>
    cases outcome with
    | completed => exact fun type => move_released move (fires ((move_isAnd move d).mp type))
    | cancelled => trivial
  | loadCancelled d outcome =>
    cases outcome with
    | completed =>
      intro type e mem
      rw [move_before move (fired d (by simp [holds]))] at mem
      exact (fires ((move_isAnd move d).mp type) e mem).move move
    | cancelled => trivial
  | dispatch d =>
    intro type e mem
    rw [move_before move (fired d (by simp [holds]))] at mem
    exact (fires ((move_isAnd move d).mp type) e mem).move move
  | walk d | trySeal d | deliver e => exact move_finished move fires
  | _ => trivial

/-! ## Moves -/

/-- An AND node whose counter is zero has nothing left to wait for. -/
theorem Ordered.zero (ordered : Ordered s) (ledger : Ledger s) {d : Nat} (type : IsAnd s.shared d)
    (zero : (s.shared.node d).left = 0) : ∀ e ∈ (s.shared.node d).incs, Done s.shared e := by
  intro e mem
  refine (ordered.met d type e mem).resolve_left fun counted => ?_
  have positive := List.length_pos_of_mem counted
  have left := ledger.left d
  omega

/-- Nor has one whose last edge is being delivered as completed. -/
theorem Ordered.last (ordered : Ordered s) (ledger : Ledger s) {e : Edge}
    (type : IsAnd s.shared e.dep) (one : (s.shared.node e.dep).left - 1 = 0)
    (counted : e ∈ (s.shared.node e.dep).counted) (done : Done s.shared e) :
    ∀ e' ∈ (s.shared.node e.dep).incs, Done s.shared e' := by
  intro e' mem
  rcases ordered.met e.dep type e' mem with inside | already
  · have left := ledger.left e.dep
    obtain ⟨x, single⟩ := List.length_eq_one_iff.mp
      (show (s.shared.node e.dep).counted.length = 1 by omega)
    rw [single, List.mem_singleton] at inside counted
    rw [inside, ← counted]
    exact done
  · exact already

theorem Ordered.move_fires {i : Fin n} {old rest new : List Frame} {sh : Shared}
    (ordered : Ordered s) (tokens : Tokens s) (delivery : Delivery s)
    (here : s.stack i = old ++ rest) (move : Move s.shared old sh new) :
    All (Fires sh) (replace s.stack i new rest) := by
  have mem {f : Frame} (inside : f ∈ old) : f ∈ s.stack i := by
    rw [here]
    exact List.mem_append_left _ inside
  have top : ∀ f ∈ old, Fires s.shared f := fun f inside => ordered.fires i f (mem inside)
  have kept : ∀ j, ∀ f ∈ s.stack j, Fires sh f := fun j f inside =>
    (ordered.fires j f inside).move move fun d holder => tokens.fired inside holder
  refine All.replace (P := Fires sh) kept here ?_ fun f fires => fires
  have sealed' := ordered.isSealed
  cases move with
  | scanEnd => simpa [Fires] using top _ List.mem_cons_self
  | @scanRoot d pending found zero =>
    have before : ∀ m ∈ found, (s.shared.node m).released = true := top _ List.mem_cons_self
    simp only [List.forall_mem_singleton, Fires]
    grind
  | scanSkip => simpa [Fires] using top _ List.mem_cons_self
  | @rootsNext d tail =>
    have before : ∀ m ∈ d :: tail, (s.shared.node m).released = true := top _ List.mem_cons_self
    simp only [List.forall_mem_cons, Fires]
    grind
  | @fireWon d outcome first =>
    have before := top _ List.mem_cons_self
    cases outcome with
    | completed =>
      simp only [List.forall_mem_singleton, Fires]
      intro type e inside
      simp only [modify_node, if_true] at inside
      have won : Move s.shared [.fire d .completed] _ _ := .fireWon first
      have type' : IsAnd s.shared d := (move_isAnd won d).mp type
      have done := ordered.released d type' (before type') first e inside
      exact done.move won
    | cancelled => simp [Fires]
  | notCancelled => simpa [Fires] using top _ List.mem_cons_self
  | @enter d outcome =>
    simp only [List.forall_mem_singleton, Fires]
    grind
  | walkEnd | sealRetry => simpa [Fires] using top _ List.mem_cons_self
  | @walkNext d outcome g head e tail done more =>
    have before : outcome ∈ (s.shared.node d).finished := top _ List.mem_cons_self
    obtain ⟨new, todo, -, -, -, -, source⟩ := delivery.walk_next here more
    simp only [List.forall_mem_cons, Fires]
    grind
  | @deliverOr e type =>
    simp only [List.forall_mem_singleton, Fires]
    intro and
    have same : (s.shared.node e.dep).kind.gateType = .and := and
    rw [type] at same
    cases same
  | @deliverLast e type last =>
    simp only [List.forall_mem_singleton, Fires]
    grind
  | @addLoad e g | @addRetry e g head =>
    intro f inside
    unfold addHead at inside
    split at inside <;> simp only [List.mem_cons, List.not_mem_nil, or_false] at inside
    · rename_i isSealed
      rcases inside with rfl | rfl
      · exact sealed' e.source isSealed
      · trivial
    · subst inside
      trivial
  | _ => simp [Fires]

/-- What the counters of AND nodes say, over a move. -/
theorem Ordered.move_counters {i : Fin n} {old rest new : List Frame} {sh : Shared}
    (ordered : Ordered s) (ledger : Ledger s)
    (here : s.stack i = old ++ rest) (move : Move s.shared old sh new)
    (inTime : ∀ e g, old = [.addCount e g] → IsAnd s.shared e.dep ∧
      (s.shared.node e.dep).released = true ∧ (s.shared.node e.dep).submitted = false →
        Done s.shared e) (d : Nat) (type : IsAnd s.shared d) :
    (∀ e ∈ (sh.node d).incs, e ∈ (sh.node d).counted ∨ Done sh e) ∧
    ((sh.node d).released = true → (sh.node d).submitted = false →
      ∀ e ∈ (sh.node d).incs, Done sh e) := by
  have mem {f : Frame} (inside : f ∈ old) : f ∈ s.stack i := by
    rw [here]
    exact List.mem_append_left _ inside
  have fires : ∀ f ∈ old, Fires s.shared f := fun f inside => ordered.fires i f (mem inside)
  have counts : ∀ f ∈ old, Counts s.shared f := fun f inside => ledger.counts i f (mem inside)
  have met := ordered.met d type
  have released := ordered.released d type
  have grow {e : Edge} (done : Done s.shared e) : Done sh e := done.move move
  have frame := move_counter_same move
  have unfired := move_unfired (d := d) move
  cases move with
  | @scanRoot m pending found zero =>
    have all := ordered.zero (d := d) ledger type
    refine ⟨?_, ?_⟩
    · intro e inside
      exact (met e (by grind)).imp (by grind) grow
    · intro _ _ e inside
      rcases eq_or_ne d m with rfl | other
      · exact grow (all zero e (by grind))
      · exact grow (released (by grind) (by grind) e (by grind))
  | @deliverLast e' and last =>
    have counted : e' ∈ (s.shared.node e'.dep).counted := counts _ List.mem_cons_self
    have done : Done s.shared e' := fires _ List.mem_cons_self
    have all := ordered.last ledger and last counted done
    rcases eq_or_ne d e'.dep with rfl | other
    · refine ⟨fun e inside => .inr (grow (all e (by grind))), fun _ _ e inside => ?_⟩
      exact grow (all e (by grind))
    · refine ⟨fun e inside => ?_, fun yes no e inside => ?_⟩
      · exact (met e (by grind)).imp (by grind) grow
      · exact grow (released (by grind) (by grind) e (by grind))
  | @deliverCount e' and more =>
    have done : Done s.shared e' := fires _ List.mem_cons_self
    refine ⟨fun e inside => ?_, fun yes no e inside => ?_⟩
    · rcases eq_or_ne e e' with rfl | other
      · exact .inr (grow done)
      · exact (met e (by grind)).imp (by grind) grow
    · exact grow (released (by grind) (by grind) e (by grind))
  | @addCount e' g =>
    have late := inTime e' g rfl
    refine ⟨fun e inside => ?_, fun yes no e inside => ?_⟩
    · by_cases before : e ∈ (s.shared.node d).incs
      · exact (met e before).imp (by grind) grow
      · exact .inl (by grind)
    · by_cases before : e ∈ (s.shared.node d).incs
      · exact grow (released (by grind) (by grind) e before)
      · rcases eq_or_ne d e'.dep with rfl | other
        · obtain rfl : e = e' := by grind
          exact grow (late ⟨type, by grind, by grind⟩)
        · exact absurd inside (by grind)
  | scanEnd | scanSkip | deliverCancelled | deliverOr =>
    exact ⟨fun e inside => (met e inside).imp_right grow,
      fun yes no e inside => grow (released yes no e inside)⟩
  | _ =>
    obtain ⟨incs, counted, release⟩ := frame (by simp [Frame.editsCounter]) d
    rw [incs, counted, release]
    exact ⟨fun e inside => (met e inside).imp_right grow,
      fun yes no e inside => grow (released yes (unfired no) e inside)⟩

/-- A sealed list is tagged with an outcome of its node. -/
theorem Ordered.move_isSealed {i : Fin n} {old rest new : List Frame} {sh : Shared}
    (ordered : Ordered s) (here : s.stack i = old ++ rest) (move : Move s.shared old sh new)
    (d : Nat) : (sh.node d).firstEdge.isSealed = true →
      (sh.node d).firstEdge.outcome ∈ (sh.node d).finished := by
  have fires : ∀ f ∈ old, Fires s.shared f := fun f inside =>
    ordered.fires i f (by rw [here]; exact List.mem_append_left _ inside)
  have before := ordered.isSealed d
  cases move with
  | @sealed m outcome g head same =>
    have outcome' : outcome ∈ (s.shared.node m).finished := fires _ List.mem_cons_self
    rcases eq_or_ne d m with rfl | other
    · intro _
      cases outcome <;> simpa [modify_node, Head.outcome] using outcome'
    · rw [modify_of_ne other]
      exact before
  | _ => grind [Shared.reject]

/-- A node is handed to the scheduler by the frame that won its exchange. -/
theorem move_dispatched {sh sh' : Shared} {old new : List Frame} (move : Move sh old sh' new)
    {d : Nat} (now : (sh'.node d).dispatched = true) :
    (sh.node d).dispatched = true ∨ old = [.dispatch d] := by
  cases move with
  | @push m kind task | @refused m kind task =>
    rcases eq_or_ne d m with rfl | other
    · exact .inr rfl
    · rw [modify_of_ne other] at now
      exact .inl now
  | _ => exact .inl (by grind [Shared.reject])

theorem Ordered.move {i : Fin n} {old rest new : List Frame} {sh : Shared}
    (ordered : Ordered s) (tokens : Tokens s) (delivery : Delivery s) (ledger : Ledger s)
    (here : s.stack i = old ++ rest) (move : Move s.shared old sh new)
    (inTime : ∀ e g, old = [.addCount e g] → IsAnd s.shared e.dep ∧
      (s.shared.node e.dep).released = true ∧ (s.shared.node e.dep).submitted = false →
        Done s.shared e) : Ordered ⟨sh, replace s.stack i new rest⟩ := by
  have mem {f : Frame} (inside : f ∈ old) : f ∈ s.stack i := by
    rw [here]
    exact List.mem_append_left _ inside
  have counters (d : Nat) (type : IsAnd sh d) :=
    ordered.move_counters ledger here move inTime d ((move_isAnd move d).mp type)
  -- A node that is dispatched has been fired, now or before.
  have fired (d : Nat) (now : (sh.node d).dispatched = true) :
      (s.shared.node d).submitted = true := by
    rcases move_dispatched move now with already | rfl
    · exact ordered.fired d already
    · exact tokens.fired (mem List.mem_cons_self) (by simp [holds])
  refine ⟨ordered.move_fires tokens delivery here move, ordered.move_isSealed here move,
    fun d type => (counters d type).1, fun d type => (counters d type).2,
    fun d type now e inside => ?_, fun d now => ?_⟩
  · have type' : IsAnd s.shared d := (move_isAnd move d).mp type
    have old' : e ∈ (s.shared.node d).before := by
      rw [← move_before move (fired d now)]
      exact inside
    have done : Done s.shared e := by
      rcases move_dispatched move now with already | rfl
      · exact ordered.dispatched d type' already e old'
      · exact ordered.fires i (.dispatch d) (mem List.mem_cons_self) type' e old'
    exact done.move move
  · cases unfired : (sh.node d).submitted with
    | true => rfl
    | false =>
      have first := fired d now
      rw [move_unfired move unfired] at first
      cases first

/-- A change that leaves these fields leaves what a frame knows. -/
theorem Fires.same {sh sh' : Shared} {f : Frame} (fires : Fires sh f)
    (finished : ∀ d, (sh'.node d).finished = (sh.node d).finished)
    (before : ∀ d, (sh'.node d).before = (sh.node d).before)
    (released : ∀ d, (sh'.node d).released = (sh.node d).released)
    (kind : ∀ d ∈ f.nodes, (sh'.node d).kind = (sh.node d).kind) : Fires sh' f := by
  cases f with
  | fire d outcome =>
    cases outcome with
    | completed =>
      simp only [Fires, IsAnd, released, kind d (by simp [Frame.nodes])] at fires ⊢
      exact fires
    | cancelled => trivial
  | loadCancelled d outcome =>
    cases outcome with
    | completed =>
      simp only [Fires, IsAnd, Done, finished, before, kind d (by simp [Frame.nodes])]
        at fires ⊢
      exact fires
    | cancelled => trivial
  | dispatch d =>
    simp only [Fires, IsAnd, Done, finished, before, kind d (by simp [Frame.nodes])] at fires ⊢
    exact fires
  | scan | roots | walk | trySeal | deliver =>
    simp only [Fires, finished, released] at fires ⊢
    exact fires
  | _ => trivial

theorem Ordered.create {kind : Kind} {task : Bool} {sh : Shared} (ordered : Ordered s)
    (known : Known s) (made : create s.shared kind task = some sh) :
    Ordered (n := n) ⟨sh, s.stack⟩ := by
  unfold DAG.create at made
  split at made
  · cases made
  cases made
  have blank := known.blank s.shared.count (Nat.le_refl _)
  have other {d : Nat} (different : d ≠ s.shared.count) :
      Function.update s.shared.node s.shared.count (Node.new kind task) d = s.shared.node d :=
    Function.update_of_ne different ..
  have finished (d : Nat) :
      (Function.update s.shared.node s.shared.count (Node.new kind task) d).finished =
        (s.shared.node d).finished := by
    rcases eq_or_ne d s.shared.count with rfl | different
    · rw [Function.update_self, blank]
      rfl
    · rw [other different]
  have done {e : Edge} (before : Done s.shared e) : Done { s.shared with
      node := Function.update s.shared.node s.shared.count (Node.new kind task)
      count := s.shared.count + 1 } e := by
    unfold Done at before ⊢
    rw [finished]
    exact before
  refine ⟨fun j f mem => (ordered.fires j f mem).same finished (fun d => ?_) (fun d => ?_)
    (fun d inside => ?_), fun d => ?_, fun d type => ?_, fun d type => ?_, fun d type => ?_,
    fun d => ?_⟩ <;> dsimp only at *
  · rcases eq_or_ne d s.shared.count with rfl | different
    · rw [Function.update_self, blank]
      rfl
    · rw [other different]
  · rcases eq_or_ne d s.shared.count with rfl | different
    · rw [Function.update_self, blank]
      rfl
    · rw [other different]
  · rw [other (Nat.ne_of_lt (known.frames j f mem d inside))]
  all_goals rcases eq_or_ne d s.shared.count with rfl | different
  · simp [Node.new]
  · rw [other different]
    exact ordered.isSealed d
  · simp [Node.new]
  · unfold IsAnd at type
    dsimp only at type
    rw [other different] at type ⊢
    exact fun e inside => (ordered.met d type e inside).imp_right done
  · simp [Node.new]
  · unfold IsAnd at type
    dsimp only at type
    rw [other different] at type ⊢
    exact fun yes no e inside => done (ordered.released d type yes no e inside)
  · simp [Node.new]
  · unfold IsAnd at type
    dsimp only at type
    rw [other different] at type ⊢
    exact fun yes e inside => done (ordered.dispatched d type yes e inside)
  · simp [Node.new]
  · rw [other different]
    exact ordered.fired d

theorem Ordered.free {d : Nat} {sh : Shared} (ordered : Ordered s)
    (freed : free s.shared d = some sh) : Ordered (n := n) ⟨sh, s.stack⟩ := by
  obtain ⟨guards, -, -, rfl⟩ := free_eq freed
  have isSealed := ordered.isSealed
  have met := ordered.met
  have released := ordered.released
  have dispatched := ordered.dispatched
  have fired := ordered.fired
  refine ⟨fun j f mem => (ordered.fires j f mem).same (by grind) (by grind) (by grind) (by grind),
    ?_, ?_, ?_, ?_, ?_⟩ <;> dsimp only <;> grind [IsAnd, Done]

theorem reach_ordered : ∀ {s : State n}, Reach step countsInTime (initial n) s →
    s.shared.rejected = false → Ordered s := by
  refine Reach.invariant_of
    (J := fun s => Known s ∧ (s.shared.rejected = false → Tokens s ∧ Delivery s ∧ Ledger s))
    (I := fun s => s.shared.rejected = false → Ordered s)
    (fun reach => ?_) (fun _ => initial_ordered) ?_
  · have any : Reach step anyStep (initial n) _ := reach.weaken fun _ => trivial
    exact ⟨reach_known any, fun accepted => ⟨reach_tokens any accepted,
      reach_delivery any accepted, reach_ledger any accepted⟩⟩
  · rintro s t a ⟨known, before⟩ ordered allowed stepped accepted
    rcases step_cases stepped with ⟨_, _, _, made, rfl⟩ |
      ⟨i, old, rest, sh, new, here, move, ⟨label, -⟩, rfl⟩ | ⟨_, _, freed, rfl⟩
    · have same := create_rejected made
      exact (ordered (same ▸ accepted)).create known made
    · have still := move_rejected move accepted
      obtain ⟨tokens, delivery, ledger⟩ := before still
      refine (ordered still).move tokens delivery ledger here move ?_
      rintro e g rfl
      obtain ⟨choice, rfl⟩ := label (by simp)
      simp only [countsInTime, here, List.cons_append] at allowed
      exact allowed
    · obtain ⟨guards, -, -, rfl⟩ := free_eq freed
      exact (ordered accepted).free freed

/-- In every run that counts no edge of a released node, a node whose task has reached the push
had every dependency that was counted before it was fired completed. -/
theorem runs_after_dependencies {s : State n} (reach : Reach step countsInTime (initial n) s)
    (accepted : s.shared.rejected = false) {d : Nat} (type : IsAnd s.shared d)
    (dispatched : (s.shared.node d).dispatched = true) :
    ∀ e ∈ (s.shared.node d).before, Done s.shared e :=
  (reach_ordered reach accepted).dispatched d type dispatched

theorem pipeline_runs_after :
    ∃ s : State 1, Reach step countsInTime (initial 1) s ∧ s.shared.rejected = false ∧
      IsAnd s.shared 1 ∧ (s.shared.node 1).dispatched = true ∧
      (s.shared.node 1).before = [⟨0, 0, 1⟩] ∧ ∀ e ∈ (s.shared.node 1).before, Done s.shared e :=
  ⟨_, Reach.of_run .start (rfl : run step countsInTime (initial 1) pipeline = some _), rfl,
    by decide, rfl, rfl, runs_after_dependencies (Reach.of_run .start
      (rfl : run step countsInTime (initial 1) pipeline = some _)) rfl (by decide) rfl⟩

/-- Two tasks without an edge.  `Submit` has collected both as roots when another thread makes
the second depend on the first; then `Submit` fires both. -/
def lateEdge : List (Label 2) :=
  [.create .task true, .create .task true, .call 0 .submit] ++ steps 0 3 ++
    [.call 1 (.addDependency 1 0)] ++ steps 1 4 ++ steps 0 9

/-- The second task is pushed although its dependency has not even run. -/
theorem lateEdge_overtaken :
    ∃ s : State 2, Reach step anyStep (initial 2) s ∧ s.shared.rejected = false ∧
      s.shared.returned = true ∧ IsAnd s.shared 1 ∧ (s.shared.node 1).dispatched = true ∧
      ∃ e ∈ (s.shared.node 1).before, ¬ Done s.shared e :=
  ⟨_, Reach.of_run .start (rfl : run step anyStep (initial 2) lateEdge = some _), rfl, rfl,
    by decide, rfl, ⟨0, 0, 1⟩, by decide, by decide⟩

end JLibSched.DAG
