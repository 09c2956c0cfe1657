import JLibSched.DAG.Moves

/-!
# Who holds a node

`Fire` exchanges `submitted`, so one call wins each node.  From then on exactly one party
holds it: a frame between the exchange and `OnTaskFinished`, the scheduler while its task is
queued, or nobody but the signal while an external node is armed; or it has entered
`OnTaskFinished`.  The same count for its task: it is pushed or disposed of once, and a pushed
task is queued, running, run, or discarded.
-/

namespace JLibSched.DAG

open Transition Stacks

variable {n : Nat} {s t : State n}

/-! ## Rejection -/

theorem create_rejected {sh sh' : Shared} {kind : Kind} {task : Bool}
    (made : create sh kind task = some sh') : sh'.rejected = sh.rejected := by
  unfold create at made
  split at made
  · cases made
  · cases made
    rfl

/-- A rejected graph stays rejected. -/
theorem move_rejected {sh sh' : Shared} {old new : List Frame} (move : Move sh old sh' new)
    (accepted : sh'.rejected = false) : sh.rejected = false := by
  cases move with
  | reject => cases accepted
  | _ => exact accepted

/-! ## Nodes that exist -/

/-- The nodes a frame names. -/
@[grind =] def Frame.nodes : Frame → List Nat
  | .scan pending found => pending ++ found
  | .roots rest => rest
  | .fire d _ | .loadCancelled d _ | .dispose d | .dispatch d | .body d | .enter d _
  | .retire d | .signal d _ | .trySeal d _ _ _ => [d]
  | .walk d _ _ _ cur _ => d :: (cur.map (·.dep) ++ cur.map (·.source))
  | .deliver e _ | .addCount e _ | .addLoad e _ | .addCas e _ _ => [e.dep, e.source]
  | .close _ => []

/-- Frames and edges name nodes that exist, and the others are blank. -/
structure Known (s : State n) : Prop where
  frames : All (fun f => ∀ d ∈ f.nodes, d < s.shared.count) s.stack
  edges : ∀ d, ∀ e ∈ (s.shared.node d).firstEdge.edges,
    e.dep < s.shared.count ∧ e.source < s.shared.count
  created : ∀ e ∈ s.shared.created, e.dep < s.shared.count ∧ e.source < s.shared.count
  blank : ∀ d, s.shared.count ≤ d → s.shared.node d = Node.new .task false

theorem initial_known : Known (initial n) :=
  ⟨fun _ _ none => (by cases none), fun _ _ none => (by cases none), fun _ none => (by cases none),
    fun _ _ => rfl⟩

theorem Known.create {kind : Kind} {task : Bool} {sh : Shared} (known : Known s)
    (made : create s.shared kind task = some sh) : Known (n := n) ⟨sh, s.stack⟩ := by
  unfold DAG.create at made
  split at made
  · cases made
  · cases made
    refine ⟨fun i f mem d inside => Nat.lt_succ_of_lt (known.frames i f mem d inside), ?_, ?_, ?_⟩
    · intro d e mem
      dsimp only at mem ⊢
      rcases eq_or_ne d s.shared.count with rfl | other
      · rw [Function.update_self] at mem
        cases mem
      · rw [Function.update_of_ne other] at mem
        have := known.edges d e mem
        omega
    · intro e mem
      have := known.created e mem
      dsimp only
      omega
    · intro d above
      dsimp only at above ⊢
      rw [Function.update_of_ne (by omega)]
      exact known.blank d (by omega)

theorem Known.free {d : Nat} {sh : Shared} (known : Known s)
    (freed : free s.shared d = some sh) : Known (n := n) ⟨sh, s.stack⟩ := by
  unfold DAG.free at freed
  split at freed
  · rename_i guards retired
    split at freed
    · cases freed
      refine ⟨known.frames, ?_, known.created, ?_⟩
      · intro m e mem
        have := known.edges m e
        grind
      · intro m above
        have blank := known.blank m above
        rcases eq_or_ne m d with rfl | other
        · rw [blank] at retired
          cases retired
        · rw [modify_of_ne other]
          exact blank
    · cases freed
  · cases freed

theorem Known.move {i : Fin n} {old rest new : List Frame} {sh : Shared} (known : Known s)
    (here : s.stack i = old ++ rest) (move : Move s.shared old sh new) :
    Known ⟨sh, replace s.stack i new rest⟩ := by
  have top : ∀ f ∈ old, ∀ d ∈ f.nodes, d < s.shared.count := fun f mem =>
    known.frames i f (by rw [here]; exact List.mem_append_left _ mem)
  have count := move_count move
  have edges := known.edges
  have created := known.created
  have blank := known.blank
  refine ⟨known.frames.replace here ?_ ?_, ?_, ?_, ?_⟩ <;> dsimp only <;> rw [count]
  · cases move <;> try simp only [List.forall_mem_cons] at top ⊢
    all_goals grind [addHead, Shared.newEdge, Node.new]
  · exact fun _ before => before
  · cases move <;> try simp only [List.forall_mem_cons] at top
    all_goals grind [Shared.reject]
  · cases move <;> grind [Shared.reject, Shared.newEdge]
  · cases move <;> try simp only [List.forall_mem_cons, Frame.nodes,
      List.cons_append] at top
    all_goals grind [Shared.reject, Node.new]

theorem reach_known : ∀ {s : State n}, Reach step anyStep (initial n) s → Known s := by
  refine Reach.invariant initial_known fun known _ stepped => ?_
  rcases step_cases stepped with ⟨_, _, _, made, rfl⟩ |
    ⟨i, old, rest, sh, new, here, move, -, rfl⟩ | ⟨_, _, freed, rfl⟩
  · exact known.create made
  · exact known.move here move
  · exact known.free freed

/-! ## Holders -/

/-- Frames between the exchange in `Fire` and `OnTaskFinished`. -/
@[grind =] def holds (d : Nat) : Frame → Nat
  | .loadCancelled m _ | .dispose m | .dispatch m | .body m | .enter m _ =>
    if m = d then 1 else 0
  | _ => 0

/-- Frames of `Fire` before the task is pushed or disposed of. -/
@[grind =] def undecided (d : Nat) : Frame → Nat
  | .loadCancelled m _ | .dispose m | .dispatch m => if m = d then 1 else 0
  | _ => 0

/-- Frames that run the task. -/
@[grind =] def runs (d : Nat) : Frame → Nat
  | .body m => if m = d then 1 else 0
  | _ => 0

/-- Where a fired node is when no frame holds it: queued, armed, or finished. -/
@[grind =] def Node.elsewhere (x : Node) : Nat :=
  x.queued.toNat + (x.armed && !x.signalled).toNat + x.finished.length

/-- Every fired node has one holder, and every task one fate. -/
structure Tokens (s : State n) : Prop where
  held : ∀ d, total (holds d) s.stack + (s.shared.node d).elsewhere =
    (s.shared.node d).submitted.toNat
  decided : ∀ d, (s.shared.node d).given = true →
    total (undecided d) s.stack + (s.shared.node d).pushed + (s.shared.node d).disposed =
      (s.shared.node d).submitted.toNat
  taken : ∀ d, (s.shared.node d).pushed =
    (s.shared.node d).queued.toNat + total (runs d) s.stack + (s.shared.node d).ran +
      (s.shared.node d).discarded
  task : ∀ d, (s.shared.node d).given = true →
    (s.shared.node d).kind = .task ∧ ((s.shared.node d).task = true ↔ (s.shared.node d).disposed = 0)
  noTask : ∀ d, (s.shared.node d).given = false →
    (s.shared.node d).task = false ∧ (s.shared.node d).pushed = 0 ∧ (s.shared.node d).disposed = 0

theorem initial_tokens : Tokens (initial n) where
  held := fun d => by rw [total_empty _ (initial n).stack fun _ => rfl]; rfl
  decided := fun d given => by cases given
  taken := fun d => by rw [total_empty _ (initial n).stack fun _ => rfl]; rfl
  task := fun d given => by cases given
  noTask := fun d _ => ⟨rfl, rfl, rfl⟩

theorem addHead_sum (w : Frame → Nat) (zero : ∀ e oc g head, w (.deliver e oc) = 0 ∧
    w (.close g) = 0 ∧ w (.addCas e g head) = 0) (e : Edge) (g : Nat) (head : Head) :
    ((addHead e g head).map w).sum = 0 := by
  obtain ⟨deliver, close, addCas⟩ := zero e head.outcome g head
  unfold addHead
  split <;> simp [deliver, close, addCas]

/-- The count of holders changes only with `submitted`. -/
theorem move_held {sh sh' : Shared} {old new : List Frame} {d : Nat} (move : Move sh old sh' new)
    (bound : (old.map (holds d)).sum + (sh.node d).elsewhere ≤ 1)
    (accepted : sh'.rejected = false) :
    (new.map (holds d)).sum + (sh'.node d).elsewhere + (sh.node d).submitted.toNat =
      (old.map (holds d)).sum + (sh.node d).elsewhere + (sh'.node d).submitted.toNat := by
  cases move with
  | reject => cases accepted
  | addLoad | addRetry =>
    rw [addHead_sum _ fun _ _ _ _ => ⟨rfl, rfl, rfl⟩]
    rfl
  | _ => grind

theorem move_decided {sh sh' : Shared} {old new : List Frame} {d : Nat}
    (move : Move sh old sh' new)
    (task : (sh.node d).kind = .task ∧ ((sh.node d).task = true ↔ (sh.node d).disposed = 0))
    (bound : (old.map (undecided d)).sum + (sh.node d).pushed + (sh.node d).disposed ≤ 1)
    (accepted : sh'.rejected = false) :
    (new.map (undecided d)).sum + (sh'.node d).pushed + (sh'.node d).disposed +
        (sh.node d).submitted.toNat =
      (old.map (undecided d)).sum + (sh.node d).pushed + (sh.node d).disposed +
        (sh'.node d).submitted.toNat := by
  cases move with
  | reject => cases accepted
  | addLoad | addRetry =>
    rw [addHead_sum _ fun _ _ _ _ => ⟨rfl, rfl, rfl⟩]
    rfl
  | _ => grind

theorem move_taken {sh sh' : Shared} {old new : List Frame} {d : Nat} (move : Move sh old sh' new)
    (bound : (old.map (holds d)).sum + (sh.node d).elsewhere ≤ 1)
    (accepted : sh'.rejected = false) :
    (sh'.node d).pushed + (sh.node d).queued.toNat + (old.map (runs d)).sum + (sh.node d).ran +
        (sh.node d).discarded =
      (sh.node d).pushed + (sh'.node d).queued.toNat + (new.map (runs d)).sum +
        (sh'.node d).ran + (sh'.node d).discarded := by
  cases move with
  | reject => cases accepted
  | addLoad | addRetry =>
    rw [addHead_sum _ fun _ _ _ _ => ⟨rfl, rfl, rfl⟩]
    rfl
  | _ => grind

/-- How a node was created does not change. -/
theorem move_given {sh sh' : Shared} {old new : List Frame} (d : Nat)
    (move : Move sh old sh' new) :
    (sh'.node d).given = (sh.node d).given ∧ (sh'.node d).kind = (sh.node d).kind := by
  cases move <;> grind [Shared.reject]

theorem move_task {sh sh' : Shared} {old new : List Frame} {d : Nat} (move : Move sh old sh' new)
    (accepted : sh'.rejected = false) :
    (((sh.node d).task = true ↔ (sh.node d).disposed = 0) →
      ((sh'.node d).task = true ↔ (sh'.node d).disposed = 0)) ∧
    ((sh.node d).task = false → (sh'.node d).task = false ∧
      (sh'.node d).pushed = (sh.node d).pushed ∧ (sh'.node d).disposed = (sh.node d).disposed) := by
  cases move with
  | reject => cases accepted
  | _ => grind

/-- The frames on top are among all frames. -/
theorem Tokens.elsewhere_le (tokens : Tokens s) (d : Nat) :
    total (holds d) s.stack + (s.shared.node d).elsewhere ≤ 1 := by
  rw [tokens.held d]
  exact Bool.toNat_le _

theorem Tokens.move {i : Fin n} {old rest new : List Frame} {sh : Shared} (tokens : Tokens s)
    (here : s.stack i = old ++ rest) (move : Move s.shared old sh new)
    (accepted : sh.rejected = false) : Tokens ⟨sh, replace s.stack i new rest⟩ := by
  have bound (d : Nat) : (old.map (holds d)).sum + (s.shared.node d).elsewhere ≤ 1 := by
    have top := sum_le_total (holds d) here
    have all := tokens.elsewhere_le d
    omega
  refine ⟨fun d => ?_, fun d given => ?_, fun d => ?_, fun d given => ?_, fun d none => ?_⟩ <;>
    dsimp only at *
  · have frames := total_replace (holds d) new here
    have held := tokens.held d
    have change := move_held move (bound d) accepted
    omega
  · rw [(move_given d move).1] at given
    have frames := total_replace (undecided d) new here
    have decided := tokens.decided d given
    have top := sum_le_total (undecided d) here
    have one := Bool.toNat_le (s.shared.node d).submitted
    have change := move_decided move (tokens.task d given) (by omega) accepted
    omega
  · have frames := total_replace (runs d) new here
    have taken := tokens.taken d
    have change := move_taken move (bound d) accepted
    omega
  · obtain ⟨same, kind⟩ := move_given d move
    rw [same] at given
    obtain ⟨isTask, task⟩ := tokens.task d given
    rw [kind]
    exact ⟨isTask, (move_task move accepted).1 task⟩
  · rw [(move_given d move).1] at none
    obtain ⟨task, pushed, disposed⟩ := tokens.noTask d none
    obtain ⟨task', pushed', disposed'⟩ := (move_task move accepted).2 task
    exact ⟨task', pushed'.trans pushed, disposed'.trans disposed⟩

theorem Tokens.create {kind : Kind} {task : Bool} {sh : Shared} (tokens : Tokens s)
    (known : Known s) (made : create s.shared kind task = some sh) :
    Tokens (n := n) ⟨sh, s.stack⟩ := by
  unfold DAG.create at made
  split at made
  · cases made
  rename_i allowed
  cases made
  have blank := known.blank s.shared.count (Nat.le_refl _)
  have held := tokens.held s.shared.count
  have taken := tokens.taken s.shared.count
  rw [blank] at held taken
  simp only [Node.new, Node.elsewhere] at held taken
  have none : total (holds s.shared.count) s.stack = 0 := by simpa using held
  have idle : total (undecided s.shared.count) s.stack = 0 := by
    refine Nat.le_zero.mp (Nat.le_trans (total_mono fun f => ?_) (Nat.le_of_eq none))
    cases f <;> grind
  refine ⟨fun d => ?_, fun d given => ?_, fun d => ?_, fun d given => ?_, fun d none => ?_⟩ <;>
    dsimp only at * <;> rcases eq_or_ne d s.shared.count with rfl | other
  · rw [Function.update_self, none]
    rfl
  · rw [Function.update_of_ne other]
    exact tokens.held d
  · rw [Function.update_self, idle]
    rfl
  · rw [Function.update_of_ne other] at given ⊢
    exact tokens.decided d given
  · rw [Function.update_self]
    simpa [Node.new] using taken
  · rw [Function.update_of_ne other]
    exact tokens.taken d
  · rw [Function.update_self] at given ⊢
    refine ⟨?_, fun _ => rfl, fun _ => given⟩
    by_contra kindless
    exact allowed (.inr ⟨given, kindless⟩)
  · rw [Function.update_of_ne other] at given ⊢
    exact tokens.task d given
  · rw [Function.update_self] at none ⊢
    exact ⟨none, rfl, rfl⟩
  · rw [Function.update_of_ne other] at none ⊢
    exact tokens.noTask d none

/-- Freeing a node changes nothing else. -/
theorem free_eq {d : Nat} {sh sh' : Shared} (freed : free sh d = some sh') :
    ∃ guards, (sh.node d).retired = some guards ∧ (∀ g ∈ guards, g ∉ sh.guards) ∧
      sh' = sh.modify d fun x => { x with freed := true } := by
  unfold DAG.free at freed
  split at freed
  · rename_i guards retired
    split at freed
    · rename_i closed
      cases freed
      exact ⟨guards, retired, closed.1, rfl⟩
    · cases freed
  · cases freed

theorem Tokens.free {d : Nat} {sh : Shared} (tokens : Tokens s)
    (freed : free s.shared d = some sh) : Tokens (n := n) ⟨sh, s.stack⟩ := by
  obtain ⟨guards, -, -, rfl⟩ := free_eq freed
  have held := tokens.held
  have decided := tokens.decided
  have taken := tokens.taken
  have task := tokens.task
  have noTask := tokens.noTask
  constructor <;> grind

/-- A graph that was not rejected keeps its tokens. -/
theorem reach_tokens : ∀ {s : State n}, Reach step anyStep (initial n) s →
    s.shared.rejected = false → Tokens s := by
  refine Reach.invariant_of (I := fun s => s.shared.rejected = false → Tokens s) reach_known
    (fun _ => initial_tokens) ?_
  intro s t a known tokens _ stepped accepted
  rcases step_cases stepped with ⟨_, _, _, made, rfl⟩ |
    ⟨i, old, rest, sh, new, here, move, -, rfl⟩ | ⟨_, _, freed, rfl⟩
  · have same := create_rejected made
    exact (tokens (same ▸ accepted)).create known made
  · exact (tokens (move_rejected move accepted)).move here move accepted
  · obtain ⟨guards, -, -, rfl⟩ := free_eq freed
    exact (tokens accepted).free freed

end JLibSched.DAG
