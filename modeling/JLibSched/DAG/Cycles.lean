import JLibSched.DAG.Lifetime
import JLibSched.DAG.Progress
import JLibSched.Lib.Peeling

/-!
# `HasCycle`

Before `Submit` nothing has been delivered, so the counter of a node is the number of edges to it,
and each edge stands in the list of its source.  `HasCycle` peels the graph with these counters.

When it finds a cycle, `Submit` gives up every node and fires none, and none is fired later.
-/

namespace JLibSched.DAG

open Transition Stacks

variable {n : Nat} {s t : State n}

/-! ## Before anything is fired -/

/-- What building a graph does not change in a node. -/
structure Fate where
  queued : Bool
  armed : Bool
  submitted : Bool
  finished : List Outcome
  pushed : Nat
  ran : Nat
  discarded : Nat
  isSealed : Bool
  given : Bool
  task : Bool
  disposed : Nat
  retired : Option (List Nat)

def Node.fate (x : Node) : Fate where
  queued := x.queued
  armed := x.armed
  submitted := x.submitted
  finished := x.finished
  pushed := x.pushed
  ran := x.ran
  discarded := x.discarded
  isSealed := x.firstEdge.isSealed
  given := x.given
  task := x.task
  disposed := x.disposed
  retired := x.retired

/-- The node has not been fired. -/
structure Fate.Unfired (x : Fate) : Prop where
  queued : x.queued = false
  armed : x.armed = false
  submitted : x.submitted = false
  finished : x.finished = []
  pushed : x.pushed = 0
  ran : x.ran = 0
  discarded : x.discarded = 0
  isSealed : x.isSealed = false

/-- `Submit` has not disposed of the node's task, nor retired the node. -/
structure Fate.Kept (x : Fate) : Prop where
  task : x.task = x.given
  disposed : x.disposed = 0
  retired : x.retired = none

/-- `Submit` has given up the node. -/
structure Fate.Gone (x : Fate) : Prop where
  task : x.task = false
  disposed : x.disposed = x.given.toNat
  retired : x.retired.isSome = true

/-- Nothing is fired before `Submit`, and nothing in a graph with a cycle. -/
structure Unstarted (s : State n) : Prop where
  order : s.shared.rejected = true → s.shared.submitted = true
  frames : s.shared.submitted = false ∨ s.shared.rejected = true → total running s.stack = 0
  unfired : s.shared.submitted = false ∨ s.shared.rejected = true →
    ∀ d, (s.shared.node d).fate.Unfired
  delivered : s.shared.submitted = false ∨ s.shared.rejected = true → ∀ e, s.shared.delivered e = 0
  kept : s.shared.submitted = false → ∀ d, (s.shared.node d).fate.Kept
  gone : s.shared.rejected = true → ∀ d < s.shared.count, (s.shared.node d).fate.Gone

theorem unfired_new {kind : Kind} {task : Bool} : (Node.new kind task).fate.Unfired :=
  ⟨rfl, rfl, rfl, rfl, rfl, rfl, rfl, rfl⟩

theorem kept_new {kind : Kind} {task : Bool} : (Node.new kind task).fate.Kept := ⟨rfl, rfl, rfl⟩

theorem initial_unstarted : Unstarted (initial n) where
  order := fun no => by cases no
  frames := fun _ => total_empty _ (initial n).stack fun _ => rfl
  unfired := fun _ _ => unfired_new
  delivered := fun _ _ => rfl
  kept := fun _ _ => kept_new
  gone := fun no => by cases no

theorem fate_modify {sh : Shared} {d : Nat} {f : Node → Node}
    (same : (f (sh.node d)).fate = (sh.node d).fate) (m : Nat) :
    ((sh.modify d f).node m).fate = (sh.node m).fate := by
  rw [modify_node]
  split
  · rename_i here
    rw [here]
    exact same
  · rfl

theorem reject_node {sh : Shared} {d : Nat} (known : d < sh.count) : sh.reject.node d =
    { sh.node d with
      task := false
      disposed := (sh.node d).disposed + (sh.node d).task.toNat
      retired := some sh.guards } := if_pos known

theorem reject_node_of_le {sh : Shared} {d : Nat} (beyond : sh.count ≤ d) :
    sh.reject.node d = sh.node d := if_neg (Nat.not_lt.mpr beyond)

theorem Fate.Unfired.reject {sh : Shared} (unfired : ∀ d, (sh.node d).fate.Unfired) (d : Nat) :
    (sh.reject.node d).fate.Unfired := by
  have before := unfired d
  rcases Nat.lt_or_ge d sh.count with known | beyond
  · rw [reject_node known]
    exact ⟨before.queued, before.armed, before.submitted, before.finished, before.pushed,
      before.ran, before.discarded, before.isSealed⟩
  · rw [reject_node_of_le beyond]
    exact before

theorem Fate.Kept.reject {sh : Shared} {d : Nat} (kept : (sh.node d).fate.Kept)
    (known : d < sh.count) : (sh.reject.node d).fate.Gone := by
  have task : (sh.node d).task = (sh.node d).given := kept.task
  have disposed : (sh.node d).disposed = 0 := kept.disposed
  rw [reject_node known]
  refine ⟨rfl, ?_, rfl⟩
  show (sh.node d).disposed + (sh.node d).task.toNat = (sh.node d).given.toNat
  rw [task, disposed, Nat.zero_add]

theorem addHead_running {e : Edge} {g : Nat} {head : Head} (unsealed : head.isSealed = false) :
    ((addHead e g head).map running).sum = 0 := by
  unfold addHead
  rw [unsealed]
  rfl

/-- A step of a graph in which nothing was fired: `Submit` rejects it, or the graph is built. -/
theorem move_unstarted {sh sh' : Shared} {old new : List Frame} (move : Move sh old sh' new)
    (idle : (old.map running).sum = 0) (unfired : ∀ d, (sh.node d).fate.Unfired)
    (order : sh.rejected = true → sh.submitted = true)
    (still : sh'.submitted = false ∨ sh'.rejected = true) :
    (new.map running).sum = 0 ∧ sh'.delivered = sh.delivered ∧
      (sh.submitted = false ∧ sh' = sh.reject ∨
        (sh'.submitted = sh.submitted ∧ sh'.rejected = sh.rejected) ∧
          ∀ d, (sh'.node d).fate = (sh.node d).fate) := by
  have unsealed (d : Nat) : (sh.node d).firstEdge.isSealed = false := (unfired d).isSealed
  cases move with
  | reject fresh => exact ⟨rfl, rfl, .inl ⟨fresh, rfl⟩⟩
  | addDependency | signalExternal | cancel | signalAgain | close =>
    exact ⟨rfl, rfl, .inr ⟨⟨rfl, rfl⟩, fun _ => rfl⟩⟩
  | submit fresh =>
    rcases still with unsubmitted | rejected
    · cases unsubmitted
    · have submitted := order rejected
      rw [fresh] at submitted
      cases submitted
  | @run d queued | @discard d queued =>
    have not : (sh.node d).queued = false := (unfired d).queued
    rw [not] at queued
    cases queued
  | addCount => exact ⟨rfl, rfl, .inr ⟨⟨rfl, rfl⟩, fate_modify rfl⟩⟩
  | signalEarly => exact ⟨rfl, rfl, .inr ⟨⟨rfl, rfl⟩, fate_modify rfl⟩⟩
  | addLoad | addRetry =>
    exact ⟨addHead_running (unsealed _), rfl, .inr ⟨⟨rfl, rfl⟩, fun _ => rfl⟩⟩
  | @addLink e g head same =>
    refine ⟨rfl, rfl, .inr ⟨⟨rfl, rfl⟩, fate_modify ?_⟩⟩
    unfold Node.fate
    rw [unsealed]
  | @signalArmed d g first armed =>
    have not : (sh.node d).armed = false := (unfired d).armed
    rw [not] at armed
    cases armed
  | _ => cases idle

theorem Unstarted.move {i : Fin n} {old rest new : List Frame} {sh : Shared}
    (unstarted : Unstarted s) (here : s.stack i = old ++ rest) (move : Move s.shared old sh new) :
    Unstarted ⟨sh, replace s.stack i new rest⟩ := by
  obtain ⟨once, rejects⟩ := move_order move
  have before (still : sh.submitted = false ∨ sh.rejected = true) :
      s.shared.submitted = false ∨ s.shared.rejected = true := by
    rcases still with unsubmitted | rejected
    · refine .inl (Bool.eq_false_iff.mpr fun submitted => ?_)
      rw [once submitted] at unsubmitted
      cases unsubmitted
    · exact (rejects rejected).elim .inr fun fresh => .inl fresh.1
  have idle (still : sh.submitted = false ∨ sh.rejected = true) : (old.map running).sum = 0 := by
    have top := sum_le_total running here
    have none := unstarted.frames (before still)
    omega
  have moved (still : sh.submitted = false ∨ sh.rejected = true) :=
    move_unstarted move (idle still) (unstarted.unfired (before still)) unstarted.order still
  have count := move_count move
  refine ⟨?_, fun still => ?_, fun still d => ?_, fun still e => ?_, fun unsubmitted d => ?_,
    fun rejected d known => ?_⟩ <;> dsimp only at *
  · intro rejected
    rcases rejects rejected with already | ⟨-, submitted⟩
    · exact once (unstarted.order already)
    · exact submitted
  · have frames := total_replace running new here
    have none := unstarted.frames (before still)
    have fresh := (moved still).1
    omega
  · have unfired := unstarted.unfired (before still)
    rcases (moved still).2.2 with ⟨-, rejected⟩ | ⟨-, same⟩
    · rw [rejected]
      exact Fate.Unfired.reject unfired d
    · rw [same d]
      exact unfired d
  · rw [(moved still).2.1]
    exact unstarted.delivered (before still) e
  · rcases (moved (.inl unsubmitted)).2.2 with ⟨-, rejected⟩ | ⟨⟨submitted, -⟩, same⟩
    · rw [rejected] at unsubmitted
      cases unsubmitted
    · rw [same d]
      exact unstarted.kept (submitted.symm.trans unsubmitted) d
  · rw [count] at known
    rcases (moved (.inr rejected)).2.2 with ⟨fresh, rejects⟩ | ⟨⟨-, again⟩, same⟩
    · rw [rejects]
      exact (unstarted.kept fresh d).reject known
    · rw [same d]
      exact unstarted.gone (again.symm.trans rejected) d known

theorem Unstarted.create {kind : Kind} {task : Bool} {sh : Shared} (unstarted : Unstarted s)
    (made : create s.shared kind task = some sh) : Unstarted (n := n) ⟨sh, s.stack⟩ := by
  obtain ⟨fresh, rfl⟩ := create_eq made
  have accepted : s.shared.rejected ≠ true := by
    intro rejected
    rw [unstarted.order rejected] at fresh
    cases fresh
  refine ⟨unstarted.order, unstarted.frames, fun still d => ?_, unstarted.delivered,
    fun unsubmitted d => ?_, fun rejected => absurd rejected accepted⟩ <;> dsimp only
  · rcases eq_or_ne d s.shared.count with rfl | other
    · rw [Function.update_self]
      exact unfired_new
    · rw [Function.update_of_ne other]
      exact unstarted.unfired still d
  · rcases eq_or_ne d s.shared.count with rfl | other
    · rw [Function.update_self]
      exact kept_new
    · rw [Function.update_of_ne other]
      exact unstarted.kept unsubmitted d

theorem Unstarted.free {d : Nat} {sh : Shared} (unstarted : Unstarted s)
    (freed : free s.shared d = some sh) : Unstarted (n := n) ⟨sh, s.stack⟩ := by
  obtain ⟨guards, -, -, rfl⟩ := free_eq freed
  have same (m : Nat) : ((s.shared.modify d fun x => { x with freed := true }).node m).fate =
      (s.shared.node m).fate := fate_modify rfl m
  refine ⟨unstarted.order, unstarted.frames, fun still m => ?_, unstarted.delivered,
    fun unsubmitted m => ?_, fun rejected m known => ?_⟩ <;> dsimp only <;> rw [same m]
  · exact unstarted.unfired still m
  · exact unstarted.kept unsubmitted m
  · exact unstarted.gone rejected m known

theorem unstarted_step {a : Label n} (unstarted : Unstarted s) (stepped : step s a = some t) :
    Unstarted t := by
  rcases step_cases stepped with ⟨_, _, _, made, rfl⟩ |
    ⟨i, old, rest, sh, new, here, move, -, rfl⟩ | ⟨_, _, freed, rfl⟩
  · exact unstarted.create made
  · exact unstarted.move here move
  · exact unstarted.free freed

theorem reach_unstarted : ∀ {s : State n}, Reach step anyStep (initial n) s → Unstarted s :=
  Reach.invariant initial_unstarted fun unstarted _ stepped => unstarted_step unstarted stepped

/-! ## The counters -/

/-- The edges of a graph that is built, and at rest. -/
structure Built (sh : Shared) : Prop where
  left : ∀ d, ((sh.node d).left : Int) = ((sh.created.filter (·.dep = d)).length : Nat)
  lists : ∀ d, (sh.node d).firstEdge.edges.Perm (sh.created.filter (·.source = d))
  known : ∀ e ∈ sh.created, e.dep < sh.count ∧ e.source < sh.count

theorem reach_built (reach : Reach step anyStep (initial n) s)
    (before : s.shared.submitted = false) (idle : ∀ i, s.stack i = []) : Built s.shared := by
  have unstarted := reach_unstarted reach
  have accepted : s.shared.rejected = false := by
    refine Bool.eq_false_iff.mpr fun rejected => ?_
    rw [unstarted.order rejected] at before
    cases before
  have delivery := reach_delivery reach accepted
  have ledger := reach_ledger reach accepted
  -- an edge that nobody has in hand stands in the list of its source
  have listed (e : Edge) : (s.shared.node e.source).undelivered.count e =
      s.shared.created.count e := by
    have once := delivery.once e
    rw [total_empty _ _ idle, unstarted.delivered (.inl before) e] at once
    omega
  have counted (e : Edge) : (s.shared.node e.dep).counted.count e = s.shared.created.count e := by
    refine Nat.le_antisymm ((Nat.le_add_right _ _).trans (ledger.once e)) ?_
    by_cases mem : e ∈ s.shared.created
    · have there : e ∈ (s.shared.node e.source).undelivered := by
        refine List.count_pos_iff.mp ?_
        rw [listed e]
        exact List.count_pos_iff.mpr mem
      have one := List.nodup_iff_count_le_one.mp delivery.nodup e
      have mine := List.count_pos_iff.mpr (ledger.lists _ e there)
      omega
    · rw [List.count_eq_zero.mpr mem]
      exact Nat.zero_le _
  refine ⟨fun d => ?_, fun d => ?_, (reach_known reach).created⟩
  · rw [ledger.left d]
    refine congrArg _ (List.Perm.length_eq (List.perm_iff_count.mpr fun e => ?_))
    by_cases mine : e.dep = d
    · rw [List.count_filter (by simpa using mine), ← counted e, mine]
    · rw [List.count_eq_zero.mpr fun mem => mine (ledger.dep d e mem),
        List.count_eq_zero.mpr fun mem => mine (by simpa using List.of_mem_filter mem)]
  · have finished : (s.shared.node d).finished = [] :=
      (unstarted.unfired (.inl before) d).finished
    rw [delivery.unfinished d finished]
    refine List.perm_iff_count.mpr fun e => ?_
    by_cases mine : e.source = d
    · rw [List.count_filter (by simpa using mine), ← listed e, mine]
    · rw [List.count_eq_zero.mpr fun mem => mine (delivery.source d e mem),
        List.count_eq_zero.mpr fun mem => mine (by simpa using List.of_mem_filter mem)]

/-! ## Peeling -/

/-- The dependents of a node. -/
def dependents (sh : Shared) (d : Nat) : List Nat := (sh.node d).firstEdge.edges.map (·.dep)

theorem relax_eq {indeg : Nat → Int} {ready : List Nat} {edges : List Edge} :
    relax indeg ready edges = Peeling.relax indeg ready (edges.map (·.dep)) := by
  induction edges generalizing indeg ready with
  | nil => rfl
  | cons e edges ih => exact ih

theorem processed_eq {sh : Shared} {fuel : Nat} {indeg : Nat → Int} {ready : List Nat} :
    processed sh fuel indeg ready = Peeling.peel (dependents sh) fuel indeg ready := by
  induction fuel generalizing indeg ready with
  | zero => rfl
  | succ fuel ih =>
    cases ready with
    | nil => rfl
    | cons d ready =>
      unfold processed Peeling.peel dependents
      rw [relax_eq]
      exact congrArg (· + 1) ih

/-- The edges to a node, sorted by their sources. -/
theorem sum_sources {edges : List Edge} {count d : Nat}
    (known : ∀ e ∈ edges, e.source < count) :
    ((List.range count).map fun u => ((edges.filter (·.source = u)).map (·.dep)).count d).sum =
      (edges.filter (·.dep = d)).length := by
  rw [← List.sum_toFinset _ List.nodup_range, List.toFinset_range]
  induction edges with
  | nil => exact Finset.sum_eq_zero fun u _ => rfl
  | cons e edges ih =>
    have each (u : Nat) : (((e :: edges).filter (·.source = u)).map (·.dep)).count d =
        (if u = e.source then (if e.dep = d then 1 else 0) else 0) +
          ((edges.filter (·.source = u)).map (·.dep)).count d := by
      by_cases mine : e.source = u
      · rw [List.filter_cons_of_pos (by simpa using mine), List.map_cons, List.count_cons,
          if_pos mine.symm, Nat.add_comm]
        simp only [beq_iff_eq]
      · rw [List.filter_cons_of_neg (by simpa using mine), if_neg (Ne.symm mine), Nat.zero_add]
    rw [Finset.sum_congr rfl fun u _ => each u, Finset.sum_add_distrib, Finset.sum_ite_eq',
      if_pos (Finset.mem_range.mpr (known e (List.mem_cons_self ..))),
      ih fun e mem => known e (List.mem_cons_of_mem _ mem)]
    by_cases last : e.dep = d
    · rw [if_pos last, List.filter_cons_of_pos (by simpa using last), List.length_cons,
        Nat.add_comm]
    · rw [if_neg last, List.filter_cons_of_neg (by simpa using last), Nat.zero_add]

theorem Built.incoming {sh : Shared} (built : Built sh) (d : Nat) :
    (sh.node d).left = Peeling.incoming (dependents sh) (List.range sh.count) d := by
  rw [built.left d, ← sum_sources fun e mem => (built.known e mem).2]
  unfold Peeling.incoming dependents
  refine congrArg _ (congrArg List.sum (List.map_congr_left fun u _ => ?_))
  exact (((built.lists u).map _).count_eq d).symm

theorem Built.edge_iff {sh : Shared} (built : Built sh) (u d : Nat) :
    Peeling.Edge (dependents sh) (List.range sh.count) u d ↔ DependsOn sh d u := by
  unfold Peeling.Edge dependents DependsOn
  rw [List.mem_range, List.mem_map]
  constructor
  · rintro ⟨-, e, mem, dep⟩
    have edge := (built.lists u).mem_iff.mp mem
    exact ⟨e, List.mem_of_mem_filter edge, by simpa using List.of_mem_filter edge, dep⟩
  · rintro ⟨e, mem, source, dep⟩
    refine ⟨source ▸ (built.known e mem).2, e, (built.lists u).mem_iff.mpr ?_, dep⟩
    exact List.mem_filter.mpr ⟨mem, by simpa using source⟩

theorem Built.hasCycle_iff {sh : Shared} (built : Built sh) :
    hasCycle sh = true ↔ ∃ d, Relation.TransGen (DependsOn sh) d d := by
  have swapped : Peeling.Edge (dependents sh) (List.range sh.count) =
      Function.swap (DependsOn sh) := by
    funext u d
    exact propext (built.edge_iff u d)
  have closed : ∀ u ∈ List.range sh.count, ∀ d ∈ dependents sh u, d ∈ List.range sh.count := by
    intro u _ d mem
    obtain ⟨e, listed, rfl⟩ := List.mem_map.mp mem
    have edge := (built.lists u).mem_iff.mp listed
    exact List.mem_range.mpr (built.known e (List.mem_of_mem_filter edge)).1
  have ready (d : Nat) :
      d ∈ ((List.range sh.count).filter fun d => (sh.node d).left = 0).reverse ↔
        d ∈ List.range sh.count ∧ (sh.node d).left = 0 := by
    rw [List.mem_reverse, List.mem_filter, decide_eq_true_iff]
  have peeled : Peeling.peel (dependents sh)
      (sh.count +
        ((List.range sh.count).map fun d => (sh.node d).firstEdge.edges.length).sum + 1)
      (fun d => (sh.node d).left)
      ((List.range sh.count).filter fun d => (sh.node d).left = 0).reverse =
        (List.range sh.count).length ↔
      ∀ d, ¬ Relation.TransGen (Peeling.Edge (dependents sh) (List.range sh.count)) d d :=
    Peeling.peel_eq_iff List.nodup_range closed (fun d _ => built.incoming d)
      (List.nodup_reverse.mpr (List.nodup_range.filter _)) ready (by rw [List.length_range]; omega)
  rw [List.length_range, swapped] at peeled
  unfold hasCycle
  rw [processed_eq, decide_eq_true_iff, Ne, peeled]
  push Not
  exact exists_congr fun d => Relation.transGen_swap

/-! ## The cyclic path of `Submit` -/

/-- The graph, the nodes whose task was given to `FreeTask`, and the nodes given to `RetirePtr`. -/
structure Rejection where
  shared : Shared
  freed : List Nat
  retired : List Nat

/-- `DisposeUnexecutedTask`. -/
def Rejection.disposeUnexecutedTask (r : Rejection) (d : Nat) : Rejection :=
  if (r.shared.node d).task then
    { r with
      shared := r.shared.modify d fun x => { x with task := false, disposed := x.disposed + 1 }
      freed := r.freed ++ [d] }
  else r

/-- `RetirePtr` of a node. -/
def Rejection.retirePtr (r : Rejection) (d : Nat) : Rejection :=
  { r with
    shared := r.shared.modify d fun x => { x with retired := some r.shared.guards }
    retired := r.retired ++ [d] }

/-- The loop over `nodes`. -/
def Rejection.loop : Rejection → List Nat → Rejection
  | r, [] => r
  | r, d :: nodes => ((r.disposeUnexecutedTask d).retirePtr d).loop nodes

/-- A node that the loop has passed. -/
def Node.give (x : Node) (guards : List Nat) : Node :=
  { x with
    task := false
    disposed := x.disposed + x.task.toNat
    retired := some guards }

theorem Rejection.pass (r : Rejection) (d : Nat) :
    (r.disposeUnexecutedTask d).retirePtr d =
      ⟨r.shared.modify d fun x => x.give r.shared.guards,
        if (r.shared.node d).task then r.freed ++ [d] else r.freed, r.retired ++ [d]⟩ := by
  unfold Rejection.disposeUnexecutedTask Rejection.retirePtr Node.give
  cases task : (r.shared.node d).task with
  | true =>
    rw [if_pos rfl, if_pos rfl]
    unfold Shared.modify
    simp only [Function.update_self, Function.update_idem, task, Bool.toNat_true]
  | false =>
    rw [if_neg Bool.false_ne_true, if_neg Bool.false_ne_true]
    unfold Shared.modify
    simp only [task, Bool.toNat_false, Nat.add_zero]

/-- Each node of the list is disposed of and retired, in order. -/
theorem Rejection.loop_eq {nodes : List Nat} (nodup : nodes.Nodup) (r : Rejection) :
    r.loop nodes =
      ⟨{ r.shared with node := fun d =>
          if d ∈ nodes then (r.shared.node d).give r.shared.guards else r.shared.node d },
        r.freed ++ nodes.filter fun d => (r.shared.node d).task, r.retired ++ nodes⟩ := by
  induction nodes generalizing r with
  | nil =>
    rw [List.filter_nil, List.append_nil, List.append_nil]
    rfl
  | cons d nodes ih =>
    obtain ⟨fresh, nodup⟩ := List.nodup_cons.mp nodup
    have kept (m : Nat) (mem : m ∈ nodes) :
        (r.shared.modify d fun x => x.give r.shared.guards).node m = r.shared.node m :=
      modify_of_ne fun same => fresh (same ▸ mem)
    unfold Rejection.loop
    rw [ih nodup, Rejection.pass]
    refine congr (congrArg₂ Rejection.mk ?_ ?_) (List.append_cons ..).symm
    · refine congrArg (fun node => { r.shared with node := node }) (funext fun m => ?_)
      simp only [modify_guards, List.mem_cons]
      by_cases mem : m ∈ nodes
      · rw [if_pos mem, if_pos (.inr mem), kept m mem]
      · rw [if_neg mem, modify_node]
        by_cases here : m = d
        · rw [if_pos here, if_pos (.inl here), here]
        · rw [if_neg here, if_neg (by rintro (same | later) <;> contradiction)]
    · rw [List.filter_congr fun m mem => by rw [kept m mem]]
      show (if (r.shared.node d).task then r.freed ++ [d] else r.freed) ++ _ = _
      rw [List.filter_cons]
      split
      · exact (List.append_cons ..).symm
      · rfl

theorem loop_reject (sh : Shared) :
    Rejection.loop ⟨{ sh with submitted := true, rejected := true }, [], []⟩
        (List.range sh.count) =
      ⟨sh.reject, (List.range sh.count).filter fun d => (sh.node d).task, List.range sh.count⟩ := by
  rw [Rejection.loop_eq List.nodup_range]
  refine congrArg (fun shared => (⟨shared, _, _⟩ : Rejection)) ?_
  refine congrArg (fun node => { sh with submitted := true, rejected := true, node := node })
    (funext fun d => ?_)
  simp only [List.mem_range]
  rfl

/-! ## Afterwards -/

theorem step_rejected {a : Label n} (unstarted : Unstarted s) (rejected : s.shared.rejected = true)
    (stepped : step s a = some t) :
    t.shared.rejected = true ∧ t.shared.count = s.shared.count := by
  rcases step_cases stepped with ⟨_, _, _, made, rfl⟩ |
    ⟨i, old, rest, sh, new, here, move, -, rfl⟩ | ⟨_, _, freed, rfl⟩
  · obtain ⟨fresh, -⟩ := create_eq made
    rw [unstarted.order rejected] at fresh
    cases fresh
  · refine ⟨?_, move_count move⟩
    by_contra accepted
    rw [move_rejected move (Bool.eq_false_iff.mpr accepted)] at rejected
    cases rejected
  · obtain ⟨guards, -, -, rfl⟩ := free_eq freed
    exact ⟨rejected, rfl⟩

/-- Nothing is fired in a graph that was rejected, whatever is called later. -/
theorem reach_rejected {u : State n} (unstarted : Unstarted s)
    (rejected : s.shared.rejected = true) (reach : Reach step anyStep s u) :
    Unstarted u ∧ u.shared.rejected = true ∧ u.shared.count = s.shared.count := by
  induction reach with
  | start => exact ⟨unstarted, rejected, rfl⟩
  | next _ _ stepped ih =>
    obtain ⟨before, rejected, count⟩ := ih
    obtain ⟨still, same⟩ := step_rejected before rejected stepped
    exact ⟨unstarted_step before stepped, still, same.trans count⟩

/-- `HasCycle` finds a cycle exactly if there is one, and then `Submit` returns false, with every
node's task disposed of and every node retired once, and no node fired. -/
theorem hasCycle_exact (reach : Reach step anyStep (initial n) s)
    (before : s.shared.submitted = false) (idle : ∀ i, s.stack i = []) :
    (hasCycle s.shared = true ↔ ∃ d, Relation.TransGen (DependsOn s.shared) d d) ∧
    (hasCycle s.shared = true → ∀ i : Fin n, ∃ t, step s (.call i .submit) = some t ∧
      t.shared.rejected = true ∧ (∀ j, t.stack j = []) ∧
      Rejection.loop ⟨{ s.shared with submitted := true, rejected := true }, [], []⟩
          (List.range s.shared.count) =
        ⟨t.shared, (List.range s.shared.count).filter fun d => (s.shared.node d).given,
          List.range s.shared.count⟩ ∧
      ∀ u, Reach step anyStep t u → ∀ d < s.shared.count,
        (u.shared.node d).fate.Unfired ∧ (u.shared.node d).fate.Gone) := by
  refine ⟨(reach_built reach before idle).hasCycle_iff, fun cyclic i => ?_⟩
  have unstarted := reach_unstarted reach
  have submit : step s (.call i .submit) =
      some ⟨s.shared.reject, replace s.stack i [] (s.stack i)⟩ := by
    simp only [step, call]
    rw [idle i, before, cyclic]
    rfl
  refine ⟨_, submit, rfl, fun j => ?_, ?_, fun u after d known => ?_⟩
  · show replace s.stack i [] (s.stack i) j = []
    unfold replace
    rcases eq_or_ne j i with rfl | other
    · rw [Function.update_self, idle j]
      rfl
    · rw [Function.update_of_ne other]
      exact idle j
  · rw [loop_reject]
    refine congrArg (fun freed => (⟨_, freed, _⟩ : Rejection)) ?_
    exact List.filter_congr fun d _ => (unstarted.kept before d).task
  · have rejection := unstarted_step unstarted submit
    obtain ⟨now, rejected, count⟩ := reach_rejected rejection rfl after
    exact ⟨now.unfired (.inr rejected) d, now.gone rejected d (count ▸ known)⟩

/-- Two tasks, each after the other. -/
def ring : List (Label 1) :=
  [.create .task true, .create .task true, .call 0 (.addDependency 1 0)] ++ steps 0 4 ++
    [.call 0 (.addDependency 0 1)] ++ steps 0 4

def ringEnd : State 1 := (run step anyStep (initial 1) ring).getD (initial 1)

theorem ring_hasCycle : (hasCycle ringEnd.shared = true ∧
      ∃ d, Relation.TransGen (DependsOn ringEnd.shared) d d) ∧
    ∃ t, step ringEnd (.call 0 .submit) = some t ∧ t.shared.rejected = true ∧
      (∀ j, t.stack j = []) ∧
      Rejection.loop ⟨{ ringEnd.shared with submitted := true, rejected := true }, [], []⟩
          (List.range ringEnd.shared.count) =
        ⟨t.shared, (List.range ringEnd.shared.count).filter fun d => (ringEnd.shared.node d).given,
          List.range ringEnd.shared.count⟩ ∧
      ∀ u, Reach step anyStep t u → ∀ d < ringEnd.shared.count,
        (u.shared.node d).fate.Unfired ∧ (u.shared.node d).fate.Gone := by
  have cyclic : hasCycle ringEnd.shared = true := by decide +kernel
  obtain ⟨cycle, rejects⟩ := hasCycle_exact (Reach.of_isSome ring (by decide +kernel))
    (by decide +kernel) (by decide +kernel)
  exact ⟨⟨cyclic, cycle.mp cyclic⟩, rejects cyclic 0⟩

end JLibSched.DAG
