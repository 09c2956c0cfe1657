import Mathlib.Algebra.BigOperators.Group.List.Basic
import Mathlib.Data.Fintype.Basic
import Mathlib.Data.List.Perm.Basic
import Mathlib.Logic.Relation
import Mathlib.Order.WellFounded
import Mathlib.Tactic

/-!
# Peeling a graph

A graph is given by its nodes and, for each node, the list of its successors, in which a successor
may occur several times.  `peel` takes one ready node after the other, counts its edges off at its
successors, and makes ready what falls to zero.  When the counts are at first the numbers of
incoming edges, all nodes are taken exactly if the graph has no cycle.

The nodes taken so far are kept with the latest one first.  The predecessors of a node are among
those before it, so none of them lies on a cycle.  When nothing is ready, each of the other nodes
has a predecessor among them, and finitely many such nodes contain a cycle.
-/

namespace Peeling

variable {α : Type*} [DecidableEq α]

/-- The edges to a node from a list of nodes. -/
def incoming (succ : α → List α) (nodes : List α) (d : α) : Nat :=
  (nodes.map fun u => (succ u).count d).sum

/-- One node's edges are counted off; what falls to zero is made ready. -/
def relax (counts : α → Int) (ready : List α) : List α → (α → Int) × List α
  | [] => (counts, ready)
  | d :: ds =>
    relax (Function.update counts d (counts d - 1))
      (if counts d - 1 = 0 then d :: ready else ready) ds

/-- How many nodes are taken. -/
def peel (succ : α → List α) : Nat → (α → Int) → List α → Nat
  | 0, _, _ => 0
  | _ + 1, _, [] => 0
  | fuel + 1, counts, d :: ready =>
    peel succ fuel (relax counts ready (succ d)).1 (relax counts ready (succ d)).2 + 1

variable {succ : α → List α} {nodes taken ready rest done : List α} {counts : α → Int}
  {due : α → Nat} {d x : α}

/-! ## One node -/

/-- The counts are what is due, and what has nothing due has been taken or is ready. -/
structure Level (nodes taken ready : List α) (counts : α → Int) (due : α → Nat) : Prop where
  nodup : (taken ++ ready).Nodup
  inside : ∀ d ∈ taken ++ ready, d ∈ nodes
  counts : ∀ d ∈ nodes, counts d = due d
  zero : ∀ d ∈ nodes, due d = 0 ↔ d ∈ taken ++ ready

theorem Level.relax {ds : List α}
    (level : Level nodes taken ready counts fun d => due d + ds.count d)
    (known : ∀ d ∈ ds, d ∈ nodes) :
    Level nodes taken (Peeling.relax counts ready ds).2 (Peeling.relax counts ready ds).1 due := by
  induction ds generalizing counts ready with
  | nil => exact level
  | cons d ds ih =>
    have inside := known d (List.mem_cons_self ..)
    refine ih ?_ fun e mem => known e (List.mem_cons_of_mem _ mem)
    have positive : due d + (d :: ds).count d ≠ 0 := by
      rw [List.count_cons_self]
      omega
    have outside : d ∉ taken ++ ready := fun mem => positive ((level.zero d inside).mpr mem)
    have counted : counts d = (due d + ds.count d : Nat) + 1 := by
      rw [level.counts d inside, List.count_cons_self]
      push_cast
      ring
    have others (e : α) (other : e ≠ d) : (d :: ds).count e = ds.count e :=
      List.count_cons_of_ne other.symm
    have fell : counts d - 1 = 0 ↔ due d + ds.count d = 0 := by omega
    have updated : ∀ e ∈ nodes,
        Function.update counts d (counts d - 1) e = (due e + ds.count e : Nat) := by
      intro e mem
      rcases eq_or_ne e d with rfl | other
      · rw [Function.update_self]
        omega
      · rw [Function.update_of_ne other, level.counts e mem, others e other]
    split
    · rename_i last
      refine ⟨?_, ?_, updated, ?_⟩
      · exact (List.perm_middle.nodup_iff).mpr (List.nodup_cons.mpr ⟨outside, level.nodup⟩)
      · intro e mem
        rcases List.mem_cons.mp (List.perm_middle.mem_iff.mp mem) with rfl | mem
        · exact inside
        · exact level.inside e mem
      · intro e mem
        rw [List.perm_middle.mem_iff, List.mem_cons]
        rcases eq_or_ne e d with rfl | other
        · exact iff_of_true (fell.mp last) (.inl rfl)
        · rw [← level.zero e mem, others e other]
          exact (or_iff_right other).symm
    · rename_i more
      refine ⟨level.nodup, level.inside, updated, ?_⟩
      intro e mem
      rcases eq_or_ne e d with rfl | other
      · exact iff_of_false (fun zero => more (fell.mpr zero)) outside
      · rw [← level.zero e mem, others e other]

/-! ## All nodes -/

/-- The predecessors of each node stand before it. -/
inductive Ordered (succ : α → List α) (nodes : List α) : List α → Prop where
  | nil : Ordered succ nodes []
  | cons {d : α} {done : List α} (before : ∀ u ∈ nodes, d ∈ succ u → u ∈ done)
      (ordered : Ordered succ nodes done) : Ordered succ nodes (d :: done)

/-- The edges of the graph. -/
def Edge (succ : α → List α) (nodes : List α) (u d : α) : Prop := u ∈ nodes ∧ d ∈ succ u

structure Peeled (succ : α → List α) (nodes done rest ready : List α) (counts : α → Int) : Prop
    where
  perm : nodes.Perm (done ++ rest)
  level : Level nodes done ready counts (incoming succ rest)
  ordered : Ordered succ nodes done

theorem incoming_eq_zero : incoming succ rest d = 0 ↔ ∀ u ∈ rest, d ∉ succ u := by
  unfold incoming
  rw [List.sum_eq_zero_iff]
  simp only [List.mem_map, forall_exists_index, and_imp, forall_apply_eq_imp_iff₂,
    List.count_eq_zero]

theorem incoming_erase (mem : x ∈ rest) :
    incoming succ rest d = incoming succ (rest.erase x) d + (succ x).count d := by
  unfold incoming
  rw [Nat.add_comm]
  exact (List.sum_map_erase _ mem).symm

theorem Peeled.mem_rest (peeled : Peeled succ nodes done rest (x :: ready) counts) :
    x ∈ rest := by
  have inside : x ∈ nodes :=
    peeled.level.inside x (List.mem_append_right _ (List.mem_cons_self ..))
  rcases List.mem_append.mp (peeled.perm.mem_iff.mp inside) with twice | mem
  · exact absurd (List.mem_cons_self ..) (List.disjoint_of_nodup_append peeled.level.nodup twice)
  · exact mem

/-- The next ready node is taken. -/
theorem Peeled.step (closed : ∀ u ∈ nodes, ∀ d ∈ succ u, d ∈ nodes)
    (peeled : Peeled succ nodes done rest (x :: ready) counts) :
    Peeled succ nodes (x :: done) (rest.erase x) (relax counts ready (succ x)).2
      (relax counts ready (succ x)).1 := by
  have mem := peeled.mem_rest
  have inside : x ∈ nodes := peeled.perm.mem_iff.mpr (List.mem_append_right _ mem)
  have moved : (done ++ x :: ready).Perm ((x :: done) ++ ready) := List.perm_middle
  refine ⟨?_, Level.relax ?_ (closed x inside), ?_⟩
  · exact peeled.perm.trans (((List.perm_cons_erase mem).append_left done).trans List.perm_middle)
  · refine ⟨moved.nodup_iff.mp peeled.level.nodup, ?_, ?_, ?_⟩
    · exact fun d there => peeled.level.inside d (moved.mem_iff.mpr there)
    · intro d known
      rw [peeled.level.counts d known, incoming_erase mem]
    · intro d known
      rw [← incoming_erase mem, peeled.level.zero d known, moved.mem_iff]
  · refine .cons (fun u known edge => ?_) peeled.ordered
    have none : incoming succ rest x = 0 :=
      (peeled.level.zero x inside).mpr (List.mem_append_right _ (List.mem_cons_self ..))
    rcases List.mem_append.mp (peeled.perm.mem_iff.mp known) with before | after
    · exact before
    · exact absurd edge (incoming_eq_zero.mp none u after)

/-- The run ends with nothing ready. -/
theorem Peeled.run (closed : ∀ u ∈ nodes, ∀ d ∈ succ u, d ∈ nodes) {fuel : Nat}
    (enough : rest.length < fuel) (peeled : Peeled succ nodes done rest ready counts) :
    ∃ done' rest' counts', Peeled succ nodes done' rest' [] counts' ∧
      peel succ fuel counts ready + done.length = done'.length := by
  induction fuel generalizing done rest ready counts with
  | zero => exact absurd enough (Nat.not_lt_zero _)
  | succ fuel ih =>
    cases ready with
    | nil => exact ⟨done, rest, counts, peeled, Nat.zero_add _⟩
    | cons x ready =>
      have mem := peeled.mem_rest
      have shorter : (rest.erase x).length < fuel := by
        have length := List.length_erase_of_mem mem
        have positive := List.length_pos_of_mem mem
        omega
      obtain ⟨done', rest', counts', ended, length⟩ := ih shorter (peeled.step closed)
      refine ⟨done', rest', counts', ended, ?_⟩
      have taken : peel succ (fuel + 1) counts (x :: ready) =
          peel succ fuel (relax counts ready (succ x)).1 (relax counts ready (succ x)).2 + 1 :=
        rfl
      rw [← length, List.length_cons, taken]
      omega

/-! ## Cycles -/

omit [DecidableEq α] in
theorem Ordered.predecessor (ordered : Ordered succ nodes done) {u : α} (mem : d ∈ done)
    (edge : Edge succ nodes u d) : u ∈ done := by
  induction ordered with
  | nil => cases mem
  | cons before ordered ih =>
    rcases List.mem_cons.mp mem with rfl | mem
    · exact List.mem_cons_of_mem _ (before u edge.1 edge.2)
    · exact List.mem_cons_of_mem _ (ih mem)

omit [DecidableEq α] in
/-- Whoever comes before a node stands before it. -/
theorem Ordered.ancestor (ordered : Ordered succ nodes done) {u : α} (mem : d ∈ done)
    (path : Relation.TransGen (Edge succ nodes) u d) : u ∈ done := by
  induction path with
  | single edge => exact ordered.predecessor mem edge
  | tail _ edge ih => exact ih (ordered.predecessor mem edge)

omit [DecidableEq α] in
theorem Ordered.acyclic (ordered : Ordered succ nodes done) (nodup : done.Nodup)
    (mem : d ∈ done) : ¬ Relation.TransGen (Edge succ nodes) d d := by
  intro cycle
  induction ordered with
  | nil => cases mem
  | cons before ordered ih =>
    obtain ⟨fresh, nodup⟩ := List.nodup_cons.mp nodup
    rcases List.mem_cons.mp mem with rfl | mem
    · -- the last edge of the cycle comes from a node before it
      cases cycle with
      | single edge => exact fresh (before _ edge.1 edge.2)
      | tail path edge => exact fresh (ordered.ancestor (before _ edge.1 edge.2) path)
    · exact ih nodup mem

omit [DecidableEq α] in
/-- Finitely many nodes with a predecessor each contain a cycle. -/
theorem exists_cycle {edge : α → α → Prop} (mem : x ∈ rest)
    (each : ∀ d ∈ rest, ∃ u ∈ rest, edge u d) : ∃ d, Relation.TransGen edge d d := by
  by_contra acyclic
  let below : {d // d ∈ rest} → {d // d ∈ rest} → Prop := fun u d =>
    Relation.TransGen edge u.val d.val
  have order : WellFounded below := by
    have : Finite {d // d ∈ rest} := rest.finite_toSet.to_subtype
    have : IsTrans {d // d ∈ rest} below := ⟨fun _ _ _ one two => one.trans two⟩
    have : Std.Irrefl below := ⟨fun d cycle => acyclic ⟨d.val, cycle⟩⟩
    exact Finite.wellFounded_of_trans_of_irrefl below
  have none : ∀ d : {d // d ∈ rest}, False := by
    intro d
    induction d using order.induction with
    | _ d ih =>
      obtain ⟨u, there, edge⟩ := each d.val d.property
      exact ih ⟨u, there⟩ (.single edge)
  exact none ⟨x, mem⟩

/-- All nodes are taken exactly if there is no cycle. -/
theorem peel_eq_iff (nodup : nodes.Nodup) (closed : ∀ u ∈ nodes, ∀ d ∈ succ u, d ∈ nodes)
    (counted : ∀ d ∈ nodes, counts d = incoming succ nodes d) (fresh : ready.Nodup)
    (start : ∀ d, d ∈ ready ↔ d ∈ nodes ∧ counts d = 0) {fuel : Nat}
    (enough : nodes.length < fuel) :
    peel succ fuel counts ready = nodes.length ↔
      ∀ d, ¬ Relation.TransGen (Edge succ nodes) d d := by
  have peeled : Peeled succ nodes [] nodes ready counts := by
    refine ⟨.refl _, ⟨fresh, fun d mem => ((start d).mp mem).1, counted, ?_⟩, .nil⟩
    intro d mem
    have count := counted d mem
    rw [List.nil_append, start d, count, Int.natCast_eq_zero]
    exact ⟨fun zero => ⟨mem, zero⟩, fun both => both.2⟩
  obtain ⟨done, rest, counts', ended, length⟩ := peeled.run closed enough
  have apart : (done ++ rest).Nodup := ended.perm.nodup_iff.mp nodup
  have total := ended.perm.length_eq
  rw [List.length_append] at total
  rw [List.length_nil, Nat.add_zero] at length
  constructor
  · intro all d cycle
    have none : rest = [] := List.length_eq_zero_iff.mp (by omega)
    -- a node on a cycle has an edge to it
    have known : d ∈ nodes := by
      cases cycle with
      | single edge => exact edge.1
      | tail _ edge => exact closed _ edge.1 _ edge.2
    have mem : d ∈ done := by
      have place := ended.perm.mem_iff.mp known
      rw [none, List.append_nil] at place
      exact place
    exact ended.ordered.acyclic (List.Nodup.of_append_left apart) mem cycle
  · intro acyclic
    cases rest with
    | nil => rw [List.length_nil] at total; omega
    | cons x others =>
      have each : ∀ d ∈ x :: others, ∃ u ∈ x :: others, Edge succ nodes u d := by
        intro d mem
        have known : d ∈ nodes := ended.perm.mem_iff.mpr (List.mem_append_right _ mem)
        have due : incoming succ (x :: others) d ≠ 0 := by
          intro zero
          have taken := (ended.level.zero d known).mp zero
          rw [List.append_nil] at taken
          exact List.disjoint_of_nodup_append apart taken mem
        rw [Ne, incoming_eq_zero] at due
        push Not at due
        obtain ⟨u, there, edge⟩ := due
        exact ⟨u, there, ended.perm.mem_iff.mpr (List.mem_append_right _ there), edge⟩
      obtain ⟨d, cycle⟩ := exists_cycle (List.mem_cons_self ..) each
      exact absurd cycle (acyclic d)

end Peeling
