import JLibSched.Lib.Links
import JLibSched.ParallelFor.Width

/-!
# `PushBatch`

A batch is cut into runs for the workers that take unplaced work.  The tasks of a run are linked in
order, the link of the last one is cleared by `push_batch`, and then the run is published to one
inbox.  A task is named by its index in the array; which worker `PickNextWorker` chooses is left
open.

With no workers the number of segments comes to zero and the division by it ends the program, so the
batch is partitioned exactly when there is a worker (`pushBatch_partitions_iff`).
-/

namespace JLibSched.Batch

open Links Ranges ParallelFor

/-! ## The code -/

/-- A run that `push_batch` publishes, with the links of the tasks at that moment. -/
structure Publication where
  first : Nat
  len : Nat
  worker : Nat
  next : Nat → Option Nat

/-- The loop of `submitRun` over the tasks from `first` on, `n` of them. -/
def link : Nat → Nat → (Nat → Option Nat) → Nat → Option Nat
  | _, 0, next => next
  | first, n + 1, next => link (first + 1) n (Function.update next first (some (first + 1)))

def submitRun (next : Nat → Option Nat) (first len chosen : Nat) : Publication where
  first := first
  len := len
  worker := chosen
  next := Function.update (link first (len - 1) next) (first + len - 1) none

def segmentLen (count segments s : Nat) : Nat :=
  count / segments + if s < count % segments then 1 else 0

/-- The loop over the segments. -/
def submitRuns (count segments : Nat) (pick : Nat → Nat) :
    List Nat → Nat → (Nat → Option Nat) → List Publication
  | [], _, _ => []
  | s :: rest, first, next =>
    let len := segmentLen count segments s
    if len = 0 then submitRuns count segments pick rest first next
    else
      let run := submitRun next first len (pick s)
      run :: submitRuns count segments pick rest (first + len) run.next

/-- The number of segments for a pool with `hotN` hot workers among `nw`. -/
def segmentsFor (nw hotN count minPerSegment : Nat) : Nat :=
  let minPerSegment := if minPerSegment = 0 then 1 else minPerSegment
  let reachable := if nw > hotN then nw - hotN else nw
  let segments := if nw = 0 then 1 else count / minPerSegment
  let segments := if segments < 1 then 1 else segments
  if segments > reachable then reachable else segments

/-- `IsReservedIndex`. -/
def isReservedIndex (q nw hotN : Nat) : Bool := decide (q ≥ if hotN ≤ nw then nw - hotN else 0)

/-- `PushBatch` for a given worker, or `kAnyWorker`.  There is no result if it divides by zero. -/
def pushBatch (nw hotN count minPerSegment : Nat) (worker : Option Nat) (pick : Nat → Nat)
    (next : Nat → Option Nat) : Option (List Publication) :=
  if count = 0 then some []
  else
    match worker with
    | some w => some [submitRun next 0 count (if isReservedIndex w nw hotN then pick 0 else w)]
    | none =>
      let segments := segmentsFor nw hotN count minPerSegment
      if segments = 0 then none
      else some (submitRuns count segments pick (List.range segments) 0 next)

/-! ## The runs -/

/-- The indices of a run. -/
def Publication.range (p : Publication) : Nat × Nat := (p.first, p.first + p.len)

/-- When it is published, a run is linked from its first task to its last. -/
def Publication.Linked (p : Publication) : Prop :=
  Leads p.next (some p.first) (List.range' p.first p.len) none

/-- Consecutive non-empty runs that make up the batch, of lengths that differ by one at most, no more
than there are compute workers. -/
structure Partitioned (nw hotN count : Nat) (runs : List Publication) : Prop where
  follows : Follows 0 (runs.map Publication.range) count
  disjoint : (runs.map Publication.range).Pairwise fun r r' => r.2 ≤ r'.1 ∨ r'.2 ≤ r.1
  balanced : ∀ p ∈ runs, ∀ q ∈ runs, p.len ≤ q.len + 1
  few : runs.length ≤ nw - hotN
  linked : ∀ p ∈ runs, p.Linked

variable {count segments s : Nat} {next : Nat → Option Nat}

theorem link_apply (n first : Nat) (next : Nat → Option Nat) (j : Nat) :
    link first n next j = if first ≤ j ∧ j < first + n then some (j + 1) else next j := by
  induction n generalizing first next with
  | zero =>
    rw [if_neg (by omega)]
    rfl
  | succ n ih =>
    rw [link, ih]
    by_cases here : j = first
    · rw [here, if_neg (by omega), if_pos (by omega), Function.update_self]
    · rw [Function.update_of_ne here]
      exact if_congr (by omega) rfl rfl

theorem submitRun_linked {first len : Nat} (some : len ≠ 0) (chosen : Nat) :
    (submitRun next first len chosen).Linked := by
  obtain ⟨n, rfl⟩ := Nat.exists_eq_succ_of_ne_zero some
  refine (@leads_range' (first + n + 1) n first rfl).congr fun j mem => ?_
  have inside := List.mem_range'_1.mp mem
  unfold submitRun
  dsimp only
  by_cases last : j = first + n.succ - 1
  · rw [last, Function.update_self, if_neg (by omega)]
  · rw [Function.update_of_ne last, link_apply, if_pos (by omega), if_pos (by omega)]

/-- Where segment `s` begins. -/
def segmentStart (count segments s : Nat) : Nat :=
  s * (count / segments) + min s (count % segments)

theorem segmentStart_succ (count segments s : Nat) :
    segmentStart count segments (s + 1) =
      segmentStart count segments s + segmentLen count segments s := by
  unfold segmentStart segmentLen
  rw [Nat.succ_mul]
  split <;> omega

theorem segmentStart_last (some : segments ≠ 0) : segmentStart count segments segments = count := by
  have rem := Nat.mod_lt count (Nat.pos_of_ne_zero some)
  unfold segmentStart
  rw [Nat.min_eq_right rem.le]
  exact Nat.div_add_mod count segments

theorem segmentLen_ne_zero (some : segments ≠ 0) (few : segments ≤ count) (s : Nat) :
    segmentLen count segments s ≠ 0 := by
  have whole := Nat.div_pos few (Nat.pos_of_ne_zero some)
  unfold segmentLen
  omega

/-- From segment `s` on the runs follow one another to the end of the batch. -/
theorem submitRuns_follow (some : segments ≠ 0) (few : segments ≤ count) (pick : Nat → Nat)
    (k : Nat) (next : Nat → Option Nat) (all : s + k = segments) :
    Follows (segmentStart count segments s)
      ((submitRuns count segments pick (List.range' s k) (segmentStart count segments s) next).map
        Publication.range) count := by
  induction k generalizing s next with
  | zero =>
    have last : s = segments := by omega
    rw [last, segmentStart_last some]
    exact .nil count
  | succ k ih =>
    have len := segmentLen_ne_zero some few s
    rw [List.range'_succ, submitRuns, if_neg len, List.map_cons]
    refine .cons (Nat.lt_add_of_pos_right (Nat.pos_of_ne_zero len)) ?_
    have rest := ih (s := s + 1) (submitRun next (segmentStart count segments s)
      (segmentLen count segments s) (pick s)).next (by omega)
    rw [segmentStart_succ] at rest
    exact rest

theorem submitRuns_spec (some : segments ≠ 0) (few : segments ≤ count) (pick : Nat → Nat)
    (l : List Nat) (first : Nat) (next : Nat → Option Nat) :
    (submitRuns count segments pick l first next).length = l.length ∧
      ∀ p ∈ submitRuns count segments pick l first next,
        p.Linked ∧ count / segments ≤ p.len ∧ p.len ≤ count / segments + 1 := by
  induction l generalizing first next with
  | nil =>
    refine ⟨rfl, fun p mem => ?_⟩
    cases mem
  | cons s l ih =>
    have len := segmentLen_ne_zero some few s
    rw [submitRuns, if_neg len]
    obtain ⟨length, rest⟩ := ih (first + segmentLen count segments s)
      (submitRun next first (segmentLen count segments s) (pick s)).next
    refine ⟨congrArg Nat.succ length, fun p mem => ?_⟩
    cases List.mem_cons.mp mem with
    | inl here =>
      subst here
      refine ⟨submitRun_linked len _, ?_⟩
      show count / segments ≤ segmentLen count segments s ∧
        segmentLen count segments s ≤ count / segments + 1
      unfold segmentLen
      split <;> omega
    | inr later => exact rest p later

/-- The segments are at most as many as the tasks and as the compute workers, and there is none only
without workers. -/
theorem segmentsFor_spec (some : count ≠ 0) (nw hotWorkers minPerSegment : Nat) :
    let hotN := clampHotWorkersToPool nw hotWorkers
    (segmentsFor nw hotN count minPerSegment = 0 ↔ nw = 0) ∧
      segmentsFor nw hotN count minPerSegment ≤ count ∧
      segmentsFor nw hotN count minPerSegment ≤ nw - hotN := by
  have hot : nw ≠ 0 → clampHotWorkersToPool nw hotWorkers < nw := by
    intro workers
    unfold clampHotWorkersToPool
    rw [if_neg workers]
    split <;> omega
  have whole : ∀ m, count / m ≤ count := fun m => Nat.div_le_self count m
  have whole := whole (if minPerSegment = 0 then 1 else minPerSegment)
  unfold segmentsFor
  dsimp only
  generalize count / (if minPerSegment = 0 then 1 else minPerSegment) = wanted at whole
  by_cases none : nw = 0
  · have zero : clampHotWorkersToPool nw hotWorkers = 0 := by
      unfold clampHotWorkersToPool
      rw [if_pos none]
    rw [zero, none]
    refine ⟨⟨fun _ => rfl, fun _ => rfl⟩, ?_, le_refl _⟩
    exact Nat.zero_le count
  · have fewer := hot none
    rw [if_pos fewer, if_neg none]
    refine ⟨⟨fun zero => ?_, fun zero => absurd zero none⟩, ?_, ?_⟩
    · split at zero <;> split at zero <;> omega
    · split <;> split <;> omega
    · split <;> split <;> omega

/-- With a worker the batch is partitioned. -/
theorem pushBatch_partitioned {nw : Nat} (workers : nw ≠ 0) (some : count ≠ 0)
    (hotWorkers minPerSegment : Nat) (pick : Nat → Nat) (next : Nat → Option Nat) :
    ∃ runs, pushBatch nw (clampHotWorkersToPool nw hotWorkers) count minPerSegment none pick next =
        .some runs ∧ Partitioned nw (clampHotWorkersToPool nw hotWorkers) count runs := by
  obtain ⟨zero, few, reach⟩ := segmentsFor_spec some nw hotWorkers minPerSegment
  unfold pushBatch
  rw [if_neg some]
  dsimp only
  generalize segmentsFor nw (clampHotWorkersToPool nw hotWorkers) count minPerSegment = segments
    at zero few reach
  have parts : segments ≠ 0 := fun none => workers (zero.mp none)
  rw [if_neg parts]
  refine ⟨_, rfl, ?_⟩
  have follows := submitRuns_follow parts few pick segments next (Nat.zero_add _)
  have start : segmentStart count segments 0 = 0 := by
    unfold segmentStart
    omega
  rw [start, ← List.range_eq_range'] at follows
  obtain ⟨length, each⟩ := submitRuns_spec parts few pick (List.range segments) 0 next
  refine ⟨follows, follows.tiles.disjoint, fun p mem q mem' => ?_, ?_, fun p mem => (each p mem).1⟩
  · exact (each p mem).2.2.trans (Nat.succ_le_succ (each q mem').2.1)
  · rw [length, List.length_range]
    exact reach

/-- Without workers it divides by zero. -/
theorem pushBatch_divides (some : count ≠ 0) (hotWorkers minPerSegment : Nat) (pick : Nat → Nat)
    (next : Nat → Option Nat) :
    pushBatch 0 (clampHotWorkersToPool 0 hotWorkers) count minPerSegment none pick next = none := by
  obtain ⟨zero, -⟩ := segmentsFor_spec some 0 hotWorkers minPerSegment
  unfold pushBatch
  rw [if_neg some]
  dsimp only
  rw [if_pos (zero.mpr rfl)]

/-- For any number of tasks, minimum, workers and hot workers, the batch is partitioned exactly when
there is a worker to push to or nothing to push. -/
theorem pushBatch_partitions_iff (nw hotWorkers count minPerSegment : Nat) (pick : Nat → Nat)
    (next : Nat → Option Nat) :
    (∃ runs, pushBatch nw (clampHotWorkersToPool nw hotWorkers) count minPerSegment none pick next =
        some runs ∧ Partitioned nw (clampHotWorkersToPool nw hotWorkers) count runs) ↔
      nw ≠ 0 ∨ count = 0 := by
  by_cases empty : count = 0
  · refine ⟨fun _ => .inr empty, fun _ => ⟨[], ?_, ?_⟩⟩
    · unfold pushBatch
      rw [if_pos empty]
    · rw [empty]
      refine ⟨.nil 0, .nil, ?_, Nat.zero_le _, ?_⟩
      · intro p mem
        cases mem
      · intro p mem
        cases mem
  · constructor
    · rintro ⟨runs, pushed, -⟩
      refine .inl fun none => ?_
      rw [none, pushBatch_divides empty] at pushed
      cases pushed
    · intro either
      exact pushBatch_partitioned (either.resolve_right empty) empty hotWorkers minPerSegment pick
        next

/-- Without workers `PushBatch` divides by zero. -/
theorem pushBatch_not_partitioning :
    ¬∀ (nw hotWorkers count minPerSegment : Nat) (pick : Nat → Nat) (next : Nat → Option Nat),
      1 ≤ count →
      ∃ runs, pushBatch nw (clampHotWorkersToPool nw hotWorkers) count minPerSegment none pick
          next = some runs ∧
        Partitioned nw (clampHotWorkersToPool nw hotWorkers) count runs := by
  intro always
  obtain ⟨runs, pushed, -⟩ := always 0 0 1 64 (fun _ => 0) (fun _ => none) (le_refl _)
  cases pushed

end JLibSched.Batch
