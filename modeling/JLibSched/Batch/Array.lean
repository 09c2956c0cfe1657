import JLibSched.Batch.Push

/-!
# `PushArray`

The range is cut into chunks, a chunk without a task runs inline, and the tasks of the others are
pushed together.  The bounds are `size_t`s and their sums wrap around, so the chunks are right only
where the sums fit (`ArrayCall.Fits`).
-/

namespace JLibSched.Batch

open Ranges ParallelFor

/-! ## The code -/

/-- `max_size()` of a vector of pointers: `reserve` throws beyond it. -/
def MaxSize : Nat := 1152921504606846975

/-- The arguments of `PushArray`. -/
structure ArrayCall where
  begin : Nat
  stop : Nat
  chunkSize : Nat
  /-- There is a group. -/
  counted : Bool
  begin_size : begin < SizeBound
  stop_size : stop < SizeBound
  chunkSize_size : chunkSize < SizeBound

/-- What the call finds: the pool, the chunks whose task is created, and whether the tasks are
latency work that the injector takes. -/
structure Setting where
  workers : Nat
  hotWorkers : Nat
  created : Nat → Bool
  injected : Bool
  pick : Nat → Nat
  next : Nat → Option Nat

/-- The ranges on which `fn` is run inline and by the tasks that are pushed, the sum added to the
group, and the result. -/
structure Outcome where
  inline : List (Nat × Nat)
  pushed : List (Nat × Nat)
  raised : Int
  returned : Nat

/-- `chunkSize`, where zero means one. -/
def ArrayCall.size (call : ArrayCall) : Nat := if call.chunkSize = 0 then 1 else call.chunkSize

def ArrayCall.chunks (call : ArrayCall) : Nat :=
  (call.stop - call.begin + call.size - 1) % SizeBound / call.size

/-- The bounds of chunk `c`. -/
def ArrayCall.chunk (call : ArrayCall) (c : Nat) : Nat × Nat :=
  let lo := (call.begin + c * call.size % SizeBound) % SizeBound
  (lo, if (lo + call.size) % SizeBound > call.stop then call.stop else (lo + call.size) % SizeBound)

/-- The chunks whose task is not created. -/
def ArrayCall.inline (call : ArrayCall) (set : Setting) : List (Nat × Nat) :=
  ((List.range call.chunks).filter fun c => !set.created c).map call.chunk

/-- The tasks, by their chunks. -/
def ArrayCall.tasks (call : ArrayCall) (set : Setting) : List (Nat × Nat) :=
  ((List.range call.chunks).filter set.created).map call.chunk

/-- The tasks of the runs that a batch was cut into. -/
def submitted (tasks : List (Nat × Nat)) (runs : List Publication) : List (Nat × Nat) :=
  (runs.flatMap fun p => List.range' p.first p.len).map fun i => tasks.getD i (0, 0)

/-- `PushArray`.  There is no result if it throws or divides by zero. -/
def pushArray (call : ArrayCall) (set : Setting) : Option Outcome :=
  if call.stop ≤ call.begin then some ⟨[], [], 0, 0⟩
  else if call.chunks > MaxSize then none
  else
    let tasks := call.tasks set
    let raised := if call.counted then wrap tasks.length else 0
    if tasks.length = 0 then some ⟨call.inline set, [], 0, 0⟩
    else if set.injected then some ⟨call.inline set, tasks, raised, tasks.length⟩
    else
      match pushBatch set.workers (clampHotWorkersToPool set.workers set.hotWorkers) tasks.length 64
        none set.pick set.next with
      | none => none
      | some runs => some ⟨call.inline set, submitted tasks runs, raised, tasks.length⟩

/-! ## What `fn` is applied to -/

/-- `fn` is applied to each index of the range once and to nothing else, and the group is raised by
the number of tasks. -/
structure Outcome.Exact (call : ArrayCall) (o : Outcome) : Prop where
  once : ∀ i, hits (o.inline ++ o.pushed) i = if call.begin ≤ i ∧ i < call.stop then 1 else 0
  raised : call.counted → o.raised = o.pushed.length

/-- The chunks there should be. -/
def ArrayCall.wanted (call : ArrayCall) : Nat :=
  (call.stop - call.begin + call.size - 1) / call.size

/-- The sums do not wrap around, the vector can hold the tasks, an `int` their number, and there is
a worker for them. -/
structure ArrayCall.Fits (call : ArrayCall) (set : Setting) : Prop where
  total : call.stop - call.begin + call.size ≤ SizeBound
  last : call.begin + call.wanted * call.size < SizeBound
  vector : call.wanted ≤ MaxSize
  group : call.counted → ((List.range call.wanted).countP set.created : Int) ≤ IntMax
  worker : set.injected = false → set.workers = 0 →
    (List.range call.wanted).countP set.created = 0

variable {call : ArrayCall} {set : Setting} {c k : Nat}

theorem ArrayCall.size_pos (call : ArrayCall) : 0 < call.size := by
  unfold ArrayCall.size
  split <;> omega

theorem ArrayCall.size_lt (call : ArrayCall) : call.size < SizeBound := by
  have bound := call.chunkSize_size
  unfold ArrayCall.size SizeBound at *
  split <;> omega

/-- The last chunk begins inside the range. -/
theorem ArrayCall.before_last (ordered : call.begin < call.stop) (inside : c < call.wanted) :
    call.begin + c * call.size < call.stop := by
  have whole : call.wanted * call.size ≤ call.stop - call.begin + call.size - 1 :=
    Nat.div_mul_le_self ..
  have next : (c + 1) * call.size ≤ call.wanted * call.size := Nat.mul_le_mul_right _ inside
  rw [Nat.succ_mul] at next
  have size := call.size_pos
  omega

theorem ArrayCall.after_last (call : ArrayCall) :
    call.stop ≤ call.begin + call.wanted * call.size := by
  have rest := Nat.lt_div_mul_add (a := call.stop - call.begin + call.size - 1) call.size_pos
  have size := call.size_pos
  unfold ArrayCall.wanted
  omega

theorem ArrayCall.wanted_pos (ordered : call.begin < call.stop) : 0 < call.wanted := by
  have after := call.after_last
  by_contra none
  have zero : call.wanted = 0 := by omega
  rw [zero, Nat.zero_mul] at after
  omega

theorem ArrayCall.chunks_eq (ordered : call.begin < call.stop)
    (total : call.stop - call.begin + call.size ≤ SizeBound) : call.chunks = call.wanted := by
  unfold ArrayCall.chunks ArrayCall.wanted
  rw [Nat.mod_eq_of_lt (by omega)]

/-- If the sum wraps around, there are no chunks. -/
theorem ArrayCall.chunks_zero (wraps : ¬call.stop - call.begin + call.size ≤ SizeBound) :
    call.chunks = 0 := by
  have stop := call.stop_size
  have size := call.size_lt
  unfold ArrayCall.chunks
  have wrapped : (call.stop - call.begin + call.size - 1) % SizeBound =
      call.stop - call.begin + call.size - 1 - SizeBound := by
    rw [Nat.mod_eq_sub_mod (by omega), Nat.mod_eq_of_lt (by omega)]
  rw [wrapped]
  exact Nat.div_eq_of_lt (by omega)

theorem ArrayCall.chunk_fst (ordered : call.begin < call.stop) (inside : c < call.wanted) :
    (call.chunk c).1 = call.begin + c * call.size := by
  have stop := call.stop_size
  have before := call.before_last ordered inside
  unfold ArrayCall.chunk
  dsimp only
  rw [Nat.mod_eq_of_lt (a := c * call.size) (by omega), Nat.mod_eq_of_lt (by omega)]

/-- A chunk whose upper sum does not wrap around ends with the next one or with the range. -/
theorem ArrayCall.chunk_snd (ordered : call.begin < call.stop) (inside : c < call.wanted)
    (fits : call.begin + (c + 1) * call.size < SizeBound) :
    (call.chunk c).2 = min call.stop (call.begin + (c + 1) * call.size) := by
  have lo := call.chunk_fst ordered inside
  have next : call.begin + (c + 1) * call.size = call.begin + c * call.size + call.size := by
    rw [Nat.succ_mul, Nat.add_assoc]
  unfold ArrayCall.chunk at lo ⊢
  dsimp only at lo ⊢
  rw [lo, ← next, Nat.mod_eq_of_lt fits]
  split <;> omega

/-- If the chunks fit, they follow one another from chunk `c` on. -/
theorem ArrayCall.chunks_follow (ordered : call.begin < call.stop)
    (last : call.begin + call.wanted * call.size < SizeBound) (all : c + k = call.wanted) :
    Follows (min call.stop (call.begin + c * call.size))
      ((List.range' c k).map call.chunk) call.stop := by
  induction k generalizing c with
  | zero =>
    have done : c = call.wanted := by omega
    have after := call.after_last
    rw [done, Nat.min_eq_left after]
    exact .nil call.stop
  | succ k ih =>
    have inside : c < call.wanted := by omega
    have before := call.before_last ordered inside
    have size := call.size_pos
    have next : (c + 1) * call.size ≤ call.wanted * call.size := Nat.mul_le_mul_right _ inside
    have more : (c + 1) * call.size = c * call.size + call.size := Nat.succ_mul ..
    have chunk : call.chunk c =
        (call.begin + c * call.size, min call.stop (call.begin + (c + 1) * call.size)) :=
      Prod.ext (call.chunk_fst ordered inside) (call.chunk_snd ordered inside (by omega))
    rw [Nat.min_eq_right before.le, List.range'_succ, List.map_cons, chunk]
    exact .cons (by omega) (ih (by omega))

/-- If the upper sum of the last chunk wraps around, no chunk holds the index it begins with. -/
theorem ArrayCall.last_lost (ordered : call.begin < call.stop)
    (wraps : ¬call.begin + call.wanted * call.size < SizeBound) :
    hits ((List.range call.wanted).map call.chunk)
      (call.begin + (call.wanted - 1) * call.size) = 0 := by
  have positive := ArrayCall.wanted_pos ordered
  have stop := call.stop_size
  have size := call.size_lt
  refine hits_eq_zero fun r mem => ?_
  obtain ⟨c, held, rfl⟩ := List.mem_map.mp mem
  have inside := List.mem_range.mp held
  have fst := call.chunk_fst ordered inside
  have before := call.before_last ordered (c := call.wanted - 1) (by omega)
  have whole : call.wanted * call.size = (call.wanted - 1) * call.size + call.size := by
    rw [← Nat.succ_mul]
    congr 1
    omega
  refine .inr ?_
  by_cases here : c = call.wanted - 1
  · unfold ArrayCall.chunk at fst ⊢
    dsimp only at fst ⊢
    rw [fst, here, Nat.mod_eq_sub_mod (by omega), Nat.mod_eq_of_lt (by omega)]
    rw [if_neg (by omega)]
    omega
  · have least : (c + 1) * call.size ≤ (call.wanted - 1) * call.size :=
      Nat.mul_le_mul_right _ (by omega)
    rw [call.chunk_snd ordered inside (by omega)]
    omega

/-- Chunks that run inline and tasks together are the chunks. -/
theorem ArrayCall.split_perm (call : ArrayCall) (set : Setting) :
    (call.inline set ++ call.tasks set).Perm ((List.range call.chunks).map call.chunk) := by
  unfold ArrayCall.inline ArrayCall.tasks
  rw [← List.map_append]
  refine List.Perm.map _ (List.perm_append_comm.trans ?_)
  exact List.filter_append_perm set.created (List.range call.chunks)

theorem ArrayCall.tasks_length (call : ArrayCall) (set : Setting) :
    (call.tasks set).length = (List.range call.chunks).countP set.created := by
  unfold ArrayCall.tasks
  rw [List.length_map, List.countP_eq_length_filter]

/-- A batch that is partitioned submits each task once, in order. -/
theorem submitted_eq {tasks : List (Nat × Nat)} {runs : List Publication} {nw hotN : Nat}
    (parts : Partitioned nw hotN tasks.length runs) : submitted tasks runs = tasks := by
  have numbers := parts.follows.numbers
  rw [List.flatMap_map, Nat.sub_zero] at numbers
  have same : (runs.flatMap fun p => List.range' p.first p.len) = List.range' 0 tasks.length := by
    rw [← numbers]
    refine List.flatMap_congr fun p _ => ?_
    show List.range' p.first p.len = List.range' p.first (p.first + p.len - p.first)
    rw [Nat.add_sub_cancel_left]
  unfold submitted
  rw [same, ← List.range_eq_range']
  refine List.ext_getElem (by rw [List.length_map, List.length_range]) fun i _ inside => ?_
  rw [List.getElem_map, List.getElem_range, List.getD_eq_getElem?_getD,
    List.getElem?_eq_getElem inside, Option.getD_some]

/-- The vector can hold the chunks, and there is a worker for the tasks. -/
structure ArrayCall.Runs (call : ArrayCall) (set : Setting) : Prop where
  vector : call.chunks ≤ MaxSize
  worker : set.injected = false → set.workers = 0 → (call.tasks set).length = 0

/-- What `PushArray` comes to if it neither throws nor divides by zero. -/
def ArrayCall.outcome (call : ArrayCall) (set : Setting) : Outcome where
  inline := call.inline set
  pushed := call.tasks set
  raised := if call.counted then wrap (call.tasks set).length else 0
  returned := (call.tasks set).length

theorem pushArray_runs (ordered : call.begin < call.stop) (runs : call.Runs set) :
    pushArray call set = some (call.outcome set) := by
  unfold pushArray ArrayCall.outcome
  rw [if_neg (by omega), if_neg (not_lt.mpr runs.vector)]
  dsimp only
  split
  · rename_i none
    have nothing := List.eq_nil_of_length_eq_zero none
    rw [none, nothing]
    split <;> rfl
  · rename_i tasks
    split
    · rfl
    · rename_i queued
      have workers : set.workers ≠ 0 := fun none =>
        tasks (runs.worker (Bool.eq_false_iff.mpr queued) none)
      obtain ⟨parts, pushed, partitioned⟩ := pushBatch_partitioned workers tasks set.hotWorkers 64
        set.pick set.next
      rw [pushed]
      dsimp only
      rw [submitted_eq partitioned]

theorem pushArray_stops (ordered : call.begin < call.stop) (stops : ¬call.Runs set) :
    pushArray call set = none := by
  unfold pushArray
  rw [if_neg (by omega)]
  split
  · rfl
  · rename_i vector
    have lost : ¬(set.injected = false → set.workers = 0 → (call.tasks set).length = 0) :=
      fun worker => stops ⟨not_lt.mp vector, worker⟩
    obtain ⟨queued, rest⟩ := Classical.not_imp.mp lost
    obtain ⟨none, tasks⟩ := Classical.not_imp.mp rest
    dsimp only
    rw [if_neg tasks, queued, none, pushBatch_divides tasks]
    rfl

/-- `PushArray` applies `fn` to each index of its range exactly once, and raises the group by the
tasks it pushes, exactly when the sums of sizes do not wrap around, the vector can hold the tasks
and the group's `int` their number, and there is a worker for them. -/
theorem pushArray_exact_iff (call : ArrayCall) (set : Setting) :
    (∃ o, pushArray call set = some o ∧ o.Exact call) ↔
      call.stop ≤ call.begin ∨ call.Fits set := by
  by_cases empty : call.stop ≤ call.begin
  · refine ⟨fun _ => .inl empty, fun _ => ⟨⟨[], [], 0, 0⟩, ?_, ?_, fun _ => rfl⟩⟩
    · unfold pushArray
      rw [if_pos empty]
    · intro i
      rw [if_neg (by omega)]
      rfl
  · have ordered : call.begin < call.stop := not_le.mp empty
    have stop := call.stop_size
    constructor
    · rintro ⟨o, ran, exact⟩
      refine .inr ?_
      have runs : call.Runs set := by
        by_contra stops
        rw [pushArray_stops ordered stops] at ran
        cases ran
      rw [pushArray_runs ordered runs] at ran
      cases ran
      have once : ∀ i, hits ((List.range call.chunks).map call.chunk) i =
          if call.begin ≤ i ∧ i < call.stop then 1 else 0 := fun i =>
        (hits_perm (call.split_perm set) i).symm.trans (exact.once i)
      have total : call.stop - call.begin + call.size ≤ SizeBound := by
        by_contra wraps
        have met := once call.begin
        rw [call.chunks_zero wraps, if_pos ⟨le_refl _, ordered⟩] at met
        cases met
      have same := call.chunks_eq ordered total
      have tasks := call.tasks_length set
      rw [same] at once tasks
      refine ⟨total, ?_, ?_, fun counted => ?_, fun queued none => ?_⟩
      · by_contra wraps
        have met := once (call.begin + (call.wanted - 1) * call.size)
        have positive := ArrayCall.wanted_pos ordered
        have before := call.before_last ordered (c := call.wanted - 1) (by omega)
        rw [call.last_lost ordered wraps, if_pos ⟨Nat.le_add_right .., before⟩] at met
        cases met
      · rw [← same]
        exact runs.vector
      · have raised := exact.raised counted
        unfold ArrayCall.outcome at raised
        dsimp only at raised
        rw [if_pos counted, tasks] at raised
        by_contra many
        unfold wrap at raised
        unfold IntMax at many
        omega
      · rw [← tasks]
        exact runs.worker queued none
    · intro either
      have fits : call.Fits set := either.resolve_left empty
      have same := call.chunks_eq ordered fits.total
      have tasks := call.tasks_length set
      rw [same] at tasks
      have runs : call.Runs set := by
        refine ⟨?_, fun queued none => ?_⟩
        · rw [same]
          exact fits.vector
        · rw [tasks]
          exact fits.worker queued none
      refine ⟨_, pushArray_runs ordered runs, fun i => ?_, fun counted => ?_⟩
      · have follows := call.chunks_follow ordered fits.last (c := 0) (k := call.wanted)
          (Nat.zero_add _)
        rw [Nat.zero_mul, Nat.add_zero, Nat.min_eq_right ordered.le, ← List.range_eq_range',
          ← same] at follows
        refine (hits_perm (call.split_perm set) i).trans ?_
        by_cases inside : call.begin ≤ i ∧ i < call.stop
        · rw [if_pos inside]
          exact follows.tiles.once i inside.1 inside.2
        · rw [if_neg inside]
          refine hits_eq_zero fun r mem => ?_
          obtain ⟨low, some, high⟩ := follows.tiles.proper r mem
          omega
      · have most := fits.group counted
        unfold ArrayCall.outcome
        dsimp only
        rw [if_pos counted, tasks]
        refine wrap_of_int ?_ most
        unfold IntMin
        omega

/-! ## A chunk that means all of the range -/

def allAtOnce : ArrayCall where
  begin := 0
  stop := 10
  chunkSize := 18446744073709551615
  counted := true
  begin_size := by decide
  stop_size := by decide
  chunkSize_size := by decide

def fourWorkers : Setting where
  workers := 4
  hotWorkers := 0
  created := fun _ => true
  injected := false
  pick := fun s => s % 4
  next := fun _ => none

theorem allAtOnce_nothing : pushArray allAtOnce fourWorkers = some ⟨[], [], 0, 0⟩ := rfl

/-- With the largest chunk size the number of chunks wraps around to zero, and `fn` is never
applied. -/
theorem pushArray_not_exact :
    ¬∀ (call : ArrayCall) (set : Setting), ∃ o, pushArray call set = some o ∧ o.Exact call := by
  intro always
  obtain ⟨o, ran, exact⟩ := always allAtOnce fourWorkers
  rw [allAtOnce_nothing] at ran
  cases ran
  have missed := exact.once 0
  rw [if_pos (by decide)] at missed
  cases missed

end JLibSched.Batch
