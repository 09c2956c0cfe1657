import JLibSched.Lib.Grouping
import JLibSched.Topology.CpuList

/-!
# L3 groups

`BuildL3Groups` puts the deques in groups, one for each last-level cache: the workers' deques by the
mask of the cache, those without a mask in group 0, and the deque of the non-workers where worker 0
is.  The environment may ask for a number of groups instead, which are then stretches of workers.

A group's number is kept in 16 bits.  Whichever rule gave the numbers, the groups below a number in
use are in use (`Pool.filled`), so there are as many groups as numbers and none is empty.
-/

namespace JLibSched.Topology

open Grouping

/-- `Any`. -/
def CpuMask.any (m : CpuMask) : Bool := (List.range words).any fun i => m.w i != 0

/-- `operator==`. -/
def CpuMask.same (m o : CpuMask) : Bool := (List.range words).all fun i => m.w i == o.w i

/-! ## How many workers -/

/-- `GetSafeTC`, where `cores` is `hardware_concurrency`. -/
def getSafeTC (cores reservedCores : Nat) (timers : Bool) : Nat :=
  let reserved := (1 + timers.toNat + reservedCores) % 2 ^ 32
  if cores ≤ 1 then 1
  else if cores ≤ reserved then 1
  else cores - reserved

/-- `num_workers` of `StartPool`, where `physicalCpus` is the number of cores found for
`AffinityPolicy::PhysicalOnly`. -/
def numWorkers (poolSize hardwareConcurrency reservedCores physicalCpus : Nat)
    (timers : Bool) : Nat :=
  let asked :=
    if poolSize = 0 then getSafeTC hardwareConcurrency reservedCores timers else poolSize
  let hw := if hardwareConcurrency = 0 then 4 else hardwareConcurrency
  (if 2 ≤ physicalCpus then physicalCpus - 1 else min asked hw) % 2 ^ 32

theorem getSafeTC_pos (cores reservedCores : Nat) (timers : Bool) :
    0 < getSafeTC cores reservedCores timers := by
  simp only [getSafeTC]
  split
  · exact Nat.one_pos
  · split
    · exact Nat.one_pos
    · omega

/-- There is a worker, and its index is an `int` when the number of processors is. -/
theorem numWorkers_bounds {hardwareConcurrency physicalCpus : Nat} (poolSize reservedCores : Nat)
    (timers : Bool) (hw : hardwareConcurrency < 2 ^ 31) (physical : physicalCpus ≤ 2 ^ 31) :
    0 < numWorkers poolSize hardwareConcurrency reservedCores physicalCpus timers ∧
      numWorkers poolSize hardwareConcurrency reservedCores physicalCpus timers < 2 ^ 31 := by
  obtain ⟨asked, isAsked, some⟩ : ∃ asked, asked =
      (if poolSize = 0 then getSafeTC hardwareConcurrency reservedCores timers else poolSize) ∧
      0 < asked := by
    refine ⟨_, rfl, ?_⟩
    split
    · exact getSafeTC_pos hardwareConcurrency reservedCores timers
    · omega
  obtain ⟨cap, isCap, bounds⟩ : ∃ cap, cap =
      (if hardwareConcurrency = 0 then 4 else hardwareConcurrency) ∧ 0 < cap ∧ cap < 2 ^ 31 := by
    refine ⟨_, rfl, ?_⟩
    split
    · decide
    · omega
  simp only [numWorkers]
  rw [← isAsked, ← isCap]
  split
  · omega
  · omega

/-! ## The groups -/

/-- What the pool is started with.  `StartPool` takes at least one worker, and the index of a queue
is an `int` (`Thread::qIndex`). -/
structure Pool where
  workers : Nat
  /-- `MainMode::InPool`: there is no deque for the non-workers. -/
  mainInPool : Bool
  llcMaskOfWorker : Nat → CpuMask
  /-- `JLIBSCHED_FORCE_L3_GROUPS`, or 0. -/
  forced : Nat
  positive : 0 < workers
  fits : workers < 2 ^ 31

/-- The pool that `StartPool` starts on a machine. -/
def Pool.start {hardwareConcurrency physicalCpus : Nat} (poolSize reservedCores : Nat)
    (timers : Bool) (hw : hardwareConcurrency < 2 ^ 31) (physical : physicalCpus ≤ 2 ^ 31)
    (mainInPool : Bool) (llcMaskOfWorker : Nat → CpuMask) (forced : Nat) : Pool where
  workers := numWorkers poolSize hardwareConcurrency reservedCores physicalCpus timers
  mainInPool := mainInPool
  llcMaskOfWorker := llcMaskOfWorker
  forced := forced
  positive := (numWorkers_bounds poolSize reservedCores timers hw physical).1
  fits := (numWorkers_bounds poolSize reservedCores timers hw physical).2

/-- An index as an `int`. -/
def toInt (d : Nat) : Int := (d : Int).bmod (2 ^ 32)

/-- An `int` as a `size_t`. -/
def toSize (v : Int) : Nat := (v % 2 ^ 64).toNat

theorem toInt_eq {d : Nat} (fits : d < 2 ^ 31) : toInt d = d := by
  unfold toInt
  exact Int.bmod_eq_of_le (by omega) (by omega)

theorem toSize_natCast {d : Nat} (fits : d < 2 ^ 64) : toSize d = d := by
  unfold toSize
  omega

/-- The masks seen so far, and the groups of the workers so far. -/
structure Scan where
  seen : List CpuMask
  l3GroupOf : Nat → Nat

/-- A round of the loop over the workers. -/
def Scan.step (llcMaskOfWorker : Nat → CpuMask) (s : Scan) (q : Nat) : Scan :=
  let m := llcMaskOfWorker q
  if m.any then
    let g := s.seen.findIdx fun mask => mask.same m
    { seen := if g = s.seen.length then s.seen ++ [m] else s.seen
      l3GroupOf := Function.update s.l3GroupOf q (g % 2 ^ 16) }
  else s

def Scan.run (llcMaskOfWorker : Nat → CpuMask) (nw : Nat) : Scan :=
  (List.range nw).foldl (Scan.step llcMaskOfWorker) ⟨[], fun _ => 0⟩

namespace Pool

/-- The deques: the workers', and the non-worker deque if there is one. -/
def numDeques (p : Pool) : Nat := p.workers + if p.mainInPool then 0 else 1

/-- The group of a worker's deque. -/
def workerGroup (p : Pool) (q : Nat) : Nat :=
  if 2 ≤ p.forced ∧ p.forced ≤ p.workers then (q * p.forced % 2 ^ 64 / p.workers) % 2 ^ 16
  else (Scan.run p.llcMaskOfWorker p.workers).l3GroupOf q

def l3GroupOf (p : Pool) (d : Nat) : Nat :=
  if d < p.workers then p.workerGroup d
  else if p.workers ≠ 0 then p.workerGroup 0
  else 0

def l3Groups (p : Pool) : Nat := count p.numDeques p.l3GroupOf

def l3Members (p : Pool) : Nat → List Int :=
  (List.range p.numDeques).foldl (fun members d =>
    Function.update members (p.l3GroupOf d) (members (p.l3GroupOf d) ++ [toInt d])) fun _ => []

def l3Others (p : Pool) (g : Nat) : List Int :=
  ((List.range p.numDeques).filter fun d => p.l3GroupOf d ≠ g).map toInt

end Pool

/-! ## Each rule fills the groups -/

theorem Scan.run_succ (llcMaskOfWorker : Nat → CpuMask) (nw : Nat) :
    run llcMaskOfWorker (nw + 1) = (run llcMaskOfWorker nw).step llcMaskOfWorker nw := by
  unfold run
  rw [List.range_succ, List.foldl_append]
  rfl

/-- After `nw` rounds the workers so far have the numbers of the masks seen, and each of these
numbers is one's. -/
structure Scan.Numbered (s : Scan) (nw : Nat) : Prop where
  ahead : ∀ q, nw ≤ q → s.l3GroupOf q = 0
  known : ∀ q < nw, s.l3GroupOf q = 0 ∨ ∃ g < s.seen.length, s.l3GroupOf q = g % 2 ^ 16
  met : ∀ g < s.seen.length, ∃ q < nw, s.l3GroupOf q = g % 2 ^ 16

/-- A worker is given a number, which may be a new one. -/
theorem Scan.Numbered.number {s : Scan} {nw g : Nat} (numbered : s.Numbered nw)
    {seen : List CpuMask} (size : s.seen.length ≤ seen.length) (here : g < seen.length)
    (only : ∀ h < seen.length, h < s.seen.length ∨ h = g) :
    Scan.Numbered ⟨seen, Function.update s.l3GroupOf nw (g % 2 ^ 16)⟩ (nw + 1) := by
  have before : ∀ q < nw, Function.update s.l3GroupOf nw (g % 2 ^ 16) q = s.l3GroupOf q :=
    fun q lt => Function.update_of_ne lt.ne _ _
  constructor
  case ahead =>
    intro q behind
    exact (Function.update_of_ne (by omega) _ _).trans (numbered.ahead q (by omega))
  case known =>
    intro q inside
    rcases Nat.lt_succ_iff_lt_or_eq.mp inside with lt | rfl
    · rcases numbered.known q lt with zero | ⟨h, below, same⟩
      · exact .inl ((before q lt).trans zero)
      · exact .inr ⟨h, below.trans_le size, (before q lt).trans same⟩
    · exact .inr ⟨g, here, Function.update_self _ _ _⟩
  case met =>
    intro h below
    rcases only h below with old | rfl
    · obtain ⟨q, lt, same⟩ := numbered.met h old
      exact ⟨q, Nat.lt_succ_of_lt lt, (before q lt).trans same⟩
    · exact ⟨nw, Nat.lt_succ_self nw, Function.update_self _ _ _⟩

theorem Scan.Numbered.step {s : Scan} {nw : Nat} (numbered : s.Numbered nw)
    (llcMaskOfWorker : Nat → CpuMask) : (s.step llcMaskOfWorker nw).Numbered (nw + 1) := by
  have within : (s.seen.findIdx fun mask => mask.same (llcMaskOfWorker nw)) ≤ s.seen.length :=
    List.findIdx_le_length
  unfold Scan.step
  simp only
  split
  · split
    · rename_i new
      refine numbered.number ?_ ?_ ?_
      · rw [List.length_append]
        exact Nat.le_add_right _ _
      · rw [List.length_append, List.length_singleton, new]
        exact Nat.lt_succ_self _
      · intro h below
        rw [List.length_append, List.length_singleton] at below
        rw [new]
        exact Nat.lt_succ_iff_lt_or_eq.mp below
    · rename_i old
      exact numbered.number le_rfl (lt_of_le_of_ne within old) fun h below => .inl below
  · constructor
    case ahead => exact fun q behind => numbered.ahead q (by omega)
    case known =>
      intro q inside
      rcases Nat.lt_succ_iff_lt_or_eq.mp inside with lt | rfl
      · exact numbered.known q lt
      · exact .inl (numbered.ahead q le_rfl)
    case met =>
      intro h below
      obtain ⟨q, lt, same⟩ := numbered.met h below
      exact ⟨q, Nat.lt_succ_of_lt lt, same⟩

theorem Scan.run_numbered (llcMaskOfWorker : Nat → CpuMask) (nw : Nat) :
    (Scan.run llcMaskOfWorker nw).Numbered nw := by
  induction nw with
  | zero =>
    exact ⟨fun q _ => rfl, fun q absurd => (Nat.not_lt_zero q absurd).elim,
      fun g absurd => (Nat.not_lt_zero g absurd).elim⟩
  | succ nw ih =>
    rw [Scan.run_succ]
    exact ih.step llcMaskOfWorker

/-- The masks fill the groups. -/
theorem Scan.Numbered.filled {s : Scan} {nw : Nat} (numbered : s.Numbered nw) (positive : 0 < nw) :
    Filled nw s.l3GroupOf := by
  intro d inside g below
  rcases Nat.eq_zero_or_pos g with rfl | above
  · rcases List.eq_nil_or_concat s.seen with empty | ⟨front, last, parts⟩
    · rcases numbered.known 0 positive with zero | ⟨h, absurd, -⟩
      · exact ⟨0, positive, zero⟩
      · rw [empty] at absurd
        exact (Nat.not_lt_zero h absurd).elim
    · have some : 0 < s.seen.length := by
        rw [parts]
        simp
      exact numbered.met 0 some
  · rcases numbered.known d inside with zero | ⟨h, known, same⟩
    · omega
    · obtain ⟨q, lt, is⟩ := numbered.met g (by omega)
      exact ⟨q, lt, by omega⟩

/-- So do the stretches of workers. -/
theorem filled_forced {nw forced : Nat} (some : 0 < forced) (enough : forced ≤ nw)
    (fits : nw < 2 ^ 31) : Filled nw fun q => (q * forced % 2 ^ 64 / nw) % 2 ^ 16 := by
  have whole : ∀ q < nw, q * forced % 2 ^ 64 = q * forced := by
    intro q inside
    refine Nat.mod_eq_of_lt ?_
    calc q * forced ≤ nw * nw := Nat.mul_le_mul inside.le enough
      _ < 2 ^ 31 * 2 ^ 31 := Nat.mul_lt_mul'' fits fits
      _ < 2 ^ 64 := by decide
  intro d inside g below
  simp only [whole d inside] at below
  have small : g < 2 ^ 16 := by omega
  have part : g * nw ≤ d * forced :=
    (Nat.le_div_iff_mul_le (by omega)).mp (below.trans (Nat.mod_le _ _))
  -- The first worker of stretch `g`.
  obtain ⟨e, first⟩ : ∃ e, e = (g * nw + forced - 1) / forced := ⟨_, rfl⟩
  have least : g * nw ≤ e * forced ∧ e * forced < g * nw + forced := by
    have parts := Nat.div_add_mod (g * nw + forced - 1) forced
    have rest := Nat.mod_lt (g * nw + forced - 1) some
    rw [← first, Nat.mul_comm forced e] at parts
    omega
  have before : e ≤ d := by
    by_contra behind
    have next : (d + 1) * forced ≤ e * forced := Nat.mul_le_mul_right forced (by omega)
    rw [Nat.add_mul] at next
    omega
  refine ⟨e, by omega, ?_⟩
  have stretch : e * forced / nw = g := by
    refine Nat.div_eq_of_lt_le least.1 ?_
    rw [Nat.add_mul]
    omega
  simp only [whole e (by omega), stretch]
  exact Nat.mod_eq_of_lt small

namespace Pool

variable (p : Pool) {d g : Nat}

theorem workers_le : p.workers ≤ p.numDeques := Nat.le_add_right _ _

theorem numDeques_pos : 0 < p.numDeques := p.positive.trans_le p.workers_le

theorem numDeques_le : p.numDeques ≤ 2 ^ 31 := by
  have fits := p.fits
  unfold numDeques
  split
  · omega
  · omega

theorem workerGroup_filled : Filled p.workers p.workerGroup := by
  unfold workerGroup
  split
  · rename_i split
    exact filled_forced (by omega) split.2 p.fits
  · exact (Scan.run_numbered p.llcMaskOfWorker p.workers).filled p.positive

theorem workerGroup_lt (inside : d < p.workers) : p.workerGroup d < 2 ^ 16 := by
  unfold workerGroup
  split
  · exact Nat.mod_lt _ (Nat.two_pow_pos 16)
  · rcases (Scan.run_numbered p.llcMaskOfWorker p.workers).known d inside with zero | ⟨g, -, same⟩
    · exact zero ▸ Nat.two_pow_pos 16
    · exact same ▸ Nat.mod_lt g (Nat.two_pow_pos 16)

theorem l3GroupOf_worker (inside : d < p.workers) : p.l3GroupOf d = p.workerGroup d :=
  if_pos inside

/-- The non-worker deque is where worker 0 is. -/
theorem l3GroupOf_other (outside : p.workers ≤ d) : p.l3GroupOf d = p.workerGroup 0 := by
  unfold l3GroupOf
  rw [if_neg (Nat.not_lt.mpr outside), if_pos p.positive.ne']

theorem filled : Filled p.numDeques p.l3GroupOf := by
  have all : ∀ d, ∃ q < p.workers, p.l3GroupOf d = p.workerGroup q := by
    intro d
    rcases Nat.lt_or_ge d p.workers with inside | outside
    · exact ⟨d, inside, p.l3GroupOf_worker inside⟩
    · exact ⟨0, p.positive, p.l3GroupOf_other outside⟩
  intro d _ g below
  obtain ⟨q, inside, same⟩ := all d
  obtain ⟨e, within, here⟩ := p.workerGroup_filled q inside g (same ▸ below)
  exact ⟨e, within.trans_le p.workers_le, (p.l3GroupOf_worker within).trans here⟩

theorem l3Groups_le : p.l3Groups ≤ 2 ^ 16 := by
  refine count_le (fun d _ => ?_) (Nat.two_pow_pos 16)
  rcases Nat.lt_or_ge d p.workers with inside | outside
  · rw [p.l3GroupOf_worker inside]
    exact p.workerGroup_lt inside
  · rw [p.l3GroupOf_other outside]
    exact p.workerGroup_lt p.positive

theorem l3GroupOf_lt (inside : d < p.numDeques) : p.l3GroupOf d < p.l3Groups := lt_count inside

/-! ## The lists -/

/-- Pushing each number to its group's list makes the groups. -/
theorem foldl_push (of : Nat → Nat) (n : Nat) :
    (List.range n).foldl
      (fun members d => Function.update members (of d) (members (of d) ++ [toInt d]))
      (fun _ => []) = fun g => (group n of g).map toInt := by
  induction n with
  | zero => rfl
  | succ n ih =>
    rw [List.range_succ, List.foldl_append, ih]
    funext g
    unfold group
    rw [List.range_succ, List.filter_append, List.map_append]
    rcases eq_or_ne g (of n) with rfl | other
    · simp [Function.update_self]
    · simp [Function.update_of_ne other, other.symm]

theorem map_toInt {l : List Nat} (small : ∀ d ∈ l, d < p.numDeques) :
    l.map toInt = l.map fun d : Nat => (d : Int) :=
  List.map_congr_left fun d mem => toInt_eq ((small d mem).trans_le p.numDeques_le)

theorem l3Members_eq (g : Nat) :
    p.l3Members g = (group p.numDeques p.l3GroupOf g).map fun d : Nat => (d : Int) := by
  unfold l3Members
  rw [foldl_push]
  exact p.map_toInt fun d mem => (mem_group.mp mem).1

theorem l3Others_eq (g : Nat) :
    p.l3Others g = (others p.numDeques p.l3GroupOf g).map fun d : Nat => (d : Int) :=
  p.map_toInt fun _ mem => (mem_others.mp mem).1

theorem mem_l3Members {v : Int} :
    v ∈ p.l3Members g ↔ ∃ d < p.numDeques, p.l3GroupOf d = g ∧ (d : Int) = v := by
  simp [l3Members_eq, and_assoc, eq_comm]

theorem mem_l3Others {v : Int} :
    v ∈ p.l3Others g ↔ ∃ d < p.numDeques, p.l3GroupOf d ≠ g ∧ (d : Int) = v := by
  simp [l3Others_eq, and_assoc, eq_comm]

/-- The lists of the groups have each deque once. -/
theorem l3Members_perm :
    ((List.range p.l3Groups).flatMap p.l3Members).Perm
      ((List.range p.numDeques).map fun d : Nat => (d : Int)) := by
  have members : p.l3Members = fun g => (group p.numDeques p.l3GroupOf g).map fun d : Nat => (d : Int) :=
    funext p.l3Members_eq
  rw [members, ← List.map_flatMap]
  exact (group_perm fun d inside => p.l3GroupOf_lt inside).map _

theorem l3Members_ne_nil (below : g < p.l3Groups) : p.l3Members g ≠ [] := by
  obtain ⟨d, inside, here⟩ := p.filled.exists p.numDeques_pos below
  exact List.ne_nil_of_mem (p.mem_l3Members.mpr ⟨d, inside, here, rfl⟩)

theorem l3Others_ne_nil (more : 1 < p.l3Groups) (g : Nat) : p.l3Others g ≠ [] := by
  rw [l3Others_eq]
  exact List.map_eq_nil_iff.not.mpr (p.filled.others_ne_nil p.numDeques_pos more g)

theorem nodup_l3Others (g : Nat) : (p.l3Others g).Nodup := by
  rw [l3Others_eq]
  exact nodup_others.map Nat.cast_injective

/-- What is not in a group's list is in the other one. -/
theorem mem_l3Others_iff {v : Int} :
    v ∈ p.l3Others g ↔ (∃ d < p.numDeques, (d : Int) = v) ∧ v ∉ p.l3Members g := by
  rw [mem_l3Others, mem_l3Members]
  constructor
  · rintro ⟨d, inside, apart, rfl⟩
    refine ⟨⟨d, inside, rfl⟩, ?_⟩
    rintro ⟨e, -, here, same⟩
    exact apart (Nat.cast_injective same ▸ here)
  · rintro ⟨⟨d, inside, rfl⟩, out⟩
    exact ⟨d, inside, fun here => out ⟨d, inside, here, rfl⟩, rfl⟩

end Pool

end JLibSched.Topology
