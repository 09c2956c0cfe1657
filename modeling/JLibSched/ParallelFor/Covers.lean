import JLibSched.ParallelFor.Drawn

/-!
# What cursor mode covers

Before the range is handed out the caller covers a part of it alone (`Alone`).  After that the calls
are those of the blocks drawn so far, whoever drew them (`Handing`), and the group is at zero only
when every task has left its loop.
-/

namespace JLibSched.ParallelFor

open Transition Ranges

variable {pool : Pool} {call : Call} {s t : State} {w i : Nat} {h : Helper} {left : Bool} {b : Int}
  {p : Probe} {c : Caller}

/-! ## Stages of the caller -/

/-- How many tasks `RunCursorRange` has tried, and whether its own loop has left. -/
def Caller.hands (lanes : Int) : Caller → Option (Nat × Bool)
  | .seeding w => some (w, false)
  | .taking | .running _ => some (lanes.toNat, false)
  | .waiting => some (lanes.toNat, true)
  | .entered | .probing _ | .inProbe _ | .measured _ | .serial _ | .inSerial | .fanning _ _
  | .returned | .crashed => none

/-- The range is being handed out. -/
structure Handing (pool : Pool) (call : Call) (s : State) (w : Nat) (left : Bool) : Prop where
  framed : Framed pool call s.frame
  grouped : Grouped pool s w
  drawn : ∃ k, Drawn call s.frame s.cursor s.calls k
      (left.toNat + s.helpers.countP Helper.hasLeft) ∧
    (left = true → call.stop ≤ s.frame.mark k)

/-- The caller alone has covered the range up to `b`. -/
structure Alone (call : Call) (s : State) (b : Int) : Prop where
  helpers : s.helpers = []
  calls : Follows call.begin s.calls b

/-- What holds when the caller is at a place. -/
inductive Stage (pool : Pool) (call : Call) (s : State) : Caller → Prop where
  | entered : Alone call s call.begin → Stage pool call s .entered
  | probing {p : Probe} : Alone call s (call.begin + p.probed) → p.probed < call.probeCap →
      1 ≤ p.chunk → Stage pool call s (.probing p)
  | inProbe {p : Probe} : Alone call s (call.begin + p.probed + call.take p) →
      p.probed < call.probeCap → 1 ≤ p.chunk → Stage pool call s (.inProbe p)
  | measured {b : Int} : Alone call s b → b < call.stop → Stage pool call s (.measured b)
  | serial {b : Int} : Alone call s b → b < call.stop → Stage pool call s (.serial b)
  | inSerial : Alone call s call.stop → Stage pool call s .inSerial
  | fanning {b : Int} {fanWidth : Nat} : Alone call s b → b < call.stop →
      Stage pool call s (.fanning b fanWidth)
  | handing {c : Caller} {w : Nat} {left : Bool} : c.hands s.frame.lanes = some (w, left) →
      Handing pool call s w left → Stage pool call s c
  | returned : Follows call.begin s.calls call.stop → (∀ h ∈ s.helpers, h = .done) →
      Stage pool call s .returned

/-! ## The front end -/

theorem Call.probeCap_pos (call : Call) : 1 ≤ call.probeCap := by
  unfold Call.probeCap
  omega

theorem Call.probeCap_le (call : Call) : call.begin + call.probeCap ≤ call.stop := by
  have ordered := call.ordered
  unfold Call.probeCap
  omega

theorem Call.take_spec (more : p.probed < call.probeCap) (some : 1 ≤ p.chunk) :
    1 ≤ call.take p ∧ p.probed + call.take p ≤ call.probeCap := by
  unfold Call.take
  omega

theorem Call.one_le_nextChunk {take : Int} (some : 1 ≤ take) (ns : Int) :
    1 ≤ call.nextChunk take ns := by
  have cap := call.probeCap_pos
  unfold Call.nextChunk
  dsimp only
  omega

theorem Stage.afterProbe (alone : Alone call s (call.begin + p.probed))
    (most : p.probed ≤ call.probeCap) (some : 1 ≤ p.chunk) :
    Stage pool call s (call.afterProbe p) := by
  have inside := call.probeCap_le
  unfold Call.afterProbe
  split
  · rename_i more
    exact .probing alone more.2 some
  · split
    · rename_i whole
      refine .returned ?_ fun h mem => ?_
      · have same : call.stop = call.begin + p.probed := by omega
        rw [same]
        exact alone.calls
      · rw [alone.helpers] at mem
        cases mem
    · rename_i rest
      split
      · exact .serial alone (by omega)
      · exact .measured alone (by omega)

theorem Stage.widen (alone : Alone call s b) (rest : b < call.stop) (k : Nat) :
    Stage pool call s (pool.widen b k) := by
  unfold Pool.widen
  generalize (if k > pool.workers then pool.workers else k) = width
  dsimp only
  split
  · exact .serial alone rest
  · exact .fanning alone rest

theorem Stage.enter (alone : Alone call s call.begin) (remembered : Option Nat) :
    Stage pool call s (pool.enter call remembered) := by
  have ordered := call.ordered
  unfold Pool.enter
  rw [if_neg (by omega)]
  split
  · exact .serial alone ordered
  · split
    · split
      · exact .widen alone ordered _
      · refine .probing ?_ call.probeCap_pos (le_refl _)
        show Alone call s (call.begin + 0)
        rw [Int.add_zero]
        exact alone
    · split
      · exact .serial alone ordered
      · exact .fanning alone ordered

theorem leafGrain_pos (grain length : Int) (maxLeaves : Nat) :
    0 < leafGrain grain length maxLeaves := by
  have least := le_max_right (max (max 1 grain) (floorGrain length maxLeaves)) kMinGrain
  unfold leafGrain
  unfold kMinGrain at least ⊢
  omega

/-- With a worker in the pool, the hot workers leave one. -/
theorem Pool.compute_spec (some : pool.workers ≠ 0) (few : (pool.workers : Int) < WaiterBit) :
    0 < pool.compute ∧ pool.compute < WaiterBit := by
  unfold WaiterBit at few ⊢
  have left : 1 ≤ pool.workers - pool.getHotWorkers := by
    unfold Pool.getHotWorkers clampHotWorkersToPool
    split
    · contradiction
    · split <;> omega
  have same : pool.compute = ((pool.workers - pool.getHotWorkers : Nat) : Int) := by
    unfold Pool.compute
    refine wrap_of_int ?_ ?_
    · unfold IntMin
      omega
    · unfold IntMax
      omega
  omega

theorem Fits.framed {fanWidth : Nat} (fits : Fits pool call b fanWidth) (inside : call.begin ≤ b)
    (rest : b < call.stop) (some : pool.workers ≠ 0) :
    Framed pool call (pool.frame call b fanWidth) where
  inside := inside
  some := rest
  grain := (leafGrain_pos ..).trans_le (le_max_left ..)
  lanes := by
    obtain ⟨compute, few⟩ := Pool.compute_spec some fits.few
    refine ⟨lt_min compute ?_, (min_le_left ..).trans_lt few⟩
    exact Int.zero_lt_one.trans_le (le_max_left ..)
  fits := fits.cursor

theorem Stage.fanOut {fanWidth : Nat} (alone : Alone call s b) (rest : b < call.stop)
    (fits : Fits pool call b fanWidth) :
    Stage pool call (s.fanOut pool call b fanWidth) (s.fanOut pool call b fanWidth).caller := by
  have inside := alone.calls.le
  unfold State.fanOut
  rw [if_neg fits.leaves, if_neg (not_le.mpr rest)]
  split
  · exact .serial ⟨alone.helpers, alone.calls⟩ rest
  · rename_i some
    obtain ⟨compute, -⟩ := Pool.compute_spec some fits.few
    rw [if_neg compute.ne']
    have framed := fits.framed inside rest some
    have first : (pool.frame call b fanWidth).mark 0 = b := by
      unfold Frame.mark
      rw [Int.natCast_zero, Int.zero_mul, Int.add_zero]
      rfl
    refine .handing rfl ⟨framed, ⟨framed.lanes.1.le, ?_, ?_⟩, 0, ⟨?_, ?_, ?_⟩, fun absurd => ?_⟩
    · show s.helpers.length = 0
      rw [alone.helpers]
      rfl
    · show (pool.frame call b fanWidth).lanes = _ - 0 + (s.helpers.countP Helper.counted : Nat)
      rw [alone.helpers, List.countP_nil, Int.natCast_zero, Int.sub_zero, Int.add_zero]
    · have blocks := framed.slices_pos
      show b = wrap ((pool.frame call b fanWidth).mark 0)
      rw [framed.wrap_mark (by omega), first]
    · show Follows call.begin s.calls _
      rw [first, min_eq_right rest.le]
      exact alone.calls
    · have blocks := framed.slices_pos
      show ((0 : Nat) : Int) ≤ (pool.frame call b fanWidth).slices call + _
      omega
    · cases absurd

/-! ## The lanes -/

theorem Handing.left_room (handing : Handing pool call s w false) :
    false.toNat + s.helpers.countP Helper.hasLeft ≤ pool.helpers s.frame.lanes := by
  have room := handing.grouped.left_le
  have zero : false.toNat = 0 := rfl
  omega

/-- The caller finds that there is nothing left. -/
theorem Handing.leave (handing : Handing pool call s w false) (spent : s.cursor ≥ call.stop)
    (c : Caller) : Handing pool call (s.advance.setCaller c) w true where
  framed := handing.framed
  grouped := ⟨handing.grouped.seeds, handing.grouped.pushed, handing.grouped.count⟩
  drawn := by
    obtain ⟨k, drawn, -⟩ := handing.drawn
    obtain ⟨past, next⟩ := drawn.leave handing.framed handing.left_room spent
    have more : false.toNat + s.helpers.countP Helper.hasLeft + 1 =
        true.toNat + s.helpers.countP Helper.hasLeft := by
      rw [Nat.add_right_comm]
      rfl
    rw [more] at next
    exact ⟨k + 1, next, fun _ => past⟩

/-- The caller takes a block. -/
theorem Handing.take (handing : Handing pool call s w false) (more : ¬s.cursor ≥ call.stop)
    (c : Caller) :
    Handing pool call ((s.advance.log (s.frame.block call s.cursor)).setCaller c) w false where
  framed := handing.framed
  grouped := ⟨handing.grouped.seeds, handing.grouped.pushed, handing.grouped.count⟩
  drawn := by
    obtain ⟨k, drawn, -⟩ := handing.drawn
    exact ⟨k + 1, drawn.take handing.framed handing.left_room more, fun absurd => by cases absurd⟩

/-- A task that is still looking leaves room for its addition. -/
theorem Handing.helper_room (handing : Handing pool call s w left)
    (found : s.helpers[i]? = some .taking) :
    left.toNat + s.helpers.countP Helper.hasLeft ≤ pool.helpers s.frame.lanes := by
  have room := handing.grouped.left_lt found
  have most := Bool.toNat_le left
  omega

theorem Handing.helperLeave (handing : Handing pool call s w left)
    (found : s.helpers[i]? = some .taking) (spent : s.cursor ≥ call.stop) :
    Handing pool call (s.advance.setHelper i .left) w left where
  framed := handing.framed
  grouped := handing.grouped.set found rfl rfl rfl
  drawn := by
    obtain ⟨k, drawn, -⟩ := handing.drawn
    obtain ⟨past, next⟩ := drawn.leave handing.framed (handing.helper_room found) spent
    have more : (s.helpers.set i .left).countP Helper.hasLeft =
        s.helpers.countP Helper.hasLeft + 1 := countP_set_of found Helper.hasLeft .left
    rw [Nat.add_assoc, ← more] at next
    exact ⟨k + 1, next, fun _ => past⟩

theorem Handing.helperTake (handing : Handing pool call s w left)
    (found : s.helpers[i]? = some .taking) (more : ¬s.cursor ≥ call.stop) (r : Range) :
    Handing pool call
      ((s.advance.log (s.frame.block call s.cursor)).setHelper i (.running r)) w left where
  framed := handing.framed
  grouped := handing.grouped.set found rfl rfl rfl
  drawn := by
    obtain ⟨k, drawn, past⟩ := handing.drawn
    have room := handing.helper_room found
    have same : (s.helpers.set i (.running r)).countP Helper.hasLeft =
        s.helpers.countP Helper.hasLeft := countP_set_of found Helper.hasLeft (.running r)
    refine ⟨k + 1, ?_, fun ended => ?_⟩
    · have next := drawn.take handing.framed room more
      rw [← same] at next
      exact next
    · rw [drawn.cursor_eq handing.framed room] at more
      exact absurd (past ended) more

/-- A task goes on without touching the cursor. -/
theorem Handing.set (handing : Handing pool call s w left) (found : s.helpers[i]? = some h)
    (h' : Helper) (same : h'.hasLeft = h.hasLeft) {n : Int}
    (counts : n + h.counted.toNat = s.n + h'.counted.toNat) :
    Handing pool call { s.setHelper i h' with n := n } w left where
  framed := handing.framed
  grouped := handing.grouped.set found rfl rfl counts
  drawn := by
    obtain ⟨k, drawn, past⟩ := handing.drawn
    have ends := countP_set_of found Helper.hasLeft h'
    rw [same] at ends
    have kept : (s.helpers.set i h').countP Helper.hasLeft = s.helpers.countP Helper.hasLeft :=
      Nat.add_right_cancel ends
    refine ⟨k, ?_, past⟩
    show Drawn call s.frame s.cursor s.calls k
      (left.toNat + (s.helpers.set i h').countP Helper.hasLeft)
    rw [kept]
    exact drawn

theorem Handing.push (handing : Handing pool call s w false) (more : (w : Int) < s.frame.lanes)
    (helps : pool.helps w = true) (c : Caller) :
    Handing pool call { s with caller := c, helpers := s.helpers ++ [.taking] } (w + 1) false where
  framed := handing.framed
  grouped := by
    refine ⟨?_, ?_, ?_⟩
    · show ((w + 1 : Nat) : Int) ≤ s.frame.lanes
      omega
    · show (s.helpers ++ [Helper.taking]).length = _
      rw [List.length_append, List.range_succ, List.countP_append, List.countP_singleton,
        if_pos helps, handing.grouped.pushed]
      rfl
    · have count := handing.grouped.count
      have one : (s.helpers ++ [Helper.taking]).countP Helper.counted =
          s.helpers.countP Helper.counted + 1 := List.countP_append
      show s.n = s.frame.lanes - ((w + 1 : Nat) : Int) +
        ((s.helpers ++ [Helper.taking]).countP Helper.counted : Nat)
      omega
  drawn := by
    obtain ⟨k, drawn, past⟩ := handing.drawn
    have kept : (s.helpers ++ [Helper.taking]).countP Helper.hasLeft =
        s.helpers.countP Helper.hasLeft := List.countP_append
    refine ⟨k, ?_, past⟩
    show Drawn call s.frame s.cursor s.calls k
      (false.toNat + (s.helpers ++ [Helper.taking]).countP Helper.hasLeft)
    rw [kept]
    exact drawn

theorem Handing.skip (handing : Handing pool call s w false) (more : (w : Int) < s.frame.lanes)
    (alone : ¬pool.helps w = true) (c : Caller) :
    Handing pool call { s with caller := c, n := s.n - 1 } (w + 1) false where
  framed := handing.framed
  grouped := by
    refine ⟨?_, ?_, ?_⟩
    · show ((w + 1 : Nat) : Int) ≤ s.frame.lanes
      omega
    · show s.helpers.length = _
      rw [List.range_succ, List.countP_append, List.countP_singleton, if_neg alone]
      exact handing.grouped.pushed
    · have count := handing.grouped.count
      show s.n - 1 = s.frame.lanes - ((w + 1 : Nat) : Int) +
        (s.helpers.countP Helper.counted : Nat)
      omega
  drawn := handing.drawn

/-- The group is at zero only when no task is left. -/
theorem Handing.settled (handing : Handing pool call s s.frame.lanes.toNat true)
    (zero : s.n % WaiterBit = 0) :
    Follows call.begin s.calls call.stop ∧ ∀ h ∈ s.helpers, h = .done := by
  obtain ⟨k, drawn, past⟩ := handing.drawn
  have calls := drawn.calls
  rw [min_eq_left (past rfl)] at calls
  refine ⟨calls, ?_⟩
  have count := handing.grouped.count
  have lanes := handing.framed.lanes
  have length : s.helpers.countP Helper.counted ≤ s.frame.lanes.toNat :=
    List.countP_le_length.trans (handing.grouped.pushed.le.trans
      (List.countP_le_length.trans List.length_range.le))
  have none : s.helpers.countP Helper.counted = 0 := by
    unfold WaiterBit at zero lanes
    omega
  intro h mem
  have absent := List.countP_eq_zero.mp none h mem
  cases h with
  | done => rfl
  | taking | running | left => exact absurd rfl absent

/-! ## A step -/

theorem Alone.absent (alone : Alone call s b) (found : s.helpers[i]? = some h) : False := by
  rw [alone.helpers] at found
  cases found

/-- A task that is not done means that the range is being handed out. -/
theorem Stage.handed (stage : Stage pool call s c) (found : s.helpers[i]? = some h)
    (busy : h ≠ .done) :
    ∃ w left, c.hands s.frame.lanes = some (w, left) ∧ Handing pool call s w left := by
  cases stage with
  | handing hands handing => exact ⟨_, _, hands, handing⟩
  | returned calls settled => exact absurd (settled h (List.mem_of_getElem? found)) busy
  | entered alone | probing alone | inProbe alone | measured alone | serial alone | inSerial alone
  | fanning alone => exact (alone.absent found).elim

theorem Stage.helperStep {a : Label} (stage : Stage pool call s s.caller)
    (stepped : helperStep call s i a = some t) : Stage pool call t t.caller := by
  cases a with
  | helperFetch j =>
    unfold ParallelFor.helperStep at stepped
    dsimp only at stepped
    split at stepped
    · rename_i found
      obtain ⟨w, left, hands, handing⟩ := stage.handed found (fun absurd => by cases absurd)
      split at stepped
      · rename_i spent
        cases stepped
        exact .handing hands (handing.helperLeave found spent)
      · rename_i more
        cases stepped
        exact .handing hands (handing.helperTake found more _)
    · cases stepped
  | helperReturned j =>
    unfold ParallelFor.helperStep at stepped
    dsimp only at stepped
    split at stepped
    · rename_i r found
      obtain ⟨w, left, hands, handing⟩ := stage.handed found (fun absurd => by cases absurd)
      cases stepped
      exact .handing hands (handing.set found .taking rfl rfl)
    · cases stepped
  | helperDone j =>
    unfold ParallelFor.helperStep at stepped
    dsimp only at stepped
    split at stepped
    · rename_i found
      obtain ⟨w, left, hands, handing⟩ := stage.handed found (fun absurd => by cases absurd)
      cases stepped
      refine .handing hands (handing.set found .done rfl ?_)
      show s.n - 1 + 1 = s.n + 0
      omega
    · cases stepped
  | enter | probe | probed | width | serial | serialReturned | fanOut | seed | fetch | bodyReturned
  | waited => cases stepped

theorem Stage.seed (handing : Handing pool call s w false) :
    Stage pool call (s.seed pool w) (s.seed pool w).caller := by
  unfold State.seed
  split
  · rename_i more
    split
    · rename_i helps
      exact .handing rfl (handing.push more helps _)
    · rename_i alone
      exact .handing rfl (handing.skip more alone _)
  · rename_i all
    have seeds := handing.grouped.seeds
    have whole : w = s.frame.lanes.toNat := by omega
    rw [whole] at handing
    exact .handing rfl ⟨handing.framed,
      ⟨handing.grouped.seeds, handing.grouped.pushed, handing.grouped.count⟩, handing.drawn⟩

theorem Stage.callerStep {a : Label} (stage : Stage pool call s s.caller)
    (fits : fitting pool call s a) (stepped : callerStep pool call s a = some t) :
    Stage pool call t t.caller := by
  cases a with
  | enter k =>
    unfold ParallelFor.callerStep at stepped
    dsimp only at stepped
    split at stepped
    · rename_i here
      rw [here] at stage
      cases stepped
      cases stage with
      | entered alone =>
        have before : Alone call (s.setCaller (pool.enter call k)) call.begin :=
          ⟨alone.helpers, alone.calls⟩
        exact .enter before k
      | handing hands => cases hands
    · cases stepped
  | probe =>
    unfold ParallelFor.callerStep at stepped
    dsimp only at stepped
    split at stepped
    · rename_i p here
      rw [here] at stage
      cases stepped
      cases stage with
      | probing alone more some =>
        have taken := Call.take_spec more some
        exact .inProbe ⟨alone.helpers, alone.calls.append (.single (by omega))⟩ more some
      | handing hands => cases hands
    · cases stepped
  | probed ns =>
    unfold ParallelFor.callerStep at stepped
    dsimp only at stepped
    split at stepped
    · rename_i p here
      rw [here] at stage
      cases stepped
      cases stage with
      | inProbe alone more some =>
        obtain ⟨taken, most⟩ := Call.take_spec more some
        refine .afterProbe ⟨alone.helpers, ?_⟩ most (Call.one_le_nextChunk taken ns)
        show Follows call.begin s.calls (call.begin + (p.probed + call.take p))
        rw [← Int.add_assoc]
        exact alone.calls
      | handing hands => cases hands
    · cases stepped
  | width k =>
    unfold ParallelFor.callerStep at stepped
    dsimp only at stepped
    split at stepped
    · rename_i b here
      rw [here] at stage
      cases stepped
      cases stage with
      | measured alone rest =>
        have before : Alone call (s.setCaller (pool.widen b k)) b := ⟨alone.helpers, alone.calls⟩
        exact .widen before rest k
      | handing hands => cases hands
    · cases stepped
  | serial =>
    unfold ParallelFor.callerStep at stepped
    dsimp only at stepped
    split at stepped
    · rename_i b here
      rw [here] at stage
      cases stepped
      cases stage with
      | serial alone rest => exact .inSerial ⟨alone.helpers, alone.calls.append (.single rest)⟩
      | handing hands => cases hands
    · cases stepped
  | serialReturned =>
    unfold ParallelFor.callerStep at stepped
    dsimp only at stepped
    split at stepped
    · rename_i here
      rw [here] at stage
      cases stepped
      cases stage with
      | inSerial alone =>
        refine .returned alone.calls fun h mem => ?_
        have none : h ∈ ([] : List Helper) := by
          rw [← alone.helpers]
          exact mem
        cases none
      | handing hands => cases hands
    · cases stepped
  | fanOut =>
    unfold ParallelFor.callerStep at stepped
    dsimp only at stepped
    split at stepped
    · rename_i start fanWidth here
      have fits := fits rfl
      rw [here] at stage fits
      cases stepped
      cases stage with
      | fanning alone rest => exact .fanOut alone rest fits
      | handing hands => cases hands
    · cases stepped
  | seed =>
    unfold ParallelFor.callerStep at stepped
    dsimp only at stepped
    split at stepped
    · rename_i w here
      rw [here] at stage
      cases stepped
      cases stage with
      | handing hands handing =>
        cases hands
        exact .seed handing
    · cases stepped
  | fetch =>
    unfold ParallelFor.callerStep at stepped
    dsimp only at stepped
    split at stepped
    · rename_i here
      rw [here] at stage
      cases stage with
      | handing hands handing =>
        cases hands
        split at stepped
        · rename_i spent
          cases stepped
          exact .handing rfl (handing.leave spent _)
        · rename_i more
          cases stepped
          exact .handing rfl (handing.take more _)
    · cases stepped
  | bodyReturned =>
    unfold ParallelFor.callerStep at stepped
    dsimp only at stepped
    split at stepped
    · rename_i r here
      rw [here] at stage
      cases stepped
      cases stage with
      | handing hands handing =>
        cases hands
        exact .handing rfl ⟨handing.framed,
          ⟨handing.grouped.seeds, handing.grouped.pushed, handing.grouped.count⟩, handing.drawn⟩
    · cases stepped
  | waited =>
    unfold ParallelFor.callerStep at stepped
    dsimp only at stepped
    split at stepped
    · rename_i here
      rw [here] at stage
      split at stepped
      · rename_i zero
        cases stepped
        cases stage with
        | handing hands handing =>
          cases hands
          obtain ⟨calls, settled⟩ := handing.settled zero
          exact .returned calls settled
      · cases stepped
    · cases stepped
  | helperFetch | helperReturned | helperDone => cases stepped

/-! ## A run -/

theorem Stage.step {a : Label} (stage : Stage pool call s s.caller) (fits : fitting pool call s a)
    (stepped : step pool call s a = some t) : Stage pool call t t.caller := by
  cases a with
  | helperFetch i => exact stage.helperStep (a := .helperFetch i) stepped
  | helperReturned i => exact stage.helperStep (a := .helperReturned i) stepped
  | helperDone i => exact stage.helperStep (a := .helperDone i) stepped
  | enter | probe | probed | width | serial | serialReturned | fanOut | seed | fetch | bodyReturned
  | waited => exact stage.callerStep fits stepped

theorem stage (reach : Reach (step pool call) (fitting pool call) initial s) :
    Stage pool call s s.caller :=
  reach.invariant (I := fun s => Stage pool call s s.caller) (.entered ⟨rfl, .nil _⟩)
    fun stage fits stepped => stage.step fits stepped

/-- The calls begun so far cover the range up to some place. -/
theorem Stage.follows (stage : Stage pool call s c) :
    ∃ b, b ≤ call.stop ∧ Follows call.begin s.calls b := by
  have ordered := call.ordered
  cases stage with
  | entered alone => exact ⟨_, ordered.le, alone.calls⟩
  | probing alone more some =>
    have inside := call.probeCap_le
    exact ⟨_, by omega, alone.calls⟩
  | inProbe alone more some =>
    have inside := call.probeCap_le
    have taken := Call.take_spec more some
    exact ⟨_, by omega, alone.calls⟩
  | measured alone rest | serial alone rest | fanning alone rest => exact ⟨_, rest.le, alone.calls⟩
  | inSerial alone => exact ⟨_, le_refl _, alone.calls⟩
  | handing hands handing =>
    obtain ⟨k, drawn, -⟩ := handing.drawn
    exact ⟨_, min_le_left .., drawn.calls⟩
  | returned calls settled => exact ⟨_, le_refl _, calls⟩

/-- As long as the cursor does not wrap, cursor mode covers its range exactly once and outlives
every call of the body. -/
theorem cursor_covers (pool : Pool) (call : Call) (s : State)
    (reach : Reach (step pool call) (fitting pool call) initial s) : Covered call s := by
  have stage := stage reach
  obtain ⟨b, inside, follows⟩ := stage.follows
  have tiles := follows.tiles
  refine ⟨?_, fun r mem => ?_, fun i => ?_, fun here => ?_, fun here => ?_⟩
  · intro here
    rw [here] at stage
    cases stage with
    | handing hands => cases hands
  · obtain ⟨low, some, high⟩ := tiles.proper r mem
    exact ⟨low, some, high.trans inside⟩
  · exact tiles.hits_le i
  · rw [here] at stage
    cases stage with
    | returned calls settled => exact calls.tiles.once
    | handing hands => cases hands
  · rw [here] at stage
    cases stage with
    | returned calls settled => exact settled
    | handing hands => cases hands

/-! ## Two runs -/

/-- Two workers that create and push every task, with the tunables as they come, but no probe. -/
def twoWorkers : Pool where
  workers := 2
  hotWorkers := 0
  poolActive := true
  parallelForSerial := false
  measuredWidth := false
  rememberedCost := false
  minItersPerWorker := 64
  leavesPerWorker := 8
  created := fun _ => true
  pushed := fun _ => true

/-- A thousand indices in blocks of 500. -/
def halves : Call where
  begin := 0
  stop := 1000
  grain := 500
  ordered := by decide
  begin_int := by decide
  stop_int := by decide
  length_int := by decide
  grain_int := by decide

/-- The caller and one task take a block each. -/
def sharing : List Label :=
  [.enter none, .fanOut, .seed, .seed, .seed, .fetch, .helperFetch 1, .bodyReturned, .fetch,
    .helperReturned 1, .helperFetch 0, .helperFetch 1, .helperDone 1, .helperDone 0, .waited]

def sharedRun : State :=
  (run (step twoWorkers halves) (fitting twoWorkers halves) initial sharing).getD initial

theorem sharedRun_reach :
    Reach (step twoWorkers halves) (fitting twoWorkers halves) initial sharedRun :=
  Reach.of_isSome sharing (by decide +kernel)

theorem sharedRun_covers :
    sharedRun.caller = .returned ∧ sharedRun.calls = [(0, 500), (500, 1000)] ∧
      Covered halves sharedRun :=
  ⟨by decide +kernel, by decide +kernel, cursor_covers twoWorkers halves sharedRun sharedRun_reach⟩

/-- A thousand indices and a grain that means all of them in one block. -/
def allInOne : Call where
  begin := 0
  stop := 1000
  grain := IntMax
  ordered := by decide
  begin_int := by decide
  stop_int := by decide
  length_int := by decide
  grain_int := by decide

/-- The caller takes the one block and looks once more, which leaves the cursor at `-2` for the
task. -/
def wrapping : List Label :=
  [.enter none, .fanOut, .seed, .seed, .fetch, .bodyReturned, .fetch, .helperFetch 0]

def wrappedRun : State :=
  (run (step twoWorkers allInOne) anyStep initial wrapping).getD initial

theorem wrappedRun_reach : Reach (step twoWorkers allInOne) anyStep initial wrappedRun :=
  Reach.of_isSome wrapping (by decide +kernel)

theorem cursor_not_covering :
    ¬∀ (pool : Pool) (call : Call) (s : State),
      Reach (step pool call) anyStep initial s → Covered call s := by
  intro always
  have covered := always _ _ _ wrappedRun_reach
  have again : (-2, 1000) ∈ wrappedRun.calls := by decide +kernel
  exact absurd (covered.proper _ again).1 (by decide)

end JLibSched.ParallelFor
