import JLibSched.Timer.Acts
import Mathlib.Data.Set.Card

/-!
# The accounts of a periodic

A fire moves `due` on by one more grid points than it finds passed.  It accounts for each of them:
as skipped, or for the first of them by launching an instance.
-/

namespace JLibSched.History

open Transition Timer Wheel

variable {s t : Timer.State} {e es log : List Event} {r : Nat}

/-- `FirePeriodicLocked` for the record has returned true. -/
def Event.launchesOf (r : Nat) : Event → Bool
  | .fired r' _ _ launch => r = r' && launch
  | _ => false

def Event.finishes (r : Nat) : Event → Bool
  | .finished r' => r = r'
  | _ => false

/-- The skipped count that `RunPeriodic` has taken for the record. -/
def Event.taken (r : Nat) : Event → Nat
  | .took r' skipped => if r = r' then skipped else 0
  | _ => 0

def launches (log : List Event) (r : Nat) : Nat := log.countP (Event.launchesOf r)

def finishes (log : List Event) (r : Nat) : Nat := log.countP (Event.finishes r)

def taken (log : List Event) (r : Nat) : Nat := (log.map (Event.taken r)).sum

/-- The instances of the record that are in flight. -/
def inFlight (s : State) (r : Nat) : Nat := (s.instances.map Instance.record).count r

theorem launches_append : launches (log ++ e) r = launches log r + launches e r :=
  List.countP_append

theorem finishes_append : finishes (log ++ e) r = finishes log r + finishes e r :=
  List.countP_append

theorem taken_append : taken (log ++ e) r = taken log r + taken e r := by
  unfold taken
  rw [List.map_append, List.sum_append]

/-- What the log says about the record and what the record says. -/
structure Accounts (t : Timer.State) (log : List Event) (r : Nat) : Prop where
  grid : ∀ index first interval, .started r index first interval ∈ log → r < t.records ∧
    (t.record r).interval = interval ∧
    (t.record r).due = first + (launches log r + (t.record r).totalSkipped) * interval
  later : ∀ due now launch, .fired r due now launch ∈ log → now < (t.record r).due
  flights : (t.record r).inFlight.toNat + finishes log r = launches log r
  runs : (t.record r).runs = (t.record r).inFlight.toNat
  skipped : taken log r + (t.record r).pendingSkipped = (t.record r).totalSkipped
  unborn : t.records ≤ r → launches log r = 0 ∧ taken log r = 0 ∧
    ∀ due now launch, .fired r due now launch ∉ log

/-- The fields that the accounts are about. -/
def account (x : PeriodicRecord) : Nat × Nat × Nat × Bool × Nat × Nat :=
  (x.interval, x.due, x.totalSkipped, x.inFlight, x.runs, x.pendingSkipped)

/-- The record and what is said about it stay. -/
theorem Accounts.keep (accounts : Accounts s log r)
    (same : account (t.record r) = account (s.record r)) (records : s.records ≤ t.records)
    (silent : ∀ event ∈ e, Event.launchesOf r event = false ∧ Event.finishes r event = false ∧
      Event.taken r event = 0 ∧ (∀ index first interval, event ≠ .started r index first interval) ∧
      ∀ due now launch, event ≠ .fired r due now launch) : Accounts t (log ++ e) r := by
  simp only [account, Prod.mk.injEq] at same
  obtain ⟨interval, due, total, flight, runs, pending⟩ := same
  have none : launches e r = 0 ∧ finishes e r = 0 ∧ taken e r = 0 := by
    refine ⟨List.countP_eq_zero.mpr fun event mem => ?_, List.countP_eq_zero.mpr fun event mem => ?_,
      List.sum_eq_zero fun n mem => ?_⟩
    · rw [(silent event mem).1]
      exact Bool.false_ne_true
    · rw [(silent event mem).2.1]
      exact Bool.false_ne_true
    · obtain ⟨event, inside, same⟩ := List.mem_map.mp mem
      exact same.symm.trans (silent event inside).2.2.1
  obtain ⟨launched, finished, took⟩ := none
  refine ⟨fun index first step mem => ?_, fun point now launch mem => ?_, ?_, ?_, ?_, fun above => ?_⟩
  · rcases List.mem_append.mp mem with old | new
    · obtain ⟨below, same, grid⟩ := accounts.grid index first step old
      rw [interval, due, total, launches_append, launched]
      exact ⟨Nat.lt_of_lt_of_le below records, same, grid⟩
    · exact absurd rfl ((silent _ new).2.2.2.1 index first step)
  · rw [due]
    rcases List.mem_append.mp mem with old | new
    · exact accounts.later point now launch old
    · exact absurd rfl ((silent _ new).2.2.2.2 point now launch)
  · rw [flight, finishes_append, finished, launches_append, launched]
    exact accounts.flights
  · rw [runs, flight]
    exact accounts.runs
  · rw [taken_append, took, pending, total]
    exact accounts.skipped
  · obtain ⟨never, nothing, silence⟩ := accounts.unborn (Nat.le_trans records above)
    rw [launches_append, launched, taken_append, took]
    refine ⟨never, nothing, fun point now launch mem => ?_⟩
    rcases List.mem_append.mp mem with old | new
    · exact silence point now launch old
    · exact absurd rfl ((silent _ new).2.2.2.2 point now launch)

/-- The record of a periodic that fires. -/
theorem Accounts.fire {i : Nat} (accounts : Accounts s log r) (sound : Sound s)
    (periodic : (s.wheel.entries i).periodic = some r) :
    Accounts (s.firePeriodic i r).1
      (log ++ [.fired r (s.record r).due s.now !(s.record r).inFlight]) r := by
  have known := sound.known i r periodic
  have record : (s.firePeriodic i r).1.record r = (s.record r).fire s.now :=
    Function.update_self ..
  have ahead := lt_nextDue s.now (sound.interval r known)
  have launched : launches [.fired r (s.record r).due s.now !(s.record r).inFlight] r =
      1 - (s.record r).inFlight.toNat := by
    unfold launches
    rw [List.countP_singleton]
    cases (s.record r).inFlight with
    | false => exact if_pos (by simp [Event.launchesOf])
    | true => exact if_neg (by simp [Event.launchesOf])
  have atMost := Bool.toNat_le (s.record r).inFlight
  refine ⟨fun index first step mem => ?_, fun point now launch mem => ?_, ?_, ?_, ?_, fun above => ?_⟩
  · rcases List.mem_append.mp mem with old | new
    · obtain ⟨below, same, grid⟩ := accounts.grid index first step old
      refine ⟨below, record ▸ same, ?_⟩
      have next : (s.record r).nextDue s.now = first + (launches log r + (s.record r).totalSkipped +
          ((s.record r).passed s.now + 1)) * step := by
        unfold PeriodicRecord.nextDue
        rw [grid, same, Nat.add_mul _ ((s.record r).passed s.now + 1)]
        exact Nat.add_assoc _ _ _
      rw [record, launches_append, launched]
      refine next.trans ?_
      have sum : launches log r + (s.record r).totalSkipped + ((s.record r).passed s.now + 1) =
          launches log r + (1 - (s.record r).inFlight.toNat) +
            ((s.record r).totalSkipped + (s.record r).skips s.now) := by
        unfold PeriodicRecord.skips
        omega
      rw [sum]
      rfl
    · cases List.mem_singleton.mp new
  · rw [record]
    rcases List.mem_append.mp mem with old | new
    · have before := accounts.later point now launch old
      exact Nat.lt_of_lt_of_le before (Nat.le_add_right _ _)
    · cases List.mem_singleton.mp new
      exact ahead
  · have flights := accounts.flights
    rw [record, launches_append, launched, finishes_append]
    change 1 + (finishes log r + 0) = _
    omega
  · have runs := accounts.runs
    rw [record]
    change (if (s.record r).inFlight then (s.record r).runs else (s.record r).runs + 1) = 1
    rw [runs]
    cases (s.record r).inFlight <;> rfl
  · have skipped := accounts.skipped
    rw [record, taken_append]
    change taken log r + 0 + ((s.record r).pendingSkipped + _) = (s.record r).totalSkipped + _
    omega
  · exact absurd known (Nat.not_lt.mpr above)

/-- An event that is not about a periodic. -/
theorem Accounts.aside {event : Event} (accounts : Accounts s log r)
    (record : t.record = s.record) (records : t.records = s.records)
    (silent : Event.launchesOf r event = false ∧ Event.finishes r event = false ∧
      Event.taken r event = 0 ∧ (∀ index first interval, event ≠ .started r index first interval) ∧
      ∀ due now launch, event ≠ .fired r due now launch) : Accounts t (log ++ [event]) r := by
  refine accounts.keep (congrArg account (congrFun record r)) (Nat.le_of_eq records.symm)
    fun other mem => ?_
  cases List.mem_singleton.mp mem
  exact silent

theorem Accounts.cancelPeriodic (accounts : Accounts s log r) (r' : Nat) :
    Accounts (s.cancelPeriodic r') (log ++ []) r := by
  have same : account ((s.cancelPeriodic r').record r) = account (s.record r) := by
    unfold State.cancelPeriodic State.setRecord
    rcases eq_or_ne r r' with rfl | other
    · split <;> dsimp only <;> rw [Function.update_self] <;> rfl
    · split <;> dsimp only <;> rw [Function.update_of_ne other]
  refine accounts.keep same (Nat.le_of_eq ?_) fun event mem => (by cases mem)
  unfold State.cancelPeriodic
  split <;> rfl

/-- `Periodic::Start` of a new record, or of another one. -/
theorem Accounts.started (accounts : Accounts s log r) (due interval : Nat) :
    Accounts (started s due interval)
      (log ++ [.started s.records (nextEntry s.wheel) due interval]) r := by
  rcases eq_or_ne r s.records with rfl | other
  · obtain ⟨never, nothing, silence⟩ := accounts.unborn (Nat.le_refl _)
    have record : (History.started s due interval).record s.records =
        ⟨interval, due, 0, 0, some (nextEntry s.wheel), 0, false, false⟩ := Function.update_self ..
    have finished : finishes log s.records = 0 := by
      have flights := accounts.flights
      omega
    refine ⟨fun index first step mem => ?_, fun point now launch mem => ?_, ?_, ?_, ?_,
      fun above => absurd above (Nat.not_succ_le_self _)⟩
    · rcases List.mem_append.mp mem with old | new
      · exact absurd (accounts.grid index first step old).1 (Nat.lt_irrefl _)
      · cases List.mem_singleton.mp new
        rw [record, launches_append, never]
        refine ⟨Nat.lt_succ_self _, rfl, ?_⟩
        change due = due + (0 + 0 + 0) * interval
        rw [Nat.zero_mul]
        rfl
    · rcases List.mem_append.mp mem with old | new
      · exact absurd old (silence point now launch)
      · cases List.mem_singleton.mp new
    · rw [record, finishes_append, finished, launches_append, never]
      rfl
    · rw [record]
      rfl
    · rw [record, taken_append, nothing]
      rfl
  · have same : (History.started s due interval).record r = s.record r :=
      Function.update_of_ne other ..
    refine accounts.keep (congrArg account same) (Nat.le_succ _) fun event mem => ?_
    cases List.mem_singleton.mp mem
    refine ⟨rfl, rfl, rfl, fun _ _ _ same => ?_, fun _ _ _ absurd => (by cases absurd)⟩
    cases same
    exact other rfl

theorem Act.accounts (act : Act s e t) (sound : Sound s) (accounts : Accounts s log r) :
    Accounts t (log ++ e) r := by
  cases act with
  | quiet quiet =>
    exact accounts.keep (congrArg account (congrFun quiet.record r))
      (Nat.le_of_eq quiet.records.symm) fun event mem => (by cases mem)
  | arm d reading delayNs eject past after =>
    exact accounts.aside rfl rfl ⟨rfl, rfl, rfl, fun _ _ _ absurd => (by cases absurd),
      fun _ _ _ absurd => (by cases absurd)⟩
  | start due interval positive => exact accounts.started due interval
  | disarm i on plain | refuse i g ended | collect i on plain due =>
    exact accounts.aside rfl rfl ⟨rfl, rfl, rfl, fun _ _ _ absurd => (by cases absurd),
      fun _ _ _ absurd => (by cases absurd)⟩
  | cancel r' => exact accounts.cancelPeriodic r'
  | fire i r' on periodic due =>
    rcases eq_or_ne r r' with rfl | other
    · exact accounts.fire sound periodic
    · have same : (s.firePeriodic i r').1.record r = s.record r := Function.update_of_ne other ..
      refine accounts.keep (congrArg account same) (Nat.le_refl _) fun event mem => ?_
      cases List.mem_singleton.mp mem
      refine ⟨?_, rfl, rfl, fun _ _ _ absurd => (by cases absurd), fun _ _ _ same => ?_⟩
      · exact Bool.and_eq_false_iff.mpr (.inl (decide_eq_false other))
      · cases same
        exact other rfl

/-! ## Instances -/

/-- The accounts of every record, and the instances that have been launched and have not ended. -/
structure Audited (s : State) : Prop where
  sound : Sound s.timer
  accounts : ∀ r, Accounts s.timer s.log r
  instances : ∀ r, inFlight s r + finishes s.log r = launches s.log r

/-- The instances that events launch. -/
theorem count_launched (es : List Event) (r : Nat) :
    ((launched es).map Instance.record).count r = launches es r := by
  induction es with
  | nil => rfl
  | cons event rest ih =>
    unfold launched launches at *
    rw [List.filterMap_cons, List.countP_cons, ← ih]
    cases event with
    | fired r' due now launch =>
      cases launch with
      | true =>
        simp only [Event.launches, List.map_cons, List.count_cons, Event.launchesOf,
          Bool.and_true, beq_iff_eq, decide_eq_true_eq]
        exact congrArg _ (if_congr eq_comm rfl rfl)
      | false => simp [Event.launches, Event.launchesOf]
    | armed | disarmed | collected | started | took | finished => rfl

/-- A section of the timer queue ends no instance. -/
theorem Acts.finish (acts : Acts s es t) (r : Nat) : finishes es r = 0 := by
  induction acts with
  | none => rfl
  | next first act ih =>
    rw [finishes_append, ih]
    cases act <;> rfl

/-- An event that starts and fires nothing, and what it is in the accounts of the record. -/
theorem Accounts.note {event : Event} (accounts : Accounts s log r) (records : t.records = s.records)
    (interval : (t.record r).interval = (s.record r).interval)
    (due : (t.record r).due = (s.record r).due)
    (total : (t.record r).totalSkipped = (s.record r).totalSkipped)
    (launched : Event.launchesOf r event = false)
    (starts : ∀ index first interval, event ≠ .started r index first interval)
    (fires : ∀ due now launch, event ≠ .fired r due now launch)
    (flights : (t.record r).inFlight.toNat + finishes (log ++ [event]) r = launches log r)
    (runs : (t.record r).runs = (t.record r).inFlight.toNat)
    (skipped : taken (log ++ [event]) r + (t.record r).pendingSkipped = (t.record r).totalSkipped)
    (born : r < s.records) : Accounts t (log ++ [event]) r := by
  have none : launches [event] r = 0 := by
    unfold launches
    rw [List.countP_singleton, launched]
    rfl
  refine ⟨fun index first step mem => ?_, fun point now launch mem => ?_, ?_, runs, skipped,
    fun above => absurd born (Nat.not_lt.mpr (records ▸ above))⟩
  · rcases List.mem_append.mp mem with old | new
    · obtain ⟨below, same, grid⟩ := accounts.grid index first step old
      rw [records, interval, due, total, launches_append, none]
      exact ⟨below, same, grid⟩
    · exact absurd (List.mem_singleton.mp new).symm (starts index first step)
  · rw [due]
    rcases List.mem_append.mp mem with old | new
    · exact accounts.later point now launch old
    · exact absurd (List.mem_singleton.mp new).symm (fires point now launch)
  · rw [flights, launches_append, none]
    rfl

/-- The section of `RunPeriodic`. -/
theorem Accounts.takeSkipped {r' : Nat} (accounts : Accounts s log r) (known : r' < s.records) :
    Accounts (s.takeSkipped r') (log ++ [.took r' (s.record r').pendingSkipped]) r := by
  rcases eq_or_ne r r' with rfl | other
  · have record : (s.takeSkipped r).record r = { s.record r with pendingSkipped := 0 } :=
      Function.update_self ..
    refine accounts.note rfl (by rw [record]) (by rw [record]) (by rw [record]) rfl
      (fun _ _ _ absurd => (by cases absurd)) (fun _ _ _ absurd => (by cases absurd)) ?_ ?_ ?_ known
    · rw [record, finishes_append]
      exact accounts.flights
    · rw [record]
      exact accounts.runs
    · have skipped := accounts.skipped
      have took : taken [.took r (s.record r).pendingSkipped] r = (s.record r).pendingSkipped := by
        simp [taken, Event.taken]
      rw [record, taken_append, took]
      exact skipped
  · have same : (s.takeSkipped r').record r = s.record r := Function.update_of_ne other ..
    refine accounts.keep (congrArg account same) (Nat.le_refl _) fun event mem => ?_
    cases List.mem_singleton.mp mem
    exact ⟨rfl, rfl, if_neg other, fun _ _ _ absurd => (by cases absurd),
      fun _ _ _ absurd => (by cases absurd)⟩

/-- The section of `FinishPeriodic`. -/
theorem Accounts.finishPeriodic {r' : Nat} {stop : Bool} (accounts : Accounts s log r)
    (flying : (s.record r').inFlight = true) (known : r' < s.records) :
    Accounts (s.finishPeriodic r' stop) (log ++ [.finished r']) r := by
  have stopped : Accounts (if stop then s.cancelPeriodic r' else s) log r := by
    cases stop with
    | false => exact accounts
    | true =>
      have cancelled := accounts.cancelPeriodic r'
      rw [List.append_nil] at cancelled
      exact cancelled
  have flight : ((if stop then s.cancelPeriodic r' else s).record r').inFlight = true ∧
      (if stop then s.cancelPeriodic r' else s).records = s.records := by
    cases stop with
    | false => exact ⟨flying, rfl⟩
    | true =>
      rw [if_pos rfl]
      unfold State.cancelPeriodic State.setRecord
      split <;> dsimp only <;> rw [Function.update_self] <;> exact ⟨flying, rfl⟩
  unfold State.finishPeriodic
  obtain ⟨flying, records⟩ := flight
  generalize (if stop then s.cancelPeriodic r' else s) = u at *
  rw [← records] at known
  rcases eq_or_ne r r' with rfl | other
  · have record : (u.setRecord r fun x => { x with inFlight := false, runs := x.runs - 1 }).record r =
        { u.record r with inFlight := false, runs := (u.record r).runs - 1 } :=
      Function.update_self ..
    refine stopped.note rfl (by rw [record]) (by rw [record]) (by rw [record]) rfl
      (fun _ _ _ absurd => (by cases absurd)) (fun _ _ _ absurd => (by cases absurd)) ?_ ?_ ?_ known
    · have flights := stopped.flights
      have finished : finishes [.finished r] r = 1 := by simp [finishes, Event.finishes]
      rw [flying] at flights
      rw [record, finishes_append, finished, ← flights, Nat.add_comm true.toNat]
      exact Nat.zero_add _
    · have runs := stopped.runs
      rw [flying] at runs
      rw [record, runs]
      rfl
    · rw [record, taken_append]
      exact stopped.skipped
  · have same : (u.setRecord r' fun x => { x with inFlight := false, runs := x.runs - 1 }).record r =
        u.record r := Function.update_of_ne other ..
    refine stopped.keep (congrArg account same) (Nat.le_refl _) fun event mem => ?_
    cases List.mem_singleton.mp mem
    exact ⟨rfl, decide_eq_false other, rfl, fun _ _ _ absurd => (by cases absurd),
      fun _ _ _ absurd => (by cases absurd)⟩

/-! ## Runs -/

theorem initial_audited : Audited initial :=
  ⟨initial_sound, fun _ => ⟨fun _ _ _ none => (by cases none), fun _ _ _ none => (by cases none),
    rfl, rfl, rfl, fun _ => ⟨rfl, rfl, fun _ _ _ none => (by cases none)⟩⟩, fun _ => rfl⟩

/-- An instance in flight is accounted for by its record. -/
theorem Audited.flying {s : State} {k : Nat} {i : Instance} (audited : Audited s)
    (found : s.instances[k]? = some i) :
    (s.timer.record i.record).inFlight = true ∧ i.record < s.timer.records := by
  have mem := List.mem_map_of_mem (f := Instance.record) (List.mem_of_getElem? found)
  have some : 0 < inFlight s i.record := List.count_pos_iff.mpr mem
  have instances := audited.instances i.record
  have accounts := audited.accounts i.record
  have flights := accounts.flights
  constructor
  · cases flying : (s.timer.record i.record).inFlight with
    | true => rfl
    | false =>
      rw [flying, Bool.toNat_false] at flights
      omega
  · by_contra above
    have never := (accounts.unborn (Nat.not_lt.mp above)).1
    omega

/-- An instance ends. -/
theorem Audited.finish {s : State} {k : Nat} {i : Instance} (audited : Audited s)
    (found : s.instances[k]? = some i) (stop : Bool) :
    Audited { timer := s.timer.finishPeriodic i.record stop, log := s.log ++ [.finished i.record],
              instances := s.instances.eraseIdx k } := by
  obtain ⟨flying, known⟩ := audited.flying found
  have sound : Sound (s.timer.finishPeriodic i.record stop) := by
    unfold State.finishPeriodic
    refine Sound.setRecord ?_ ⟨rfl, rfl⟩
    cases stop with
    | false => exact audited.sound
    | true => exact (audited.sound.cancelPeriodic i.record).1
  refine ⟨sound, fun r => (audited.accounts r).finishPeriodic flying known, fun r => ?_⟩
  have instances := audited.instances r
  obtain ⟨below, here⟩ := List.getElem?_eq_some_iff.mp found
  have perm := (List.getElem_cons_eraseIdx_perm below).map Instance.record
  have count := perm.count_eq r
  rw [List.map_cons, List.count_cons, here] at count
  unfold inFlight at *
  rw [finishes_append, launches_append]
  have ended : finishes [.finished i.record] r = if i.record == r then 1 else 0 := by
    unfold finishes
    rw [List.countP_singleton]
    have same : Event.finishes r (.finished i.record) = (i.record == r) := by
      change decide (r = i.record) = decide (i.record = r)
      exact decide_eq_decide.mpr eq_comm
    rw [same]
  have none : launches [.finished i.record] r = 0 := rfl
  dsimp only
  omega

theorem Audited.preserved {s t : State} {a : Label} (audited : Audited s)
    (stepped : step s a = some t) : Audited t := by
  cases a with
  | timer a =>
    simp only [step] at stepped
    split at stepped
    · cases stepped
    rename_i other
    obtain ⟨u, moved, rfl⟩ := Option.map_eq_some_iff.mp stepped
    have acts := step_acts audited.sound (Bool.eq_false_iff.mpr other) moved
    have kept := acts.keep (I := fun u log => Sound u ∧ ∀ r, Accounts u log r)
      ⟨audited.sound, audited.accounts⟩ fun act known =>
        ⟨act.sound known.1, fun r => act.accounts known.1 (known.2 r)⟩
    refine ⟨kept.1, kept.2, fun r => ?_⟩
    have instances := audited.instances r
    have launched := count_launched (events s.timer a) r
    unfold inFlight at *
    dsimp only
    rw [List.map_append, List.count_append, finishes_append, launches_append, acts.finish, launched]
    omega
  | begins k =>
    simp only [step] at stepped
    split at stepped <;> cases stepped
    rename_i r found
    obtain ⟨flying, known⟩ := audited.flying found
    have sound : Sound (s.timer.takeSkipped r) := audited.sound.setRecord ⟨rfl, rfl⟩
    refine ⟨sound, fun r' => (audited.accounts r').takeSkipped known,
      fun r' => ?_⟩
    have same : (s.instances.set k ⟨r, true⟩).map Instance.record =
        s.instances.map Instance.record := by
      obtain ⟨below, here⟩ := List.getElem?_eq_some_iff.mp found
      have self : (s.instances.map Instance.record).set k _ = _ :=
        List.set_getElem_self (by rw [List.length_map]; exact below)
      rw [List.getElem_map, here] at self
      rw [List.map_set]
      exact self
    unfold inFlight
    dsimp only
    rw [same, finishes_append, launches_append]
    exact audited.instances r'
  | ends k stop =>
    simp only [step] at stepped
    split at stepped <;> cases stepped
    rename_i found
    exact audited.finish found stop
  | fails k =>
    simp only [step] at stepped
    split at stepped <;> cases stepped
    rename_i found
    exact audited.finish found false

/-- The accounts of a periodic that was started with the first grid point `first`. -/
theorem periodic_accounts {s : State} {r index first interval : Nat}
    (reach : Reach step anyStep initial s)
    (started : .started r index first interval ∈ s.log) :
    (s.timer.record r).due =
      first + (launches s.log r + (s.timer.record r).totalSkipped) * interval ∧
    {j | first + j * interval < (s.timer.record r).due}.ncard =
      launches s.log r + (s.timer.record r).totalSkipped ∧
    (∀ due now launch, .fired r due now launch ∈ s.log → now < (s.timer.record r).due) ∧
    inFlight s r ≤ 1 ∧
    taken s.log r + (s.timer.record r).pendingSkipped = (s.timer.record r).totalSkipped := by
  have audited : Audited s :=
    reach.invariant initial_audited fun audited _ stepped => audited.preserved stepped
  have accounts := audited.accounts r
  obtain ⟨below, same, grid⟩ := accounts.grid index first interval started
  have positive : 0 < interval := same ▸ audited.sound.interval r below
  refine ⟨grid, ?_, accounts.later, ?_, accounts.skipped⟩
  · have before : {j | first + j * interval < (s.timer.record r).due} =
        Set.Iio (launches s.log r + (s.timer.record r).totalSkipped) := by
      ext j
      rw [Set.mem_ofPred_eq, grid, Set.mem_Iio, Nat.add_lt_add_iff_left,
        Nat.mul_lt_mul_right positive]
    rw [before, ← Finset.coe_Iio, Set.ncard_coe_finset, Nat.card_Iio]
  · have instances := audited.instances r
    have flights := accounts.flights
    have atMost := Bool.toNat_le (s.timer.record r).inFlight
    omega

/-- A periodic of two milliseconds fires two points late; its instance is still in flight when the
next point passes, and then takes what was skipped. -/
def skippedLabels : List Label :=
  [.timer (.start 0 0 2000000 2000000), .timer (.pollFire 7000000 []), .begins 0,
    .timer (.pollFire 2000000 []), .ends 0 false, .timer (.pollFire 2000000 []), .begins 0]

def skippedRun : State := (run step anyStep initial skippedLabels).getD initial

theorem skippedRun_reach : Reach step anyStep initial skippedRun :=
  Reach.of_isSome skippedLabels (by decide +kernel)

theorem skippedRun_accounts : taken skippedRun.log 0 + (skippedRun.timer.record 0).pendingSkipped =
    (skippedRun.timer.record 0).totalSkipped :=
  (@periodic_accounts skippedRun 0 0 2000000 2000000 skippedRun_reach
    (by decide +kernel)).2.2.2.2

end JLibSched.History
