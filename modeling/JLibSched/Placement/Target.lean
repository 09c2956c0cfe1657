import JLibSched.Placement.Pick

/-!
# Placing unplaced work

`PushTarget` and `Requeue` put a task into the inbox of the worker that `PickNextWorker` returns, and
mark and notify it.  The index passes through a `uint8_t` on the way, so it arrives exactly when it
is below 256 (`placed_where_picked_iff`).
-/

namespace JLibSched.Placement

open Transition Idle

/-- What the placement reads of a task. -/
structure Placeable where
  lane : Lane
  started : Bool
  /-- `record->pinTo`. -/
  pinTo : UInt16
deriving DecidableEq, Repr

/-- `Pin::kMain`. -/
def kMain : UInt16 := 0xFFFD

/-- `TaskRecord::kNoPin`. -/
def kNoPin : UInt16 := 0xFFFF

/-- What the placement reads of the scheduler beside the pool. -/
structure Env where
  injectorEnabled : Bool
  /-- `PushInjector` takes the task. -/
  injectorTakes : Bool
  /-- The caller is main in the pool. -/
  callerIsMain : Bool
  siblingQIndex : List Int
  /-- The deque holds more than `kFatDeque` tasks. -/
  fat : Nat → Bool

/-- What a placement does, in this order. -/
inductive Action where
  /-- `PickNextWorker` returned. -/
  | picked (q : Nat)
  | injector
  | inbox (q : Nat)
  | hiPriInbox (q : Nat)
  | ownDeque
  | mainQueue
  | marked (q : Nat)
  | notified (q : Nat)
deriving DecidableEq, Repr

/-- `RequeueResult`. -/
inductive RequeueResult where
  | failed
  | pinned
  | stealable
deriving DecidableEq, Repr

/-- What a placement leaves. -/
structure Placed (n : Nat) where
  pool : Pool n
  actions : List Action

variable {n : Nat}

/-- `NotifyWorker`: main waits on a word of its own. -/
def Pool.notifyWorker (s : Pool n) (mainInPool : Bool) (q : Nat) : Pool n :=
  { s with idle := { s.idle with
    parked := fun r => s.idle.parked r && !(decide ((r : Nat) = q) && !(mainInPool && q == 0)) } }

/-- `MarkQueuedWork` and `NotifyWorker` after a push. -/
def announce (q : Nat) : List Action := [.marked q, .notified q]

/-- `MaybeBuddyWake`, and whom it wakes. -/
def maybeBuddyWake (env : Env) (s : Pool n) (k : Nat) : Option Nat :=
  match env.siblingQIndex[k]? with
  | none => none
  | some sib =>
    if sib < 0 ∨ sib = k then none
    else if h : sib.toNat < n then
      if env.fat k && s.idle.idleLinked ⟨sib.toNat, h⟩ then some sib.toNat else none
    else none

/-- `PushTo` a worker. -/
def pushTo (c : Setup) (s : Pool c.workers) (worker : Nat) : Option (Placed c.workers) :=
  if worker ≥ c.workers then none
  else some ⟨s.notifyWorker c.mainInPool worker, .hiPriInbox worker :: announce worker⟩

/-- `PushMainQueue`. -/
def pushMainQueue (c : Setup) (s : Pool c.workers) : Placed c.workers :=
  if c.mainInPool then (pushTo c s 0).getD ⟨s, []⟩ else ⟨s, [.mainQueue]⟩

/-- The latency intake takes the task. -/
def takenIn (c : Setup) (env : Env) (task : Placeable) : Bool :=
  decide (task.lane = .lowLatency) && decide (c.getHotWorkers ≠ 0) && env.injectorEnabled &&
    env.injectorTakes

/-- The worker that a picked index is narrowed to. -/
def chosen (q : Nat) : Nat := q % 256

/-- `PushTarget`; no worker stands for `kAnyWorker`. -/
def pushTarget (c : Setup) (env : Env) (fuel : Nat) (s : Pool c.workers) (task : Placeable)
    (worker : Option Nat) : Option (Placed c.workers) :=
  match worker.filter (· < c.workers) with
  | some idx =>
    let useHi := decide (task.lane = .lowLatency) && decide (c.getHotWorkers ≠ 0)
    some ⟨s.notifyWorker c.mainInPool idx,
      (if useHi then .hiPriInbox idx else .inbox idx) :: announce idx⟩
  | none =>
    if takenIn c env task then some ⟨s, [.injector]⟩
    else
      (pickNextWorker c fuel s .normal).map fun (q, s) =>
        let chosen := chosen q
        if chosen = 0 ∧ c.mainInPool = true ∧ env.callerIsMain = true then
          ⟨s, [.picked q, .ownDeque]⟩
        else
          let s := s.notifyWorker c.mainInPool chosen
          match maybeBuddyWake env s chosen with
          | some sib => ⟨s.notifyWorker c.mainInPool sib,
              [.picked q, .inbox chosen, .marked chosen, .notified chosen, .notified sib]⟩
          | none => ⟨s, [.picked q, .inbox chosen, .marked chosen, .notified chosen]⟩

/-- `Requeue`. -/
def requeue (c : Setup) (env : Env) (fuel : Nat) (s : Pool c.workers) (task : Placeable) :
    Option (RequeueResult × Placed c.workers) :=
  if task.pinTo = kMain then some (.pinned, pushMainQueue c s)
  else
    match if task.pinTo ≠ kNoPin then pushTo c s task.pinTo.toNat else none with
    | some placed => some (.pinned, placed)
    | none =>
      if task.started then (pushTarget c env fuel s task none).map fun placed => (.stealable, placed)
      else if takenIn c env task then some (.stealable, ⟨s, [.injector]⟩)
      else
        (pickNextWorker c fuel s .normal).map fun (q, s) =>
          let chosen := chosen q
          (.pinned, ⟨s.notifyWorker c.mainInPool chosen,
            [.picked q, .inbox chosen, .marked chosen, .notified chosen]⟩)

/-- The calls that place a task without a worker to go to. -/
inductive Call where
  | pushTarget (task : Placeable)
  | requeue (task : Placeable)

/-- A call places its task so. -/
def Places (c : Setup) (env : Env) (s : Pool c.workers) (placed : Placed c.workers) : Call → Prop
  | .pushTarget task => ∃ fuel, pushTarget c env fuel s task none = some placed
  | .requeue task => ∃ fuel result, requeue c env fuel s task = some (result, placed)

/-- Worker `q` gets the task: it is in its inbox and the worker is told, or main has kept it. -/
inductive GoesTo (c : Setup) (env : Env) (q : Nat) : List Action → Prop where
  | inbox (buddy : List Action)
      (sibling : ∀ a ∈ buddy, ∃ sib : Nat, a = .notified sib ∧
        env.siblingQIndex[q]? = some (sib : Int)) :
      GoesTo c env q ([.picked q, .inbox q, .marked q, .notified q] ++ buddy)
  | deque (main : c.mainInPool = true ∧ env.callerIsMain = true) (zero : q = 0) :
      GoesTo c env q [.picked q, .ownDeque]


variable {c : Setup} {env : Env} {s : Pool c.workers} {placed : Placed c.workers} {q : Nat}

/-! ## After the pick -/

theorem chosen_of_small (small : q < 256) : chosen q = q := Nat.mod_eq_of_lt small

/-- The task goes where the narrowed index says. -/
theorem goesTo_iff (buddy : List Action)
    (sibling : ∀ a ∈ buddy, ∃ sib : Nat, a = .notified sib ∧
      env.siblingQIndex[chosen q]? = some (sib : Int)) :
    GoesTo c env q
      ([.picked q, .inbox (chosen q), .marked (chosen q), .notified (chosen q)] ++ buddy) ↔
        q < 256 := by
  constructor
  · intro goes
    generalize listed : [Action.picked q, .inbox (chosen q), .marked (chosen q),
      .notified (chosen q)] ++ buddy = actions at goes
    cases goes with
    | inbox buddy' sibling' =>
      have same : chosen q = q := by
        have second := congrArg (fun l => l[1]?) listed
        simpa using second
      exact same ▸ Nat.mod_lt q (by decide)
    | deque main zero => cases listed
  · intro small
    rw [chosen_of_small small] at sibling ⊢
    exact .inbox buddy sibling

theorem maybeBuddyWake_sibling {k sib : Nat} {s : Pool n} (wakes : maybeBuddyWake env s k = some sib) :
    env.siblingQIndex[k]? = some (sib : Int) := by
  unfold maybeBuddyWake at wakes
  split at wakes
  · cases wakes
  · rename_i index here
    split at wakes
    · cases wakes
    · rename_i valid
      split at wakes
      · split at wakes
        · cases wakes
          rw [here, Int.toNat_of_nonneg (by omega)]
        · cases wakes
      · cases wakes

theorem pushTarget_goesTo {fuel : Nat} {task : Placeable}
    (pushed : pushTarget c env fuel s task none = some placed) (picked : .picked q ∈ placed.actions) :
    Picks c s .normal q ∧ (GoesTo c env q placed.actions ↔ q < 256) := by
  simp only [pushTarget, Option.filter_none] at pushed
  split at pushed
  · cases pushed
    simp at picked
  · obtain ⟨⟨r, t⟩, found, rfl⟩ := Option.map_eq_some_iff.mp pushed
    simp only at picked ⊢
    split at picked
    · rename_i kept
      rw [if_pos kept]
      have same : q = r := by simpa using picked
      subst same
      refine ⟨⟨fuel, t, found⟩, ?_⟩
      constructor
      · intro goes
        cases goes with
        | deque main zero => omega
      · intro small
        rw [chosen_of_small small] at kept
        exact .deque ⟨kept.2.1, kept.2.2⟩ kept.1
    · rename_i sent
      rw [if_neg sent]
      split at picked
      · rename_i sib wakes
        have same : q = r := by simpa using picked
        subst same
        refine ⟨⟨fuel, t, found⟩, goesTo_iff [.notified sib] fun a mem => ?_⟩
        exact ⟨sib, List.mem_singleton.mp mem, maybeBuddyWake_sibling wakes⟩
      · have same : q = r := by simpa using picked
        subst same
        exact ⟨⟨fuel, t, found⟩, goesTo_iff [] fun a mem => by cases mem⟩

theorem pushTo_picked {worker : Nat} (pushed : pushTo c s worker = some placed) :
    .picked q ∉ placed.actions := by
  unfold pushTo at pushed
  split at pushed
  · cases pushed
  · cases pushed
    simp [announce]

theorem pushMainQueue_picked : .picked q ∉ (pushMainQueue c s).actions := by
  unfold pushMainQueue
  split
  · cases pushed : pushTo c s 0 with
    | none => simp
    | some placed => exact pushTo_picked pushed
  · simp

theorem requeue_goesTo {fuel : Nat} {task : Placeable} {result : RequeueResult}
    (requeued : requeue c env fuel s task = some (result, placed))
    (picked : .picked q ∈ placed.actions) :
    Picks c s .normal q ∧ (GoesTo c env q placed.actions ↔ q < 256) := by
  unfold requeue at requeued
  split at requeued
  · cases requeued
    exact absurd picked pushMainQueue_picked
  · split at requeued
    · rename_i there
      cases requeued
      split at there
      · exact absurd picked (pushTo_picked there)
      · cases there
    · split at requeued
      · obtain ⟨_, pushed, same⟩ := Option.map_eq_some_iff.mp requeued
        cases same
        exact pushTarget_goesTo pushed picked
      · split at requeued
        · cases requeued
          simp at picked
        · obtain ⟨⟨r, t⟩, found, same⟩ := Option.map_eq_some_iff.mp requeued
          cases same
          have same : q = r := by simpa using picked
          subst same
          exact ⟨⟨fuel, t, found⟩, goesTo_iff [] fun a mem => by cases mem⟩

theorem Places.goesTo {call : Call} (places : Places c env s placed call)
    (picked : .picked q ∈ placed.actions) :
    Picks c s .normal q ∧ (GoesTo c env q placed.actions ↔ q < 256) := by
  cases call with
  | pushTarget task =>
    obtain ⟨fuel, pushed⟩ := places
    exact pushTarget_goesTo pushed picked
  | requeue task =>
    obtain ⟨fuel, result, requeued⟩ := places
    exact requeue_goesTo requeued picked

/-! ## Which pools -/

/-- A pick is a compute worker. -/
theorem picks_lt (positive : 0 < c.workers) (picks : Picks c s .normal q) : q < c.computeN := by
  obtain ⟨fuel, t, picked⟩ := picks
  have bound := pick_lt positive picked
  rwa [if_neg (fun absurd => by cases absurd.1)] at bound

/-- Nobody is parked or away, a hunter is about, and the counter stands at 256. -/
def drawn256 (n : Nat) : Pool n := { initial n with searching := 1, nextWorker := 256 }

/-- A normal task without a pin. -/
def plainTask : Placeable := ⟨.normal, false, kNoPin⟩

def plainEnv : Env := ⟨false, false, false, [], fun _ => false⟩

theorem drawn256_picks (large : 256 < c.computeN) :
    Picks c (drawn256 c.workers) .normal 256 := by
  have workers : c.computeN ≤ c.workers := by
    unfold Setup.computeN
    split <;> omega
  have popped : Popped (drawn256 c.workers) [] := by
    rw [Popped, if_neg (show (drawn256 c.workers).searching ≠ 0 from Nat.one_ne_zero)]
  obtain ⟨t, picks, away, linked⟩ := popped.picks (Nat.zero_lt_of_lt large)
  have start : (drawn256 c.workers).start = 256 := rfl
  rw [start] at picks
  have round : scanned c.computeN 256 0 = 256 := Nat.mod_eq_of_lt large
  have stops : t.stops 256 = true := by
    unfold Pool.stops
    rw [dif_pos (by omega), away, linked]
    rfl
  have first : (List.range c.computeN).find? (fun i => t.stops (scanned c.computeN 256 i)) =
      some 0 := by
    refine List.find?_range_eq_some.mpr ⟨by rw [round, stops], List.mem_range.mpr (by omega), ?_⟩
    intro i below
    omega
  have found : scan c.computeN 256 t = 256 := by
    unfold scan
    rw [first]
    exact round
  exact found ▸ picks

theorem drawn256_places (large : 256 < c.computeN) : ∃ placed,
    Places c plainEnv (drawn256 c.workers) placed (.pushTarget plainTask) ∧
      .picked 256 ∈ placed.actions := by
  obtain ⟨fuel, t, found⟩ := drawn256_picks large
  refine ⟨⟨t.notifyWorker c.mainInPool 0, [.picked 256, .inbox 0, .marked 0, .notified 0]⟩,
    ⟨fuel, ?_⟩, by simp⟩
  simp [pushTarget, found, takenIn, plainTask, plainEnv, chosen, maybeBuddyWake]

/-- A placed task goes to the picked worker exactly when its index fits into a `uint8_t`, so
without exception exactly in a pool of at most 256 compute workers. -/
theorem placed_where_picked_iff (c : Setup) (positive : 0 < c.workers) :
    (∀ env s placed call q, Places c env s placed call → .picked q ∈ placed.actions →
      (GoesTo c env q placed.actions ↔ q < 256)) ∧
    ((∀ env s placed call q, Places c env s placed call → .picked q ∈ placed.actions →
      GoesTo c env q placed.actions) ↔ c.computeN ≤ 256) := by
  refine ⟨fun env s placed call q places picked => (places.goesTo picked).2, ?_⟩
  constructor
  · intro goes
    by_contra large
    obtain ⟨placed, places, picked⟩ := drawn256_places (Nat.lt_of_not_le large)
    exact absurd ((places.goesTo picked).2.mp (goes _ _ _ _ 256 places picked)) (by decide)
  · intro small env s placed call q places picked
    obtain ⟨picks, iff⟩ := places.goesTo picked
    exact iff.mpr (Nat.lt_of_lt_of_le (picks_lt positive picks) small)

/-- 257 compute workers. -/
abbrev large : Setup := ⟨257, 0, false⟩

theorem large_placed_where_picked_iff :
    (∀ env s placed call q, Places large env s placed call → .picked q ∈ placed.actions →
      (GoesTo large env q placed.actions ↔ q < 256)) ∧
    ((∀ env s placed call q, Places large env s placed call → .picked q ∈ placed.actions →
      GoesTo large env q placed.actions) ↔ large.computeN ≤ 256) :=
  placed_where_picked_iff large (by decide)

/-- Worker 256 is picked, and worker 0 gets the task. -/
theorem placed_elsewhere : ¬ ∀ (c : Setup), 0 < c.workers → ∀ env s placed call q,
    Places c env s placed call → .picked q ∈ placed.actions → GoesTo c env q placed.actions := by
  intro goes
  obtain ⟨placed, places, picked⟩ := drawn256_places (c := large) (by decide)
  have goesTo := goes large (by decide) _ _ _ _ 256 places picked
  exact absurd ((places.goesTo picked).2.mp goesTo) (by decide)

end JLibSched.Placement
