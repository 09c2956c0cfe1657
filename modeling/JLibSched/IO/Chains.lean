import JLibSched.IO.Stream
import JLibSched.Lib.Holding

/-!
# No request of a stream is stranded

Each busy chain is in the hands of one place: the caller or the pump that submits for it or
advances it, or the ring.  When every request is taken in its turn, each request that is to be
waited for stands in one place until it is woken (`due`), and whoever has its chain in hand
comes to it.

A request that is refused in its turn gets its result from `SubmitPrepared` and is then
forgotten: `SubmitOne` goes on to the next one, and nobody wakes it.
-/

namespace JLibSched.Stream

open Transition Holding

variable {c : Setup} {s t : State} {a : Label}

/-! ## Accounts -/

abbrev Holders := Kind → Option (Place × Option Nat)

/-- The request that is submitted for a chain. -/
def Holders.carried (g : Holders) (kind : Kind) : Option Nat := (g kind).bind Prod.snd

/-- How often a request is queued or submitted. -/
def unfinished (c : Setup) (s : State) (g : Holders) (k : Nat) : Nat :=
  (s.chain (c.call k).kind).queue.count k + if g.carried (c.call k).kind = some k then 1 else 0

/-- How often a request is still to be woken, or was. -/
def due (c : Setup) (s : State) (g : Holders) (k : Nat) : Nat :=
  unfinished c s g k + (if s.pump.completing = some k then 1 else 0) + s.batch.count k + s.woken k

/-- How often a caller's request is to be woken in all. -/
def CallerPc.owed : CallerPc → Nat
  | .work _ false | .returned false => 1
  | _ => 0

/-- What was completed stays so. -/
theorem due_unfinished (c : Setup) (g g' : Holders)
    (completing : t.pump.completing = s.pump.completing)
    (batch : t.batch = s.batch) (woken : t.woken = s.woken) (k : Nat) :
    due c t g' k + unfinished c s g k = due c s g k + unfinished c t g' k := by
  unfold due
  rw [completing, batch, woken]
  omega

structure Inv (c : Setup) (s : State) (g : Holders) : Prop where
  tracks : Tracks (serving c s) g
  busy : ∀ kind, (s.chain kind).busy = (g kind).isSome
  idle : ∀ kind, g kind = none → (s.chain kind).queue = []
  alone : ∀ r, s.ring r ≤ 1
  account : ∀ k, due c s g k = (s.caller k).owed
  own : ∀ k w, s.caller k = .work w false → ∃ stage, w = .prepare stage k
  kinds : ∀ kind, ∀ k ∈ (s.chain kind).queue, (c.call k).kind = kind
  written : ∀ k, s.pump.completing = some k ∨ k ∈ s.batch ∨ s.woken k ≠ 0 → s.out k ≠ none
  filled : ∀ k, s.caller k = .lock ∨ (s.caller k).owed = 1 → s.bufs k ≠ []
  order : ∀ kind, s.arrived kind = s.started kind ++ (s.chain kind).queue

theorem initial_inv (c : Setup) : Inv c initial fun _ => none where
  tracks p kind r := by cases p <;> simp [serving, initial]
  busy _ := rfl
  idle _ _ := rfl
  alone _ := Nat.zero_le 1
  account k := by simp [due, unfinished, initial, Holders.carried, PumpPc.completing, CallerPc.owed]
  own k w here := by cases here
  kinds kind k mem := by cases mem
  written k some := by simp [initial, PumpPc.completing] at some
  filled k some := by simp [initial, CallerPc.owed] at some
  order _ := rfl

/-- What the invariant says of requests that are not stranded. -/
theorem Inv.served {g : Holders} (inv : Inv c s g) : Served c s where
  once k := by
    have account := inv.account k
    have bound : (s.caller k).owed ≤ 1 := by
      unfold CallerPc.owed
      split <;> omega
    unfold due at account
    omega
  written k some := inv.written k (.inr (.inr some))
  immediate k here := by
    have account := inv.account k
    rw [here] at account
    simp only [due, CallerPc.owed] at account
    omega
  pending k here none := by
    have account := inv.account k
    rw [here] at account
    simp only [due, unfinished, CallerPc.owed, none] at account
    by_cases queued : k ∈ (s.chain (c.call k).kind).queue
    · exact .inl queued
    · right
      rw [List.count_eq_zero.mpr queued] at account
      by_cases carried : g.carried (c.call k).kind = some k
      · obtain ⟨⟨p, r⟩, held, same⟩ := Option.bind_eq_some_iff.mp carried
        cases (same : r = some k)
        exact .inl ⟨p, _, (inv.tracks _ _ _).mpr held⟩
      · by_cases completing : s.pump.completing = some k
        · exact .inr (.inl completing)
        · rw [if_neg carried, if_neg completing] at account
          exact .inr (.inr (List.count_pos_iff.mp (by omega)))
  single kind p q mine yours := by
    obtain ⟨r, mine⟩ := mine
    obtain ⟨r', yours⟩ := yours
    exact inv.tracks.single mine yours
  alone := inv.alone
  busy kind := by
    rw [inv.busy kind, inv.tracks.isSome_iff]
    rfl
  idle kind free := by
    rw [inv.busy kind, Option.isSome_eq_false_iff, Option.isNone_iff_eq_none] at free
    exact inv.idle kind free
  order := inv.order

/-! ## Who serves a chain -/

def CallerPc.serving (c : Setup) : CallerPc → Option (Kind × Option Nat)
  | .work w _ => some (w.kind c, w.request)
  | _ => none

def PumpPc.serving (c : Setup) : PumpPc → Option (Kind × Option Nat)
  | .resubmit _ r | .publish r _ => some ((c.call r).kind, some r)
  | .advancing _ w => some (w.kind c, w.request)
  | _ => none

theorem serving_caller (c : Setup) (s : State) (k : Nat) :
    serving c s (.caller k) = (s.caller k).serving c := by
  simp only [serving]
  cases s.caller k <;> rfl

theorem serving_pump (c : Setup) (s : State) : serving c s .pump = s.pump.serving c := by
  simp only [serving]
  cases s.pump <;> rfl

theorem serving_ring (c : Setup) (s : State) (r : Nat) :
    serving c s (.ring r) = if s.ring r ≠ 0 then some ((c.call r).kind, some r) else none := rfl

theorem serving_same (callers : ∀ k, (t.caller k).serving c = (s.caller k).serving c)
    (pump : t.pump.serving c = s.pump.serving c) (ring : t.ring = s.ring) :
    serving c t = serving c s := by
  funext p
  cases p with
  | caller k => rw [serving_caller, serving_caller, callers]
  | ring r => rw [serving_ring, serving_ring, ring]
  | pump => rw [serving_pump, serving_pump, pump]

theorem serving_caller_update {k : Nat} {pc : CallerPc}
    (callers : t.caller = Function.update s.caller k pc) (pump : t.pump = s.pump)
    (ring : t.ring = s.ring) :
    serving c t = Function.update (serving c s) (.caller k) (pc.serving c) := by
  funext p
  cases p with
  | caller j =>
    rcases eq_or_ne j k with rfl | other
    · rw [serving_caller, callers, Function.update_self, Function.update_self]
    · rw [serving_caller, callers, Function.update_of_ne other, ← serving_caller,
        Function.update_of_ne (by simpa using other)]
  | ring r => rw [serving_ring, ring, ← serving_ring, Function.update_of_ne (by simp)]
  | pump => rw [serving_pump, pump, ← serving_pump, Function.update_of_ne (by simp)]

theorem serving_setCaller (c : Setup) (s : State) (k : Nat) (pc : CallerPc) :
    serving c (s.setCaller k pc) =
      Function.update (serving c s) (.caller k) (pc.serving c) :=
  serving_caller_update rfl rfl rfl

theorem serving_setPump (callers : t.caller = s.caller) (ring : t.ring = s.ring) :
    serving c t = Function.update (serving c s) .pump (t.pump.serving c) := by
  funext p
  cases p with
  | caller j => rw [serving_caller, callers, ← serving_caller, Function.update_of_ne (by simp)]
  | ring r => rw [serving_ring, ring, ← serving_ring, Function.update_of_ne (by simp)]
  | pump => rw [serving_pump, Function.update_self]

theorem tracks_setPump {g : Holders} (callers : t.caller = s.caller) (ring : t.ring = s.ring)
    (tracks : Tracks (Function.update (serving c s) .pump (t.pump.serving c)) g) :
    Tracks (serving c t) g := by
  rw [serving_setPump callers ring]
  exact tracks

theorem serving_setRing {r n : Nat} (callers : t.caller = s.caller) (pump : t.pump = s.pump)
    (ring : t.ring = Function.update s.ring r n) :
    serving c t = Function.update (serving c s) (.ring r)
      (if n ≠ 0 then some ((c.call r).kind, some r) else none) := by
  funext p
  cases p with
  | caller j => rw [serving_caller, callers, ← serving_caller, Function.update_of_ne (by simp)]
  | ring j =>
    rcases eq_or_ne j r with rfl | other
    · rw [serving_ring, ring, Function.update_self, Function.update_self]
    · rw [serving_ring, ring, Function.update_of_ne other, ← serving_ring,
        Function.update_of_ne (by simpa using other)]
  | pump => rw [serving_pump, pump, ← serving_pump, Function.update_of_ne (by simp)]

/-! ## Workers -/

/-- A thread goes on, and no request is answered, completed or woken. -/
structure GoesOn (s t : State) : Prop where
  batch : t.batch = s.batch
  woken : t.woken = s.woken
  bufs : ∀ k, s.bufs k ≠ [] → t.bufs k ≠ []
  out : ∀ k, s.out k ≠ none → t.out k ≠ none
  completing : t.pump.completing = s.pump.completing
  owed : ∀ k, (t.caller k).owed = (s.caller k).owed
  lock : ∀ k, t.caller k = .lock → s.caller k = .lock
  own : ∀ k w, t.caller k = .work w false → ∃ stage, w = .prepare stage k

theorem Inv.goesOn {g g' : Holders} (inv : Inv c s g) (on : GoesOn s t)
    (tracks : Tracks (serving c t) g') (busy : ∀ kind, (t.chain kind).busy = (g' kind).isSome)
    (idle : ∀ kind, g' kind = none → (t.chain kind).queue = []) (alone : ∀ r, t.ring r ≤ 1)
    (moved : ∀ k, unfinished c t g' k = unfinished c s g k)
    (kinds : ∀ kind, ∀ k ∈ (t.chain kind).queue, (c.call k).kind = kind)
    (order : ∀ kind, t.arrived kind = t.started kind ++ (t.chain kind).queue) : Inv c t g' where
  tracks := tracks
  busy := busy
  idle := idle
  alone := alone
  account k := by
    have account := inv.account k
    have moved := moved k
    have same := due_unfinished c g g' on.completing on.batch on.woken k
    rw [on.owed]
    omega
  own := on.own
  kinds := kinds
  written k some := by
    rw [on.completing, on.batch, on.woken] at some
    exact on.out k (inv.written k some)
  filled k some := by
    rw [on.owed] at some
    exact on.bufs k (inv.filled k (some.imp_left (on.lock k)))
  order := order

/-- Nothing about the chains changes. -/
theorem Inv.frame {g : Holders} (inv : Inv c s g) (on : GoesOn s t)
    (same : serving c t = serving c s) (chains : t.chain = s.chain) (ring : t.ring = s.ring)
    (arrived : t.arrived = s.arrived) (started : t.started = s.started) : Inv c t g := by
  refine inv.goesOn on (same ▸ inv.tracks) ?_ ?_ ?_ ?_ ?_ ?_
  · rw [chains]
    exact inv.busy
  · rw [chains]
    exact inv.idle
  · rw [ring]
    exact inv.alone
  · intro k
    rw [unfinished, chains]
    rfl
  · rw [chains]
    exact inv.kinds
  · rw [chains, arrived, started]
    exact inv.order

theorem Holders.carried_update (g : Holders) (kind kind' : Kind)
    (b : Option (Place × Option Nat)) :
    Holders.carried (Function.update g kind b) kind' =
      if kind' = kind then b.bind Prod.snd else g.carried kind' := by
  unfold Holders.carried
  split
  · rename_i same
    rw [same, Function.update_self]
  · rename_i other
    rw [Function.update_of_ne other]

/-- A chain goes from hand to hand, with the request that is submitted for it. -/
theorem Inv.pass {g : Holders} (inv : Inv c s g) (on : GoesOn s t) {kind : Kind} {p p' : Place}
    {r : Option Nat} (held : g kind = some (p, r))
    (tracks : Tracks (serving c t) (Function.update g kind (some (p', r))))
    (chains : t.chain = s.chain) (alone : ∀ r, t.ring r ≤ 1)
    (arrived : t.arrived = s.arrived) (started : t.started = s.started) :
    Inv c t (Function.update g kind (some (p', r))) := by
  refine inv.goesOn on tracks (fun kind' => ?_) (fun kind' free => ?_) alone (fun k => ?_) ?_ ?_
  · rw [chains, inv.busy]
    rcases eq_or_ne kind' kind with rfl | other
    · rw [held, Function.update_self]
      rfl
    · rw [Function.update_of_ne other]
  · rw [chains]
    refine inv.idle kind' ?_
    rcases eq_or_ne kind' kind with rfl | other
    · rw [Function.update_self] at free
      cases free
    · rwa [Function.update_of_ne other] at free
  · rw [unfinished, unfinished, chains, Holders.carried_update]
    split
    · rename_i same
      rw [same]
      simp [Holders.carried, held]
    · rfl
  · rw [chains]
    exact inv.kinds
  · rw [chains, arrived, started]
    exact inv.order

/-- `Advance` starts the next request. -/
theorem Inv.pop {g : Holders} (inv : Inv c s g) (on : GoesOn s t) {kind : Kind} {p : Place}
    {next : Nat} {rest : List Nat} (held : g kind = some (p, none))
    (queue : (s.chain kind).queue = next :: rest)
    (tracks : Tracks (serving c t) (Function.update g kind (some (p, some next))))
    (chains : t.chain = Function.update s.chain kind { s.chain kind with queue := rest })
    (ring : t.ring = s.ring) (arrived : t.arrived = s.arrived)
    (started : t.started = Function.update s.started kind (s.started kind ++ [next])) :
    Inv c t (Function.update g kind (some (p, some next))) := by
  have mine : (c.call next).kind = kind := inv.kinds kind next (by rw [queue]; simp)
  refine inv.goesOn on tracks (fun kind' => ?_) (fun kind' free => ?_) (ring ▸ inv.alone)
    (fun k => ?_) (fun kind' k mem => ?_) (fun kind' => ?_)
  · rw [chains]
    rcases eq_or_ne kind' kind with rfl | other
    · rw [Function.update_self, Function.update_self, inv.busy, held]
      rfl
    · rw [Function.update_of_ne other, Function.update_of_ne other]
      exact inv.busy kind'
  · rcases eq_or_ne kind' kind with rfl | other
    · rw [Function.update_self] at free
      cases free
    · rw [Function.update_of_ne other] at free
      rw [chains, Function.update_of_ne other]
      exact inv.idle kind' free
  · -- from the queue into the hand
    rw [unfinished, unfinished, chains, Holders.carried_update]
    rcases eq_or_ne (c.call k).kind kind with same | other
    · have none : g.carried kind = none := by simp [Holders.carried, held]
      rw [same, Function.update_self, if_pos rfl, none, queue]
      rcases eq_or_ne next k with rfl | apart
      · simp
      · simp [apart]
    · rw [Function.update_of_ne other, if_neg other]
  · rw [chains] at mem
    rcases eq_or_ne kind' kind with rfl | other
    · rw [Function.update_self] at mem
      exact inv.kinds kind' k (by rw [queue]; exact List.mem_cons_of_mem _ mem)
    · rw [Function.update_of_ne other] at mem
      exact inv.kinds kind' k mem
  · rw [chains, arrived, started, inv.order kind']
    rcases eq_or_ne kind' kind with rfl | other
    · rw [Function.update_self, Function.update_self, queue]
      simp
    · rw [Function.update_of_ne other, Function.update_of_ne other]

/-- `Advance` finds nothing and lets the chain go. -/
theorem Inv.release {g : Holders} (inv : Inv c s g) (on : GoesOn s t) {kind : Kind} {p : Place}
    (held : g kind = some (p, none)) (queue : (s.chain kind).queue = [])
    (tracks : Tracks (serving c t) (Function.update g kind none))
    (chains : t.chain = Function.update s.chain kind { s.chain kind with busy := false })
    (ring : t.ring = s.ring) (arrived : t.arrived = s.arrived) (started : t.started = s.started) :
    Inv c t (Function.update g kind none) := by
  have same (kind' : Kind) : (t.chain kind').queue = (s.chain kind').queue := by
    rw [chains]
    rcases eq_or_ne kind' kind with rfl | other
    · rw [Function.update_self]
    · rw [Function.update_of_ne other]
  refine inv.goesOn on tracks (fun kind' => ?_) (fun kind' free => ?_) (ring ▸ inv.alone)
    (fun k => ?_) (fun kind' k mem => ?_) (fun kind' => ?_)
  · rw [chains]
    rcases eq_or_ne kind' kind with rfl | other
    · rw [Function.update_self, Function.update_self]
      rfl
    · rw [Function.update_of_ne other, Function.update_of_ne other]
      exact inv.busy kind'
  · rw [same]
    rcases eq_or_ne kind' kind with rfl | other
    · exact queue
    · rw [Function.update_of_ne other] at free
      exact inv.idle kind' free
  · rw [unfinished, unfinished, same, Holders.carried_update]
    split
    · rename_i here
      rw [here]
      simp [Holders.carried, held]
    · rfl
  · rw [same] at mem
    exact inv.kinds kind' k mem
  · rw [same, arrived, started]
    exact inv.order kind'

/-! ## Steps of `SubmitOne` and `Advance` -/

/-- `SubmitPrepared` goes on to the next stage, or to the ring. -/
def TakesOn (c : Setup) (s : State) (r : Nat) (stage : Stage) (answer : RingAnswer) : Prop :=
  (∃ stage', submitPrepared c s r stage answer = (s, .next stage')) ∨
    submitPrepared c s r stage answer =
      ({ s with ring := Function.update s.ring r (s.ring r + 1) }, .taken)

theorem submitPrepared_takes {r : Nat} {stage : Stage} {answer : RingAnswer}
    (filled : s.bufs r ≠ []) (takes : Takes c s r stage answer) : TakesOn c s r stage answer := by
  cases stage with
  | token =>
    simp only [Takes] at takes
    exact .inl ⟨.state, by simp [submitPrepared, filled, takes]⟩
  | state =>
    obtain ⟨up, running⟩ := takes
    exact .inl ⟨.ring, by simp [submitPrepared, up, running]⟩
  | ring =>
    simp only [Takes] at takes
    subst takes
    exact .inr rfl

/-- A refusal, unless the kernel has the entry all the same. -/
theorem submitPrepared_cases (c : Setup) (s : State) (r : Nat) (stage : Stage)
    {answer : RingAnswer} (entered : answer.entered = true) :
    TakesOn c s r stage answer ∨
      ∃ result, submitPrepared c s r stage answer = (s.setOut r result, .refused) := by
  unfold TakesOn
  cases stage with
  | token | state =>
    simp only [submitPrepared]
    split
    · exact .inr ⟨_, rfl⟩
    · split
      · exact .inr ⟨_, rfl⟩
      · exact .inl (.inl ⟨_, rfl⟩)
  | ring =>
    cases answer with
    | taken => exact .inl (.inr rfl)
    | full => exact .inr ⟨_, rfl⟩
    | failed code => cases entered

/-- What `SubmitOne` and `Advance` leave alone. -/
structure Leaves (s t : State) : Prop where
  batch : t.batch = s.batch
  woken : t.woken = s.woken
  bufs : t.bufs = s.bufs
  caller : t.caller = s.caller
  pump : t.pump = s.pump
  arrived : t.arrived = s.arrived
  out : ∀ k, s.out k ≠ none → t.out k ≠ none

theorem Leaves.refl (s : State) : Leaves s s := ⟨rfl, rfl, rfl, rfl, rfl, rfl, fun _ some => some⟩

theorem setOut_some (s : State) (r : Nat) (result : Result) {k : Nat} (some : s.out k ≠ none) :
    (s.setOut r result).out k ≠ none := by
  simp only [State.setOut]
  rcases eq_or_ne k r with rfl | other
  · rw [Function.update_self]
    exact Option.some_ne_none _
  · rw [Function.update_of_ne other]
    exact some

theorem Leaves.setOut (s : State) (r : Nat) (result : Result) : Leaves s (s.setOut r result) :=
  ⟨rfl, rfl, rfl, rfl, rfl, rfl, fun _ some => setOut_some s r result some⟩

theorem submitPrepared_leaves (c : Setup) (s : State) (r : Nat) (stage : Stage)
    (answer : RingAnswer) : Leaves s (submitPrepared c s r stage answer).1 := by
  cases stage with
  | token | state =>
    simp only [submitPrepared]
    split
    · exact .setOut s r _
    · split
      · exact .setOut s r _
      · exact .refl s
  | ring =>
    cases answer with
    | taken => exact ⟨rfl, rfl, rfl, rfl, rfl, rfl, fun _ some => some⟩
    | full => exact .setOut s r _
    | failed code =>
      exact ⟨rfl, rfl, rfl, rfl, rfl, rfl, fun _ some => setOut_some s r _ some⟩

theorem workStep_leaves (c : Setup) (s : State) (answer : RingAnswer) (w : Work) :
    Leaves s (workStep c s answer w).1 := by
  cases w with
  | prepare stage r =>
    have leaves := submitPrepared_leaves c s r stage answer
    simp only [workStep]
    split <;> rename_i prepared <;> rw [prepared] at leaves <;> exact leaves
  | advance kind =>
    simp only [workStep]
    split <;> exact ⟨rfl, rfl, rfl, rfl, rfl, rfl, fun _ some => some⟩

/-- A thread in `SubmitOne` or `Advance` makes a step in which no request is refused. -/
theorem Inv.worked {g : Holders} (inv : Inv c s g) {p : Place} {w : Work} {answer : RingAnswer}
    (thread : ∀ r, p ≠ .ring r) (serves : serving c s p = some (w.kind c, w.request))
    (taken : ∀ stage r, w = .prepare stage r → TakesOn c s r stage answer)
    (on : GoesOn s t)
    (sets : serving c t = Function.update (serving c (workStep c s answer w).1) p
      ((workStep c s answer w).2.map fun w => (w.kind c, w.request)))
    (chains : t.chain = (workStep c s answer w).1.chain)
    (ring : t.ring = (workStep c s answer w).1.ring)
    (arrived : t.arrived = s.arrived) (started : t.started = (workStep c s answer w).1.started) :
    ∃ g', Inv c t g' := by
  have held : g (w.kind c) = some (p, w.request) := (inv.tracks _ _ _).mp serves
  cases w with
  | prepare stage r =>
    rcases taken stage r rfl with ⟨stage', prepared⟩ | prepared
    · simp only [workStep, prepared] at sets chains ring started
      have same : serving c t = serving c s := by
        rw [sets, ← Function.update_eq_self p (serving c s), serves, Function.update_idem]
        rfl
      exact ⟨g, inv.frame on same chains ring arrived started⟩
    · simp only [workStep, prepared] at sets chains ring started
      have out : serving c s (.ring r) = none := by
        cases here : serving c s (.ring r) with
        | none => rfl
        | some v =>
          -- the chain cannot be with the ring and with a thread
          obtain ⟨kind, r'⟩ := v
          have known := here
          rw [serving_ring] at known
          split at known
          · cases known
            exact absurd (inv.tracks.single serves here) (thread r)
          · cases known
      have free : s.ring r = 0 := by
        by_contra some
        rw [serving_ring, if_pos some] at out
        cases out
      have tracks := inv.tracks.pass serves out (some r)
      have same : serving c t = Function.update (Function.update (serving c s) p none) (.ring r)
          (some ((c.call r).kind, some r)) := by
        let u : State := { s with ring := Function.update s.ring r (s.ring r + 1) }
        have moved : serving c u =
            Function.update (serving c s) (.ring r) (some ((c.call r).kind, some r)) := by
          rw [serving_setRing (s := s) (t := u) rfl rfl rfl]
          rfl
        rw [sets, moved, Function.update_comm (thread r).symm]
        rfl
      refine ⟨_, inv.pass on held (same ▸ tracks) chains (fun j => ?_) arrived started⟩
      rw [ring]
      rcases eq_or_ne j r with rfl | other
      · rw [Function.update_self, free]
      · rw [Function.update_of_ne other]
        exact inv.alone j
  | advance kind =>
    cases queue : (s.chain kind).queue with
    | nil =>
      simp only [workStep, queue] at sets chains ring started
      have before (chain : Chain) : serving c (s.setChain kind chain) = serving c s :=
        serving_same (fun _ => rfl) rfl rfl
      rw [before] at sets
      exact ⟨_, inv.release on held queue (sets ▸ inv.tracks.drop serves)
        (by rw [chains, ← queue]; rfl) ring arrived started⟩
    | cons next rest =>
      simp only [workStep, queue] at sets chains ring started
      have mine : (c.call next).kind = kind := inv.kinds kind next (by rw [queue]; simp)
      have before (chain : Chain) :
          serving c ((s.setChain kind chain).start kind next) = serving c s :=
        serving_same (fun _ => rfl) rfl rfl
      rw [before] at sets
      have tracks := inv.tracks.keep serves (some next)
      simp only [Option.map_some, Work.kind, Work.request, mine] at sets tracks
      exact ⟨_, inv.pop on held queue (sets ▸ tracks) chains ring arrived started⟩

/-! ## Callers -/

theorem fillBufs_some {bufs filled : List Nat} (fill : fillBufs bufs = some filled) :
    filled ≠ [] := by
  unfold fillBufs at fill
  split at fill
  · cases fill
  · rename_i fits
    cases fill
    rintro rfl
    exact fits (.inl rfl)

/-- A call that has not reached the chain goes on. -/
theorem Inv.before {g : Holders} (inv : Inv c s g) {k : Nat} {pc : CallerPc}
    (was : (s.caller k).owed = 0) (outside : (s.caller k).serving c = none)
    (is : pc.owed = 0) (stays : pc.serving c = none) (own : ∀ w, pc ≠ .work w false)
    (callers : t.caller = Function.update s.caller k pc) (chains : t.chain = s.chain)
    (pump : t.pump = s.pump) (ring : t.ring = s.ring) (batch : t.batch = s.batch)
    (woken : t.woken = s.woken) (arrived : t.arrived = s.arrived) (started : t.started = s.started)
    (out : ∀ j, s.out j ≠ none → t.out j ≠ none) (bufs : ∀ j, j ≠ k → t.bufs j = s.bufs j)
    (lock : pc = .lock → t.bufs k ≠ []) : Inv c t g where
  tracks := by
    rw [serving_caller_update callers pump ring, stays, ← outside, ← serving_caller,
      Function.update_eq_self]
    exact inv.tracks
  busy := chains ▸ inv.busy
  idle := chains ▸ inv.idle
  alone := ring ▸ inv.alone
  account j := by
    have account := inv.account j
    have same : due c t g j = due c s g j := by
      unfold due unfinished
      rw [chains, pump, batch, woken]
    rw [same, callers]
    rcases eq_or_ne j k with rfl | other
    · rw [Function.update_self, is, account, was]
    · rw [Function.update_of_ne other]
      exact account
  own j w here := by
    rw [callers] at here
    rcases eq_or_ne j k with rfl | other
    · rw [Function.update_self] at here
      exact absurd here (own w)
    · rw [Function.update_of_ne other] at here
      exact inv.own j w here
  kinds := chains ▸ inv.kinds
  written j some := by
    rw [pump, batch, woken] at some
    exact out j (inv.written j some)
  filled j some := by
    rw [callers] at some
    rcases eq_or_ne j k with rfl | other
    · rw [Function.update_self, is] at some
      exact lock (some.resolve_right (by simp))
    · rw [Function.update_of_ne other] at some
      rw [bufs j other]
      exact inv.filled j some
  order := by
    rw [chains, arrived, started]
    exact inv.order

/-- A call reaches its chain: from here on its request is due. -/
theorem Inv.arrive {g g' : Holders} (inv : Inv c s g) {k : Nat} {pc : CallerPc}
    (here : s.caller k = .lock) (callers : t.caller = Function.update s.caller k pc)
    (is : pc.owed = 1) (own : ∀ w, pc = .work w false → ∃ stage, w = .prepare stage k)
    (pump : t.pump = s.pump) (ring : t.ring = s.ring) (batch : t.batch = s.batch)
    (woken : t.woken = s.woken) (out : t.out = s.out) (bufs : t.bufs = s.bufs)
    (tracks : Tracks (serving c t) g') (busy : ∀ kind, (t.chain kind).busy = (g' kind).isSome)
    (idle : ∀ kind, g' kind = none → (t.chain kind).queue = [])
    (mine : unfinished c t g' k = unfinished c s g k + 1)
    (others : ∀ j, j ≠ k → unfinished c t g' j = unfinished c s g j)
    (kinds : ∀ kind, ∀ k ∈ (t.chain kind).queue, (c.call k).kind = kind)
    (order : ∀ kind, t.arrived kind = t.started kind ++ (t.chain kind).queue) : Inv c t g' where
  tracks := tracks
  busy := busy
  idle := idle
  alone := ring ▸ inv.alone
  account j := by
    have account := inv.account j
    have same := due_unfinished c g g' (by rw [pump]) batch woken j
    rw [callers]
    rcases eq_or_ne j k with rfl | other
    · rw [here] at account
      rw [Function.update_self, is]
      simp only [CallerPc.owed] at account
      omega
    · rw [Function.update_of_ne other]
      have stays := others j other
      omega
  own j w now := by
    rw [callers] at now
    rcases eq_or_ne j k with rfl | other
    · rw [Function.update_self] at now
      exact own w now
    · rw [Function.update_of_ne other] at now
      exact inv.own j w now
  kinds := kinds
  written j some := by
    rw [pump, batch, woken] at some
    exact out ▸ inv.written j some
  filled j some := by
    rw [callers] at some
    rw [bufs]
    rcases eq_or_ne j k with rfl | other
    · exact inv.filled j (.inl here)
    · rw [Function.update_of_ne other] at some
      exact inv.filled j some
  order := order


/-- A request that finds its chain busy is queued. -/
theorem Inv.queue {g : Holders} (inv : Inv c s g) {k : Nat} {kind : Kind}
    (mine : (c.call k).kind = kind) (here : s.caller k = .lock)
    (busy : (s.chain kind).busy = true)
    (callers : t.caller = Function.update s.caller k (.returned false))
    (chains : t.chain = Function.update s.chain kind
      { s.chain kind with queue := (s.chain kind).queue ++ [k] })
    (pump : t.pump = s.pump) (ring : t.ring = s.ring) (batch : t.batch = s.batch)
    (woken : t.woken = s.woken) (out : t.out = s.out) (bufs : t.bufs = s.bufs)
    (arrived : t.arrived = Function.update s.arrived kind (s.arrived kind ++ [k]))
    (started : t.started = s.started) : Inv c t g := by
  have outside : serving c s (.caller k) = (CallerPc.returned false).serving c := by
    rw [serving_caller, here]
    rfl
  refine inv.arrive here callers rfl (fun w absurd => by cases absurd) pump ring batch woken out
    bufs ?_ (fun kind' => ?_) (fun kind' free => ?_) ?_ (fun j other => ?_)
    (fun kind' j mem => ?_) (fun kind' => ?_)
  · rw [serving_caller_update callers pump ring, ← outside, Function.update_eq_self]
    exact inv.tracks
  · rw [chains]
    rcases eq_or_ne kind' kind with rfl | other
    · rw [Function.update_self]
      exact inv.busy kind'
    · rw [Function.update_of_ne other]
      exact inv.busy kind'
  · rcases eq_or_ne kind' kind with rfl | other
    · rw [inv.busy, free] at busy
      cases busy
    · rw [chains, Function.update_of_ne other]
      exact inv.idle kind' free
  · rw [unfinished, unfinished, chains, mine, Function.update_self, List.count_append,
      List.count_singleton_self]
    omega
  · rw [unfinished, unfinished, chains]
    rcases eq_or_ne (c.call j).kind kind with same | apart
    · rw [same, Function.update_self, List.count_append,
        List.count_eq_zero.mpr (by simpa using other : j ∉ [k]), Nat.add_zero]
    · rw [Function.update_of_ne apart]
  · rw [chains] at mem
    rcases eq_or_ne kind' kind with rfl | other
    · rw [Function.update_self] at mem
      rcases List.mem_append.mp mem with before | now
      · exact inv.kinds kind' j before
      · rw [List.mem_singleton.mp now, mine]
    · rw [Function.update_of_ne other] at mem
      exact inv.kinds kind' j mem
  · rw [chains, arrived, started]
    rcases eq_or_ne kind' kind with rfl | other
    · rw [Function.update_self, Function.update_self, inv.order, List.append_assoc]
    · rw [Function.update_of_ne other, Function.update_of_ne other]
      exact inv.order kind'

/-- A request that finds its chain free is submitted. -/
theorem Inv.begin {g : Holders} (inv : Inv c s g) {k : Nat} {kind : Kind}
    (mine : (c.call k).kind = kind) (here : s.caller k = .lock)
    (free : (s.chain kind).busy = false)
    (callers : t.caller = Function.update s.caller k (.work (.prepare .token k) false))
    (chains : t.chain = Function.update s.chain kind { s.chain kind with busy := true })
    (pump : t.pump = s.pump) (ring : t.ring = s.ring) (batch : t.batch = s.batch)
    (woken : t.woken = s.woken) (out : t.out = s.out) (bufs : t.bufs = s.bufs)
    (arrived : t.arrived = Function.update s.arrived kind (s.arrived kind ++ [k]))
    (started : t.started = Function.update s.started kind (s.started kind ++ [k])) :
    Inv c t (Function.update g kind (some (.caller k, some k))) := by
  have nobody : g kind = none := by
    rw [inv.busy, Option.isSome_eq_false_iff, Option.isNone_iff_eq_none] at free
    exact free
  have empty : (s.chain kind).queue = [] := inv.idle kind nobody
  have none : g.carried kind = none := by rw [Holders.carried, nobody]; rfl
  have outside : serving c s (.caller k) = Option.none := by
    rw [serving_caller, here]
    rfl
  have queues (kind' : Kind) : (t.chain kind').queue = (s.chain kind').queue := by
    rw [chains]
    rcases eq_or_ne kind' kind with rfl | other
    · rw [Function.update_self]
    · rw [Function.update_of_ne other]
  refine inv.arrive here callers rfl (fun w now => ?_) pump ring batch woken out bufs ?_
    (fun kind' => ?_) (fun kind' free => ?_) ?_ (fun j other => ?_) (fun kind' j mem => ?_)
    (fun kind' => ?_)
  · cases now
    exact ⟨_, rfl⟩
  · rw [serving_caller_update callers pump ring]
    have tracks := inv.tracks.take outside nobody (some k)
    rw [← mine] at tracks ⊢
    exact tracks
  · rw [chains]
    rcases eq_or_ne kind' kind with rfl | other
    · rw [Function.update_self, Function.update_self]
      rfl
    · rw [Function.update_of_ne other, Function.update_of_ne other]
      exact inv.busy kind'
  · rw [queues]
    rcases eq_or_ne kind' kind with rfl | other
    · exact empty
    · rw [Function.update_of_ne other] at free
      exact inv.idle kind' free
  · rw [unfinished, unfinished, queues, mine, Holders.carried_update, none]
    simp
  · rw [unfinished, unfinished, queues, Holders.carried_update]
    split
    · rename_i same
      rw [same, none]
      simp [other.symm]
    · rfl
  · rw [queues] at mem
    exact inv.kinds kind' j mem
  · rw [queues, arrived, started]
    rcases eq_or_ne kind' kind with rfl | other
    · rw [Function.update_self, Function.update_self, inv.order, empty]
      simp
    · rw [Function.update_of_ne other, Function.update_of_ne other]
      exact inv.order kind'

/-- A caller's own request is refused: the call will return true. -/
theorem Inv.refused {g : Holders} (inv : Inv c s g) {k : Nat} {stage : Stage}
    (here : s.caller k = .work (.prepare stage k) false)
    (callers : t.caller = Function.update s.caller k (.work (.advance (c.call k).kind) true))
    (chains : t.chain = s.chain) (pump : t.pump = s.pump) (ring : t.ring = s.ring)
    (batch : t.batch = s.batch) (woken : t.woken = s.woken) (bufs : t.bufs = s.bufs)
    (out : ∀ j, s.out j ≠ none → t.out j ≠ none)
    (arrived : t.arrived = s.arrived) (started : t.started = s.started) :
    Inv c t (Function.update g (c.call k).kind (some (.caller k, none))) := by
  have serves : serving c s (.caller k) = some ((c.call k).kind, some k) := by
    rw [serving_caller, here]
    rfl
  have held : g (c.call k).kind = some (.caller k, some k) := (inv.tracks _ _ _).mp serves
  have carried : g.carried (c.call k).kind = some k := by rw [Holders.carried, held]; rfl
  constructor
  case tracks =>
    rw [serving_caller_update callers pump ring]
    exact inv.tracks.keep serves none
  case busy =>
    intro kind
    rw [chains, inv.busy kind]
    rcases eq_or_ne kind (c.call k).kind with rfl | other
    · rw [Function.update_self, held]
      rfl
    · rw [Function.update_of_ne other]
  case idle =>
    intro kind free
    rw [chains]
    rcases eq_or_ne kind (c.call k).kind with rfl | other
    · rw [Function.update_self] at free
      cases free
    · rw [Function.update_of_ne other] at free
      exact inv.idle kind free
  case alone => exact ring ▸ inv.alone
  case account =>
    intro j
    have account := inv.account j
    have same := due_unfinished c g
      (Function.update g (c.call k).kind (some (.caller k, none))) (by rw [pump]) batch woken j
    have after : unfinished c t (Function.update g (c.call k).kind (some (.caller k, none))) j +
        (if j = k then 1 else 0) = unfinished c s g j := by
      rw [unfinished, unfinished, chains, Holders.carried_update]
      rcases eq_or_ne j k with rfl | other
      · simp [carried]
      · rcases eq_or_ne (c.call j).kind (c.call k).kind with kinds | apart
        · rw [kinds, carried]
          simp [other, other.symm]
        · simp [apart, other]
    rw [callers]
    rcases eq_or_ne j k with rfl | other
    · rw [here] at account
      rw [Function.update_self]
      simp only [CallerPc.owed, if_true] at account after ⊢
      omega
    · rw [Function.update_of_ne other]
      rw [if_neg other] at after
      omega
  case own =>
    intro j w now
    rw [callers] at now
    rcases eq_or_ne j k with rfl | other
    · rw [Function.update_self] at now
      cases now
    · rw [Function.update_of_ne other] at now
      exact inv.own j w now
  case kinds => exact chains ▸ inv.kinds
  case written =>
    intro j some
    rw [pump, batch, woken] at some
    exact out j (inv.written j some)
  case filled =>
    intro j some
    rw [callers] at some
    rw [bufs]
    rcases eq_or_ne j k with rfl | other
    · exact inv.filled j (.inr (by rw [here]; rfl))
    · rw [Function.update_of_ne other] at some
      exact inv.filled j some
  case order =>
    intro kind
    rw [chains, arrived, started]
    exact inv.order kind

/-- A request that is queued or submitted has buffers. -/
theorem Inv.has_buffers {g : Holders} (inv : Inv c s g) {p : Place} {kind : Kind} {r : Nat}
    (serves : serving c s p = some (kind, some r)) (mine : (c.call r).kind = kind) :
    s.bufs r ≠ [] := by
  have held : g kind = some (p, some r) := (inv.tracks _ _ _).mp serves
  have carried : g.carried kind = some r := by rw [Holders.carried, held]; rfl
  have account := inv.account r
  have bound : (s.caller r).owed ≤ 1 := by
    unfold CallerPc.owed
    split <;> omega
  rw [due, unfinished, mine, if_pos carried] at account
  exact inv.filled r (.inr (by omega))

theorem TakesOn.workStep {r : Nat} {stage : Stage} {answer : RingAnswer}
    (taken : TakesOn c s r stage answer) :
    (∃ stage', (workStep c s answer (.prepare stage r)).2 = some (.prepare stage' r)) ∨
      (workStep c s answer (.prepare stage r)).2 = none := by
  rcases taken with ⟨stage', prepared⟩ | prepared
  · exact .inl ⟨stage', by simp only [Stream.workStep, prepared]⟩
  · exact .inr (by simp only [Stream.workStep, prepared])

theorem GoesOn.caller {g : Holders} (inv : Inv c s g) {u : State} (leaves : Leaves s u) {k : Nat}
    {pc : CallerPc} (owed : pc.owed = (s.caller k).owed) (lock : pc ≠ .lock)
    (own : ∀ w, pc = .work w false → ∃ stage, w = .prepare stage k) :
    GoesOn s (u.setCaller k pc) where
  batch := leaves.batch
  woken := leaves.woken
  bufs j some := by simpa [State.setCaller, leaves.bufs] using some
  out := leaves.out
  completing := congrArg PumpPc.completing leaves.pump
  owed j := by
    simp only [State.setCaller, leaves.caller]
    rcases eq_or_ne j k with rfl | other
    · rw [Function.update_self, owed]
    · rw [Function.update_of_ne other]
  lock j here := by
    simp only [State.setCaller, leaves.caller] at here
    rcases eq_or_ne j k with rfl | other
    · rw [Function.update_self] at here
      exact absurd here lock
    · rwa [Function.update_of_ne other] at here
  own j w here := by
    simp only [State.setCaller, leaves.caller] at here
    rcases eq_or_ne j k with rfl | other
    · rw [Function.update_self] at here
      exact own w here
    · rw [Function.update_of_ne other] at here
      exact inv.own j w here

theorem GoesOn.pump {g : Holders} (inv : Inv c s g) {u : State} (leaves : Leaves s u)
    {pc : PumpPc} (completing : pc.completing = s.pump.completing) :
    GoesOn s { u with pump := pc } where
  batch := leaves.batch
  woken := leaves.woken
  bufs j some := by simpa [leaves.bufs] using some
  out := leaves.out
  completing := completing
  owed j := by rw [leaves.caller]
  lock j here := leaves.caller ▸ here
  own j w here := inv.own j w (leaves.caller ▸ here)

/-- A caller that is in `SubmitOne` or `Advance` makes a step in which no request is refused. -/
theorem Inv.caller_worked {g : Holders} (inv : Inv c s g) {k : Nat} {w : Work}
    {immediate : Bool} {answer : RingAnswer} (here : s.caller k = .work w immediate)
    (taken : ∀ stage r, w = .prepare stage r → TakesOn c s r stage answer)
    (stepped : callerStep c s k answer = some t) : ∃ g', Inv c t g' := by
  have serves : serving c s (.caller k) = some (w.kind c, w.request) := by
    rw [serving_caller, here]
    rfl
  have leaves := workStep_leaves c s answer w
  simp only [callerStep, here] at stepped
  cases next : (workStep c s answer w).2 with
  | none =>
    have done : t = (workStep c s answer w).1.setCaller k (.returned immediate) := by
      revert stepped next
      rcases workStep c s answer w with ⟨u, w'⟩
      rintro stepped rfl
      cases stepped
      rfl
    subst done
    have on : GoesOn s ((workStep c s answer w).1.setCaller k (.returned immediate)) := by
      refine .caller inv leaves ?_ (by simp) (by simp)
      rw [here]
      cases immediate <;> rfl
    refine inv.worked (by simp) serves taken on ?_ rfl rfl leaves.arrived rfl
    rw [serving_setCaller, next]
    rfl
  | some w' =>
    have done : t =
        (workStep c s answer w).1.setCaller k (.work w' (immediate || w'.isAdvance)) := by
      revert stepped next
      rcases workStep c s answer w with ⟨u, w''⟩
      rintro stepped rfl
      cases stepped
      rfl
    subst done
    -- its own request, if not decided yet, is still in `SubmitPrepared`
    have own : immediate = false → ∃ stage, w' = .prepare stage k := by
      rintro rfl
      obtain ⟨stage, rfl⟩ := inv.own k w here
      rcases (taken stage k rfl).workStep with ⟨stage', same⟩ | none
      · rw [next] at same
        cases same
        exact ⟨stage', rfl⟩
      · rw [next] at none
        cases none
    have on : GoesOn s
        ((workStep c s answer w).1.setCaller k (.work w' (immediate || w'.isAdvance))) := by
      refine .caller inv leaves ?_ (by simp) fun v now => ?_
      · rw [here]
        cases immediate with
        | true => rfl
        | false =>
          obtain ⟨stage, rfl⟩ := own rfl
          rfl
      · obtain ⟨rfl, same⟩ : w' = v ∧ (immediate || w'.isAdvance) = false := by
          simpa using now
        exact own (Bool.or_eq_false_iff.mp same).1
    refine inv.worked (by simp) serves taken on ?_ rfl rfl leaves.arrived rfl
    rw [serving_setCaller, next]
    rfl

theorem Inv.callerStep {g : Holders} (inv : Inv c s g) {k : Nat} {answer : RingAnswer}
    (allowed : TakenInTurn c s (.caller k answer) = true)
    (stepped : callerStep c s k answer = some t) : ∃ g', Inv c t g' := by
  cases here : s.caller k with
  | notCalled | returned _ =>
    simp only [Stream.callerStep, here] at stepped
    cases stepped
  | check =>
    have was : (s.caller k).owed = 0 := by rw [here]; rfl
    have outside : (s.caller k).serving c = none := by rw [here]; rfl
    simp only [Stream.callerStep, here] at stepped
    split at stepped
    · cases stepped
      exact ⟨g, inv.before was outside rfl rfl (by simp) rfl rfl rfl rfl rfl rfl rfl rfl
        (fun j some => setOut_some s k _ some) (fun _ _ => rfl) (by simp)⟩
    · rename_i bufs fill
      split at stepped
      · cases stepped
        exact ⟨g, inv.before was outside rfl rfl (by simp) rfl rfl rfl rfl rfl rfl rfl rfl
          (fun j some => setOut_some s k _ some) (fun _ _ => rfl) (by simp)⟩
      · cases stepped
        refine ⟨g, inv.before was outside rfl rfl (by simp) rfl rfl rfl rfl rfl rfl rfl rfl
          (fun _ some => some) (fun j other => Function.update_of_ne other _ _) fun _ => ?_⟩
        simp only [State.setCaller, Function.update_self]
        exact fillBufs_some fill
  | lock =>
    simp only [Stream.callerStep, here] at stepped
    split at stepped
    · rename_i busy
      cases stepped
      exact ⟨g, inv.queue rfl here busy rfl rfl rfl rfl rfl rfl rfl rfl rfl rfl⟩
    · rename_i free
      cases stepped
      exact ⟨_, inv.begin rfl here (Bool.eq_false_iff.mpr free) rfl rfl rfl rfl rfl rfl rfl rfl
        rfl rfl⟩
  | work w immediate =>
    have serves : serving c s (.caller k) = some (w.kind c, w.request) := by
      rw [serving_caller, here]
      rfl
    cases w with
    | advance kind =>
      exact inv.caller_worked here (fun stage r absurd => by cases absurd) stepped
    | prepare stage r =>
      have filled : s.bufs r ≠ [] := inv.has_buffers serves rfl
      simp only [TakenInTurn, here, Bool.and_eq_true, Bool.or_eq_true, Bool.not_eq_true',
        decide_eq_true_eq] at allowed
      obtain ⟨entered, taken⟩ := allowed
      rcases taken with own | takes
      · subst own
        obtain ⟨stage', same⟩ := inv.own k _ here
        cases same
        rcases submitPrepared_cases c s k stage entered
          with on | ⟨result, refused⟩
        · refine inv.caller_worked here (fun stage' r same => ?_) stepped
          cases same
          exact on
        · simp only [Stream.callerStep, here, workStep, refused] at stepped
          cases stepped
          exact ⟨_, inv.refused here rfl rfl rfl rfl rfl rfl rfl
            (fun j some => setOut_some s k _ some) rfl rfl⟩
      · refine inv.caller_worked here (fun stage' r' same => ?_) stepped
        cases same
        exact submitPrepared_takes filled takes

/-! ## The pump -/

theorem advanceBufs_ne_nil : ∀ {bufs : List Nat} {consumed : Nat}, consumed < bufs.sum →
    advanceBufs bufs consumed ≠ []
  | [], consumed, less => by simp at less
  | len :: bufs, consumed, less => by
      rw [advanceBufs]
      split
      · simp
      · split
        · refine advanceBufs_ne_nil ?_
          simp only [List.sum_cons] at less
          omega
        · simp

/-- The chain goes from the ring to the pump. -/
theorem Inv.reaped {g : Holders} (inv : Inv c s g) {r : Nat} (waiting : s.pump = .waiting)
    (some : s.ring r ≠ 0) (ring : t.ring = Function.update s.ring r (s.ring r - 1))
    (pump : t.pump.serving c = Option.some ((c.call r).kind, Option.some r))
    (completing : t.pump.completing = none) (callers : t.caller = s.caller)
    (chains : t.chain = s.chain) (batch : t.batch = s.batch) (woken : t.woken = s.woken)
    (out : t.out = s.out) (bufs : ∀ k, s.bufs k ≠ [] → t.bufs k ≠ [])
    (arrived : t.arrived = s.arrived) (started : t.started = s.started) : ∃ g', Inv c t g' := by
  have alone : s.ring r = 1 := by
    have bound := inv.alone r
    omega
  have serves : serving c s (.ring r) = Option.some ((c.call r).kind, Option.some r) := by
    rw [serving_ring, if_pos some]
  have held := (inv.tracks _ _ _).mp serves
  have empty : serving c s .pump = none := by rw [serving_pump, waiting]; rfl
  have moved : serving c t = Function.update (Function.update (serving c s) (.ring r) none) .pump
      (Option.some ((c.call r).kind, Option.some r)) := by
    let u : State := { s with ring := t.ring }
    rw [serving_setPump (s := u) callers rfl, pump, serving_setRing (s := s) (t := u) rfl rfl ring,
      alone]
    rfl
  have on : GoesOn s t :=
    ⟨batch, woken, bufs, fun _ filled => out ▸ filled, by rw [completing, waiting]; rfl,
      fun _ => by rw [callers], fun _ here => callers ▸ here,
      fun k w here => inv.own k w (callers ▸ here)⟩
  have tracks := inv.tracks.pass serves empty (Option.some r)
  rw [← moved] at tracks
  refine ⟨_, inv.pass on held tracks chains (fun j => ?_) arrived started⟩
  · rw [ring]
    rcases eq_or_ne j r with rfl | other
    · rw [Function.update_self]
      omega
    · rw [Function.update_of_ne other]
      exact inv.alone j

theorem Inv.reap {g : Holders} (inv : Inv c s g) {r : Nat} {res : KernelResult}
    (stepped : reap c s r res = some t) : ∃ g', Inv c t g' := by
  unfold Stream.reap at stepped
  split at stepped
  case isFalse => cases stepped
  case isTrue enabled =>
    obtain ⟨waiting, some⟩ := enabled
    dsimp only at stepped
    split at stepped
    · rename_i count partially
      cases stepped
      have less : count < (s.bufs r).sum := by
        unfold isPartial at partially
        split at partially
        · split at partially
          · rename_i part
            cases partially
            exact part.2.2.2
          · cases partially
        · cases partially
      refine inv.reaped waiting some rfl rfl rfl rfl rfl rfl rfl rfl (fun j filled => ?_) rfl rfl
      simp only
      rcases eq_or_ne j r with rfl | other
      · rw [Function.update_self]
        exact advanceBufs_ne_nil less
      · rw [Function.update_of_ne other]
        exact filled
    · cases stepped
      exact inv.reaped waiting some rfl rfl rfl rfl rfl rfl rfl rfl (fun _ filled => filled) rfl rfl

/-- `Complete` writes the result, and the request is as good as woken. -/
theorem Inv.publish {g : Holders} (inv : Inv c s g) {r : Nat} {result : Result}
    (here : s.pump = .publish r result) :
    ∃ g', Inv c { s.setOut r result with pump := .advancing r (.advance (c.call r).kind) } g' := by
  have serves : serving c s .pump = some ((c.call r).kind, some r) := by
    rw [serving_pump, here]
    rfl
  have held : g (c.call r).kind = some (.pump, some r) := (inv.tracks _ _ _).mp serves
  have carried : g.carried (c.call r).kind = some r := by rw [Holders.carried, held]; rfl
  refine ⟨Function.update g (c.call r).kind (some (.pump, none)), ?_⟩
  constructor
  case tracks => exact tracks_setPump (s := s) rfl rfl (inv.tracks.keep serves none)
  case busy =>
    intro kind
    rcases eq_or_ne kind (c.call r).kind with rfl | other
    · rw [Function.update_self]
      exact (inv.busy _).trans (by rw [held]; rfl)
    · rw [Function.update_of_ne other]
      exact inv.busy kind
  case idle =>
    intro kind free
    rcases eq_or_ne kind (c.call r).kind with rfl | other
    · rw [Function.update_self] at free
      cases free
    · rw [Function.update_of_ne other] at free
      exact inv.idle kind free
  case alone => exact inv.alone
  case account =>
    intro j
    have account := inv.account j
    simp only [due, unfinished, State.setOut, Holders.carried_update, here, PumpPc.completing]
      at account ⊢
    rcases eq_or_ne j r with rfl | other
    · simpa [carried] using account
    · rcases eq_or_ne (c.call j).kind (c.call r).kind with same | apart
      · rw [same, carried] at account
        simpa [same, other.symm] using account
      · simpa [apart, other.symm] using account
  case own => exact inv.own
  case kinds => exact inv.kinds
  case written =>
    intro j some
    rcases eq_or_ne j r with rfl | other
    · simp [State.setOut]
    · refine setOut_some s r result (inv.written j ?_)
      exact some.imp_left fun same => absurd (Option.some.inj same).symm other
  case filled => exact inv.filled
  case order => exact inv.order

/-- `Complete` returns the resume task or wakes it. -/
theorem Inv.resume {g : Holders} (inv : Inv c s g) {r : Nat} {batch : List Nat}
    {woken : Nat → Nat} (here : s.pump = .resume r)
    (moved : ∀ k, batch.count k + woken k =
      s.batch.count k + s.woken k + if k = r then 1 else 0) :
    Inv c { s with batch := batch, woken := woken, pump := .waiting } g where
  tracks := by
    have empty : serving c s .pump = PumpPc.serving c .waiting := by rw [serving_pump, here]; rfl
    refine tracks_setPump (s := s) rfl rfl ?_
    dsimp only
    rw [← empty, Function.update_eq_self]
    exact inv.tracks
  busy := inv.busy
  idle := inv.idle
  alone := inv.alone
  account j := by
    have account := inv.account j
    have moved := moved j
    simp only [due, unfinished, here, PumpPc.completing, reduceCtorEq, if_false] at account ⊢
    rcases eq_or_ne j r with rfl | other
    · simp only [if_true] at account moved
      omega
    · simp only [Option.some.injEq, other, other.symm, if_false] at account moved
      omega
  own := inv.own
  kinds := inv.kinds
  written j some := by
    have moved := moved j
    rcases eq_or_ne j r with rfl | other
    · exact inv.written j (.inl (by rw [here]; rfl))
    · rw [if_neg other] at moved
      refine inv.written j (.inr ?_)
      have more : batch.count j + woken j ≠ 0 := by
        rcases some with absurd | mem | now
        · cases absurd
        · have positive : 0 < batch.count j := List.count_pos_iff.mpr mem
          omega
        · have positive : woken j ≠ 0 := now
          omega
      by_cases before : s.woken j = 0
      · exact .inl (List.count_pos_iff.mp (by omega))
      · exact .inr before
  filled := inv.filled
  order := inv.order

/-- The batch goes to the injector. -/
theorem Inv.inject {g : Holders} (inv : Inv c s g) :
    Inv c { s with woken := fun k => s.woken k + s.batch.count k, batch := [] } g where
  tracks := inv.tracks
  busy := inv.busy
  idle := inv.idle
  alone := inv.alone
  account j := by
    have account := inv.account j
    simp only [due, unfinished, List.count_nil] at account ⊢
    omega
  own := inv.own
  kinds := inv.kinds
  written j some := by
    refine inv.written j (some.imp_right ?_)
    rintro (absurd | woken)
    · cases absurd
    · have more : s.woken j + s.batch.count j ≠ 0 := woken
      by_cases before : s.woken j = 0
      · exact .inl (List.count_pos_iff.mp (by omega))
      · exact .inr before
  filled := inv.filled
  order := inv.order

theorem Inv.pumpStep {g : Holders} (inv : Inv c s g) {answer : RingAnswer}
    (allowed : TakenInTurn c s (.pump answer) = true) (stepped : pumpStep c s answer = some t) :
    ∃ g', Inv c t g' := by
  cases here : s.pump with
  | waiting | exited =>
    simp only [Stream.pumpStep, here] at stepped
    cases stepped
  | resubmit stage r =>
    have serves : serving c s .pump = some ((c.call r).kind, some r) := by
      rw [serving_pump, here]
      rfl
    have entered : answer.entered = true := by
      simpa only [TakenInTurn, here] using allowed
    have leaves := submitPrepared_leaves c s r stage answer
    simp only [Stream.pumpStep, here] at stepped
    rcases submitPrepared_cases c s r stage entered
      with taken | ⟨result, refused⟩
    · have on (pc : PumpPc) (none : pc.completing = none) :
          GoesOn s { (submitPrepared c s r stage answer).1 with pump := pc } :=
        .pump inv leaves (by rw [none, here]; rfl)
      have work : workStep c s answer (.prepare stage r) =
          ((submitPrepared c s r stage answer).1,
            match (submitPrepared c s r stage answer).2 with
            | .next stage => some (.prepare stage r)
            | _ => none) := by
        rcases taken with ⟨stage', prepared⟩ | prepared <;> simp only [workStep, prepared]
      have taken' : ∀ stage' r', Work.prepare stage r = .prepare stage' r' →
          TakesOn c s r' stage' answer := by
        intro stage' r' same
        cases same
        exact taken
      rcases taken with ⟨stage', prepared⟩ | prepared
      all_goals
        rw [prepared] at stepped work on
        cases stepped
        refine inv.worked (w := .prepare stage r) (by simp) serves taken' (on _ rfl) ?_ ?_ ?_ rfl ?_
        · rw [work]
          exact serving_setPump rfl rfl
        all_goals rw [work]
    · rw [refused] at stepped leaves
      cases stepped
      refine ⟨g, inv.frame (.pump inv leaves (by rw [here]; rfl)) ?_ rfl rfl rfl rfl⟩
      exact serving_same (fun _ => rfl) (by rw [here]; rfl) rfl
  | publish r result =>
    simp only [Stream.pumpStep, here] at stepped
    cases stepped
    exact inv.publish here
  | advancing r w =>
    have serves : serving c s .pump = some (w.kind c, w.request) := by
      rw [serving_pump, here]
      rfl
    have taken : ∀ stage r, w = .prepare stage r → TakesOn c s r stage answer := by
      rintro stage r rfl
      refine submitPrepared_takes (inv.has_buffers serves rfl) ?_
      simpa only [TakenInTurn, here, decide_eq_true_eq] using allowed
    have leaves := workStep_leaves c s answer w
    simp only [Stream.pumpStep, here] at stepped
    cases next : (workStep c s answer w).2 with
    | none =>
      have done : t = { (workStep c s answer w).1 with pump := .resume r } := by
        revert stepped next
        rcases workStep c s answer w with ⟨u, w'⟩
        rintro stepped rfl
        cases stepped
        rfl
      subst done
      refine inv.worked (by simp) serves taken (.pump inv leaves (by rw [here]; rfl)) ?_ rfl rfl
        leaves.arrived rfl
      rw [next]
      exact serving_setPump rfl rfl
    | some w' =>
      have done : t = { (workStep c s answer w).1 with pump := .advancing r w' } := by
        revert stepped next
        rcases workStep c s answer w with ⟨u, w''⟩
        rintro stepped rfl
        cases stepped
        rfl
      subst done
      refine inv.worked (by simp) serves taken (.pump inv leaves (by rw [here]; rfl)) ?_ rfl rfl
        leaves.arrived rfl
      rw [next]
      exact serving_setPump rfl rfl
  | resume r =>
    simp only [Stream.pumpStep, here] at stepped
    split at stepped
    · cases stepped
      refine ⟨g, inv.resume here fun k => ?_⟩
      rcases eq_or_ne k r with rfl | other
      · rw [Function.update_self, if_pos rfl]
        omega
      · rw [Function.update_of_ne other, if_neg other, Nat.add_zero]
    · cases stepped
      refine ⟨g, inv.resume here fun k => ?_⟩
      rw [List.count_append]
      rcases eq_or_ne k r with rfl | other
      · rw [List.count_singleton_self, if_pos rfl]
        omega
      · rw [if_neg other, List.count_eq_zero.mpr (by simpa using other : k ∉ [r])]
        omega

/-! ## Every run -/

theorem Inv.step {g : Holders} (inv : Inv c s g) (allowed : TakenInTurn c s a = true)
    (stepped : step c s a = some t) : ∃ g', Inv c t g' := by
  cases a with
  | call k =>
    simp only [Stream.step] at stepped
    split at stepped
    · rename_i here
      cases stepped
      exact ⟨g, inv.before (k := k) (by rw [here]; rfl) (by rw [here]; rfl) rfl rfl (by simp) rfl
        rfl rfl rfl rfl rfl rfl rfl (fun _ some => some) (fun _ _ => rfl) (by simp)⟩
    · cases stepped
  | caller k answer => exact inv.callerStep allowed stepped
  | reap r res => exact inv.reap stepped
  | pump answer => exact inv.pumpStep allowed stepped
  | inject =>
    simp only [Stream.step] at stepped
    split at stepped
    · cases stepped
      exact ⟨g, inv.inject⟩
    · cases stepped
  | exit =>
    simp only [Stream.step] at stepped
    split at stepped
    · rename_i enabled
      cases stepped
      refine ⟨g, inv.frame (.pump inv (.refl s) (by rw [enabled.1]; rfl)) ?_ rfl rfl rfl rfl⟩
      exact serving_same (fun _ => rfl) (by rw [enabled.1]; rfl) rfl
    · cases stepped
  | start =>
    simp only [Stream.step] at stepped
    cases stepped
    refine ⟨g, inv.frame ⟨rfl, rfl, fun _ some => some, fun _ some => some, ?_, fun _ => rfl,
      fun _ here => here, inv.own⟩ (serving_same (fun _ => rfl) ?_ rfl) rfl rfl rfl rfl⟩
    · dsimp only
      split
      · rename_i here
        rw [here]
        rfl
      · rfl
    · dsimp only
      split
      · rename_i here
        rw [here]
        rfl
      · rfl
  | cancel _ | stop =>
    cases stepped
    exact ⟨g, inv.frame ⟨rfl, rfl, fun _ some => some, fun _ some => some, rfl, fun _ => rfl,
      fun _ here => here, inv.own⟩ (serving_same (fun _ => rfl) rfl rfl) rfl rfl rfl rfl⟩

/-- When every request is taken in its turn, none is stranded. -/
theorem taken_in_turn_served (c : Setup) {s : State}
    (reach : Reach (step c) (fun s a => TakenInTurn c s a = true) initial s) : Served c s := by
  have inv : ∃ g, Inv c s g := by
    refine reach.invariant (I := fun s => ∃ g, Inv c s g) ⟨_, initial_inv c⟩ ?_
    rintro s t a ⟨g, inv⟩ allowed stepped
    exact inv.step allowed stepped
  obtain ⟨g, inv⟩ := inv
  exact inv.served

/-- Every call sends one buffer, under a token of its own. -/
def sends : Setup where
  call k := { kind := .send, bufs := [4], token := k, pinned := false }
  ringUp := true

/-- The second of two sends is queued while the first is with the ring. -/
def queued : List Label :=
  List.flatten [[.start, .call 0, .call 1], List.replicate 5 (.caller 0 .taken),
    List.replicate 2 (.caller 1 .taken)]

/-- The first one completes, and the pump is about to start the second. -/
def completed : List Label :=
  [.reap 0 (.bytes 4), .pump .taken, .pump .taken]

def bothSent : List Label :=
  List.flatten [queued, completed, List.replicate 4 (.pump .taken), [.inject, .reap 1 (.bytes 4)],
    List.replicate 3 (.pump .taken), [.inject]]

theorem bothSent_served :
    Served sends ((run (step sends) (fun s a => TakenInTurn sends s a = true) initial
      bothSent).getD initial) :=
  taken_in_turn_served sends (.of_isSome bothSent (by decide +kernel))

/-- The second send's token is cancelled while it is queued. -/
def cancelledInQueue : List Label :=
  List.flatten [queued, [.cancel 1], completed, List.replicate 3 (.pump .taken), [.inject]]

def stranded : State :=
  (run (step sends) anyStep initial cancelledInQueue).getD initial

/-- The second send answered false, has its result, and nobody will wake it. -/
theorem stranded_not_served :
    ∃ s, Reach (step sends) anyStep initial s ∧ ¬ Served sends s := by
  refine ⟨stranded, .of_isSome cancelledInQueue (by decide +kernel), fun served => ?_⟩
  have free (kind : Kind) : (stranded.chain kind).busy = false := by
    cases kind <;> decide +kernel
  have waits : stranded.caller 1 = .returned false := by decide +kernel
  have unwoken : stranded.woken 1 = 0 := by decide +kernel
  rcases served.pending 1 waits unwoken with mem | ⟨p, kind, serves⟩ | completing | mem
  · exact absurd mem (by decide +kernel)
  · have busy := (served.busy kind).mpr ⟨p, _, serves⟩
    rw [free kind] at busy
    cases busy
  · exact absurd completing (by decide +kernel)
  · exact absurd mem (by decide +kernel)

end JLibSched.Stream
