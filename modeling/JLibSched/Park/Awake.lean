import JLibSched.Park.Model
import Mathlib.Tactic

/-!
# No worker sleeps on delivered work

What a worker that is about to block, or blocks, has left in an inbox was pushed after it had looked
there, so after it had published; whoever pushed it has not yet come to the exchange of the word.
That exchange finds the word published and calls the kernel.
-/

namespace JLibSched.Park

open Transition Parking

variable {n : Nat} {role : Role} {s t : State n} {a : Label n}

/-! ## The protocol -/

/-- What may keep the worker up: a task of a push, and a request to stop. -/
inductive Source where
  | task (b : Inbox) (serial : Nat)
  | stop

/-- The load that looks for it. -/
def Source.check : Source → Check
  | .task b _ => .inbox b
  | .stop => .stopped

/-- The worker has looked for it since it published. -/
def Pc.Looked : Pc → Source → Prop
  | .recheck rest, i => i.check ∉ rest
  | .testWord, _ | .testAgain, _ | .wait, _ | .asleep, _ => True
  | _, _ => False

def State.Present (s : State n) : Source → Prop
  | .task b serial => serial ∈ s.inbox b
  | .stop => s.running = false

/-- The other thread has still to come to its exchange of the word. -/
def PartyPc.Owes : PartyPc → Source → Prop
  | .link b serial, i => i = .task b serial
  | .mark (.push b serial), i | .wake (.push b serial), i => i = .task b serial
  | .wake .stop, i => i = .stop
  | _, _ => False

/-- The worker and the other threads as sleeper and wakers. -/
def protocol (n : Nat) : Protocol (State n) Source where
  parked s := s.word = .parked
  looked s i := s.worker.Looked i
  present := State.Present
  owed s i := ∃ p, (s.party p).Owes i
  asleep s := s.worker = .asleep
  waking s := ∃ p, s.party p = .futexWake

theorem initial_watchful : (protocol n).Watchful (initial n) where
  announced parked := by cases parked
  woken asleep := by cases asleep

/-- Both kinds of worker look for everything. -/
theorem Role.mem_rechecks (role : Role) (i : Source) : i.check ∈ role.rechecks := by
  cases i with
  | stop => cases role <;> decide
  | task b serial => cases role <;> cases b <;> simp [Source.check, rechecks]

/-! ## Steps -/

/-- A step that leaves the other threads and the inboxes alone, and starts no sleep but over the
published word. -/
theorem moves_worker (party : t.party = s.party) (inbox : t.inbox = s.inbox)
    (running : t.running = s.running)
    (looks : t.word = .parked → ∀ i, t.worker.Looked i →
      s.word = .parked ∧ s.worker.Looked i ∨ ¬ t.Present i)
    (asleep : t.worker = .asleep → t.word = .parked) : (protocol n).Moves s t where
  looks := looks
  fills _ i _ present := by
    refine .inl ?_
    cases i with
    | task b serial =>
      change serial ∈ t.inbox b at present
      rw [inbox] at present
      exact present
    | stop => exact running.symm.trans present
  pays _ i owed _ := by
    obtain ⟨p, owes⟩ := owed
    exact ⟨p, party ▸ owes⟩
  wakes down := .inl (asleep down)

/-- The worker goes where it has looked for nothing. -/
theorem moves_go (pc : Pc) (blank : ∀ i, ¬ pc.Looked i) (up : pc ≠ .asleep) :
    (protocol n).Moves s (s.go pc) :=
  moves_worker rfl rfl rfl (fun _ i looked => absurd looked (blank i)) fun down => absurd down up

/-- The worker goes on without a look. -/
theorem moves_on (pc : Pc) (looked : ∀ i, pc.Looked i → s.worker.Looked i) (up : pc ≠ .asleep) :
    (protocol n).Moves s (s.go pc) :=
  moves_worker rfl rfl rfl (fun parked i now => .inl ⟨parked, looked i now⟩) fun down => absurd down up

theorem moves_exchange {expected desired : Word} {success failure : Pc}
    (succeeds : ∀ i, ¬ success.Looked i) (fails : ∀ i, ¬ failure.Looked i)
    (up : success ≠ .asleep) (up' : failure ≠ .asleep) :
    (protocol n).Moves s (s.exchange expected desired success failure) := by
  unfold State.exchange
  split
  · exact moves_worker rfl rfl rfl (fun _ i looked => absurd looked (succeeds i))
      fun down => absurd down up
  · exact moves_go failure fails up'

/-- A load that finds nothing shows that nothing is there. -/
theorem absent_of_hits {i : Source} {answer : Bool} (missed : i.check.hits s answer = false) :
    ¬ s.Present i := by
  cases i with
  | stop =>
    intro stopped
    simp only [Source.check, Check.hits] at missed
    rw [show s.running = false from stopped] at missed
    cases missed
  | task b serial =>
    intro mem
    simp only [Source.check, Check.hits, Bool.or_eq_false_iff, Bool.not_eq_false',
      List.isEmpty_iff] at missed
    have mem : serial ∈ s.inbox b := mem
    rw [missed.1] at mem
    cases mem

theorem moves_recheck {check : Check} {rest : List Check} {answer : Bool}
    (here : s.worker = .recheck (check :: rest)) :
    (protocol n).Moves s
      (s.go (if check.hits s answer then .undo else .recheck rest)) := by
  split
  · exact moves_go .undo (fun _ => id) (by simp)
  · rename_i missed
    refine moves_worker rfl rfl rfl (fun parked i looked => ?_) (by simp [State.go])
    by_cases same : i.check = check
    · refine .inr ?_
      subst same
      exact absent_of_hits (s := s) (Bool.eq_false_of_not_eq_true missed)
    · refine .inl ⟨parked, ?_⟩
      rw [here]
      exact fun mem => (List.mem_cons.mp mem).elim same looked

theorem moves_workerStep {answer : Bool} (stepped : workerStep role s answer = some t) :
    (protocol n).Moves s t := by
  unfold workerStep at stepped
  cases here : s.worker with
  | recheck rest =>
    cases rest with
    | nil =>
      simp only [here] at stepped
      cases stepped
      refine moves_on _ (fun i _ => ?_) (by simp)
      rw [here]
      exact List.not_mem_nil
    | cons check rest =>
      simp only [here] at stepped
      cases stepped
      exact moves_recheck here
  | register =>
    simp only [here] at stepped
    cases stepped
    exact moves_go _ (fun i looked => looked (role.mem_rechecks i)) (by simp)
  | testWord =>
    simp only [here] at stepped
    cases stepped
    refine moves_on _ (fun i _ => ?_) (by split <;> [split; skip] <;> simp)
    rw [here]
    trivial
  | testAgain =>
    simp only [here] at stepped
    cases stepped
    refine moves_on _ (fun i _ => ?_) (by split <;> simp)
    rw [here]
    trivial
  | wait =>
    simp only [here] at stepped
    cases stepped
    refine moves_worker rfl rfl rfl (fun parked i _ => .inl ⟨parked, ?_⟩) fun down => ?_
    · rw [here]
      trivial
    · simp only [State.go] at down ⊢
      split at down
      · assumption
      · cases down
  | asleep =>
    simp only [here] at stepped
    split at stepped
    · cases stepped
      refine moves_on _ (fun i _ => ?_) (by simp)
      rw [here]
      trivial
    · cases stepped
  | preCheck rest =>
    cases rest with
    | nil =>
      simp only [here] at stepped
      cases stepped
      exact moves_go _ (fun _ => id) (by simp)
    | cons check rest =>
      simp only [here] at stepped
      cases stepped
      split <;> exact moves_go _ (fun _ => id) (by simp)
  | consume | publish | undoNotified =>
    simp only [here] at stepped
    cases stepped
    exact moves_exchange (fun _ => id) (fun _ => id) (by simp) (by simp)
  | consumeAgain | undo | awake =>
    simp only [here] at stepped
    cases role with
    | compute =>
      cases stepped
      exact moves_exchange (fun _ => id) (fun _ => id) (by simp) (by simp)
    | main =>
      cases stepped
      exact moves_worker rfl rfl rfl (fun parked => by cases parked) (by simp [State.go])
  | clearQueued | yieldMark =>
    simp only [here] at stepped
    cases stepped
    exact moves_worker rfl rfl rfl (fun _ i looked => looked.elim) (by simp [State.go])
  | pass | yieldLink =>
    simp only [here] at stepped
    cases stepped
    exact moves_go _ (fun _ => id) (by simp)
  | top | testQueued | testRunning | kept | testStop =>
    simp only [here] at stepped
    cases stepped
    split <;> exact moves_go _ (fun _ => id) (by simp)
  | testPaused =>
    simp only [here] at stepped
    cases stepped
    split <;> exact moves_go _ (fun _ => id) (by simp)
  | leaveHunt =>
    simp only [here] at stepped
    cases stepped
    repeat' split
    all_goals exact moves_go _ (fun _ => id) (by simp)
  | exited =>
    simp only [here] at stepped
    cases stepped

/-- Another thread moves. -/
theorem moves_party {p : Fin n} (pc : PartyPc) (party : t.party = Function.update s.party p pc)
    (worker : t.worker = s.worker) (word : t.word = s.word)
    (fills : ∀ i, t.Present i → s.Present i ∨ pc.Owes i)
    (pays : ∀ i, (s.party p).Owes i → pc.Owes i) (wakes : s.party p ≠ .futexWake) :
    (protocol n).Moves s t where
  looks parked i looked := by
    change t.worker.Looked i at looked
    rw [worker] at looked
    exact .inl ⟨word.symm.trans parked, looked⟩
  fills _ i _ present := by
    refine (fills i present).imp_right fun owes => ⟨p, ?_⟩
    rw [party, Function.update_self]
    exact owes
  pays _ i owed _ := by
    obtain ⟨p', owes⟩ := owed
    refine ⟨p', ?_⟩
    rw [party]
    rcases eq_or_ne p' p with rfl | other
    · rw [Function.update_self]
      exact pays i owes
    · rw [Function.update_of_ne other]
      exact owes
  wakes down := by
    by_cases parked : s.word = .parked
    · exact .inl (word.trans parked)
    · refine .inr (.inr ⟨worker.symm.trans down, parked, ?_⟩)
      rintro ⟨p', here⟩
      refine ⟨p', ?_⟩
      have other : p' ≠ p := by
        rintro rfl
        exact wakes here
      rw [party, Function.update_of_ne other]
      exact here

/-- The exchange of `Wake`. -/
theorem moves_wake {p : Fin n} {cause : Cause} (here : s.party p = .wake cause) :
    (protocol n).Moves s ({ s with word := .notified }.setParty p
      (if s.word = Word.parked then .futexWake else .idle)) where
  looks parked := by cases parked
  fills parked := by cases parked
  pays parked := by cases parked
  wakes down := by
    refine .inr ?_
    by_cases parked : s.word = .parked
    · refine .inl ⟨p, ?_⟩
      simp only [State.setParty, Function.update_self]
      exact if_pos parked
    · refine .inr ⟨down, parked, ?_⟩
      rintro ⟨p', there⟩
      refine ⟨p', ?_⟩
      have other : p' ≠ p := by
        rintro rfl
        rw [here] at there
        cases there
      simp only [State.setParty, Function.update_of_ne other]
      exact there

/-- `FutexWakeOne`. -/
theorem moves_futexWake {p : Fin n} (here : s.party p = .futexWake) :
    (protocol n).Moves s ({ s with
      worker := if s.worker = Pc.asleep then .testWord else s.worker }.setParty p .idle) where
  looks parked i looked := by
    refine .inl ⟨parked, ?_⟩
    simp only [protocol, State.setParty] at looked ⊢
    split at looked
    · rename_i down
      rw [down]
      trivial
    · exact looked
  fills _ i _ present := by
    cases i <;> exact .inl present
  pays _ i owed _ := by
    obtain ⟨p', owes⟩ := owed
    refine ⟨p', ?_⟩
    have other : p' ≠ p := by
      rintro rfl
      rw [here] at owes
      exact owes
    simp only [State.setParty, Function.update_of_ne other]
    exact owes
  wakes down := by
    simp only [protocol, State.setParty] at down
    split at down
    · cases down
    · contradiction

theorem moves_partyStep {p : Fin n} (stepped : partyStep s p = some t) : (protocol n).Moves s t := by
  unfold partyStep at stepped
  cases here : s.party p with
  | idle =>
    simp only [here] at stepped
    cases stepped
  | link b serial =>
    simp only [here] at stepped
    cases stepped
    refine moves_party (.mark (.push b serial)) rfl rfl rfl (fun i => ?_) (fun i owes => ?_)
      (by simp [here])
    · cases i <;> exact .inl
    · rw [here] at owes
      exact owes
  | mark cause =>
    simp only [here] at stepped
    cases stepped
    refine moves_party (.wake cause) rfl rfl rfl (fun i => ?_) (fun i owes => ?_) (by simp [here])
    · cases i <;> exact .inl
    · rw [here] at owes
      cases cause with
      | push b serial => exact owes
      | stop | other => exact owes.elim
  | wake cause =>
    simp only [here] at stepped
    cases stepped
    exact moves_wake here
  | futexWake =>
    simp only [here] at stepped
    cases stepped
    exact moves_futexWake here

theorem moves_step (stepped : step role s a = some t) : (protocol n).Moves s t := by
  cases a with
  | worker answer => exact moves_workerStep stepped
  | pop b =>
    simp only [step] at stepped
    split at stepped
    · rename_i serial rest here waits
      split at stepped
      · cases stepped
        refine ⟨fun _ i looked => ?_, fun _ i looked => ?_, fun _ i owed _ => owed, fun down => ?_⟩
        · simp only [protocol, here] at looked
          exact looked.elim
        · simp only [protocol, here] at looked
          exact looked.elim
        · simp only [protocol, here] at down
          cases down
      · cases stepped
    · cases stepped
  | yield =>
    simp only [step] at stepped
    split at stepped
    · cases stepped
      exact ⟨fun _ i looked => looked.elim, fun _ i looked => looked.elim,
        fun _ i owed _ => owed, fun down => by cases down⟩
    · cases stepped
  | leave | enter =>
    simp only [step] at stepped
    split at stepped
    · cases stepped
      exact moves_go _ (fun _ => id) (by simp)
    · cases stepped
  | push p b more =>
    simp only [step] at stepped
    split at stepped
    · rename_i here
      cases stepped
      refine moves_party (.link b s.pushes) rfl rfl rfl (fun i present => ?_) (fun i owes => ?_)
        (by simp [here])
      · cases i with
        | stop => exact .inl present
        | task b' serial =>
          have present : serial ∈ Function.update s.inbox b
            (s.inbox b ++ List.replicate (more + 1) s.pushes) b' := present
          rcases eq_or_ne b' b with rfl | other
          · rw [Function.update_self] at present
            rcases List.mem_append.mp present with old | new
            · exact .inl old
            · rw [List.eq_of_mem_replicate new]
              exact .inr rfl
          · rw [Function.update_of_ne other] at present
            exact .inl present
      · rw [here] at owes
        exact owes.elim
    · cases stepped
  | hold p | notify p =>
    simp only [step] at stepped
    split at stepped
    · rename_i here
      cases stepped
      refine moves_party _ rfl rfl rfl (fun i => ?_) (fun i owes => ?_) (by simp [here])
      · cases i <;> exact .inl
      · rw [here] at owes
        exact owes.elim
    · cases stepped
  | stop p =>
    simp only [step] at stepped
    split at stepped
    · rename_i here
      cases stepped
      refine moves_party (.wake .stop) rfl rfl rfl (fun i present => ?_) (fun i owes => ?_)
        (by simp [here])
      · cases i with
        | task b serial => exact .inl present
        | stop => exact .inr rfl
      · rw [here] at owes
        exact owes.elim
    · cases stepped
  | party p => exact moves_partyStep stepped

/-! ## Every run -/

/-- The worker blocks, or is about to block after its last look. -/
def Pc.Blocking : Pc → Prop
  | .testWord | .testAgain | .wait | .asleep => True
  | _ => False

/-- The thread is in a push to the inbox, and has not come to its exchange of the word. -/
def PartyPc.Announces (b : Inbox) (serial : Nat) : PartyPc → Prop
  | .link b' serial' | .mark (.push b' serial') | .wake (.push b' serial') =>
    b' = b ∧ serial' = serial
  | _ => False

/-- What the worker leaves behind, if it blocks. -/
structure Awake (s : State n) : Prop where
  /-- Every task in an inbox belongs to a push that will find the word published. -/
  announced : s.worker.Blocking → s.word = .parked → ∀ b, ∀ serial ∈ s.inbox b,
    ∃ p, (s.party p).Announces b serial
  /-- A request to stop has still to find the word published. -/
  stopped : s.worker.Blocking → s.word = .parked → s.running = false →
    ∃ p, s.party p = .wake .stop
  /-- The kernel still holds the worker: nobody has changed the word, or its wake is under way. -/
  woken : s.worker = .asleep → s.word = .parked ∨ ∃ p, s.party p = .futexWake
  /-- With nobody on the way, nothing is left behind. -/
  quiet : s.worker = .asleep → (∀ p, s.party p = .idle) →
    s.running = true ∧ ∀ b, s.inbox b = []

theorem Pc.Blocking.looked {pc : Pc} (blocking : pc.Blocking) (i : Source) : pc.Looked i := by
  cases pc <;> trivial

theorem PartyPc.Owes.announces {pc : PartyPc} {b : Inbox} {serial : Nat}
    (owes : pc.Owes (.task b serial)) : pc.Announces b serial := by
  cases pc with
  | link b' serial' =>
    cases owes
    exact ⟨rfl, rfl⟩
  | mark cause | wake cause =>
    cases cause with
    | push b' serial' =>
      cases owes
      exact ⟨rfl, rfl⟩
    | stop | other => cases owes
  | idle | futexWake => cases owes

theorem PartyPc.Owes.stops {pc : PartyPc} (owes : pc.Owes .stop) : pc = .wake .stop := by
  cases pc with
  | wake cause =>
    cases cause with
    | stop => rfl
    | push | other => cases owes
  | mark cause => cases cause <;> cases owes
  | link | idle | futexWake => cases owes

theorem awake_of_watchful (watchful : (protocol n).Watchful s) : Awake s where
  announced blocking parked b serial mem := by
    obtain ⟨p, owes⟩ := watchful.announced parked (.task b serial) (blocking.looked _) mem
    exact ⟨p, owes.announces⟩
  stopped blocking parked ended := by
    obtain ⟨p, owes⟩ := watchful.announced parked .stop (blocking.looked _) ended
    exact ⟨p, owes.stops⟩
  woken := watchful.woken
  quiet down idle := by
    have blocking : s.worker.Blocking := by
      rw [down]
      trivial
    have calm : ¬ (protocol n).waking s := by
      rintro ⟨p, here⟩
      rw [idle p] at here
      cases here
    have paid (i : Source) : ¬ (protocol n).owed s i := by
      rintro ⟨p, owes⟩
      rw [idle p] at owes
      exact owes
    have rests (i : Source) : ¬ s.Present i :=
      watchful.rests down calm paid i (blocking.looked i)
    refine ⟨by simpa [State.Present] using rests .stop, fun b => ?_⟩
    exact List.eq_nil_iff_forall_not_mem.mpr fun serial => rests (.task b serial)

theorem watchful (reach : Reach (step role) anyStep (initial n) s) : (protocol n).Watchful s :=
  reach.invariant initial_watchful fun watchful _ stepped => watchful.step (moves_step stepped)

/-- No worker sleeps on delivered work, on a request to stop, or through a wake. -/
theorem parks_awake (reach : Reach (step role) anyStep (initial n) s) : Awake s :=
  awake_of_watchful (watchful reach)

/-- What is left in an inbox of a worker that blocks belongs to a push that has not come to its
exchange of the word. -/
theorem left_announced (reach : Reach (step role) anyStep (initial n) s)
    (blocking : s.worker.Blocking) (parked : s.word = .parked) {b : Inbox} {serial : Nat}
    (left : serial ∈ s.inbox b) : ∃ p, (s.party p).Announces b serial := by
  obtain ⟨p, owes⟩ := (watchful reach).announced parked (.task b serial) (blocking.looked _) left
  exact ⟨p, owes.announces⟩

/-- The worker falls asleep, and two tasks are pushed over it and marked. -/
def pushedOverLabels : List (Label 1) :=
  List.replicate 10 (.worker false) ++ [.worker true] ++
    List.replicate 14 (.worker false) ++ [.push 0 .normal 1, .party 0, .party 0]

def pushedOver : State 1 :=
  (run (step .compute) anyStep (initial 1) pushedOverLabels).getD (initial 1)

theorem pushedOver_awake :
    pushedOver.worker = .asleep ∧ pushedOver.inbox .normal = [0, 0] ∧ Awake pushedOver :=
  ⟨by decide +kernel, by decide +kernel,
    parks_awake (Reach.of_isSome pushedOverLabels (by decide +kernel))⟩

theorem pushedOver_announced : ∃ p, (pushedOver.party p).Announces .normal 0 := by
  have here : pushedOver.worker = .asleep := by decide +kernel
  have blocking : pushedOver.worker.Blocking := by
    rw [here]
    trivial
  exact left_announced (Reach.of_isSome pushedOverLabels (by decide +kernel)) blocking
    (by decide +kernel) (by decide +kernel)

end JLibSched.Park
