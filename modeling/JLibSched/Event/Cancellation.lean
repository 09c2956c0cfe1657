import JLibSched.Event.Waiters

/-!
# Waiters of a cancelled scope

A wait tests its token before it links its task, and does not test it again.  A `CancelWaiters`
that goes through the list in between does not see the task, and nobody comes back for it.  If
no `CancelWaiters` of a cancelled scope meets a waiter of that scope there, none of the scope is
linked from then on.
-/

namespace JLibSched.Event

open Transition WaitQueue Cancel Links Wait

variable {n : Nat} {s t : State n} {q q' : Queue n} {a : Label n} {p u w : Fin n}

/-- A task is met on the way from `head_`. -/
def State.Linked (s : State n) (w : Fin n) : Prop :=
  ∃ chain, Leads s.links.next s.links.head chain none ∧ w ∈ chain

/-- No linked task lies within a scope that was cancelled when a `CancelWaiters` of it went through
the list. -/
def NoneLost (s : State n) : Prop :=
  ∀ w, s.Linked w → ∀ tok ∈ s.swept, s.within tok w = false

/-- A wait that has tested its token and not yet linked its task. -/
def Pc.Joining (pc : Pc n) : Prop := pc = .tested ∨ pc = .adding

instance (pc : Pc n) : Decidable pc.Joining :=
  inferInstanceAs (Decidable (pc = .tested ∨ pc = .adding))

/-- No waiter of a cancelled scope stands between its test and `AddWaiter` when a `CancelWaiters`
of the scope goes through the list. -/
def InTime (s : State n) (tok : Nat) : Prop :=
  Marked s.tasks.slots tok → ∀ w, (s.pc w).Joining → s.within tok w = false

instance (s : State n) (tok : Nat) : Decidable (InTime s tok) :=
  inferInstanceAs (Decidable (Marked s.tasks.slots tok →
    ∀ w, (s.pc w).Joining → s.within tok w = false))

/-- The scopes of waiters stay alive. -/
def KeepScopes (s : State n) (slots : Table) : Prop :=
  ∀ w, (s.pc w).Joining ∨ s.pc w = .parked → Alive s.tasks.slots slots (s.tasks.token w)

instance (s : State n) (slots : Table) : Decidable (KeepScopes s slots) :=
  inferInstanceAs (Decidable (∀ w, (s.pc w).Joining ∨ s.pc w = .parked →
    Alive s.tasks.slots slots (s.tasks.token w)))

def inTime (s : State n) : Label n → Prop
  | .cancelWaiters _ tok => InTime s tok
  | .tasks tasks => KeepScopes s tasks.slots
  | _ => True

instance (s : State n) : (a : Label n) → Decidable (inTime s a)
  | .cancelWaiters _ tok => inferInstanceAs (Decidable (InTime s tok))
  | .tasks tasks => inferInstanceAs (Decidable (KeepScopes s tasks.slots))
  | .waitOnEvent _ | .waitOnEventCancellable _ | .signalAll _ | .advance _ | .reuse _ _ _ =>
    isTrue trivial

/-- It is on its way into the list, or in it. -/
def Waits (s : State n) (q : Queue n) (w : Fin n) : Prop := (s.pc w).Joining ∨ w ∈ q.queue

/-- No waiter lies within a swept scope. -/
structure Swept (s : State n) (q : Queue n) : Prop where
  marked : ∀ tok ∈ s.swept, Marked s.tasks.slots tok
  none : ∀ w, Waits s q w → ∀ tok ∈ s.swept, s.within tok w = false

theorem initial_swept (tasks : Tasks n) : Swept (initial tasks) q where
  marked tok absurd := by cases absurd
  none w _ tok absurd := by cases absurd

theorem Rep.linked_iff (rep : Rep s q) (w : Fin n) : s.Linked w ↔ w ∈ q.queue := by
  constructor
  · rintro ⟨chain, leads, mem⟩
    exact (leads.unique rep.holds.forth) ▸ mem
  · exact fun mem => ⟨q.queue, rep.holds.forth, mem⟩

theorem Swept.noneLost (swept : Swept s q) (rep : Rep s q) : NoneLost s :=
  fun w linked => swept.none w (.inr ((rep.linked_iff w).mp linked))

/-- A task that is not cancelled lies within no swept scope. -/
theorem within_of_alert (marked : ∀ tok ∈ s.swept, Marked s.tasks.slots tok)
    (alert : s.tasks.isTaskCancelled w = false) (tok : Nat) (mem : tok ∈ s.swept) :
    s.within tok w = false := by
  by_contra within
  have cancelled := isWithin_cancelled (marked tok mem) (Bool.eq_true_of_not_eq_false within)
  unfold Tasks.isTaskCancelled at alert
  rw [cancelled, Bool.or_true] at alert
  cases alert

/-- Who waits after a step waited before, or has just passed its test. -/
theorem Turns.joining (turns : Turns s t) (here : (t.pc w).Joining) :
    (s.pc w).Joining ∨ s.tasks.isTaskCancelled w = false := by
  cases turns with
  | nobody same =>
    rw [same] at here
    exact .inl here
  | mover p pc moved turn =>
    rw [moved] at here
    rcases eq_or_ne w p with rfl | other
    · rw [Function.update_self] at here
      rcases here with rfl | rfl
      · exact .inr turn
      · exact .inl (.inl turn)
    · rw [Function.update_of_ne other] at here
      exact .inl here
  | waker p v cancel following there woke =>
    subst woke
    simp only [State.go, State.wake] at here
    rcases eq_or_ne w p with rfl | notP
    · rw [Function.update_self] at here
      rcases here with absurd | absurd
      · cases absurd
      · cases absurd
    · rw [Function.update_of_ne notP] at here
      rcases eq_or_ne w v with rfl | other
      · rw [Function.update_self] at here
        rcases here with absurd | absurd
        · cases absurd
        · cases absurd
      · rw [Function.update_of_ne other] at here
        exact .inl here

/-- Who is linked after a step was linked before, or was about to be. -/
theorem Delivered.before (delivered : Delivered s q a t q') (mem : w ∈ q'.queue) : Waits s q w := by
  by_cases cancels : ∃ u tok, a = .cancelWaiters u tok
  · obtain ⟨u, tok, label⟩ := cancels
    rw [(delivered.cancel u tok label).1] at mem
    exact .inr (List.mem_of_mem_filter mem)
  by_cases signals : ∃ u, a = .advance u ∧ s.pc u = .detaching
  · obtain ⟨u, label, here⟩ := signals
    rw [(delivered.signal u label here).1] at mem
    cases mem
  by_cases links : ∃ u, a = .advance u ∧ s.pc u = .adding
  · obtain ⟨u, label, here⟩ := links
    rw [delivered.link u label here] at mem
    rcases List.mem_append.mp mem with before | last
    · exact .inr before
    · exact .inl (.inr (List.mem_singleton.mp last ▸ here))
  rw [delivered.still] at mem
  · exact .inr mem
  · intro u label
    exact ⟨fun here => links ⟨u, label, here⟩, fun here => signals ⟨u, label, here⟩⟩
  · intro u tok label
    exact cancels ⟨u, tok, label⟩

/-- The scopes, the tokens and the swept scopes are as before. -/
structure SameScopes (s t : State n) : Prop where
  swept : t.swept = s.swept
  slots : t.tasks.slots = s.tasks.slots
  token : t.tasks.token = s.tasks.token

theorem SameScopes.within (same : SameScopes s t) (tok : Nat) (w : Fin n) :
    t.within tok w = s.within tok w := by
  unfold State.within
  rw [same.slots, same.token]

theorem advance_scopes (stepped : advance s p = some t) : SameScopes s t := by
  unfold advance at stepped
  split at stepped
  case h_7 p' cancel w following here =>
    cases stepped
    cases cancel with
    | false => exact ⟨rfl, rfl, rfl⟩
    | true => exact ⟨rfl, rfl, rfl⟩
  case h_10 | h_11 => cases stepped
  all_goals
    cases stepped
    exact ⟨rfl, rfl, rfl⟩

/-- A step that may change the scopes, or sweep one. -/
def Label.touchesScopes : Label n → Bool
  | .cancelWaiters _ _ | .tasks _ => true
  | .waitOnEvent _ | .waitOnEventCancellable _ | .signalAll _ | .advance _ | .reuse _ _ _ => false

theorem step_scopes (stepped : step s a = some t) (calm : a.touchesScopes = false) :
    SameScopes s t := by
  cases a with
  | advance p => exact advance_scopes stepped
  | cancelWaiters | tasks => cases calm
  | waitOnEventCancellable p =>
    simp only [step] at stepped
    split at stepped
    · cases stepped
      split
      · exact ⟨rfl, rfl, rfl⟩
      · exact ⟨rfl, rfl, rfl⟩
    · cases stepped
  | waitOnEvent p | signalAll p =>
    simp only [step] at stepped
    split at stepped
    · cases stepped
      exact ⟨rfl, rfl, rfl⟩
    · cases stepped
  | reuse p next prev =>
    simp only [step] at stepped
    split at stepped
    · cases stepped
    · cases stepped
      exact ⟨rfl, rfl, rfl⟩

/-- A `CancelWaiters` changes no scope, and only sweeps its own. -/
theorem sweep_scopes {tok : Nat} (stepped : step s (.cancelWaiters p tok) = some t) :
    t.tasks = s.tasks ∧
      t.swept = if Marked s.tasks.slots tok then tok :: s.swept else s.swept := by
  simp only [step] at stepped
  split at stepped
  · unfold State.cancelWaiters at stepped
    split at stepped
    · rename_i all
      cases stepped
      exact ⟨rfl, (if_neg fun marked => marked.valid all).symm⟩
    · obtain ⟨found, -, rfl⟩ := Option.map_eq_some_iff.mp stepped
      exact ⟨rfl, rfl⟩
  · cases stepped

theorem Swept.calm (swept : Swept s q) (same : SameScopes s t) (turns : Turns s t)
    (delivered : Delivered s q a t q') : Swept t q' where
  marked tok mem := by
    rw [same.slots]
    exact swept.marked tok (same.swept ▸ mem)
  none w waits tok mem := by
    rw [same.within]
    rw [same.swept] at mem
    rcases waits with joining | linked
    · rcases turns.joining joining with before | alert
      · exact swept.none w (.inl before) tok mem
      · exact within_of_alert swept.marked alert tok mem
    · exact swept.none w (delivered.before linked) tok mem

theorem Swept.sweep {tok : Nat} (swept : Swept s q) (inTime : InTime s tok)
    (stepped : step s (.cancelWaiters p tok) = some t)
    (delivered : Delivered s q (.cancelWaiters p tok) t q') : Swept t q' := by
  obtain ⟨tasks, scopes⟩ := sweep_scopes stepped
  have turns := turns_of_step stepped
  have within (other : Nat) (w : Fin n) : t.within other w = s.within other w := by
    unfold State.within
    rw [tasks]
  have old (w : Fin n) (waits : Waits t q' w) (other : Nat) (mem : other ∈ s.swept) :
      t.within other w = false := by
    rw [within]
    rcases waits with joining | linked
    · rcases turns.joining joining with before | alert
      · exact swept.none w (.inl before) other mem
      · exact within_of_alert swept.marked alert other mem
    · exact swept.none w (delivered.before linked) other mem
  by_cases marked : Marked s.tasks.slots tok
  · rw [if_pos marked] at scopes
    constructor
    case marked =>
      rw [scopes, tasks]
      exact List.forall_mem_cons.mpr ⟨marked, swept.marked⟩
    case none =>
      rw [scopes]
      intro w waits other mem
      rcases List.mem_cons.mp mem with rfl | before
      · rw [within]
        rcases waits with joining | linked
        · rcases turns.joining joining with before | alert
          · exact inTime marked w before
          · -- it was not cancelled, and the scope was
            exact within_of_alert (s := { s with swept := [other] })
              (List.forall_mem_cons.mpr ⟨marked, nofun⟩) alert other (List.mem_singleton_self _)
        · -- the sweep has left it in the list
          rw [(delivered.cancel p other rfl).1] at linked
          have stays := (List.mem_filter.mp linked).2
          rw [covers_some marked.valid] at stays
          exact Bool.eq_false_of_not_eq_true fun here => by
            rw [here] at stays
            cases stays
      · exact old w waits other before
  · rw [if_neg marked] at scopes
    constructor
    case marked =>
      rw [scopes, tasks]
      exact swept.marked
    case none =>
      rw [scopes]
      exact old

theorem Swept.tasks {tasks : Tasks n} (swept : Swept s q) (rep : Rep s q)
    (keeps : s.KeepsTasks tasks) (alive : KeepScopes s tasks.slots) :
    Swept { s with
      tasks := tasks
      swept := stillAlive s.swept s.tasks.slots tasks.slots } q where
  marked tok mem := by
    obtain ⟨before, lives⟩ := List.mem_filter.mp mem
    exact (swept.marked tok before).alive (of_decide_eq_true lives)
  none w waits tok mem := by
    have here : (s.pc w).Joining ∨ s.pc w = .parked :=
      waits.imp id fun linked => rep.parked (rep.sound.queued linked)
    have busy : s.pc w ≠ .idle := by
      intro idle
      rw [idle] at here
      rcases here with (absurd | absurd) | absurd
      all_goals cases absurd
    unfold State.within
    rw [(keeps w busy).1, (alive w here).isWithin_eq]
    exact swept.none w waits tok (List.mem_of_mem_filter mem)

theorem Swept.step (swept : Swept s q) (rep : Rep s q) (rep' : Rep t q')
    (stepped : Event.step s a = some t) (does : Does s q q' a) (allowed : inTime s a) :
    Swept t q' := by
  have delivered := rep.delivered rep' stepped does
  have turns := turns_of_step stepped
  cases a with
  | cancelWaiters p tok => exact swept.sweep allowed stepped delivered
  | tasks tasks =>
    cases does
    simp only [Event.step] at stepped
    split at stepped
    · rename_i keeps
      cases stepped
      exact swept.tasks rep keeps allowed
    · cases stepped
  | waitOnEvent | waitOnEventCancellable | signalAll | advance | reuse =>
    exact swept.calm (step_scopes stepped rfl) turns delivered

theorem swept_of_reach {tasks : Tasks n} (reach : Reach Event.step inTime (initial tasks) s) :
    ∃ q, Rep s q ∧ Swept s q := by
  refine reach.invariant (I := fun s => ∃ q, Rep s q ∧ Swept s q)
    ⟨_, initial_rep tasks, initial_swept tasks⟩ ?_
  rintro s t a ⟨q, rep, swept⟩ allowed stepped
  obtain ⟨q', rep', does⟩ := rep.step stepped
  exact ⟨q', rep', swept.step rep rep' stepped does allowed⟩

/-! ## A sweep that comes too late -/

/-- A party that idles does not stand in the way of another one's steps. -/
theorem sweep_pc {tok : Nat} (stepped : step s (.cancelWaiters p tok) = some t) (other : w ≠ p) :
    t.pc w = s.pc w := by
  simp only [step] at stepped
  split at stepped
  · unfold State.cancelWaiters at stepped
    split at stepped
    · cases stepped
      exact Function.update_of_ne other _ _
    · obtain ⟨found, -, rfl⟩ := Option.map_eq_some_iff.mp stepped
      exact Function.update_of_ne other _ _
  · cases stepped

/-- The waiter of a swept scope that takes the lock is lost. -/
theorem lost_of_adding (rep : Rep s q) (here : s.pc w = .adding) {tok : Nat} (mem : tok ∈ s.swept)
    (within : s.within tok w = true) :
    ∃ t, step s (.advance w) = some t ∧ ¬ NoneLost t := by
  have stepped : step s (.advance w) = some (s.addWaiter w) := by
    simp only [step, advance]
    rw [here]
  refine ⟨_, stepped, fun none => ?_⟩
  have rep' := rep.addWaiter here
  have linked : w ∈ (q.join w ()).queue := List.mem_append_right _ (List.mem_singleton_self w)
  have out := none w ((rep'.linked_iff w).mpr linked) tok mem
  rw [show (s.addWaiter w).within tok w = s.within tok w from rfl, within] at out
  cases out

theorem lost_of_joining (rep : Rep s q) (joining : (s.pc w).Joining) {tok : Nat}
    (mem : tok ∈ s.swept) (within : s.within tok w = true) :
    ∃ t, Reach step (fun _ a => a = .advance w) s t ∧ ¬ NoneLost t := by
  rcases joining with here | here
  · have stepped : step s (.advance w) = some { s.go w .adding with
        links := { s.links with next := Function.update s.links.next w none } } := by
      simp only [step, advance]
      rw [here]
    obtain ⟨t, later, lost⟩ :=
      lost_of_adding (rep.clear here) (Function.update_self _ _ _) mem within
    have first : Reach step (fun _ a => a = .advance w) s _ := Reach.start.next rfl stepped
    exact ⟨t, first.next rfl later, lost⟩
  · obtain ⟨t, stepped, lost⟩ := lost_of_adding rep here mem within
    exact ⟨t, Reach.start.next rfl stepped, lost⟩

theorem lost_of_late (rep : Rep s q) {tok : Nat}
    (stepped : Event.step s (.cancelWaiters p tok) = some t) (late : ¬ InTime s tok) :
    ∃ w t', Reach Event.step (fun _ a => a = .advance w) t t' ∧ ¬ NoneLost t' := by
  unfold InTime at late
  push Not at late
  obtain ⟨marked, w, joining, within⟩ := late
  rw [ne_eq, Bool.not_eq_false] at within
  obtain ⟨tasks, scopes⟩ := sweep_scopes stepped
  have mem : tok ∈ t.swept := by
    rw [scopes, if_pos marked]
    exact List.mem_cons_self
  have idle := idle_of_step stepped (.inr (.inr (.inr ⟨tok, rfl⟩)))
  have other : w ≠ p := by
    rintro rfl
    rw [idle] at joining
    rcases joining with absurd | absurd
    · cases absurd
    · cases absurd
  obtain ⟨q', rep', -⟩ := rep.step stepped
  rw [← sweep_pc stepped other] at joining
  obtain ⟨t', later, lost⟩ := lost_of_joining rep' joining mem (by
    unfold State.within at within ⊢
    rw [tasks]
    exact within)
  exact ⟨w, t', later, lost⟩

/-- In a run whose steps are in time no waiter is lost, and the first `CancelWaiters` that is not
loses one. -/
theorem linked_in_time {tasks : Tasks n} (reach : Reach Event.step inTime (initial tasks) s) :
    NoneLost s ∧ ∀ p tok t, Event.step s (.cancelWaiters p tok) = some t → ¬ InTime s tok →
      ∃ w t', Reach Event.step (fun _ a => a = .advance w) t t' ∧ ¬ NoneLost t' := by
  obtain ⟨q, rep, swept⟩ := swept_of_reach reach
  exact ⟨swept.noneLost rep, fun p tok t stepped late => lost_of_late rep stepped late⟩

/-- The scope of party 0 is cancelled. -/
def oneCancelled : Tasks 2 := { oneScope 1 with slots := (cancelVia (oneScope 1).slots 0).1 }

/-- Party 0 is linked before its scope is cancelled and swept. -/
def earlyLabels : List (Label 2) :=
  [.waitOnEvent 0, .advance 0, .advance 0, .tasks oneCancelled, .cancelWaiters 1 0]

def early : State 2 :=
  (run step inTime (initial (oneScope 1)) earlyLabels).getD (initial (oneScope 1))

theorem early_in_time : early.swept = [0] ∧ early.pc 1 = .walking true (some 0) ∧ NoneLost early ∧
    ∀ p tok t, Event.step early (.cancelWaiters p tok) = some t → ¬ InTime early tok →
      ∃ w t', Reach Event.step (fun _ a => a = .advance w) t t' ∧ ¬ NoneLost t' :=
  ⟨by decide +kernel, by decide +kernel,
    linked_in_time (Reach.of_isSome earlyLabels (by decide +kernel))⟩

/-- Party 0 tests its token, then its scope is cancelled and swept, and then it is linked. -/
def lateLabels : List (Label 2) :=
  [.waitOnEvent 0, .tasks oneCancelled, .cancelWaiters 1 0, .advance 1, .advance 0, .advance 0]

def late : State 2 :=
  (run step anyStep (initial (oneScope 1)) lateLabels).getD (initial (oneScope 1))

/-- A `CancelWaiters` of the scope has returned, and a waiter of it is linked. -/
theorem late_waiter : Reach Event.step anyStep (initial (oneScope 1)) late ∧ late.pc 1 = .idle ∧
    late.swept = [0] ∧ ¬ NoneLost late := by
  refine ⟨Reach.of_isSome lateLabels (by decide +kernel), by decide +kernel, by decide +kernel, ?_⟩
  intro none
  have head : late.links.head = some 0 := by decide +kernel
  have last : late.links.next 0 = Option.none := by decide +kernel
  have outside := none 0 ⟨[0], ⟨head, last⟩, List.mem_cons_self⟩ 0 (by decide +kernel)
  have within : late.within 0 0 = true := by decide +kernel
  rw [within] at outside
  cases outside

end JLibSched.Event
