import JLibSched.Timer.History

/-!
# Sections taken apart

A section under the mutex is a sequence of acts: one entry is armed, ended or fired again, a record
is cancelled, or nothing happens to entries and records.  What all acts keep, every section keeps
(`Acts.keep`).
-/

namespace JLibSched.History

open Transition Timer Wheel

variable {s t u : Timer.State} {e es es' : List Event}

/-- Neither an entry nor a record changes, but for where the entries hang. -/
structure Quiet (s t : Timer.State) : Prop where
  sound : Sound t
  generation : ∀ i, (t.wheel.entries i).generation = (s.wheel.entries i).generation
  periodic : ∀ i, (t.wheel.entries i).periodic = (s.wheel.entries i).periodic
  deadlineTick : ∀ i, (t.wheel.entries i).deadlineTick = (s.wheel.entries i).deadlineTick
  off : ∀ i, (t.wheel.entries i).level = none ↔ (s.wheel.entries i).level = none
  record : t.record = s.record
  records : t.records = s.records
  size : t.wheel.size = s.wheel.size
  armedCount : t.wheel.armedCount = s.wheel.armedCount
  now : s.now ≤ t.now

/-- `Arm` on the wheel as it is. -/
def armed (s : Timer.State) (d : Nat) (eject : Eject) : Timer.State :=
  { s with wheel := (State.insert s.wheel d fun e => { e with eject := eject }).1 }

/-- `Periodic::Start` on the wheel as it is. -/
def started (s : Timer.State) (due interval : Nat) : Timer.State :=
  let r := State.insert s.wheel (tickFor due) fun e => { e with periodic := some s.records }
  { s with
    wheel := r.1
    record := Function.update s.record s.records ⟨interval, due, 0, 0, some r.2, 0, false, false⟩
    records := s.records + 1 }

/-- The entry that the next arm gets. -/
def nextEntry (w : Wheel) : Nat := w.acquireEntry.2

inductive Act (s : Timer.State) : List Event → Timer.State → Prop where
  | quiet {t : Timer.State} (quiet : Quiet s t) : Act s [] t
  | arm (d reading : Nat) (delayNs : Int) (eject : Eject) (past : reading ≤ s.now)
      (after : 0 < delayNs → reading + delayNs.toNat ≤ d * tickNs) :
      Act s [.armed (nextEntry s.wheel)
        (bump (s.wheel.entries (nextEntry s.wheel))).generation reading delayNs] (armed s d eject)
  | start (due interval : Nat) (positive : 0 < interval) :
      Act s [.started s.records (nextEntry s.wheel) due interval] (started s due interval)
  | disarm (i : Nat) (on : (s.wheel.entries i).level ≠ none)
      (plain : (s.wheel.entries i).periodic = none) :
      Act s [.disarmed i (s.wheel.entries i).generation true]
        { s with wheel := s.wheel.disarm i }
  | refuse (i g : Nat) (ended : ¬ ((s.wheel.entries i).generation = g ∧ g % 2 = 1)) :
      Act s [.disarmed i g false] s
  | collect (i : Nat) (on : (s.wheel.entries i).level ≠ none)
      (plain : (s.wheel.entries i).periodic = none)
      (due : (s.wheel.entries i).deadlineTick * tickNs ≤ s.now) :
      Act s [.collected i (s.wheel.entries i).generation s.now]
        { s with wheel := s.wheel.disarm i }
  | cancel (r : Nat) : Act s [] (s.cancelPeriodic r)
  | fire (i r : Nat) (on : (s.wheel.entries i).level ≠ none)
      (periodic : (s.wheel.entries i).periodic = some r)
      (due : (s.wheel.entries i).deadlineTick * tickNs ≤ s.now) :
      Act s [.fired r (s.record r).due s.now !(s.record r).inFlight] (s.firePeriodic i r).1

/-- One act after another. -/
inductive Acts (s : Timer.State) : List Event → Timer.State → Prop where
  | none : Acts s [] s
  | next {es e : List Event} {u t : Timer.State} (first : Acts s es u) (act : Act u e t) :
      Acts s (es ++ e) t

theorem Acts.single (act : Act s e t) : Acts s e t := .next .none act

theorem Acts.trans (first : Acts s es u) (second : Acts u es' t) : Acts s (es ++ es') t := by
  induction second with
  | none =>
    rw [List.append_nil]
    exact first
  | next _ act ih =>
    rw [← List.append_assoc]
    exact ih.next act

/-- Nothing happens before or after. -/
theorem Acts.quiet_first (quiet : Quiet s u) (second : Acts u es t) : Acts s es t :=
  (Acts.single (.quiet quiet)).trans second

theorem Acts.quiet_last (first : Acts s es u) (quiet : Quiet u t) : Acts s es t := by
  have whole := first.next (.quiet quiet)
  rw [List.append_nil] at whole
  exact whole

/-- What is kept by every act is kept by a sequence of them. -/
theorem Acts.keep {I : Timer.State → List Event → Prop} {log : List Event} (acts : Acts s es t)
    (start : I s log) (kept : ∀ {u v : Timer.State} {log e : List Event}, Act u e v → I u log →
      I v (log ++ e)) : I t (log ++ es) := by
  induction acts with
  | none =>
    rw [List.append_nil]
    exact start
  | next _ act ih =>
    rw [← List.append_assoc]
    exact kept act ih

theorem armed_entries (sound : Sound s) (d : Nat) (eject : Eject) (j : Nat) :
    (armed s d eject).wheel.entries j = if j = nextEntry s.wheel then
      Entry.hang { bump (s.wheel.entries (nextEntry s.wheel)) with
        eject := eject, deadlineTick := d } (placeOf s.wheel.currentTick d)
      else s.wheel.entries j :=
  @insert_entries s.wheel j d (fun e => { e with eject := eject }) sound.wheel

theorem started_entries (sound : Sound s) (due interval j : Nat) :
    (started s due interval).wheel.entries j = if j = nextEntry s.wheel then
      Entry.hang { bump (s.wheel.entries (nextEntry s.wheel)) with
        periodic := some s.records, deadlineTick := tickFor due }
        (placeOf s.wheel.currentTick (tickFor due))
      else s.wheel.entries j :=
  @insert_entries s.wheel j (tickFor due) (fun e => { e with periodic := some s.records })
    sound.wheel

/-- The entry that the next arm gets is free. -/
theorem nextEntry_off (sound : Sound s) : (s.wheel.entries (nextEntry s.wheel)).level = none :=
  (acquireEntry_spec sound.wheel).2.1

/-! ## The acts are sound -/

theorem sound_armed (sound : Sound s) (d : Nat) (eject : Eject) : Sound (armed s d eject) :=
  sound.insert d _ s.record s.records (fun _ => ⟨rfl, rfl, rfl⟩) (Nat.le_refl _) sound.interval
    (fun _ => .inl rfl) (.inl fun _ => rfl)

theorem sound_started (sound : Sound s) (due : Nat) {interval : Nat} (positive : 0 < interval) :
    Sound (started s due interval) := by
  refine sound.insert (tickFor due) _ _ (s.records + 1) (fun _ => ⟨rfl, rfl, rfl⟩) (Nat.le_succ _)
    (fun r below => ?_) (fun r => ?_) (.inr ⟨Nat.lt_succ_self _, fun _ => rfl⟩)
  · rcases eq_or_ne r s.records with rfl | other
    · rw [Function.update_self]
      exact positive
    · rw [Function.update_of_ne other]
      exact sound.interval r (by omega)
  · rcases eq_or_ne r s.records with rfl | other
    · rw [Function.update_self]
      exact .inr ⟨Nat.le_refl _, Nat.lt_succ_self _, rfl, fun _ => rfl⟩
    · rw [Function.update_of_ne other]
      exact .inl rfl

/-- No record names the entry of an arm. -/
theorem plain_unnamed (sound : Sound s) {i : Nat} (plain : (s.wheel.entries i).periodic = none)
    (r : Nat) : (s.record r).entry ≠ some i := by
  intro named
  have owner := (sound.named r i named).2
  rw [plain] at owner
  cases owner

theorem sound_disarm (sound : Sound s) {i : Nat} (on : (s.wheel.entries i).level ≠ none)
    (plain : (s.wheel.entries i).periodic = none) :
    Sound { s with wheel := s.wheel.disarm i } :=
  sound.disarm s.record on (fun _ => ⟨rfl, .inl rfl⟩) (plain_unnamed sound plain)

theorem Act.sound (act : Act s e t) (sound : Sound s) : Sound t := by
  cases act with
  | quiet quiet => exact quiet.sound
  | arm d reading delayNs eject past after => exact sound_armed sound d eject
  | start due interval positive => exact sound_started sound due positive
  | disarm i on plain => exact sound_disarm sound on plain
  | refuse i g ended => exact sound
  | collect i on plain due => exact sound_disarm sound on plain
  | cancel r => exact (sound.cancelPeriodic r).1
  | fire i r on periodic due => exact sound.firePeriodic periodic

/-! ## Nothing happens -/

theorem quiet_same (sound : Sound s) (wheel : t.wheel = s.wheel) (record : t.record = s.record)
    (records : t.records = s.records) (now : s.now ≤ t.now) : Quiet s t := by
  refine ⟨⟨wheel ▸ sound.wheel, ?_, ?_, ?_, ?_⟩, ?_, ?_, ?_, ?_, record, records, ?_, ?_, now⟩
  · rw [record, wheel]
    exact sound.named
  · rw [records, wheel]
    exact sound.known
  · rw [record, records]
    exact sound.interval
  · rw [record, records]
    exact sound.unborn
  all_goals simp [wheel]

theorem quiet_tick (sound : Sound s) (tick : Nat) (wheel : t.wheel = { s.wheel with currentTick := tick })
    (record : t.record = s.record) (records : t.records = s.records) (now : s.now ≤ t.now) :
    Quiet s t := by
  have moved := sound.moveTick tick
  refine ⟨⟨wheel ▸ moved.wheel, ?_, ?_, ?_, ?_⟩, ?_, ?_, ?_, ?_, record, records, ?_, ?_, now⟩
  · rw [record, wheel]
    exact sound.named
  · rw [records, wheel]
    exact sound.known
  · rw [record, records]
    exact sound.interval
  · rw [record, records]
    exact sound.unborn
  all_goals simp [wheel]

theorem quiet_advance (sound : Sound s) (target : Nat) :
    Quiet s { s with wheel := s.wheel.advanceTo target } := by
  have fields (i : Nat) :
      ((s.wheel.advanceTo target).entries i).generation = (s.wheel.entries i).generation ∧
      ((s.wheel.advanceTo target).entries i).periodic = (s.wheel.entries i).periodic ∧
      ((s.wheel.advanceTo target).entries i).deadlineTick = (s.wheel.entries i).deadlineTick ∧
      (((s.wheel.advanceTo target).entries i).level = none ↔
        (s.wheel.entries i).level = none) := by
    rcases advanceTo_entries target sound.wheel.linked i with same | ⟨on, place, -, moved⟩
    · rw [same]
      exact ⟨rfl, rfl, rfl, Iff.rfl⟩
    · rw [moved]
      exact ⟨rfl, rfl, rfl, fun off => (by cases off), fun off => absurd off on⟩
  have armedCount : (s.wheel.advanceTo target).armedCount = s.wheel.armedCount := by
    rcases Nat.lt_or_ge s.wheel.currentTick target with later | before
    · exact (advanceTo_recast sound.wheel.linked later).rest.2.2
    · rw [advanceTo, if_pos before]
  exact ⟨sound.advanceTo target, fun i => (fields i).1, fun i => (fields i).2.1,
    fun i => (fields i).2.2.1, fun i => (fields i).2.2.2, rfl, rfl,
    (advanceTo_rest target sound.wheel.linked).2.1, armedCount, Nat.le_refl _⟩

theorem quiet_pass (sound : Sound s) (ns : Nat) : Quiet s (s.pass ns) :=
  quiet_same sound rfl rfl rfl (Nat.le_add_right _ _)

/-! ## Fires -/

variable {c : Timer.State.Collecting} {i : Nat}

theorem visit_acts (sound : Sound c.state)
    (time : c.state.wheel.currentTick * tickNs ≤ c.state.now)
    (on : (c.state.wheel.entries i).level ≠ none) :
    Acts c.state (visitEvent c i) (c.visit i).state := by
  unfold visitEvent Timer.State.Collecting.visit
  split
  · exact .none
  split
  · rename_i before
    have due : (c.state.wheel.entries i).deadlineTick * tickNs ≤ c.state.now :=
      Nat.le_trans (Nat.mul_le_mul_right _ before) time
    cases periodic : (c.state.wheel.entries i).periodic with
    | some r =>
      exact .quiet_first (quiet_pass sound (c.gaps.headD 0))
        (.single (.fire i r on periodic (Nat.le_trans due (Nat.le_add_right _ _))))
    | none => exact .single (.collect i on periodic due)
  · exact .none

theorem visits_acts (list : List Nat) (sound : Sound c.state)
    (time : c.state.wheel.currentTick * tickNs ≤ c.state.now) (once : list.Nodup)
    (on : ∀ i ∈ list, (c.state.wheel.entries i).level ≠ none) :
    Acts c.state (visitEvents list c) (list.foldl Timer.State.Collecting.visit c).state := by
  induction list generalizing c with
  | nil => exact .none
  | cons i rest ih =>
    obtain ⟨fresh, once⟩ := List.nodup_cons.mp once
    have first := visit_acts sound time (on i List.mem_cons_self)
    have visited := visit_spec sound time (on i List.mem_cons_self)
    have tick := (visited.edits.spec sound.wheel).2.1
    refine first.trans (ih visited.sound ?_ once fun j mem => ?_)
    · rw [tick]
      exact Nat.le_trans time visited.later
    · rw [visited.others j fun same => fresh (same ▸ mem)]
      exact on j (List.mem_cons_of_mem _ mem)

/-- A fire step, when its event is due. -/
theorem fireStep_acts {next : Nat} (gaps : List Nat) (sound : Sound s)
    (found : s.wheel.nextEventTick = some next) (due : next ≤ s.nowTick) :
    Acts s (collectEvents { s with wheel := s.wheel.advanceTo next } gaps)
      (s.fireStep next gaps).1 := by
  have advanced := sound.advanceTo next
  have linked := advanced.wheel.linked
  have tick : (s.wheel.advanceTo next).currentTick = next := by
    rw [advanceTo_currentTick sound.wheel.linked, Nat.max_eq_right (nextEventTick_ge found)]
  have time : next * tickNs ≤ s.now :=
    Nat.le_trans (Nat.mul_le_mul_right _ due) (Nat.div_mul_le_self s.now tickNs)
  have acts := visits_acts (c := ⟨{ s with wheel := s.wheel.advanceTo next }, ⟨[], []⟩, gaps⟩)
    ((s.wheel.advanceTo next).heads 0 ((s.wheel.advanceTo next).currentTick % slots)) advanced
    (by dsimp only; rw [tick]; exact time) (linked.nodup _ _) fun i mem => by
      rw [((linked.mem i _ _).mp mem).1]
      exact Option.some_ne_none _
  have whole := acts.quiet_first (quiet_advance sound next)
  obtain ⟨after, -⟩ := collect_spec gaps sound found due
  unfold State.fireStep
  dsimp only
  split
  · exact whole.quiet_last (quiet_tick after _ rfl rfl rfl (Nat.le_refl _))
  · exact whole

/-- A round of the timer thread or of a worker. -/
theorem round_acts {gaps : List Nat} (sound : Sound s)
    (none : s.wheel.nextEventTick = none → Quiet s t)
    (early : ∀ next, s.wheel.nextEventTick = some next → s.nowTick < next → Quiet s t)
    (fired : ∀ next, s.wheel.nextEventTick = some next → next ≤ s.nowTick →
      Quiet (s.fireStep next gaps).1 t) : Acts s (roundEvents s gaps) t := by
  unfold roundEvents
  cases found : s.wheel.nextEventTick with
  | none => exact .single (.quiet (none found))
  | some next =>
    dsimp only
    split
    · rename_i before
      exact .single (.quiet (early next found before))
    · rename_i due
      exact (fireStep_acts gaps sound found (Nat.not_lt.mp due)).quiet_last
        (fired next found (Nat.not_lt.mp due))

/-! ## Every section -/

theorem le_tickFor (ns : Nat) : ns ≤ tickFor ns * tickNs := by
  unfold tickFor
  simp only [tickNs]
  omega

theorem arm_acts {wait gap : Nat} {delayNs : Int} {eject : Eject} (sound : Sound s) :
    Acts s (armEvents s wait gap delayNs eject) (s.arm wait gap delayNs eject).1 := by
  unfold armEvents State.arm
  by_cases invalid : eject.token = none
  · rw [if_pos invalid]
    exact .none
  · rw [if_neg invalid]
    have passed := sound.pass wait
    have advanced := quiet_advance passed (s.pass wait).nowTick
    have later := quiet_pass advanced.sound (if 0 < delayNs then gap else 0)
    refine .quiet_first (quiet_pass sound wait) (.quiet_first advanced (.quiet_first later ?_))
    have act := Act.arm (s := { s.pass wait with
        wheel := (s.pass wait).wheel.advanceTo (s.pass wait).nowTick }.pass
      (if 0 < delayNs then gap else 0)) ((s.pass wait).deadlineFor gap delayNs)
      (s.now + wait + if 0 < delayNs then gap else 0) delayNs eject (Nat.le_refl _) fun positive => by
        unfold State.deadlineFor
        rw [if_pos positive, if_pos positive]
        exact le_tickFor _
    have inserted := (Acts.single act).quiet_last (quiet_same (act.sound later.sound)
      (t := (s.arm wait gap delayNs eject).1) ?_ ?_ ?_ ?_)
    · have generation : ((State.insert ((s.pass wait).wheel.advanceTo (s.pass wait).nowTick)
          ((s.pass wait).deadlineFor gap delayNs) fun e => { e with eject := eject }).1.entries
          (State.insert ((s.pass wait).wheel.advanceTo (s.pass wait).nowTick)
            ((s.pass wait).deadlineFor gap delayNs) fun e => { e with eject := eject }).2).generation
          = (bump (((s.pass wait).wheel.advanceTo (s.pass wait).nowTick).entries
            (nextEntry ((s.pass wait).wheel.advanceTo (s.pass wait).nowTick)))).generation := by
        rw [insert_entries advanced.sound.wheel, if_pos rfl]
        rfl
      dsimp only
      rw [State.arm, if_neg invalid] at inserted
      rw [show ((State.insert ((s.pass wait).wheel.advanceTo (s.pass wait).nowTick)
          ((s.pass wait).deadlineFor gap delayNs) fun e => { e with eject := eject }).1.entries _
          ).generation = _ from generation]
      exact inserted
    all_goals rw [State.arm, if_neg invalid]
    · rfl
    · rfl
    · rfl
    · exact Nat.le_refl _

theorem start_acts {wait gap : Nat} {intervalNs firstDelayNs : Int} (sound : Sound s) :
    Acts s (startEvents s wait gap intervalNs firstDelayNs)
      (s.start wait gap intervalNs firstDelayNs) := by
  unfold startEvents State.start
  by_cases absent : intervalNs ≤ 0
  · rw [if_pos absent, if_pos absent]
    exact .none
  · rw [if_neg absent, if_neg absent]
    have interval : 0 < State.intervalFor intervalNs := by
      unfold State.intervalFor
      split
      · decide
      · omega
    have passed := (sound.pass wait).pass gap
    have advanced := quiet_advance passed ((s.pass wait).pass gap).nowTick
    have act := Act.start (s := { (s.pass wait).pass gap with
        wheel := ((s.pass wait).pass gap).wheel.advanceTo ((s.pass wait).pass gap).nowTick })
      ((s.pass wait).firstDue (State.intervalFor intervalNs) firstDelayNs) _ interval
    refine .quiet_first (quiet_pass sound wait) (.quiet_first (quiet_pass (sound.pass wait) gap)
      (.quiet_first advanced ((Acts.single act).quiet_last ?_)))
    exact quiet_same (act.sound advanced.sound) rfl rfl rfl (Nat.le_refl _)

theorem disarm_acts {index generation : Nat} (sound : Sound s)
    (own : ¬ ((s.wheel.entries index).generation = generation ∧ generation % 2 = 1 ∧
      (s.wheel.entries index).periodic ≠ none)) :
    Acts s [.disarmed index generation (s.disarm index generation).2]
      (s.disarm index generation).1 := by
  unfold State.disarm
  split
  · rename_i beyond
    refine .single (.refuse index generation fun live => ?_)
    have blank := sound.wheel.blank index beyond
    rw [blank] at live
    obtain ⟨rfl, odd⟩ := live
    cases odd
  split
  · rename_i ended
    refine .single (.refuse index generation fun live => ?_)
    omega
  · rename_i current
    simp only [ne_eq, not_or, not_not] at current
    obtain ⟨rfl, odd⟩ := current
    have armed : (s.wheel.entries index).armed := by
      unfold Entry.armed
      omega
    have on := (sound.wheel.parity index).mp armed
    have plain : (s.wheel.entries index).periodic = none := by
      by_contra periodic
      exact own ⟨rfl, by omega, periodic⟩
    exact (Acts.single (.disarm index on plain)).quiet_last
      (quiet_same (sound_disarm sound on plain) rfl rfl rfl (Nat.le_refl _))

/-- Every section of the timer queue but those of an instance. -/
theorem step_acts {a : Timer.Label} (sound : Sound s) (other : isInstance a = false)
    (stepped : Timer.step s a = some t) : Acts s (events s a) t := by
  cases a with
  | arm wait gap delayNs eject =>
    cases stepped
    exact arm_acts sound
  | disarm index generation =>
    obtain ⟨own, moved⟩ := Option.ite_none_left_eq_some.mp stepped
    cases moved
    exact disarm_acts sound own
  | start wait gap intervalNs firstDelayNs =>
    cases stepped
    exact start_acts sound
  | cancel r =>
    obtain ⟨-, moved⟩ := Option.ite_none_right_eq_some.mp stepped
    cases moved
    exact (Acts.single (.cancel r)).quiet_last
      (quiet_same (sound.cancelPeriodic r).1 rfl rfl rfl (Nat.le_refl _))
  | takeSkipped r | finish r stop => cases other
  | run wait gaps =>
    obtain ⟨-, moved⟩ := Option.ite_none_right_eq_some.mp stepped
    cases moved
    have passed := sound.pass wait
    unfold State.run
    refine .quiet_first (quiet_pass sound wait) (round_acts passed (fun none => ?_)
      (fun next found before => ?_) fun next found due => ?_)
    · rw [none]
      exact quiet_tick passed _ rfl rfl rfl (Nat.le_refl _)
    · rw [found]
      dsimp only
      rw [if_pos before]
      exact quiet_same passed rfl rfl rfl (Nat.le_refl _)
    · rw [found]
      dsimp only
      rw [if_neg (Nat.not_lt.mpr due)]
      exact quiet_same (fireStep_spec gaps passed found due).1 rfl rfl rfl (Nat.le_refl _)
  | pollFire wait gaps =>
    cases stepped
    have passed := sound.pass wait
    unfold State.pollFire
    refine .quiet_first (quiet_pass sound wait) (round_acts passed (fun none => ?_)
      (fun next found before => ?_) fun next found due => ?_)
    · rw [none]
      exact quiet_same passed rfl rfl rfl (Nat.le_refl _)
    · rw [found]
      dsimp only
      rw [if_pos before]
      exact quiet_same passed rfl rfl rfl (Nat.le_refl _)
    · rw [found]
      dsimp only
      rw [if_neg (Nat.not_lt.mpr due)]
      exact quiet_same (fireStep_spec gaps passed found due).1 rfl rfl rfl (Nat.le_refl _)
  | wake | dispatched =>
    obtain ⟨-, moved⟩ := Option.ite_none_left_eq_some.mp stepped
    cases moved
    exact .single (.quiet (quiet_same sound rfl rfl rfl (Nat.le_refl _)))
  | pollDispatched k =>
    obtain ⟨-, moved⟩ := Option.ite_none_right_eq_some.mp stepped
    cases moved
    exact .single (.quiet (quiet_same sound rfl rfl rfl (Nat.le_refl _)))

end JLibSched.History
