import JLibSched.Lib.Transition

/-!
# Threads of calls

Workers run threads whose bodies call one another.  A body may act on what all share, call another
body and go on with what it returned or raised, or suspend its thread with every call in it; any
worker may resume a thread that was woken.  The bodies are the states of an arbitrary program, and
`next` says what each one does.
-/

namespace Calls

/-- What a body does next. -/
inductive Instr (σ γ ε ν : Type*) where
  | act (f : γ → γ × σ)
  | suspend (c : σ)
  | call (callee : σ) (k : Except ε ν → σ)
  | ret (v : ν)
  | raise (x : ε)

/-- Where a thread is: before an instruction of its innermost body, or past the end of it. -/
inductive Control (σ ε ν : Type*) where
  | run (c : σ)
  | done (r : Except ε ν)

inductive Status where
  | new
  | ready
  | running
  | parked
  deriving DecidableEq

/-- A thread, with the callers of its innermost body and a tag for when it finishes. -/
structure Thread (κ σ ε ν : Type*) where
  control : Control σ ε ν
  stack : List (Except ε ν → σ)
  status : Status
  tag : κ

structure State (τ ω κ σ γ ε ν : Type*) where
  thread : τ → Option (Thread κ σ ε ν)
  running : ω → Option τ
  shared : γ
  /-- The tags of the threads that were spawned, that finished and that were dropped. -/
  spawned : List κ
  finished : List κ
  dropped : List κ
  /-- What a thread raised with no caller left. -/
  escaped : Option ε

inductive Label (τ ω κ σ : Type*) where
  | spawn (t : τ) (c : σ) (tag : κ)
  /-- A thread that has not begun never will. -/
  | drop (t : τ)
  | wake (t : τ)
  | resume (w : ω) (t : τ)
  /-- The worker takes a step of its thread; `stays` if a suspension does not happen. -/
  | exec (w : ω) (stays : Bool)

variable {τ ω κ σ γ ε ν : Type*}

def initial (g : γ) : State τ ω κ σ γ ε ν where
  thread := fun _ => none
  running := fun _ => none
  shared := g
  spawned := []
  finished := []
  dropped := []
  escaped := none

variable [DecidableEq τ] [DecidableEq ω]

def State.put (s : State τ ω κ σ γ ε ν) (t : τ) (th : Thread κ σ ε ν) : State τ ω κ σ γ ε ν :=
  { s with thread := Function.update s.thread t (some th) }

/-- The thread of a worker takes a step. -/
def execThread (next : σ → Instr σ γ ε ν) (s : State τ ω κ σ γ ε ν) (w : ω) (stays : Bool) (t : τ)
    (th : Thread κ σ ε ν) : Option (State τ ω κ σ γ ε ν) :=
  match th.control, th.stack with
  | .done _, [] => none
  | .done r, k :: ks => some (s.put t { th with control := .run (k r), stack := ks })
  | .run c, stack =>
    match next c with
    | .act f =>
      some { s.put t { th with control := .run (f s.shared).2 } with shared := (f s.shared).1 }
    | .suspend c' =>
      if stays then some (s.put t { th with control := .run c' })
      else some { s.put t { th with control := .run c', status := .parked } with
        running := Function.update s.running w none }
    | .call callee k => some (s.put t { th with control := .run callee, stack := k :: stack })
    | .ret v =>
      match stack with
      | [] => some { s with
          thread := Function.update s.thread t none
          running := Function.update s.running w none
          finished := th.tag :: s.finished }
      | _ :: _ => some (s.put t { th with control := .done (.ok v) })
    | .raise x =>
      match stack with
      | [] => some { s with escaped := some x }
      | _ :: _ => some (s.put t { th with control := .done (.error x) })

def step (next : σ → Instr σ γ ε ν) (s : State τ ω κ σ γ ε ν) (a : Label τ ω κ σ) :
    Option (State τ ω κ σ γ ε ν) :=
  if s.escaped.isSome then none
  else match a with
    | .spawn t c tag =>
      match s.thread t with
      | some _ => none
      | none => some { s.put t ⟨.run c, [], .new, tag⟩ with spawned := tag :: s.spawned }
    | .drop t =>
      match s.thread t with
      | some th =>
        if th.status = .new then
          some { s with
            thread := Function.update s.thread t none
            dropped := th.tag :: s.dropped }
        else none
      | none => none
    | .wake t =>
      match s.thread t with
      | some th =>
        if th.status = .parked then some (s.put t { th with status := .ready }) else none
      | none => none
    | .resume w t =>
      match s.thread t, s.running w with
      | some th, none =>
        if th.status = .new ∨ th.status = .ready then
          some { s.put t { th with status := .running } with
            running := Function.update s.running w (some t) }
        else none
      | _, _ => none
    | .exec w stays =>
      match s.running w with
      | none => none
      | some t =>
        match s.thread t with
        | none => none
        | some th => execThread next s w stays t th

/-- A worker runs a thread that runs, no two the same; one that does not run stands before an
instruction, and one that has not begun has no callers. -/
structure Inv (s : State τ ω κ σ γ ε ν) : Prop where
  runs : ∀ w t, s.running w = some t → ∃ th, s.thread t = some th ∧ th.status = .running
  single : ∀ w v t, s.running w = some t → s.running v = some t → w = v
  rests : ∀ t th, s.thread t = some th → th.status ≠ .running → ∃ c, th.control = .run c
  called : ∀ t th r, s.thread t = some th → th.control = .done r → th.stack ≠ []
  begins : ∀ t th, s.thread t = some th → th.status = .new → th.stack = []

omit [DecidableEq τ] [DecidableEq ω] in
theorem initial_inv (g : γ) : Inv (initial g : State τ ω κ σ γ ε ν) :=
  ⟨nofun, nofun, nofun, nofun, nofun⟩

variable {next : σ → Instr σ γ ε ν} {s u : State τ ω κ σ γ ε ν} {w : ω} {t : τ}
  {th : Thread κ σ ε ν}

omit [DecidableEq ω] in
/-- One thread changes, or comes or goes. -/
theorem Inv.change (inv : Inv s) (o : Option (Thread κ σ ε ν))
    (threads : u.thread = Function.update s.thread t o)
    (elsewhere : ∀ v r, r ≠ t → u.running v = some r → s.running v = some r)
    (runs : ∀ v, u.running v = some t → ∃ th, o = some th ∧ th.status = .running)
    (single : ∀ v v', u.running v = some t → u.running v' = some t → v = v')
    (rests : ∀ th, o = some th → th.status ≠ .running → ∃ c, th.control = .run c)
    (called : ∀ th r, o = some th → th.control = .done r → th.stack ≠ [])
    (begins : ∀ th, o = some th → th.status = .new → th.stack = []) : Inv u := by
  constructor
  case runs =>
    intro v r here
    rcases eq_or_ne r t with rfl | other
    · rw [threads, Function.update_self]
      exact runs v here
    · rw [threads, Function.update_of_ne other]
      exact inv.runs v r (elsewhere v r other here)
  case single =>
    intro v v' r here there
    rcases eq_or_ne r t with rfl | other
    · exact single v v' here there
    · exact inv.single v v' r (elsewhere v r other here) (elsewhere v' r other there)
  case rests =>
    intro r th here
    rcases eq_or_ne r t with rfl | other
    · rw [threads, Function.update_self] at here
      exact rests th here
    · rw [threads, Function.update_of_ne other] at here
      exact inv.rests r th here
  case called =>
    intro r th result here
    rcases eq_or_ne r t with rfl | other
    · rw [threads, Function.update_self] at here
      exact called th result here
    · rw [threads, Function.update_of_ne other] at here
      exact inv.called r th result here
  case begins =>
    intro r th here
    rcases eq_or_ne r t with rfl | other
    · rw [threads, Function.update_self] at here
      exact begins th here
    · rw [threads, Function.update_of_ne other] at here
      exact inv.begins r th here

omit [DecidableEq ω] in
/-- A thread that runs goes on. -/
theorem Inv.goes (inv : Inv s) (running : th.status = .running)
    (called : ∀ r, th.control = .done r → th.stack ≠ []) : Inv (s.put t th) := by
  refine inv.change (t := t) (some th) rfl (fun _ _ _ runs => runs) (fun _ _ => ⟨th, rfl, running⟩)
    (fun v v' => inv.single v v' t) ?_ ?_ ?_
  · intro _ same resting
    cases same
    exact absurd running resting
  · intro _ r same
    cases same
    exact called r
  · intro _ same new
    cases same
    rw [running] at new
    cases new

/-- The thread of a worker leaves it. -/
theorem Inv.leaves (inv : Inv s) (o : Option (Thread κ σ ε ν)) (here : s.running w = some t)
    (threads : u.thread = Function.update s.thread t o)
    (running : u.running = Function.update s.running w none)
    (rests : ∀ th, o = some th → th.status = .parked ∧ ∃ c, th.control = .run c) : Inv u := by
  have free (v : ω) (runs : u.running v = some t) : False := by
    rw [running] at runs
    rcases eq_or_ne v w with rfl | other
    · rw [Function.update_self] at runs
      cases runs
    · rw [Function.update_of_ne other] at runs
      exact other (inv.single v w t runs here)
  refine inv.change o threads (fun v r other runs => ?_) (fun v runs => (free v runs).elim)
    (fun v _ runs _ => (free v runs).elim) (fun th same _ => (rests th same).2) ?_ ?_
  · rw [running] at runs
    rcases eq_or_ne v w with rfl | elsewhere
    · rw [Function.update_self] at runs
      cases runs
    · rwa [Function.update_of_ne elsewhere] at runs
  · intro th r same done
    obtain ⟨-, c, runs⟩ := rests th same
    rw [runs] at done
    cases done
  · intro th same new
    rw [(rests th same).1] at new
    cases new

theorem Inv.execThread (inv : Inv s) {stays : Bool} (here : s.running w = some t)
    (there : s.thread t = some th) (stepped : execThread next s w stays t th = some u) : Inv u := by
  obtain ⟨_, found, running⟩ := inv.runs w t here
  obtain rfl : th = _ := Option.some.inj (there.symm.trans found)
  obtain ⟨control, stack, status, tag⟩ := th
  cases control with
  | done r =>
    cases stack with
    | nil => cases stepped
    | cons k ks =>
      cases stepped
      exact inv.goes running nofun
  | run c =>
    cases instr : next c with
    | act f =>
      simp only [Calls.execThread, instr] at stepped
      cases stepped
      have goes : Inv (s.put t ⟨.run (f s.shared).2, stack, status, tag⟩) :=
        inv.goes running nofun
      exact ⟨goes.runs, goes.single, goes.rests, goes.called, goes.begins⟩
    | suspend c' =>
      simp only [Calls.execThread, instr] at stepped
      cases stays with
      | true =>
        cases stepped
        exact inv.goes running nofun
      | false =>
        cases stepped
        refine inv.leaves _ here rfl rfl ?_
        rintro _ ⟨⟩
        exact ⟨rfl, c', rfl⟩
    | call callee k =>
      simp only [Calls.execThread, instr] at stepped
      cases stepped
      exact inv.goes running nofun
    | ret v =>
      simp only [Calls.execThread, instr] at stepped
      cases stack with
      | nil =>
        cases stepped
        exact inv.leaves none here rfl rfl nofun
      | cons k ks =>
        cases stepped
        exact inv.goes running nofun
    | raise x =>
      simp only [Calls.execThread, instr] at stepped
      cases stack with
      | nil =>
        cases stepped
        exact ⟨inv.runs, inv.single, inv.rests, inv.called, inv.begins⟩
      | cons k ks =>
        cases stepped
        exact inv.goes running nofun

omit [DecidableEq τ] [DecidableEq ω] in
/-- A thread that does not run is run by no worker. -/
theorem Inv.idle (inv : Inv s) (there : s.thread t = some th) (resting : th.status ≠ .running)
    (v : ω) : s.running v ≠ some t := by
  intro here
  obtain ⟨_, found, running⟩ := inv.runs v t here
  obtain rfl := Option.some.inj (there.symm.trans found)
  exact resting running

theorem Inv.step (inv : Inv s) {a : Label τ ω κ σ} (stepped : step next s a = some u) : Inv u := by
  simp only [Calls.step] at stepped
  split at stepped
  · cases stepped
  cases a with
  | spawn t c tag =>
    cases there : s.thread t with
    | some th =>
      simp only [there] at stepped
      cases stepped
    | none =>
      simp only [there] at stepped
      cases stepped
      have idle (v : ω) : s.running v ≠ some t := by
        intro here
        obtain ⟨_, found, -⟩ := inv.runs v t here
        rw [there] at found
        cases found
      refine inv.change _ rfl (fun _ _ _ runs => runs) (fun v here => (idle v here).elim)
        (fun v _ here _ => (idle v here).elim) ?_ ?_ ?_
      · rintro _ ⟨⟩ -
        exact ⟨c, rfl⟩
      · rintro _ _ ⟨⟩ done
        cases done
      · rintro _ ⟨⟩ -
        rfl
  | drop t =>
    cases there : s.thread t with
    | none =>
      simp only [there] at stepped
      cases stepped
    | some th =>
      simp only [there] at stepped
      split at stepped
      · rename_i new
        cases stepped
        have idle := inv.idle there (by rw [new]; nofun)
        exact inv.change none rfl (fun _ _ _ runs => runs) (fun v here => (idle v here).elim)
          (fun v _ here _ => (idle v here).elim) nofun nofun nofun
      · cases stepped
  | wake t =>
    cases there : s.thread t with
    | none =>
      simp only [there] at stepped
      cases stepped
    | some th =>
      simp only [there] at stepped
      split at stepped
      · rename_i parked
        cases stepped
        have resting : th.status ≠ .running := by
          rw [parked]
          nofun
        have idle := inv.idle there resting
        obtain ⟨c, runs⟩ := inv.rests t th there resting
        refine inv.change _ rfl (fun _ _ _ runs => runs) (fun v here => (idle v here).elim)
          (fun v _ here _ => (idle v here).elim) ?_ ?_ ?_
        · rintro _ ⟨⟩ -
          exact ⟨c, runs⟩
        · rintro _ _ ⟨⟩ done
          rw [runs] at done
          cases done
        · rintro _ ⟨⟩ new
          cases new
      · cases stepped
  | resume w t =>
    cases there : s.thread t with
    | none =>
      simp only [there] at stepped
      cases stepped
    | some th =>
      cases free : s.running w with
      | some r =>
        simp only [there, free] at stepped
        cases stepped
      | none =>
        simp only [there, free] at stepped
        split at stepped
        · rename_i ready
          cases stepped
          have resting : th.status ≠ .running := by
            rcases ready with new | ready
            · rw [new]
              nofun
            · rw [ready]
              nofun
          have idle := inv.idle there resting
          obtain ⟨c, runs⟩ := inv.rests t th there resting
          have only (v : ω) (here : Function.update s.running w (some t) v = some t) :
              v = w := by
            by_contra other
            rw [Function.update_of_ne other] at here
            exact idle v here
          refine inv.change _ rfl (fun v r other here => ?_) (fun v _ => ⟨_, rfl, rfl⟩)
            (fun v v' here there => (only v here).trans (only v' there).symm) ?_ ?_ ?_
          · have here : Function.update s.running w (some t) v = some r := here
            rcases eq_or_ne v w with rfl | elsewhere
            · rw [Function.update_self] at here
              exact absurd (Option.some.inj here).symm other
            · rwa [Function.update_of_ne elsewhere] at here
          · rintro _ ⟨⟩ stopped
            exact absurd rfl stopped
          · rintro _ _ ⟨⟩ done
            have done : th.control = _ := done
            rw [runs] at done
            cases done
          · rintro _ ⟨⟩ new
            cases new
        · cases stepped
  | exec w stays =>
    cases here : s.running w with
    | none =>
      simp only [here] at stepped
      cases stepped
    | some t =>
      cases there : s.thread t with
      | none =>
        simp only [here, there] at stepped
        cases stepped
      | some th =>
        simp only [here, there] at stepped
        exact inv.execThread here there stepped

/-! ## The threads there are -/

/-- Every thread that was spawned is there, finished or was dropped. -/
structure Accounts (s : State τ ω κ σ γ ε ν) (alive : List τ) : Prop where
  nodup : alive.Nodup
  live : ∀ t, t ∈ alive ↔ (s.thread t).isSome
  tags : s.spawned.Perm (alive.filterMap (fun t => (s.thread t).map Thread.tag) ++
    (s.finished ++ s.dropped))

variable {alive : List τ}

omit [DecidableEq τ] [DecidableEq ω] in
/-- The threads stay, with their tags. -/
theorem Accounts.keeps (accounts : Accounts s alive)
    (same : ∀ t, (u.thread t).map Thread.tag = (s.thread t).map Thread.tag)
    (spawned : u.spawned = s.spawned) (finished : u.finished = s.finished)
    (dropped : u.dropped = s.dropped) : Accounts u alive where
  nodup := accounts.nodup
  live t := by
    rw [accounts.live t, ← Option.isSome_map (f := Thread.tag) (x := s.thread t), ← same t,
      Option.isSome_map]
  tags := by
    rw [spawned, finished, dropped, List.filterMap_congr fun t _ => same t]
    exact accounts.tags

omit [DecidableEq ω] in
theorem Accounts.put (accounts : Accounts s alive) (there : s.thread t = some th)
    {th' : Thread κ σ ε ν} (tag : th'.tag = th.tag) : Accounts (s.put t th') alive := by
  refine accounts.keeps (fun r => ?_) rfl rfl rfl
  rcases eq_or_ne r t with rfl | other
  · simp [State.put, there, tag]
  · simp [State.put, other]

omit [DecidableEq ω] in
/-- A thread goes, and its tag is written down. -/
theorem Accounts.ends (accounts : Accounts s alive) (there : s.thread t = some th)
    (threads : u.thread = Function.update s.thread t none) (spawned : u.spawned = s.spawned)
    (ended : (u.finished ++ u.dropped).Perm (th.tag :: (s.finished ++ s.dropped))) :
    Accounts u (alive.erase t) where
  nodup := accounts.nodup.erase t
  live r := by
    rw [accounts.nodup.mem_erase_iff, accounts.live r, threads]
    rcases eq_or_ne r t with rfl | other
    · simp
    · simp [other]
  tags := by
    have here : t ∈ alive := (accounts.live t).mpr (by rw [there]; rfl)
    have others : (alive.erase t).filterMap (fun r => (u.thread r).map Thread.tag) =
        (alive.erase t).filterMap fun r => (s.thread r).map Thread.tag := by
      refine List.filterMap_congr fun r mem => ?_
      rw [threads, Function.update_of_ne (accounts.nodup.mem_erase_iff.mp mem).1]
    rw [spawned, others]
    refine accounts.tags.trans ?_
    have split := (List.perm_cons_erase here).filterMap fun r => (s.thread r).map Thread.tag
    rw [List.filterMap_cons_some (b := th.tag) (by rw [there]; rfl)] at split
    exact (split.append_right _).trans (List.perm_middle.symm.trans (ended.symm.append_left _))

omit [DecidableEq ω] in
theorem Accounts.begins (accounts : Accounts s alive) (there : s.thread t = none)
    (th : Thread κ σ ε ν) :
    Accounts { s.put t th with spawned := th.tag :: s.spawned } (t :: alive) where
  nodup := List.nodup_cons.mpr ⟨by rw [accounts.live t, there]; simp, accounts.nodup⟩
  live r := by
    rw [List.mem_cons, accounts.live r]
    rcases eq_or_ne r t with rfl | other
    · simp [State.put]
    · simp [State.put, other]
  tags := by
    have absent : t ∉ alive := by
      rw [accounts.live t, there]
      simp
    have others : alive.filterMap (fun r => ((s.put t th).thread r).map Thread.tag) =
        alive.filterMap fun r => (s.thread r).map Thread.tag := by
      refine List.filterMap_congr fun r mem => ?_
      have other : r ≠ t := by
        rintro rfl
        exact absent mem
      simp [State.put, other]
    rw [List.filterMap_cons_some (b := th.tag) (by simp [State.put]), List.cons_append, others]
    exact accounts.tags.cons th.tag

theorem Accounts.execThread (accounts : Accounts s alive) {stays : Bool}
    (there : s.thread t = some th) (stepped : Calls.execThread next s w stays t th = some u) :
    ∃ alive, Accounts u alive := by
  obtain ⟨control, stack, status, tag⟩ := th
  cases control with
  | done r =>
    cases stack with
    | nil => cases stepped
    | cons k ks =>
      cases stepped
      exact ⟨alive, accounts.put there rfl⟩
  | run c =>
    cases instr : next c with
    | act f =>
      simp only [Calls.execThread, instr] at stepped
      cases stepped
      have kept : Accounts (s.put t ⟨.run (f s.shared).2, stack, status, tag⟩) alive :=
        accounts.put there rfl
      exact ⟨alive, kept.nodup, kept.live, kept.tags⟩
    | suspend c' =>
      simp only [Calls.execThread, instr] at stepped
      cases stays with
      | true =>
        cases stepped
        exact ⟨alive, accounts.put there rfl⟩
      | false =>
        cases stepped
        have kept : Accounts (s.put t ⟨.run c', stack, .parked, tag⟩) alive :=
          accounts.put there rfl
        exact ⟨alive, kept.nodup, kept.live, kept.tags⟩
    | call callee k =>
      simp only [Calls.execThread, instr] at stepped
      cases stepped
      exact ⟨alive, accounts.put there rfl⟩
    | ret v =>
      simp only [Calls.execThread, instr] at stepped
      cases stack with
      | nil =>
        cases stepped
        exact ⟨_, accounts.ends there rfl rfl (.refl _)⟩
      | cons k ks =>
        cases stepped
        exact ⟨alive, accounts.put there rfl⟩
    | raise x =>
      simp only [Calls.execThread, instr] at stepped
      cases stack with
      | nil =>
        cases stepped
        exact ⟨alive, accounts.nodup, accounts.live, accounts.tags⟩
      | cons k ks =>
        cases stepped
        exact ⟨alive, accounts.put there rfl⟩

theorem Accounts.step (accounts : Accounts s alive) {a : Label τ ω κ σ}
    (stepped : Calls.step next s a = some u) : ∃ alive, Accounts u alive := by
  simp only [Calls.step] at stepped
  split at stepped
  · cases stepped
  cases a with
  | spawn t c tag =>
    cases there : s.thread t with
    | some th =>
      simp only [there] at stepped
      cases stepped
    | none =>
      simp only [there] at stepped
      cases stepped
      exact ⟨_, accounts.begins there ⟨.run c, [], .new, tag⟩⟩
  | drop t =>
    cases there : s.thread t with
    | none =>
      simp only [there] at stepped
      cases stepped
    | some th =>
      simp only [there] at stepped
      split at stepped
      · cases stepped
        exact ⟨_, accounts.ends there rfl rfl List.perm_middle⟩
      · cases stepped
  | wake t =>
    cases there : s.thread t with
    | none =>
      simp only [there] at stepped
      cases stepped
    | some th =>
      simp only [there] at stepped
      split at stepped
      · cases stepped
        exact ⟨alive, accounts.put there rfl⟩
      · cases stepped
  | resume w t =>
    cases there : s.thread t with
    | none =>
      simp only [there] at stepped
      cases stepped
    | some th =>
      cases free : s.running w with
      | some r =>
        simp only [there, free] at stepped
        cases stepped
      | none =>
        simp only [there, free] at stepped
        split at stepped
        · cases stepped
          have kept : Accounts (s.put t { th with status := .running }) alive :=
            accounts.put there rfl
          exact ⟨alive, kept.nodup, kept.live, kept.tags⟩
        · cases stepped
  | exec w stays =>
    cases here : s.running w with
    | none =>
      simp only [here] at stepped
      cases stepped
    | some t =>
      cases there : s.thread t with
      | none =>
        simp only [here, there] at stepped
        cases stepped
      | some th =>
        simp only [here, there] at stepped
        exact accounts.execThread there stepped

end Calls
