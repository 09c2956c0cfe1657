import JLibSched.DAG.Model

/-!
# What a step of a task graph can do

`Move sh old sh' new` says that a step which finds the frames `old` on top of a stack, none
for a new call, leaves the frames `new` there and the graph `sh'`.  Every invariant of the
graph is proved by cases on a move.
-/

namespace JLibSched.DAG

open Transition

inductive Move (sh : Shared) : List Frame → Shared → List Frame → Prop where
  -- Calls.
  | addDependency {dependent dependency : Nat} (one : dependent < sh.count)
      (two : dependency < sh.count) :
      Move sh []
        { sh.openGuard with created := sh.created ++ [sh.newEdge dependent dependency] }
        [.addCount (sh.newEdge dependent dependency) sh.nextGuard]
  | signalExternal {d : Nat} (known : d < sh.count) :
      Move sh [] sh.openGuard [.signal d sh.nextGuard]
  | reject (fresh : sh.submitted = false) : Move sh [] sh.reject []
  | submit (fresh : sh.submitted = false) :
      Move sh [] { sh with submitted := true } [.scan (List.range sh.count) []]
  | cancel : Move sh [] { sh with cancelled := true } []
  | run {d : Nat} (queued : (sh.node d).queued = true) :
      Move sh [] (sh.modify d fun x => { x with queued := false }) [.body d]
  | discard {d : Nat} (queued : (sh.node d).queued = true) :
      Move sh [] (sh.modify d fun x => { x with queued := false, discarded := x.discarded + 1 })
        [.enter d .cancelled]
  -- `Submit`.
  | scanEnd {roots : List Nat} : Move sh [.scan [] roots] sh [.roots roots]
  | scanRoot {d : Nat} {pending roots : List Nat} (zero : (sh.node d).left = 0) :
      Move sh [.scan (d :: pending) roots] (sh.modify d fun x => { x with released := true })
        [.scan pending (roots ++ [d])]
  | scanSkip {d : Nat} {pending roots : List Nat} (counted : (sh.node d).left ≠ 0) :
      Move sh [.scan (d :: pending) roots] sh [.scan pending roots]
  | rootsEnd : Move sh [.roots []] { sh with returned := true } []
  | rootsNext {d : Nat} {rest : List Nat} :
      Move sh [.roots (d :: rest)] sh [.fire d .completed, .roots rest]
  -- `Fire`.
  | fireLost {d : Nat} {outcome : Outcome} (before : (sh.node d).submitted = true) :
      Move sh [.fire d outcome] sh []
  | fireWon {d : Nat} {outcome : Outcome} (first : (sh.node d).submitted = false) :
      Move sh [.fire d outcome]
        (sh.modify d fun x => { x with submitted := true, before := x.incs })
        [.loadCancelled d outcome]
  | isCancelled {d : Nat} {outcome : Outcome} :
      Move sh [.loadCancelled d outcome] sh [.dispose d]
  | notCancelled {d : Nat} : Move sh [.loadCancelled d .completed] sh [.dispatch d]
  | dispose {d : Nat} :
      Move sh [.dispose d]
        (sh.modify d fun x => { x with task := false, disposed := x.disposed + x.task.toNat })
        [.enter d .cancelled]
  | gate {d : Nat} {type : LogicType} (kind : (sh.node d).kind = .gate type) :
      Move sh [.dispatch d] sh [.enter d .completed]
  | armSignalled {d : Nat} (kind : (sh.node d).kind = .external)
      (signalled : (sh.node d).signalled = true) :
      Move sh [.dispatch d] (sh.modify d fun x => { x with armed := true })
        [.enter d .completed]
  | arm {d : Nat} (kind : (sh.node d).kind = .external)
      (waiting : (sh.node d).signalled = false) :
      Move sh [.dispatch d] (sh.modify d fun x => { x with armed := true }) []
  | noTask {d : Nat} (kind : (sh.node d).kind = .task) (none : (sh.node d).task = false) :
      Move sh [.dispatch d] sh [.enter d .completed]
  | push {d : Nat} (kind : (sh.node d).kind = .task) (task : (sh.node d).task = true) :
      Move sh [.dispatch d]
        (sh.modify d fun x =>
          { x with queued := true, pushed := x.pushed + 1, dispatched := true }) []
  | refused {d : Nat} (kind : (sh.node d).kind = .task) (task : (sh.node d).task = true) :
      Move sh [.dispatch d] (sh.modify d fun x => { x with dispatched := true }) [.dispose d]
  | body {d : Nat} :
      Move sh [.body d] (sh.modify d fun x => { x with ran := x.ran + 1 })
        [.enter d .completed]
  -- `OnTaskFinished`.
  | enter {d : Nat} {outcome : Outcome} :
      Move sh [.enter d outcome]
        (sh.openGuard.modify d fun x => { x with finished := x.finished ++ [outcome] })
        [.walk d outcome sh.nextGuard (sh.node d).firstEdge (sh.node d).firstEdge.edges []]
  | walkEnd {d : Nat} {outcome : Outcome} {g : Nat} {head : Head} {done : List Edge} :
      Move sh [.walk d outcome g head done done] sh [.trySeal d outcome g head]
  | walkNext {d : Nat} {outcome : Outcome} {g : Nat} {head : Head} {e : Edge}
      {rest done : List Edge} (more : e :: rest ≠ done) :
      Move sh [.walk d outcome g head (e :: rest) done]
        (sh.modify d fun x => { x with undelivered := x.undelivered.erase e })
        [.deliver e outcome, .walk d outcome g head rest done]
  | sealed {d : Nat} {outcome : Outcome} {g : Nat} {head : Head}
      (same : (sh.node d).firstEdge = head) :
      Move sh [.trySeal d outcome g head]
        (sh.modify d fun x => { x with firstEdge := ⟨head.edges, true, outcome = .cancelled⟩ })
        [.close g, .retire d]
  | sealRetry {d : Nat} {outcome : Outcome} {g : Nat} {head : Head} :
      Move sh [.trySeal d outcome g head] sh
        [.walk d outcome g (sh.node d).firstEdge (sh.node d).firstEdge.edges head.edges]
  | retire {d : Nat} :
      Move sh [.retire d] (sh.modify d fun x => { x with retired := some sh.guards }) []
  -- An edge is delivered.
  | deliverCancelled {e : Edge} :
      Move sh [.deliver e .cancelled]
        { sh with delivered := Function.update sh.delivered e (sh.delivered e + 1) }
        [.fire e.dep .cancelled]
  | deliverOr {e : Edge} (type : (sh.node e.dep).kind.gateType = .or) :
      Move sh [.deliver e .completed]
        { sh with delivered := Function.update sh.delivered e (sh.delivered e + 1) }
        [.fire e.dep .completed]
  | deliverLast {e : Edge} (type : (sh.node e.dep).kind.gateType = .and)
      (last : (sh.node e.dep).left - 1 = 0) :
      Move sh [.deliver e .completed]
        ({ sh with delivered := Function.update sh.delivered e (sh.delivered e + 1) }.modify
          e.dep fun x =>
            { x with left := x.left - 1, counted := x.counted.erase e, released := true })
        [.fire e.dep .completed]
  | deliverCount {e : Edge} (type : (sh.node e.dep).kind.gateType = .and)
      (more : (sh.node e.dep).left - 1 ≠ 0) :
      Move sh [.deliver e .completed]
        ({ sh with delivered := Function.update sh.delivered e (sh.delivered e + 1) }.modify
          e.dep fun x => { x with left := x.left - 1, counted := x.counted.erase e }) []
  -- `AddDependency`.
  | addCount {e : Edge} {g : Nat} :
      Move sh [.addCount e g]
        (sh.modify e.dep fun x =>
          { x with left := x.left + 1, incs := x.incs ++ [e], counted := x.counted ++ [e] })
        [.addLoad e g]
  | addLoad {e : Edge} {g : Nat} :
      Move sh [.addLoad e g] sh (addHead e g (sh.node e.source).firstEdge)
  | addLink {e : Edge} {g : Nat} {head : Head} (same : (sh.node e.source).firstEdge = head) :
      Move sh [.addCas e g head]
        (sh.modify e.source fun x =>
          { x with firstEdge := ⟨e :: head.edges, false, false⟩,
                   undelivered := e :: x.undelivered }) [.close g]
  | addRetry {e : Edge} {g : Nat} {head : Head} :
      Move sh [.addCas e g head] sh (addHead e g (sh.node e.source).firstEdge)
  -- `SignalExternal`.
  | signalAgain {d g : Nat} (before : (sh.node d).signalled = true) :
      Move sh [.signal d g] sh [.close g]
  | signalArmed {d g : Nat} (first : (sh.node d).signalled = false)
      (armed : (sh.node d).armed = true) :
      Move sh [.signal d g] (sh.modify d fun x => { x with signalled := true })
        [.enter d .completed, .close g]
  | signalEarly {d g : Nat} (first : (sh.node d).signalled = false)
      (unarmed : (sh.node d).armed = false) :
      Move sh [.signal d g] (sh.modify d fun x => { x with signalled := true }) [.close g]
  | close {g : Nat} : Move sh [.close g] (sh.closeGuard g) []

/-- A call is a move. -/
theorem Move.of_call {sh sh' : Shared} {op : Op} {new : List Frame}
    (called : call sh op = some (sh', new)) : Move sh [] sh' new := by
  cases op with
  | addDependency dependent dependency =>
    simp only [call] at called
    split at called
    · rename_i known
      cases called
      exact .addDependency known.1 known.2
    · cases called
  | signalExternal d =>
    simp only [call] at called
    split at called
    · rename_i known
      cases called
      exact .signalExternal known
    · cases called
  | submit =>
    simp only [call] at called
    split at called
    · cases called
    · rename_i fresh
      simp only [Bool.not_eq_true] at fresh
      split at called
      · cases called
        exact .reject fresh
      · cases called
        exact .submit fresh
  | cancel =>
    cases called
    exact .cancel
  | run d =>
    simp only [call] at called
    split at called
    · rename_i queued
      cases called
      exact .run queued
    · cases called
  | discard d =>
    simp only [call] at called
    split at called
    · rename_i queued
      cases called
      exact .discard queued
    · cases called

/-- A step of a frame is a move. -/
theorem Move.of_effect {sh sh' : Shared} {choice : Bool} {f : Frame} {new : List Frame}
    (stepped : effect sh choice f = some (sh', new)) : Move sh [f] sh' new := by
  cases f with
  | scan pending roots =>
    cases pending with
    | nil =>
      cases stepped
      exact .scanEnd
    | cons d pending =>
      simp only [effect] at stepped
      split at stepped
      · rename_i zero
        cases stepped
        exact .scanRoot zero
      · rename_i counted
        cases stepped
        exact .scanSkip counted
  | roots rest =>
    cases rest with
    | nil =>
      cases stepped
      exact .rootsEnd
    | cons d rest =>
      cases stepped
      exact .rootsNext
  | fire d outcome =>
    simp only [effect] at stepped
    split at stepped
    · rename_i before
      cases stepped
      exact .fireLost before
    · rename_i first
      cases stepped
      exact .fireWon (by simpa using first)
  | loadCancelled d outcome =>
    simp only [effect] at stepped
    split at stepped
    · cases stepped
      exact .isCancelled
    · rename_i running
      cases stepped
      cases outcome with
      | completed => exact .notCancelled
      | cancelled => exact absurd (.inr rfl) running
  | dispose d =>
    cases stepped
    exact .dispose
  | dispatch d =>
    simp only [effect] at stepped
    split at stepped
    · rename_i kind
      cases stepped
      exact .gate kind
    · rename_i kind
      cases signalled : (sh.node d).signalled with
      | true =>
        rw [signalled] at stepped
        cases stepped
        exact .armSignalled kind signalled
      | false =>
        rw [signalled] at stepped
        cases stepped
        exact .arm kind signalled
    · rename_i kind
      split at stepped
      · rename_i none
        cases stepped
        exact .noTask kind (by simpa using none)
      · rename_i some
        have task : (sh.node d).task = true := by simpa using some
        split at stepped
        · cases stepped
          exact .push kind task
        · cases stepped
          exact .refused kind task
  | body d =>
    cases stepped
    exact .body
  | enter d outcome =>
    cases stepped
    exact .enter
  | walk d outcome g head cur done =>
    simp only [effect] at stepped
    split at stepped
    · rename_i stop
      cases stepped
      subst stop
      exact .walkEnd
    · rename_i more
      split at stepped
      · cases stepped
        exact .walkNext more
      · cases stepped
  | trySeal d outcome g head =>
    simp only [effect] at stepped
    split at stepped
    · rename_i won
      cases stepped
      exact .sealed won.2
    · cases stepped
      exact .sealRetry
  | retire d =>
    cases stepped
    exact .retire
  | deliver e outcome =>
    cases outcome with
    | cancelled =>
      cases stepped
      exact .deliverCancelled
    | completed =>
      simp only [effect] at stepped
      split at stepped
      · rename_i absurd
        cases absurd
      split at stepped
      · rename_i type
        cases stepped
        exact .deliverOr type
      · rename_i type
        have and : (sh.node e.dep).kind.gateType = .and := by
          cases here : (sh.node e.dep).kind.gateType with
          | and => rfl
          | or => exact absurd here type
        split at stepped
        · rename_i last
          cases stepped
          exact .deliverLast and last
        · rename_i more
          cases stepped
          exact .deliverCount and more
  | addCount e g =>
    cases stepped
    exact .addCount
  | addLoad e g =>
    cases stepped
    exact .addLoad
  | addCas e g head =>
    simp only [effect] at stepped
    split at stepped
    · rename_i won
      cases stepped
      exact .addLink won.2
    · cases stepped
      exact .addRetry
  | signal d g =>
    simp only [effect] at stepped
    split at stepped
    · rename_i before
      cases stepped
      exact .signalAgain before
    · rename_i first
      have first' : (sh.node d).signalled = false := by simpa using first
      cases armed : (sh.node d).armed with
      | true =>
        rw [armed] at stepped
        cases stepped
        exact .signalArmed first' armed
      | false =>
        rw [armed] at stepped
        cases stepped
        exact .signalEarly first' armed
  | close g =>
    cases stepped
    exact .close

/-! ## The system -/

variable {n : Nat}

/-- A step creates a node, moves one thread, or frees a node. -/
theorem step_cases {s t : State n} {a : Label n} (stepped : step s a = some t) :
    (∃ kind task sh, create s.shared kind task = some sh ∧ t = ⟨sh, s.stack⟩) ∨
    (∃ i old rest sh new, s.stack i = old ++ rest ∧ Move s.shared old sh new ∧
      ((old ≠ [] → ∃ choice, a = .step i choice) ∧
        (old = [] → callable rest = true ∧ ∃ op, a = .call i op ∧
          call s.shared op = some (sh, new))) ∧
      t = ⟨sh, Stacks.replace s.stack i new rest⟩) ∨
    (∃ d sh, free s.shared d = some sh ∧ t = ⟨sh, s.stack⟩) := by
  cases a with
  | create kind task =>
    obtain ⟨sh, made, rfl⟩ := Option.map_eq_some_iff.mp stepped
    exact .inl ⟨kind, task, sh, made, rfl⟩
  | call i op =>
    simp only [step] at stepped
    split at stepped
    · rename_i free
      obtain ⟨⟨sh, new⟩, called, rfl⟩ := Option.map_eq_some_iff.mp stepped
      exact .inr (.inl ⟨i, [], s.stack i, sh, new, rfl, .of_call called,
        ⟨by simp, fun _ => ⟨free, op, rfl, called⟩⟩, rfl⟩)
    · cases stepped
  | step i choice =>
    simp only [step] at stepped
    split at stepped
    · cases stepped
    · rename_i f rest here
      obtain ⟨⟨sh, new⟩, moved, rfl⟩ := Option.map_eq_some_iff.mp stepped
      exact .inr (.inl ⟨i, [f], rest, sh, new, here, .of_effect moved,
        ⟨fun _ => ⟨choice, rfl⟩, by simp⟩, rfl⟩)
  | free d =>
    obtain ⟨sh, freed, rfl⟩ := Option.map_eq_some_iff.mp stepped
    exact .inr (.inr ⟨d, sh, freed, rfl⟩)

/-! ## Fields -/

@[grind =] theorem modify_node (sh : Shared) (d m : Nat) (f : Node → Node) :
    (sh.modify d f).node m = if m = d then f (sh.node d) else sh.node m := by
  simp [Shared.modify, Function.update_apply]

theorem modify_of_ne {sh : Shared} {d m : Nat} {f : Node → Node} (other : m ≠ d) :
    (sh.modify d f).node m = sh.node m := Function.update_of_ne other ..

@[simp, grind =] theorem modify_count (sh : Shared) (d : Nat) (f : Node → Node) :
    (sh.modify d f).count = sh.count := rfl

@[simp, grind =] theorem modify_created (sh : Shared) (d : Nat) (f : Node → Node) :
    (sh.modify d f).created = sh.created := rfl

@[simp, grind =] theorem modify_delivered (sh : Shared) (d : Nat) (f : Node → Node) (e : Edge) :
    (sh.modify d f).delivered e = sh.delivered e := rfl

@[simp, grind =] theorem modify_submitted (sh : Shared) (d : Nat) (f : Node → Node) :
    (sh.modify d f).submitted = sh.submitted := rfl

@[simp, grind =] theorem modify_rejected (sh : Shared) (d : Nat) (f : Node → Node) :
    (sh.modify d f).rejected = sh.rejected := rfl

@[simp, grind =] theorem modify_guards (sh : Shared) (d : Nat) (f : Node → Node) :
    (sh.modify d f).guards = sh.guards := rfl

@[simp, grind =] theorem modify_nextGuard (sh : Shared) (d : Nat) (f : Node → Node) :
    (sh.modify d f).nextGuard = sh.nextGuard := rfl

@[simp, grind =] theorem openGuard_node (sh : Shared) (d : Nat) :
    sh.openGuard.node d = sh.node d := rfl

@[simp, grind =] theorem openGuard_created (sh : Shared) :
    sh.openGuard.created = sh.created := rfl

@[simp, grind =] theorem openGuard_delivered (sh : Shared) (e : Edge) :
    sh.openGuard.delivered e = sh.delivered e := rfl

@[simp, grind =] theorem openGuard_submitted (sh : Shared) :
    sh.openGuard.submitted = sh.submitted := rfl

@[simp, grind =] theorem openGuard_rejected (sh : Shared) :
    sh.openGuard.rejected = sh.rejected := rfl

@[simp, grind =] theorem closeGuard_node (sh : Shared) (g d : Nat) :
    (sh.closeGuard g).node d = sh.node d := rfl

@[simp, grind =] theorem closeGuard_created (sh : Shared) (g : Nat) :
    (sh.closeGuard g).created = sh.created := rfl

@[simp, grind =] theorem closeGuard_delivered (sh : Shared) (g : Nat) (e : Edge) :
    (sh.closeGuard g).delivered e = sh.delivered e := rfl

@[simp, grind =] theorem closeGuard_submitted (sh : Shared) (g : Nat) :
    (sh.closeGuard g).submitted = sh.submitted := rfl

@[simp, grind =] theorem closeGuard_rejected (sh : Shared) (g : Nat) :
    (sh.closeGuard g).rejected = sh.rejected := rfl

theorem move_count {sh sh' : Shared} {old new : List Frame} (move : Move sh old sh' new) :
    sh'.count = sh.count := by
  cases move <;> rfl

end JLibSched.DAG
