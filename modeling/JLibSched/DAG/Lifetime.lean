import JLibSched.Lib.Adjacent
import JLibSched.DAG.Progress

/-!
# A node is not touched after it is freed

`OnTaskFinished` retires its node, and the reclaimer frees it once every guard that was open at
that moment has closed.  A walk opens its guard when it begins.  So a walk that had begun when
a dependent was retired keeps it alive, and a walk that begins later does not: an OR gate that
fires on its first dependency, or a node cancelled by one of its dependencies, is retired and
freed while the edges of the other dependencies still name it.

So the walks are safe in the runs that retire a node only when every dependency with an edge
to it has begun its own walk.
-/

namespace JLibSched.DAG

open Transition Stacks

variable {n : Nat} {s t : State n}

/-! ## The runs -/

/-- Frames of `AddDependency`. -/
@[grind =] def adds : Frame → Nat
  | .addCount _ _ | .addLoad _ _ | .addCas _ _ _ => 1
  | _ => 0

/-- Every edge is added before `Submit`. -/
def builtFirst (s : State n) : Label n → Prop
  | .call _ (.addDependency _ _) => s.shared.submitted = false
  | .call _ .submit => ∀ i, ∀ f ∈ s.stack i, adds f = 0
  | _ => True

/-- A node is retired only when each of its dependencies has begun to finish. -/
def retiresLast (s : State n) : Label n → Prop
  | .step i _ =>
    match s.stack i with
    | .retire d :: _ => ∀ e ∈ s.shared.created, e.dep = d → (s.shared.node e.source).finished ≠ []
    | _ => True
  | _ => True

def orderly (s : State n) (a : Label n) : Prop := builtFirst s a ∧ retiresLast s a

def builtFirst.decide (s : State n) : (a : Label n) → Decidable (builtFirst s a)
  | .call _ (.addDependency _ _) => inferInstanceAs (Decidable (_ = _))
  | .call _ .submit => inferInstanceAs (Decidable (∀ i, ∀ f ∈ s.stack i, adds f = 0))
  | .call _ (.signalExternal _) | .call _ .cancel | .call _ (.run _) | .call _ (.discard _)
  | .create _ _ | .step _ _ | .free _ => isTrue trivial

instance (s : State n) (a : Label n) : Decidable (builtFirst s a) := builtFirst.decide s a

theorem retiresLast_step {s : State n} {i : Fin n} {choice : Bool} :
    (match s.stack i with
      | .retire d :: _ => decide
          (∀ e ∈ s.shared.created, e.dep = d → (s.shared.node e.source).finished ≠ [])
      | _ => true) = true ↔ retiresLast s (.step i choice) := by
  simp only [retiresLast]
  split
  · exact decide_eq_true_iff
  · exact iff_of_true rfl trivial

instance (s : State n) : (a : Label n) → Decidable (retiresLast s a)
  | .step _ _ => decidable_of_iff _ retiresLast_step
  | .create _ _ | .call _ _ | .free _ => isTrue trivial

instance (s : State n) (a : Label n) : Decidable (orderly s a) :=
  inferInstanceAs (Decidable (_ ∧ _))

/-- What an orderly step says of the frames it replaces. -/
structure Tame (s : State n) (old rest : List Frame) (sh : Shared) (new : List Frame) : Prop where
  callable : old = [] → callable rest = true
  adding : old = [] → (new.map adds).sum ≠ 0 → s.shared.submitted = false
  submitting : s.shared.submitted = false → sh.submitted = true → total adds s.stack = 0
  retiring : ∀ d, old = [.retire d] → ∀ e ∈ s.shared.created, e.dep = d →
    (s.shared.node e.source).finished ≠ []

theorem total_adds_zero (none : ∀ i, ∀ f ∈ s.stack i, adds f = 0) : total adds s.stack = 0 := by
  refine Finset.sum_eq_zero fun j _ => List.sum_eq_zero ?_
  intro w mem
  obtain ⟨f, here, rfl⟩ := List.mem_map.mp mem
  exact none j f here

/-- Only `Submit` submits. -/
theorem move_submitted {sh sh' : Shared} {old new : List Frame} (move : Move sh old sh' new)
    (before : sh.submitted = false) (after : sh'.submitted = true) : old = [] := by
  cases move <;> grind

theorem orderly_cases {a : Label n} (allowed : orderly s a) (stepped : step s a = some t) :
    (∃ kind task sh, create s.shared kind task = some sh ∧ t = ⟨sh, s.stack⟩) ∨
    (∃ i old rest sh new, s.stack i = old ++ rest ∧ Move s.shared old sh new ∧
      Tame s old rest sh new ∧ t = ⟨sh, replace s.stack i new rest⟩) ∨
    (∃ d sh, free s.shared d = some sh ∧ t = ⟨sh, s.stack⟩) := by
  obtain ⟨built, last⟩ := allowed
  rcases step_cases stepped with made | ⟨i, old, rest, sh, new, here, move, ⟨top, called⟩, rfl⟩ |
    freed
  · exact .inl made
  · refine .inr (.inl ⟨i, old, rest, sh, new, here, move, ?_, rfl⟩)
    constructor
    · exact fun call => (called call).1
    · intro call adding
      obtain ⟨-, op, rfl, effect⟩ := called call
      cases op with
      | addDependency => exact built
      | _ =>
        simp only [DAG.call] at effect
        grind
    · intro before after
      obtain ⟨-, op, rfl, effect⟩ := called (move_submitted move before after)
      cases op with
      | submit => exact total_adds_zero built
      | _ =>
        simp only [DAG.call] at effect
        grind
    · rintro d rfl
      obtain ⟨choice, rfl⟩ := top (by simp)
      simp only [retiresLast, here, List.singleton_append] at last
      exact last
  · exact .inr (.inr freed)

/-! ## Before `Submit` -/

/-- Frames of a running graph. -/
@[grind =] def running : Frame → Nat
  | .addCount _ _ | .addLoad _ _ | .addCas _ _ _ | .signal _ _ | .close _ => 0
  | _ => 1

/-- Every node as it was built. -/
def Quiet (sh : Shared) : Prop :=
  ∀ d, (sh.node d).queued = false ∧ (sh.node d).armed = false ∧
    (sh.node d).firstEdge.isSealed = false

/-- Nothing runs before `Submit` or after a rejection, and no edge is added after `Submit`. -/
structure Building (s : State n) : Prop where
  order : s.shared.rejected = true → s.shared.submitted = true
  frames : s.shared.submitted = false ∨ s.shared.rejected = true → total running s.stack = 0
  quiet : s.shared.submitted = false ∨ s.shared.rejected = true → Quiet s.shared
  complete : s.shared.submitted = true → total adds s.stack = 0

theorem initial_building : Building (initial n) where
  order := fun none => by cases none
  frames := fun _ => total_empty _ (initial n).stack fun _ => rfl
  quiet := fun _ _ => ⟨rfl, rfl, rfl⟩
  complete := fun none => by cases none

theorem move_order {sh sh' : Shared} {old new : List Frame} (move : Move sh old sh' new) :
    (sh.submitted = true → sh'.submitted = true) ∧
      (sh'.rejected = true → sh.rejected = true ∨ sh.submitted = false ∧ sh'.submitted = true) := by
  cases move <;> grind [Shared.reject]

/-- A graph at rest stays at rest until it is submitted. -/
theorem move_quiet {sh sh' : Shared} {old new : List Frame} (move : Move sh old sh' new)
    (idle : (old.map running).sum = 0) (quiet : Quiet sh)
    (order : sh.rejected = true → sh.submitted = true)
    (still : sh'.submitted = false ∨ sh'.rejected = true) :
    (new.map running).sum = 0 ∧ Quiet sh' := by
  unfold Quiet at quiet ⊢
  cases move with
  | reject =>
    refine ⟨rfl, fun d => ?_⟩
    have before := quiet d
    dsimp only [Shared.reject]
    split <;> exact before
  | _ => grind [addHead]

theorem move_adds {sh sh' : Shared} {old new : List Frame} (move : Move sh old sh' new) :
    old = [] ∨ (new.map adds).sum ≤ (old.map adds).sum := by
  cases move <;> grind [addHead]

theorem Building.move {i : Fin n} {old rest new : List Frame} {sh : Shared}
    (building : Building s) (here : s.stack i = old ++ rest) (move : Move s.shared old sh new)
    (tame : Tame s old rest sh new) : Building ⟨sh, replace s.stack i new rest⟩ := by
  obtain ⟨kept, rejects⟩ := move_order move
  have before (still : sh.submitted = false ∨ sh.rejected = true) :
      s.shared.submitted = false ∨ s.shared.rejected = true := by
    rcases still with unsubmitted | rejected
    · refine .inl (Bool.eq_false_iff.mpr fun submitted => ?_)
      rw [kept submitted] at unsubmitted
      cases unsubmitted
    · exact (rejects rejected).elim .inr fun fresh => .inl fresh.1
  have frames := total_replace running new here
  have top := sum_le_total running here
  have atRest (still : sh.submitted = false ∨ sh.rejected = true) :
      (new.map running).sum = 0 ∧ Quiet sh := by
    have none := building.frames (before still)
    exact move_quiet move (by omega) (building.quiet (before still)) building.order still
  refine ⟨?_, fun still => ?_, fun still => (atRest still).2, fun submitted => ?_⟩ <;> dsimp only at *
  · intro rejected
    rcases rejects rejected with already | ⟨-, submitted⟩
    · exact kept (building.order already)
    · exact submitted
  · have none := building.frames (before still)
    have new := (atRest still).1
    omega
  · have adding := total_replace adds new here
    have mine := sum_le_total adds here
    have none : total adds s.stack = 0 := by
      cases already : s.shared.submitted with
      | true => exact building.complete already
      | false => exact tame.submitting already submitted
    have fresh : (new.map adds).sum = 0 := by
      rcases move_adds move with call | fewer
      · by_contra some
        have early := tame.adding call some
        subst call
        cases move <;> grind
      · omega
    omega

/-- A new node is blank, and changes nothing else. -/
theorem create_eq {kind : Kind} {task : Bool} {sh sh' : Shared}
    (made : create sh kind task = some sh') :
    sh.submitted = false ∧ sh' = { sh with
      node := Function.update sh.node sh.count (Node.new kind task), count := sh.count + 1 } := by
  unfold DAG.create at made
  split at made
  · cases made
  · rename_i allowed
    cases made
    exact ⟨Bool.eq_false_iff.mpr fun submitted => allowed (.inl submitted), rfl⟩

theorem Building.create {kind : Kind} {task : Bool} {sh : Shared} (building : Building s)
    (made : create s.shared kind task = some sh) : Building (n := n) ⟨sh, s.stack⟩ := by
  obtain ⟨-, rfl⟩ := create_eq made
  refine ⟨building.order, building.frames, fun still d => ?_, building.complete⟩
  dsimp only
  rcases eq_or_ne d s.shared.count with rfl | other
  · rw [Function.update_self]
    exact ⟨rfl, rfl, rfl⟩
  · rw [Function.update_of_ne other]
    exact building.quiet still d

theorem Building.free {d : Nat} {sh : Shared} (building : Building s)
    (freed : free s.shared d = some sh) : Building (n := n) ⟨sh, s.stack⟩ := by
  obtain ⟨guards, -, -, rfl⟩ := free_eq freed
  refine ⟨building.order, building.frames, fun still m => ?_, building.complete⟩
  have before := building.quiet still m
  grind

theorem reach_building : ∀ {s : State n}, Reach step orderly (initial n) s → Building s := by
  refine Reach.invariant initial_building fun building allowed stepped => ?_
  rcases orderly_cases allowed stepped with ⟨_, _, _, made, rfl⟩ |
    ⟨i, old, rest, sh, new, here, move, tame, rfl⟩ | ⟨_, _, freed, rfl⟩
  · exact building.create made
  · exact building.move here move tame
  · exact building.free freed

/-! ## Guards -/

/-- Frames that hold a guard. -/
@[grind =] def owns (g : Nat) : Frame → Nat
  | .walk _ _ g' _ _ _ | .trySeal _ _ g' _ | .addCount _ g' | .addLoad _ g' | .addCas _ g' _
  | .signal _ g' | .close g' => if g' = g then 1 else 0
  | _ => 0

/-- Every open guard has its frame. -/
structure Guarded (s : State n) : Prop where
  owned : ∀ g, total (owns g) s.stack = s.shared.guards.count g
  issued : ∀ g ∈ s.shared.guards, g < s.shared.nextGuard

theorem initial_guarded : Guarded (initial n) where
  owned := fun g => total_empty _ (initial n).stack fun _ => rfl
  issued := fun g none => by cases none

theorem move_owned {sh sh' : Shared} {old new : List Frame} {g : Nat} (move : Move sh old sh' new)
    (enough : (old.map (owns g)).sum ≤ sh.guards.count g) :
    (new.map (owns g)).sum + sh.guards.count g = (old.map (owns g)).sum + sh'.guards.count g := by
  cases move with
  | @addLoad e g' | @addRetry e g' =>
    unfold addHead
    split <;> simp [owns]
  | @close g' =>
    simp only [owns, Shared.closeGuard, List.count_erase, List.map_cons, List.map_nil,
      List.sum_cons, List.sum_nil] at enough ⊢
    grind
  | _ => grind [Shared.openGuard, Shared.reject]

theorem move_issued {sh sh' : Shared} {old new : List Frame} (move : Move sh old sh' new)
    (issued : ∀ g ∈ sh.guards, g < sh.nextGuard) :
    (∀ g ∈ sh'.guards, g < sh'.nextGuard) ∧ sh.nextGuard ≤ sh'.nextGuard ∧
      ∀ g ∈ sh'.guards, g ∈ sh.guards ∨ sh.nextGuard ≤ g := by
  cases move <;> grind [Shared.openGuard, Shared.closeGuard, Shared.reject, List.mem_of_mem_erase]

theorem Guarded.move {i : Fin n} {old rest new : List Frame} {sh : Shared} (guarded : Guarded s)
    (here : s.stack i = old ++ rest) (move : Move s.shared old sh new) :
    Guarded ⟨sh, replace s.stack i new rest⟩ := by
  refine ⟨fun g => ?_, (move_issued move guarded.issued).1⟩
  have frames := total_replace (owns g) new here
  have owned := guarded.owned g
  have top := sum_le_total (owns g) here
  have change := move_owned (g := g) move (by omega)
  dsimp only
  omega

theorem reach_guarded : ∀ {s : State n}, Reach step anyStep (initial n) s → Guarded s := by
  refine Reach.invariant initial_guarded fun guarded _ stepped => ?_
  rcases step_cases stepped with ⟨_, _, _, made, rfl⟩ |
    ⟨i, old, rest, sh, new, here, move, -, rfl⟩ | ⟨_, _, freed, rfl⟩
  · obtain ⟨-, rfl⟩ := create_eq made
    exact ⟨guarded.owned, guarded.issued⟩
  · exact guarded.move here move
  · obtain ⟨guards, -, -, rfl⟩ := free_eq freed
    exact ⟨guarded.owned, guarded.issued⟩

/-- The guard of a frame is open. -/
theorem Guarded.isOpen {i : Fin n} {f : Frame} {g : Nat} (guarded : Guarded s)
    (mem : f ∈ s.stack i) (holder : owns g f = 1) : g ∈ s.shared.guards := by
  have mine := le_total (owns g) mem
  have owned := guarded.owned g
  exact List.count_pos_iff.mp (by omega)

/-! ## Above a walk -/

/-- Frames that walk the list of node `m`, with their guard. -/
@[grind =] def walkOf : Frame → Option (Nat × Nat)
  | .walk m _ g _ _ _ | .trySeal m _ g _ => some (m, g)
  | _ => none

/-- What stands above a walk of node `m` comes from one of its edges. -/
@[grind =] def FromEdge (sh : Shared) (m : Nat) : Frame → Prop
  | .deliver e _ => e ∈ sh.created ∧ e.source = m
  | .fire d _ => ∃ e ∈ sh.created, e.source = m ∧ e.dep = d
  | _ => True

def Above (s : State n) : Prop :=
  ∀ i f w m g, Adjacent (s.stack i) f w → walkOf w = some (m, g) → FromEdge s.shared m f

theorem FromEdge.mono {sh sh' : Shared} {m : Nat} {f : Frame} (edge : FromEdge sh m f)
    (grows : ∀ e ∈ sh.created, e ∈ sh'.created) : FromEdge sh' m f := by
  cases f <;> grind

theorem move_created {sh sh' : Shared} {old new : List Frame} (move : Move sh old sh' new) :
    (∀ e ∈ sh.created, e ∈ sh'.created) ∧
      ((new.map adds).sum = 0 ∨ old ≠ [] → sh'.created = sh.created) := by
  cases move <;> grind [Shared.reject]

/-- A new pair of neighbours with a walk below is an edge and its walk. -/
theorem move_inner {sh sh' : Shared} {old new : List Frame} {f w : Frame} {m g : Nat}
    (move : Move sh old sh' new) (adjacent : Adjacent new f w) (walker : walkOf w = some (m, g)) :
    ∃ outcome head e rest done, old = [.walk m outcome g head (e :: rest) done] ∧
      e :: rest ≠ done ∧ f = .deliver e outcome := by
  cases move with
  | @addLoad e g | @addRetry e g =>
    unfold addHead at adjacent
    split at adjacent <;>
      simp only [Adjacent.cons_iff, Adjacent.nil, or_false, List.head?_cons, List.head?_nil,
        Option.some.injEq, reduceCtorEq, and_false] at adjacent
    grind
  | @walkNext d outcome g' head e rest done more =>
    obtain ⟨rfl, below⟩ | none := Adjacent.cons_iff.mp adjacent
    · cases below
      cases walker
      exact ⟨outcome, head, e, rest, done, rfl, more, rfl⟩
    · simp [Adjacent.cons_iff, Adjacent.nil] at none
  | _ =>
    simp only [Adjacent.cons_iff, Adjacent.nil, or_false, List.head?_cons, List.head?_nil,
      Option.some.injEq, reduceCtorEq, and_false] at adjacent
    try grind

/-- The last of the new frames has the edge of the frame it replaces. -/
theorem move_last {sh sh' : Shared} {new : List Frame} {f₀ f : Frame} {m : Nat}
    (move : Move sh [f₀] sh' new) (edge : FromEdge sh m f₀) (last : new.getLast? = some f) :
    FromEdge sh' m f := by
  cases move <;> grind [addHead]

theorem Above.move {i : Fin n} {old rest new : List Frame} {sh : Shared} (above : Above s)
    (delivery : Delivery s) (here : s.stack i = old ++ rest) (move : Move s.shared old sh new)
    (tame : Tame s old rest sh new) : Above ⟨sh, replace s.stack i new rest⟩ := by
  have grows := (move_created move).1
  intro j f w m g adjacent walker
  dsimp only [replace] at adjacent ⊢
  rcases eq_or_ne j i with rfl | other
  · rw [Function.update_self, Adjacent.append_iff] at adjacent
    rcases adjacent with inner | ⟨last, first⟩ | outer
    · obtain ⟨outcome, head, e, tail, done, rfl, more, rfl⟩ := move_inner move inner walker
      obtain ⟨new, todo, -, -, undelivered, -, source⟩ := delivery.walk_next here more
      have once := delivery.once e
      have waiting : 0 < (s.shared.node e.source).undelivered.count e := by
        rw [source, undelivered]
        exact List.count_pos_iff.mpr (by simp)
      exact ⟨grows e (List.count_pos_iff.mp (by omega)), source⟩
    · cases old with
      | nil =>
        have idle := tame.callable rfl
        cases rest with
        | nil => cases first
        | cons top rest =>
          cases first
          cases w <;> simp [DAG.callable, walkOf] at idle walker
      | cons f₀ more =>
        obtain rfl : more = [] := by cases move <;> rfl
        refine move_last move (above j f₀ w m g ?_ walker) last
        rw [here]
        exact Adjacent.cons_iff.mpr (.inl ⟨rfl, first⟩)
    · refine (above j f w m g ?_ walker).mono grows
      rw [here]
      exact Adjacent.append_iff.mpr (.inr (.inr outer))
  · rw [Function.update_of_ne other] at adjacent
    exact (above j f w m g adjacent walker).mono grows

/-! ## Retired nodes -/

/-- Frames about to retire a node. -/
@[grind =] def retires (d : Nat) : Frame → Nat
  | .retire m => if m = d then 1 else 0
  | _ => 0

/-- Every dependency of a retired node has begun to finish, and whoever still walks the list of
one holds a guard from before. -/
structure Covered (s : State n) (d : Nat) (guards : List Nat) : Prop where
  issued : ∀ g ∈ guards, g < s.shared.nextGuard
  begun : ∀ e ∈ s.shared.created, e.dep = d → (s.shared.node e.source).finished ≠ []
  walkers : ∀ e ∈ s.shared.created, e.dep = d →
    All (fun f => ∀ g, walkOf f = some (e.source, g) → g ∈ guards) s.stack

/-- A node is retired once, after its list is sealed, and freed when the guards that were open
then are closed. -/
structure Lifetime (s : State n) : Prop where
  once : ∀ d, total (retires d) s.stack + (s.shared.node d).retired.isSome.toNat =
    (s.shared.node d).firstEdge.isSealed.toNat
  retired : ∀ d guards, (s.shared.node d).retired = some guards → Covered s d guards
  freed : ∀ d, (s.shared.node d).freed = true → ∃ guards,
    (s.shared.node d).retired = some guards ∧ ∀ g ∈ guards, g ∉ s.shared.guards

theorem initial_lifetime : Lifetime (initial n) where
  once := fun d => by rw [total_empty _ (initial n).stack fun _ => rfl]; rfl
  retired := fun d guards none => by cases none
  freed := fun d none => by cases none

/-- What a step does to a node's retirement. -/
theorem move_retired {sh sh' : Shared} {old new : List Frame} (d : Nat)
    (move : Move sh old sh' new) (accepted : sh'.rejected = false) :
    (sh'.node d).freed = (sh.node d).freed ∧
      ((sh'.node d).retired = (sh.node d).retired ∨
        old = [.retire d] ∧ new = [] ∧ sh' = sh.modify d fun x => { x with retired := some sh.guards }) := by
  cases move with
  | reject => cases accepted
  | _ => grind

theorem move_retires {sh sh' : Shared} {old new : List Frame} {d : Nat}
    (move : Move sh old sh' new) (reads : ∀ f ∈ old, Reads sh f)
    (bound : (old.map (retires d)).sum + (sh.node d).retired.isSome.toNat ≤ 1)
    (accepted : sh'.rejected = false) :
    (new.map (retires d)).sum + (sh'.node d).retired.isSome.toNat +
        (sh.node d).firstEdge.isSealed.toNat =
      (old.map (retires d)).sum + (sh.node d).retired.isSome.toNat +
        (sh'.node d).firstEdge.isSealed.toNat := by
  cases move with
  | reject => cases accepted
  | addLoad | addRetry =>
    rw [addHead_sum _ fun _ _ _ _ => ⟨rfl, rfl, rfl⟩]
    rfl
  | @addLink e g head same =>
    have unsealed := reads (.addCas e g head) List.mem_cons_self
    simp only [Reads] at unsealed
    grind
  | @sealed m outcome g head same =>
    obtain ⟨new, first, -⟩ := reads (.trySeal m outcome g head) List.mem_cons_self
    grind
  | _ => grind

/-- A walk goes on with the guard it has, or begins. -/
theorem move_walkOf {sh sh' : Shared} {old new : List Frame} {f : Frame} {m g : Nat}
    (move : Move sh old sh' new) (mem : f ∈ new) (walker : walkOf f = some (m, g)) :
    (∃ f' ∈ old, walkOf f' = some (m, g)) ∨ ∃ outcome, old = [.enter m outcome] := by
  cases move with
  | walkEnd | walkNext | sealRetry =>
    refine .inl ⟨_, List.mem_cons_self, ?_⟩
    grind
  | _ => grind [addHead]

/-- Whoever enters `OnTaskFinished` is the first. -/
theorem Tokens.unfinished {i : Fin n} {f : Frame} {d : Nat} (tokens : Tokens s)
    (mem : f ∈ s.stack i) (holder : holds d f = 1) : (s.shared.node d).finished = [] := by
  have bound := tokens.elsewhere_le d
  have mine := le_total (holds d) mem
  simp only [Node.elsewhere] at bound
  exact List.length_eq_zero_iff.mp (by omega)

theorem Lifetime.isSealed {d : Nat} {guards : List Nat} (lifetime : Lifetime s)
    (gone : (s.shared.node d).retired = some guards) :
    (s.shared.node d).firstEdge.isSealed = true := by
  have once := lifetime.once d
  rw [gone, Option.isSome_some, Bool.toNat_true] at once
  cases here : (s.shared.node d).firstEdge.isSealed with
  | true => rfl
  | false =>
    rw [here, Bool.toNat_false] at once
    omega

theorem Building.submitted_of_sealed {d : Nat} (building : Building s)
    (isSealed : (s.shared.node d).firstEdge.isSealed = true) : s.shared.submitted = true := by
  cases submitted : s.shared.submitted with
  | true => rfl
  | false =>
    have quiet := (building.quiet (.inl submitted) d).2.2
    rw [isSealed] at quiet
    cases quiet

/-- No edge is added to a submitted graph. -/
theorem created_of_submitted {old rest new : List Frame} {sh : Shared}
    (move : Move s.shared old sh new) (tame : Tame s old rest sh new)
    (submitted : s.shared.submitted = true) : sh.created = s.shared.created := by
  refine (move_created move).2 ?_
  by_contra both
  obtain ⟨adding, call⟩ := not_or.mp both
  have early := tame.adding (not_not.mp call) adding
  rw [submitted] at early
  cases early

/-- A walk that begins later is not of a dependency of the node. -/
theorem Covered.move {i : Fin n} {old rest new : List Frame} {sh : Shared} {d : Nat}
    {guards : List Nat} (covered : Covered s d guards) (tokens : Tokens s)
    (here : s.stack i = old ++ rest) (move : Move s.shared old sh new)
    (same : sh.created = s.shared.created) (more : s.shared.nextGuard ≤ sh.nextGuard) :
    Covered ⟨sh, replace s.stack i new rest⟩ d guards := by
  have top : ∀ f ∈ old, f ∈ s.stack i := fun f mem => by
    rw [here]
    exact List.mem_append_left _ mem
  refine ⟨fun g mem => Nat.lt_of_lt_of_le (covered.issued g mem) more, fun e mem dep => ?_,
    fun e mem dep => ?_⟩ <;> dsimp only at mem ⊢ <;> rw [same] at mem
  · obtain ⟨outcome, first⟩ := List.exists_mem_of_ne_nil _ (covered.begun e mem dep)
    exact List.ne_nil_of_mem (move_finished move first)
  · have before := covered.walkers e mem dep
    refine before.replace here (fun f fresh g walker => ?_) fun f old => old
    rcases move_walkOf move fresh walker with ⟨f', mine, walker'⟩ | ⟨outcome, rfl⟩
    · exact before i f' (top f' mine) g walker'
    · refine absurd (tokens.unfinished (top _ List.mem_cons_self) ?_) (covered.begun e mem dep)
      simp [holds]

/-- When a node is retired, every walk of a dependency has its guard open. -/
theorem Covered.of_retire {i : Fin n} {rest : List Frame} {d : Nat} (guarded : Guarded s)
    (here : s.stack i = .retire d :: rest)
    (last : ∀ e ∈ s.shared.created, e.dep = d → (s.shared.node e.source).finished ≠ []) :
    Covered ⟨s.shared.modify d fun x => { x with retired := some s.shared.guards },
      replace s.stack i [] rest⟩ d s.shared.guards := by
  refine ⟨guarded.issued, fun e mem dep => ?_, fun e mem dep j f frame g walker => ?_⟩
  · have begun := last e mem dep
    grind
  · rcases mem_replace (show s.stack i = [.retire d] ++ rest from here) frame with none | before
    · cases none
    · refine guarded.isOpen before ?_
      cases f <;> grind

theorem Lifetime.move {i : Fin n} {old rest new : List Frame} {sh : Shared}
    (lifetime : Lifetime s) (tokens : Tokens s) (delivery : Delivery s) (building : Building s)
    (guarded : Guarded s) (here : s.stack i = old ++ rest) (move : Move s.shared old sh new)
    (tame : Tame s old rest sh new) (accepted : sh.rejected = false) :
    Lifetime ⟨sh, replace s.stack i new rest⟩ := by
  obtain ⟨-, more, reopened⟩ := move_issued move guarded.issued
  have top : ∀ f ∈ old, f ∈ s.stack i := fun f mem => by
    rw [here]
    exact List.mem_append_left _ mem
  refine ⟨fun d => ?_, fun d guards gone => ?_, fun d gone => ?_⟩ <;> dsimp only at *
  · have frames := total_replace (retires d) new here
    have once := lifetime.once d
    have mine := sum_le_total (retires d) here
    have one := Bool.toNat_le (s.shared.node d).firstEdge.isSealed
    have change := move_retires (d := d) move (fun f mem => delivery.reads i f (top f mem))
      (by omega) accepted
    omega
  · rcases (move_retired d move accepted).2 with same | ⟨rfl, rfl, rfl⟩
    · rw [same] at gone
      have submitted := building.submitted_of_sealed (lifetime.isSealed gone)
      exact (lifetime.retired d guards gone).move tokens here move
        (created_of_submitted move tame submitted) more
    · obtain rfl : s.shared.guards = guards := by simpa [modify_node] using gone
      exact .of_retire guarded here (tame.retiring d rfl)
  · obtain ⟨kept, changes⟩ := move_retired d move accepted
    rw [kept] at gone
    obtain ⟨guards, retired, closed⟩ := lifetime.freed d gone
    rcases changes with same | ⟨rfl, rfl, rfl⟩
    · refine ⟨guards, same.trans retired, fun g mem again => ?_⟩
      have issued := (lifetime.retired d guards retired).issued g mem
      rcases reopened g again with before | later
      · exact closed g mem before
      · omega
    · -- The node was retired before, so no frame is about to retire it.
      have once := lifetime.once d
      have mine := le_total (retires d) (top _ List.mem_cons_self)
      have one := Bool.toNat_le (s.shared.node d).firstEdge.isSealed
      simp only [retires, if_true] at mine
      rw [retired, Option.isSome_some, Bool.toNat_true] at once
      omega

theorem Lifetime.create {kind : Kind} {task : Bool} {sh : Shared} (lifetime : Lifetime s)
    (known : Known s) (made : create s.shared kind task = some sh) :
    Lifetime (n := n) ⟨sh, s.stack⟩ := by
  obtain ⟨-, rfl⟩ := create_eq made
  have blank := known.blank s.shared.count (Nat.le_refl _)
  have same (d : Nat) :
      (Function.update s.shared.node s.shared.count (Node.new kind task) d).firstEdge =
        (s.shared.node d).firstEdge ∧
      (Function.update s.shared.node s.shared.count (Node.new kind task) d).finished =
        (s.shared.node d).finished ∧
      (Function.update s.shared.node s.shared.count (Node.new kind task) d).retired =
        (s.shared.node d).retired ∧
      (Function.update s.shared.node s.shared.count (Node.new kind task) d).freed =
        (s.shared.node d).freed := by
    rcases eq_or_ne d s.shared.count with rfl | other
    · rw [Function.update_self, blank]
      exact ⟨rfl, rfl, rfl, rfl⟩
    · rw [Function.update_of_ne other]
      exact ⟨rfl, rfl, rfl, rfl⟩
  refine ⟨fun d => ?_, fun d guards gone => ?_, fun d gone => ?_⟩ <;> dsimp only at *
  · rw [(same d).1, (same d).2.2.1]
    exact lifetime.once d
  · rw [(same d).2.2.1] at gone
    obtain ⟨issued, begun, walkers⟩ := lifetime.retired d guards gone
    refine ⟨issued, fun e mem dep => ?_, walkers⟩
    dsimp only
    rw [(same e.source).2.1]
    exact begun e mem dep
  · rw [(same d).2.2.2] at gone
    rw [(same d).2.2.1]
    exact lifetime.freed d gone

theorem Lifetime.free {d : Nat} {sh : Shared} (lifetime : Lifetime s)
    (freed : free s.shared d = some sh) : Lifetime (n := n) ⟨sh, s.stack⟩ := by
  obtain ⟨guards, retired, closed, rfl⟩ := free_eq freed
  refine ⟨fun m => ?_, fun m guards' gone => ?_, fun m gone => ?_⟩ <;> dsimp only at *
  · have once := lifetime.once m
    grind
  · have before : (s.shared.node m).retired = some guards' := by grind
    obtain ⟨issued, begun, walkers⟩ := lifetime.retired m guards' before
    refine ⟨issued, fun e mem dep => ?_, walkers⟩
    have finished := begun e mem dep
    grind
  · have before := lifetime.freed m
    grind

theorem reach_lifetime : ∀ {s : State n}, Reach step orderly (initial n) s →
    s.shared.rejected = false → Lifetime s ∧ Above s := by
  refine Reach.invariant_of
    (J := fun s => (Known s ∧ Building s ∧ Guarded s) ∧
      (s.shared.rejected = false → Tokens s ∧ Delivery s))
    (I := fun s => s.shared.rejected = false → Lifetime s ∧ Above s) ?_
    (fun _ => ⟨initial_lifetime, fun _ _ _ _ _ none => absurd none Adjacent.nil⟩) ?_
  · intro s orderly
    have reach : Reach step anyStep (initial n) s := orderly.weaken fun _ => trivial
    exact ⟨⟨reach_known reach, reach_building orderly, reach_guarded reach⟩,
      fun accepted => ⟨reach_tokens reach accepted, reach_delivery reach accepted⟩⟩
  · rintro s t a ⟨⟨known, building, guarded⟩, live⟩ before allowed stepped accepted
    rcases orderly_cases allowed stepped with ⟨_, _, _, made, rfl⟩ |
      ⟨i, old, rest, sh, new, here, move, tame, rfl⟩ | ⟨_, _, freed, rfl⟩
    · obtain ⟨lifetime, above⟩ := before (create_rejected made ▸ accepted)
      obtain ⟨-, rfl⟩ := create_eq made
      exact ⟨lifetime.create known made, above⟩
    · have still := move_rejected move accepted
      obtain ⟨tokens, delivery⟩ := live still
      obtain ⟨lifetime, above⟩ := before still
      exact ⟨lifetime.move tokens delivery building guarded here move tame accepted,
        above.move delivery here move tame⟩
    · obtain ⟨guards, -, -, rfl⟩ := free_eq freed
      obtain ⟨lifetime, above⟩ := before accepted
      exact ⟨lifetime.free freed, above⟩

/-! ## The walk -/

/-- The node of an edge that the next step of `WalkAndSeal` or of its `Fire` reads or writes. -/
def Frame.touches : Frame → Option Nat
  | .deliver e _ => some e.dep
  | .fire d _ | .dispose d | .dispatch d | .enter d _ => some d
  | _ => none

/-- A frame of `Fire` after the exchange holds its node, which is not retired. -/
theorem holder_live {i : Fin n} {f : Frame} {d : Nat} (tokens : Tokens s) (delivery : Delivery s)
    (lifetime : Lifetime s) (mem : f ∈ s.stack i) (holder : holds d f = 1) :
    (s.shared.node d).freed = false := by
  refine Bool.eq_false_iff.mpr fun freed => ?_
  obtain ⟨guards, retired, -⟩ := lifetime.freed d freed
  have isSealed := lifetime.isSealed retired
  rw [delivery.unfinished d (tokens.unfinished mem holder)] at isSealed
  cases isSealed

/-- An edge keeps its dependent alive while the walk's guard is open. -/
theorem edge_live {i : Fin n} {w : Frame} {e : Edge} {g : Nat} (guarded : Guarded s)
    (lifetime : Lifetime s) (mem : w ∈ s.stack i) (walker : walkOf w = some (e.source, g))
    (created : e ∈ s.shared.created) : (s.shared.node e.dep).freed = false := by
  refine Bool.eq_false_iff.mpr fun freed => ?_
  obtain ⟨guards, retired, closed⟩ := lifetime.freed e.dep freed
  have inside := (lifetime.retired _ guards retired).walkers e created rfl i w mem g walker
  refine closed g inside (guarded.isOpen mem ?_)
  cases w <;> grind

/-- In an orderly run no step of an edge walk touches a node that was freed. -/
theorem walk_touches_live {i : Fin n} {f w : Frame} {m g d : Nat} {below : List Frame}
    (reach : Reach step orderly (initial n) s) (here : s.stack i = f :: w :: below)
    (walker : walkOf w = some (m, g)) (touched : f.touches = some d) :
    (s.shared.node d).freed = false := by
  have plain : Reach step anyStep (initial n) s := reach.weaken fun _ => trivial
  have top : f ∈ s.stack i := by simp [here]
  have next : w ∈ s.stack i := by simp [here]
  have accepted : s.shared.rejected = false := by
    refine Bool.eq_false_iff.mpr fun rejected => ?_
    have none := (reach_building reach).frames (.inr rejected)
    have mine := le_total running next
    have one : running w = 1 := by cases w <;> grind
    omega
  have tokens := reach_tokens plain accepted
  have delivery := reach_delivery plain accepted
  have guarded := reach_guarded plain
  obtain ⟨lifetime, above⟩ := reach_lifetime reach accepted
  have edge := above i f w m g (by rw [here]; exact ⟨[], below, rfl⟩) walker
  cases f with
  | deliver e outcome =>
    cases touched
    obtain ⟨created, rfl⟩ := edge
    exact edge_live guarded lifetime next walker created
  | fire d' outcome =>
    cases touched
    obtain ⟨e, created, rfl, rfl⟩ := edge
    exact edge_live guarded lifetime next walker created
  | dispose | dispatch | enter =>
    cases touched
    exact holder_live tokens delivery lifetime top (by simp [holds])
  | _ => cases touched

/-- Two tasks, the second after the first, until the first is about to deliver its edge. -/
def midWalk : List (Label 1) :=
  [.create .task true, .create .task true, .call 0 (.addDependency 1 0)] ++ steps 0 4 ++
    [.call 0 .submit] ++ steps 0 8 ++ [.call 0 (.run 0)] ++ steps 0 3

theorem midWalk_touches_live :
    ∃ s : State 1, Reach step orderly (initial 1) s ∧
      (∃ w below g, s.stack 0 = .deliver ⟨0, 0, 1⟩ .completed :: w :: below ∧
        walkOf w = some (0, g)) ∧ (s.shared.node 1).freed = false :=
  ⟨_, Reach.of_run .start (rfl : run step orderly (initial 1) midWalk = some _),
    ⟨_, _, 1, rfl, rfl⟩,
    walk_touches_live (Reach.of_run .start (rfl : run step orderly (initial 1) midWalk = some _))
      (i := 0) rfl rfl rfl⟩

/-- An OR gate on two tasks.  The first task finishes, the gate fires, is retired and is freed;
then the second task finishes. -/
def orGate : List (Label 1) :=
  [.create .task true, .create .task true, .create (.gate .or) false,
    .call 0 (.addDependency 2 0)] ++ steps 0 4 ++ [.call 0 (.addDependency 2 1)] ++ steps 0 4 ++
    [.call 0 .submit] ++ steps 0 13 ++ [.call 0 (.run 0)] ++ steps 0 16 ++
    [.free 2, .call 0 (.run 1)] ++ steps 0 3

/-- The second walk delivers its edge to a node that was freed. -/
theorem orGate_touches_freed :
    ∃ s : State 1, Reach step builtFirst (initial 1) s ∧ s.shared.rejected = false ∧
      (∃ w below g, s.stack 0 = .deliver ⟨1, 1, 2⟩ .completed :: w :: below ∧
        walkOf w = some (1, g)) ∧ (s.shared.node 2).freed = true :=
  ⟨_, Reach.of_run .start (rfl : run step builtFirst (initial 1) orGate = some _), rfl,
    ⟨_, _, 4, rfl, rfl⟩, rfl⟩

end JLibSched.DAG
