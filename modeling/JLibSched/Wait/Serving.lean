import JLibSched.Cancel.Token
import JLibSched.Lib.WaitQueue

/-!
# Waiters and those who wake them

The mutex, the semaphore and the condition variable share how they deal with a queue of waiters.
`Unlock`, `Signal` and `Notify_One` take the oldest waiter off.  If its wait is cancellable and its
task was cancelled, it is woken with `Cancelled` and they look on; otherwise it is served.
`CancelWaiters` takes the cancellable waiters of a scope off and wakes them with `Cancelled`, and
`Notify_All` takes all off and serves each that was not cancelled.

A `Move` is what a step does to the queue and its parties, and `Handed` is what their users see of
it.
-/

namespace JLibSched.Wait

open Transition WaitQueue Cancel

/-- `WaitResult`. -/
inductive WaitResult where
  | ok
  | cancelled
deriving DecidableEq, Repr

/-- What a `WaitNode` says of its waiter: it is cancellable if `result` is set. -/
structure Node where
  cancellable : Bool
  token : Nat
deriving DecidableEq, Repr

/-- What a waiter finds when it wakes.  Only a cancellable one looks at the result. -/
structure Wake where
  cancellable : Bool
  result : WaitResult
deriving DecidableEq, Repr

/-- The places of a primitive where it deals with waiters. -/
structure Desk (κ : Type) where
  /-- It has taken the oldest waiter off and is about to look whether that was cancelled. -/
  test : κ
  skip : κ
  grant : κ
  /-- Where it stands after a waiter that was skipped, and after one that was served. -/
  again : κ
  done : κ
  /-- `CancelWaiters`. -/
  sweep : κ
  test_skip : test ≠ skip
  test_grant : test ≠ grant
  skip_grant : skip ≠ grant

variable {n : Nat} {κ : Type}

abbrev Pc (n : Nat) (κ : Type) := WaitQueue.Pc n κ Node Wake

abbrev Queue (n : Nat) (κ : Type) := Line n κ Node Wake

/-- `result && IsTaskCancelled(...)`, for a waiter. -/
def skips (tasks : Tasks n) (q : Queue n κ) (w : Fin n) : Bool :=
  (q.node w).any (·.cancellable) && tasks.isTaskCancelled w

/-- The predicate of `CancelWaiters`. -/
def covers (tasks : Tasks n) (q : Queue n κ) (tok : Nat) (w : Fin n) : Bool :=
  (q.node w).any fun node =>
    node.cancellable && (decide (tok = kNone) || isWithin tasks.slots node.token tok)

/-- A party wakes a waiter with a result. -/
def wake (q : Queue n κ) (u w : Fin n) (result : WaitResult) (pc : Pc n κ) : Queue n κ :=
  q.wake u w ⟨(q.node w).any (·.cancellable), result⟩ pc

variable {desk : Desk κ} {tasks : Tasks n} {q q' : Queue n κ} {u w p : Fin n}

theorem skips_cancellable (skipped : skips tasks q w = true) :
    ∃ node, q.pc w = .asleep node ∧ node.cancellable = true := by
  unfold skips at skipped
  obtain ⟨node, here, cancellable⟩ := Option.any_eq_true _ _ |>.mp (Bool.and_elim_left skipped)
  exact ⟨node, Line.node_eq_some.mp here, cancellable⟩

theorem covers_cancellable {tok : Nat} (covered : covers tasks q tok w = true) :
    ∃ node, q.pc w = .asleep node ∧ node.cancellable = true := by
  unfold covers at covered
  obtain ⟨node, here, both⟩ := Option.any_eq_true _ _ |>.mp covered
  exact ⟨node, Line.node_eq_some.mp here, Bool.and_elim_left both⟩

/-! ## Moves -/

/-- It carries nobody and does not sleep. -/
def Free (pc : Pc n κ) : Prop := pc.hand = [] ∧ pc.sleeps = 0

/-- A waiter that was taken off is woken. -/
inductive Waking (desk : Desk κ) (tasks : Tasks n) (q : Queue n κ) (u w : Fin n) :
    WaitResult → Pc n κ → Prop where
  | skipped : q.pc u = .holds desk.skip w →
      Waking desk tasks q u w .cancelled (.stands desk.again)
  | granted : q.pc u = .holds desk.grant w → Waking desk tasks q u w .ok (.stands desk.done)
  | victim {rest : List (Fin n)} : q.pc u = .walks desk.sweep (w :: rest) →
      Waking desk tasks q u w .cancelled (.walks desk.sweep rest)
  /-- `Notify_All`. -/
  | everyone {place : κ} {rest : List (Fin n)} : place ≠ desk.sweep →
      q.pc u = .walks place (w :: rest) →
      Waking desk tasks q u w (if skips tasks q w then .cancelled else .ok) (.walks place rest)

/-- What becomes of the queue and of its parties in a step. -/
inductive Move (desk : Desk κ) (tasks : Tasks n) (q q' : Queue n κ) : Prop where
  /-- Parties move that deal with no waiter. -/
  | calm (queue : q'.queue = q.queue) (ticket : q'.ticket = q.ticket) (clock : q'.clock = q.clock)
      (waits : q'.waits = q.waits) (wakes : q'.wakes = q.wakes)
      (moved : ∀ p, q'.pc p = q.pc p ∨ Free (q.pc p) ∧ Free (q'.pc p))
  | join (p : Fin n) (node : Node) (free : Free (q.pc p)) (line : q' = q.join p node)
  | pop (p w : Fin n) (rest : List (Fin n)) (free : Free (q.pc p)) (first : q.queue = w :: rest)
      (line : q' = q.pop p desk.test w rest)
  | test (p w : Fin n) (here : q.pc p = .holds desk.test w)
      (line : q' = q.set p (.holds (if skips tasks q w then desk.skip else desk.grant) w))
  | wake (p w : Fin n) (result : WaitResult) (pc : Pc n κ)
      (waking : Waking desk tasks q p w result pc) (line : q' = wake q p w result pc)
  | sweep (p : Fin n) (tok : Nat) (free : Free (q.pc p))
      (line : q' = q.takeIf p desk.sweep (covers tasks q tok))
  | takeAll (p : Fin n) (place : κ) (other : place ≠ desk.sweep) (free : Free (q.pc p))
      (line : q' = q.takeIf p place fun _ => true)

theorem Move.same (line : q' = q) : Move desk tasks q q' := by
  subst line
  exact .calm rfl rfl rfl rfl rfl fun _ => .inl rfl

/-- One party moves from a place to another. -/
theorem Move.go {pc : Pc n κ} (before : Free (q.pc p)) (after : Free pc) :
    Move desk tasks q (q.set p pc) := by
  refine .calm rfl rfl rfl rfl rfl fun r => ?_
  simp only [Line.set]
  rcases eq_or_ne r p with rfl | other
  · rw [Function.update_self]
    exact .inr ⟨before, after⟩
  · exact .inl (Function.update_of_ne other _ _)

theorem free_stands {place : κ} (here : q.pc p = .stands place) : Free (q.pc p) := by
  rw [here]
  exact ⟨rfl, rfl⟩

theorem Free.not_holds {pc : Pc n κ} (free : Free pc) (place : κ) (w : Fin n) :
    pc ≠ .holds place w := by
  rintro rfl
  cases free.1

/-! ## What a waker does -/

/-- It wakes its waiters with `Cancelled`. -/
def Cancelling (desk : Desk κ) (pc : Pc n κ) : Prop :=
  (∃ w, pc = .holds desk.skip w) ∨ ∃ chain, pc = .walks desk.sweep chain

/-- What holds of the queue and its parties in every reachable state. -/
structure Kept (desk : Desk κ) (q : Queue n κ) : Prop where
  sound : q.Sound
  marked : q.Marked (Cancelling desk) (·.cancellable = true)

theorem empty_kept (place : κ) : Kept desk (Line.empty place : Queue n κ) where
  sound := Line.empty_sound place
  marked u cancelling := by
    rcases cancelling with ⟨w, absurd⟩ | ⟨chain, absurd⟩
    · cases absurd
    · cases absurd

section Waking

variable {result : WaitResult} {pc : Pc n κ}

theorem Waking.hand (waking : Waking desk tasks q u w result pc) :
    (q.pc u).hand = w :: pc.hand := by
  cases waking with
  | skipped here | granted here | victim here | everyone _ here => rw [here]; rfl

theorem Waking.mem (waking : Waking desk tasks q u w result pc) : w ∈ (q.pc u).hand := by
  rw [waking.hand]
  exact List.mem_cons_self

theorem Waking.sleeps (waking : Waking desk tasks q u w result pc) : pc.sleeps = 0 := by
  cases waking with
  | skipped | granted | victim | everyone => rfl

theorem Waking.not_holds (waking : Waking desk tasks q u w result pc) (place : κ) (r : Fin n) :
    pc ≠ .holds place r := by
  cases waking with
  | skipped | granted | victim | everyone => exact fun absurd => by cases absurd

theorem Waking.not_woken (waking : Waking desk tasks q u w result pc) (told : Wake) :
    pc ≠ .woken told := by
  cases waking with
  | skipped | granted | victim | everyone => exact fun absurd => by cases absurd

/-- The waiter of a waker sleeps. -/
theorem Waking.asleep (sound : q.Sound) (waking : Waking desk tasks q u w result pc) :
    ∃ node, q.pc w = .asleep node :=
  Pc.asleep_of_sleeps (sound.carried waking.mem)

/-- The waiter is another party. -/
theorem Waking.apart (sound : q.Sound) (waking : Waking desk tasks q u w result pc) : w ≠ u := by
  obtain ⟨node, asleep⟩ := waking.asleep sound
  rintro rfl
  have mem := waking.mem
  rw [asleep] at mem
  cases mem

/-- The waiters of a party that wakes with `Cancelled` are cancellable. -/
theorem Kept.cancellable (kept : Kept desk q) (cancelling : Cancelling desk (q.pc u))
    (mem : w ∈ (q.pc u).hand) : (q.node w).any (·.cancellable) = true := by
  obtain ⟨node, here, cancellable⟩ := kept.marked u cancelling w mem
  rw [Line.node_eq_some.mpr here]
  exact cancellable

theorem Kept.skipped (kept : Kept desk q) (here : q.pc u = .holds desk.skip w) :
    (q.node w).any (·.cancellable) = true :=
  kept.cancellable (.inl ⟨w, here⟩) (by rw [here]; exact List.mem_cons_self)

theorem Kept.victim (kept : Kept desk q) {rest : List (Fin n)}
    (here : q.pc u = .walks desk.sweep (w :: rest)) : (q.node w).any (·.cancellable) = true :=
  kept.cancellable (.inr ⟨_, here⟩) (by rw [here]; exact List.mem_cons_self)

/-- A party that wakes with `Cancelled` afterwards has done so before. -/
theorem Waking.cancelling (waking : Waking desk tasks q u w result pc)
    (after : Cancelling desk pc) : Cancelling desk (q.pc u) := by
  cases waking with
  | skipped | granted =>
    rcases after with ⟨r, absurd⟩ | ⟨chain, absurd⟩
    · cases absurd
    · cases absurd
  | victim here => exact .inr ⟨_, here⟩
  | everyone other here =>
    rcases after with ⟨r, absurd⟩ | ⟨chain, same⟩
    · cases absurd
    · exact (other (Pc.walks.inj same).1).elim

/-- Who is told `Cancelled` is told by such a party, or was cancelled. -/
theorem Waking.told (waking : Waking desk tasks q u w .cancelled pc) :
    Cancelling desk (q.pc u) ∨ skips tasks q w = true := by
  generalize told : WaitResult.cancelled = result at waking
  cases waking with
  | skipped here => exact .inl (.inl ⟨w, here⟩)
  | victim here => exact .inl (.inr ⟨_, here⟩)
  | granted => cases told
  | everyone other here =>
    split at told
    · rename_i skipped
      exact .inr skipped
    · cases told

end Waking

/-! ## Moves keep the queue in order -/

theorem Move.sound (move : Move desk tasks q q') (kept : Kept desk q) : q'.Sound := by
  have sound := kept.sound
  cases move with
  | calm queue ticket clock waits wakes moved =>
    refine sound.calm queue ticket clock waits wakes (fun p => ?_) (fun p => ?_)
      fun p place w carried => ?_
    · rcases moved p with same | ⟨before, after⟩
      · rw [same]
      · rw [before.1, after.1]
    · rcases moved p with same | ⟨before, after⟩
      · rw [same]
      · rw [before.2, after.2]
    · rcases moved p with same | ⟨before, after⟩
      · exact ⟨place, same ▸ carried⟩
      · exact absurd carried (after.not_holds place w)
  | join p node free line =>
    rw [line]
    exact sound.join node free.1 free.2
  | pop p w rest free first line =>
    rw [line]
    exact sound.pop _ first free.1 free.2
  | test p w here line =>
    rw [line]
    refine sound.set (by rw [here]; rfl) (by rw [here]; rfl) fun place r same => ?_
    cases same
    exact ⟨_, here⟩
  | wake p w result pc waking line =>
    rw [line]
    exact sound.wake _ waking.hand waking.sleeps waking.not_holds
  | sweep p tok free line =>
    rw [line]
    exact sound.takeIf _ _ free.1 free.2
  | takeAll p place other free line =>
    rw [line]
    exact sound.takeIf _ _ free.1 free.2

theorem Move.marked (move : Move desk tasks q q') (kept : Kept desk q) :
    q'.Marked (Cancelling desk) (·.cancellable = true) := by
  have marked := kept.marked
  cases move with
  | calm queue ticket clock waits wakes moved =>
    refine marked.calm (fun p => ?_) (fun p node asleep => ?_) fun p chosen => ?_
    · rcases moved p with same | ⟨before, after⟩
      · rw [same]
      · rw [before.1, after.1]
    · rcases moved p with same | ⟨before, -⟩
      · rw [same, asleep]
      · rw [asleep] at before
        cases before.2
    · rcases moved p with same | ⟨-, after⟩
      · exact .inr (same ▸ chosen)
      · exact .inl after.1
  | join p node free line =>
    rw [line]
    exact marked.update rfl free.2 fun _ _ absurd => by cases absurd
  | pop p w rest free first line =>
    rw [line]
    refine marked.update rfl free.2 fun chosen => ?_
    rcases chosen with ⟨r, same⟩ | ⟨chain, same⟩
    · exact absurd (Pc.holds.inj same).1 desk.test_skip
    · cases same
  | test p w here line =>
    rw [line]
    refine marked.update rfl (by rw [here]; rfl) fun chosen r mem => ?_
    obtain rfl := List.mem_singleton.mp mem
    cases skipped : skips tasks q r with
    | true => exact skips_cancellable skipped
    | false =>
      rw [skipped] at chosen
      rcases chosen with ⟨r', same⟩ | ⟨chain, same⟩
      · exact absurd (Pc.holds.inj same).1.symm desk.skip_grant
      · cases same
  | wake p w result pc waking line =>
    rw [line]
    refine marked.wake kept.sound _ waking.hand fun chosen => ?_
    cases waking with
    | skipped | granted => exact .inr rfl
    | victim here => exact .inl (.inr ⟨_, here⟩)
    | everyone other here =>
      rcases chosen with ⟨r, same⟩ | ⟨chain, same⟩
      · cases same
      · cases same
        exact absurd rfl other
  | sweep p tok free line =>
    rw [line]
    refine marked.update rfl free.2 fun _ r mem => ?_
    exact covers_cancellable (List.mem_filter.mp mem).2
  | takeAll p place other free line =>
    rw [line]
    refine marked.update rfl free.2 fun chosen => ?_
    rcases chosen with ⟨r, same⟩ | ⟨chain, same⟩
    · cases same
    · cases same
      exact absurd rfl other

theorem Move.kept (move : Move desk tasks q q') (kept : Kept desk q) : Kept desk q' :=
  ⟨move.sound kept, move.marked kept⟩

/-! ## What a step does with the waiters -/

/-- How a waiter that slept is woken. -/
structure Handed (desk : Desk κ) (tasks : Tasks n) (q q' : Queue n κ) : Prop where
  /-- A waiter is served, or it is cancellable and learns that it was cancelled. -/
  woken : ∀ w node, q.pc w = .asleep node → q'.pc w = .asleep node ∨ ∃ u,
    q.pc u = .holds desk.grant w ∧ q'.pc w = .woken ⟨node.cancellable, .ok⟩ ∧
        q'.pc u = .stands desk.done ∨
      (q.pc u = .holds desk.skip w ∨ ∃ rest, q.pc u = .walks desk.sweep (w :: rest)) ∧
        node.cancellable = true ∧ q'.pc w = .woken ⟨true, .cancelled⟩ ∨
      (∃ place rest, place ≠ desk.sweep ∧ q.pc u = .walks place (w :: rest)) ∧
        q'.pc w = .woken ⟨node.cancellable, if skips tasks q w then .cancelled else .ok⟩
  /-- The oldest waiter is taken. -/
  oldest : ∀ u w, q'.pc u = .holds desk.test w → q.pc u = .holds desk.test w ∨
    q.queue.head? = some w ∧ ∀ p ∈ q'.queue, q'.ticket w < q'.ticket p
  granted : ∀ u w, q'.pc u = .holds desk.grant w → q.pc u = .holds desk.grant w ∨
    q.pc u = .holds desk.test w ∧ skips tasks q w = false
  skipped : ∀ u w, q'.pc u = .holds desk.skip w → q.pc u = .holds desk.skip w ∨
    q.pc u = .holds desk.test w ∧ skips tasks q w = true

/-- One party moves, which is awake, and wakes nobody. -/
theorem Handed.turn (pc : Pc n κ) (moved : q'.pc = Function.update q.pc p pc)
    (awake : (q.pc p).sleeps = 0)
    (oldest : ∀ w, pc = .holds desk.test w →
      q.queue.head? = some w ∧ ∀ r ∈ q'.queue, q'.ticket w < q'.ticket r)
    (granted : ∀ w, pc = .holds desk.grant w →
      q.pc p = .holds desk.test w ∧ skips tasks q w = false)
    (skipped : ∀ w, pc = .holds desk.skip w →
      q.pc p = .holds desk.test w ∧ skips tasks q w = true) :
    Handed desk tasks q q' where
  woken w node asleep := by
    refine .inl ?_
    have apart : w ≠ p := by
      rintro rfl
      rw [asleep] at awake
      cases awake
    rw [moved, Function.update_of_ne apart]
    exact asleep
  oldest u w here := by
    rw [moved] at here
    rcases eq_or_ne u p with rfl | other
    · rw [Function.update_self] at here
      exact .inr (oldest w here)
    · rw [Function.update_of_ne other] at here
      exact .inl here
  granted u w here := by
    rw [moved] at here
    rcases eq_or_ne u p with rfl | other
    · rw [Function.update_self] at here
      exact .inr (granted w here)
    · rw [Function.update_of_ne other] at here
      exact .inl here
  skipped u w here := by
    rw [moved] at here
    rcases eq_or_ne u p with rfl | other
    · rw [Function.update_self] at here
      exact .inr (skipped w here)
    · rw [Function.update_of_ne other] at here
      exact .inl here

/-- What is left of a wake: the waker, its waiter, and the others. -/
theorem Waking.parties (kept : Kept desk q) {result : WaitResult} {pc : Pc n κ} {node : Node}
    (waking : Waking desk tasks q u w result pc) (asleep : q.pc w = .asleep node) :
    (wake q u w result pc).pc u = pc ∧
      (wake q u w result pc).pc w = .woken ⟨node.cancellable, result⟩ ∧
        ∀ p, p ≠ u → p ≠ w → (wake q u w result pc).pc p = q.pc p := by
  have apart := waking.apart kept.sound
  unfold wake
  rw [Line.node_eq_some.mpr asleep, Option.any_some]
  simp only [Line.wake, Line.set]
  refine ⟨Function.update_self _ _ _, ?_, fun p notU notW => ?_⟩
  · rw [Function.update_of_ne apart, Function.update_self]
  · rw [Function.update_of_ne notU, Function.update_of_ne notW]

theorem Waking.handed (kept : Kept desk q) {result : WaitResult} {pc : Pc n κ}
    (waking : Waking desk tasks q u w result pc) :
    Handed desk tasks q (Wait.wake q u w result pc) := by
  obtain ⟨node, asleep⟩ := waking.asleep kept.sound
  obtain ⟨atU, atW, others⟩ := waking.parties kept asleep
  have awake := Pc.sleeps_of_hand waking.mem
  -- a party that still carries its waiter is neither of the two
  have carrier {v r : Fin n} {place : κ}
      (here : (Wait.wake q u w result pc).pc v = .holds place r) : q.pc v = .holds place r := by
    have notU : v ≠ u := by
      rintro rfl
      rw [atU] at here
      exact absurd here (waking.not_holds place r)
    have notW : v ≠ w := by
      rintro rfl
      rw [atW] at here
      cases here
    rw [← others v notU notW]
    exact here
  constructor
  case woken =>
    intro r node' asleep'
    rcases eq_or_ne r w with rfl | other
    · rw [asleep] at asleep'
      cases asleep'
      refine .inr ⟨u, ?_⟩
      cases waking with
      | granted here => exact .inl ⟨here, atW, atU⟩
      | skipped here =>
        have cancellable := kept.skipped here
        rw [Line.node_eq_some.mpr asleep, Option.any_some] at cancellable
        rw [cancellable] at atW
        exact .inr (.inl ⟨.inl here, cancellable, atW⟩)
      | victim here =>
        have cancellable := kept.victim here
        rw [Line.node_eq_some.mpr asleep, Option.any_some] at cancellable
        rw [cancellable] at atW
        exact .inr (.inl ⟨.inr ⟨_, here⟩, cancellable, atW⟩)
      | everyone other here => exact .inr (.inr ⟨⟨_, _, other, here⟩, atW⟩)
    · refine .inl ?_
      have notU : r ≠ u := by
        rintro rfl
        rw [asleep'] at awake
        cases awake
      rw [others r notU other]
      exact asleep'
  case oldest => exact fun v r here => .inl (carrier here)
  case granted => exact fun v r here => .inl (carrier here)
  case skipped => exact fun v r here => .inl (carrier here)

theorem Move.handed (move : Move desk tasks q q') (kept : Kept desk q) :
    Handed desk tasks q q' := by
  have ahead := (move.sound kept).ahead
  cases move with
  | calm queue ticket clock waits wakes moved =>
    have carrier {u w : Fin n} {place : κ} (here : q'.pc u = .holds place w) :
        q.pc u = .holds place w := by
      rcases moved u with same | ⟨-, after⟩
      · exact same ▸ here
      · exact absurd here (after.not_holds place w)
    constructor
    case woken =>
      intro w node asleep
      rcases moved w with same | ⟨before, -⟩
      · exact .inl (same.trans asleep)
      · rw [asleep] at before
        cases before.2
    case oldest => exact fun u w here => .inl (carrier here)
    case granted => exact fun u w here => .inl (carrier here)
    case skipped => exact fun u w here => .inl (carrier here)
  | join p node free line =>
    exact .turn (.asleep node) (by rw [line]; rfl) free.2 (fun _ absurd => (by cases absurd))
      (fun _ absurd => (by cases absurd)) (fun _ absurd => (by cases absurd))
  | pop p w rest free first line =>
    refine .turn (.holds desk.test w) (by rw [line]; rfl) free.2 (fun r same => ?_)
      (fun r same => ?_) (fun r same => ?_)
    · cases same
      refine ⟨by rw [first]; rfl, ahead p desk.test w ?_⟩
      rw [line]
      exact Function.update_self _ _ _
    · exact absurd (Pc.holds.inj same).1 desk.test_grant
    · exact absurd (Pc.holds.inj same).1 desk.test_skip
  | test p w here line =>
    refine .turn (.holds (if skips tasks q w then desk.skip else desk.grant) w)
      (by rw [line]; rfl) (by rw [here]; rfl) (fun r same => ?_) (fun r same => ?_)
      (fun r same => ?_)
    · have place := (Pc.holds.inj same).1
      split at place
      · exact absurd place.symm desk.test_skip
      · exact absurd place.symm desk.test_grant
    · obtain ⟨place, rfl⟩ := Pc.holds.inj same
      split at place
      · exact absurd place desk.skip_grant
      · rename_i not
        exact ⟨here, Bool.eq_false_iff.mpr not⟩
    · obtain ⟨place, rfl⟩ := Pc.holds.inj same
      split at place
      · rename_i skipped
        exact ⟨here, skipped⟩
      · exact absurd place.symm desk.skip_grant
  | wake p w result pc waking line =>
    rw [line]
    exact waking.handed kept
  | sweep p tok free line =>
    exact .turn (.walks desk.sweep (q.queue.filter (covers tasks q tok))) (by rw [line]; rfl)
      free.2 (fun _ absurd => (by cases absurd)) (fun _ absurd => (by cases absurd))
      (fun _ absurd => (by cases absurd))
  | takeAll p place other free line =>
    exact .turn (.walks place (q.queue.filter fun _ => true)) (by rw [line]; rfl)
      free.2 (fun _ absurd => (by cases absurd)) (fun _ absurd => (by cases absurd))
      (fun _ absurd => (by cases absurd))

end JLibSched.Wait
