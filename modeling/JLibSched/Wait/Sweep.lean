import JLibSched.Wait.Serving

/-!
# Waiters of a cancelled scope

A scope is swept when it has been cancelled and a `CancelWaiters` of it goes through the queue.  No
cancellable waiter of a swept scope is left in the queue, as long as those that join are not
cancelled when they do, and their scopes stay alive.
-/

namespace JLibSched.Wait

open Transition WaitQueue Cancel

variable {n : Nat} {κ : Type} {desk : Desk κ} {tasks tasks' : Tasks n} {q q' : Queue n κ}
  {swept : List Nat} {p u w : Fin n} {tok : Nat}

/-- No cancellable waiter in the queue lies within a swept scope. -/
def NoneLost (q : Queue n κ) (slots : Table) (swept : List Nat) : Prop :=
  ∀ w ∈ q.queue, ∀ node, q.node w = some node → node.cancellable = true →
    ∀ tok ∈ swept, isWithin slots node.token tok = false

/-- The swept scopes are cancelled, and none of their waiters is in the queue. -/
structure Swept (q : Queue n κ) (slots : Table) (swept : List Nat) : Prop where
  marked : ∀ tok ∈ swept, Marked slots tok
  none : NoneLost q slots swept

theorem empty_swept (place : κ) (slots : Table) :
    Swept (Line.empty place : Queue n κ) slots [] where
  marked tok absurd := by cases absurd
  none w absurd := by cases absurd

/-- The scopes of queued waiters stay alive. -/
def ScopesAlive (q : Queue n κ) (slots slots' : Table) : Prop :=
  ∀ w ∈ q.queue, ∀ node ∈ q.node w, Alive slots slots' node.token

instance (q : Queue n κ) (slots slots' : Table) : Decidable (ScopesAlive q slots slots') :=
  inferInstanceAs (Decidable (∀ w ∈ q.queue, ∀ node ∈ q.node w, Alive slots slots' node.token))

theorem ScopesAlive.refl {slots : Table} : ScopesAlive q slots slots :=
  fun _ _ _ _ => Alive.refl

/-- The swept scopes that do not end. -/
def stillAlive (swept : List Nat) (slots slots' : Table) : List Nat :=
  swept.filter fun tok => decide (Alive slots slots' tok)

theorem Swept.alive {slots slots' : Table} (inv : Swept q slots swept)
    (alive : ScopesAlive q slots slots') : Swept q slots' (stillAlive swept slots slots') where
  marked tok mem := by
    obtain ⟨before, lives⟩ := List.mem_filter.mp mem
    exact (inv.marked tok before).alive (of_decide_eq_true lives)
  none w mem node here cancellable tok inSwept := by
    rw [(alive w mem node here).isWithin_eq]
    exact inv.none w mem node here cancellable tok (List.mem_of_mem_filter inSwept)

/-- A waiter that joins is not cancelled. -/
def JoinsAlert (tasks : Tasks n) (p : Fin n) (node : Node) : Prop :=
  node.cancellable = true → node.token = tasks.token p ∧ tasks.isTaskCancelled p = false

theorem Swept.join (inv : Swept q tasks.slots swept) (sound : q.Sound) (free : Free (q.pc p))
    {node : Node} (alert : JoinsAlert tasks p node) :
    Swept (q.join p node) tasks.slots swept where
  marked := inv.marked
  none w mem node' here cancellable tok inSwept := by
    rcases List.mem_append.mp mem with before | last
    · have asleep := sound.queued before
      have apart : w ≠ p := by
        rintro rfl
        rw [free.2] at asleep
        cases asleep
      refine inv.none w before node' ?_ cancellable tok inSwept
      unfold Line.node at here ⊢
      simp only [Line.join] at here
      rw [Function.update_of_ne apart] at here
      exact here
    · obtain rfl := List.mem_singleton.mp last
      unfold Line.node at here
      simp only [Line.join] at here
      rw [Function.update_self] at here
      cases here
      obtain ⟨token, live⟩ := alert cancellable
      by_contra within
      -- it lies within a cancelled scope, so it is cancelled
      have cancelled := isWithin_cancelled (inv.marked tok inSwept)
        (Bool.eq_true_of_not_eq_false within)
      rw [token] at cancelled
      unfold Tasks.isTaskCancelled at live
      rw [cancelled, Bool.or_true] at live
      cases live

/-- Whoever is in the queue afterwards was in it before, with the same node. -/
theorem Swept.shrink (inv : Swept q tasks.slots swept)
    (shrinks : ∀ w ∈ q'.queue, w ∈ q.queue ∧ q'.node w = q.node w) :
    Swept q' tasks.slots swept where
  marked := inv.marked
  none w mem node here cancellable tok inSwept := by
    obtain ⟨before, same⟩ := shrinks w mem
    exact inv.none w before node (same ▸ here) cancellable tok inSwept

/-- A party moves that does not sleep, and the queue gets no longer. -/
theorem shrinks_of_update (sound : q.Sound) {pc : Pc n κ}
    (moved : q'.pc = Function.update q.pc p pc) (awake : (q.pc p).sleeps = 0)
    (queue : ∀ w ∈ q'.queue, w ∈ q.queue) (w : Fin n) (mem : w ∈ q'.queue) :
    w ∈ q.queue ∧ q'.node w = q.node w := by
  have before := queue w mem
  have asleep := sound.queued before
  have apart : w ≠ p := by
    rintro rfl
    omega
  refine ⟨before, ?_⟩
  unfold Line.node
  rw [moved, Function.update_of_ne apart]

theorem Swept.sweep (desk : Desk κ) (inv : Swept q tasks.slots swept) (sound : q.Sound)
    (free : Free (q.pc p)) (tok : Nat) :
    Swept (q.takeIf p desk.sweep (covers tasks q tok)) tasks.slots
      (if Marked tasks.slots tok then tok :: swept else swept) := by
  have left : Swept (q.takeIf p desk.sweep (covers tasks q tok)) tasks.slots swept :=
    inv.shrink (shrinks_of_update sound rfl free.2 fun w mem => List.mem_of_mem_filter mem)
  split
  · rename_i marked
    constructor
    case marked =>
      intro other mem
      rcases List.mem_cons.mp mem with rfl | before
      · exact marked
      · exact inv.marked other before
    case none =>
      intro w mem node here cancellable other inSwept
      rcases List.mem_cons.mp inSwept with rfl | before
      · -- the sweep has left the waiter in the queue
        have stays := (List.mem_filter.mp mem).2
        have same : (q.takeIf p desk.sweep (covers tasks q other)).node w = q.node w :=
          (shrinks_of_update sound rfl free.2 (fun w mem => List.mem_of_mem_filter mem) w mem).2
        rw [same] at here
        unfold covers at stays
        rw [here, Option.any_some, cancellable] at stays
        simp only [Bool.true_and, Bool.not_eq_true', Bool.or_eq_false_iff] at stays
        exact stays.2
      · exact left.none w mem node here cancellable other before
  · exact left

/-- A move in which nobody joins leaves no waiter of a swept scope in the queue. -/
theorem Move.keeps_swept (move : Move desk tasks q q') (kept : Kept desk q)
    (inv : Swept q tasks.slots swept) (still : q'.clock = q.clock) :
    Swept q' tasks.slots swept := by
  have sound := kept.sound
  cases move with
  | calm queue ticket clock waits wakes moved =>
    refine inv.shrink fun w mem => ?_
    rw [queue] at mem
    refine ⟨mem, ?_⟩
    unfold Line.node
    rcases moved w with same | ⟨before, -⟩
    · rw [same]
    · have asleep := sound.queued mem
      rw [before.2] at asleep
      cases asleep
  | join p node free line =>
    rw [line] at still
    exact absurd still (Nat.succ_ne_self _)
  | pop p w rest free first line =>
    rw [line]
    refine inv.shrink (shrinks_of_update sound rfl free.2 fun r mem => ?_)
    rw [first]
    exact List.mem_cons_of_mem _ mem
  | test p w here line =>
    rw [line]
    exact inv.shrink (shrinks_of_update sound rfl (by rw [here]; rfl) fun _ => id)
  | wake p w result pc waking line =>
    rw [line]
    obtain ⟨node, asleep⟩ := waking.asleep sound
    obtain ⟨-, -, others⟩ := waking.parties kept asleep
    refine inv.shrink fun r mem => ⟨mem, ?_⟩
    have sleeps := sound.queued (w := r) mem
    have notU : r ≠ p := by
      rintro rfl
      rw [Pc.sleeps_of_hand waking.mem] at sleeps
      cases sleeps
    have notW : r ≠ w := by
      rintro rfl
      exact sound.not_queued waking.mem mem
    unfold Line.node
    rw [others r notU notW]
  | sweep p tok free line | takeAll p place other free line =>
    rw [line]
    exact inv.shrink (shrinks_of_update sound rfl free.2 fun w mem => List.mem_of_mem_filter mem)

end JLibSched.Wait
