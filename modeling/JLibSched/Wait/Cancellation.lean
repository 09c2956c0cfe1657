import JLibSched.Wait.Removed
import JLibSched.Wait.Sweep

/-!
# Cancelled waiters

What a step does to the queue and to the history of its `CancelWaiters` (`Recorded`), and what
holds of both in every state (`CancelInv`): no waiter of a swept scope is in the queue, and who was
taken off by a `CancelWaiters` returns `Cancelled`.
-/

namespace JLibSched.Wait

open Transition WaitQueue Cancel

/-- The swept scopes that have not ended, and the waiters that were taken off. -/
structure History (n : Nat) where
  swept : List Nat
  removed : Removed n

def History.none (n : Nat) : History n := ⟨[], .none n⟩

/-- The history after a `CancelWaiters` has gone through the queue. -/
def History.sweep {n : Nat} {κ : Type} (h : History n) (tasks : Tasks n) (q : Queue n κ)
    (tok : Nat) : History n where
  swept := if Marked tasks.slots tok then tok :: h.swept else h.swept
  removed := h.removed.take (q.queue.filter (covers tasks q tok))

/-- The history after the scopes have changed. -/
def History.scopes {n : Nat} (h : History n) (slots slots' : Table) : History n where
  swept := stillAlive h.swept slots slots'
  removed := h.removed

def History.back {n : Nat} (h : History n) (p : Fin n) (wake : Wake) : History n where
  swept := h.swept
  removed := h.removed.back p wake

variable {n : Nat} {κ : Type} {desk : Desk κ} {tasks tasks' : Tasks n} {q q' : Queue n κ}
  {h h' : History n}

/-- It carries nobody, does not sleep and was not woken. -/
structure Calm (pc : Pc n κ) : Prop where
  free : Free pc
  awake : ∀ wake, pc ≠ .woken wake

theorem calm_stands {place : κ} : Calm (.stands place : Pc n κ) := ⟨⟨rfl, rfl⟩, nofun⟩

/-- What a step does to the queue and to the history. -/
inductive Recorded (desk : Desk κ) (tasks tasks' : Tasks n) (q q' : Queue n κ)
    (h h' : History n) : Prop where
  | scopes (line : q' = q) (history : h' = h.scopes tasks.slots tasks'.slots)
  /-- Nobody joins, sweeps or returns. -/
  | keep (same : tasks' = tasks) (move : Move desk tasks q q') (still : q'.clock = q.clock)
      (between : ∀ p, Removed.Between desk q p → Removed.Between desk q' p) (history : h' = h)
  | join (p : Fin n) (node : Node) (same : tasks' = tasks) (calm : Calm (q.pc p))
      (alert : JoinsAlert tasks p node) (line : q' = q.join p node) (history : h' = h)
  | sweep (p : Fin n) (tok : Nat) (same : tasks' = tasks) (calm : Calm (q.pc p))
      (line : q' = q.takeIf p desk.sweep (covers tasks q tok)) (history : h' = h.sweep tasks q tok)
  | back (p : Fin n) (wake : Wake) (place : κ) (same : tasks' = tasks)
      (here : q.pc p = .woken wake) (line : q' = q.set p (.stands place))
      (history : h' = h.back p wake)

structure CancelInv (desk : Desk κ) (tasks : Tasks n) (q : Queue n κ) (h : History n) :
    Prop where
  kept : Kept desk q
  swept : Swept q tasks.slots h.swept
  removed : Removed.Ok desk q h.removed

theorem empty_cancelInv (place : κ) (tasks : Tasks n) :
    CancelInv desk tasks (Line.empty place) (.none n) where
  kept := empty_kept place
  swept := empty_swept place _
  removed := Removed.none_ok _

theorem Recorded.move (recorded : Recorded desk tasks tasks' q q' h h') :
    Move desk tasks q q' := by
  cases recorded with
  | scopes line => exact .same line
  | keep same move => exact move
  | join p node same calm alert line => exact .join p node calm.free line
  | sweep p tok same calm line => exact .sweep p tok calm.free line
  | back p wake place same here line =>
    rw [line]
    exact .go (by rw [here]; exact ⟨rfl, rfl⟩) ⟨rfl, rfl⟩

theorem CancelInv.step (inv : CancelInv desk tasks q h)
    (recorded : Recorded desk tasks tasks' q q' h h')
    (alive : ScopesAlive q tasks.slots tasks'.slots) : CancelInv desk tasks' q' h' := by
  have kept := recorded.move.kept inv.kept
  have sound := inv.kept.sound
  cases recorded with
  | scopes line history =>
    subst line history
    exact ⟨kept, inv.swept.alive alive, inv.removed⟩
  | keep same move still between history =>
    subst same history
    exact {
      kept := kept
      swept := move.keeps_swept inv.kept inv.swept still
      removed := inv.removed.keep between }
  | join p node same calm alert line history =>
    subst same line history
    exact {
      kept := kept
      swept := inv.swept.join sound calm.free alert
      removed := inv.removed.keep fun s between =>
        between.turn (.asleep node) rfl calm.free.1 calm.awake }
  | sweep p tok same calm line history =>
    subst same line history
    exact {
      kept := kept
      swept := inv.swept.sweep desk sound calm.free tok
      removed := inv.removed.sweep sound _ calm.free calm.awake }
  | back p wake place same here line history =>
    subst same line history
    refine ⟨kept, ?_, inv.removed.back sound (.stands place) rfl here⟩
    refine Move.keeps_swept ?_ inv.kept inv.swept rfl
    exact .go (by rw [here]; exact ⟨rfl, rfl⟩) ⟨rfl, rfl⟩

/-- Cancellation is not lost: no cancellable waiter of a scope that was cancelled and swept is in
the queue, and each waiter that a `CancelWaiters` took off has returned `Cancelled`, or is in the
hand of that `CancelWaiters` or woken with `Cancelled` and about to return. -/
structure NotLost (desk : Desk κ) (tasks : Tasks n) (q : Queue n κ) (h : History n) : Prop where
  none : NoneLost q tasks.slots h.swept
  answered : ∀ p, h.removed.removed p = h.removed.answered p + (h.removed.off p).toNat
  between : ∀ p, h.removed.off p = true → Removed.Between desk q p

theorem CancelInv.notLost (inv : CancelInv desk tasks q h) : NotLost desk tasks q h where
  none := inv.swept.none
  answered := inv.removed.counted
  between := inv.removed.between

end JLibSched.Wait
