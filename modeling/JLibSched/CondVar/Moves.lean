import JLibSched.CondVar.Model

/-!
# What a step of the condition variable can do

Each step is one of a few moves of the queue.  What a wait does with the mutex leaves the queue as
it is.
-/

namespace JLibSched.CondVar

open Transition WaitQueue Cancel Wait

variable {n : Nat}

/-- The tasks and the history are as they were. -/
structure Frame (s t : State n) : Prop where
  tasks : t.tasks = s.tasks
  history : t.history = s.history

/-- What becomes of the queue and of the history in a step. -/
inductive Move (s t : State n) : Prop where
  | other (line : t.line = s.line) (frame : Frame s t)
  | tasks (line : t.line = s.line)
      (history : t.history = s.history.scopes s.tasks.slots t.tasks.slots)
  | go (p : Fin n) (place place' : Place) (here : s.line.pc p = .stands place)
      (line : t.line = s.line.set p (.stands place')) (outside : place ≠ .notifyAgain)
      (frame : Frame s t)
  | join (p : Fin n) (place : Place) (node : Node) (here : s.line.pc p = .stands place)
      (line : t.line = s.line.join p node) (outside : place ≠ .notifyAgain)
      (alert : JoinsAlert s.tasks p node) (frame : Frame s t)
  /-- A `Notify_One` finds nobody. -/
  | quit (p : Fin n) (place : Place) (here : s.line.pc p = .stands place)
      (empty : s.line.queue = []) (line : t.line = s.line.set p (.stands .idle))
      (frame : Frame s t)
  | pop (p w : Fin n) (place : Place) (rest : List (Fin n)) (here : s.line.pc p = .stands place)
      (first : s.line.queue = w :: rest) (line : t.line = s.line.pop p .notifyTest w rest)
      (frame : Frame s t)
  | test (p w : Fin n) (here : s.line.pc p = .holds .notifyTest w)
      (line : t.line = s.line.set p
        (.holds (if skips s.tasks s.line w then .notifySkip else .notifyGrant) w))
      (frame : Frame s t)
  | wake (p w : Fin n) (result : WaitResult) (pc : Pc n)
      (waking : Waking desk s.tasks s.line p w result pc)
      (line : t.line = Wait.wake s.line p w result pc) (frame : Frame s t)
  | finish (p : Fin n) (place : Place) (here : s.line.pc p = .walks place [])
      (line : t.line = s.line.set p (.stands .idle)) (frame : Frame s t)
  | sweep (p : Fin n) (tok : Nat) (here : s.line.pc p = .stands .idle)
      (line : t.line = s.line.takeIf p .cancelWaiters (covers s.tasks s.line tok))
      (tasks : t.tasks = s.tasks) (history : t.history = s.history.sweep s.tasks s.line tok)
  | takeAll (p : Fin n) (here : s.line.pc p = .stands .idle)
      (line : t.line = s.line.takeIf p .notifyAll fun _ => true) (frame : Frame s t)
  | back (p : Fin n) (wake : Wake) (here : s.line.pc p = .woken wake)
      (line : t.line = s.line.set p (.stands .idle)) (tasks : t.tasks = s.tasks)
      (history : t.history = s.history.back p wake)

variable {s t : State n} {a : Label n} {p : Fin n}

theorem notifyOne_move {place : Place} (here : s.line.pc p = .stands place) :
    Move s (s.notifyOne p) := by
  unfold State.notifyOne
  split
  · rename_i empty
    exact .quit p place here empty rfl ⟨rfl, rfl⟩
  · rename_i w rest first
    exact .pop p w place rest here first rfl ⟨rfl, rfl⟩

theorem advance_move (stepped : advance s p = some t) : Move s t := by
  unfold advance at stepped
  cases here : s.line.pc p with
  | stands place =>
    rw [here] at stepped
    cases place with
    | notifyAgain =>
      cases stepped
      exact notifyOne_move here
    | _ => cases stepped
  | asleep node =>
    rw [here] at stepped
    cases stepped
  | woken wake =>
    rw [here] at stepped
    cases stepped
  | holds place w =>
    rw [here] at stepped
    cases place with
    | notifyTest =>
      cases stepped
      exact .test p w here rfl ⟨rfl, rfl⟩
    | notifySkip =>
      cases stepped
      exact .wake p w _ _ (.skipped here) rfl ⟨rfl, rfl⟩
    | notifyGrant =>
      cases stepped
      exact .wake p w _ _ (.granted here) rfl ⟨rfl, rfl⟩
    | _ => cases stepped
  | walks place chain =>
    rw [here] at stepped
    cases place with
    | cancelWaiters =>
      cases chain with
      | nil =>
        cases stepped
        exact .finish p _ here rfl ⟨rfl, rfl⟩
      | cons w rest =>
        cases stepped
        exact .wake p w _ _ (.victim here) rfl ⟨rfl, rfl⟩
    | notifyAll =>
      cases chain with
      | nil =>
        cases stepped
        exact .finish p _ here rfl ⟨rfl, rfl⟩
      | cons w rest =>
        cases stepped
        exact .wake p w _ _ (.everyone (by decide) here) rfl ⟨rfl, rfl⟩
    | _ => cases chain <;> cases stepped

/-- A call of the mutex leaves the queue as it is. -/
theorem call_move {b : Mutex.Label n} {phase : Phase} (keeps : b.setsTasks = false)
    (called : s.call b p phase = some t) : Move s t := by
  unfold State.call at called
  obtain ⟨mutex, stepped, rfl⟩ := Option.map_eq_some_iff.mp called
  exact .other rfl ⟨Mutex.step_tasks stepped keeps, rfl⟩

theorem proceed_move (stepped : proceed s p = some t) : Move s t := by
  unfold proceed at stepped
  split at stepped
  case h_1 => cases stepped
  case h_2 => exact call_move rfl stepped
  case h_3 =>
    split at stepped
    · split at stepped
      · exact call_move rfl stepped
      · cases stepped
        exact .other rfl ⟨rfl, rfl⟩
    · cases stepped
  case h_4 =>
    split at stepped
    · exact call_move rfl stepped
    · cases stepped
  case h_5 =>
    split at stepped
    · unfold State.back at stepped
      split at stepped
      · rename_i wake here
        cases stepped
        exact .back p wake here rfl rfl rfl
      · rename_i here
        cases stepped
        exact .go p _ .idle here rfl (by decide) ⟨rfl, rfl⟩
      · rename_i here
        cases stepped
        exact .go p _ .idle here rfl (by decide) ⟨rfl, rfl⟩
      · cases stepped
    · cases stepped

theorem waitBare_move {cancellable : Bool} (here : s.line.pc p = .stands .idle)
    (stepped : step s (.waitBare p cancellable) = some t) : Move s t := by
  simp only [step] at stepped
  split at stepped
  · split at stepped
    · cases stepped
      exact .go p .idle .idle here rfl (by decide) ⟨rfl, rfl⟩
    · unfold State.call at stepped
      obtain ⟨mutex, called, rfl⟩ := Option.map_eq_some_iff.mp stepped
      exact .go p .idle _ here rfl (by decide) ⟨Mutex.step_tasks called rfl, rfl⟩
  · cases stepped

theorem step_move (stepped : step s a = some t) : Move s t := by
  cases a with
  | tasks tasks =>
    cases stepped
    exact .tasks rfl rfl
  | advance p => exact advance_move stepped
  | proceed p => exact proceed_move stepped
  | mutex b =>
    simp only [step] at stepped
    split at stepped
    · rename_i allowed
      obtain ⟨mutex, called, rfl⟩ := Option.map_eq_some_iff.mp stepped
      exact .other rfl ⟨Mutex.step_tasks called allowed.1, rfl⟩
    · cases stepped
  | wait p =>
    simp only [step] at stepped
    split at stepped
    · rename_i ready
      cases stepped
      exact .join p .idle _ ready.1 rfl (by decide) (fun absurd => by cases absurd) ⟨rfl, rfl⟩
    · cases stepped
  | waitCancellable p =>
    simp only [step] at stepped
    split at stepped
    · rename_i ready
      cases stepped
      split
      · exact .go p .idle .idle ready.1 rfl (by decide) ⟨rfl, rfl⟩
      · exact .go p .idle .checked ready.1 rfl (by decide) ⟨rfl, rfl⟩
    · cases stepped
  | enqueue p =>
    simp only [step] at stepped
    split at stepped
    · rename_i here
      cases stepped
      split
      · exact .go p .checked .idle here rfl (by decide) ⟨rfl, rfl⟩
      · rename_i live
        exact .join p .checked _ here rfl (by decide)
          (fun _ => ⟨rfl, Bool.eq_false_iff.mpr live⟩) ⟨rfl, rfl⟩
    · cases stepped
  | waitBare p cancellable =>
    by_cases ready : s.MayWait p
    · exact waitBare_move ready.1 stepped
    · simp only [step] at stepped
      rw [if_neg ready] at stepped
      cases stepped
  | notifyOne p =>
    simp only [step] at stepped
    split at stepped
    · rename_i ready
      cases stepped
      exact notifyOne_move ready.1
    · cases stepped
  | notifyAll p =>
    simp only [step] at stepped
    split at stepped
    · rename_i ready
      cases stepped
      exact .takeAll p ready.1 rfl ⟨rfl, rfl⟩
    · cases stepped
  | cancelWaiters p tok =>
    simp only [step] at stepped
    split at stepped
    · rename_i ready
      cases stepped
      exact .sweep p tok ready.1 rfl rfl rfl
    · cases stepped

/-- For the queue and its parties it is one of the moves that the primitives share. -/
theorem Move.shared (move : Move s t) : Wait.Move desk s.tasks s.line t.line := by
  have stand (place : Place) : Free (.stands place : Pc n) := ⟨rfl, rfl⟩
  cases move with
  | other line | tasks line => exact .same line
  | go p place place' here line =>
    rw [line]
    exact .go (free_stands here) (stand _)
  | join p place node here line => exact .join p node (free_stands here) line
  | quit p place here empty line =>
    rw [line]
    exact .go (free_stands here) (stand _)
  | pop p w place rest here first line => exact .pop p w rest (free_stands here) first line
  | test p w here line => exact .test p w here line
  | wake p w result pc waking line => exact .wake p w result pc waking line
  | finish p place here line =>
    rw [line]
    exact .go (by rw [here]; exact ⟨rfl, rfl⟩) (stand _)
  | sweep p tok here line => exact .sweep p tok (free_stands here) line
  | takeAll p here line => exact .takeAll p .notifyAll (by decide) (free_stands here) line
  | back p wake here line =>
    rw [line]
    exact .go (by rw [here]; exact ⟨rfl, rfl⟩) (stand _)

end JLibSched.CondVar
