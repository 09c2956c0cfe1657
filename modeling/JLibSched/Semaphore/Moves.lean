import JLibSched.Semaphore.Model

/-!
# What a step of the semaphore can do

Each step is one of a few moves of the queue and of `permits`.  The balance of a state is what the
permits, the dropped signals and the acquisitions make up beyond the signals; a move changes it by
what goes into or comes out of a signal or a grant that is under way.
-/

namespace JLibSched.Semaphore

open Transition WaitQueue Cancel Wait

/-- One for a `Signal` that has been counted and has neither banked its permit nor given it away. -/
def Place.inFlight : Place → Nat
  | .signalAgain => 1
  | _ => 0

def inFlight {n : Nat} : Pc n → Nat
  | .stands place => place.inFlight
  | .holds _ _ => 1
  | _ => 0

/-- One for a waiter that a `Signal` has granted a permit and that has not resumed. -/
def granted {n : Nat} : Pc n → Nat
  | .woken wake => if wake = ⟨true, .cancelled⟩ then 0 else 1
  | _ => 0

/-- A permit that is on its way. -/
def underway {n : Nat} (pc : Pc n) : Nat := inFlight pc + granted pc

variable {n : Nat}

def State.balance (s : State n) : Int :=
  s.permits + s.dropped + s.acquired - s.signals - s.unpaid

/-- The tasks and the history are as they were. -/
structure Frame (s t : State n) : Prop where
  tasks : t.tasks = s.tasks
  history : t.history = s.history

/-- What becomes of the queue, of `permits` and of the history in a step. -/
inductive Move (maxPermits : Int) (s t : State n) : Prop where
  | tasks (line : t.line = s.line) (permits : t.permits = s.permits)
      (balance : t.balance = s.balance)
      (history : t.history = s.history.scopes s.tasks.slots t.tasks.slots)
  | go (p : Fin n) (place place' : Place) (here : s.line.pc p = .stands place)
      (line : t.line = s.line.set p (.stands place')) (before : place.inFlight = 0)
      (after : place'.inFlight = 0) (permits : t.permits = s.permits)
      (balance : t.balance = s.balance) (frame : Frame s t)
  | acquire (p : Fin n) (place : Place) (here : s.line.pc p = .stands place)
      (before : place.inFlight = 0) (some : s.permits > 0)
      (line : t.line = s.line.set p (.stands .idle)) (permits : t.permits = s.permits - 1)
      (balance : t.balance = s.balance) (frame : Frame s t)
  | join (p : Fin n) (place : Place) (node : Node) (here : s.line.pc p = .stands place)
      (before : place.inFlight = 0) (none : ¬ s.permits > 0)
      (line : t.line = s.line.join p node) (permits : t.permits = s.permits)
      (balance : t.balance = s.balance) (alert : JoinsAlert s.tasks p node)
      (frame : Frame s t)
  | bank (p : Fin n) (place : Place) (here : s.line.pc p = .stands place)
      (empty : s.line.queue = []) (line : t.line = s.line.set p (.stands .idle))
      (permits : t.permits = if s.permits < maxPermits then s.permits + 1 else s.permits)
      (balance : t.balance = s.balance + place.inFlight) (frame : Frame s t)
  | pop (p w : Fin n) (place : Place) (rest : List (Fin n)) (here : s.line.pc p = .stands place)
      (first : s.line.queue = w :: rest) (line : t.line = s.line.pop p .signalTest w rest)
      (permits : t.permits = s.permits) (balance : t.balance + 1 = s.balance + place.inFlight)
      (frame : Frame s t)
  | test (p w : Fin n) (here : s.line.pc p = .holds .signalTest w)
      (line : t.line = s.line.set p
        (.holds (if skips s.tasks s.line w then .signalSkip else .signalGrant) w))
      (permits : t.permits = s.permits) (balance : t.balance = s.balance) (frame : Frame s t)
  | wake (p w : Fin n) (result : WaitResult) (pc : Pc n)
      (waking : Waking desk s.tasks s.line p w result pc)
      (kind : ∀ place chain, s.line.pc p = .walks place chain → place = .cancelWaiters)
      (line : t.line = Wait.wake s.line p w result pc) (permits : t.permits = s.permits)
      (balance : t.balance = s.balance) (frame : Frame s t)
  | finish (p : Fin n) (here : s.line.pc p = .walks .cancelWaiters [])
      (line : t.line = s.line.set p (.stands .idle)) (permits : t.permits = s.permits)
      (balance : t.balance = s.balance) (frame : Frame s t)
  | sweep (p : Fin n) (tok : Nat) (here : s.line.pc p = .stands .idle)
      (line : t.line = s.line.takeIf p .cancelWaiters (covers s.tasks s.line tok))
      (permits : t.permits = s.permits) (balance : t.balance = s.balance)
      (tasks : t.tasks = s.tasks) (history : t.history = s.history.sweep s.tasks s.line tok)
  | back (p : Fin n) (wake : Wake) (here : s.line.pc p = .woken wake)
      (line : t.line = s.line.set p (.stands .idle)) (permits : t.permits = s.permits)
      (balance : t.balance = s.balance + granted (.woken wake : Pc n))
      (tasks : t.tasks = s.tasks) (history : t.history = s.history.back p wake)

variable {maxPermits : Int} {s t : State n} {a : Label n} {p : Fin n}

theorem tryWait_move {place failed : Place} (here : s.line.pc p = .stands place)
    (before : place.inFlight = 0) (after : failed.inFlight = 0) :
    Move maxPermits s (s.tryWait p failed) := by
  unfold State.tryWait
  split
  · rename_i some
    refine .acquire p place here before some rfl rfl ?_ ⟨rfl, rfl⟩
    simp only [State.acquire, State.go, State.balance]
    omega
  · exact .go p place failed here rfl before after rfl rfl ⟨rfl, rfl⟩

theorem wait_move {place : Place} (here : s.line.pc p = .stands place)
    (before : place.inFlight = 0) : Move maxPermits s (s.wait p) := by
  unfold State.wait
  split
  · rename_i some
    refine .acquire p place here before some rfl rfl ?_ ⟨rfl, rfl⟩
    simp only [State.acquire, State.go, State.balance]
    omega
  · rename_i none
    exact .join p place _ here before none rfl rfl rfl
      (fun absurd => (by cases absurd)) ⟨rfl, rfl⟩

theorem waitAsyncEnqueue_move {place : Place} (here : s.line.pc p = .stands place)
    (before : place.inFlight = 0) (result : Bool) :
    Move maxPermits s (s.waitAsyncEnqueue p result) := by
  unfold State.waitAsyncEnqueue
  split
  · rename_i some
    refine .acquire p place here before some rfl rfl ?_ ⟨rfl, rfl⟩
    simp only [State.acquire, State.go, State.balance]
    omega
  · rename_i none
    split
    · split
      · exact .go p place .idle here rfl before rfl rfl rfl ⟨rfl, rfl⟩
      · refine .go p place .idle here rfl before rfl rfl ?_ ⟨rfl, rfl⟩
        simp only [State.go, State.balance]
        omega
    · rename_i live
      exact .join p place _ here before none rfl rfl rfl
        (fun _ => ⟨rfl, Bool.eq_false_iff.mpr live⟩) ⟨rfl, rfl⟩

/-- The section of a `Signal`, which counts it if it is the first. -/
theorem signal_move {place : Place} (here : s.line.pc p = .stands place) (first : Nat)
    (counts : first + place.inFlight = 1) :
    Move maxPermits s { s.signal maxPermits p with signals := s.signals + first } := by
  unfold State.signal
  cases queue : s.line.queue with
  | nil =>
    simp only
    split
    · rename_i room
      refine .bank p place here queue rfl (by rw [if_pos room]) ?_ ⟨rfl, rfl⟩
      simp only [State.go, State.balance]
      omega
    · rename_i full
      refine .bank p place here queue rfl (by rw [if_neg full]; rfl) ?_ ⟨rfl, rfl⟩
      simp only [State.go, State.balance]
      omega
  | cons w rest =>
    refine .pop p w place rest here queue rfl rfl ?_ ⟨rfl, rfl⟩
    simp only [State.balance]
    omega

theorem advance_move (stepped : advance maxPermits s p = some t) : Move maxPermits s t := by
  unfold advance at stepped
  cases here : s.line.pc p with
  | stands place =>
    rw [here] at stepped
    cases place with
    | spin | tryOrTest =>
      cases stepped
      exact tryWait_move here rfl rfl
    | tokenTest =>
      cases stepped
      exact .go p .tokenTest _ here rfl rfl (by split <;> rfl) rfl rfl ⟨rfl, rfl⟩
    | signalAgain =>
      cases stepped
      have same : { s.signal maxPermits p with signals := s.signals + 0 } =
          s.signal maxPermits p := by
        unfold State.signal
        split
        · split <;> rfl
        · rfl
      rw [← same]
      exact signal_move here 0 rfl
    | _ => cases stepped
  | asleep node =>
    rw [here] at stepped
    cases stepped
  | woken wake =>
    rw [here] at stepped
    cases stepped
    refine .back p wake here rfl rfl ?_ rfl rfl
    by_cases lost : wake = ⟨true, .cancelled⟩
    · simp only [State.back, State.go, State.balance, granted, if_pos lost]
      omega
    · simp only [State.back, State.go, State.balance, granted, if_neg lost]
      omega
  | holds place w =>
    rw [here] at stepped
    cases place with
    | signalTest =>
      cases stepped
      exact .test p w here rfl rfl rfl ⟨rfl, rfl⟩
    | signalSkip =>
      cases stepped
      exact .wake p w _ _ (.skipped here) (by simp [here]) rfl rfl rfl ⟨rfl, rfl⟩
    | signalGrant =>
      cases stepped
      exact .wake p w _ _ (.granted here) (by simp [here]) rfl rfl rfl ⟨rfl, rfl⟩
    | _ => cases stepped
  | walks place chain =>
    rw [here] at stepped
    cases place with
    | cancelWaiters =>
      cases chain with
      | nil =>
        cases stepped
        exact .finish p here rfl rfl rfl ⟨rfl, rfl⟩
      | cons w rest =>
        cases stepped
        exact .wake p w _ _ (.victim here) (by simp [here]) rfl rfl rfl ⟨rfl, rfl⟩
    | _ => cases chain <;> cases stepped

theorem step_move (stepped : step maxPermits s a = some t) : Move maxPermits s t := by
  cases a with
  | tasks tasks =>
    cases stepped
    exact .tasks rfl rfl rfl rfl
  | advance p => exact advance_move stepped
  | wait p =>
    simp only [step] at stepped
    split at stepped
    · rename_i here
      cases stepped
      exact wait_move here rfl
    · cases stepped
  | enqueue p | acquireAsync p =>
    simp only [step] at stepped
    split at stepped
    · rename_i here
      cases stepped
      exact waitAsyncEnqueue_move here rfl _
    · cases stepped
  | waitBare p | cancellableBare p =>
    simp only [step] at stepped
    split at stepped
    · rename_i here
      cases stepped
      exact .go p _ _ here rfl rfl rfl rfl rfl ⟨rfl, rfl⟩
    · cases stepped
  | waitCancellable p =>
    simp only [step] at stepped
    split at stepped
    · rename_i here
      cases stepped
      exact .go p .idle _ here rfl rfl (by split <;> rfl) rfl rfl ⟨rfl, rfl⟩
    · cases stepped
  | tryWait p =>
    simp only [step] at stepped
    split at stepped
    · rename_i here
      cases stepped
      exact tryWait_move here rfl rfl
    · cases stepped
  | signal p =>
    simp only [step] at stepped
    split at stepped
    · rename_i here
      cases stepped
      exact signal_move here 1 rfl
    · cases stepped
  | cancelWaiters p tok =>
    simp only [step] at stepped
    split at stepped
    · rename_i here
      cases stepped
      exact .sweep p tok here rfl rfl rfl rfl rfl
    · cases stepped

/-- For the queue and its parties it is one of the moves that the primitives share. -/
theorem Move.shared (move : Move maxPermits s t) : Wait.Move desk s.tasks s.line t.line := by
  have stand (place : Place) : Free (.stands place : Pc n) := ⟨rfl, rfl⟩
  cases move with
  | tasks line => exact .same line
  | go p place place' here line =>
    rw [line]
    exact .go (free_stands here) (stand _)
  | acquire p place here before some line =>
    rw [line]
    exact .go (free_stands here) (stand _)
  | bank p place here empty line =>
    rw [line]
    exact .go (free_stands here) (stand _)
  | join p place node here before none line => exact .join p node (free_stands here) line
  | pop p w place rest here first line => exact .pop p w rest (free_stands here) first line
  | test p w here line => exact .test p w here line
  | wake p w result pc waking kind line => exact .wake p w result pc waking line
  | finish p here line =>
    rw [line]
    exact .go (by rw [here]; exact ⟨rfl, rfl⟩) (stand _)
  | sweep p tok here line => exact .sweep p tok (free_stands here) line
  | back p wake here line =>
    rw [line]
    exact .go (by rw [here]; exact ⟨rfl, rfl⟩) (stand _)

end JLibSched.Semaphore
