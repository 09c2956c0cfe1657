import JLibSched.Lib.Calls

/-!
# Coroutine tasks

A `Coro` is the body of a task; a `Lazy` is awaited by another coroutine and runs within the task of
its awaiter.  Each has a frame of its own with a promise, and the frame of a `Lazy` holds the handle
of its awaiter, to which `final_suspend` transfers.  An awaiter of the scheduler stores the frame it
suspends in the task, and `ResumeCoroutine` resumes that one.

`next` says what the bodies do.  A `Lazy` is awaited where it is made, so `await_ready` finds a
coroutine that has not begun.  The allocator gives any address not in use.  `Push` succeeds.  The
workers of the pool resume the tasks, which they leave to the promise once `resume` returns; main out
of the pool, whose `RunMainTask` ends the task of a coroutine itself, resumes none of them.
-/

namespace JLibSched.Coroutine

open Calls (Instr Status)

variable {ω σ γ ε ν : Type*}

inductive Kind where
  | coro
  | lazy
  deriving DecidableEq

/-- `Coro::promise_type` and `LazyValue`. -/
structure Promise (ε ν : Type*) where
  task : Option Nat
  dagNode : Option Nat
  continuation : Option Nat
  eptr : Option ε
  value : Option ν

/-- Where a body is suspended or runs: before an instruction, in the `co_await` of a `Lazy`, or at
its final suspension. -/
inductive Point (σ ε ν : Type*) where
  | before (c : σ)
  | awaiting (h : Nat) (k : Except ε ν → σ)
  | final

structure Frame (σ ε ν : Type*) where
  kind : Kind
  promise : Promise ε ν
  point : Point σ ε ν

/-- A task of type `Coroutine`; `started` is that its status is no longer `new`. -/
structure Task where
  data : Nat
  waitGroup : Option Nat
  status : Status

structure State (ω σ γ ε ν : Type*) where
  frame : Nat → Option (Frame σ ε ν)
  task : Nat → Option Task
  /-- The frame that a worker runs. -/
  running : ω → Option Nat
  shared : γ
  /-- What the coroutines add to `WaitGroup::n`. -/
  count : Nat → Int
  /-- The nodes given to `SignalExternalNode`. -/
  signalled : List Nat
  /-- An exception that left `resume`. -/
  escaped : Option ε

def initial (g : γ) : State ω σ γ ε ν where
  frame := fun _ => none
  task := fun _ => none
  running := fun _ => none
  shared := g
  count := fun _ => 0
  signalled := []
  escaped := none

inductive Label (ω σ : Type*) where
  /-- `Spawn` of a coroutine with its frame at `h` and its task at `t`. -/
  | spawn (h t : Nat) (c : σ) (waitGroup dagNode : Option Nat)
  | discard (t : Nat)
  | wake (t : Nat)
  | resume (w : ω) (t : Nat)
  /-- The worker takes a step of the frame it runs; the allocator would give `a`, and `stays` is that
  `await_suspend` returns false. -/
  | exec (w : ω) (a : Nat) (stays : Bool)

/-! ## Promises -/

def Promise.empty : Promise ε ν where
  task := none
  dagNode := none
  continuation := none
  eptr := none
  value := none

/-- `LazyValue::Take`. -/
def Promise.take (p : Promise ε ν) : Option (Except ε ν) :=
  match p.eptr with
  | some x => some (.error x)
  | none => p.value.map .ok

/-! ## Steps -/

def State.setFrame (s : State ω σ γ ε ν) (h : Nat) (f : Frame σ ε ν) : State ω σ γ ε ν :=
  { s with frame := Function.update s.frame h (some f) }

def State.destroy (s : State ω σ γ ε ν) (h : Nat) : State ω σ γ ε ν :=
  { s with frame := Function.update s.frame h none }

def State.setTask (s : State ω σ γ ε ν) (t : Nat) (task : Task) : State ω σ γ ε ν :=
  { s with task := Function.update s.task t (some task) }

def State.freeTask (s : State ω σ γ ε ν) (t : Nat) : State ω σ γ ε ν :=
  { s with task := Function.update s.task t none }

/-- `WaitGroup::Done`. -/
def State.done (s : State ω σ γ ε ν) : Option Nat → State ω σ γ ε ν
  | some wg => { s with count := Function.update s.count wg (s.count wg - 1) }
  | none => s

/-- `SignalExternalNode`. -/
def State.signal (s : State ω σ γ ε ν) : Option Nat → State ω σ γ ε ν
  | some node => { s with signalled := node :: s.signalled }
  | none => s

@[simp] theorem State.done_frame (s : State ω σ γ ε ν) (wg : Option Nat) :
    (s.done wg).frame = s.frame := by
  cases wg <;> rfl

@[simp] theorem State.done_task (s : State ω σ γ ε ν) (wg : Option Nat) :
    (s.done wg).task = s.task := by
  cases wg <;> rfl

@[simp] theorem State.done_running (s : State ω σ γ ε ν) (wg : Option Nat) :
    (s.done wg).running = s.running := by
  cases wg <;> rfl

@[simp] theorem State.done_shared (s : State ω σ γ ε ν) (wg : Option Nat) :
    (s.done wg).shared = s.shared := by
  cases wg <;> rfl

@[simp] theorem State.done_signalled (s : State ω σ γ ε ν) (wg : Option Nat) :
    (s.done wg).signalled = s.signalled := by
  cases wg <;> rfl

@[simp] theorem State.done_escaped (s : State ω σ γ ε ν) (wg : Option Nat) :
    (s.done wg).escaped = s.escaped := by
  cases wg <;> rfl

theorem State.done_count (s : State ω σ γ ε ν) (wg : Option Nat) (g : Nat) :
    (s.done wg).count g = s.count g - if wg = some g then 1 else 0 := by
  cases wg with
  | none => simp [State.done]
  | some wg =>
    rcases eq_or_ne g wg with rfl | other
    · simp [State.done]
    · simp [State.done, other, other.symm]

@[simp] theorem State.signal_frame (s : State ω σ γ ε ν) (node : Option Nat) :
    (s.signal node).frame = s.frame := by
  cases node <;> rfl

@[simp] theorem State.signal_task (s : State ω σ γ ε ν) (node : Option Nat) :
    (s.signal node).task = s.task := by
  cases node <;> rfl

@[simp] theorem State.signal_running (s : State ω σ γ ε ν) (node : Option Nat) :
    (s.signal node).running = s.running := by
  cases node <;> rfl

@[simp] theorem State.signal_shared (s : State ω σ γ ε ν) (node : Option Nat) :
    (s.signal node).shared = s.shared := by
  cases node <;> rfl

@[simp] theorem State.signal_count (s : State ω σ γ ε ν) (node : Option Nat) :
    (s.signal node).count = s.count := by
  cases node <;> rfl

@[simp] theorem State.signal_escaped (s : State ω σ γ ε ν) (node : Option Nat) :
    (s.signal node).escaped = s.escaped := by
  cases node <;> rfl

theorem State.signal_signalled (s : State ω σ γ ε ν) (node : Option Nat) :
    (s.signal node).signalled = node.toList ++ s.signalled := by
  cases node <;> rfl

/-- `Spawn`. -/
def State.spawn (s : State ω σ γ ε ν) (h t : Nat) (c : σ) (waitGroup dagNode : Option Nat) :
    State ω σ γ ε ν :=
  let promise := { (Promise.empty : Promise ε ν) with task := some t, dagNode := dagNode }
  let s := (s.setFrame h ⟨.coro, promise, .before c⟩).setTask t ⟨h, waitGroup, .new⟩
  match waitGroup with
  | some wg => { s with count := Function.update s.count wg (s.count wg + 1) }
  | none => s

theorem State.spawn_count (s : State ω σ γ ε ν) (h t : Nat) (c : σ) (waitGroup dagNode : Option Nat)
    (g : Nat) : (s.spawn h t c waitGroup dagNode).count g =
      s.count g + if waitGroup = some g then 1 else 0 := by
  cases waitGroup with
  | none => simp [State.spawn, State.setFrame, State.setTask]
  | some wg =>
    rcases eq_or_ne g wg with rfl | other
    · simp [State.spawn, State.setFrame, State.setTask]
    · simp [State.spawn, State.setFrame, State.setTask, other, other.symm]

/-- `DiscardIfCancelled`, for a task that is cancelled.  Nothing destroys the frame. -/
def State.discard (s : State ω σ γ ε ν) (t : Nat) (task : Task) : State ω σ γ ε ν :=
  (s.done task.waitGroup).freeTask t

/-- `Coro::promise_type::Complete`, after which the frame destroys itself. -/
def State.complete (s : State ω σ γ ε ν) (h : Nat) (promise : Promise ε ν) :
    Option (State ω σ γ ε ν) :=
  match promise.task with
  | none => some (s.destroy h)
  | some t => (s.task t).map fun task =>
    (((s.done task.waitGroup).freeTask t).signal promise.dagNode).destroy h

/-- `ArmResume`. -/
def State.armResume (s : State ω σ γ ε ν) (h : Nat) (f : Frame σ ε ν) :
    Option (Nat × Task) :=
  f.promise.task.bind fun t => (s.task t).map fun task => (t, { task with data := h })

section Exec

variable [DecidableEq ω]

/-- `FinalAwaiter`: the worker goes on with the awaiter, if there is one. -/
def State.finalSuspend (s : State ω σ γ ε ν) (w : ω) (h : Nat) (f : Frame σ ε ν) : State ω σ γ ε ν :=
  { s.setFrame h { f with point := .final } with
    running := Function.update s.running w f.promise.continuation }

/-- The `co_await` of a `Lazy`: it is made, gets the task of its awaiter and runs. -/
def State.awaitSuspend (s : State ω σ γ ε ν) (w : ω) (h a : Nat) (f : Frame σ ε ν) (callee : σ)
    (k : Except ε ν → σ) : State ω σ γ ε ν :=
  let promise := { (Promise.empty : Promise ε ν) with
    task := f.promise.task, continuation := some h }
  { (s.setFrame h { f with point := .awaiting a k }).setFrame a ⟨.lazy, promise, .before callee⟩ with
    running := Function.update s.running w (some a) }

/-- The worker takes a step of the frame at `h`. -/
def execFrame (next : σ → Instr σ γ ε ν) (s : State ω σ γ ε ν) (w : ω) (a : Nat) (stays : Bool)
    (h : Nat) (f : Frame σ ε ν) : Option (State ω σ γ ε ν) :=
  match f.point with
  | .final => none
  | .awaiting g k =>
    (s.frame g).bind fun child => child.promise.take.map fun r =>
      (s.destroy g).setFrame h { f with point := .before (k r) }
  | .before c =>
    match next c with
    | .act act =>
      some { s.setFrame h { f with point := .before (act s.shared).2 } with
        shared := (act s.shared).1 }
    | .suspend c' =>
      (s.armResume h f).map fun (t, task) =>
        let s := s.setFrame h { f with point := .before c' }
        if stays then s.setTask t task
        else { s.setTask t { task with status := .parked } with
          running := Function.update s.running w none }
    | .call callee k =>
      match s.frame a with
      | none => some (s.awaitSuspend w h a f callee k)
      | some _ => none
    | .ret v =>
      match f.kind with
      | .coro =>
        (s.complete h f.promise).map fun s =>
          { s with running := Function.update s.running w none }
      | .lazy =>
        some (s.finalSuspend w h { f with promise := { f.promise with value := some v } })
    | .raise x =>
      match f.kind with
      | .coro => some { s with escaped := some x }
      | .lazy => some (s.finalSuspend w h { f with promise := { f.promise with eptr := some x } })

def step (next : σ → Instr σ γ ε ν) (s : State ω σ γ ε ν) (a : Label ω σ) :
    Option (State ω σ γ ε ν) :=
  if s.escaped.isSome then none
  else match a with
    | .spawn h t c waitGroup dagNode =>
      match s.frame h, s.task t with
      | none, none => some (s.spawn h t c waitGroup dagNode)
      | _, _ => none
    | .discard t =>
      match s.task t with
      | some task => if task.status = .new then some (s.discard t task) else none
      | none => none
    | .wake t =>
      match s.task t with
      | some task =>
        if task.status = .parked then some (s.setTask t { task with status := .ready })
        else none
      | none => none
    | .resume w t =>
      match s.task t, s.running w with
      | some task, none =>
        if task.status = .new ∨ task.status = .ready then
          some { s.setTask t { task with status := .running } with
            running := Function.update s.running w (some task.data) }
        else none
      | _, _ => none
    | .exec w a stays =>
      match s.running w with
      | none => none
      | some h =>
        match s.frame h with
        | none => none
        | some f => execFrame next s w a stays h f

end Exec

/-- The allocator gives an address, and `CreateTask` a task, that is not in use. -/
def fresh (s : State ω σ γ ε ν) : Label ω σ → Prop
  | .spawn h t _ _ _ => s.frame h = none ∧ s.task t = none
  | .exec _ a _ => s.frame a = none
  | _ => True

instance (s : State ω σ γ ε ν) : (a : Label ω σ) → Decidable (fresh s a)
  | .spawn h t _ _ _ => inferInstanceAs (Decidable (s.frame h = none ∧ s.task t = none))
  | .exec _ a _ => inferInstanceAs (Decidable (s.frame a = none))
  | .discard _ => .isTrue trivial
  | .wake _ => .isTrue trivial
  | .resume _ _ => .isTrue trivial

end JLibSched.Coroutine
