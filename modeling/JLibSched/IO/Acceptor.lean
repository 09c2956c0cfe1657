import JLibSched.Lib.Transition
import Mathlib.Tactic

/-!
# The acceptor on Linux

`IoAcceptor` keeps a number of accepts posted on one listener.  Each slot makes a socket and
posts an accept with it; a completed accept gives its socket to a waiter or puts it on the
`ready` list, and posts the slot again.

The acceptor was written for a kernel that accepts into the socket it is given.  The Linux
reactor closes that socket at once, and the kernel completes with a descriptor of its own, which
the reactor stores in the request's `aux`.  `OnComplete` reads the slot's `sock`.

Descriptors are numbers, and a closed number may be given out again to anybody.  `Books` records
who holds each descriptor, and every delivery and every close with the holder at that moment;
the code has none of it.
-/

namespace JLibSched.Acceptor

/-! ## Descriptors -/

/-- Who holds a descriptor. -/
inductive Holder where
  | nobody
  /-- Somebody who has nothing to do with the acceptor. -/
  | others
  /-- The acceptor, from `MakeSocket`. -/
  | made
  /-- The acceptor, from an accept completion; completions are numbered. -/
  | accepted (completion : Nat)
  /-- Whoever it was delivered to. -/
  | taken (completion : Nat)
deriving DecidableEq, Repr

structure Books where
  holder : Nat → Holder
  accepts : Nat
  deliveries : List (Nat × Holder)
  closes : List (Nat × Holder)

/-- `CloseSocket`: whoever holds the descriptor loses it. -/
def Books.close (b : Books) (fd : Nat) : Books :=
  { b with holder := Function.update b.holder fd .nobody
           closes := b.closes ++ [(fd, b.holder fd)] }

/-- A socket value is given to a waiter or returned. -/
def Books.deliver (b : Books) (fd : Nat) : Books :=
  { b with
    holder := match b.holder fd with
      | .accepted k => Function.update b.holder fd (.taken k)
      | _ => b.holder
    deliveries := b.deliveries ++ [(fd, b.holder fd)] }

/-- The kernel completes an accept with a descriptor. -/
def Books.accept (b : Books) (fd : Nat) : Books :=
  { b with holder := Function.update b.holder fd (.accepted b.accepts), accepts := b.accepts + 1 }

/-- A descriptor changes hands outside the acceptor, or is made. -/
def Books.set (b : Books) (fd : Nat) (holder : Holder) : Books :=
  { b with holder := Function.update b.holder fd holder }

/-! ## The acceptor -/

/-- `IoAcceptWaiter`. -/
structure Waiter where
  id : Nat
  token : Nat
deriving DecidableEq, Repr

/-- Where a slot stands. -/
inductive SlotPc where
  /-- Not posted. -/
  | idle
  /-- `Post` calls `MakeSocket`. -/
  | make
  /-- `Post` counts the request. -/
  | count
  /-- `SubmitAccept` closes the socket it is given. -/
  | closeGiven
  /-- `SubmitOp`. -/
  | submit
  /-- `SubmitOp` answered true: `Post` takes the count back. -/
  | uncount
  /-- `Post` closes the socket. -/
  | closeRefused
  /-- The accept is with the kernel. -/
  | pending
  /-- `Complete` has stored the result: a descriptor, or none when the accept failed or was
  cancelled. -/
  | completed (result : Option Nat)
  /-- `OnComplete` closes what it does not keep. -/
  | closeUnkept (accepted : Nat)
  /-- `OnComplete` gives the socket to a waiter. -/
  | hand (accepted : Nat) (waiter : Waiter) (skipped : List Waiter)
  /-- `OnComplete` wakes cancelled waiters with no socket. -/
  | skip (skipped : List Waiter)
deriving DecidableEq, Repr

structure Slot where
  sock : Nat
  /-- `req.aux`. -/
  aux : Nat
  pc : SlotPc
deriving DecidableEq, Repr

/-- Where a call of `Stop` stands. -/
inductive StopPc where
  | notCalled
  | cancelWaiters
  | cancelScope
  /-- Waits for `outstanding`, or gives up. -/
  | wait
  | closeLeftovers (leftovers : List Nat)
deriving DecidableEq, Repr

structure State (depth : Nat) where
  books : Books
  slot : Fin depth → Slot
  /-- `ready`, its back last. -/
  ready : List Nat
  waiting : List Waiter
  outstanding : Nat
  stopping : Bool
  /-- The acceptor's own cancel scope. -/
  scopeCancelled : Bool
  /-- Tokens that are cancelled. -/
  cancelled : Nat → Bool
  stop : StopPc

/-- Some descriptors are open already, the listener's for one. -/
def initial (depth : Nat) (isOpen : Nat → Bool) : State depth where
  books :=
    { holder := fun fd => if isOpen fd then .others else .nobody
      accepts := 0
      deliveries := []
      closes := [] }
  slot := fun _ => { sock := 0, aux := 0, pc := .idle }
  ready := []
  waiting := []
  outstanding := 0
  stopping := false
  scopeCancelled := false
  cancelled := fun _ => false
  stop := .notCalled

inductive Label (depth : Nat) where
  /-- Another part of the process opens or closes a descriptor. -/
  | openOther (fd : Nat)
  | closeOther (fd : Nat)
  | cancelToken (token : Nat)
  /-- `Start` posts a slot. -/
  | post (i : Fin depth)
  /-- `MakeSocket` returns this descriptor, or fails. -/
  | makeSocket (i : Fin depth) (fd : Option Nat)
  /-- `SubmitOp` answers true, the accept is refused, or false. -/
  | submit (i : Fin depth) (refused : Bool)
  /-- The kernel completes the accept, and `Complete` stores the result. -/
  | complete (i : Fin depth) (result : Option Nat)
  /-- Any other step of a slot. -/
  | step (i : Fin depth)
  | tryTake
  | takeOrQueue (waiter : Waiter)
  | cancelWaiters (tokens : List Nat)
  | stop
  | stopStep
deriving DecidableEq

section Steps

variable {depth : Nat}

def State.setSlot (s : State depth) (i : Fin depth) (slot : Slot) : State depth :=
  { s with slot := Function.update s.slot i slot }

def State.goto (s : State depth) (i : Fin depth) (pc : SlotPc) : State depth :=
  s.setSlot i { s.slot i with pc := pc }

/-- The locked section of `OnComplete`, with what it does before. -/
def onComplete (s : State depth) (i : Fin depth) (result : Option Nat) : State depth :=
  let accepted := (s.slot i).sock
  let slot := { s.slot i with sock := 0 }
  let s := { s with outstanding := s.outstanding - 1 }
  if result.isSome ∧ s.stopping = false then
    let skipped := s.waiting.takeWhile fun w => s.cancelled w.token
    match s.waiting.dropWhile fun w => s.cancelled w.token with
    | [] =>
      { s with waiting := [], ready := s.ready ++ [accepted] }.setSlot i
        { slot with pc := .skip skipped }
    | w :: rest => { s with waiting := rest }.setSlot i { slot with pc := .hand accepted w skipped }
  else
    s.setSlot i { slot with pc := if accepted = 0 then .idle else .closeUnkept accepted }

/-- A step of a slot that is not the kernel's. -/
def slotStep (s : State depth) (i : Fin depth) : Option (State depth) :=
  match (s.slot i).pc with
  | .count => some ({ s with outstanding := s.outstanding + 1 }.goto i .closeGiven)
  | .closeGiven => some ({ s with books := s.books.close (s.slot i).sock }.goto i .submit)
  | .uncount => some ({ s with outstanding := s.outstanding - 1 }.goto i .closeRefused)
  | .closeRefused =>
    some ({ s with books := s.books.close (s.slot i).sock }.setSlot i
      { s.slot i with sock := 0, pc := .idle })
  | .completed result => some (onComplete s i result)
  | .closeUnkept accepted => some ({ s with books := s.books.close accepted }.goto i .idle)
  | .hand accepted _ skipped =>
    some ({ s with books := s.books.deliver accepted }.goto i (.skip skipped))
  | .skip (_ :: skipped) => some (s.goto i (.skip skipped))
  | .skip [] => some (s.goto i .make)
  | .idle | .make | .submit | .pending => none

/-- A step of `Stop`. -/
def stopStep (s : State depth) : Option (State depth) :=
  match s.stop with
  | .notCalled => none
  | .cancelWaiters => some { s with waiting := [], stop := .cancelScope }
  | .cancelScope => some { s with scopeCancelled := true, stop := .wait }
  | .wait => some { s with ready := [], stop := .closeLeftovers s.ready }
  | .closeLeftovers (fd :: leftovers) =>
    some { s with books := s.books.close fd, stop := .closeLeftovers leftovers }
  | .closeLeftovers [] => none

def step (s : State depth) : Label depth → Option (State depth)
  | .openOther fd =>
    if s.books.holder fd = .nobody then some { s with books := s.books.set fd .others } else none
  | .closeOther fd =>
    match s.books.holder fd with
    | .others | .taken _ => some { s with books := s.books.set fd .nobody }
    | _ => none
  | .cancelToken token => some { s with cancelled := Function.update s.cancelled token true }
  | .post i => if (s.slot i).pc = .idle then some (s.goto i .make) else none
  | .makeSocket i fd =>
    if (s.slot i).pc = .make then
      match fd with
      | none => some (s.setSlot i { s.slot i with sock := 0, pc := .idle })
      | some fd =>
        if s.books.holder fd = .nobody then
          -- zero is taken for a failure, and that descriptor is lost
          some ({ s with books := s.books.set fd .made }.setSlot i
            { s.slot i with sock := fd, pc := if fd = 0 then .idle else .count })
        else none
    else none
  | .submit i refused =>
    if (s.slot i).pc = .submit then
      if refused then some (s.goto i .uncount)
      else if s.scopeCancelled then none
      else some (s.setSlot i { s.slot i with aux := 0, pc := .pending })
    else none
  | .complete i result =>
    if (s.slot i).pc = .pending then
      match result with
      | none => some (s.goto i (.completed none))
      | some fd =>
        if s.books.holder fd = .nobody then
          some ({ s with books := s.books.accept fd }.setSlot i
            { s.slot i with aux := fd, pc := .completed (some fd) })
        else none
    else none
  | .step i => slotStep s i
  | .tryTake =>
    match s.ready.getLast? with
    | none => some s
    | some fd => some { s with books := s.books.deliver fd, ready := s.ready.dropLast }
  | .takeOrQueue waiter =>
    -- a call that finds its token cancelled, before the lock, has no effect
    match s.ready.getLast? with
    | some fd => some { s with books := s.books.deliver fd, ready := s.ready.dropLast }
    | none => if s.stopping then some s else some { s with waiting := s.waiting ++ [waiter] }
  | .cancelWaiters tokens => some { s with waiting := s.waiting.filter fun w => w.token ∉ tokens }
  | .stop =>
    if s.stopping then some s else some { s with stopping := true, stop := .cancelWaiters }
  | .stopStep => stopStep s

end Steps

/-! ## Descriptors accounted for -/

section Property

variable {depth : Nat}

/-- The completed accepts a list of events is about. -/
def eventsOf (k : Nat) (events : List (Nat × Holder)) : Nat :=
  events.countP fun e => e.2 = .accepted k

/-- How often a completed accept was delivered or closed. -/
def Books.settled (b : Books) (k : Nat) : Nat := eventsOf k b.deliveries + eventsOf k b.closes

/-- What a slot still has to deliver or to close. -/
def SlotPc.held : SlotPc → List Nat
  | .completed (some fd) | .closeUnkept fd | .hand fd _ _ => [fd]
  | _ => []

def StopPc.held : StopPc → List Nat
  | .closeLeftovers leftovers => leftovers
  | _ => []

/-- The places where the acceptor still has a descriptor. -/
def places (s : State depth) (fd : Nat) : Nat :=
  s.ready.count fd + s.stop.held.count fd + ∑ i, (s.slot i).pc.held.count fd

/-- Every delivered value is the descriptor of a completed accept that the acceptor holds, every
completed accept is delivered or closed at most once and is held in one place until it is, and
the acceptor closes only what it holds. -/
structure Accounted (s : State depth) : Prop where
  delivered : ∀ e ∈ s.books.deliveries, ∃ k, e.2 = .accepted k
  once : ∀ k, s.books.settled k ≤ 1
  held : ∀ k < s.books.accepts, s.books.settled k = 0 →
    ∃ fd, s.books.holder fd = .accepted k ∧ places s fd = 1
  owned : ∀ e ∈ s.books.closes, e.2 = .made ∨ ∃ k, e.2 = .accepted k

/-- The ring takes every accept, and the kernel completes each with the number of the socket
that was made for the slot. -/
def SameNumber (s : State depth) : Label depth → Prop
  | .submit _ refused => refused = false
  | .complete i result => result = some (s.slot i).sock
  | _ => True

instance (s : State depth) : ∀ a, Decidable (SameNumber s a)
  | .submit _ refused => inferInstanceAs (Decidable (refused = false))
  | .complete i result => inferInstanceAs (Decidable (result = some (s.slot i).sock))
  | .openOther _ | .closeOther _ | .cancelToken _ | .post _ | .makeSocket _ _ | .step _ | .tryTake
  | .takeOrQueue _ | .cancelWaiters _ | .stop | .stopStep => isTrue trivial

end Property

end JLibSched.Acceptor
