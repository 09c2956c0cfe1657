import JLibSched.Lib.Transition
import Mathlib.Tactic

/-!
# The chained requests of a stream

An `IoStream` keeps one send and one receive with the ring at a time.  `SubmitSend` and
`SubmitRecv` put a request behind the one that is out, and the next one is started by whoever
finishes with the one before: the reactor's pump, from the completion, or the caller whose
request was finished at once.

Every call has a request of its own, so a call's number stands for its request, its result and
its resume task.  The ring is a number for each request: how often the kernel has it.
-/

namespace JLibSched.Stream

/-- `IoRequest::Kind` of the two chains. -/
inductive Kind where
  | send
  | recv
deriving DecidableEq, Repr

inductive Error where
  | none
  | msgSize
  | inval
  | noSys
  | shutdown
  | again
  | canceled
  /-- Any other `errno`. -/
  | other (code : Nat)
deriving DecidableEq, Repr

/-- `IoStatus`. -/
inductive Status where
  | completed
  | cancelled
  | failed
deriving DecidableEq, Repr

/-- `IoResult`. -/
structure Result where
  status : Status
  bytes : Nat
  error : Error
deriving DecidableEq, Repr

/-- `c.res`: a byte count, or an error as a negative number. -/
inductive KernelResult where
  | bytes (count : Nat)
  | canceled
  | error (code : Nat)
deriving DecidableEq, Repr

/-- The arguments of a call, the buffers by their lengths. -/
structure Call where
  kind : Kind
  bufs : List Nat
  token : Nat
  /-- Its resume task is pinned. -/
  pinned : Bool

structure Setup where
  call : Nat → Call
  /-- The ring could be set up. -/
  ringUp : Bool

/-! ## Buffers -/

def kMaxVectors : Nat := 8

/-- `FillBufs`, which refuses no buffers or too many. -/
def fillBufs (bufs : List Nat) : Option (List Nat) :=
  if bufs.length = 0 ∨ bufs.length > kMaxVectors then none else some bufs

/-- `AdvanceBufs`: what is left after so many bytes. -/
def advanceBufs : List Nat → Nat → List Nat
  | [], _ => []
  | len :: bufs, consumed =>
    if consumed = 0 then len :: bufs
    else if consumed ≥ len then advanceBufs bufs (consumed - len)
    else (len - consumed) :: bufs

/-- `BufsRemaining`. -/
def bufsRemaining (bufs : List Nat) : Nat := bufs.sum

/-! ## State -/

/-- Where `SubmitPrepared` stands. -/
inductive Stage where
  | token
  | state
  | ring
deriving DecidableEq, Repr

/-- What the ring does with an entry: the kernel has it, there was no room, or the entry is
published but `io_uring_enter` failed. -/
inductive RingAnswer where
  | taken
  | full
  | failed (code : Nat)
deriving DecidableEq, Repr

/-- What a thread in `SubmitOne` or `Advance` does next. -/
inductive Work where
  /-- `SubmitPrepared` for a request. -/
  | prepare (stage : Stage) (r : Nat)
  /-- The locked section of `Advance`. -/
  | advance (kind : Kind)
deriving DecidableEq, Repr

/-- Where a call of `SubmitSend` or `SubmitRecv` stands. -/
inductive CallerPc where
  | notCalled
  /-- Buffers and token. -/
  | check
  /-- The locked section of `SubmitChained`. -/
  | lock
  /-- In `SubmitOne`; its own request turned out immediate or is not decided yet. -/
  | work (w : Work) (immediate : Bool)
  | returned (immediate : Bool)
deriving DecidableEq, Repr

/-- Where the pump stands. -/
inductive PumpPc where
  | waiting
  /-- `Complete` submits the rest of a partial send. -/
  | resubmit (stage : Stage) (r : Nat)
  /-- `Complete` writes the result. -/
  | publish (r : Nat) (result : Result)
  /-- `onComplete` advances the chain. -/
  | advancing (r : Nat) (w : Work)
  /-- `Complete` returns the resume task or wakes it. -/
  | resume (r : Nat)
  /-- Not started, or the marker was read. -/
  | exited
deriving DecidableEq, Repr

/-- `IoStream::Chain`, its list from `head` to `tail`. -/
structure Chain where
  queue : List Nat
  busy : Bool
deriving DecidableEq, Repr

structure State where
  chain : Kind → Chain
  caller : Nat → CallerPc
  pump : PumpPc
  /-- Resume tasks the pump has not injected yet. -/
  batch : List Nat
  ring : Nat → Nat
  out : Nat → Option Result
  bufs : Nat → List Nat
  xferred : Nat → Nat
  cancelled : Nat → Bool
  stopping : Bool
  /-- How often each resume task was woken. -/
  woken : Nat → Nat
  /-- The requests in the order of the locked sections of `SubmitChained`. -/
  arrived : Kind → List Nat
  /-- The requests in the order in which they were first handed to `SubmitOne`. -/
  started : Kind → List Nat

/-- Before the reactor's `Start`. -/
def initial : State where
  chain := fun _ => { queue := [], busy := false }
  caller := fun _ => .notCalled
  pump := .exited
  batch := []
  ring := fun _ => 0
  out := fun _ => none
  bufs := fun _ => []
  xferred := fun _ => 0
  cancelled := fun _ => false
  stopping := true
  woken := fun _ => 0
  arrived := fun _ => []
  started := fun _ => []

inductive Label where
  | call (k : Nat)
  | caller (k : Nat) (answer : RingAnswer)
  /-- The pump reads a completion. -/
  | reap (r : Nat) (res : KernelResult)
  | pump (answer : RingAnswer)
  /-- The batch goes to the injector. -/
  | inject
  | exit
  | cancel (token : Nat)
  | stop
  | start
deriving DecidableEq, Repr

/-! ## Steps -/

def State.setOut (s : State) (r : Nat) (result : Result) : State :=
  { s with out := Function.update s.out r (some result) }

def State.setCaller (s : State) (k : Nat) (pc : CallerPc) : State :=
  { s with caller := Function.update s.caller k pc }

def State.setChain (s : State) (kind : Kind) (chain : Chain) : State :=
  { s with chain := Function.update s.chain kind chain }

def State.start (s : State) (kind : Kind) (r : Nat) : State :=
  { s with started := Function.update s.started kind (s.started kind ++ [r]) }

/-- What a step of `SubmitPrepared` comes to. -/
inductive Prepared where
  | next (stage : Stage)
  /-- It returns true. -/
  | refused
  /-- It returns false. -/
  | taken
deriving DecidableEq, Repr

/-- `SubmitPrepared` and `SubmitOp`. -/
def submitPrepared (c : Setup) (s : State) (r : Nat) : Stage → RingAnswer → State × Prepared
  | .token, _ =>
    if s.bufs r = [] then (s.setOut r ⟨.failed, 0, .inval⟩, .refused)
    else if s.cancelled (c.call r).token then (s.setOut r ⟨.cancelled, 0, .none⟩, .refused)
    else (s, .next .state)
  | .state, _ =>
    if c.ringUp = false then (s.setOut r ⟨.failed, 0, .noSys⟩, .refused)
    else if s.stopping then (s.setOut r ⟨.failed, 0, .shutdown⟩, .refused)
    else (s, .next .ring)
  | .ring, .taken => ({ s with ring := Function.update s.ring r (s.ring r + 1) }, .taken)
  | .ring, .full => (s.setOut r ⟨.failed, 0, .again⟩, .refused)
  | .ring, .failed code =>
    -- the tail is not taken back, so the kernel may still find the entry
    ({ s with ring := Function.update s.ring r (s.ring r + 1) }.setOut r
      ⟨.failed, 0, .other code⟩, .refused)

/-- `SubmitOne` and `Advance`, which call each other; `none` is their return. -/
def workStep (c : Setup) (s : State) (answer : RingAnswer) : Work → State × Option Work
  | .prepare stage r =>
    match submitPrepared c s r stage answer with
    | (t, .next stage) => (t, some (.prepare stage r))
    | (t, .refused) => (t, some (.advance (c.call r).kind))
    | (t, .taken) => (t, none)
  | .advance kind =>
    match (s.chain kind).queue with
    | next :: rest =>
      ((s.setChain kind { s.chain kind with queue := rest }).start kind next,
        some (.prepare .token next))
    | [] => (s.setChain kind { s.chain kind with busy := false }, none)

def Work.isAdvance : Work → Bool
  | .advance _ => true
  | .prepare _ _ => false

/-- `SubmitChained`. -/
def callerStep (c : Setup) (s : State) (k : Nat) (answer : RingAnswer) : Option State :=
  match s.caller k with
  | .check =>
    match fillBufs (c.call k).bufs with
    | none => some ((s.setOut k ⟨.failed, 0, .msgSize⟩).setCaller k (.returned true))
    | some bufs =>
      if s.cancelled (c.call k).token then
        some ((s.setOut k ⟨.cancelled, 0, .none⟩).setCaller k (.returned true))
      else
        some ({ s with
          bufs := Function.update s.bufs k bufs
          xferred := Function.update s.xferred k 0 }.setCaller k .lock)
  | .lock =>
    let kind := (c.call k).kind
    let chain := s.chain kind
    let s := { s with arrived := Function.update s.arrived kind (s.arrived kind ++ [k]) }
    if chain.busy then
      some ((s.setChain kind { chain with queue := chain.queue ++ [k] }).setCaller k
        (.returned false))
    else
      some (((s.setChain kind { chain with busy := true }).start kind k).setCaller k
        (.work (.prepare .token k) false))
  | .work w immediate =>
    match workStep c s answer w with
    | (t, some w') => some (t.setCaller k (.work w' (immediate || w'.isAdvance)))
    | (t, none) => some (t.setCaller k (.returned immediate))
  | .notCalled | .returned _ => none

/-- The result of a completion. -/
def KernelResult.result : KernelResult → Result
  | .bytes count => ⟨.completed, count, .none⟩
  | .canceled => ⟨.cancelled, 0, .canceled⟩
  | .error code => ⟨.failed, 0, .other code⟩

/-- A send that took some of the bytes. -/
def isPartial (c : Setup) (s : State) (r : Nat) : KernelResult → Option Nat
  | .bytes count =>
    if (c.call r).kind = .send ∧ 0 < (s.bufs r).length ∧ 0 < count ∧
      count < bufsRemaining (s.bufs r) then some count else none
  | _ => none

/-- The bytes of the earlier parts of a send are added to the last one. -/
def total (c : Setup) (s : State) (r : Nat) (result : Result) : Result :=
  if result.status = .completed ∧ (c.call r).kind = .send then
    { result with bytes := result.bytes + s.xferred r }
  else result

/-- `Complete` up to the result. -/
def reap (c : Setup) (s : State) (r : Nat) (res : KernelResult) : Option State :=
  if s.pump = .waiting ∧ s.ring r ≠ 0 then
    let s := { s with ring := Function.update s.ring r (s.ring r - 1) }
    match isPartial c s r res with
    | some count =>
      some { s with
        xferred := Function.update s.xferred r (s.xferred r + count)
        bufs := Function.update s.bufs r (advanceBufs (s.bufs r) count)
        pump := .resubmit .token r }
    | none => some { s with pump := .publish r (total c s r res.result) }
  else none

/-- The rest of `Complete`. -/
def pumpStep (c : Setup) (s : State) (answer : RingAnswer) : Option State :=
  match s.pump with
  | .resubmit stage r =>
    match submitPrepared c s r stage answer with
    | (t, .next stage) => some { t with pump := .resubmit stage r }
    | (t, .refused) =>
      -- the refusal's own result is read back
      some { t with
        pump := .publish r (total c t r ((t.out r).getD ⟨.completed, 0, .none⟩)) }
    | (t, .taken) => some { t with pump := .waiting }
  | .publish r result =>
    some { s.setOut r result with pump := .advancing r (.advance (c.call r).kind) }
  | .advancing r w =>
    match workStep c s answer w with
    | (t, some w') => some { t with pump := .advancing r w' }
    | (t, none) => some { t with pump := .resume r }
  | .resume r =>
    if (c.call r).pinned then
      some { s with woken := Function.update s.woken r (s.woken r + 1), pump := .waiting }
    else some { s with batch := s.batch ++ [r], pump := .waiting }
  | .waiting | .exited => none

def step (c : Setup) (s : State) : Label → Option State
  | .call k => if s.caller k = .notCalled then some (s.setCaller k .check) else none
  | .caller k answer => callerStep c s k answer
  | .reap r res => reap c s r res
  | .pump answer => pumpStep c s answer
  | .inject =>
    if s.pump = .waiting then
      some { s with woken := fun k => s.woken k + s.batch.count k, batch := [] }
    else none
  | .exit =>
    if s.pump = .waiting ∧ s.stopping ∧ s.batch = [] then some { s with pump := .exited }
    else none
  | .cancel token => some { s with cancelled := Function.update s.cancelled token true }
  | .stop => some { s with stopping := true }
  | .start =>
    some { s with
      stopping := false
      pump := if s.pump = .exited then .waiting else s.pump }

/-! ## What a served chain is -/

/-- Who may have a chain in hand. -/
inductive Place where
  | caller (k : Nat)
  | ring (r : Nat)
  | pump
deriving DecidableEq, Repr

def Work.kind (c : Setup) : Work → Kind
  | .prepare _ r => (c.call r).kind
  | .advance kind => kind

/-- The request a thread is submitting. -/
def Work.request : Work → Option Nat
  | .prepare _ r => some r
  | .advance _ => none

/-- The chain a place has in hand, by a request in flight or by advancing it, and the request it
submits or has submitted. -/
def serving (c : Setup) (s : State) : Place → Option (Kind × Option Nat)
  | .caller k =>
    match s.caller k with
    | .work w _ => some (w.kind c, w.request)
    | _ => none
  | .ring r => if s.ring r ≠ 0 then some ((c.call r).kind, some r) else none
  | .pump =>
    match s.pump with
    | .resubmit _ r | .publish r _ => some ((c.call r).kind, some r)
    | .advancing _ w => some (w.kind c, w.request)
    | _ => none

def Serves (c : Setup) (s : State) (kind : Kind) (p : Place) : Prop :=
  ∃ r, serving c s p = some (kind, r)

/-- The request `Complete` has written the result of, and has yet to resume. -/
def PumpPc.completing : PumpPc → Option Nat
  | .advancing r _ | .resume r => some r
  | _ => none

/-- Somebody will see to this request: it is with the ring, being submitted, or completed. -/
def InHand (c : Setup) (s : State) (r : Nat) : Prop :=
  (∃ p kind, serving c s p = some (kind, some r)) ∨ s.pump.completing = some r ∨ r ∈ s.batch

/-- No request is stranded: one that was to be waited for is woken once, with its result, and
until then it is in a chain that somebody has in hand, or in hand itself; one that was not is
never woken. -/
structure Served (c : Setup) (s : State) : Prop where
  once : ∀ k, s.woken k ≤ 1
  written : ∀ k, s.woken k ≠ 0 → s.out k ≠ none
  immediate : ∀ k, s.caller k = .returned true → s.woken k = 0
  pending : ∀ k, s.caller k = .returned false → s.woken k = 0 →
    k ∈ (s.chain (c.call k).kind).queue ∨ InHand c s k
  single : ∀ kind p q, Serves c s kind p → Serves c s kind q → p = q
  alone : ∀ r, s.ring r ≤ 1
  busy : ∀ kind, (s.chain kind).busy = true ↔ ∃ p, Serves c s kind p
  idle : ∀ kind, (s.chain kind).busy = false → (s.chain kind).queue = []
  order : ∀ kind, s.arrived kind = s.started kind ++ (s.chain kind).queue

/-! ## The condition -/

/-- `SubmitPrepared` does not refuse at this stage. -/
def Takes (c : Setup) (s : State) (r : Nat) : Stage → RingAnswer → Prop
  | .token, _ => s.cancelled (c.call r).token = false
  | .state, _ => c.ringUp = true ∧ s.stopping = false
  | .ring, answer => answer = .taken

instance (c : Setup) (s : State) (r : Nat) : ∀ stage answer, Decidable (Takes c s r stage answer)
  | .token, _ => inferInstanceAs (Decidable (s.cancelled (c.call r).token = false))
  | .state, _ => inferInstanceAs (Decidable (c.ringUp = true ∧ s.stopping = false))
  | .ring, answer => inferInstanceAs (Decidable (answer = .taken))

/-- `io_uring_enter` does not fail. -/
def RingAnswer.entered : RingAnswer → Bool
  | .failed _ => false
  | _ => true

/-- `io_uring_enter` does not fail, and a request that was queued is taken when its turn comes:
its token is not cancelled, the reactor runs and there is room in the ring. -/
def TakenInTurn (c : Setup) (s : State) : Label → Bool
  | .caller k answer =>
    match s.caller k with
    | .work (.prepare stage r) immediate =>
      answer.entered && (!immediate || decide (Takes c s r stage answer))
    | _ => true
  | .pump answer =>
    match s.pump with
    | .resubmit _ _ => answer.entered
    | .advancing _ (.prepare stage r) => decide (Takes c s r stage answer)
    | _ => true
  | _ => true

end JLibSched.Stream
