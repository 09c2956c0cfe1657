import JLibSched.Lib.Transition
import Mathlib.Tactic

/-!
# Requests of the ring reactor

An `IoRequest` belongs to its caller, who hands the same one to one operation after the other.
Each `Submit` function sets the fields it needs and calls `SubmitOp`, and `Complete` reads them
when the kernel is done.  A send of which the kernel took a part is submitted again with the rest.

Buffers are addresses with lengths, and a null pointer is 0.  `native` holds a `msghdr`, of which
the name and its length are kept, and the vectors behind it, where an accept has the length of the
peer's address.  The time stamps of a result are left out, and so is the trace.
-/

namespace JLibSched.Reactor

/-- `IoRequest::Kind`. -/
inductive Kind where
  | generic
  | accept
  | connect
  | send
  | recv
deriving DecidableEq, Repr

/-- `iovec`. -/
structure Iov where
  base : Nat
  len : Nat
deriving DecidableEq, Repr

/-- `IoStatus` of a request that is done. -/
inductive IoStatus where
  | completed
  | cancelled
  | failed
deriving DecidableEq, Repr

/-- `IoResult`. -/
structure IoResult where
  status : IoStatus
  bytes : Nat
  error : Nat
deriving DecidableEq, Repr

/-- `onComplete`, with `hookCtx`: the stream whose chain goes on. -/
inductive Hook where
  | onSendComplete (stream : Nat)
  | onRecvComplete (stream : Nat)
deriving DecidableEq, Repr

structure IoRequest where
  iov : Nat → Iov
  msgName : Nat
  msgNamelen : Nat
  resume : Nat
  out : Nat
  token : Nat
  handle : Nat
  kind : Kind
  aux : Nat
  bufCount : Nat
  xferred : Nat
  onComplete : Option Hook
  flags : Nat

def kMaxVectors : Nat := 8

/-- `IoAddress::kBytes`. -/
def kAddressBytes : Nat := 128

/-- `IoAcceptBuffer::kBytes`. -/
def kAcceptBytes : Nat := 128

/-- `EAGAIN`, `EINVAL`, `ENOSYS`, `EMSGSIZE`, `EOPNOTSUPP`, `ESHUTDOWN` and `ECANCELED`. -/
def eAgain : Nat := 11
def eInval : Nat := 22
def eNoSys : Nat := 38
def eMsgSize : Nat := 90
def eOpNotSupp : Nat := 95
def eShutdown : Nat := 108
def eCanceled : Nat := 125

/-- A request as it is constructed. -/
def IoRequest.fresh : IoRequest where
  iov := fun _ => ⟨0, 0⟩
  msgName := 0
  msgNamelen := 0
  resume := 0
  out := 0
  token := 0xFFFFFFFF
  handle := 0
  kind := .generic
  aux := 0
  bufCount := 0
  xferred := 0
  onComplete := none
  flags := 0

/-! ## Buffers -/

/-- The buffers that count. -/
def IoRequest.bufs (r : IoRequest) : List Iov := (List.range r.bufCount).map r.iov

/-- `FillBufs`. -/
def IoRequest.fillBufs (r : IoRequest) (bufs : List Iov) : Option IoRequest :=
  if bufs.length = 0 ∨ bufs.length > kMaxVectors then none
  else some { r with iov := fun k => (bufs[k]?).getD (r.iov k) }

/-- The loop of `AdvanceBufs`: how many buffers are used up, and what is taken of the next one. -/
def usedUp : List Iov → Nat → Nat × Nat
  | [], consumed => (0, consumed)
  | v :: bufs, consumed =>
    if consumed = 0 then (0, 0)
    else if consumed ≥ v.len then
      ((usedUp bufs (consumed - v.len)).1 + 1, (usedUp bufs (consumed - v.len)).2)
    else (0, consumed)

/-- Part of buffer `i` is taken. -/
def shorten (iov : Nat → Iov) (i consumed : Nat) : Nat → Iov :=
  Function.update iov i ⟨(iov i).base + consumed, (iov i).len - consumed⟩

/-- `AdvanceBufs`, and the new `bufCount`. -/
def IoRequest.advanceBufs (r : IoRequest) (consumed : Nat) : IoRequest :=
  let i := (usedUp r.bufs consumed).1
  let iov :=
    if i < r.bufCount then shorten r.iov i (usedUp r.bufs consumed).2 else r.iov
  if i = 0 then { r with iov := iov }
  else
    { r with
      iov := fun k => if k < r.bufCount - i then iov (i + k) else iov k
      bufCount := r.bufCount - i }

/-- `BufsRemaining`. -/
def IoRequest.bufsRemaining (r : IoRequest) : Nat := (r.bufs.map Iov.len).sum

/-! ## Operations -/

/-- What is submitted with a request. -/
inductive Op where
  | recv (s buf len flags : Nat)
  | send (s buf len flags : Nat)
  | recvV (s : Nat) (bufs : List Iov) (flags : Nat)
  | sendV (s : Nat) (bufs : List Iov) (flags : Nat)
  | read (handle buf len offset : Nat)
  | write (handle buf len offset : Nat)
  | recvFrom (s buf len flags source : Nat)
  | sendTo (s buf len flags dest destLen : Nat)
  | accept (listener accepted addrs : Nat)
  | connect (s sockaddr sockaddrLen : Nat)
  | disconnect (s : Nat) (reuse : Bool)
  | streamSend (stream s : Nat) (bufs : List Iov) (flags : Nat)
  | streamRecv (stream s : Nat) (bufs : List Iov) (flags : Nat)
deriving DecidableEq, Repr

/-- The other arguments of a `Submit` function. -/
structure Args where
  out : Nat
  resume : Nat
  token : Nat
deriving DecidableEq, Repr

/-- The low half of a pointer is overwritten. -/
def setLow (base value : Nat) : Nat := base / 2 ^ 32 * 2 ^ 32 + value

/-- `SubmitChained`, from the request's kind to the lock. -/
def IoRequest.chained (r : IoRequest) (kind : Kind) (hook : Hook) (s count flags : Nat) (a : Args) :
    IoRequest :=
  { r with
    kind := kind
    bufCount := count
    flags := flags
    xferred := 0
    out := a.out
    resume := a.resume
    token := a.token
    handle := s
    onComplete := some hook }

/-- How a submission ends. -/
inductive Answer where
  /-- `SubmitOp` returns false. -/
  | taken
  /-- `SubmitChained` finds the token cancelled. -/
  | early
  /-- `SubmitOp` does, or the ring is down, or the reactor stops. -/
  | cancelled
  | noRing
  | stopping
  /-- There is no place in the ring. -/
  | full
  /-- `io_uring_enter` fails. -/
  | failed (code : Nat)
deriving DecidableEq, Repr

/-- What is reported at once. -/
def Answer.result : Answer → Option IoResult
  | .taken => none
  | .early | .cancelled => some ⟨.cancelled, 0, 0⟩
  | .noRing => some ⟨.failed, 0, eNoSys⟩
  | .stopping => some ⟨.failed, 0, eShutdown⟩
  | .full => some ⟨.failed, 0, eAgain⟩
  | .failed code => some ⟨.failed, 0, code⟩

/-- Whether `SubmitOp` comes to write into the request, and into the ring. -/
def Answer.links : Answer → Bool
  | .early | .cancelled | .noRing | .stopping => false
  | .taken | .full | .failed _ => true

def Answer.writes : Answer → Bool
  | .taken | .failed _ => true
  | .early | .cancelled | .noRing | .stopping | .full => false

/-- What each function sets before `SubmitOp`, or the error with which it refuses. -/
def IoRequest.fill (r : IoRequest) (a : Args) (answer : Answer) : Op → Except Nat IoRequest
  | .recv s buf len flags => .ok
      { r with
        kind := .recv
        handle := s
        iov := Function.update r.iov 0 ⟨buf, len⟩
        bufCount := 1
        flags := flags
        xferred := 0
        aux := 0 }
  | .send s buf len flags => .ok
      { r with
        kind := .send
        handle := s
        iov := Function.update r.iov 0 ⟨buf, len⟩
        bufCount := 1
        flags := flags
        xferred := 0 }
  | .recvV s bufs _ =>
    match r.fillBufs bufs with
    | none => .error eMsgSize
    | some r => .ok
        { r with kind := .recv, bufCount := bufs.length, handle := s, xferred := 0, aux := 0 }
  | .sendV s bufs _ =>
    match r.fillBufs bufs with
    | none => .error eMsgSize
    | some r => .ok
        { r with kind := .send, bufCount := bufs.length, handle := s, xferred := 0 }
  | .read handle _ _ _ | .write handle _ _ _ => .ok { r with kind := .generic, handle := handle }
  | .recvFrom s buf len _ source => .ok
      { r with
        kind := .recv
        handle := s
        aux := source
        iov := Function.update r.iov 0 ⟨buf, len⟩
        msgName := source
        msgNamelen := if source = 0 then 0 else kAddressBytes }
  | .sendTo s buf len _ dest destLen => .ok
      { r with
        kind := .send
        handle := s
        xferred := 0
        iov := Function.update r.iov 0 ⟨buf, len⟩
        msgName := dest
        msgNamelen := destLen }
  | .accept listener _ addrs => .ok
      { r with
        kind := .accept
        handle := listener
        aux := 0
        iov := Function.update r.iov 0
          ⟨setLow (r.iov 0).base (if addrs = 0 then 0 else kAcceptBytes), (r.iov 0).len⟩ }
  | .connect s _ _ => .ok { r with kind := .connect, handle := s }
  | .disconnect s reuse =>
    if reuse then .error eOpNotSupp else .ok { r with kind := .generic, handle := s }
  | .streamSend stream s bufs flags =>
    match r.fillBufs bufs with
    | none => .error eMsgSize
    | some r => .ok
        (if answer = .early then r
        else r.chained .send (.onSendComplete stream) s bufs.length flags a)
  | .streamRecv stream s bufs flags =>
    match r.fillBufs bufs with
    | none => .error eMsgSize
    | some r => .ok
        (if answer = .early then r
        else r.chained .recv (.onRecvComplete stream) s bufs.length flags a)

/-- What `SubmitOp` does to the request. -/
def IoRequest.submitOp (r : IoRequest) (a : Args) (answer : Answer) : IoRequest :=
  if answer.links then { r with out := a.out, resume := a.resume, token := a.token } else r

/-! ## Completions -/

/-- The entry that `SubmitPrepared` writes. -/
inductive Entry where
  | send (handle : Nat) (buf : Iov) (flags : Nat)
  | recv (handle : Nat) (buf : Iov) (flags : Nat)
  | writeV (handle : Nat) (bufs : List Iov)
  | readV (handle : Nat) (bufs : List Iov)
deriving DecidableEq, Repr

def IoRequest.prepared (r : IoRequest) : Entry :=
  if r.bufCount = 1 then
    if r.kind = .send then .send r.handle (r.iov 0) r.flags else .recv r.handle (r.iov 0) r.flags
  else if r.kind = .send then .writeV r.handle r.bufs else .readV r.handle r.bufs

/-- A completion: `c.res`, the length of a peer's address that the kernel has written to the
request's `msghdr`, and how `SubmitOp` ends if the request is submitted again. -/
structure Completion where
  res : Int
  namelen : Nat
  answer : Answer
deriving DecidableEq, Repr

/-- What `Complete` does for others to see. -/
structure Effects where
  /-- The result, and where it is written. -/
  result : Option (Nat × IoResult)
  /-- The address whose length is written, and that length. -/
  address : Option (Nat × Nat)
  /-- What an accept leaves in `aux`. -/
  accepted : Option Nat
  /-- The entry of the rest of a send. -/
  resubmitted : Option Entry
deriving DecidableEq, Repr

/-- The result of a completion, before the parts of a send are added up. -/
def IoRequest.resultOf (r : IoRequest) (res : Int) : IoResult :=
  if 0 ≤ res then ⟨.completed, if r.kind = .accept then 0 else res.toNat, 0⟩
  else if res = -(eCanceled : Int) then ⟨.cancelled, 0, eCanceled⟩
  else ⟨.failed, 0, (-res).toNat⟩

/-- The address that `aux` points to, and its new length. -/
def IoRequest.addressOf (r : IoRequest) (res : Int) : Option (Nat × Nat) :=
  if 0 ≤ res ∧ r.kind = .recv ∧ r.aux ≠ 0 then some (r.aux, min r.msgNamelen kAddressBytes)
  else none

def IoRequest.acceptedOf (r : IoRequest) (res : Int) : Option Nat :=
  if 0 ≤ res ∧ r.kind = .accept then some res.toNat else none

/-- The kernel took a part of a send. -/
def IoRequest.isPartial (r : IoRequest) (res : Int) : Bool :=
  decide (r.kind = .send ∧ 0 < r.bufCount ∧ 0 < res ∧ res < (r.bufsRemaining : Int))

/-- The request with the rest of a send. -/
def IoRequest.rest (r : IoRequest) (res : Int) : IoRequest :=
  { r with xferred := (r.xferred + res.toNat) % 2 ^ 32 }.advanceBufs res.toNat

/-- The parts of a send are added up. -/
def IoRequest.total (r : IoRequest) (result : IoResult) : IoResult :=
  if result.status = .completed ∧ r.kind = .send then
    { result with bytes := (result.bytes + r.xferred) % 2 ^ 32 }
  else result

/-- `*out`, if there is one. -/
def IoRequest.write (r : IoRequest) (result : IoResult) : Option (Nat × IoResult) :=
  if r.out = 0 then none else some (r.out, result)

/-- `SubmitPrepared` of the rest, with what it reports at once. -/
def IoRequest.submitPrepared (r : IoRequest) (answer : Answer) : Option Entry × Option IoResult :=
  if r.bufCount = 0 then (none, some ⟨.failed, 0, eInval⟩)
  else (if answer.writes then some r.prepared else none, answer.result)

/-- `Complete`, with the request it leaves and whether it is in flight again. -/
def IoRequest.complete (r : IoRequest) (c : Completion) : Effects × IoRequest × Bool :=
  let accepted := r.acceptedOf c.res
  let left := { r with aux := accepted.getD r.aux }
  let result := r.resultOf c.res
  if r.isPartial c.res then
    let rest := r.rest c.res
    match rest.submitPrepared c.answer with
    | (entry, none) => (⟨none, none, none, entry⟩, rest, true)
    | (entry, some refused) =>
      let result := if r.out = 0 then result else refused
      (⟨r.write (rest.total result), none, none, entry⟩, rest, false)
  else (⟨r.write (r.total result), r.addressOf c.res, accepted, none⟩, left, false)

/-- The kernel writes the length of a peer's address. -/
def IoRequest.received (r : IoRequest) (op : Op) (c : Completion) : IoRequest :=
  match op with
  | .recvFrom _ _ _ _ _ => { r with msgNamelen := c.namelen }
  | _ => r

/-- The completions of one operation, the first one first, until it is done. -/
def IoRequest.completions (op : Op) : IoRequest → List Completion → List Effects × IoRequest
  | r, [] => ([], r)
  | r, c :: cs =>
    match (r.received op c).complete c with
    | (effects, r, true) =>
      (effects :: (IoRequest.completions op r cs).1, (IoRequest.completions op r cs).2)
    | (effects, r, false) => ([effects], r)

/-! ## One use after the other -/

/-- An operation and its completions. -/
structure Use where
  op : Op
  args : Args
  answer : Answer
  completions : List Completion
deriving DecidableEq, Repr

/-- The request after a use. -/
def IoRequest.use (r : IoRequest) (u : Use) : IoRequest :=
  match r.fill u.args u.answer u.op with
  | .error _ => r
  | .ok filled =>
    let r := filled.submitOp u.args u.answer
    if u.answer = .taken then (IoRequest.completions u.op r u.completions).2 else r

def after (history : List Use) : IoRequest := history.foldl IoRequest.use .fresh

/-- What the completions of an operation do that the ring has taken. -/
def IoRequest.effects (r : IoRequest) (op : Op) (a : Args) (cs : List Completion) : List Effects :=
  match r.fill a .taken op with
  | .error _ => []
  | .ok filled => (IoRequest.completions op (filled.submitOp a .taken) cs).1

end JLibSched.Reactor
