import JLibSched.Lib.Transition

/-!
# The fiber pool

Each class of stacks has a queue of free fibers, which all threads share, and each worker has a
cache of free fibers of each class.  `Pop` fills an empty cache from the queue, which `StealInto`
makes grow when it is dry, and `Push` gives half of a full cache back.  The helper of main has no
caches: it takes single fibers from the queue and gives them back.

The queues are the third-party `ConcurrentQueue`: nothing is lost or comes twice, and nothing is said
of the order.  A bulk operation on a queue moves its elements one at a time, and a bulk dequeue may
end at any time.  What a thread does to its own caches in between is one step.

A fiber is known by its `poolIndex`.
-/

namespace JLibSched.Fibers

open Transition

/-- `StackClass`. -/
inductive StackClass where
  | standard
  | deep
deriving DecidableEq, Repr

def UsableFor : StackClass → Nat
  | .standard => 60 * 1024
  | .deep => 508 * 1024

def kMinBlock : StackClass → Nat
  | .standard => 64
  | .deep => 8

def kMaxBlockBytes : Nat := 64 * 1024 * 1024

def MaxCapacity : Nat := 256

/-- The page size of the platform, and what the pool was made with. -/
structure Config where
  pageSize : Nat
  counts : StackClass → Nat
  memoryLimit : Nat

def Config.regionFor (cfg : Config) (c : StackClass) : Nat := UsableFor c + cfg.pageSize

def Config.blockSize (cfg : Config) (c : StackClass) : Nat :=
  min (max (cfg.counts c) (kMinBlock c)) (max (kMinBlock c) (kMaxBlockBytes / cfg.regionFor c))

/-! ## Caches -/

/-- `ThreadLocalCache`. -/
structure Cache where
  localFibers : Nat → Nat
  activeCapacity : Nat
  count : Nat

/-- `Initialize`. -/
def Cache.start (runtimeCapacity : Nat) : Cache where
  localFibers := fun _ => 0
  activeCapacity :=
    let capacity := if runtimeCapacity ≤ MaxCapacity then runtimeCapacity else MaxCapacity
    if capacity < 2 then 2 else capacity
  count := 0

/-- `localFibers[count++] = f`. -/
def Cache.add (cache : Cache) (f : Nat) : Cache :=
  { cache with
    localFibers := Function.update cache.localFibers cache.count f
    count := cache.count + 1 }

def Cache.half (cache : Cache) : Nat := cache.activeCapacity / 2

/-- The fibers at `&localFibers[count - half]`. -/
def Cache.batch (cache : Cache) : List Nat :=
  (List.range cache.half).map fun i => cache.localFibers (cache.count - cache.half + i)

/-- `count -= half`. -/
def Cache.cut (cache : Cache) : Cache := { cache with count := cache.count - cache.half }

/-- What `StealInto` has put at `localFibers`. -/
def Cache.fill (cache : Cache) (got : List Nat) : Cache :=
  { cache with localFibers := fun j => got.getD j (cache.localFibers j), count := got.length }

/-- `localFibers[--count]`. -/
def Cache.last (cache : Cache) : Nat := cache.localFibers (cache.count - 1)

def Cache.pop (cache : Cache) : Cache := { cache with count := cache.count - 1 }

/-! ## Threads -/

/-- The locals of `ReturnBatch`: the fibers that its loop has still to come to, the groups, and what
`enqueue_bulk` has still to move to the queue of a class. -/
structure Returning where
  todo : List Nat
  grouped : StackClass → List Nat
  sending : List Nat
  target : StackClass

/-- `ReturnBatch` at its start. -/
def Returning.start (fibers : List Nat) : Returning := ⟨fibers, fun _ => [], [], .standard⟩

inductive Activity where
  | idle
  /-- `try_dequeue_bulk` in `StealInto`, before or after `Grow`, with what it has got. -/
  | stealing (c : StackClass) (grown : Bool) (got : List Nat)
  /-- `Grow` is about to take the mutex. -/
  | locking (c : StackClass)
  /-- It has it, and is about to look at the queue. -/
  | looking (c : StackClass)
  /-- It is about to add a block of at most `n` fibers. -/
  | building (c : StackClass) (n : Nat)
  /-- `AddBlock` enqueues what it has made. -/
  | publishing (c : StackClass) (rest : List Nat)
  /-- `ReturnBatch`, called by the helper, or by `Push` with a fiber on the cache of a class. -/
  | returning (pushed : Option (StackClass × Nat)) (b : Returning)

structure Worker where
  isHelper : Bool
  /-- `CacheFor`. -/
  cache : StackClass → Cache
  activity : Activity

/-- A fiber that was handed out, and the class that was asked for. -/
structure Use where
  fiber : Nat
  asked : StackClass
deriving DecidableEq, Repr

/-- `inUse` is kept for what is proved: a step takes out of it only what is released. -/
structure State (n : Nat) where
  /-- `availableFibers`. -/
  queue : StackClass → List Nat
  stackClass : Nat → StackClass
  nextIndex : Nat
  committedBytes : Nat
  poolMutex : Option (Fin n)
  worker : Fin n → Worker
  inUse : List Use

/-- The pool as its constructor leaves it, with so many fibers made of each class. -/
def initial (cfg : Config) {n : Nat} (isHelper : Fin n → Bool) (runtimeCapacity : Fin n → Nat)
    (standard deep : Nat) : State n where
  queue
    | .standard => List.range' 0 standard
    | .deep => List.range' standard deep
  stackClass := fun f => if f < standard then .standard else .deep
  nextIndex := standard + deep
  committedBytes := standard * cfg.regionFor .standard + deep * cfg.regionFor .deep
  poolMutex := none
  worker := fun p => ⟨isHelper p, fun _ => .start (runtimeCapacity p), .idle⟩
  inUse := []

inductive Label (n : Nat) where
  /-- `AcquireFiber`. -/
  | acquire (p : Fin n) (c : StackClass)
  /-- The dequeue takes the fiber at a place of the queue. -/
  | dequeue (p : Fin n) (place : Nat)
  | dequeued (p : Fin n)
  | lock (p : Fin n)
  /-- What `size_approx` says. -/
  | look (p : Fin n) (some : Bool)
  /-- `AddBlock` makes so many fibers. -/
  | build (p : Fin n) (made : Nat)
  | publish (p : Fin n)
  /-- `ReleaseFiber`, of a fiber that is in use. -/
  | release (p : Fin n) (k : Nat)
  /-- `ReturnBatch` goes on. -/
  | give (p : Fin n)
deriving DecidableEq, Repr

variable {n : Nat}

/-! ## Steps -/

def State.set (s : State n) (p : Fin n) (w : Worker) : State n :=
  { s with worker := Function.update s.worker p w }

def Worker.doing (w : Worker) (activity : Activity) : Worker := { w with activity := activity }

def State.go (s : State n) (p : Fin n) (activity : Activity) : State n :=
  s.set p ((s.worker p).doing activity)

def State.enqueue (s : State n) (c : StackClass) (f : Nat) : State n :=
  { s with queue := Function.update s.queue c (s.queue c ++ [f]) }

def Worker.setCache (w : Worker) (c : StackClass) (cache : Cache) : Worker :=
  { w with cache := Function.update w.cache c cache, activity := .idle }

/-- The most that `StealInto` is asked for. -/
def Worker.maxCount (w : Worker) (c : StackClass) : Nat :=
  if w.isHelper then 1 else (w.cache c).activeCapacity

/-- `Pop` on a cache that is not empty. -/
def State.pop (s : State n) (p : Fin n) (c : StackClass) (cache : Cache) : State n :=
  { s.set p ((s.worker p).setCache c cache.pop) with inUse := ⟨cache.last, c⟩ :: s.inUse }

/-- `StealInto` has returned. -/
def State.serve (s : State n) (p : Fin n) (c : StackClass) (got : List Nat) : State n :=
  if (s.worker p).isHelper then
    match got with
    | [] => s.go p .idle
    | f :: _ => { s.go p .idle with inUse := ⟨f, c⟩ :: s.inUse }
  else
    let cache := ((s.worker p).cache c).fill got
    if cache.count = 0 then s.set p ((s.worker p).setCache c cache) else s.pop p c cache

/-- How many fibers `Grow` may add. -/
def State.room (cfg : Config) (s : State n) (c : StackClass) : Nat :=
  if cfg.memoryLimit = 0 then cfg.blockSize c
  else min (cfg.blockSize c)
    (if s.committedBytes < cfg.memoryLimit then
      (cfg.memoryLimit - s.committedBytes) / cfg.regionFor c else 0)

/-- `Grow` returns. -/
def State.unlock (s : State n) (p : Fin n) (c : StackClass) : State n :=
  { s.go p (.stealing c true []) with poolMutex := none }

/-- `AddBlock` has made its fibers. -/
def State.addBlock (cfg : Config) (s : State n) (c : StackClass) (made : Nat) : State n :=
  { s with
    stackClass := fun f => if s.nextIndex ≤ f ∧ f < s.nextIndex + made then c else s.stackClass f
    nextIndex := s.nextIndex + made
    committedBytes := s.committedBytes + made * cfg.regionFor c }

/-- The loop's body of `ReturnBatch`. -/
def Returning.group (b : Returning) (c : StackClass) (f : Nat) (rest : List Nat) : Returning :=
  if (b.grouped c ++ [f]).length = 64 then
    ⟨rest, Function.update b.grouped c [], b.grouped c ++ [f], c⟩
  else { b with todo := rest, grouped := Function.update b.grouped c (b.grouped c ++ [f]) }

/-- What is left in a group goes to its queue. -/
def Returning.flush (b : Returning) (c : StackClass) : Returning :=
  { b with grouped := Function.update b.grouped c [], sending := b.grouped c, target := c }

/-- `ReturnBatch` has returned. -/
def State.returned (s : State n) (p : Fin n) : Option (StackClass × Nat) → State n
  | none => s.go p .idle
  | some (c, f) => s.set p ((s.worker p).setCache c (((s.worker p).cache c).cut.add f))

/-- `ReturnBatch` takes its next step. -/
def State.give (s : State n) (p : Fin n) (pushed : Option (StackClass × Nat)) (b : Returning) :
    State n :=
  match b.sending, b.todo with
  | f :: rest, _ => (s.enqueue b.target f).go p (.returning pushed { b with sending := rest })
  | [], f :: rest => s.go p (.returning pushed (b.group (s.stackClass f) f rest))
  | [], [] =>
    if b.grouped .standard ≠ [] then s.go p (.returning pushed (b.flush .standard))
    else if b.grouped .deep ≠ [] then s.go p (.returning pushed (b.flush .deep))
    else s.returned p pushed

/-- `ReleaseFiber`. -/
def State.release (s : State n) (p : Fin n) (f : Nat) : State n :=
  let c := s.stackClass f
  let cache := (s.worker p).cache c
  if (s.worker p).isHelper then s.go p (.returning none (.start [f]))
  else if cache.count ≥ cache.activeCapacity then
    s.go p (.returning (some (c, f)) (.start cache.batch))
  else s.set p ((s.worker p).setCache c (cache.add f))

def Activity.isIdle : Activity → Bool
  | .idle => true
  | _ => false

def step (cfg : Config) (s : State n) : Label n → Option (State n)
  | .acquire p c =>
    if (s.worker p).activity.isIdle then
      if (s.worker p).isHelper ∨ ((s.worker p).cache c).count = 0 then
        some (s.go p (.stealing c false []))
      else some (s.pop p c ((s.worker p).cache c))
    else none
  | .dequeue p place =>
    match (s.worker p).activity with
    | .stealing c grown got =>
      if got.length < (s.worker p).maxCount c then
        (s.queue c)[place]?.map fun f =>
          { s.go p (.stealing c grown (got ++ [f])) with
            queue := Function.update s.queue c ((s.queue c).eraseIdx place) }
      else none
    | _ => none
  | .dequeued p =>
    match (s.worker p).activity with
    | .stealing c grown got =>
      if got = [] ∧ grown = false then some (s.go p (.locking c)) else some (s.serve p c got)
    | _ => none
  | .lock p =>
    match (s.worker p).activity, s.poolMutex with
    | .locking c, none => some { s.go p (.looking c) with poolMutex := some p }
    | _, _ => none
  | .look p some' =>
    match (s.worker p).activity with
    | .looking c =>
      if some' ∨ s.room cfg c = 0 then some (s.unlock p c)
      else some (s.go p (.building c (s.room cfg c)))
    | _ => none
  | .build p made =>
    match (s.worker p).activity with
    | .building c n =>
      if made > n then none
      else if made = 0 then some (s.unlock p c)
      else some ((s.addBlock cfg c made).go p (.publishing c (List.range' s.nextIndex made)))
    | _ => none
  | .publish p =>
    match (s.worker p).activity with
    | .publishing c (f :: rest) => some ((s.enqueue c f).go p (.publishing c rest))
    | .publishing c [] => some (s.unlock p c)
    | _ => none
  | .release p k =>
    if (s.worker p).activity.isIdle then
      s.inUse[k]?.map fun use => { s.release p use.fiber with inUse := s.inUse.eraseIdx k }
    else none
  | .give p =>
    match (s.worker p).activity with
    | .returning pushed b => some (s.give p pushed b)
    | _ => none

/-! ## Where the fibers are -/

def Cache.fibers (cache : Cache) : List Nat := (List.range cache.count).map cache.localFibers

/-- The class whose cache a `Push` under way cuts. -/
def Activity.cuts : Activity → Option StackClass
  | .returning pushed _ => pushed.map Prod.fst
  | _ => none

/-- The fibers in a cache, without those that a `Push` under way gives back. -/
def Worker.cached (w : Worker) (c : StackClass) : List Nat :=
  if w.activity.cuts = some c then (w.cache c).cut.fibers else (w.cache c).fibers

def Returning.fibers (b : Returning) : List Nat :=
  b.todo ++ b.grouped .standard ++ b.grouped .deep ++ b.sending

/-- The fibers that an operation has in hand. -/
def Activity.inHand : Activity → List Nat
  | .idle | .locking _ | .looking _ | .building _ _ => []
  | .stealing _ _ got => got
  | .publishing _ rest => rest
  | .returning pushed b => (pushed.map Prod.snd).toList ++ b.fibers

/-- How often a fiber stands in the caches of a thread and in its hands. -/
def Worker.load (w : Worker) (f : Nat) : Nat :=
  (w.cached .standard).count f + (w.cached .deep).count f + w.activity.inHand.count f

/-- How often a fiber stands in the queues, with the threads, and among those in use. -/
def State.places (s : State n) (f : Nat) : Nat :=
  (s.queue .standard).count f + (s.queue .deep).count f + (∑ p, (s.worker p).load f) +
    (s.inUse.map Use.fiber).count f

end JLibSched.Fibers
