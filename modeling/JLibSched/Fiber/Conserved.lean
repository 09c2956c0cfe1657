import JLibSched.Fiber.Pool

/-!
# Every fiber is in one place

A step moves fibers between one thread, the queue of one class and those in use (`Inv.move`); only
`AddBlock` makes new ones.
-/

namespace JLibSched.Fibers

open Transition

variable {n : Nat} {cfg : Config} {s t : State n} {cls : Nat → StackClass} {p : Fin n}
  {c : StackClass} {w w' : Worker} {f : Nat}

/-! ## Caches -/

structure Cache.Fits (cache : Cache) : Prop where
  low : 2 ≤ cache.activeCapacity
  high : cache.activeCapacity ≤ MaxCapacity
  count : cache.count ≤ cache.activeCapacity

theorem Cache.half_pos {cache : Cache} (fits : cache.Fits) :
    0 < cache.half ∧ cache.half ≤ cache.activeCapacity := by
  have low := fits.low
  unfold Cache.half
  omega

theorem Cache.fibers_pop {cache : Cache} (some : cache.count ≠ 0) :
    cache.fibers = cache.pop.fibers ++ [cache.last] := by
  obtain ⟨count, more⟩ := Nat.exists_eq_succ_of_ne_zero some
  unfold Cache.fibers Cache.pop Cache.last
  rw [more, List.range_succ, List.map_append]
  rfl

theorem Cache.fibers_add (cache : Cache) (f : Nat) : (cache.add f).fibers = cache.fibers ++ [f] := by
  unfold Cache.fibers Cache.add
  dsimp only
  rw [List.range_succ, List.map_append, List.map_singleton, Function.update_self]
  refine congrArg (· ++ [f]) (List.map_congr_left fun i mem => Function.update_of_ne ?_ ..)
  exact Nat.ne_of_lt (List.mem_range.mp mem)

theorem Cache.fibers_cut {cache : Cache} (full : cache.half ≤ cache.count) :
    cache.fibers = cache.cut.fibers ++ cache.batch := by
  unfold Cache.fibers Cache.cut Cache.batch
  dsimp only
  have split : cache.count = cache.count - cache.half + cache.half := by omega
  conv_lhs => rw [split, List.range_add, List.map_append, List.map_map]
  rfl

theorem Cache.fibers_fill (cache : Cache) (got : List Nat) : (cache.fill got).fibers = got := by
  unfold Cache.fibers Cache.fill
  dsimp only
  refine List.ext_getElem (by rw [List.length_map, List.length_range]) fun i _ inside => ?_
  rw [List.getElem_map, List.getElem_range, List.getD_eq_getElem?_getD,
    List.getElem?_eq_getElem inside, Option.getD_some]

/-! ## Threads -/

/-- The class whose cache a `StealInto` is under way for. -/
def Activity.fills : Activity → Option StackClass
  | .stealing c _ _ | .locking c | .looking c | .building c _ | .publishing c _ => some c
  | .idle | .returning _ _ => none

/-- The thread has the mutex of the pool. -/
def Activity.locked : Activity → Bool
  | .looking _ | .building _ _ | .publishing _ _ => true
  | .idle | .stealing _ _ _ | .locking _ | .returning _ _ => false

/-- What an operation has in hand is of the classes it says. -/
def Activity.Sorted (cls : Nat → StackClass) : Activity → Prop
  | .stealing c _ got => ∀ f ∈ got, cls f = c
  | .publishing c rest => ∀ f ∈ rest, cls f = c
  | .returning pushed b => (∀ c f, pushed = some (c, f) → cls f = c) ∧
      (∀ c, ∀ f ∈ b.grouped c, cls f = c) ∧ ∀ f ∈ b.sending, cls f = b.target
  | .idle | .locking _ | .looking _ | .building _ _ => True

structure Worker.Good (cls : Nat → StackClass) (w : Worker) : Prop where
  fits : ∀ c, (w.cache c).Fits
  cached : ∀ c, ∀ f ∈ w.cached c, cls f = c
  sorted : w.activity.Sorted cls
  fills : ∀ c, w.activity.fills = some c → w.isHelper = false → (w.cache c).count = 0
  got : ∀ c grown got, w.activity = .stealing c grown got → got.length ≤ w.maxCount c
  full : ∀ c f b, w.activity = .returning (some (c, f)) b →
    (w.cache c).activeCapacity ≤ (w.cache c).count

structure Inv (cfg : Config) (base : Nat) (s : State n) : Prop where
  places : ∀ f, s.places f = if f < s.nextIndex then 1 else 0
  queue : ∀ c, ∀ f ∈ s.queue c, s.stackClass f = c
  good : ∀ p, (s.worker p).Good s.stackClass
  used : ∀ use ∈ s.inUse, s.stackClass use.fiber = use.asked
  mutex : ∀ p, (s.worker p).activity.locked = true → s.poolMutex = some p
  room : ∀ p c m, (s.worker p).activity = .building c m → cfg.memoryLimit ≠ 0 →
    s.committedBytes + m * cfg.regionFor c ≤ cfg.memoryLimit
  memory : cfg.memoryLimit ≠ 0 → s.committedBytes ≤ max base cfg.memoryLimit

/-- Fibers go between one thread, the queues and those in use. -/
theorem Inv.move {base : Nat} {queue : StackClass → List Nat} {mutex : Option (Fin n)}
    {inUse : List Use} (inv : Inv cfg base s) (good : w'.Good s.stackClass)
    (balance : ∀ f, (queue .standard).count f + (queue .deep).count f + w'.load f +
        (inUse.map Use.fiber).count f =
      (s.queue .standard).count f + (s.queue .deep).count f + (s.worker p).load f +
        (s.inUse.map Use.fiber).count f)
    (sorted : ∀ c, ∀ f ∈ queue c, s.stackClass f = c)
    (used : ∀ use ∈ inUse, s.stackClass use.fiber = use.asked)
    (own : w'.activity.locked = true → mutex = some p)
    (others : ∀ r, r ≠ p → s.poolMutex = some r → mutex = some r)
    (room : ∀ c m, w'.activity = .building c m → cfg.memoryLimit ≠ 0 →
      s.committedBytes + m * cfg.regionFor c ≤ cfg.memoryLimit) :
    Inv cfg base { s.set p w' with queue := queue, poolMutex := mutex, inUse := inUse } := by
  have worker (r : Fin n) : Function.update s.worker p w' r = if r = p then w' else s.worker r :=
    Function.update_apply ..
  refine ⟨fun f => ?_, sorted, fun r => ?_, used, fun r => ?_, fun r => ?_, inv.memory⟩
  · have before := inv.places f
    have moved := sum_update (Worker.load · f) s.worker p w'
    have balance := balance f
    unfold State.places at *
    unfold State.set
    dsimp only at *
    rw [← before]
    omega
  · change (Function.update s.worker p w' r).Good s.stackClass
    rw [worker]
    split
    · exact good
    · exact inv.good r
  · change (Function.update s.worker p w' r).activity.locked = true → _
    rw [worker]
    split
    · rename_i here
      rw [here]
      exact own
    · rename_i other
      exact fun locked => others r other (inv.mutex r locked)
  · change ∀ c m, (Function.update s.worker p w' r).activity = _ → _
    rw [worker]
    split
    · exact room
    · exact inv.room r

/-- Fibers go between one thread and those in use. -/
theorem Inv.moveUsed {base : Nat} {inUse : List Use} (inv : Inv cfg base s)
    (good : w'.Good s.stackClass)
    (balance : ∀ f, w'.load f + (inUse.map Use.fiber).count f =
      (s.worker p).load f + (s.inUse.map Use.fiber).count f)
    (used : ∀ use ∈ inUse, s.stackClass use.fiber = use.asked)
    (calm : w'.activity.locked = false) : Inv cfg base { s.set p w' with inUse := inUse } := by
  have moved : Inv cfg base
      { s.set p w' with queue := s.queue, poolMutex := s.poolMutex, inUse := inUse } := by
    refine inv.move good (fun f => ?_) inv.queue used (fun locked => ?_) (fun _ _ same => same)
      fun c m building => ?_
    · have balance := balance f
      omega
    · rw [calm] at locked
      cases locked
    · rw [building] at calm
      cases calm
  exact moved

/-- The caches of a thread that is in no `Push`. -/
theorem cached_eq (cuts : w.activity.cuts = none) (c : StackClass) :
    w.cached c = (w.cache c).fibers := by
  unfold Worker.cached
  rw [cuts]
  rfl

/-- What a thread has in hand changes. -/
theorem load_doing {a : Activity} (cuts : a.cuts = w.activity.cuts) (f : Nat) :
    (w.doing a).load f + w.activity.inHand.count f = w.load f + a.inHand.count f := by
  have same (c : StackClass) : (w.doing a).cached c = w.cached c := by
    unfold Worker.cached Worker.doing
    dsimp only
    rw [cuts]
  unfold Worker.load
  rw [same, same]
  change _ + a.inHand.count f + _ = _
  omega

/-- A thread goes on with the same caches. -/
theorem Inv.goes {base : Nat} {activity : Activity} (inv : Inv cfg base s)
    (good : ((s.worker p).doing activity).Good s.stackClass)
    (cuts : activity.cuts = (s.worker p).activity.cuts)
    (inHand : ∀ f, activity.inHand.count f = (s.worker p).activity.inHand.count f)
    (locked : activity.locked = true → s.poolMutex = some p)
    (room : ∀ c m, activity = .building c m → cfg.memoryLimit ≠ 0 →
      s.committedBytes + m * cfg.regionFor c ≤ cfg.memoryLimit) :
    Inv cfg base (s.go p activity) := by
  refine inv.move good (fun f => ?_) inv.queue inv.used locked (fun _ _ same => same) room
  have load := load_doing (w := s.worker p) cuts f
  have inHand := inHand f
  omega

/-- A cache changes at the end of an operation. -/
theorem load_setCache (cuts : w.activity.cuts = none ∨ w.activity.cuts = some c) (cache : Cache)
    (f : Nat) :
    (w.setCache c cache).load f + (w.cached c).count f + w.activity.inHand.count f =
      w.load f + cache.fibers.count f := by
  have after (c' : StackClass) : (w.setCache c cache).cached c' =
      if c' = c then cache.fibers else w.cached c' := by
    rw [cached_eq rfl]
    change (Function.update w.cache c cache c').fibers = _
    rw [Function.update_apply]
    split
    · rfl
    · rename_i other
      unfold Worker.cached
      rw [if_neg]
      rcases cuts with none | some
      · rw [none]
        exact fun absurd => (by cases absurd)
      · rw [some]
        exact fun same => other (Option.some.inj same).symm
  unfold Worker.load
  rw [after, after]
  change _ + 0 + _ + _ = _
  cases c with
  | standard =>
    rw [if_pos rfl, if_neg (by decide)]
    omega
  | deep =>
    rw [if_pos rfl, if_neg (by decide)]
    omega

/-- The queue of one class changes. -/
theorem count_queue (queue : StackClass → List Nat) (c : StackClass) (l : List Nat) (f : Nat) :
    (Function.update queue c l .standard).count f + (Function.update queue c l .deep).count f +
      (queue c).count f = (queue .standard).count f + (queue .deep).count f + l.count f := by
  cases c with
  | standard =>
    rw [Function.update_self, Function.update_of_ne (by decide)]
    omega
  | deep =>
    rw [Function.update_self, Function.update_of_ne (by decide)]
    omega

theorem sorted_queue {queue : StackClass → List Nat} {l : List Nat}
    (sorted : ∀ c, ∀ f ∈ queue c, cls f = c) (new : ∀ f ∈ l, cls f = c) (c' : StackClass) (f : Nat)
    (mem : f ∈ Function.update queue c l c') : cls f = c' := by
  rcases eq_or_ne c' c with rfl | other
  · rw [Function.update_self] at mem
    exact new f mem
  · rw [Function.update_of_ne other] at mem
    exact sorted c' f mem

/-- A thread whose cache has changed. -/
theorem Worker.Good.setCache {cache : Cache} (good : w.Good cls) (fits : cache.Fits)
    (cuts : w.activity.cuts = none ∨ w.activity.cuts = some c)
    (sorted : ∀ f ∈ cache.fibers, cls f = c) : (w.setCache c cache).Good cls := by
  refine ⟨fun c' => ?_, fun c' f mem => ?_, trivial, fun _ none => (by cases none),
    fun _ _ _ none => (by cases none), fun _ _ _ none => (by cases none)⟩
  · change (Function.update w.cache c cache c').Fits
    rcases eq_or_ne c' c with rfl | other
    · rw [Function.update_self]
      exact fits
    · rw [Function.update_of_ne other]
      exact good.fits c'
  · rw [cached_eq rfl] at mem
    change f ∈ (Function.update w.cache c cache c').fibers at mem
    rcases eq_or_ne c' c with rfl | other
    · rw [Function.update_self] at mem
      exact sorted f mem
    · rw [Function.update_of_ne other] at mem
      refine good.cached c' f ?_
      unfold Worker.cached
      rw [if_neg]
      · exact mem
      · rcases cuts with none | some
        · rw [none]
          exact fun absurd => (by cases absurd)
        · rw [some]
          exact fun same => other (Option.some.inj same).symm

/-- A thread whose activity has changed. -/
theorem Worker.Good.goes {activity : Activity} (good : w.Good cls)
    (cuts : activity.cuts = w.activity.cuts) (sorted : activity.Sorted cls)
    (fills : ∀ c, activity.fills = some c → w.isHelper = false → (w.cache c).count = 0)
    (got : ∀ c grown got, activity = .stealing c grown got → got.length ≤ w.maxCount c)
    (full : ∀ c f b, activity = .returning (some (c, f)) b →
      (w.cache c).activeCapacity ≤ (w.cache c).count) : (w.doing activity).Good cls := by
  refine ⟨good.fits, fun c f mem => ?_, sorted, fills, got, full⟩
  refine good.cached c f ?_
  unfold Worker.cached Worker.doing at *
  dsimp only at mem
  rw [cuts] at mem
  exact mem

/-! ## `Pop` -/

variable {base : Nat}

theorem idle_of_isIdle {activity : Activity} (idle : activity.isIdle = true) : activity = .idle := by
  cases activity <;> first | rfl | cases idle

/-- A fiber is handed out from a cache, which may just have been filled. -/
theorem Inv.pop {cache : Cache} (inv : Inv cfg base s) (cuts : (s.worker p).activity.cuts = none)
    (some : cache.count ≠ 0) (fits : cache.Fits)
    (same : ∀ f, cache.fibers.count f =
      ((s.worker p).cache c).fibers.count f + (s.worker p).activity.inHand.count f)
    (sorted : ∀ f ∈ cache.fibers, s.stackClass f = c) : Inv cfg base (s.pop p c cache) := by
  have split := Cache.fibers_pop some
  rw [split] at sorted
  refine inv.moveUsed ((inv.good p).setCache ⟨fits.low, fits.high, ?_⟩ (.inl cuts) fun f mem =>
    sorted f (List.mem_append_left _ mem)) (fun f => ?_) (fun use mem => ?_) rfl
  · have count := fits.count
    change cache.count - 1 ≤ cache.activeCapacity
    omega
  · have load := load_setCache (c := c) (.inl cuts) cache.pop f
    have same := same f
    rw [cached_eq cuts] at load
    rw [split, List.count_append] at same
    have one : (List.map Use.fiber (⟨cache.last, c⟩ :: s.inUse)).count f =
        [cache.last].count f + (s.inUse.map Use.fiber).count f := by
      rw [List.map_cons, ← List.singleton_append, List.count_append]
    rw [one]
    omega
  · rcases List.mem_cons.mp mem with rfl | before
    · exact sorted cache.last (List.mem_append_right _ (List.mem_singleton_self _))
    · exact inv.used use before

/-- `StealInto` has returned. -/
theorem Inv.serve {grown : Bool} {got : List Nat} (inv : Inv cfg base s)
    (here : (s.worker p).activity = .stealing c grown got) : Inv cfg base (s.serve p c got) := by
  have good := inv.good p
  have cuts : (s.worker p).activity.cuts = none := by rw [here]; rfl
  have sorted : ∀ f ∈ got, s.stackClass f = c := by
    have sorted := good.sorted
    rw [here] at sorted
    exact sorted
  have most := good.got c grown got here
  have inHand : (s.worker p).activity.inHand = got := by rw [here]; rfl
  unfold State.serve
  split
  · rename_i helper
    have idle : ((s.worker p).doing Activity.idle).Good s.stackClass :=
      good.goes cuts.symm trivial (fun _ none => (by cases none))
        (fun _ _ _ none => (by cases none)) fun _ _ _ none => (by cases none)
    cases got with
    | nil =>
      refine inv.goes idle cuts.symm (fun f => ?_) (fun none => (by cases none))
        fun _ _ none => (by cases none)
      rw [inHand]
      rfl
    | cons f rest =>
      unfold Worker.maxCount at most
      rw [if_pos helper] at most
      have single : rest = [] := List.eq_nil_of_length_eq_zero (Nat.le_zero.mp (Nat.le_of_succ_le_succ most))
      subst single
      refine inv.moveUsed idle (fun x => ?_) (fun use mem => ?_) rfl
      · have one : (List.map Use.fiber (⟨f, c⟩ :: s.inUse)).count x =
            [f].count x + (s.inUse.map Use.fiber).count x := by
          rw [List.map_cons, ← List.singleton_append, List.count_append]
        have load := load_doing (w := s.worker p) (a := .idle) cuts.symm x
        rw [inHand] at load
        change _ + [f].count x = _ + 0 at load
        omega
      · rcases List.mem_cons.mp mem with rfl | before
        · exact sorted f List.mem_cons_self
        · exact inv.used use before
  · rename_i worker
    rw [Bool.not_eq_true] at worker
    have empty := good.fills c (by rw [here]; rfl) worker
    have none : ((s.worker p).cache c).fibers = [] := by
      unfold Cache.fibers
      rw [empty]
      rfl
    have fits := good.fits c
    unfold Worker.maxCount at most
    rw [worker] at most
    have filled : (((s.worker p).cache c).fill got).Fits := ⟨fits.low, fits.high, most⟩
    have fibers := Cache.fibers_fill ((s.worker p).cache c) got
    dsimp only
    split
    · rename_i nothing
      have none' : got = [] := List.eq_nil_of_length_eq_zero nothing
      refine inv.moveUsed (good.setCache filled (.inl cuts) fun f mem => ?_) (fun f => ?_) inv.used
        rfl
      · rw [fibers] at mem
        exact sorted f mem
      · have load := load_setCache (c := c) (.inl cuts) (((s.worker p).cache c).fill got) f
        rw [cached_eq cuts, none, inHand, fibers, List.count_nil] at load
        omega
    · rename_i some
      refine inv.pop cuts some filled (fun f => ?_) fun f mem => ?_
      · rw [fibers, none, inHand, List.count_nil, Nat.zero_add]
      · rw [fibers] at mem
        exact sorted f mem

/-- The dequeue takes a fiber. -/
theorem Inv.dequeue {grown : Bool} {got : List Nat} {place : Nat} (inv : Inv cfg base s)
    (here : (s.worker p).activity = .stealing c grown got)
    (more : got.length < (s.worker p).maxCount c) (found : (s.queue c)[place]? = some f) :
    Inv cfg base { s.go p (.stealing c grown (got ++ [f])) with
      queue := Function.update s.queue c ((s.queue c).eraseIdx place) } := by
  have good := inv.good p
  have sorted := good.sorted
  rw [here] at sorted
  obtain ⟨below, at_⟩ := List.getElem?_eq_some_iff.mp found
  have perm := List.getElem_cons_eraseIdx_perm below
  rw [at_] at perm
  have moved : Inv cfg base { s.go p (.stealing c grown (got ++ [f])) with
      queue := Function.update s.queue c ((s.queue c).eraseIdx place), poolMutex := s.poolMutex,
      inUse := s.inUse } := by
    refine inv.move (good.goes (by rw [here]; rfl) (fun x mem => ?_) (fun c' same worker => ?_)
      (fun c' grown' got' same => ?_) fun _ _ _ absurd => (by cases absurd)) (fun x => ?_)
      (sorted_queue inv.queue fun x mem => inv.queue c x (List.mem_of_mem_eraseIdx mem)) inv.used
      (fun absurd => (by cases absurd)) (fun _ _ same => same) fun _ _ absurd => (by cases absurd)
    · rcases List.mem_append.mp mem with before | new
      · exact sorted x before
      · cases List.mem_singleton.mp new
        exact inv.queue c f (List.mem_of_getElem? found)
    · exact good.fills c' (by rw [here]; exact same) worker
    · cases same
      rw [List.length_append]
      exact more
    · have count := perm.count_eq x
      have queues := count_queue s.queue c ((s.queue c).eraseIdx place) x
      rw [← List.singleton_append, List.count_append] at count
      have load := load_doing (w := s.worker p) (a := .stealing c grown (got ++ [f]))
        (by rw [here]; rfl) x
      rw [here] at load
      change _ + got.count x = _ + (got ++ [f]).count x at load
      rw [List.count_append] at load
      omega
  exact moved

/-! ## `Grow` -/

/-- `Grow` goes on from one of its steps to another with nothing in hand. -/
theorem Inv.grows {activity : Activity} (inv : Inv cfg base s)
    (before : (s.worker p).activity.cuts = none ∧ (s.worker p).activity.inHand = [] ∧
      (s.worker p).activity.fills = some c)
    (after : activity.cuts = none ∧ activity.inHand = [] ∧ activity.fills = some c)
    (locked : activity.locked = true → s.poolMutex = some p)
    (room : ∀ c m, activity = .building c m → cfg.memoryLimit ≠ 0 →
      s.committedBytes + m * cfg.regionFor c ≤ cfg.memoryLimit) : Inv cfg base (s.go p activity) := by
  have good := inv.good p
  obtain ⟨cuts, inHand, fills⟩ := after
  refine inv.goes (good.goes (cuts.trans before.1.symm) ?_ (fun c' same worker => ?_)
    (fun c' grown got same => ?_) fun c' f b same => ?_) (cuts.trans before.1.symm)
    (fun f => by rw [inHand, before.2.1]) locked room
  · cases activity with
    | stealing c' grown got =>
      intro f mem
      rw [show got = [] from inHand] at mem
      cases mem
    | publishing c' rest =>
      intro f mem
      rw [show rest = [] from inHand] at mem
      cases mem
    | returning pushed b => cases fills
    | idle | locking | looking | building => exact trivial
  · exact good.fills c' (before.2.2.trans (fills.symm.trans same)) worker
  · subst same
    rw [show got = [] from inHand]
    exact Nat.zero_le _
  · subst same
    cases cuts

/-- `Grow` drops the mutex. -/
theorem Inv.unlock (inv : Inv cfg base s) (locked : (s.worker p).activity.locked = true)
    (before : (s.worker p).activity.cuts = none ∧ (s.worker p).activity.inHand = [] ∧
      (s.worker p).activity.fills = some c) : Inv cfg base (s.unlock p c) := by
  have went : Inv cfg base (s.go p (.stealing c true [])) :=
    inv.grows before ⟨rfl, rfl, rfl⟩ (fun absurd => (by cases absurd))
      fun _ _ absurd => (by cases absurd)
  refine ⟨went.places, went.queue, went.good, went.used, fun r still => ?_, went.room, went.memory⟩
  -- Nobody else has the mutex.
  rcases eq_or_ne r p with rfl | other
  · have self : ((s.unlock r c).worker r).activity = .stealing c true [] := by
      unfold State.unlock State.go State.set
      dsimp only
      rw [Function.update_self]
      rfl
    rw [self] at still
    cases still
  · have own := inv.mutex p locked
    have held := went.mutex r still
    exact absurd (Option.some.inj (held.symm.trans own)) other

theorem Inv.lock (inv : Inv cfg base s) (here : (s.worker p).activity = .locking c)
    (free : s.poolMutex = none) :
    Inv cfg base { s.go p (.looking c) with poolMutex := some p } := by
  have good := inv.good p
  have moved : Inv cfg base { s.go p (.looking c) with
      queue := s.queue, poolMutex := some p, inUse := s.inUse } := by
    refine inv.move (good.goes (by rw [here]; rfl) trivial (fun c' same worker => ?_)
      (fun _ _ _ absurd => (by cases absurd)) fun _ _ _ absurd => (by cases absurd)) (fun f => ?_)
      inv.queue inv.used (fun _ => rfl) (fun r _ held => ?_) fun _ _ absurd => (by cases absurd)
    · exact good.fills c' (by rw [here]; exact same) worker
    · have load := load_doing (w := s.worker p) (a := .looking c) (by rw [here]; rfl) f
      rw [here] at load
      change _ + 0 = _ + 0 at load
      omega
    · rw [free] at held
      cases held
  exact moved

/-- `Grow` adds no more than the limit has room for. -/
theorem room_fits (limit : cfg.memoryLimit ≠ 0) (some : s.room cfg c ≠ 0) :
    s.committedBytes + s.room cfg c * cfg.regionFor c ≤ cfg.memoryLimit := by
  unfold State.room at *
  rw [if_neg limit] at *
  split at some
  · rename_i below
    rw [if_pos below]
    have least := Nat.min_le_right (cfg.blockSize c)
      ((cfg.memoryLimit - s.committedBytes) / cfg.regionFor c)
    have fits : min (cfg.blockSize c) ((cfg.memoryLimit - s.committedBytes) / cfg.regionFor c) *
        cfg.regionFor c ≤ cfg.memoryLimit - s.committedBytes :=
      Nat.le_trans (Nat.mul_le_mul_right _ least) (Nat.div_mul_le_self _ _)
    omega
  · exact absurd (Nat.min_zero _) some

/-- Nobody else has the mutex. -/
theorem Inv.alone (inv : Inv cfg base s) (locked : (s.worker p).activity.locked = true) {r : Fin n}
    (other : r ≠ p) : (s.worker r).activity.locked = false := by
  cases held : (s.worker r).activity.locked with
  | false => rfl
  | true => exact absurd (Option.some.inj ((inv.mutex r held).symm.trans (inv.mutex p locked))) other

theorem mem_inHand_of_grouped {pushed : Option (StackClass × Nat)} {b : Returning}
    (mem : f ∈ b.grouped c) : f ∈ (Activity.returning pushed b).inHand := by
  refine List.mem_append_right _ ?_
  unfold Returning.fibers
  cases c with
  | standard => exact List.mem_append_left _ (List.mem_append_left _ (List.mem_append_right _ mem))
  | deep => exact List.mem_append_left _ (List.mem_append_right _ mem)

theorem Activity.Sorted.congr {cls' : Nat → StackClass} {a : Activity} (sorted : a.Sorted cls)
    (same : ∀ f ∈ a.inHand, cls' f = cls f) : a.Sorted cls' := by
  cases a with
  | stealing c grown got => exact fun f mem => (same f mem).trans (sorted f mem)
  | publishing c rest => exact fun f mem => (same f mem).trans (sorted f mem)
  | returning pushed b =>
    obtain ⟨own, grouped, sending⟩ := sorted
    refine ⟨fun c f pushes => (same f ?_).trans (own c f pushes),
      fun c f mem => (same f (mem_inHand_of_grouped mem)).trans (grouped c f mem),
      fun f mem => (same f ?_).trans (sending f mem)⟩
    · rw [pushes]
      exact List.mem_append_left _ (List.mem_singleton_self f)
    · exact List.mem_append_right _ (List.mem_append_right _ mem)
  | idle | locking | looking | building => exact trivial

/-- The classes of the fibers that a thread has do not change. -/
theorem Worker.Good.congr {cls' : Nat → StackClass} (good : w.Good cls)
    (same : ∀ f, 0 < w.load f → cls' f = cls f) : w.Good cls' := by
  refine ⟨good.fits, fun c f mem => ?_, good.sorted.congr fun f mem => same f ?_, good.fills,
    good.got, good.full⟩
  · refine (same f ?_).trans (good.cached c f mem)
    have some := List.count_pos_iff.mpr mem
    unfold Worker.load
    cases c <;> omega
  · have some := List.count_pos_iff.mpr mem
    unfold Worker.load
    omega

/-- A fiber that is anywhere was made. -/
theorem Inv.known (inv : Inv cfg base s) (some : 0 < s.places f) : f < s.nextIndex := by
  rw [inv.places] at some
  by_contra beyond
  rw [if_neg beyond] at some
  exact absurd some (Nat.lt_irrefl 0)

/-- `AddBlock` makes its fibers. -/
theorem Inv.addBlock {m made : Nat} (inv : Inv cfg base s)
    (here : (s.worker p).activity = .building c m) (most : made ≤ m) :
    Inv cfg base ((s.addBlock cfg c made).go p (.publishing c (List.range' s.nextIndex made))) := by
  have good := inv.good p
  have locked : (s.worker p).activity.locked = true := by rw [here]; rfl
  have old {f : Nat} (below : f < s.nextIndex) :
      (s.addBlock cfg c made).stackClass f = s.stackClass f :=
    if_neg fun new => absurd below (Nat.not_lt.mpr new.1)
  have kept {f : Nat} (some : 0 < s.places f) :
      (s.addBlock cfg c made).stackClass f = s.stackClass f := old (inv.known some)
  have still (r : Fin n) : (s.worker r).Good (s.addBlock cfg c made).stackClass := by
    refine (inv.good r).congr fun f some => kept ?_
    have load := le_sum (Worker.load · f) s.worker r
    unfold State.places
    omega
  have worker (r : Fin n) : ((s.addBlock cfg c made).go p
      (.publishing c (List.range' s.nextIndex made))).worker r = if r = p then
        (s.worker p).doing (.publishing c (List.range' s.nextIndex made)) else s.worker r :=
    Function.update_apply ..
  refine ⟨fun f => ?_, fun c' f mem => ?_, fun r => ?_, fun use mem => ?_, fun r held => ?_,
    fun r c' m' building => ?_, fun limit => ?_⟩
  · have before := inv.places f
    have load := load_doing (w := s.worker p) (a := .publishing c (List.range' s.nextIndex made))
      (by rw [here]; rfl) f
    have moved := sum_update (Worker.load · f) s.worker p
      ((s.worker p).doing (.publishing c (List.range' s.nextIndex made)))
    rw [here] at load
    change _ + 0 = _ + (List.range' s.nextIndex made).count f at load
    have fresh : (List.range' s.nextIndex made).count f =
        if s.nextIndex ≤ f ∧ f < s.nextIndex + made then 1 else 0 := by
      rw [List.Nodup.count List.nodup_range']
      exact if_congr List.mem_range'_1 rfl rfl
    unfold State.places at before
    change (s.queue .standard).count f + (s.queue .deep).count f +
        (∑ r, (Function.update s.worker p
          ((s.worker p).doing (.publishing c (List.range' s.nextIndex made))) r).load f) +
        (s.inUse.map Use.fiber).count f = if f < s.nextIndex + made then 1 else 0
    split at fresh <;> split at before <;> split <;> omega
  · refine (kept ?_).trans (inv.queue c' f mem)
    have some : 0 < (s.queue c').count f := List.count_pos_iff.mpr mem
    unfold State.places
    cases c' <;> omega
  · rw [worker]
    split
    · refine (still p).goes (by rw [here]; rfl) (fun f mem => ?_) (fun c' same worker => ?_)
        (fun _ _ _ absurd => (by cases absurd)) fun _ _ _ absurd => (by cases absurd)
      · exact if_pos (List.mem_range'_1.mp mem)
      · exact good.fills c' (by rw [here]; exact same) worker
    · exact still r
  · refine (kept ?_).trans (inv.used use mem)
    have some : 0 < (s.inUse.map Use.fiber).count use.fiber :=
      List.count_pos_iff.mpr (List.mem_map_of_mem mem)
    unfold State.places
    omega
  · rw [worker] at held
    split at held
    · rename_i same
      rw [same]
      exact inv.mutex p locked
    · rename_i other
      rw [inv.alone locked other] at held
      cases held
  · rw [worker] at building
    split at building
    · cases building
    · rename_i other
      have alone := inv.alone locked other
      rw [building] at alone
      cases alone
  · have room := inv.room p c m here limit
    have less := Nat.mul_le_mul_right (cfg.regionFor c) most
    change s.committedBytes + made * cfg.regionFor c ≤ _
    omega

theorem Inv.look {some' : Bool} (inv : Inv cfg base s)
    (here : (s.worker p).activity = .looking c) :
    Inv cfg base (if some' ∨ s.room cfg c = 0 then s.unlock p c
      else s.go p (.building c (s.room cfg c))) := by
  have before : (s.worker p).activity.cuts = none ∧ (s.worker p).activity.inHand = [] ∧
      (s.worker p).activity.fills = some c := by
    rw [here]
    exact ⟨rfl, rfl, rfl⟩
  have locked : (s.worker p).activity.locked = true := by rw [here]; rfl
  split
  · exact inv.unlock locked before
  · rename_i more
    rw [not_or] at more
    refine inv.grows before ⟨rfl, rfl, rfl⟩ (fun _ => inv.mutex p locked) fun c' m same limit => ?_
    cases same
    exact room_fits limit more.2

/-- A fiber that an operation has in hand goes to its queue. -/
theorem Inv.enqueue {activity : Activity} (inv : Inv cfg base s) (own : s.stackClass f = c)
    (good : ((s.worker p).doing activity).Good s.stackClass)
    (cuts : activity.cuts = (s.worker p).activity.cuts)
    (inHand : ∀ x, (s.worker p).activity.inHand.count x = [f].count x + activity.inHand.count x)
    (locked : activity.locked = true → s.poolMutex = some p)
    (room : ∀ c m, activity ≠ .building c m) :
    Inv cfg base ((s.enqueue c f).go p activity) := by
  have moved : Inv cfg base { s.set p ((s.worker p).doing activity) with
      queue := Function.update s.queue c (s.queue c ++ [f]), poolMutex := s.poolMutex,
      inUse := s.inUse } := by
    refine inv.move good (fun x => ?_) (sorted_queue inv.queue fun x mem => ?_) inv.used locked
      (fun _ _ same => same) fun c' m same => absurd same (room c' m)
    · have load := load_doing (w := s.worker p) cuts x
      have queues := count_queue s.queue c (s.queue c ++ [f]) x
      have inHand := inHand x
      rw [List.count_append] at queues
      omega
    · rcases List.mem_append.mp mem with before | new
      · exact inv.queue c x before
      · rw [List.mem_singleton.mp new]
        exact own
  exact moved

/-! ## `ReleaseFiber` -/

/-- A fiber is no longer in use. -/
theorem count_erased {k : Nat} {use : Use} {inUse : List Use} (found : inUse[k]? = some use)
    (f : Nat) : [use.fiber].count f + ((inUse.eraseIdx k).map Use.fiber).count f =
      (inUse.map Use.fiber).count f := by
  obtain ⟨below, here⟩ := List.getElem?_eq_some_iff.mp found
  have perm := (List.getElem_cons_eraseIdx_perm below).map Use.fiber
  rw [here, List.map_cons] at perm
  rw [← perm.count_eq]
  exact List.count_append.symm

theorem Inv.release {k : Nat} {use : Use} (inv : Inv cfg base s)
    (here : (s.worker p).activity = .idle) (found : s.inUse[k]? = some use) :
    Inv cfg base { s.release p use.fiber with inUse := s.inUse.eraseIdx k } := by
  have good := inv.good p
  have cuts : (s.worker p).activity.cuts = none := by rw [here]; rfl
  have erased := count_erased found
  have used (u : Use) (mem : u ∈ s.inUse.eraseIdx k) : s.stackClass u.fiber = u.asked :=
    inv.used u (List.mem_of_mem_eraseIdx mem)
  have blank (fibers : List Nat) : (∀ c : StackClass, ∀ f ∈ (Returning.start fibers).grouped c,
      s.stackClass f = c) ∧ ∀ f ∈ (Returning.start fibers).sending,
        s.stackClass f = (Returning.start fibers).target :=
    ⟨fun _ _ none => (by cases none), fun _ none => (by cases none)⟩
  unfold State.release
  dsimp only
  split
  · refine inv.moveUsed (good.goes cuts.symm ⟨fun _ _ none => (by cases none), blank _⟩
      (fun _ none => (by cases none)) (fun _ _ _ none => (by cases none))
      fun _ _ _ none => (by cases none)) (fun f => ?_) used rfl
    have load := load_doing (w := s.worker p) (a := .returning none (.start [use.fiber])) cuts.symm f
    have erased := erased f
    rw [here] at load
    change _ + 0 = _ + [use.fiber].count f at load
    omega
  split
  · rename_i full
    generalize class_ : s.stackClass use.fiber = c at *
    have fits := good.fits c
    have enough : ((s.worker p).cache c).half ≤ ((s.worker p).cache c).count :=
      Nat.le_trans (Cache.half_pos fits).2 full
    have split := Cache.fibers_cut enough
    have cached (c' : StackClass) : (((s.worker p).doing (.returning (some (c, use.fiber))
        (.start ((s.worker p).cache c).batch))).cached c') =
        if c = c' then ((s.worker p).cache c').cut.fibers else (s.worker p).cached c' := by
      rw [cached_eq cuts]
      exact if_congr (Option.some_inj) rfl rfl
    have sorted : ∀ f ∈ ((s.worker p).cache c).fibers, s.stackClass f = c := by
      have sorted := good.cached c
      rw [cached_eq cuts] at sorted
      exact sorted
    refine inv.moveUsed ⟨good.fits, fun c' f mem => ?_, ⟨fun c' f same => ?_, blank _⟩,
      fun _ none => (by cases none), fun _ _ _ none => (by cases none), fun c' f b same => ?_⟩
      (fun f => ?_) used rfl
    · rw [cached] at mem
      split at mem
      · rename_i same
        subst same
        refine sorted f ?_
        rw [split]
        exact List.mem_append_left _ mem
      · exact good.cached c' f mem
    · cases same
      exact class_
    · cases same
      exact full
    · have erased := erased f
      have whole := congrArg (List.count f) split
      rw [List.count_append] at whole
      have inHand : ((s.worker p).doing (.returning (some (c, use.fiber))
          (.start ((s.worker p).cache c).batch))).activity.inHand.count f =
          [use.fiber].count f + ((s.worker p).cache c).batch.count f := by
        change (([use.fiber] : List Nat) ++ ((((s.worker p).cache c).batch ++ []) ++ [] ++ [])).count f = _
        simp only [List.append_nil, List.count_append]
      have none : (s.worker p).activity.inHand.count f = 0 := by rw [here]; rfl
      unfold Worker.load
      rw [cached, cached, inHand, none]
      cases c with
      | standard =>
        rw [if_pos rfl, if_neg (by decide), cached_eq cuts .standard]
        omega
      | deep =>
        rw [if_neg (by decide), if_pos rfl, cached_eq cuts .deep]
        omega
  · rename_i room
    have added := Cache.fibers_add ((s.worker p).cache (s.stackClass use.fiber)) use.fiber
    have fits := good.fits (s.stackClass use.fiber)
    refine inv.moveUsed (good.setCache ⟨fits.low, fits.high, Nat.not_le.mp room⟩ (.inl cuts)
      fun f mem => ?_) (fun f => ?_) used rfl
    · rw [added] at mem
      rcases List.mem_append.mp mem with before | new
      · refine good.cached (s.stackClass use.fiber) f ?_
        rw [cached_eq cuts]
        exact before
      · rw [List.mem_singleton.mp new]
    · have load := load_setCache (c := s.stackClass use.fiber) (.inl cuts)
        (((s.worker p).cache (s.stackClass use.fiber)).add use.fiber) f
      have erased := erased f
      rw [added, cached_eq cuts, here, List.count_append] at load
      change _ + _ + 0 = _ at load
      omega

/-! ## `ReturnBatch` -/

/-- `ReturnBatch` goes on with the same fibers in hand. -/
theorem Inv.gives {pushed : Option (StackClass × Nat)} {b b' : Returning} (inv : Inv cfg base s)
    (here : (s.worker p).activity = .returning pushed b)
    (grouped : ∀ c, ∀ f ∈ b'.grouped c, s.stackClass f = c)
    (sending : ∀ f ∈ b'.sending, s.stackClass f = b'.target)
    (same : ∀ f, b'.fibers.count f = b.fibers.count f) :
    Inv cfg base (s.go p (.returning pushed b')) := by
  have good := inv.good p
  have sorted := good.sorted
  rw [here] at sorted
  refine inv.goes (good.goes (by rw [here]; rfl) ⟨sorted.1, grouped, sending⟩
    (fun _ none => (by cases none)) (fun _ _ _ none => (by cases none)) fun c f b'' same => ?_)
    (by rw [here]; rfl) (fun f => ?_) (fun none => (by cases none)) fun _ _ none => (by cases none)
  · cases same
    exact good.full c f b here
  · rw [here]
    change ((pushed.map Prod.snd).toList ++ b'.fibers).count f =
      ((pushed.map Prod.snd).toList ++ b.fibers).count f
    rw [List.count_append, List.count_append, same]

theorem sorted_group {b : Returning} (rest : List Nat)
    (grouped : ∀ c, ∀ f ∈ b.grouped c, cls f = c) (nothing : b.sending = []) (f : Nat) :
    (∀ c, ∀ x ∈ (b.group (cls f) f rest).grouped c, cls x = c) ∧
      ∀ x ∈ (b.group (cls f) f rest).sending, cls x = (b.group (cls f) f rest).target := by
  have added : ∀ x ∈ b.grouped (cls f) ++ [f], cls x = cls f := by
    intro x mem
    rcases List.mem_append.mp mem with before | new
    · exact grouped (cls f) x before
    · rw [List.mem_singleton.mp new]
  unfold Returning.group
  split
  · exact ⟨sorted_queue grouped fun x none => (by cases none), added⟩
  · refine ⟨sorted_queue grouped added, fun x mem => ?_⟩
    dsimp only at mem
    rw [nothing] at mem
    cases mem

theorem count_first (f : Nat) (rest : List Nat) (x : Nat) :
    (f :: rest).count x = [f].count x + rest.count x := by
  rw [← List.singleton_append, List.count_append]

theorem count_group {b : Returning} {rest : List Nat} (todo : b.todo = f :: rest)
    (nothing : b.sending = []) (c : StackClass) (x : Nat) :
    (b.group c f rest).fibers.count x = b.fibers.count x := by
  have whole (b : Returning) : b.fibers.count x =
      b.todo.count x + ((b.grouped .standard).count x + (b.grouped .deep).count x) +
        b.sending.count x := by
    unfold Returning.fibers
    rw [List.count_append, List.count_append, List.count_append, Nat.add_assoc (b.todo.count x)]
  have first : (f :: rest).count x = [f].count x + rest.count x := count_first f rest x
  rw [whole, whole, todo, nothing, first]
  unfold Returning.group
  split
  · have queues := count_queue b.grouped c [] x
    have added : (b.grouped c ++ [f]).count x = _ := List.count_append
    dsimp only
    rw [List.count_nil] at queues ⊢
    omega
  · have queues := count_queue b.grouped c (b.grouped c ++ [f]) x
    rw [List.count_append] at queues
    dsimp only
    rw [nothing]
    omega

theorem count_flush {b : Returning} (nothing : b.sending = []) (c : StackClass) (x : Nat) :
    (b.flush c).fibers.count x = b.fibers.count x := by
  have queues := count_queue b.grouped c [] x
  unfold Returning.fibers Returning.flush
  dsimp only
  simp only [List.count_append, nothing, List.count_nil] at *
  omega

/-- `ReturnBatch` has returned, with nothing in hand but what is pushed. -/
theorem Inv.returned {pushed : Option (StackClass × Nat)} {b : Returning} (inv : Inv cfg base s)
    (here : (s.worker p).activity = .returning pushed b) (empty : b.fibers = []) :
    Inv cfg base (s.returned p pushed) := by
  have good := inv.good p
  have sorted := good.sorted
  rw [here] at sorted
  cases pushed with
  | none =>
    refine inv.goes (good.goes (by rw [here]; rfl) trivial (fun _ none => (by cases none))
      (fun _ _ _ none => (by cases none)) fun _ _ _ none => (by cases none)) (by rw [here]; rfl)
      (fun f => ?_) (fun none => (by cases none)) fun _ _ none => (by cases none)
    rw [here]
    change [].count f = ([] ++ b.fibers).count f
    rw [empty]
    rfl
  | some push =>
    obtain ⟨c, f⟩ := push
    have cuts : (s.worker p).activity.cuts = some c := by rw [here]; rfl
    have fits := good.fits c
    have full := good.full c f b here
    have half := Cache.half_pos fits
    have cached : (s.worker p).cached c = ((s.worker p).cache c).cut.fibers := by
      unfold Worker.cached
      rw [if_pos cuts]
    have added := Cache.fibers_add ((s.worker p).cache c).cut f
    have roomy : ((s.worker p).cache c).count - ((s.worker p).cache c).half + 1 ≤
        ((s.worker p).cache c).activeCapacity := by
      have count := fits.count
      omega
    refine inv.moveUsed (good.setCache ⟨fits.low, fits.high, roomy⟩ (.inr cuts) fun x mem => ?_)
      (fun x => ?_) inv.used rfl
    · rw [added] at mem
      rcases List.mem_append.mp mem with before | new
      · exact good.cached c x (cached ▸ before)
      · rw [List.mem_singleton.mp new]
        exact sorted.1 c f rfl
    · have load := load_setCache (c := c) (.inr cuts) (((s.worker p).cache c).cut.add f) x
      have inHand : (s.worker p).activity.inHand.count x = [f].count x := by
        rw [here]
        change ([f] ++ b.fibers).count x = _
        rw [empty, List.append_nil]
      rw [added, cached, inHand, List.count_append] at load
      omega

theorem Inv.give {pushed : Option (StackClass × Nat)} {b : Returning} (inv : Inv cfg base s)
    (here : (s.worker p).activity = .returning pushed b) : Inv cfg base (s.give p pushed b) := by
  have good := inv.good p
  have sorted := good.sorted
  rw [here] at sorted
  obtain ⟨own, grouped, sending⟩ := sorted
  unfold State.give
  split
  · rename_i f rest sends
    refine inv.enqueue (sending f (by rw [sends]; exact List.mem_cons_self))
      (good.goes (by rw [here]; rfl) ⟨own, grouped, fun x mem => sending x ?_⟩
        (fun _ none => (by cases none)) (fun _ _ _ none => (by cases none)) fun c x b' same => ?_)
      (by rw [here]; rfl) (fun x => ?_) (fun none => (by cases none))
      fun _ _ none => (by cases none)
    · rw [sends]
      exact List.mem_cons_of_mem _ mem
    · cases same
      exact good.full c x b here
    · rw [here]
      unfold Activity.inHand Returning.fibers
      dsimp only
      rw [sends, ← List.singleton_append]
      simp only [List.count_append]
      omega
  · rename_i f rest nothing todo
    obtain ⟨groups, sends⟩ := sorted_group rest grouped nothing f
    exact inv.gives here groups sends (count_group todo nothing _)
  · rename_i nothing done
    have flush (c : StackClass) : Inv cfg base (s.go p (.returning pushed (b.flush c))) :=
      inv.gives here (sorted_queue grouped fun x none => (by cases none)) (grouped c)
        (count_flush nothing c)
    split
    · exact flush .standard
    split
    · exact flush .deep
    · rename_i standard deep
      rw [not_not] at standard deep
      refine inv.returned here ?_
      unfold Returning.fibers
      rw [done, standard, deep, nothing]
      rfl

/-! ## Runs -/

theorem Inv.preserved {a : Label n} (inv : Inv cfg base s) (stepped : step cfg s a = some t) :
    Inv cfg base t := by
  cases a with
  | acquire p c =>
    obtain ⟨idle, moved⟩ := Option.ite_none_right_eq_some.mp stepped
    have here := idle_of_isIdle idle
    have good := inv.good p
    split at moved
    · rename_i empty
      cases moved
      refine inv.goes (good.goes (by rw [here]; rfl) (fun _ none => (by cases none))
        (fun c' same worker => ?_) (fun c' grown got same => ?_) fun _ _ _ none => (by cases none))
        (by rw [here]; rfl) (fun f => by rw [here]; rfl) (fun none => (by cases none))
        fun _ _ none => (by cases none)
      · cases same
        rcases empty with helper | none
        · rw [worker] at helper
          cases helper
        · exact none
      · cases same
        exact Nat.zero_le _
    · rename_i some
      cases moved
      have cuts : (s.worker p).activity.cuts = none := by rw [here]; rfl
      rw [not_or] at some
      refine inv.pop cuts some.2 (good.fits c) (fun f => ?_) fun f mem => ?_
      · rw [here]
        rfl
      · exact good.cached c f (by rw [cached_eq cuts]; exact mem)
  | dequeue p place =>
    simp only [step] at stepped
    split at stepped
    · rename_i c grown got here
      obtain ⟨more, moved⟩ := Option.ite_none_right_eq_some.mp stepped
      obtain ⟨f, found, rfl⟩ := Option.map_eq_some_iff.mp moved
      exact inv.dequeue here more found
    · cases stepped
  | dequeued p =>
    simp only [step] at stepped
    split at stepped
    · rename_i c grown got here
      split at stepped <;> cases stepped
      · rename_i dry
        refine inv.grows ?_ ⟨rfl, rfl, rfl⟩ (fun none => (by cases none))
          fun _ _ none => (by cases none)
        rw [here, dry.1]
        exact ⟨rfl, rfl, rfl⟩
      · exact inv.serve here
    · cases stepped
  | lock p =>
    simp only [step] at stepped
    split at stepped <;> cases stepped
    rename_i c here free
    exact inv.lock here free
  | look p some' =>
    simp only [step] at stepped
    split at stepped
    · rename_i c here
      rw [← apply_ite some] at stepped
      cases stepped
      exact inv.look here
    · cases stepped
  | build p made =>
    simp only [step] at stepped
    split at stepped
    · rename_i c m here
      obtain ⟨most, moved⟩ := Option.ite_none_left_eq_some.mp stepped
      split at moved <;> cases moved
      · exact inv.unlock (by rw [here]; rfl) (by rw [here]; exact ⟨rfl, rfl, rfl⟩)
      · exact inv.addBlock here (Nat.not_lt.mp most)
    · cases stepped
  | publish p =>
    simp only [step] at stepped
    split at stepped
    · rename_i c f rest here
      cases stepped
      have good := inv.good p
      have sorted := good.sorted
      rw [here] at sorted
      refine inv.enqueue (sorted f List.mem_cons_self) (good.goes (by rw [here]; rfl)
        (fun x mem => sorted x (List.mem_cons_of_mem f mem)) (fun c' same worker => ?_)
        (fun _ _ _ none => (by cases none)) fun _ _ _ none => (by cases none)) (by rw [here]; rfl)
        (fun x => ?_) (fun _ => inv.mutex p (by rw [here]; rfl)) fun _ _ none => (by cases none)
      · exact good.fills c' (by rw [here]; exact same) worker
      · rw [here]
        exact count_first f _ x
    · rename_i c here
      cases stepped
      exact inv.unlock (by rw [here]; rfl) (by rw [here]; exact ⟨rfl, rfl, rfl⟩)
    · cases stepped
  | release p k =>
    obtain ⟨idle, moved⟩ := Option.ite_none_right_eq_some.mp stepped
    obtain ⟨use, found, rfl⟩ := Option.map_eq_some_iff.mp moved
    exact inv.release (idle_of_isIdle idle) found
  | give p =>
    simp only [step] at stepped
    split at stepped <;> cases stepped
    rename_i pushed b here
    exact inv.give here

theorem started_fits (runtimeCapacity : Nat) : (Cache.start runtimeCapacity).Fits := by
  unfold Cache.start
  refine ⟨?_, ?_, Nat.zero_le _⟩ <;> dsimp only <;> unfold MaxCapacity <;> split <;> split <;> omega

theorem initial_inv (isHelper : Fin n → Bool) (runtimeCapacity : Fin n → Nat) (standard deep : Nat) :
    Inv cfg (standard * cfg.regionFor .standard + deep * cfg.regionFor .deep)
      (initial cfg isHelper runtimeCapacity standard deep) := by
  have count (a b f : Nat) : (List.range' a b).count f = if a ≤ f ∧ f < a + b then 1 else 0 := by
    rw [List.Nodup.count List.nodup_range']
    exact if_congr List.mem_range'_1 rfl rfl
  refine ⟨fun f => ?_, fun c f mem => ?_, fun p => ⟨fun _ => started_fits _, fun c f mem => ?_,
    trivial, fun _ none => (by cases none), fun _ _ _ none => (by cases none),
    fun _ _ _ none => (by cases none)⟩, fun _ none => (by cases none), fun _ none => (by cases none),
    fun _ _ _ none => (by cases none), fun _ => Nat.le_max_left _ _⟩
  · have loads : ∑ p : Fin n, ((initial cfg isHelper runtimeCapacity standard deep).worker p).load f =
        0 := Finset.sum_eq_zero fun p _ => rfl
    unfold State.places
    rw [loads]
    change (List.range' 0 standard).count f + (List.range' standard deep).count f + 0 + 0 =
      if f < standard + deep then 1 else 0
    rw [count, count]
    split <;> split <;> split <;> omega
  · cases c with
    | standard => exact if_pos (by have := (List.mem_range'_1.mp mem).2; omega)
    | deep => exact if_neg (by have := (List.mem_range'_1.mp mem).1; omega)
  · cases c <;> cases mem

/-- What the pool promises: every fiber made is in one place, free fibers are kept by their class,
those in use are of the class that was asked for, and the memory is bounded. -/
structure Conserved (cfg : Config) (base : Nat) (s : State n) : Prop where
  places : ∀ f, s.places f = if f < s.nextIndex then 1 else 0
  queue : ∀ c, ∀ f ∈ s.queue c, s.stackClass f = c
  cached : ∀ p c, ∀ f ∈ (s.worker p).cached c, s.stackClass f = c
  used : ∀ use ∈ s.inUse, s.stackClass use.fiber = use.asked
  single : (s.inUse.map Use.fiber).Nodup
  memory : cfg.memoryLimit ≠ 0 → s.committedBytes ≤ max base cfg.memoryLimit

/-- The pool keeps its promises in every run. -/
theorem fibers_conserved {isHelper : Fin n → Bool} {runtimeCapacity : Fin n → Nat}
    {standard deep : Nat} (reach : Reach (step cfg) anyStep
      (initial cfg isHelper runtimeCapacity standard deep) s) :
    Conserved cfg (initial cfg isHelper runtimeCapacity standard deep).committedBytes s := by
  have inv : Inv cfg (standard * cfg.regionFor .standard + deep * cfg.regionFor .deep) s :=
    reach.invariant (initial_inv isHelper runtimeCapacity standard deep)
      fun inv _ stepped => inv.preserved stepped
  refine ⟨inv.places, inv.queue, fun p => (inv.good p).cached, inv.used, ?_, inv.memory⟩
  refine List.nodup_iff_count_le_one.mpr fun f => ?_
  have places := inv.places f
  have most : (if f < s.nextIndex then 1 else 0) ≤ 1 := by split <;> omega
  unfold State.places at places
  omega

/-- A worker with caches of two and the helper share three standard fibers and a deep one.  The worker
takes three, the queue grows by two for the fourth, and it gives all back; the helper takes the deep
fiber. -/
def busyConfig : Config := ⟨4096, fun _ => 0, 64 * 1024 * 1024⟩

def busyStart : State 2 := initial busyConfig (fun p => p = 1) (fun _ => 2) 3 1

def busyLabels : List (Label 2) :=
  [.acquire 0 .standard, .dequeue 0 1, .dequeue 0 1, .dequeued 0, .acquire 0 .standard,
    .acquire 0 .standard, .dequeue 0 0, .dequeued 0, .acquire 0 .standard, .dequeued 0, .lock 0,
    .look 0 false, .build 0 2, .publish 0, .acquire 1 .deep, .publish 0, .publish 0, .dequeue 0 1,
    .dequeued 0, .dequeue 1 0, .dequeued 1, .release 0 1, .release 0 1, .release 0 1, .give 0,
    .give 0]

def busyRun : State 2 := (run (step busyConfig) anyStep busyStart busyLabels).getD busyStart

theorem busyRun_reach : Reach (step busyConfig) anyStep busyStart busyRun :=
  Reach.of_isSome busyLabels (by decide +kernel)

theorem busyRun_conserved : Conserved busyConfig busyStart.committedBytes busyRun ∧
    busyRun.inUse.length = 2 :=
  ⟨fibers_conserved busyRun_reach, by decide +kernel⟩

end JLibSched.Fibers
