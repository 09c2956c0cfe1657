import JLibSched.Slab.Conserved

/-!
# Pools one after another

A cache that was left over from an earlier pool is told by its stamp.  The stamp has 32 bits, so it
comes again with the `2 ^ 32`-th pool after.
-/

namespace JLibSched.Slab

open Links Division Transition

variable {n : Nat} {s t : State n} {p p' : Pool} {i : Fin n} {x : Slot}

structure Inv (s : State n) : Prop where
  /-- Without a pool nobody is in a call. -/
  calm : s.pool = none → ∀ i, (s.pc i).isCalm = true
  empty : ∀ i, (s.cache i).head = none → (s.cache i).count = 0
  handed : s.out.Nodup
  holds : ∀ p, s.pool = some p → p.number = s.pools ∧ ∃ lists, Holds s p lists

theorem Inv.of_holds (inv : Inv s) {lists : Place n → List Slot} (pool : t.pool = some p)
    (number : p.number = t.pools) (holds : Holds t p lists)
    (caches : ∀ j, t.cache j = s.cache j ∨
      (t.pc j).hasCache = true ∧ (t.cache j).gen = p.gen ∨ (t.cache j).count = 0) : Inv t where
  calm none := by
    rw [pool] at none
    cases none
  empty j head := by
    rcases caches j with same | ⟨has, stamp⟩ | zero
    · rw [same] at head ⊢
      exact inv.empty j head
    · obtain ⟨leads, count⟩ := (holds.cached j).attached has stamp
      rw [head] at leads
      cases here : lists (.cache j) with
      | nil => rw [count, here, List.length_nil]
      | cons y rest =>
        rw [here] at leads
        cases leads.1
    · exact zero
  handed := by
    rw [← holds.out]
    exact holds.divided.nodup holds.nodup
  holds q same := by
    rw [pool] at same
    cases same
    exact ⟨number, lists, holds⟩

/-! ## Calls -/

/-- A step of thread `i` leaves the other caches alone. -/
theorem caches_update {c : Cache} {place : Pc} {cache : Fin n → Cache} {pc : Fin n → Pc}
    (own : place.hasCache = true ∧ c.gen = p.gen ∨ c.count = 0) (j : Fin n) :
    Function.update cache i c j = cache j ∨
      (Function.update pc i place j).hasCache = true ∧
        (Function.update cache i c j).gen = p.gen ∨
      (Function.update cache i c j).count = 0 := by
  rcases eq_or_ne j i with rfl | other
  · simp only [Function.update_self]
    exact .inr own
  · exact .inl (Function.update_of_ne other _ _)

theorem Inv.alloc (inv : Inv s) (pool : s.pool = some p) (idle : s.pc i = .idle) :
    Inv (s.alloc p i) := by
  obtain ⟨number, lists, holds⟩ := inv.holds p pool
  obtain ⟨reset, stamp⟩ := holds.cacheOf idle
  unfold State.alloc
  dsimp only
  cases head : (s.cacheOf p i).head with
  | some x =>
    obtain ⟨-, -, lists', popped⟩ := reset.pop (x := x) idle (by simpa using stamp)
      (by simpa using head)
    have same : { s with cache := Function.update s.cache i (s.cacheOf p i) }.pop i
        (Function.update s.cache i (s.cacheOf p i) i) x = s.pop i (s.cacheOf p i) x := by
      simp [State.pop]
    exact inv.of_holds pool number (same ▸ popped) (caches_update (.inl ⟨rfl, stamp⟩))
  | none =>
    have hand := reset.hand i
    simp only [idle, Function.update_self] at hand
    dsimp only
    split
    · refine inv.of_holds pool number (show Holds _ p lists from ?_) (caches_update (.inl ⟨rfl, stamp⟩))
      have same : Function.update s.pc i .idle = s.pc := idle ▸ Function.update_eq_self i s.pc
      rw [same]
      exact reset
    · refine inv.of_holds pool number (show Holds _ p lists from ?_) (caches_update (.inl ⟨rfl, stamp⟩))
      refine reset.of_kept reset.divided reset.numbered rfl reset.out reset.unbumped reset.shared
        fun j => ?_
      rcases eq_or_ne j i with rfl | other
      · have cached := reset.cached j
        simp only [idle] at cached
        refine .inr ⟨?_, ?_⟩
        · simpa [Cached, Pc.hasCache] using cached
        · simpa [InHand] using ⟨hand, stamp⟩
      · exact .inl ⟨Function.update_of_ne other _ _, rfl, rfl, rfl, fun _ _ => rfl⟩

theorem Inv.free (inv : Inv s) (pool : s.pool = some p) (idle : s.pc i = .idle)
    (mem : x ∈ s.out) : ∃ t, s.free p i x = some t ∧ Inv t := by
  obtain ⟨number, lists, holds⟩ := inv.holds p pool
  obtain ⟨reset, stamp⟩ := holds.cacheOf idle
  obtain ⟨lists', pushed⟩ := reset.push (x := x) idle (by simpa using stamp) mem
  simp only [Function.update_self, Function.update_idem] at pushed
  unfold State.free
  dsimp only
  split
  · refine ⟨_, rfl, inv.of_holds pool number pushed fun j => ?_⟩
    rcases eq_or_ne j i with rfl | other
    · simp only [Function.update_self]
      exact .inr (.inl ⟨by rw [idle]; rfl, stamp⟩)
    · exact .inl (Function.update_of_ne other _ _)
  · rename_i full
    obtain ⟨y, walked, lists'', cut⟩ := pushed.cut (i := i) (x := x)
      (k := (s.cacheOf p i).count + 1 - BATCH) idle (by simpa using stamp) (by simp)
      (by unfold BATCH at *; omega) (by simp)
    simp only [Function.update_self, Function.update_idem] at walked cut
    have kept : (s.cacheOf p i).count + 1 - ((s.cacheOf p i).count + 1 - BATCH) = BATCH := by
      unfold BATCH at *
      omega
    rw [kept] at cut
    rw [walked]
    exact ⟨_, rfl, inv.of_holds pool number cut (caches_update (.inl ⟨rfl, stamp⟩))⟩

theorem Inv.advance (inv : Inv s) (pool : s.pool = some p) (room : Bool)
    (called : (s.pc i).isCalm = false) : ∃ t, advance s p i room = some t ∧ Inv t := by
  obtain ⟨number, lists, holds⟩ := inv.holds p pool
  have hand := holds.hand i
  unfold Slab.advance
  cases place : s.pc i with
  | absent | idle =>
    rw [place] at called
    cases called
  | refill =>
    dsimp only
    generalize result : p.refill s.growthEnabled room s.next = r
    obtain ⟨p', next', batch⟩ := r
    obtain ⟨same, lists', refilled⟩ := holds.refill place result
    exact ⟨_, rfl, inv.of_holds rfl (same.trans number) refilled fun _ => .inl rfl⟩
  | stitch batch =>
    rw [place] at hand
    obtain ⟨spans, moved, stamp⟩ := hand
    dsimp only
    unfold State.stitch
    dsimp only
    rcases spans with ⟨nothing, empty⟩ | ⟨y, last, run⟩
    · rw [empty]
      refine ⟨_, rfl, inv.of_holds pool number (holds.of_kept holds.divided holds.numbered rfl
        holds.out holds.unbumped holds.shared fun j => ?_) fun _ => .inl rfl⟩
      rcases eq_or_ne j i with rfl | other
      · have cached := holds.cached j
        rw [place] at cached
        refine .inr ⟨?_, ?_⟩
        · simpa [Cached, Pc.hasCache] using cached
        · simpa [InHand] using nothing
      · exact .inl ⟨Function.update_of_ne other _ _, rfl, rfl, rfl, fun _ _ => rfl⟩
    · obtain ⟨x, rest, head, -⟩ := run.starts
      rw [head, last]
      obtain ⟨-, lists', stitched⟩ := holds.stitch place head last
      obtain ⟨-, -, lists'', popped⟩ := stitched.pop (i := i) (x := x) (by simp)
        (by simpa using stamp) (by simp)
      simp only [State.pop, Function.update_self, Function.update_idem] at popped ⊢
      exact ⟨_, rfl, inv.of_holds pool number popped (caches_update (.inl ⟨rfl, stamp⟩))⟩
  | flush head tail =>
    rw [place] at hand
    have cached := holds.cached i
    rw [place] at cached
    obtain ⟨lists', back⟩ := holds.putBack (c := s.cache i) hand (show Pc.idle.isCalm = true from rfl)
      cached
    rw [Function.update_eq_self] at back
    exact ⟨_, rfl, inv.of_holds rfl number back fun _ => .inl rfl⟩
  | giveBack head tail =>
    rw [place] at hand
    have cached := holds.cached i
    rw [place] at cached
    have empty : lists (.cache i) = [] := by simpa [Cached, Pc.hasCache] using cached
    obtain ⟨lists', back⟩ := holds.putBack
      (c := { s.cache i with head := none, count := 0 }) hand
      (show Pc.absent.isCalm = true from rfl) (empty ▸ .detached rfl)
    exact ⟨_, rfl, inv.of_holds rfl number back (caches_update (.inr rfl))⟩

/-- A thread without a slot gets an empty cache, or has its own dropped. -/
theorem Inv.renew (inv : Inv s) {place : Pc} {c : Cache} (calm : place.isCalm = true)
    (head : c.head = none) (count : c.count = 0)
    (nothing : ∀ p lists, s.pool = some p → Holds s p lists →
      lists (.cache i) = [] ∧ lists (.hand i) = []) :
    Inv { s with
      cache := Function.update s.cache i c
      pc := Function.update s.pc i place } where
  calm none j := by
    rcases eq_or_ne j i with rfl | other
    · simpa using calm
    · simpa [other] using inv.calm none j
  empty j := by
    rcases eq_or_ne j i with rfl | other
    · simp [count]
    · simpa [other] using inv.empty j
  handed := inv.handed
  holds p pool := by
    obtain ⟨number, lists, holds⟩ := inv.holds p pool
    obtain ⟨cached, hand⟩ := nothing p lists pool holds
    exact ⟨number, lists, holds.renew cached hand calm head count⟩

theorem Inv.exit (inv : Inv s) (idle : s.pc i = .idle) : ∃ t, s.exit i = some t ∧ Inv t := by
  have dropped (nothing : ∀ p lists, s.pool = some p → Holds s p lists → lists (.cache i) = []) :
      ∃ t, some (s.drop i) = some t ∧ Inv t := by
    refine ⟨_, rfl, inv.renew rfl rfl rfl fun p lists pool holds => ?_⟩
    have hand := holds.hand i
    rw [idle] at hand
    exact ⟨nothing p lists pool holds, hand⟩
  unfold State.exit
  dsimp only
  cases head : (s.cache i).head with
  | none =>
    refine dropped fun p lists pool holds => ?_
    have cached := holds.cached i
    unfold Cached at cached
    split at cached
    · have leads := cached.1
      rw [head] at leads
      cases here : lists (.cache i) with
      | nil => rfl
      | cons y rest =>
        rw [here] at leads
        cases leads.1
    · exact cached
  | some x =>
    cases pool : s.pool with
    | none =>
      refine dropped fun p lists same _ => ?_
      rw [pool] at same
      cases same
    | some p =>
      dsimp only
      split
      · rename_i stamp
        obtain ⟨number, lists, holds⟩ := inv.holds p pool
        obtain ⟨y, walked, lists', gathered⟩ := holds.gather idle stamp.1.symm head stamp.2
        rw [walked]
        rw [pool] at gathered
        exact ⟨_, rfl, inv.of_holds rfl number gathered fun _ => .inl rfl⟩
      · rename_i foreign
        refine dropped fun q lists same holds => ?_
        rw [pool] at same
        cases same
        have cached := holds.cached i
        unfold Cached at cached
        split at cached
        · rename_i attached
          refine List.eq_nil_of_length_eq_zero ?_
          rw [← cached.2]
          by_contra positive
          exact foreign ⟨attached.2.symm, positive⟩
        · exact cached

/-! ## Runs -/

theorem Inv.construct (inv : Inv s) {slots : Nat} {lazy : Bool}
    (apart : stampsApart s (.construct slots lazy))
    (stepped : step s (.construct slots lazy) = some t) : Inv t := by
  obtain ⟨none, moved⟩ := Option.ite_none_right_eq_some.mp stepped
  have caches (j : Fin n) : s.pc j = .absent ∨ (s.cache j).gen ≠ s.generation + 1 ∨
      (s.cache j).head = Option.none ∧ (s.cache j).count = 0 :=
    (apart j).imp_right fun stamp => stamp.imp_right fun head => ⟨head, inv.empty j head⟩
  have built : Holds { s with
      generation := s.generation + 1
      pools := s.pools + 1
      pool := some ⟨s.pools + 1, s.generation + 1, ⟨0, slots, 0⟩, [], Option.none⟩
      out := [] } _ _ :=
    Holds.built (s.pools + 1) slots (inv.calm none) rfl caches
  cases lazy with
  | true =>
    cases moved
    exact inv.of_holds rfl rfl built fun _ => .inl rfl
  | false =>
    cases moved
    obtain ⟨number, lists, filled⟩ := built.prefault slots
    exact inv.of_holds rfl number filled fun _ => .inl rfl

theorem Inv.preserved (inv : Inv s) {a : Label n} (apart : stampsApart s a)
    (stepped : step s a = some t) : Inv t := by
  cases a with
  | construct slots lazy => exact inv.construct apart stepped
  | destroy =>
    obtain ⟨⟨-, calm⟩, moved⟩ := Option.ite_none_right_eq_some.mp stepped
    cases moved
    exact ⟨fun _ => calm, inv.empty, inv.handed, fun p absurd => by cases absurd⟩
  | prefault slots =>
    obtain ⟨p, pool, moved⟩ := Option.map_eq_some_iff.mp stepped
    cases moved
    obtain ⟨number, lists, holds⟩ := inv.holds p pool
    obtain ⟨same, lists', filled⟩ := holds.prefault slots
    exact inv.of_holds rfl (same.trans number) filled fun _ => .inl rfl
  | enableGrowth on =>
    cases stepped
    refine ⟨inv.calm, inv.empty, inv.handed, fun p pool => ?_⟩
    obtain ⟨number, lists, holds⟩ := inv.holds p pool
    exact ⟨number, lists, holds.divided, holds.numbered, holds.out, holds.unbumped, holds.shared,
      holds.cached, holds.hand⟩
  | start i =>
    obtain ⟨absent, moved⟩ := Option.ite_none_right_eq_some.mp stepped
    cases moved
    refine inv.renew rfl rfl rfl fun p lists _ holds => ?_
    have cached := holds.cached i
    have hand := holds.hand i
    rw [absent] at cached hand
    exact ⟨by simpa [Cached, Pc.hasCache] using cached, hand⟩
  | alloc i =>
    obtain ⟨idle, moved⟩ := Option.ite_none_right_eq_some.mp stepped
    obtain ⟨p, pool, moved⟩ := Option.map_eq_some_iff.mp moved
    cases moved
    exact inv.alloc pool idle
  | free i x =>
    obtain ⟨⟨idle, mem⟩, moved⟩ := Option.ite_none_right_eq_some.mp stepped
    obtain ⟨p, pool, moved⟩ := Option.bind_eq_some_iff.mp moved
    obtain ⟨u, same, kept⟩ := inv.free pool idle mem
    rw [moved] at same
    cases same
    exact kept
  | step i room =>
    obtain ⟨p, pool, moved⟩ := Option.bind_eq_some_iff.mp stepped
    have called : (s.pc i).isCalm = false := by
      unfold Slab.advance at moved
      cases place : s.pc i with
      | absent | idle => simp [place] at moved
      | refill | stitch batch | flush head tail | giveBack head tail => rfl
    obtain ⟨u, same, kept⟩ := inv.advance pool room called
    rw [moved] at same
    cases same
    exact kept
  | exit i =>
    obtain ⟨⟨idle, -⟩, moved⟩ := Option.ite_none_right_eq_some.mp stepped
    obtain ⟨u, same, kept⟩ := inv.exit idle
    rw [moved] at same
    cases same
    exact kept
  | write x value =>
    obtain ⟨writable, moved⟩ := Option.ite_none_right_eq_some.mp stepped
    cases moved
    refine ⟨inv.calm, inv.empty, inv.handed, fun p pool => ?_⟩
    obtain ⟨number, lists, holds⟩ := inv.holds p pool
    refine ⟨number, lists, holds.write ?_⟩
    have pool : s.pool = some p := pool
    unfold State.writable at writable
    rw [pool] at writable
    simpa using writable

theorem inv_initial : Inv (initial : State n) :=
  ⟨fun _ _ => rfl, fun _ _ => rfl, List.nodup_nil, fun p absurd => by cases absurd⟩

theorem Inv.of_reach (reach : Reach step stampsApart initial s) : Inv s :=
  reach.invariant inv_initial fun inv apart stepped => inv.preserved apart stepped

/-- `Capacity`. -/
def Pool.Capacity (p : Pool) : Nat := ((p.mem :: p.extents).map Extent.slots).sum

theorem length_all : p.all.length = p.Capacity := by
  unfold Pool.all allOf Pool.Capacity
  rw [List.length_flatMap]
  congr 1
  exact List.map_congr_left fun e _ => by simp [Extent.all]

/-- With no thread left and nothing handed out, all slots are shared or not yet bumped. -/
theorem Holds.all_home {lists : Place n → List Slot} (holds : Holds s p lists)
    (ended : ∀ i, s.pc i = .absent) (freed : s.out = []) :
    (lists .shared).length + p.unbumped.length = p.Capacity := by
  rw [← holds.unbumped, ← length_all]
  refine holds.divided.length (by simp) fun a shared unbumped => ?_
  cases a with
  | out => exact holds.out.trans freed
  | cache i =>
    have cached := holds.cached i
    rw [ended i] at cached
    simpa [Cached, Pc.hasCache] using cached
  | hand i =>
    have hand := holds.hand i
    rw [ended i] at hand
    exact hand
  | shared => exact absurd rfl shared
  | unbumped => exact absurd rfl unbumped

/-- No call is stuck at a null link. -/
theorem Inv.goes_on (inv : Inv s) :
    (∀ i room, (s.pc i).isCalm = false → (step s (.step i room)).isSome) ∧
    (∀ i x, s.pool.isSome → s.pc i = .idle → x ∈ s.out →
      (step s (.free i x)).isSome) ∧
    ∀ i, s.pc i = .idle → (∀ j, (s.pc j).isGiveBack = false) →
      (step s (.exit i)).isSome := by
  refine ⟨fun i room called => ?_, fun i x some idle mem => ?_, fun i idle others => ?_⟩
  · cases pool : s.pool with
    | none =>
      rw [inv.calm pool i] at called
      cases called
    | some p =>
      obtain ⟨t, moved, -⟩ := inv.advance pool room called
      simp [step, pool, moved]
  · obtain ⟨p, pool⟩ := Option.isSome_iff_exists.mp some
    obtain ⟨t, moved, -⟩ := inv.free pool idle mem
    simp [step, pool, idle, mem, moved]
  · obtain ⟨t, moved, -⟩ := inv.exit idle
    simp only [step]
    rw [if_pos ⟨idle, others⟩, moved]
    rfl

/-- What is said of a pool and its slots. -/
structure Conserved (s : State n) : Prop where
  /-- Every slot stands in one place, once, and the lists are those of `Holds`. -/
  places : ∀ p, s.pool = some p → p.number = s.pools ∧ ∃ lists, Holds s p lists ∧
    (∀ x ∈ p.all, ∃! a, x ∈ lists a) ∧
    (∀ a, (lists a).Nodup ∧ ∀ x ∈ lists a, x ∈ p.all) ∧
    ((∀ i, s.pc i = .absent) → s.out = [] →
      (lists .shared).length + p.unbumped.length = p.Capacity)
  /-- What a step hands out was not handed out, and is a slot of the pool. -/
  handed : ∀ a t x, stampsApart s a → step s a = some t → t.out = x :: s.out →
    x ∉ s.out ∧ ∀ p, t.pool = some p → x ∈ p.all
  /-- No call is stuck. -/
  goes_on : (∀ i room, (s.pc i).isCalm = false → (step s (.step i room)).isSome) ∧
    (∀ i x, s.pool.isSome → s.pc i = .idle → x ∈ s.out → (step s (.free i x)).isSome) ∧
    ∀ i, s.pc i = .idle → (∀ j, (s.pc j).isGiveBack = false) → (step s (.exit i)).isSome

/-- In every run in which no pool is built with the stamp of a cache that is left over, the slots
are conserved. -/
theorem slots_conserved (reach : Reach step stampsApart initial s) : Conserved s := by
  have inv := Inv.of_reach reach
  refine ⟨fun p pool => ?_, fun a t x apart stepped handed => ?_, inv.goes_on⟩
  · obtain ⟨number, lists, holds⟩ := inv.holds p pool
    exact ⟨number, lists, holds, fun x mem => holds.divided.existsUnique holds.nodup mem,
      fun a => ⟨holds.divided.nodup holds.nodup, fun x mem => holds.divided.mem mem⟩,
      holds.all_home⟩
  · have after := inv.preserved apart stepped
    have nodup := after.handed
    rw [handed] at nodup
    refine ⟨(List.nodup_cons.mp nodup).1, fun p pool => ?_⟩
    obtain ⟨-, lists, holds⟩ := after.holds p pool
    refine holds.divided.mem (i := .out) ?_
    rw [holds.out, handed]
    exact List.mem_cons_self

/-- Thread 0 takes both slots of the slab, and the pool grows for thread 1. -/
def growingLabels : List (Label 2) :=
  [.construct 2 false, .start 0, .start 1, .alloc 0, .step 0 true, .step 0 true, .alloc 1,
    .step 1 true]

def growingAt : State 2 := (run step stampsApart initial growingLabels).getD initial

/-- One slot is handed out, one is on the cache of thread 0, and thread 1 has a batch in hand. -/
theorem growingAt_conserved :
    growingAt.out = [⟨1, 0, 1⟩] ∧ (growingAt.cache 0).count = 1 ∧
    (growingAt.pool.map fun p => p.extents) = some [⟨1, 4096, 32⟩] ∧ Conserved growingAt :=
  ⟨by decide +kernel, by decide +kernel, by decide +kernel,
    slots_conserved (Reach.of_isSome growingLabels (by decide +kernel))⟩

/-! ## The stamp comes again -/

theorem step_construct (s : State n) (none : s.pool = none) (slots : Nat) :
    step s (.construct slots true) = some { s with
      generation := s.generation + 1
      pools := s.pools + 1
      pool := some ⟨s.pools + 1, s.generation + 1, ⟨0, slots, 0⟩, [], Option.none⟩
      out := [] } := by
  simp only [step]
  rw [if_pos none]
  rfl

/-- The state after so many pools that nobody has used. -/
def State.later (s : State n) (k : Nat) : State n :=
  { s with generation := s.generation + UInt32.ofNat k, pools := s.pools + k }

/-- Pools come and go, and nobody touches the caches. -/
theorem pools_pass (none : s.pool = none) (calm : ∀ i, (s.pc i).isCalm = true) (out : s.out = [])
    (k : Nat) : Reach step anyStep s (s.later k) := by
  induction k with
  | zero =>
    have same : s.later 0 = s := by
      unfold State.later
      rw [show UInt32.ofNat 0 = 0 from rfl, UInt32.add_zero]
      rfl
    rw [same]
    exact .start
  | succ k ih =>
    have built := ih.next (a := .construct 0 true) trivial (step_construct (s.later k) none 0)
    refine built.next (a := .destroy) trivial ?_
    simp only [step]
    rw [if_pos ⟨rfl, calm⟩]
    unfold State.later
    rw [UInt32.ofNat_add, ← UInt32.add_assoc]
    simp [none, out, Nat.add_assoc]

/-- Thread 0 keeps a slot of the first pool in its cache. -/
def leftoverLabels : List (Label 1) :=
  [.construct 1 false, .start 0, .alloc 0, .step 0 true, .step 0 true, .free 0 ⟨1, 0, 0⟩, .destroy]

def leftover : State 1 := (run step anyStep initial leftoverLabels).getD initial

/-- The `2 ^ 32`-th pool after the first has its stamp, and a slot of the first is handed out. -/
theorem stamp_comes_again :
    ¬ ∀ s : State 1, Reach step anyStep initial s → ∀ t x p, step s (.alloc 0) = some t →
      t.out = x :: s.out → s.pool = some p → x ∈ p.all := by
  intro claim
  have kept : Reach step anyStep initial leftover :=
    Reach.of_isSome leftoverLabels (by decide +kernel)
  have none : leftover.pool = none := by decide +kernel
  have passed := pools_pass none (by decide +kernel) (by decide +kernel) (2 ^ 32 - 1)
  have built := (kept.trans passed).next (a := .construct 1 true) trivial
    (step_construct (leftover.later (2 ^ 32 - 1)) none 1)
  have mem := claim _ built _ ⟨1, 0, 0⟩ _ rfl rfl rfl
  have number := mem_all_pool mem
  revert number
  decide +kernel

end JLibSched.Slab
