import JLibSched.Slab.Sections
import Mathlib.Tactic.DeriveFintype

/-!
# No slot is lost or handed out twice

`Holds` ties the pool to a division of its slots among places: handed out, on the list of a cache, in
the hands of a call between its cache and the shared list, on the shared list, or not yet bumped.  A
cache with another stamp than the pool has no part in it.
-/

namespace JLibSched.Slab

open Links Division Transition

variable {n : Nat} {s t : State n} {p p' : Pool} {i : Fin n} {x : Slot} {l : List Slot}
  {next next' : Next} {pc : Pc} {c : Cache} {gen : UInt32}

inductive Place (n : Nat) where
  | out
  | cache (i : Fin n)
  | hand (i : Fin n)
  | shared
  | unbumped
deriving DecidableEq, Fintype

/-- The thread has a cache, that no call is giving back. -/
def Pc.hasCache : Pc → Bool
  | .absent | .giveBack .. => false
  | _ => true

/-- The slots on the list of a cache. -/
def Cached (next : Next) (gen : UInt32) (pc : Pc) (c : Cache) (l : List Slot) : Prop :=
  if pc.hasCache = true ∧ c.gen = gen then Leads next c.head l none ∧ c.count = l.length else l = []

/-- The slots that a call has in hand. -/
def InHand (next : Next) (gen : UInt32) (c : Cache) (l : List Slot) : Pc → Prop
  | .absent | .idle => l = []
  | .refill => l = [] ∧ c.gen = gen
  | .stitch batch => batch.Spans next l ∧ batch.moved = l.length ∧ c.gen = gen
  | .flush head tail | .giveBack head tail => Run next (some head) l tail

structure Holds (s : State n) (p : Pool) (lists : Place n → List Slot) : Prop where
  divided : Divided p.all lists
  numbered : p.Numbered
  out : lists .out = s.out
  unbumped : lists .unbumped = p.unbumped
  shared : Leads s.next p.sharedHead (lists .shared) none
  cached : ∀ i, Cached s.next p.gen (s.pc i) (s.cache i) (lists (.cache i))
  hand : ∀ i, InHand s.next p.gen (s.cache i) (lists (.hand i)) (s.pc i)

variable {lists lists' : Place n → List Slot}

/-! ## Frames -/

theorem Cached.congr (cached : Cached next gen pc c l) (same : ∀ x ∈ l, next' x = next x) :
    Cached next' gen pc c l := by
  unfold Cached at cached ⊢
  split
  · rename_i attached
    rw [if_pos attached] at cached
    exact ⟨cached.1.congr same, cached.2⟩
  · rename_i detached
    rw [if_neg detached] at cached
    exact cached

theorem Batch.Spans.congr {batch : Batch} (spans : batch.Spans next l)
    (same : ∀ x ∈ l, next' x = next x) : batch.Spans next' l :=
  spans.imp_right fun ⟨y, tail, run⟩ => ⟨y, tail, run.congr same⟩

theorem InHand.congr (hand : InHand next gen c l pc) (same : ∀ x ∈ l, next' x = next x) :
    InHand next' gen c l pc := by
  cases pc with
  | absent | idle | refill => exact hand
  | stitch batch => exact ⟨hand.1.congr same, hand.2⟩
  | flush head tail | giveBack head tail => exact Run.congr hand same

/-- A step does nothing to thread `j`. -/
structure Kept (s t : State n) (lists lists' : Place n → List Slot) (j : Fin n) : Prop where
  pc : t.pc j = s.pc j
  cache : t.cache j = s.cache j
  cached : lists' (.cache j) = lists (.cache j)
  hand : lists' (.hand j) = lists (.hand j)
  links : ∀ x, x ∈ lists (.cache j) ∨ x ∈ lists (.hand j) → t.next x = s.next x

theorem Holds.of_kept (holds : Holds s p lists) (divided : Divided p'.all lists')
    (numbered : p'.Numbered) (gen : p'.gen = p.gen) (out : lists' .out = t.out)
    (unbumped : lists' .unbumped = p'.unbumped)
    (shared : Leads t.next p'.sharedHead (lists' .shared) none)
    (threads : ∀ j, Kept s t lists lists' j ∨
      Cached t.next p.gen (t.pc j) (t.cache j) (lists' (.cache j)) ∧
      InHand t.next p.gen (t.cache j) (lists' (.hand j)) (t.pc j)) : Holds t p' lists' where
  divided := divided
  numbered := numbered
  out := out
  unbumped := unbumped
  shared := shared
  cached j := by
    rw [gen]
    rcases threads j with kept | own
    · rw [kept.pc, kept.cache, kept.cached]
      exact (holds.cached j).congr fun x mem => kept.links x (.inl mem)
    · exact own.1
  hand j := by
    rw [gen]
    rcases threads j with kept | own
    · rw [kept.pc, kept.cache, kept.hand]
      exact (holds.hand j).congr fun x mem => kept.links x (.inr mem)
    · exact own.2

theorem Holds.nodup (holds : Holds s p lists) : p.all.Nodup := holds.numbered.nodup

theorem Holds.apart (holds : Holds s p lists) {a b : Place n} (other : a ≠ b) (mem : x ∈ lists a) :
    x ∉ lists b :=
  holds.divided.apart holds.nodup other mem

/-- A cache of the pool. -/
theorem Cached.attached (cached : Cached next gen pc c l) (has : pc.hasCache = true)
    (stamp : c.gen = gen) : Leads next c.head l none ∧ c.count = l.length := by
  unfold Cached at cached
  rw [if_pos ⟨has, stamp⟩] at cached
  exact cached

theorem Cached.of_attached (leads : Leads next c.head l none) (count : c.count = l.length)
    (has : pc.hasCache = true) (stamp : c.gen = gen) : Cached next gen pc c l := by
  unfold Cached
  rw [if_pos ⟨has, stamp⟩]
  exact ⟨leads, count⟩

theorem Cached.of_empty (head : c.head = none) (count : c.count = 0) : Cached next gen pc c [] := by
  unfold Cached
  split
  · exact ⟨head, count⟩
  · rfl

theorem Cached.detached (has : pc.hasCache = false) : Cached next gen pc c [] := by
  unfold Cached
  rw [if_neg]
  rintro ⟨also, -⟩
  rw [has] at also
  cases also

/-! ## What a thread does to its cache -/

/-- `cache()` leaves a cache of the pool, with the slots it had there. -/
theorem Holds.cacheOf (holds : Holds s p lists) (idle : s.pc i = .idle) :
    Holds { s with cache := Function.update s.cache i (s.cacheOf p i) } p lists ∧
      (s.cacheOf p i).gen = p.gen := by
  have stamp : (s.cacheOf p i).gen = p.gen := by
    unfold State.cacheOf
    split
    · assumption
    · rfl
  refine ⟨holds.of_kept holds.divided holds.numbered rfl holds.out holds.unbumped holds.shared
    fun j => ?_, stamp⟩
  rcases eq_or_ne j i with rfl | other
  · have cached := holds.cached j
    have hand := holds.hand j
    rw [idle] at hand
    simp only [Function.update_self]
    refine .inr ⟨?_, by rw [idle]; exact hand⟩
    unfold State.cacheOf
    split
    · exact cached
    · rename_i stale
      unfold Cached at cached
      rw [if_neg fun attached => stale attached.2] at cached
      rw [cached]
      exact .of_empty rfl rfl
  · exact .inl ⟨rfl, Function.update_of_ne other _ _, rfl, rfl, fun _ _ => rfl⟩

/-- A slot is handed out. -/
theorem Holds.pop (holds : Holds s p lists) (idle : s.pc i = .idle) (stamp : (s.cache i).gen = p.gen)
    (head : (s.cache i).head = some x) :
    x ∈ p.all ∧ x ∉ s.out ∧ ∃ lists', Holds (s.pop i (s.cache i) x) p lists' := by
  obtain ⟨leads, count⟩ := (holds.cached i).attached (by rw [idle]; rfl) stamp
  have empty := holds.hand i
  rw [idle] at empty
  cases here : lists (.cache i) with
  | nil =>
    rw [here, head] at leads
    cases leads
  | cons y rest =>
    rw [here, head] at leads
    obtain ⟨same, rest_leads⟩ := leads
    obtain rfl := Option.some.inj same
    have mem : x ∈ lists (.cache i) := by
      rw [here]
      exact List.mem_cons_self
    refine ⟨holds.divided.mem mem, ?_, Function.update
      (Function.update lists (.cache i) rest) .out (x :: s.out), ?_⟩
    · rw [← holds.out]
      exact holds.apart (by simp) mem
    · refine holds.of_kept (holds.divided.move (by simp) [x] rest (x :: s.out) (fun y => ?_)
        fun y => ?_) holds.numbered rfl (by simp [State.pop]) (by simp [holds.unbumped])
        (by simpa [State.pop] using holds.shared) fun j => ?_
      · rw [here, ← List.count_append]
        rfl
      · rw [holds.out, ← List.count_append]
        rfl
      · rcases eq_or_ne j i with rfl | other
        · refine .inr ⟨.of_attached ?_ ?_ ?_ ?_, ?_⟩
          · simpa [State.pop] using rest_leads
          · rw [here] at count
            simp [State.pop, count]
          · simp [State.pop, Pc.hasCache]
          · simpa [State.pop] using stamp
          · simpa [State.pop, InHand] using empty
        · refine .inl ⟨?_, ?_, ?_, ?_, fun _ _ => rfl⟩ <;> simp [State.pop, other]

/-- A slot is freed. -/
theorem Holds.push (holds : Holds s p lists) (idle : s.pc i = .idle)
    (stamp : (s.cache i).gen = p.gen) (mem : x ∈ s.out) :
    ∃ lists', Holds { s with
      next := Function.update s.next x (s.cache i).head
      cache := Function.update s.cache i { s.cache i with
        head := some x, count := (s.cache i).count + 1 }
      out := s.out.erase x } p lists' := by
  obtain ⟨leads, count⟩ := (holds.cached i).attached (by rw [idle]; rfl) stamp
  have empty := holds.hand i
  rw [idle] at empty
  have handed : x ∈ lists .out := by
    rw [holds.out]
    exact mem
  have kept {place : Place n} (other : Place.out ≠ place) :
      ∀ y ∈ lists place, Function.update s.next x (s.cache i).head y = s.next y := by
    intro y here
    refine Function.update_of_ne ?_ _ _
    rintro rfl
    exact holds.apart other handed here
  refine ⟨Function.update (Function.update lists .out (s.out.erase x)) (.cache i)
    (x :: lists (.cache i)), holds.of_kept (holds.divided.move (by simp) [x] (s.out.erase x)
      (x :: lists (.cache i)) (fun y => ?_) fun y => ?_) holds.numbered rfl (by simp)
      (by simp [holds.unbumped]) ?_ fun j => ?_⟩
  · rw [holds.out, ← List.count_append]
    exact (List.perm_cons_erase mem).count_eq y
  · rw [← List.count_append]
    rfl
  · simpa using holds.shared.congr (kept (by simp))
  · rcases eq_or_ne j i with rfl | other
    · refine .inr ⟨.of_attached ?_ ?_ ?_ ?_, ?_⟩
      · simpa using leads.push (holds.apart (by simp) handed)
      · simp [count]
      · rw [idle]
        rfl
      · simpa using stamp
      · simpa [idle, InHand] using empty
    · refine .inl ⟨rfl, ?_, ?_, ?_, fun y here => ?_⟩
      · simp [other]
      · simp [other]
      · simp
      · exact here.elim (kept (by simp) y) (kept (by simp) y)

/-- `flush` takes a batch off the cache. -/
theorem Holds.cut (holds : Holds s p lists) (idle : s.pc i = .idle)
    (stamp : (s.cache i).gen = p.gen) (head : (s.cache i).head = some x) {k : Nat} (positive : 0 < k)
    (enough : k ≤ (s.cache i).count) :
    ∃ y, walk s.next (k - 1) x = some y ∧ ∃ lists', Holds { s with
      cache := Function.update s.cache i { s.cache i with
        head := s.next y, count := (s.cache i).count - k }
      pc := Function.update s.pc i (.flush x y) } p lists' := by
  obtain ⟨leads, count⟩ := (holds.cached i).attached (by rw [idle]; rfl) stamp
  have empty := holds.hand i
  rw [idle] at empty
  rw [count] at enough
  obtain ⟨y, run, rest⟩ := leads_split leads positive enough
  rw [head] at run
  refine ⟨y, walk_run run (by rw [List.length_take]; omega), Function.update
    (Function.update lists (.cache i) ((lists (.cache i)).drop k)) (.hand i)
    ((lists (.cache i)).take k), holds.of_kept (holds.divided.move (by simp)
      ((lists (.cache i)).take k) _ _ (fun z => ?_) fun z => ?_) holds.numbered rfl
      (by simp [holds.out]) (by simp [holds.unbumped]) (by simpa using holds.shared) fun j => ?_⟩
  · rw [← List.count_append, List.take_append_drop]
  · rw [show lists (.hand i) = [] from empty, List.count_nil, Nat.add_zero]
  · rcases eq_or_ne j i with rfl | other
    · refine .inr ⟨.of_attached ?_ ?_ ?_ ?_, ?_⟩
      · simpa using rest
      · simp [count]
      · simp [Pc.hasCache]
      · simpa using stamp
      · simpa [InHand] using run
    · refine .inl ⟨?_, ?_, ?_, ?_, fun _ _ => rfl⟩ <;> simp [other]

/-- `refill` puts its batch on the cache. -/
theorem Holds.stitch (holds : Holds s p lists) {batch : Batch} (place : s.pc i = .stitch batch)
    {tail : Slot} (head : batch.head = some x) (last : batch.tail = some tail) :
    (s.cache i).gen = p.gen ∧ ∃ lists', Holds { s with
      next := Function.update s.next tail (s.cache i).head
      cache := Function.update s.cache i { s.cache i with
        head := some x, count := (s.cache i).count + batch.moved }
      pc := Function.update s.pc i .idle } p lists' := by
  have hand := holds.hand i
  rw [place] at hand
  obtain ⟨spans, moved, stamp⟩ := hand
  obtain ⟨leads, count⟩ := (holds.cached i).attached (by rw [place]; rfl) stamp
  obtain ⟨-, absurd⟩ | ⟨y, same, run⟩ := spans
  · rw [head] at absurd
    cases absurd
  rw [last] at same
  obtain rfl := Option.some.inj same
  have held := run.mem
  have kept {place : Place n} (other : Place.hand i ≠ place) :
      ∀ y ∈ lists place, Function.update s.next tail (s.cache i).head y = s.next y := by
    intro y here
    refine Function.update_of_ne ?_ _ _
    rintro rfl
    exact holds.apart other held here
  refine ⟨stamp, Function.update (Function.update lists (.hand i) []) (.cache i)
    (lists (.hand i) ++ lists (.cache i)), holds.of_kept (holds.divided.move (by simp)
      (lists (.hand i)) [] _ (fun z => ?_) fun z => ?_) holds.numbered rfl (by simp [holds.out])
      (by simp [holds.unbumped]) ?_ fun j => ?_⟩
  · rw [List.count_nil, Nat.add_zero]
  · rw [List.count_append]
  · simpa using holds.shared.congr (kept (by simp))
  · rcases eq_or_ne j i with rfl | other
    · refine .inr ⟨.of_attached ?_ ?_ ?_ ?_, ?_⟩
      · rw [head] at run
        have spliced := run.splice leads (holds.divided.nodup holds.nodup)
          (holds.apart (by simp) held)
        simpa using spliced
      · simp only [Function.update_self, List.length_append]
        omega
      · simp [Pc.hasCache]
      · simpa using stamp
      · simp [InHand]
    · refine .inl ⟨?_, ?_, ?_, ?_, fun y here => ?_⟩
      · simp [other]
      · simp [other]
      · simp [other]
      · simp [other]
      · exact here.elim (kept (by simp) y) (kept (by simpa using other.symm) y)

/-! ## Sections -/

/-- What is taken for the first time was nowhere else. -/
theorem Holds.fresh (holds : Holds s p lists) {new extra : List Slot} (grown : Grown p p' new extra)
    (mem : x ∈ new) {place : Place n} (other : Place.unbumped ≠ place) : x ∉ lists place := by
  intro here
  have inside := holds.divided.mem here
  have unbumped := grown.unbumped x
  have all := grown.all x
  have once := List.nodup_iff_count_le_one.mp (grown.numbered holds.numbered).nodup x
  have some := List.count_pos_iff.mpr mem
  have old := List.count_pos_iff.mpr inside
  refine holds.apart other.symm here ?_
  rw [holds.unbumped]
  exact List.count_pos_iff.mp (by omega)

/-- The slots that are taken for the first time go to a place. -/
theorem Holds.take (holds : Holds s p lists) {new extra : List Slot} (grown : Grown p p' new extra)
    (place : Place n) (other : Place.unbumped ≠ place) :
    Divided p'.all (Function.update (Function.update lists .unbumped p'.unbumped) place
      (new ++ lists place)) := by
  have larger := holds.divided.grow (i := .unbumped) extra (extra ++ p.unbumped) grown.all
    fun y => by rw [List.count_append, holds.unbumped]
  have moved := larger.move other new p'.unbumped (new ++ lists place) (fun y => ?_) fun y => ?_
  · rwa [Function.update_idem] at moved
  · rw [Function.update_self, List.count_append]
    have unbumped := grown.unbumped y
    omega
  · rw [Function.update_of_ne other.symm, List.count_append]

theorem Holds.refill (holds : Holds s p lists) (place : s.pc i = .refill) {room : Bool}
    {batch : Batch} (refilled : p.refill s.growthEnabled room s.next = (p', next', batch)) :
    p'.number = p.number ∧ ∃ lists', Holds { s with
      pool := some p'
      next := next'
      pc := Function.update s.pc i (.stitch batch) } p' lists' := by
  obtain ⟨front, back, new, extra, split, result⟩ := refill_spec s.growthEnabled room
    holds.shared fun y mem => holds.apart (by simp) (holds.unbumped ▸ mem)
  rw [refilled] at result
  have hand := holds.hand i
  rw [place] at hand
  obtain ⟨empty, stamp⟩ := hand
  have kept {a : Place n} (other : Place.unbumped ≠ a) : ∀ y ∈ lists a, next' y = s.next y :=
    fun y here => result.links y fun mem => holds.fresh result.grown mem other here
  have first := holds.take result.grown (.hand i) (by simp)
  have second := first.move (i := .shared) (j := .hand i) (by simp) front back (new ++ front)
    (fun y => ?_) fun y => ?_
  · refine ⟨result.grown.number, _, holds.of_kept second (result.grown.numbered holds.numbered) result.grown.gen
      (by simp [holds.out]) (by simp) ?_ fun j => ?_⟩
    · have shared := result.shared.congr fun y mem =>
        kept (a := .shared) (by simp) y (split ▸ List.mem_append_right _ mem)
      simpa using shared
    · rcases eq_or_ne j i with rfl | other
      · refine .inr ⟨?_, ?_⟩
        · have cached := (holds.cached j).congr (kept (by simp))
          rw [place] at cached
          simpa [Cached, Pc.hasCache] using cached
        · simpa [InHand] using ⟨result.spans, by simpa using result.moved, stamp⟩
      · refine .inl ⟨?_, ?_, ?_, ?_, fun y here => ?_⟩
        · simp [other]
        · rfl
        · simp
        · simp [other]
        · exact here.elim (kept (by simp) y) (kept (by simp) y)
  · simp [split]
  · simp [empty, Nat.add_comm]

theorem InHand.of_calm {place : Pc} (calm : place.isCalm = true) : InHand next gen c [] place := by
  cases place with
  | absent | idle => rfl
  | refill | stitch batch | flush head tail | giveBack head tail => cases calm

/-- The batch that a thread has in hand is put on the shared list. -/
theorem Holds.putBack (holds : Holds s p lists) {head tail : Slot} {place : Pc} {c : Cache}
    (run : Run s.next (some head) (lists (.hand i)) tail) (calm : place.isCalm = true)
    (cached : Cached s.next p.gen place c (lists (.cache i))) :
    ∃ lists', Holds { s with
      pool := some (p.putBack head tail s.next).1
      next := (p.putBack head tail s.next).2
      cache := Function.update s.cache i c
      pc := Function.update s.pc i place } (p.putBack head tail s.next).1 lists' := by
  have held := run.mem
  have kept {a : Place n} (other : Place.hand i ≠ a) :
      ∀ y ∈ lists a, (p.putBack head tail s.next).2 y = s.next y := by
    intro y here
    refine Function.update_of_ne ?_ _ _
    rintro rfl
    exact holds.apart other held here
  refine ⟨Function.update (Function.update lists (.hand i) []) .shared
    (lists (.hand i) ++ lists .shared), holds.of_kept (holds.divided.move (by simp)
      (lists (.hand i)) [] _ (fun y => ?_) fun y => ?_) ⟨holds.numbered.mem, holds.numbered.extents⟩
      rfl (by simp [holds.out]) ?_ ?_ fun j => ?_⟩
  · rw [List.count_nil, Nat.add_zero]
  · rw [List.count_append]
  · have same : (p.putBack head tail s.next).1.unbumped = p.unbumped := rfl
    simp [same, holds.unbumped]
  · have spliced := run.splice holds.shared (holds.divided.nodup holds.nodup)
      (holds.apart (by simp) held)
    simpa [Pool.putBack] using spliced
  · rcases eq_or_ne j i with rfl | other
    · refine .inr ⟨?_, ?_⟩
      · simpa using cached.congr (kept (by simp))
      · simpa using InHand.of_calm calm
    · refine .inl ⟨?_, ?_, ?_, ?_, fun y here => ?_⟩
      · simp [other]
      · simp [other]
      · simp
      · simp [other]
      · exact here.elim (kept (by simp) y) (kept (by simpa using other.symm) y)

theorem Holds.prefault (holds : Holds s p lists) (slots : Nat) :
    (p.prefault slots s.next).1.number = p.number ∧ ∃ lists', Holds { s with
      pool := some (p.prefault slots s.next).1
      next := (p.prefault slots s.next).2 } (p.prefault slots s.next).1 lists' := by
  obtain ⟨new, leads, links, grown⟩ := prefault_spec slots holds.shared fun y mem =>
    holds.apart (by simp) (holds.unbumped ▸ mem)
  have kept {a : Place n} (other : Place.unbumped ≠ a) :
      ∀ y ∈ lists a, (p.prefault slots s.next).2 y = s.next y :=
    fun y here => links y fun mem => holds.fresh grown mem other here
  refine ⟨grown.number, _, holds.of_kept (holds.take grown .shared (by simp)) (grown.numbered holds.numbered)
    grown.gen (by simp [holds.out]) (by simp) (by simpa using leads) fun j => .inl ?_⟩
  refine ⟨rfl, rfl, by simp, by simp, fun y here => ?_⟩
  exact here.elim (kept (by simp) y) (kept (by simp) y)

/-! ## Threads and pools -/

/-- A thread without a slot gets an empty cache, or has its own dropped. -/
theorem Holds.renew (holds : Holds s p lists) {place : Pc} {c : Cache}
    (cached : lists (.cache i) = []) (hand : lists (.hand i) = []) (calm : place.isCalm = true)
    (head : c.head = none) (count : c.count = 0) :
    Holds { s with
      cache := Function.update s.cache i c
      pc := Function.update s.pc i place } p lists := by
  refine holds.of_kept holds.divided holds.numbered rfl holds.out holds.unbumped holds.shared
    fun j => ?_
  rcases eq_or_ne j i with rfl | other
  · simp only [Function.update_self, cached, hand]
    exact .inr ⟨.of_empty head count, .of_calm calm⟩
  · exact .inl ⟨Function.update_of_ne other _ _, Function.update_of_ne other _ _, rfl, rfl,
      fun _ _ => rfl⟩

/-- `giveBack` takes the whole cache. -/
theorem Holds.gather (holds : Holds s p lists) (idle : s.pc i = .idle)
    (stamp : (s.cache i).gen = p.gen) (head : (s.cache i).head = some x)
    (positive : (s.cache i).count ≠ 0) :
    ∃ y, walk s.next ((s.cache i).count - 1) x = some y ∧ ∃ lists', Holds { s with
      pc := Function.update s.pc i (.giveBack x y) } p lists' := by
  obtain ⟨leads, count⟩ := (holds.cached i).attached (by rw [idle]; rfl) stamp
  have empty := holds.hand i
  rw [idle] at empty
  obtain ⟨y, run, -⟩ := leads_split leads (Nat.pos_of_ne_zero positive) (Nat.le_of_eq count)
  rw [head, count, List.take_length] at run
  refine ⟨y, walk_run run (by omega), Function.update
    (Function.update lists (.cache i) []) (.hand i) (lists (.cache i)),
    holds.of_kept (holds.divided.move (by simp) (lists (.cache i)) [] _ (fun z => ?_) fun z => ?_)
      holds.numbered rfl (by simp [holds.out]) (by simp [holds.unbumped])
      (by simpa using holds.shared) fun j => ?_⟩
  · rw [List.count_nil, Nat.add_zero]
  · rw [show lists (.hand i) = [] from empty, List.count_nil, Nat.add_zero]
  · rcases eq_or_ne j i with rfl | other
    · refine .inr ⟨?_, ?_⟩
      · simpa using Cached.detached (by rfl)
      · simpa [InHand] using run
    · refine .inl ⟨?_, rfl, ?_, ?_, fun _ _ => rfl⟩ <;> simp [other]

theorem mem_all_pool (mem : x ∈ p.all) : x.pool = p.number := by
  unfold Pool.all allOf at mem
  obtain ⟨e, -, inside⟩ := List.mem_flatMap.mp mem
  obtain ⟨k, -, rfl⟩ := List.mem_map.mp inside
  rfl

theorem Holds.write (holds : Holds s p lists) {value : Option Slot}
    (writable : x ∈ s.out ∨ x.pool ≠ p.number) :
    Holds { s with next := Function.update s.next x value } p lists := by
  have kept {a : Place n} (other : Place.out ≠ a) :
      ∀ y ∈ lists a, Function.update s.next x value y = s.next y := by
    intro y here
    refine Function.update_of_ne ?_ _ _
    rintro rfl
    rcases writable with handed | foreign
    · rw [← holds.out] at handed
      exact holds.apart other handed here
    · exact foreign (mem_all_pool (holds.divided.mem here))
  refine holds.of_kept holds.divided holds.numbered rfl holds.out holds.unbumped
    (holds.shared.congr (kept (by simp))) fun j => .inl ⟨rfl, rfl, rfl, rfl, fun y here => ?_⟩
  exact here.elim (kept (by simp) y) (kept (by simp) y)

/-- In a new pool no slot was bumped. -/
def untouched (p : Pool) : Place n → List Slot
  | .unbumped => p.unbumped
  | .out | .cache _ | .hand _ | .shared => []

theorem Holds.built (number slots : Nat) (calm : ∀ j, (s.pc j).isCalm = true) (out : s.out = [])
    (caches : ∀ j, s.pc j = .absent ∨ (s.cache j).gen ≠ gen ∨
      (s.cache j).head = none ∧ (s.cache j).count = 0) :
    Holds s ⟨number, gen, ⟨0, slots, 0⟩, [], none⟩
      (untouched ⟨number, gen, ⟨0, slots, 0⟩, [], none⟩) where
  divided x := by
    rw [Finset.sum_eq_single Place.unbumped]
    · simp [untouched, Pool.unbumped, Pool.all, unbumpedOf, allOf, Extent.unbumped, Extent.all,
        List.range_eq_range']
    · intro a _ other
      cases a with
      | unbumped => exact absurd rfl other
      | out | cache j | hand j | shared => rfl
    · exact fun absent => absurd (Finset.mem_univ _) absent
  numbered := ⟨rfl, rfl⟩
  out := out.symm
  unbumped := rfl
  shared := rfl
  cached j := by
    rcases caches j with absent | stale | ⟨head, count⟩
    · rw [absent]
      exact .detached rfl
    · unfold Cached
      rw [if_neg fun attached => stale attached.2]
      rfl
    · exact .of_empty head count
  hand j := .of_calm (calm j)

end JLibSched.Slab
