import JLibSched.Slab.Lists

/-!
# The sections under the mutex

A section takes slots of the arrays and of the shared list, or puts some on it.  What it takes for
the first time is no longer unbumped, and what a new extent brings is unbumped when it comes.
-/

namespace JLibSched.Slab

open Links

variable {next : Next} {batch : Batch} {l : List Slot} {x y : Slot}

variable {p p' : Pool} {next' : Next} {batch' : Batch} {extents extents' : List Extent}
  {number : Nat}

def unbumpedOf (number : Nat) (arrays : List Extent) : List Slot :=
  arrays.flatMap (Extent.unbumped number)

def allOf (number : Nat) (arrays : List Extent) : List Slot := arrays.flatMap (Extent.all number)

/-- The slots that were never taken. -/
def Pool.unbumped (p : Pool) : List Slot := unbumpedOf p.number (p.mem :: p.extents)

/-- All slots of the slab and its extents. -/
def Pool.all (p : Pool) : List Slot := allOf p.number (p.mem :: p.extents)

/-- Each array has a number of its own. -/
structure Pool.Numbered (p : Pool) : Prop where
  mem : p.mem.block = 0
  extents : p.extents.map Extent.block = ((List.range p.extents.length).map (· + 1)).reverse

theorem allOf_nodup {arrays : List Extent} (blocks : (arrays.map Extent.block).Nodup) :
    (allOf number arrays).Nodup := by
  unfold allOf
  rw [List.nodup_flatMap]
  refine ⟨fun _ _ => List.nodup_range.map fun a b same => ?_, ?_⟩
  · simpa using same
  · refine (List.pairwise_map.mp blocks).imp fun {a b} other => ?_
    intro x first second
    obtain ⟨k, -, rfl⟩ := List.mem_map.mp first
    obtain ⟨j, -, same⟩ := List.mem_map.mp second
    simp only [Slot.mk.injEq] at same
    exact other same.2.1.symm

theorem Pool.Numbered.nodup (numbered : p.Numbered) : p.all.Nodup := by
  refine allOf_nodup ?_
  rw [List.map_cons, numbered.mem, numbered.extents, List.nodup_cons, List.nodup_reverse]
  refine ⟨by simp, List.nodup_range.map fun a b same => ?_⟩
  simpa using same

/-- What a section does to the arrays: `new` is taken, and `extra` is allocated. -/
structure Grown (p p' : Pool) (new extra : List Slot) : Prop where
  number : p'.number = p.number
  gen : p'.gen = p.gen
  numbered : p.Numbered → p'.Numbered
  unbumped : ∀ x, p.unbumped.count x + extra.count x = new.count x + p'.unbumped.count x
  all : ∀ x, p'.all.count x = extra.count x + p.all.count x

theorem Grown.of_mem (p : Pool) (wanted : Nat) (next : Next) (batch : Batch)
    (head : Option Slot) :
    Grown p { p with mem := (p.mem.bump p.number wanted next batch).1, sharedHead := head }
      (p.mem.taken p.number wanted) [] where
  number := rfl
  gen := rfl
  numbered numbered := ⟨numbered.mem, numbered.extents⟩
  unbumped x := by
    have split := p.mem.count_unbumped p.number wanted next batch x
    unfold Pool.unbumped unbumpedOf
    simp only [List.flatMap_cons, List.count_append, List.count_nil]
    omega
  all x := by
    rw [List.count_nil, Nat.zero_add]
    rfl

theorem bumpExtents_some
    (found : bumpExtents number next batch extents = some (extents', next', batch')) :
    ∃ e ∈ extents, (e.bump number BATCH next batch).2 = (next', batch') ∧
      (∀ x, (unbumpedOf number extents).count x =
        (e.taken number BATCH).count x + (unbumpedOf number extents').count x) ∧
      allOf number extents' = allOf number extents ∧
      extents'.map Extent.block = extents.map Extent.block := by
  induction extents generalizing extents' with
  | nil => cases found
  | cons e rest ih =>
    unfold bumpExtents at found
    split at found
    · obtain ⟨⟨later, moved⟩, found, same⟩ := Option.map_eq_some_iff.mp found
      simp only [Prod.mk.injEq] at same
      obtain ⟨rfl, rfl⟩ := same
      obtain ⟨f, mem, bumped, unbumped, all, blocks⟩ := ih found
      refine ⟨f, List.mem_cons_of_mem _ mem, bumped, fun x => ?_, ?_, ?_⟩
      · have unbumped := unbumped x
        simp only [unbumpedOf, List.flatMap_cons, List.count_append] at unbumped ⊢
        omega
      · simp only [allOf, List.flatMap_cons] at all ⊢
        rw [all]
      · rw [List.map_cons, List.map_cons, blocks]
    · simp only [Option.some.injEq, Prod.mk.injEq] at found
      obtain ⟨rfl, moved⟩ := found
      refine ⟨e, List.mem_cons_self, moved, fun x => ?_, rfl, rfl⟩
      have split := e.count_unbumped number BATCH next batch x
      simp only [unbumpedOf, List.flatMap_cons, List.count_append]
      omega

theorem Grown.of_extents
    (found : bumpExtents p.number next batch p.extents = some (extents', next', batch')) :
    ∃ new, Taken next batch new next' batch' ∧ Grown p { p with extents := extents' } new [] := by
  obtain ⟨e, -, moved, unbumped, all, blocks⟩ := bumpExtents_some found
  have taken := e.bump_taken p.number BATCH next batch
  rw [moved] at taken
  have length : extents'.length = p.extents.length := by
    rw [← List.length_map Extent.block, blocks, List.length_map]
  refine ⟨_, taken, rfl, rfl, fun numbered => ⟨numbered.mem, ?_⟩, fun x => ?_, fun x => ?_⟩
  · rw [blocks, length]
    exact numbered.extents
  · have unbumped := unbumped x
    unfold Pool.unbumped
    simp only [unbumpedOf, List.flatMap_cons, List.count_append, List.count_nil] at unbumped ⊢
    omega
  · unfold Pool.all
    simp only [allOf, List.flatMap_cons, List.count_append, List.count_nil] at all ⊢
    rw [all]
    omega

theorem Grown.of_fresh (p : Pool) (next : Next) (batch : Batch) :
    Grown p
      { p with extents := (p.freshExtent.bump p.number BATCH next batch).1 :: p.extents }
      (p.freshExtent.taken p.number BATCH) (p.freshExtent.all p.number) where
  number := rfl
  gen := rfl
  numbered numbered := by
    refine ⟨numbered.mem, ?_⟩
    rw [List.length_cons, List.range_succ, List.map_append, List.reverse_append, List.map_cons,
      numbered.extents]
    rfl
  unbumped x := by
    have split := p.freshExtent.count_unbumped p.number BATCH next batch x
    have whole : p.freshExtent.unbumped p.number = p.freshExtent.all p.number := by
      unfold Extent.unbumped Extent.all
      rw [List.range_eq_range']
      rfl
    rw [whole] at split
    unfold Pool.unbumped unbumpedOf
    simp only [List.flatMap_cons, List.count_append]
    omega
  all x := by
    unfold Pool.all allOf
    simp only [List.flatMap_cons, List.count_append, Extent.bump_all]
    omega

theorem Grown.trans {p'' : Pool} {new new' extra extra' : List Slot} (first : Grown p p' new extra)
    (second : Grown p' p'' new' extra') : Grown p p'' (new' ++ new) (extra' ++ extra) where
  number := second.number.trans first.number
  gen := second.gen.trans first.gen
  numbered numbered := second.numbered (first.numbered numbered)
  unbumped x := by
    have one := first.unbumped x
    have two := second.unbumped x
    rw [List.count_append, List.count_append]
    omega
  all x := by
    have one := first.all x
    have two := second.all x
    rw [List.count_append]
    omega

theorem Grown.none : Grown p p [] [] :=
  ⟨rfl, rfl, id, fun x => by simp, fun x => by simp⟩

theorem Taken.none : Taken next batch [] next batch :=
  ⟨fun _ _ => rfl, rfl, fun _ spans _ => spans, fun _ _ leads _ => leads⟩

/-- Growing takes slots of an extent, old or new, or none. -/
theorem grow_spec (p : Pool) (room : Bool) (next : Next) (batch : Batch) :
    ∃ new extra, Taken next batch new (p.grow room next batch).2.1 (p.grow room next batch).2.2 ∧
      Grown p (p.grow room next batch).1 new extra ∧
      (p.grow room next batch).1.sharedHead = p.sharedHead := by
  unfold Pool.grow
  cases found : bumpExtents p.number next batch p.extents with
  | some r =>
    obtain ⟨new, taken, grown⟩ := Grown.of_extents found
    exact ⟨new, [], taken, grown, rfl⟩
  | none =>
    cases room with
    | false => exact ⟨[], [], .none, .none, rfl⟩
    | true => exact ⟨_, _, p.freshExtent.bump_taken _ _ _ _, .of_fresh p next batch, rfl⟩

/-- What `refill` does: `front` comes off the shared list and `back` stays. -/
structure Refilled (p : Pool) (next : Next) (p' : Pool) (next' : Next) (batch' : Batch)
    (front back new extra : List Slot) : Prop where
  shared : Leads next p'.sharedHead back none
  spans : batch'.Spans next' (new ++ front)
  moved : batch'.moved = (new ++ front).length
  links : ∀ x, x ∉ new → next' x = next x
  grown : Grown p p' new extra

theorem refill_spec (growthEnabled room : Bool) (leads : Leads next p.sharedHead l none)
    (apart : ∀ x ∈ p.unbumped, x ∉ l) :
    ∃ front back new extra, l = front ++ back ∧
      Refilled p next (p.refill growthEnabled room next).1 (p.refill growthEnabled room next).2.1
        (p.refill growthEnabled room next).2.2 front back new extra := by
  obtain ⟨front, back, rfl, shared, count, ends⟩ := cut_spec BATCH 0 none leads
  unfold Pool.refill
  generalize cut next BATCH p.sharedHead none 0 = passed at shared count ends ⊢
  obtain ⟨curr, tail, moved⟩ := passed
  dsimp only at shared count ends ⊢
  have spans : Batch.Spans next ⟨p.sharedHead, tail, moved⟩ front := by
    rcases ends with ⟨rfl, -, zero | empty⟩ | ⟨y, same, run⟩
    · cases zero
    · exact .inl ⟨rfl, empty⟩
    · exact .inr ⟨y, same, run⟩
  have taken := p.mem.bump_taken p.number (BATCH - moved) next ⟨p.sharedHead, tail, moved⟩
  have grown := Grown.of_mem p (BATCH - moved) next ⟨p.sharedHead, tail, moved⟩ curr
  have outside : ∀ x ∈ p.mem.taken p.number (BATCH - moved), x ∉ front := by
    intro x mem also
    refine apart x ?_ (List.mem_append_left _ also)
    unfold Pool.unbumped unbumpedOf
    exact List.mem_flatMap.mpr ⟨p.mem, List.mem_cons_self, Extent.taken_unbumped mem⟩
  generalize p.mem.taken p.number (BATCH - moved) = new at taken grown outside
  generalize p.mem.bump p.number (BATCH - moved) next ⟨p.sharedHead, tail, moved⟩ = result
    at taken grown ⊢
  obtain ⟨mem, next', batch'⟩ := result
  dsimp only at taken grown ⊢
  have spans := taken.spans front spans outside
  have length : batch'.moved = (new ++ front).length := by
    rw [taken.moved, List.length_append]
    dsimp only
    omega
  split
  · rename_i empty
    -- the batch is empty, so an extent gives all of it
    have nothing : new ++ front = [] := List.eq_nil_of_length_eq_zero (length ▸ empty.1)
    obtain ⟨more, extra, later, larger, head⟩ := grow_spec
      { p with mem := mem, sharedHead := curr } room next' batch'
    obtain ⟨rfl, rfl⟩ := List.append_eq_nil_iff.mp nothing
    refine ⟨[], back, more, extra, rfl, ?_, ?_, ?_, fun x out => ?_, ?_⟩
    · rw [head]
      exact shared
    · exact later.spans [] spans fun x _ absurd => by cases absurd
    · rw [later.moved, empty.1, List.append_nil, Nat.zero_add]
    · rw [later.links x out]
      exact taken.links x (by simp)
    · have both := grown.trans larger
      rw [List.append_nil, List.append_nil] at both
      exact both
  · exact ⟨front, back, new, [], rfl, shared, spans, length, taken.links, grown⟩

theorem prefault_spec (slots : Nat) (leads : Leads next p.sharedHead l none)
    (apart : ∀ x ∈ p.unbumped, x ∉ l) :
    ∃ new, Leads (p.prefault slots next).2 (p.prefault slots next).1.sharedHead (new ++ l) none ∧
      (∀ x, x ∉ new → (p.prefault slots next).2 x = next x) ∧
      Grown p (p.prefault slots next).1 new [] := by
  have taken := p.mem.bump_taken p.number slots next ⟨p.sharedHead, none, 0⟩
  refine ⟨_, taken.leads l none leads fun x mem => apart x ?_, taken.links,
    .of_mem p slots next ⟨p.sharedHead, none, 0⟩ _⟩
  unfold Pool.unbumped unbumpedOf
  exact List.mem_flatMap.mpr ⟨p.mem, List.mem_cons_self, Extent.taken_unbumped mem⟩

end JLibSched.Slab
