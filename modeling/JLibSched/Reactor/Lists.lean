import JLibSched.Lib.DoublyLinked
import JLibSched.Reactor.Model

/-!
# The lists of the shards

Each shard has a doubly linked list of requests of its own (`Shards.Holds`).  `Link` puts a request
in front, `UnlinkLocked` takes it out, or does nothing when it is in no list, and the loop of
`RequestCancel` finds the first 64 that it looks for.
-/

namespace JLibSched.Reactor

open Links

/-- The list of a shard, with what would be its last request. -/
def Shards.list (d : Shards) (i : Nat) (tail : Option Nat) : Doubly Nat :=
  ⟨d.next, d.prev, d.head i, tail⟩

/-- The lists of the shards are those of `lists`. -/
structure Shards.Holds (d : Shards) (lists : Nat → List Nat) : Prop where
  list : ∀ i, ∃ tail, (d.list i tail).Holds (lists i)
  nodup : ∀ i, (lists i).Nodup
  place : ∀ i, ∀ r ∈ lists i, shardFor r = i
  /-- Who is in no list has no links. -/
  out : ∀ r, r ∉ lists (shardFor r) → d.next r = none ∧ d.prev r = none
  /-- Each request was linked. -/
  made : ∀ i, (lists i).length ≤ d.made

variable {d : Shards} {lists : Nat → List Nat} {i j r x : Nat}

theorem empty_holds : Shards.Holds ⟨fun _ => none, fun _ => none, fun _ => none, 0, 0⟩ fun _ => [] where
  list i := ⟨none, Doubly.holds_empty _ _⟩
  nodup i := List.nodup_nil
  place i r absurd := by cases absurd
  out r _ := ⟨rfl, rfl⟩
  made i := Nat.le_refl 0

/-- A request is in its own shard. -/
theorem Shards.Holds.own (holds : d.Holds lists) (mem : r ∈ lists i) : r ∈ lists (shardFor r) := by
  rw [holds.place i r mem]
  exact mem

theorem Shards.Holds.leads (holds : d.Holds lists) (i : Nat) :
    Leads d.next (d.head i) (lists i) none := by
  obtain ⟨tail, doubly⟩ := holds.list i
  exact doubly.forth

/-! ## Link -/

theorem Shards.link_next (other : x ≠ r) : (d.link r).next x = d.next x :=
  Function.update_of_ne other _ _

theorem Shards.link_prev (other : x ≠ r) (notFirst : d.head (shardFor r) ≠ some x) :
    (d.link r).prev x = d.prev x := by
  unfold Shards.link
  simp only
  cases first : d.head (shardFor r) with
  | none => exact Function.update_of_ne other _ _
  | some y =>
    have apart : x ≠ y := by
      rintro rfl
      exact notFirst first
    simp only
    rw [Function.update_of_ne apart, Function.update_of_ne other]

theorem Shards.link_head (other : i ≠ shardFor r) : (d.link r).head i = d.head i :=
  Function.update_of_ne other _ _

/-- In its own shard the request comes first. -/
theorem Shards.Holds.link_list (holds : d.Holds lists) (out : r ∉ lists (shardFor r)) :
    ∃ tail, ((d.link r).list (shardFor r) tail).Holds (r :: lists (shardFor r)) := by
  obtain ⟨tail, doubly⟩ := holds.list (shardFor r)
  have nodup := holds.nodup (shardFor r)
  have head : d.head (shardFor r) = (lists (shardFor r)).head? := doubly.head
  have forth : Leads (d.link r).next ((d.link r).head (shardFor r))
      (r :: lists (shardFor r)) none := by
    refine ⟨Function.update_self _ _ _, ?_⟩
    have first : (d.link r).next r = d.head (shardFor r) := Function.update_self _ _ _
    rw [first]
    exact doubly.forth.write out _
  have back := doubly.back
  generalize same : lists (shardFor r) = l at out nodup head forth back ⊢
  cases l with
  | nil =>
    refine ⟨some r, ⟨forth, rfl, ?_⟩⟩
    show (d.link r).prev r = none
    unfold Shards.link
    simp only [head, List.head?_nil]
    exact Function.update_self _ _ _
  | cons y l =>
    have first : d.head (shardFor r) = some y := head
    have reversed : (y :: l).reverse = l.reverse ++ [y] := List.reverse_cons
    have outside : r ∉ l.reverse ++ [y] := by
      rw [← reversed]
      exact fun mem => out (List.mem_reverse.mp mem)
    have distinct : (l.reverse ++ [y]).Nodup := by
      rw [← reversed]
      exact List.nodup_reverse.mpr nodup
    have prev : (d.link r).prev = Function.update (Function.update d.prev r none) y (some r) := by
      unfold Shards.link
      simp only [first]
    refine ⟨tail, ⟨forth, ?_⟩⟩
    show Leads (d.link r).prev tail (r :: y :: l).reverse none
    rw [reversed] at back
    rw [prev, List.reverse_cons, reversed]
    exact (back.write outside none).concat distinct outside (Function.update_self _ _ _)

theorem Shards.Holds.link (holds : d.Holds lists) (out : r ∉ lists (shardFor r)) :
    (d.link r).Holds (Function.update lists (shardFor r) (r :: lists (shardFor r))) where
  list i := by
    rcases eq_or_ne i (shardFor r) with rfl | other
    · rw [Function.update_self]
      exact holds.link_list out
    · rw [Function.update_of_ne other]
      obtain ⟨tail, doubly⟩ := holds.list i
      have apart (x : Nat) (mem : x ∈ lists i) : x ≠ r := by
        rintro rfl
        exact other (holds.place i x mem).symm
      refine ⟨tail, doubly.congr (Shards.link_head other) rfl
        (fun x mem => Shards.link_next (apart x mem))
        fun x mem => Shards.link_prev (apart x mem) fun first => other ?_⟩
      -- the first request of another shard
      have inOwn : x ∈ lists (shardFor r) := by
        have head := (holds.leads (shardFor r)).head
        rw [first] at head
        exact List.mem_of_head? head
      exact (holds.place i x mem).symm.trans (holds.place (shardFor r) x inOwn)
  nodup i := by
    rcases eq_or_ne i (shardFor r) with rfl | other
    · rw [Function.update_self]
      exact List.nodup_cons.mpr ⟨out, holds.nodup _⟩
    · rw [Function.update_of_ne other]
      exact holds.nodup i
  place i x mem := by
    rcases eq_or_ne i (shardFor r) with rfl | other
    · rw [Function.update_self] at mem
      rcases List.mem_cons.mp mem with rfl | before
      · rfl
      · exact holds.place _ x before
    · rw [Function.update_of_ne other] at mem
      exact holds.place i x mem
  out x absent := by
    have apart : x ≠ r := by
      rintro rfl
      rw [Function.update_self] at absent
      exact absent List.mem_cons_self
    have before : x ∉ lists (shardFor x) := by
      intro mem
      rcases eq_or_ne (shardFor x) (shardFor r) with same | other
      · rw [same, Function.update_self] at absent
        rw [same] at mem
        exact absent (List.mem_cons_of_mem _ mem)
      · rw [Function.update_of_ne other] at absent
        exact absent mem
    have notFirst : d.head (shardFor r) ≠ some x := by
      intro first
      have head := (holds.leads (shardFor r)).head
      rw [first] at head
      exact before (holds.own (List.mem_of_head? head))
    rw [Shards.link_next apart, Shards.link_prev apart notFirst]
    exact holds.out x before
  made i := by
    have bound := holds.made i
    have more : (d.link r).made = d.made + 1 := rfl
    rw [more]
    rcases eq_or_ne i (shardFor r) with rfl | other
    · rw [Function.update_self, List.length_cons]
      exact Nat.succ_le_succ bound
    · rw [Function.update_of_ne other]
      exact Nat.le_succ_of_le bound

/-! ## Unlink -/

/-- Only the links of the request and its neighbours change. -/
theorem Shards.unlink_next (other : x ≠ r) (notBefore : d.prev r ≠ some x) :
    (d.unlink r).next x = d.next x := by
  unfold Shards.unlink
  simp only
  rw [Function.update_of_ne other]
  cases before : d.prev r with
  | none => rfl
  | some y =>
    have apart : x ≠ y := by
      rintro rfl
      exact notBefore before
    exact Function.update_of_ne apart _ _

/-- What is read of the request's link after the first write. -/
theorem Shards.unlink_prev_eq (apart : d.prev r ≠ some r) : (d.unlink r).prev =
    Function.update (match d.next r with
      | some behind => Function.update d.prev behind (d.prev r)
      | none => d.prev) r none := by
  unfold Shards.unlink
  simp only
  cases before : d.prev r with
  | none => rfl
  | some y =>
    have other : r ≠ y := by
      rintro rfl
      exact apart before
    have kept : Function.update d.next y (d.next r) r = d.next r :=
      Function.update_of_ne other ..
    exact congrArg (fun behind => Function.update (match behind with
      | some behind => Function.update d.prev behind (some y)
      | none => d.prev) r none) kept

theorem Shards.unlink_prev (apart : d.prev r ≠ some r) (other : x ≠ r)
    (notBehind : d.next r ≠ some x) : (d.unlink r).prev x = d.prev x := by
  rw [Shards.unlink_prev_eq apart, Function.update_of_ne other]
  cases behind : d.next r with
  | none => rfl
  | some y =>
    have apart : x ≠ y := by
      rintro rfl
      exact notBehind behind
    exact Function.update_of_ne apart _ _

theorem Shards.unlink_head (other : i ≠ shardFor r) : (d.unlink r).head i = d.head i := by
  unfold Shards.unlink
  simp only
  cases d.prev r with
  | some y => rfl
  | none =>
    simp only
    split
    · exact Function.update_of_ne other _ _
    · rfl

/-- The neighbours of a request are in its list. -/
theorem Shards.Holds.neighbours (holds : d.Holds lists) (mem : r ∈ lists (shardFor r)) :
    (∀ x, d.prev r = some x → x ∈ lists (shardFor r) ∧ x ≠ r) ∧
      ∀ x, d.next r = some x → x ∈ lists (shardFor r) ∧ x ≠ r := by
  obtain ⟨tail, doubly⟩ := holds.list (shardFor r)
  have nodup := holds.nodup (shardFor r)
  obtain ⟨a, b, split⟩ := List.append_of_mem mem
  rw [split] at doubly nodup
  have next : d.next r = b.head? := doubly.next
  have prev : d.prev r = a.getLast? := doubly.prev
  obtain ⟨-, behind, apart⟩ := List.nodup_append.mp nodup
  rw [split, next, prev]
  constructor
  · intro x last
    have inA := List.mem_of_getLast? last
    exact ⟨List.mem_append_left _ inA, apart x inA r List.mem_cons_self⟩
  · intro x first
    have inB := List.mem_of_head? first
    refine ⟨List.mem_append_right _ (List.mem_cons_of_mem _ inB), ?_⟩
    rintro rfl
    exact (List.nodup_cons.mp behind).1 inB

theorem Shards.Holds.unlink_list (holds : d.Holds lists) (mem : r ∈ lists (shardFor r)) :
    ∃ tail, ((d.unlink r).list (shardFor r) tail).Holds ((lists (shardFor r)).erase r) := by
  obtain ⟨tail, doubly⟩ := holds.list (shardFor r)
  have nodup := holds.nodup (shardFor r)
  have apart : d.prev r ≠ some r := fun self => ((holds.neighbours mem).1 r self).2 rfl
  obtain ⟨a, b, split⟩ := List.append_of_mem mem
  have first : d.prev r = none → d.head (shardFor r) = some r := by
    intro none
    have prev : d.prev r = a.getLast? := by
      rw [split] at doubly
      exact doubly.prev
    rw [none, eq_comm, List.getLast?_eq_none_iff] at prev
    subst prev
    have head := (holds.leads (shardFor r)).head
    rw [split] at head
    exact head.symm
  rw [split] at doubly nodup ⊢
  have notIn : r ∉ a := fun inA =>
    (List.nodup_append.mp nodup).2.2 r inA r List.mem_cons_self rfl
  have notIn' : r ∉ b := (List.nodup_cons.mp (List.nodup_append.mp nodup).2.1).1
  have rest : (a ++ r :: b).erase r = a ++ b := by
    rw [List.erase_append_right _ notIn, List.erase_cons_head]
  have out : r ∉ a ++ b := fun mem => (List.mem_append.mp mem).elim notIn notIn'
  have written := (doubly.unlink nodup).write out none none
  have next : (d.unlink r).next =
      (((d.list (shardFor r) tail).unlink r).write r none none).next := by
    unfold Shards.unlink Doubly.write Doubly.unlink Shards.list
    simp only
    cases d.prev r with
    | none => rfl
    | some y => rfl
  have prev : (d.unlink r).prev =
      (((d.list (shardFor r) tail).unlink r).write r none none).prev := by
    rw [Shards.unlink_prev_eq apart]
    unfold Doubly.write Doubly.unlink Shards.list
    simp only
    cases d.next r with
    | none => rfl
    | some y => rfl
  have head : (d.unlink r).head (shardFor r) =
      (((d.list (shardFor r) tail).unlink r).write r none none).head := by
    unfold Shards.unlink Doubly.write Doubly.unlink Shards.list
    simp only
    cases none : d.prev r with
    | some y => rfl
    | none =>
      simp only
      rw [if_pos (first none)]
      exact Function.update_self _ _ _
  rw [rest]
  refine ⟨(((d.list (shardFor r) tail).unlink r).write r none none).tail, written.congr head rfl
    (fun x _ => congrFun next x) fun x _ => congrFun prev x⟩

theorem Shards.Holds.unlink (holds : d.Holds lists) (mem : r ∈ lists (shardFor r)) :
    (d.unlink r).Holds
      (Function.update lists (shardFor r) ((lists (shardFor r)).erase r)) := by
  have nodup := holds.nodup (shardFor r)
  obtain ⟨before, behind⟩ := holds.neighbours mem
  have apart : d.prev r ≠ some r := fun self => (before r self).2 rfl
  constructor
  case list =>
    intro i
    rcases eq_or_ne i (shardFor r) with rfl | other
    · rw [Function.update_self]
      exact holds.unlink_list mem
    · rw [Function.update_of_ne other]
      obtain ⟨tail, doubly⟩ := holds.list i
      -- nobody in another list is touched
      have foreign (x y : Nat) (memX : x ∈ lists i) (memY : y ∈ lists (shardFor r)) : x ≠ y := by
        rintro rfl
        exact other ((holds.place i x memX).symm.trans (holds.place _ x memY))
      refine ⟨tail, doubly.congr (Shards.unlink_head other) rfl (fun x memX => ?_)
        fun x memX => ?_⟩
      · exact Shards.unlink_next (foreign x r memX mem) fun here =>
          foreign x x memX (before x here).1 rfl
      · exact Shards.unlink_prev apart (foreign x r memX mem) fun here =>
          foreign x x memX (behind x here).1 rfl
  case nodup =>
    intro i
    rcases eq_or_ne i (shardFor r) with rfl | other
    · rw [Function.update_self]
      exact nodup.erase r
    · rw [Function.update_of_ne other]
      exact holds.nodup i
  case place =>
    intro i x memX
    rcases eq_or_ne i (shardFor r) with rfl | other
    · rw [Function.update_self] at memX
      exact holds.place _ x (List.mem_of_mem_erase memX)
    · rw [Function.update_of_ne other] at memX
      exact holds.place i x memX
  case out =>
    intro x absent
    rcases eq_or_ne x r with rfl | other
    · exact ⟨Function.update_self _ _ _, by
        rw [Shards.unlink_prev_eq apart]
        exact Function.update_self _ _ _⟩
    · have absent' : x ∉ lists (shardFor x) := by
        intro memX
        rcases eq_or_ne (shardFor x) (shardFor r) with same | elsewhere
        · rw [same, Function.update_self] at absent
          rw [same] at memX
          exact absent ((List.mem_erase_of_ne other).mpr memX)
        · rw [Function.update_of_ne elsewhere] at absent
          exact absent memX
      have foreign (here : x ∈ lists (shardFor r)) : False := absent' (holds.own here)
      rw [Shards.unlink_next other fun here => foreign (before x here).1,
        Shards.unlink_prev apart other fun here => foreign (behind x here).1]
      exact holds.out x absent'
  case made =>
    intro i
    have same : (d.unlink r).made = d.made := rfl
    rw [same]
    rcases eq_or_ne i (shardFor r) with rfl | other
    · rw [Function.update_self]
      exact Nat.le_trans (List.length_erase_le) (holds.made _)
    · rw [Function.update_of_ne other]
      exact holds.made i

/-- A request that is in no list is not taken out of one. -/
theorem Shards.Holds.unlink_absent (holds : d.Holds lists) (absent : r ∉ lists (shardFor r)) :
    (d.unlink r).Holds lists := by
  obtain ⟨next, prev⟩ := holds.out r absent
  have notFirst : d.head (shardFor r) ≠ some r := by
    intro first
    have head := (holds.leads (shardFor r)).head
    rw [first] at head
    exact absent (List.mem_of_head? head)
  have same : d.unlink r = { d with outstanding := d.outstanding - 1 } := by
    unfold Shards.unlink
    simp only [prev]
    rw [if_neg notFirst, next]
    simp only
    rw [← next, Function.update_eq_self, next, ← prev, Function.update_eq_self]
  rw [same]
  exact ⟨holds.list, holds.nodup, holds.place, holds.out, holds.made⟩

theorem mem_update_cons : r ∈ Function.update lists (shardFor x) (x :: lists (shardFor x))
    (shardFor r) ↔ r = x ∨ r ∈ lists (shardFor r) := by
  rcases eq_or_ne (shardFor r) (shardFor x) with same | other
  · rw [same, Function.update_self, List.mem_cons]
  · rw [Function.update_of_ne other]
    refine (or_iff_right ?_).symm
    rintro rfl
    exact other rfl

theorem mem_update_erase (nodup : (lists (shardFor x)).Nodup) :
    r ∈ Function.update lists (shardFor x) ((lists (shardFor x)).erase x) (shardFor r) ↔
      r ≠ x ∧ r ∈ lists (shardFor r) := by
  rcases eq_or_ne (shardFor r) (shardFor x) with same | other
  · rw [same, Function.update_self, nodup.mem_erase_iff]
  · rw [Function.update_of_ne other]
    refine (and_iff_right ?_).symm
    rintro rfl
    exact other rfl

/-- Whether the request is in a list or not. -/
theorem Shards.Holds.unlink_erase (holds : d.Holds lists) (r : Nat) : (d.unlink r).Holds
    (Function.update lists (shardFor r) ((lists (shardFor r)).erase r)) := by
  by_cases mem : r ∈ lists (shardFor r)
  · exact holds.unlink mem
  · rw [List.erase_of_not_mem mem, Function.update_eq_self]
    exact holds.unlink_absent mem

/-! ## The targets of a shard -/

/-- The loop collects what it looks for, up to `kTargets`. -/
theorem collect_spec {next : Nat → Option Nat} {select : Nat → Bool} {fuel : Nat}
    {first : Option Nat} {l : List Nat} (leads : Leads next first l none)
    (enough : l.length ≤ fuel) (count : Nat) :
    collect next select fuel first count = some ((l.filter select).take (kTargets - count)) := by
  induction l generalizing fuel first count with
  | nil =>
    cases leads
    unfold collect
    rw [List.filter_nil, List.take_nil]
  | cons r l ih =>
    obtain ⟨rfl, rest⟩ := leads
    unfold collect
    split
    · rename_i full
      rw [Nat.sub_eq_zero_of_le full, List.take_zero]
    · rename_i room
      cases fuel with
      | zero => cases enough
      | succ fuel =>
        have enough' : l.length ≤ fuel := Nat.le_of_succ_le_succ enough
        simp only
        split
        · rename_i chosen
          obtain ⟨k, more⟩ : ∃ k, kTargets - count = k + 1 := ⟨kTargets - count - 1, by omega⟩
          rw [ih rest enough' (count + 1), List.filter_cons_of_pos chosen, more,
            List.take_succ_cons, Option.map_some]
          congr 3
          omega
        · rename_i other
          rw [ih rest enough' count, List.filter_cons_of_neg other]

end JLibSched.Reactor
