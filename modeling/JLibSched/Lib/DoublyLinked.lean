import JLibSched.Lib.Links
import Mathlib.Tactic

/-!
# Doubly linked lists

A list whose elements have a link to the next one and a link back.  `Holds l` says that its
elements are those of `l`, in order, in both directions.  Turned around it is a doubly linked list
again (`flip`), so what is shown for one direction holds for the other.
-/

namespace Links

variable {α : Type*}

structure Doubly (α : Type*) where
  next : α → Option α
  prev : α → Option α
  head : Option α
  tail : Option α

namespace Doubly

/-- The elements are those of `l`, forwards and backwards. -/
structure Holds (d : Doubly α) (l : List α) : Prop where
  forth : Leads d.next d.head l none
  back : Leads d.prev d.tail l.reverse none

def flip (d : Doubly α) : Doubly α := ⟨d.prev, d.next, d.tail, d.head⟩

variable {d d' : Doubly α} {l a b : List α} {x y : α}

theorem Holds.flip (holds : d.Holds l) : d.flip.Holds l.reverse where
  forth := holds.back
  back := by
    rw [List.reverse_reverse]
    exact holds.forth

theorem Holds.head (holds : d.Holds l) : d.head = l.head? := holds.forth.head.symm

theorem Holds.tail (holds : d.Holds l) : d.tail = l.getLast? := by
  rw [← List.head?_reverse]
  exact holds.flip.head

/-- Only the links of its elements matter. -/
theorem Holds.congr (holds : d.Holds l) (head : d'.head = d.head) (tail : d'.tail = d.tail)
    (next : ∀ x ∈ l, d'.next x = d.next x) (prev : ∀ x ∈ l, d'.prev x = d.prev x) :
    d'.Holds l where
  forth := by
    rw [head]
    exact holds.forth.congr next
  back := by
    rw [tail]
    exact holds.back.congr fun x mem => prev x (List.mem_reverse.mp mem)

theorem holds_empty (next prev : α → Option α) : (⟨next, prev, none, none⟩ : Doubly α).Holds [] :=
  ⟨rfl, rfl⟩

/-- Behind an element comes what is behind it in the list. -/
theorem Holds.next (holds : d.Holds (a ++ x :: b)) : d.next x = b.head? := by
  obtain ⟨middle, -, -, rest⟩ := leads_append.mp holds.forth
  exact rest.head.symm

theorem Holds.prev (holds : d.Holds (a ++ x :: b)) : d.prev x = a.getLast? := by
  have turned := holds.flip
  rw [List.reverse_append, List.reverse_cons, List.append_assoc, List.singleton_append] at turned
  rw [← List.head?_reverse]
  exact turned.next

/-- The links back undo the links to the next. -/
theorem Holds.inverse (holds : d.Holds l) (nodup : l.Nodup) (memX : x ∈ l) (memY : y ∈ l) :
    d.next x = some y ↔ d.prev y = some x := by
  -- forwards, and then the same for the list turned around
  have forwards {d : Doubly α} {l : List α} {x y : α} (holds : d.Holds l) (nodup : l.Nodup)
      (memX : x ∈ l) (link : d.next x = some y) : d.prev y = some x := by
    obtain ⟨a, b, rfl⟩ := List.append_of_mem memX
    rw [holds.next] at link
    cases b with
    | nil => cases link
    | cons z b =>
      cases link
      have moved : a ++ x :: y :: b = (a ++ [x]) ++ y :: b := by simp
      rw [moved] at holds
      rw [holds.prev, List.getLast?_append, List.getLast?_singleton, Option.some_or]
  constructor
  · exact forwards holds nodup memX
  · intro link
    exact forwards holds.flip (List.nodup_reverse.mpr nodup) (List.mem_reverse.mpr memY) link

theorem Holds.tail_none (holds : d.Holds l) : d.tail = none ↔ d.head = none := by
  rw [holds.tail, holds.head, List.getLast?_eq_none_iff, List.head?_eq_none_iff]

section Edit

variable [DecidableEq α]

/-- An element is appended; its link to the next one is empty already. -/
def pushBack (d : Doubly α) (x : α) : Doubly α where
  next := match d.tail with
    | some y => Function.update d.next y (some x)
    | none => d.next
  prev := Function.update d.prev x d.tail
  head := match d.tail with
    | some _ => d.head
    | none => some x
  tail := some x

/-- An element is put in front; both of its links are written. -/
def pushFront (d : Doubly α) (x : α) : Doubly α where
  next := Function.update d.next x d.head
  prev := match d.head with
    | some y => Function.update (Function.update d.prev x none) y (some x)
    | none => Function.update d.prev x none
  head := some x
  tail := match d.head with
    | some _ => d.tail
    | none => some x

/-- An element is taken out; its own links stay. -/
def unlink (d : Doubly α) (x : α) : Doubly α where
  next := match d.prev x with
    | some y => Function.update d.next y (d.next x)
    | none => d.next
  prev := match d.next x with
    | some z => Function.update d.prev z (d.prev x)
    | none => d.prev
  head := match d.prev x with
    | some _ => d.head
    | none => d.next x
  tail := match d.next x with
    | some _ => d.tail
    | none => d.prev x

theorem flip_unlink (d : Doubly α) (x : α) : (d.unlink x).flip = d.flip.unlink x := rfl

/-- The links of an element are overwritten. -/
def write (d : Doubly α) (x : α) (next prev : Option α) : Doubly α :=
  { d with next := Function.update d.next x next, prev := Function.update d.prev x prev }

theorem Holds.write (holds : d.Holds l) (out : x ∉ l) (next prev : Option α) :
    (d.write x next prev).Holds l where
  forth := holds.forth.write out next
  back := holds.back.write (fun mem => out (List.mem_reverse.mp mem)) prev

theorem Holds.pushBack (holds : d.Holds l) (nodup : l.Nodup) (out : x ∉ l)
    (last : d.next x = none) : (d.pushBack x).Holds (l ++ [x]) where
  forth := by
    have tail := holds.tail
    rcases List.eq_nil_or_concat l with rfl | ⟨front, y, rfl⟩
    · unfold Doubly.pushBack
      rw [tail]
      exact ⟨rfl, last⟩
    · rw [List.concat_eq_append] at *
      rw [List.getLast?_append, List.getLast?_singleton, Option.some_or] at tail
      unfold Doubly.pushBack
      rw [tail]
      exact holds.forth.concat nodup out last
  back := by
    rw [List.reverse_append, List.reverse_singleton, List.singleton_append]
    refine ⟨rfl, ?_⟩
    unfold Doubly.pushBack
    simp only
    rw [Function.update_self]
    exact holds.back.write (fun mem => out (List.mem_reverse.mp mem)) _

/-- Turned around, an element that is put in front is appended. -/
theorem Holds.pushFront (holds : d.Holds l) (nodup : l.Nodup) (out : x ∉ l) :
    (d.pushFront x).Holds (x :: l) := by
  have outside : x ∉ l.reverse := fun mem => out (List.mem_reverse.mp mem)
  let cleared : Doubly α := { d with prev := Function.update d.prev x none }
  have turned : cleared.flip.Holds l.reverse :=
    ⟨holds.back.write outside none, holds.flip.back⟩
  have first : cleared.flip.next x = none := Function.update_self _ _ _
  have pushed := (turned.pushBack (List.nodup_reverse.mpr nodup) outside first).flip
  rw [List.reverse_append, List.reverse_singleton, List.reverse_reverse,
    List.singleton_append] at pushed
  exact pushed.congr rfl rfl (fun y _ => rfl) fun y _ => rfl

/-- Only the link of the element before changes forwards. -/
theorem Holds.unlink_next (holds : d.Holds (a ++ x :: b)) (out : y ∉ a) :
    (d.unlink x).next y = d.next y := by
  have prev := holds.prev
  unfold unlink
  cases last : a.getLast? with
  | none => rw [prev, last]
  | some z =>
    rw [prev, last]
    refine Function.update_of_ne ?_ _ _
    rintro rfl
    exact out (List.mem_of_getLast? last)

theorem Holds.unlink_prev (holds : d.Holds (a ++ x :: b)) (out : y ∉ b) :
    (d.unlink x).prev y = d.prev y := by
  have next := holds.next
  unfold unlink
  cases first : b.head? with
  | none => rw [next, first]
  | some z =>
    rw [next, first]
    refine Function.update_of_ne ?_ _ _
    rintro rfl
    exact out (List.mem_of_head? first)

theorem Holds.unlink_forth (holds : d.Holds (a ++ x :: b)) (nodup : (a ++ x :: b).Nodup) :
    Leads (d.unlink x).next (d.unlink x).head (a ++ b) none := by
  have prev := holds.prev
  obtain ⟨middle, before, rfl, behind⟩ := leads_append.mp holds.forth
  rcases List.eq_nil_or_concat a with rfl | ⟨front, y, rfl⟩
  · unfold unlink
    rw [prev]
    exact behind
  · rw [List.concat_eq_append] at *
    rw [List.getLast?_append, List.getLast?_singleton, Option.some_or] at prev
    obtain ⟨middle', before', rfl, -⟩ := leads_append.mp before
    obtain ⟨fronts, -, apart⟩ := List.nodup_append.mp nodup
    have outFront : y ∉ front := by
      intro mem
      exact (List.nodup_append.mp fronts).2.2 y mem y (List.mem_singleton_self y) rfl
    have outBack : y ∉ b := by
      intro mem
      exact apart y (List.mem_append_right _ (List.mem_singleton_self y)) y
        (List.mem_cons_of_mem _ mem) rfl
    unfold unlink
    rw [prev]
    simp only
    rw [List.append_assoc, leads_append]
    refine ⟨some y, before'.write outFront _, rfl, ?_⟩
    rw [Function.update_self]
    exact behind.write outBack _

theorem Holds.unlink (holds : d.Holds (a ++ x :: b)) (nodup : (a ++ x :: b).Nodup) :
    (d.unlink x).Holds (a ++ b) where
  forth := holds.unlink_forth nodup
  back := by
    have turned := holds.flip
    have nodup' := List.nodup_reverse.mpr nodup
    rw [List.reverse_append, List.reverse_cons, List.append_assoc, List.singleton_append]
      at turned nodup'
    rw [List.reverse_append]
    exact turned.unlink_forth nodup'

end Edit

end Doubly

end Links
