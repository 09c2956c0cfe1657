import JLibSched.Lib.Links
import Mathlib.Tactic

/-!
# The list of waiters

`WaitList` queues nodes that stand on the stacks of the waiters, oldest first, with a pointer to
the first one and one to the last.  `Remove` walks along the pointers to the nodes and edits the
one it finds; `TakeIf` takes the list apart into two chains, each built behind a pointer to its last
link.

A node is its address.  The loops have fuel, and as much as the list is long is enough.
-/

namespace JLibSched.WaitList

open Links

/-- The links of all nodes, and the two pointers. -/
structure State where
  next : Nat → Option Nat
  head : Option Nat
  tail : Option Nat

def empty : State := ⟨fun _ => none, none, none⟩

/-- A `WaitNode**`: to the first pointer of a list or to the link of a node. -/
inductive Link where
  | head
  | next (n : Nat)
deriving DecidableEq, Repr

def State.setNext (s : State) (n : Nat) (value : Option Nat) : State :=
  { s with next := Function.update s.next n value }

/-- `*link`. -/
def State.read (s : State) : Link → Option Nat
  | .head => s.head
  | .next n => s.next n

/-- `*link = value`. -/
def State.write (s : State) (link : Link) (value : Option Nat) : State :=
  match link with
  | .head => { s with head := value }
  | .next n => s.setNext n value

/-- `PushBack`. -/
def pushBack (s : State) (n : Nat) : State :=
  let s := s.setNext n none
  match s.tail with
  | some t => { s.setNext t (some n) with tail := some n }
  | none => { s with head := some n, tail := some n }

/-- `PopFront`. -/
def popFront (s : State) : State × Option Nat :=
  match s.head with
  | none => (s, none)
  | some n =>
    let s := { s with head := s.next n }
    let s := if s.head = none then { s with tail := none } else s
    (s.setNext n none, some n)

/-- `TakeAll`. -/
def takeAll (s : State) : State × Option Nat := ({ s with head := none, tail := none }, s.head)

/-- The loop of `Remove`, with its pointer to a link and the node before it. -/
def removeFrom : Nat → State → Nat → Link → Option Nat → Option (State × Bool)
  | 0, _, _, _, _ => none
  | fuel + 1, s, target, link, prev =>
    match s.read link with
    | none => some (s, false)
    | some n =>
      if n = target then
        let s := s.write link (s.next n)
        let s := if s.tail = some n then { s with tail := prev } else s
        some (s.setNext n none, true)
      else removeFrom fuel s target (.next n) (some n)

/-- `Remove`. -/
def remove (fuel : Nat) (s : State) (target : Nat) : Option (State × Bool) :=
  removeFrom fuel s target .head none

/-- A chain that is being built: its first node, and the pointer behind its last one. -/
structure Chain where
  head : Option Nat
  tail : Link

def Chain.empty : Chain := ⟨none, .head⟩

/-- `*tail = n; tail = &n->next`. -/
def Chain.append (chain : Chain) (next : Nat → Option Nat) (n : Nat) :
    Chain × (Nat → Option Nat) :=
  match chain.tail with
  | .head => (⟨some n, .next n⟩, next)
  | .next m => (⟨chain.head, .next n⟩, Function.update next m (some n))

/-- The loop of `TakeIf`: the links, the node it is at, the two chains, and `keepLast`. -/
def takeIfFrom : Nat → (Nat → Bool) → (Nat → Option Nat) → Option Nat → Chain → Chain →
    Option Nat → Option (State × Option Nat)
  | 0, _, _, _, _, _, _ => none
  | _ + 1, _, next, none, taken, keep, keepLast => some (⟨next, keep.head, keepLast⟩, taken.head)
  | fuel + 1, pred, next, some n, taken, keep, keepLast =>
    let cut := Function.update next n none
    if pred n then
      takeIfFrom fuel pred (taken.append cut n).2 (next n) (taken.append cut n).1 keep keepLast
    else
      takeIfFrom fuel pred (keep.append cut n).2 (next n) taken (keep.append cut n).1 (some n)

/-- `TakeIf`. -/
def takeIf (fuel : Nat) (s : State) (pred : Nat → Bool) : Option (State × Option Nat) :=
  takeIfFrom fuel pred s.next s.head .empty .empty none

/-! ## Calls -/

inductive Op where
  | pushBack (n : Nat)
  | popFront
  | takeAll
  | remove (n : Nat)
  | takeIf (pred : Nat → Bool)

/-- What a call returns. -/
inductive Answer where
  | nothing
  | node (n : Option Nat)
  | chain (first : Option Nat)
  | removed (found : Bool)

def call (fuel : Nat) (s : State) : Op → Option (State × Answer)
  | .pushBack n => some (pushBack s n, .nothing)
  | .popFront => some ((popFront s).1, .node (popFront s).2)
  | .takeAll => some ((takeAll s).1, .chain (takeAll s).2)
  | .remove n => (remove fuel s n).map fun r => (r.1, .removed r.2)
  | .takeIf pred => (takeIf fuel s pred).map fun r => (r.1, .chain r.2)

def run (fuel : Nat) : State → List Op → Option State
  | s, [] => some s
  | s, op :: ops => (call fuel s op).bind fun r => run fuel r.1 ops

/-! ## What a list of waiters is for -/

/-- What a call returns of the queue. -/
inductive Reply where
  | nothing
  | node (n : Option Nat)
  | chain (l : List Nat)
  | removed (found : Bool)

/-- A node that is queued is not queued again. -/
def Allowed (l : List Nat) : Op → Prop
  | .pushBack n => n ∉ l
  | .popFront | .takeAll | .remove _ | .takeIf _ => True

def after (l : List Nat) : Op → List Nat
  | .pushBack n => l ++ [n]
  | .popFront => l.tail
  | .takeAll => []
  | .remove n => l.erase n
  | .takeIf pred => l.filter fun n => !pred n

def reply (l : List Nat) : Op → Reply
  | .pushBack _ => .nothing
  | .popFront => .node l.head?
  | .takeAll => .chain l
  | .remove n => .removed (decide (n ∈ l))
  | .takeIf pred => .chain (l.filter pred)

/-- The queue after some calls, each allowed where it is made. -/
inductive Queued : List Op → List Nat → Prop where
  | start : Queued [] []
  | next {ops : List Op} {l : List Nat} {op : Op} (before : Queued ops l) (allowed : Allowed l op) :
      Queued (ops ++ [op]) (after l op)

/-- The list holds the queue. -/
structure Holds (s : State) (l : List Nat) : Prop where
  leads : Leads s.next s.head l none
  tail : s.tail = l.getLast?
  nodup : l.Nodup

/-- An answer gives the reply: a node that is unlinked, or a chain that ends. -/
def Answers (next : Nat → Option Nat) : Answer → Reply → Prop
  | .nothing, .nothing => True
  | .node n, .node m => n = m ∧ ∀ x ∈ n, next x = none
  | .chain first, .chain l => Leads next first l none
  | .removed found, .removed found' => found = found'
  | _, _ => False

variable {s : State} {l : List Nat} {n : Nat}

theorem empty_holds : Holds empty [] := ⟨rfl, rfl, List.nodup_nil⟩

/-! ## `PushBack`, `PopFront` and `TakeAll` -/

theorem pushBack_holds (holds : Holds s l) (fresh : n ∉ l) : Holds (pushBack s n) (l ++ [n]) := by
  have nodup : (l ++ [n]).Nodup := by
    rw [List.nodup_append]
    exact ⟨holds.nodup, List.nodup_singleton n, fun x mem y same => by
      rintro rfl
      exact fresh (List.mem_singleton.mp same ▸ mem)⟩
  have cut : Leads (s.setNext n none).next s.head l none := holds.leads.write fresh none
  have last : (s.setNext n none).next n = none := Function.update_self ..
  unfold pushBack
  simp only
  split
  · rename_i t there
    have ends : l.getLast? = some t := holds.tail.symm.trans there
    obtain ⟨front, rfl⟩ := List.getLast?_eq_some_iff.mp ends
    exact ⟨cut.concat holds.nodup fresh last, List.getLast?_concat.symm, nodup⟩
  · rename_i nothing
    have none : l = [] := List.getLast?_eq_none_iff.mp (holds.tail.symm.trans nothing)
    subst none
    exact ⟨⟨rfl, last⟩, rfl, nodup⟩

theorem popFront_holds (holds : Holds s l) :
    Holds (popFront s).1 l.tail ∧ (popFront s).2 = l.head? ∧
      ∀ x ∈ (popFront s).2, (popFront s).1.next x = none := by
  have first := holds.leads.head
  unfold popFront
  cases l with
  | nil =>
    rw [← first]
    exact ⟨holds, rfl, fun x absurd => by cases absurd⟩
  | cons n l =>
    obtain ⟨here, rest⟩ := holds.leads
    obtain ⟨out, nodup⟩ := List.nodup_cons.mp holds.nodup
    have cut : Leads (s.setNext n none).next (s.next n) l none := rest.write out none
    have unlinked : (s.setNext n none).next n = none := Function.update_self ..
    have single (x : Nat) (mem : x ∈ some n) : (s.setNext n none).next x = none := by
      cases mem
      exact unlinked
    have last := holds.tail
    rw [here]
    simp only
    cases l with
    | nil =>
      have ends : s.next n = none := rest
      rw [if_pos ends]
      exact ⟨⟨cut, rfl, nodup⟩, rfl, single⟩
    | cons m l =>
      have more : s.next n ≠ none := by
        rw [rest.1]
        exact Option.some_ne_none m
      rw [if_neg more]
      exact ⟨⟨cut, last, nodup⟩, rfl, single⟩

theorem takeAll_holds (holds : Holds s l) : Holds (takeAll s).1 [] ∧
    Leads (takeAll s).1.next (takeAll s).2 l none :=
  ⟨⟨rfl, rfl, List.nodup_nil⟩, holds.leads⟩

/-! ## `Remove` -/

/-- The pointer behind some nodes. -/
def linkAfter (front : List Nat) : Link :=
  match front.getLast? with
  | none => .head
  | some m => .next m

theorem linkAfter_concat (front : List Nat) (m : Nat) : linkAfter (front ++ [m]) = .next m := by
  unfold linkAfter
  rw [List.getLast?_concat]

/-- Behind some nodes the rest of the list begins. -/
theorem read_linkAfter {front rest : List Nat} (leads : Leads s.next s.head (front ++ rest) none) :
    s.read (linkAfter front) = rest.head? := by
  rcases List.eq_nil_or_concat' front with rfl | ⟨before, m, rfl⟩
  · exact leads.head.symm
  · rw [linkAfter_concat]
    obtain ⟨middle, passed, follows⟩ := leads_append.mp leads
    obtain ⟨last, -, same, there⟩ := leads_append.mp passed
    rw [← there] at follows
    exact follows.head.symm

/-- A write behind some nodes puts another rest there. -/
theorem write_linkAfter {front rest rest' : List Nat} {value : Option Nat}
    (leads : Leads s.next s.head (front ++ rest) none) (nodup : (front ++ rest').Nodup)
    (follows : Leads s.next value rest' none) :
    Leads (s.write (linkAfter front) value).next (s.write (linkAfter front) value).head
      (front ++ rest') none := by
  rcases List.eq_nil_or_concat' front with rfl | ⟨before, m, rfl⟩
  · exact follows
  · rw [linkAfter_concat]
    obtain ⟨middle, passed, -⟩ := leads_append.mp leads
    obtain ⟨last, begins, rfl, -⟩ := leads_append.mp passed
    rw [List.append_assoc, List.singleton_append] at nodup ⊢
    obtain ⟨-, behind, apart⟩ := List.nodup_append.mp nodup
    refine begins.splice follows (fun mem => ?_) (List.nodup_cons.mp behind).1
    exact apart m mem m List.mem_cons_self rfl

/-- The node that the loop has found is unlinked. -/
theorem unlink_holds {front rest : List Nat} (holds : Holds s (front ++ n :: rest)) {t : State}
    (next : t.next = Function.update (s.write (linkAfter front) (s.next n)).next n none)
    (head : t.head = (s.write (linkAfter front) (s.next n)).head)
    (tail : t.tail = if s.tail = some n then front.getLast? else s.tail) :
    Holds t (front ++ rest) := by
  obtain ⟨middle, -, rfl, follows⟩ := leads_append.mp holds.leads
  obtain ⟨before, behind, apart⟩ := List.nodup_append.mp holds.nodup
  obtain ⟨out, rest'⟩ := List.nodup_cons.mp behind
  have nodup : (front ++ rest).Nodup := List.nodup_append.mpr
    ⟨before, rest', fun x mem y mem' => apart x mem y (List.mem_cons_of_mem n mem')⟩
  have gone : n ∉ front ++ rest := by
    rw [List.mem_append]
    rintro (inFront | inRest)
    · exact apart n inFront n List.mem_cons_self rfl
    · exact out inRest
  refine ⟨?_, ?_, nodup⟩
  · rw [next, head]
    exact (write_linkAfter holds.leads nodup follows).write gone none
  · rw [tail, holds.tail]
    cases rest with
    | nil =>
      rw [List.getLast?_append, List.append_nil]
      exact if_pos rfl
    | cons m rest =>
      obtain ⟨last, ends⟩ : ∃ last, (m :: rest).getLast? = some last :=
        ⟨_, List.getLast?_eq_some_getLast (List.cons_ne_nil m rest)⟩
      have inside : last ∈ m :: rest := List.mem_of_getLast? ends
      have other : last ≠ n := by
        rintro rfl
        exact out inside
      have whole : (front ++ n :: m :: rest).getLast? = some last := by
        rw [List.getLast?_append, List.getLast?_cons_cons, ends]
        rfl
      rw [whole, if_neg (fun same => other (Option.some.inj same)), List.getLast?_append, ends]
      rfl

theorem write_tail (s : State) (link : Link) (value : Option Nat) :
    (s.write link value).tail = s.tail := by
  cases link with
  | head | next => rfl

theorem removeFrom_spec {front rest : List Nat} {target : Nat} (fuel : Nat)
    (enough : rest.length < fuel) (holds : Holds s (front ++ rest)) (passed : target ∉ front) :
    ∃ s', removeFrom fuel s target (linkAfter front) front.getLast? =
        some (s', decide (target ∈ rest)) ∧
      Holds s' (front ++ rest.erase target) ∧
      (target ∈ rest → s'.next target = none) := by
  induction rest generalizing front fuel with
  | nil =>
    cases fuel with
    | zero => cases enough
    | succ fuel =>
      refine ⟨s, ?_, holds, fun absurd => by cases absurd⟩
      rw [removeFrom, read_linkAfter holds.leads]
      rfl
  | cons n rest ih =>
    cases fuel with
    | zero => cases enough
    | succ fuel =>
      rw [removeFrom, read_linkAfter holds.leads, List.head?_cons]
      simp only
      rcases eq_or_ne n target with rfl | other
      · rw [if_pos rfl, List.erase_cons_head]
        refine ⟨_, by rw [decide_eq_true List.mem_cons_self], unlink_holds holds ?_ ?_ ?_,
          fun _ => Function.update_self ..⟩
        · split
          · rfl
          · rfl
        · split
          · rfl
          · rfl
        · rw [write_tail]
          split
          · rfl
          · exact write_tail ..
      · have moved : front ++ n :: rest = front ++ [n] ++ rest := by simp
        have behind : target ∉ front ++ [n] := by
          rw [List.mem_append, List.mem_singleton]
          rintro (inFront | rfl)
          · exact passed inFront
          · exact other rfl
        rw [moved] at holds
        obtain ⟨s', done, kept, unlinked⟩ :=
          ih fuel (Nat.lt_of_succ_lt_succ enough) holds behind
        rw [linkAfter_concat, List.getLast?_concat] at done
        rw [if_neg other, List.erase_cons_tail (by simpa using other)]
        refine ⟨s', ?_, ?_, fun mem => unlinked ?_⟩
        · rw [done]
          simp only [List.mem_cons, other.symm, false_or]
        · simpa using kept
        · exact (List.mem_cons.mp mem).resolve_left other.symm

theorem remove_holds (holds : Holds s l) (target fuel : Nat) (enough : l.length < fuel) :
    ∃ s', remove fuel s target = some (s', decide (target ∈ l)) ∧ Holds s' (l.erase target) ∧
      (target ∈ l → s'.next target = none) :=
  @removeFrom_spec s [] l target fuel enough holds List.not_mem_nil

/-! ## `TakeIf` -/

/-- A chain has the nodes of `l`. -/
structure Built (next : Nat → Option Nat) (chain : Chain) (l : List Nat) : Prop where
  leads : Leads next chain.head l none
  tail : chain.tail = linkAfter l

theorem Built.write {next : Nat → Option Nat} {chain : Chain} (built : Built next chain l)
    (out : n ∉ l) (value : Option Nat) : Built (Function.update next n value) chain l :=
  ⟨built.leads.write out value, built.tail⟩

theorem Built.append {next : Nat → Option Nat} {chain : Chain} (built : Built next chain l)
    (nodup : l.Nodup) (out : n ∉ l) (last : next n = none) :
    Built (chain.append next n).2 (chain.append next n).1 (l ++ [n]) := by
  have leads := built.leads
  unfold Chain.append
  rw [built.tail]
  rcases List.eq_nil_or_concat' l with rfl | ⟨front, m, rfl⟩
  · exact ⟨⟨rfl, last⟩, rfl⟩
  · rw [linkAfter_concat]
    exact ⟨leads.concat nodup out last, (linkAfter_concat _ n).symm⟩

/-- A list elsewhere is not changed. -/
theorem Built.append_apart {next : Nat → Option Nat} {chain : Chain} {m : List Nat}
    {first : Option Nat} (built : Built next chain l) (apart : ∀ x ∈ l, x ∉ m)
    (leads : Leads next first m none) : Leads (chain.append next n).2 first m none := by
  unfold Chain.append
  rw [built.tail]
  rcases List.eq_nil_or_concat' l with rfl | ⟨front, y, rfl⟩
  · exact leads
  · rw [linkAfter_concat]
    exact leads.write (apart y (List.mem_append_right _ (List.mem_singleton_self y))) _

/-- Some nodes have been sorted into the two chains, and others are to come. -/
structure Sorting (pred : Nat → Bool) (next : Nat → Option Nat) (first : Option Nat)
    (taken keep : Chain) (keepLast : Option Nat) (seen rest : List Nat) : Prop where
  taken : Built next taken (seen.filter pred)
  keep : Built next keep (seen.filter fun n => !pred n)
  keepLast : keepLast = (seen.filter fun n => !pred n).getLast?
  leads : Leads next first rest none
  nodup : (seen ++ rest).Nodup

section Sorting

variable {pred : Nat → Bool} {next : Nat → Option Nat} {first : Option Nat} {taken keep : Chain}
  {keepLast : Option Nat} {seen rest : List Nat}

/-- The next node is cut off from the nodes that are to come. -/
theorem Sorting.cut
    (sorting : Sorting pred next (some n) taken keep keepLast seen (n :: rest)) :
    Sorting pred (Function.update next n none) (next n) taken keep keepLast seen rest ∧
      n ∉ seen ∧ n ∉ rest := by
  obtain ⟨before, behind, apart⟩ := List.nodup_append.mp sorting.nodup
  obtain ⟨out, others⟩ := List.nodup_cons.mp behind
  have unseen : n ∉ seen := fun mem => apart n mem n List.mem_cons_self rfl
  have off (p : Nat → Bool) : n ∉ seen.filter p := fun mem => unseen (List.mem_filter.mp mem).1
  have nodup : (seen ++ rest).Nodup := List.nodup_append.mpr
    ⟨before, others, fun x mem y mem' => apart x mem y (List.mem_cons_of_mem n mem')⟩
  exact ⟨⟨sorting.taken.write (off _) none, sorting.keep.write (off _) none, sorting.keepLast,
    sorting.leads.2.write out none, nodup⟩, unseen, out⟩

/-- No node is in both chains, or in a chain and still to come. -/
theorem Sorting.apart (sorting : Sorting pred next first taken keep keepLast seen rest) :
    (∀ x ∈ seen.filter pred, x ∉ seen.filter fun n => !pred n) ∧
      ∀ p, ∀ x ∈ seen.filter p, x ∉ rest := by
  constructor
  · intro x mem mem'
    have yes := (List.mem_filter.mp mem).2
    have no := (List.mem_filter.mp mem').2
    rw [yes] at no
    cases no
  · intro p x mem mem'
    exact (List.nodup_append.mp sorting.nodup).2.2 x (List.mem_filter.mp mem).1 x mem' rfl

theorem Sorting.nodup_next (sorting : Sorting pred next first taken keep keepLast seen rest)
    (unseen : n ∉ seen) (out : n ∉ rest) : (seen ++ [n] ++ rest).Nodup := by
  obtain ⟨before, behind, apart⟩ := List.nodup_append.mp sorting.nodup
  rw [List.append_assoc, List.singleton_append, List.nodup_append]
  refine ⟨before, List.nodup_cons.mpr ⟨out, behind⟩, fun x mem y mem' => ?_⟩
  rcases List.mem_cons.mp mem' with rfl | later
  · rintro rfl
    exact unseen mem
  · exact apart x mem y later

theorem Sorting.take (sorting : Sorting pred next first taken keep keepLast seen rest)
    (unseen : n ∉ seen) (out : n ∉ rest) (last : next n = none) (accepted : pred n = true) :
    Sorting pred (taken.append next n).2 first (taken.append next n).1 keep keepLast
      (seen ++ [n]) rest := by
  have picked : (seen ++ [n]).filter pred = seen.filter pred ++ [n] := by
    simp [List.filter_append, accepted]
  have left : (seen ++ [n]).filter (fun n => !pred n) = seen.filter fun n => !pred n := by
    simp [List.filter_append, accepted]
  have nodup := (List.nodup_append.mp sorting.nodup).1.filter pred
  refine ⟨?_, ?_, left.symm ▸ sorting.keepLast, ?_, sorting.nodup_next unseen out⟩
  · rw [picked]
    exact sorting.taken.append nodup (fun mem => unseen (List.mem_filter.mp mem).1) last
  · rw [left]
    exact ⟨sorting.taken.append_apart sorting.apart.1 sorting.keep.leads, sorting.keep.tail⟩
  · exact sorting.taken.append_apart (sorting.apart.2 pred) sorting.leads

theorem Sorting.leave (sorting : Sorting pred next first taken keep keepLast seen rest)
    (unseen : n ∉ seen) (out : n ∉ rest) (last : next n = none) (refused : pred n = false) :
    Sorting pred (keep.append next n).2 first taken (keep.append next n).1 (some n)
      (seen ++ [n]) rest := by
  have picked : (seen ++ [n]).filter (fun n => !pred n) =
      (seen.filter fun n => !pred n) ++ [n] := by
    simp [List.filter_append, refused]
  have left : (seen ++ [n]).filter pred = seen.filter pred := by
    simp [List.filter_append, refused]
  have nodup := (List.nodup_append.mp sorting.nodup).1.filter fun n => !pred n
  refine ⟨?_, ?_, ?_, ?_, sorting.nodup_next unseen out⟩
  · rw [left]
    have other := fun x mem mem' => sorting.apart.1 x mem' mem
    exact ⟨sorting.keep.append_apart other sorting.taken.leads, sorting.taken.tail⟩
  · rw [picked]
    exact sorting.keep.append nodup (fun mem => unseen (List.mem_filter.mp mem).1) last
  · rw [picked, List.getLast?_concat]
  · exact sorting.keep.append_apart (sorting.apart.2 _) sorting.leads

end Sorting

theorem takeIfFrom_spec {pred : Nat → Bool} {next : Nat → Option Nat} {first : Option Nat}
    {taken keep : Chain} {keepLast : Option Nat} {seen rest : List Nat} (fuel : Nat)
    (enough : rest.length < fuel)
    (sorting : Sorting pred next first taken keep keepLast seen rest) :
    ∃ s' ptr, takeIfFrom fuel pred next first taken keep keepLast = some (s', ptr) ∧
      Holds s' ((seen ++ rest).filter fun n => !pred n) ∧
      Leads s'.next ptr ((seen ++ rest).filter pred) none := by
  induction rest generalizing next first taken keep keepLast seen fuel with
  | nil =>
    cases fuel with
    | zero => cases enough
    | succ fuel =>
      have ends : first = none := sorting.leads
      have nodup := sorting.nodup
      subst ends
      rw [List.append_nil] at nodup ⊢
      exact ⟨_, _, rfl, ⟨sorting.keep.leads, sorting.keepLast, nodup.filter _⟩,
        sorting.taken.leads⟩
  | cons n rest ih =>
    cases fuel with
    | zero => cases enough
    | succ fuel =>
      obtain rfl := sorting.leads.1
      have enough := Nat.lt_of_succ_lt_succ enough
      have moved : seen ++ n :: rest = seen ++ [n] ++ rest := by simp
      have last : Function.update next n none n = none := Function.update_self ..
      obtain ⟨cut, unseen, out⟩ := sorting.cut
      rw [takeIfFrom, moved]
      cases decided : pred n with
      | true => exact ih fuel enough (cut.take unseen out last decided)
      | false => exact ih fuel enough (cut.leave unseen out last decided)

theorem takeIf_holds (holds : Holds s l) (pred : Nat → Bool) (fuel : Nat)
    (enough : l.length < fuel) :
    ∃ s' first, takeIf fuel s pred = some (s', first) ∧ Holds s' (l.filter fun n => !pred n) ∧
      Leads s'.next first (l.filter pred) none := by
  have sorting : Sorting pred s.next s.head .empty .empty none [] l :=
    ⟨⟨rfl, rfl⟩, ⟨rfl, rfl⟩, rfl, holds.leads, holds.nodup⟩
  exact takeIfFrom_spec fuel enough sorting

/-! ## Every sequence of calls -/

theorem call_holds (holds : Holds s l) {op : Op} (allowed : Allowed l op) {fuel : Nat}
    (enough : l.length < fuel) : ∃ s' answer, call fuel s op = some (s', answer) ∧
      Holds s' (after l op) ∧ Answers s'.next answer (reply l op) := by
  cases op with
  | pushBack n => exact ⟨_, _, rfl, pushBack_holds holds allowed, trivial⟩
  | popFront =>
    obtain ⟨kept, first, unlinked⟩ := popFront_holds holds
    exact ⟨_, _, rfl, kept, first, unlinked⟩
  | takeAll =>
    obtain ⟨kept, chain⟩ := takeAll_holds holds
    exact ⟨_, _, rfl, kept, chain⟩
  | remove n =>
    obtain ⟨s', done, kept, -⟩ := remove_holds holds n fuel enough
    exact ⟨s', .removed (decide (n ∈ l)), by rw [call, done]; rfl, kept, rfl⟩
  | takeIf pred =>
    obtain ⟨s', first, done, kept, chain⟩ := takeIf_holds holds pred fuel enough
    exact ⟨s', .chain first, by rw [call, done]; rfl, kept, chain⟩

theorem run_concat (fuel : Nat) (s : State) (ops : List Op) (op : Op) :
    run fuel s (ops ++ [op]) =
      (run fuel s ops).bind fun t => (call fuel t op).map Prod.fst := by
  induction ops generalizing s with
  | nil =>
    simp only [List.nil_append, run, Option.bind_some]
    cases call fuel s op with
    | none => rfl
    | some r => rfl
  | cons o ops ih =>
    simp only [List.cons_append, run]
    cases call fuel s o with
    | none => rfl
    | some r => exact ih r.1

theorem after_length (l : List Nat) (op : Op) : (after l op).length ≤ l.length + 1 := by
  cases op with
  | pushBack n => exact (List.length_append).le
  | popFront =>
    rw [after, List.length_tail]
    omega
  | takeAll => exact Nat.zero_le _
  | remove n => exact Nat.le_succ_of_le (List.erase_sublist ..).length_le
  | takeIf pred => exact Nat.le_succ_of_le (List.length_filter_le ..)

theorem queued_length {ops : List Op} (queued : Queued ops l) : l.length ≤ ops.length := by
  induction queued with
  | start => exact Nat.le_refl 0
  | @next ops l op _ _ ih =>
    have more := after_length l op
    rw [List.length_append, List.length_singleton]
    omega

theorem run_holds {ops : List Op} (queued : Queued ops l) {fuel : Nat}
    (enough : ops.length < fuel) : ∃ s, run fuel empty ops = some s ∧ Holds s l := by
  induction queued with
  | start => exact ⟨empty, rfl, empty_holds⟩
  | @next ops l op before allowed ih =>
    rw [List.length_append, List.length_singleton] at enough
    obtain ⟨s, ran, holds⟩ := ih (by omega)
    have short := queued_length before
    have room : l.length < fuel := by omega
    obtain ⟨s', answer, called, kept, -⟩ := call_holds holds allowed room
    refine ⟨s', ?_, kept⟩
    rw [run_concat, ran, Option.bind_some, called]
    rfl

/-- After every sequence of calls that queue no node twice, the list has the nodes of the queue in
order, with its last one as the tail, and the next call does and answers what it does and answers
on the queue. -/
theorem waitList_refines {ops : List Op} (queued : Queued ops l) {fuel : Nat}
    (enough : ops.length < fuel) :
    ∃ s, run fuel empty ops = some s ∧ Leads s.next s.head l none ∧ s.tail = l.getLast? ∧
      (s.tail = none ↔ l = []) ∧
      ∀ op, Allowed l op → ∃ s' answer, call fuel s op = some (s', answer) ∧
        Leads s'.next s'.head (after l op) none ∧ s'.tail = (after l op).getLast? ∧
        Answers s'.next answer (reply l op) := by
  obtain ⟨s, ran, holds⟩ := run_holds queued enough
  refine ⟨s, ran, holds.leads, holds.tail, ?_, fun op allowed => ?_⟩
  · rw [holds.tail]
    exact List.getLast?_eq_none_iff
  · have short := Nat.lt_of_le_of_lt (queued_length queued) enough
    obtain ⟨s', answer, called, kept, answers⟩ := call_holds holds allowed short
    exact ⟨s', answer, called, kept.leads, kept.tail, answers⟩

/-- Three nodes are queued, the last one is removed, and another one is queued behind the second.  Then
the even ones are taken. -/
theorem removed_last :
    ∃ s, run 6 empty [.pushBack 1, .pushBack 2, .pushBack 3, .remove 3, .pushBack 4] = some s ∧
      Leads s.next s.head [1, 2, 4] none ∧ s.tail = some 4 ∧
      ∃ s' answer, call 6 s (.takeIf fun n => n % 2 == 0) = some (s', answer) ∧
        Leads s'.next s'.head [1] none ∧ s'.tail = some 1 ∧
        Answers s'.next answer (.chain [2, 4]) := by
  have one : Queued [.pushBack 1] [1] := .next .start List.not_mem_nil
  have two : Queued [.pushBack 1, .pushBack 2] [1, 2] :=
    .next one (show 2 ∉ [1] from by decide)
  have three : Queued [.pushBack 1, .pushBack 2, .pushBack 3] [1, 2, 3] :=
    .next two (show 3 ∉ [1, 2] from by decide)
  have removed : Queued [.pushBack 1, .pushBack 2, .pushBack 3, .remove 3] [1, 2] :=
    .next three trivial
  have queued : Queued [.pushBack 1, .pushBack 2, .pushBack 3, .remove 3, .pushBack 4] [1, 2, 4] :=
    .next removed (show 4 ∉ [1, 2] from by decide)
  obtain ⟨s, ran, leads, tail, -, next⟩ := waitList_refines queued (Nat.lt_succ_self 5)
  exact ⟨s, ran, leads, tail, next (.takeIf fun n => n % 2 == 0) trivial⟩

end JLibSched.WaitList
