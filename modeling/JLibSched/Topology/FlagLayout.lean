import JLibSched.Topology.Groups

/-!
# The work flags

Each deque has a byte in `workFlags` that says whether it has work.  `StartPool` gives out the bytes
group by group, and with several groups each begins on a cache line of its own.  `flagSlot` has the
place of a deque's byte, which the deque writes.  A reader takes the place from `flagSlot` too, but
with one group it takes the index of the deque itself.

The places are different and lie in the array (`Placed`), and both ways of reading find the same
byte (`readSlot_eq`).
-/

namespace JLibSched.Topology

open Grouping

/-- `kCacheLine`. -/
def kLine : Nat := 128

/-- `flagSlot` and `total` as the loop over the groups leaves them. -/
structure FlagLayout where
  flagSlot : Nat → Nat
  total : Nat

/-- The loop over a group's members, where `place` is `total + i`. -/
def place : Nat → List Int → (Nat → Nat) → Nat → Nat
  | _, [], flagSlot => flagSlot
  | next, v :: members, flagSlot =>
    place (next + 1) members (Function.update flagSlot (toSize v) (next % 2 ^ 32))

namespace Pool

/-- A round of the loop over the groups. -/
def layoutStep (p : Pool) (l : FlagLayout) (g : Nat) : FlagLayout where
  flagSlot := place l.total (p.l3Members g) l.flagSlot
  total := l.total +
    if p.l3Groups = 1 then (p.l3Members g).length
    else ((p.l3Members g).length + kLine - 1) / kLine * kLine

def layoutUpTo (p : Pool) (groups : Nat) : FlagLayout :=
  (List.range groups).foldl p.layoutStep ⟨fun _ => 0, 0⟩

def flagSlot (p : Pool) : Nat → Nat := (p.layoutUpTo p.l3Groups).flagSlot

/-- How many bytes `workFlags` has. -/
def flagBytes (p : Pool) : Nat :=
  if (p.layoutUpTo p.l3Groups).total = 0 then 1 else (p.layoutUpTo p.l3Groups).total

def flagsGrouped (p : Pool) : Bool := p.l3Groups > 1

/-- The place where `DequeHasWork` reads. -/
def readSlot (p : Pool) (q : Nat) : Nat := if p.flagsGrouped then p.flagSlot q else q

/-- `DequeHasWork`, once the flags are there. -/
def dequeHasWork (p : Pool) (workFlags : Nat → BitVec 8) (q : Nat) : Bool :=
  workFlags (p.readSlot q) != 0

/-- The deque writes its flag. -/
def writeFlag (p : Pool) (workFlags : Nat → BitVec 8) (d : Nat) (value : BitVec 8) :
    Nat → BitVec 8 :=
  Function.update workFlags (p.flagSlot d) value

end Pool

/-! ## The steal order -/

/-- The cursor's turn in the worker's own group, of at most so many rounds. -/
def turnLocal (mine : List Int) (qIndex : Int) : Nat → Nat → Nat
  | 0, l3Local => l3Local
  | rounds + 1, l3Local =>
    let next := (l3Local + 1) % mine.length
    if mine[next]? ≠ some qIndex then next else turnLocal mine qIndex rounds next

/-- The victim in the own group.  There is none where the code reads beyond the list. -/
def localVictim (mine : List Int) (qIndex : Int) (l3Local : Nat) : Option Int :=
  mine[turnLocal mine qIndex mine.length l3Local]?

/-- The victim in another group.  There is none where the code divides by 0. -/
def remoteVictim (others : List Int) (l3Remote : Nat) : Option Int :=
  if others.length = 0 then none else others[(l3Remote + 1) % others.length]?

theorem turnLocal_lt {mine : List Int} (some : mine ≠ []) (qIndex : Int) {rounds : Nat}
    (turns : 0 < rounds) (l3Local : Nat) : turnLocal mine qIndex rounds l3Local < mine.length := by
  have within : ∀ l, (l + 1) % mine.length < mine.length :=
    fun l => Nat.mod_lt _ (List.length_pos_of_ne_nil some)
  induction rounds generalizing l3Local with
  | zero => exact absurd turns (lt_irrefl 0)
  | succ rounds ih =>
    simp only [turnLocal]
    split
    · exact within l3Local
    · rcases Nat.eq_zero_or_pos rounds with rfl | more
      · exact within l3Local
      · exact ih more _

theorem localVictim_mem {mine : List Int} (some : mine ≠ []) (qIndex : Int) (l3Local : Nat) :
    ∃ v ∈ mine, localVictim mine qIndex l3Local = .some v := by
  have within := turnLocal_lt some qIndex (List.length_pos_of_ne_nil some) l3Local
  exact ⟨_, List.getElem_mem within, List.getElem?_eq_getElem within⟩

theorem remoteVictim_mem {others : List Int} (some : others ≠ []) (l3Remote : Nat) :
    ∃ v ∈ others, remoteVictim others l3Remote = .some v := by
  have positive := List.length_pos_of_ne_nil some
  have within := Nat.mod_lt (l3Remote + 1) positive
  unfold remoteVictim
  rw [if_neg positive.ne']
  exact ⟨_, List.getElem_mem within, List.getElem?_eq_getElem within⟩

/-! ## Placing a group -/

/-- The members get the next places in order, and the others keep theirs. -/
theorem place_of_mem {ds : List Nat} (nodup : ds.Nodup) (next : Nat) (small : ∀ d ∈ ds, d < 2 ^ 64)
    (fits : next + ds.length ≤ 2 ^ 32) (flagSlot : Nat → Nat) :
    (∀ d, d ∉ ds → place next (ds.map fun d : Nat => (d : Int)) flagSlot d = flagSlot d) ∧
      ∀ i (inside : i < ds.length),
        place next (ds.map fun d : Nat => (d : Int)) flagSlot (ds.get ⟨i, inside⟩) = next + i := by
  induction ds generalizing next flagSlot with
  | nil => exact ⟨fun d _ => rfl, fun i absurd => (Nat.not_lt_zero i absurd).elim⟩
  | cons d ds ih =>
    obtain ⟨out, nodup⟩ := List.nodup_cons.mp nodup
    rw [List.length_cons] at fits
    have index : toSize d = d := toSize_natCast (small d List.mem_cons_self)
    obtain ⟨keeps, gets⟩ := ih nodup (next + 1)
      (fun e mem => small e (List.mem_cons_of_mem d mem)) (by omega)
      (Function.update flagSlot (toSize d) (next % 2 ^ 32))
    constructor
    · intro e apart
      rw [List.mem_cons, not_or] at apart
      rw [List.map_cons, place, keeps e apart.2, index, Function.update_of_ne apart.1]
    · intro i inside
      rw [List.map_cons, place]
      cases i with
      | zero =>
        refine (keeps d out).trans ?_
        rw [index, Function.update_self]
        exact Nat.mod_eq_of_lt (by omega)
      | succ i =>
        refine (gets i (Nat.lt_of_succ_lt_succ inside)).trans ?_
        omega

namespace Pool

variable (p : Pool) {l : FlagLayout} {d q g k : Nat}

/-- After `k` rounds the deques of the groups so far have places of their own. -/
structure Placed (l : FlagLayout) (k : Nat) : Prop where
  below : ∀ d < p.numDeques, p.l3GroupOf d < k → l.flagSlot d < l.total
  apart : ∀ d < p.numDeques, ∀ e < p.numDeques, p.l3GroupOf d < k → p.l3GroupOf e < k →
    l.flagSlot d = l.flagSlot e → d = e
  size : l.total ≤
    ((List.range k).map fun g => (group p.numDeques p.l3GroupOf g).length).sum + kLine * k

theorem layoutUpTo_succ (k : Nat) : p.layoutUpTo (k + 1) = p.layoutStep (p.layoutUpTo k) k := by
  unfold layoutUpTo
  rw [List.range_succ, List.foldl_append]
  rfl

/-- A group takes the bytes of its members, and less than a line beyond them. -/
theorem layoutStep_total (l : FlagLayout) (k : Nat) :
    l.total + (p.l3Members k).length ≤ (p.layoutStep l k).total ∧
      (p.layoutStep l k).total ≤ l.total + (p.l3Members k).length + kLine := by
  simp only [layoutStep]
  split
  · omega
  · have parts := Nat.div_add_mod ((p.l3Members k).length + kLine - 1) kLine
    have rest := Nat.mod_lt ((p.l3Members k).length + kLine - 1) (show kLine > 0 by decide)
    unfold kLine at *
    omega

variable {p}

theorem Placed.step (placed : p.Placed l k) (inside : k < p.l3Groups) :
    p.Placed (p.layoutStep l k) (k + 1) := by
  have few := p.l3Groups_le
  have many := p.numDeques_le
  have part := @sum_length_le p.numDeques p.l3Groups p.l3GroupOf (fun _ => p.l3GroupOf_lt) _ inside
  have size := placed.size
  rw [List.range_succ, List.map_append, List.sum_append] at part
  simp only [List.map_cons, List.map_nil, List.sum_cons, List.sum_nil, Nat.add_zero] at part
  have members : (p.l3Members k).length = (group p.numDeques p.l3GroupOf k).length := by
    rw [p.l3Members_eq, List.length_map]
  have grows := p.layoutStep_total l k
  rw [members] at grows
  have fits : l.total + (group p.numDeques p.l3GroupOf k).length ≤ 2 ^ 32 := by
    unfold kLine at size
    omega
  obtain ⟨keeps, gets⟩ := place_of_mem (@nodup_group p.numDeques p.l3GroupOf k) l.total
    (fun d mem => ((mem_group.mp mem).1.trans_le many).trans (by decide)) fits l.flagSlot
  rw [← p.l3Members_eq] at keeps gets
  have old : ∀ d, p.l3GroupOf d < k → (p.layoutStep l k).flagSlot d = l.flagSlot d := by
    intro d before
    exact keeps d fun mem => before.ne (mem_group.mp mem).2
  have new : ∀ d < p.numDeques, p.l3GroupOf d = k →
      ∃ i : Fin (group p.numDeques p.l3GroupOf k).length,
        (group p.numDeques p.l3GroupOf k).get i = d ∧
          (p.layoutStep l k).flagSlot d = l.total + i := by
    intro d inside here
    obtain ⟨i, rfl⟩ := List.get_of_mem (mem_group.mpr ⟨inside, here⟩)
    exact ⟨i, rfl, gets i i.isLt⟩
  constructor
  case below =>
    intro d inside upTo
    rcases Nat.lt_succ_iff_lt_or_eq.mp upTo with before | here
    · rw [old d before]
      exact (placed.below d inside before).trans_le (by omega)
    · obtain ⟨i, -, at'⟩ := new d inside here
      have := i.isLt
      omega
  case apart =>
    intro d dInside e eInside dUpTo eUpTo same
    rcases Nat.lt_succ_iff_lt_or_eq.mp dUpTo with dBefore | dHere
    · rw [old d dBefore] at same
      have low := placed.below d dInside dBefore
      rcases Nat.lt_succ_iff_lt_or_eq.mp eUpTo with eBefore | eHere
      · rw [old e eBefore] at same
        exact placed.apart d dInside e eInside dBefore eBefore same
      · obtain ⟨j, -, at'⟩ := new e eInside eHere
        omega
    · obtain ⟨i, isD, dAt⟩ := new d dInside dHere
      rcases Nat.lt_succ_iff_lt_or_eq.mp eUpTo with eBefore | eHere
      · rw [old e eBefore] at same
        have low := placed.below e eInside eBefore
        omega
      · obtain ⟨j, isE, eAt⟩ := new e eInside eHere
        have one : i = j := Fin.ext (by omega)
        rw [← isD, ← isE, one]
  case size =>
    rw [List.range_succ, List.map_append, List.sum_append]
    simp only [List.map_cons, List.map_nil, List.sum_cons, List.sum_nil, Nat.add_zero]
    rw [Nat.mul_succ]
    omega

theorem layoutUpTo_placed (upTo : k ≤ p.l3Groups) : p.Placed (p.layoutUpTo k) k := by
  induction k with
  | zero =>
    refine ⟨fun d _ absurd => ?_, fun d _ e _ absurd => ?_, Nat.zero_le _⟩
    · exact (Nat.not_lt_zero _ absurd).elim
    · exact (Nat.not_lt_zero _ absurd).elim
  | succ k ih =>
    rw [layoutUpTo_succ]
    exact (ih (Nat.le_of_succ_le upTo)).step upTo

variable (p)

theorem flagSlot_lt (inside : d < p.numDeques) : p.flagSlot d < p.flagBytes := by
  have below := (layoutUpTo_placed le_rfl).below d inside (p.l3GroupOf_lt inside)
  unfold flagBytes
  split
  · omega
  · exact below

theorem flagSlot_injective {e : Nat} (dInside : d < p.numDeques) (eInside : e < p.numDeques)
    (same : p.flagSlot d = p.flagSlot e) : d = e :=
  (layoutUpTo_placed le_rfl).apart d dInside e eInside (p.l3GroupOf_lt dInside)
    (p.l3GroupOf_lt eInside) same

/-- With one group a deque's place is its index. -/
theorem flagSlot_eq (single : p.l3Groups = 1) (inside : d < p.numDeques) : p.flagSlot d = d := by
  have all : group p.numDeques p.l3GroupOf 0 = List.range p.numDeques := by
    refine List.filter_eq_self.mpr fun e mem => ?_
    have below := p.l3GroupOf_lt (List.mem_range.mp mem)
    rw [single] at below
    exact decide_eq_true (Nat.lt_one_iff.mp below)
  have listed : p.l3Members 0 = (List.range p.numDeques).map fun d : Nat => (d : Int) := by
    rw [p.l3Members_eq, all]
  have many := p.numDeques_le
  have size : (List.range p.numDeques).length = p.numDeques := List.length_range
  obtain ⟨-, gets⟩ := place_of_mem (@List.nodup_range p.numDeques) 0
    (fun e mem => ((List.mem_range.mp mem).trans_le many).trans (by decide)) (by omega) fun _ => 0
  have here := gets d (size.symm ▸ inside)
  rw [List.get_eq_getElem, List.getElem_range, Nat.zero_add, ← listed] at here
  unfold flagSlot
  rw [single, layoutUpTo_succ]
  exact here

/-- Where the flag of a deque is read is where it is written. -/
theorem readSlot_eq (inside : q < p.numDeques) : p.readSlot q = p.flagSlot q := by
  unfold readSlot flagsGrouped
  split
  · rfl
  · rename_i single
    have least : 1 ≤ p.l3Groups := one_le_count
    exact (p.flagSlot_eq (by simpa using le_antisymm (by simpa using single) least) inside).symm

/-- A deque's flag is read as it was written, and no other deque's flag is changed. -/
theorem dequeHasWork_writeFlag (workFlags : Nat → BitVec 8) (value : BitVec 8)
    (dInside : d < p.numDeques) (qInside : q < p.numDeques) :
    p.dequeHasWork (p.writeFlag workFlags d value) q =
      if q = d then value != 0 else p.dequeHasWork workFlags q := by
  unfold dequeHasWork writeFlag
  rw [p.readSlot_eq qInside]
  split
  · rename_i same
    rw [same, Function.update_self]
  · rename_i other
    rw [Function.update_of_ne]
    exact fun same => other (p.flagSlot_injective qInside dInside same)

/-! ## The groups and the flags -/

/-- The lists of the groups have each deque once and none is empty.  The list of the others has what
is not in the group.  With several groups the steal path has a victim in the worker's own group and
one outside.  The deques have bytes of their own in `workFlags`, and `DequeHasWork` reads the byte
that the deque writes. -/
theorem groups_and_flags (p : Pool) :
    (((List.range p.l3Groups).flatMap p.l3Members).Perm
        ((List.range p.numDeques).map fun d : Nat => (d : Int)) ∧
      ∀ g < p.l3Groups, p.l3Members g ≠ []) ∧
    (∀ g < p.l3Groups, (p.l3Others g).Nodup ∧
      (∀ v, v ∈ p.l3Others g ↔ (∃ d < p.numDeques, (d : Int) = v) ∧ v ∉ p.l3Members g) ∧
      (1 < p.l3Groups → p.l3Others g ≠ [])) ∧
    (1 < p.l3Groups → ∀ q < p.numDeques, ∀ l3Local l3Remote,
      (∃ v ∈ p.l3Members (p.l3GroupOf q),
        localVictim (p.l3Members (p.l3GroupOf q)) q l3Local = some v) ∧
      ∃ v ∈ p.l3Others (p.l3GroupOf q),
        remoteVictim (p.l3Others (p.l3GroupOf q)) l3Remote = some v) ∧
    (∀ d < p.numDeques, p.flagSlot d < p.flagBytes ∧
      ∀ e < p.numDeques, p.flagSlot d = p.flagSlot e → d = e) ∧
    ∀ q < p.numDeques, p.readSlot q = p.flagSlot q ∧
      ∀ workFlags, ∀ d < p.numDeques, ∀ value,
        p.dequeHasWork (p.writeFlag workFlags d value) q =
          if q = d then value != 0 else p.dequeHasWork workFlags q := by
  refine ⟨⟨p.l3Members_perm, fun g below => p.l3Members_ne_nil below⟩, ?_, ?_, ?_, ?_⟩
  · intro g _
    exact ⟨p.nodup_l3Others g, fun v => p.mem_l3Others_iff, fun more => p.l3Others_ne_nil more g⟩
  · intro more q inside l3Local l3Remote
    exact ⟨localVictim_mem (p.l3Members_ne_nil (p.l3GroupOf_lt inside)) q l3Local,
      remoteVictim_mem (p.l3Others_ne_nil more _) l3Remote⟩
  · intro d inside
    exact ⟨p.flagSlot_lt inside, fun e within same => p.flagSlot_injective inside within same⟩
  · intro q inside
    exact ⟨p.readSlot_eq inside, fun workFlags d within value =>
      p.dequeHasWork_writeFlag workFlags value within inside⟩

/-- Four workers on two caches, where worker 1 has no mask, and the non-worker deque. -/
example :
    (List.range 5).map (@start 8 0 4 0 false (by decide) (by decide) false
      (fun q => ⟨fun _ => if q = 1 then 0 else BitVec.ofNat 64 (1 + q / 2)⟩) 0).flagSlot =
      [0, 1, 128, 129, 2] := by
  decide +kernel

end Pool

end JLibSched.Topology
