import JLibSched.Hazard.Model

/-!
# What a step of the hazard scheme can do

`Move layout i sh rest old sh' new`: thread `i` finds the frames `old` on top of `rest`, none for a
new call, and leaves the frames `new` there and the shared state `sh'`.  `Outside sh a sh'` is a
step of no call.  The moves are those of runs that meet `scansApart`: a deleter that runs from the loop
over `items` neither scans nor hands off on its thread.
-/

namespace JLibSched.Hazard

open Transition

variable {n : Nat}

def Frame.isScanItems : Frame → Bool
  | .scanItems .. => true
  | _ => false

/-- Whether the thread is in the loop over its `items`. -/
def inItems (frames : List Frame) : Bool := frames.any Frame.isScanItems

/-- The step on top of the frames does not start a scan inside the loop over `items`. -/
def Apart : List Frame → Prop
  | .scan _ :: rest => inItems rest = false
  | _ => True

/-- No deleter that runs from the loop over `items` scans or hands off on its thread. -/
def scansApart (s : State n) : Label n → Prop
  | .call i .handOffPending => s.shared.retireDead i = true ∨ inItems (s.stack i) = false
  | .step i => Apart (s.stack i)
  | _ => True

inductive Move (layout : Layout n) (i : Fin n) (sh : Shared n) (rest : List Frame) :
    List Frame → Shared n → List Frame → Prop where
  -- Calls.
  | nothing {dead : Fin n → Bool} : Move layout i sh rest [] { sh with retireDead := dead } []
  | protect {k source : Nat} (inside : k < layout.kCellsPerReader) :
      Move layout i sh rest [] sh.ensureTable [.load k source]
  | set {k : Nat} {ptr : Option Nat} (inside : k < layout.kCellsPerReader) :
      Move layout i sh rest [] (sh.setCell layout i k ptr) []
  | retireCall {ptr : Nat} :
      Move layout i sh rest []
        { sh with
          object := Function.update sh.object ptr .retired
          retired := sh.retired ++ [⟨ptr, sh.retired.length⟩] }
        [.retire ⟨ptr, sh.retired.length⟩]
  | scanCall {orphans : Bool} : Move layout i sh rest [] sh [.scan orphans]
  | adopt {dead : Fin n → Bool} (apart : inItems rest = false) (free : sh.orphanLock = false) :
      Move layout i sh rest []
        { sh.adopt (sh.items i) with
          items := Function.update sh.items i []
          retireDead := dead } []
  -- `Protect`.
  | load {k source : Nat} :
      Move layout i sh rest [.load k source] sh [.publish k source (sh.src source)]
  | publish {k source : Nat} {ptr : Option Nat} :
      Move layout i sh rest [.publish k source ptr] (sh.setCell layout i k ptr)
        [.recheck k source ptr]
  | hold {k source : Nat} :
      Move layout i sh rest [.recheck k source (sh.src source)]
        { sh with
          held := Function.update sh.held i
            (Function.update (sh.held i) k (sh.src source)) } []
  | again {k source : Nat} {ptr : Option Nat} :
      Move layout i sh rest [.recheck k source ptr] sh [.load k source]
  -- `Retire`.
  | retireOrphan {entry : Entry} (free : sh.orphanLock = false) :
      Move layout i sh rest [.retire entry] (sh.adopt [entry]) []
  | retireItems {entry : Entry} {new : List Frame} (alive : sh.retireDead i = false)
      (slotted : sh.runsGates i = true) (next : new = [] ∨ new = [.scan false]) :
      Move layout i sh rest [.retire entry]
        { sh.ensureTable with items := Function.update sh.items i (sh.items i ++ [entry]) } new
  -- `Scan`.
  | scanNothing {orphans : Bool} :
      Move layout i sh rest [.scan orphans] sh.ensureTable []
  | scanBegin {orphans : Bool} (apart : inItems rest = false) :
      Move layout i sh rest [.scan orphans] sh.ensureTable
        [.scanCells ⟨orphans, sh.retired.length, []⟩ 0]
  | cellNamed {c : Sweep} {loaded ptr : Nat} (named : sh.cells loaded = some ptr) :
      Move layout i sh rest [.scanCells c loaded] sh
        [.scanCells { c with named := ptr :: c.named } (loaded + 1)]
  | cellEmpty {c : Sweep} {loaded : Nat} (empty : sh.cells loaded = none) :
      Move layout i sh rest [.scanCells c loaded] sh [.scanCells c (loaded + 1)]
  | cellsEnd {c : Sweep} {loaded : Nat} (all : layout.size ≤ loaded) :
      Move layout i sh rest [.scanCells c loaded] sh [.scanItems c (sh.items i) []]
  | itemKeep {c : Sweep} {entry : Entry} {todo keep : List Entry} :
      Move layout i sh rest [.scanItems c (entry :: todo) keep] sh
        [.scanItems c todo (keep ++ [entry])]
  | itemFree {c : Sweep} {entry : Entry} {todo keep : List Entry} (free : entry.ptr ∉ c.named) :
      Move layout i sh rest [.scanItems c (entry :: todo) keep]
        { sh with freed := sh.freed ++ [entry] } [.deleting entry, .scanItems c todo keep]
  | itemsEnd {c : Sweep} {keep : List Entry} {new : List Frame}
      (next : new = [] ∨ new = [.loadOrphans c]) :
      Move layout i sh rest [.scanItems c [] keep]
        { sh with items := Function.update sh.items i keep } new
  | loadOrphans {c : Sweep} {new : List Frame} (next : new = [] ∨ new = [.lockOrphans c]) :
      Move layout i sh rest [.loadOrphans c] sh new
  | lockOrphans {c : Sweep} (free : sh.orphanLock = false) :
      Move layout i sh rest [.lockOrphans c] { sh with orphans := [], orphanLock := true }
        [.scanOrphans c sh.orphans []]
  | orphanKeep {c : Sweep} {entry : Entry} {todo stillNamed : List Entry} :
      Move layout i sh rest [.scanOrphans c (entry :: todo) stillNamed] sh
        [.scanOrphans c todo (stillNamed ++ [entry])]
  | orphanFree {c : Sweep} {entry : Entry} {todo stillNamed : List Entry}
      (free : entry.ptr ∉ c.named) :
      Move layout i sh rest [.scanOrphans c (entry :: todo) stillNamed]
        { sh with freed := sh.freed ++ [entry] } [.deleting entry, .scanOrphans c todo stillNamed]
  | orphansEnd {c : Sweep} {stillNamed : List Entry} :
      Move layout i sh rest [.scanOrphans c [] stillNamed]
        { sh with
          orphans := stillNamed
          orphanCount := stillNamed.length
          orphanLock := false } []
  | deleted {entry : Entry} :
      Move layout i sh rest [.deleting entry]
        { sh with object := Function.update sh.object entry.ptr .absent } []

inductive Outside (sh : Shared n) (a : Label n) : Shared n → Prop where
  | settings {isInitialized : Bool} {runsGates : Fin n → Bool} :
      Outside sh a { sh with isInitialized := isInitialized, runsGates := runsGates }
  | allocate {ptr : Nat} (absent : sh.object ptr = .absent) :
      Outside sh a { sh with object := Function.update sh.object ptr .unlinked }
  | write {source : Nat} {ptr : Option Nat} (label : a = .write source ptr) :
      Outside sh a (sh.write source ptr)

variable {layout : Layout n} {i : Fin n} {sh sh' : Shared n} {rest old new : List Frame}

theorem Move.of_adoptItems (dead : Fin n → Bool) (apart : inItems rest = false)
    (adopted : sh.adoptItems i = some sh') :
    Move layout i sh rest [] { sh' with retireDead := dead } [] := by
  unfold Shared.adoptItems at adopted
  split at adopted
  · cases adopted
    exact .nothing
  · obtain ⟨free, moved⟩ := Option.ite_none_left_eq_some.mp adopted
    cases moved
    exact .adopt apart (Bool.eq_false_of_not_eq_true free)

theorem Move.of_call {op : Op} (apart : op = .handOffPending → sh.retireDead i = true ∨
      inItems rest = false) (called : call layout sh i op = some (sh', new)) :
    Move layout i sh rest [] sh' new := by
  cases op with
  | protect k source =>
    obtain ⟨⟨-, inside⟩, moved⟩ := Option.ite_none_right_eq_some.mp called
    cases moved
    exact .protect inside
  | set k ptr =>
    obtain ⟨⟨-, inside⟩, moved⟩ := Option.ite_none_right_eq_some.mp called
    cases moved
    exact .set inside
  | retire ptr =>
    cases ptr with
    | none =>
      cases called
      exact .nothing
    | some ptr =>
      cases called
      exact .retireCall
  | scan orphans =>
    cases called
    exact .scanCall
  | handOffPending =>
    simp only [call] at called
    split at called
    · cases called
      exact .nothing
    · rename_i alive
      obtain ⟨sh'', adopted, same⟩ := Option.map_eq_some_iff.mp called
      cases same
      exact Move.of_adoptItems sh'.retireDead ((apart rfl).resolve_left alive) adopted

theorem Move.of_effect {f : Frame} (apart : Apart (f :: rest))
    (moved : effect layout sh i f = some (sh', new)) : Move layout i sh rest [f] sh' new := by
  cases f with
  | load k source =>
    cases moved
    exact .load
  | publish k source ptr =>
    cases moved
    exact .publish
  | recheck k source ptr =>
    simp only [effect] at moved
    split at moved
    · rename_i same
      cases moved
      subst same
      exact .hold
    · cases moved
      exact .again
  | retire entry =>
    simp only [effect] at moved
    split at moved
    · obtain ⟨free, moved⟩ := Option.ite_none_left_eq_some.mp moved
      cases moved
      exact .retireOrphan (Bool.eq_false_of_not_eq_true free)
    · rename_i live
      cases moved
      have alive : sh.retireDead i = false := by
        cases dead : sh.retireDead i with
        | false => rfl
        | true => exact absurd (.inl dead) live
      have slotted : sh.runsGates i = true := by
        cases gates : sh.runsGates i with
        | true => rfl
        | false => exact absurd (.inr gates) live
      refine .retireItems alive slotted ?_
      split
      · exact .inr rfl
      · exact .inl rfl
  | scan orphans =>
    simp only [effect] at moved
    split at moved
    · cases moved
      exact .scanNothing
    · cases moved
      exact .scanBegin apart
  | scanCells c loaded =>
    simp only [effect] at moved
    split at moved
    · split at moved
      · rename_i ptr named
        cases moved
        exact .cellNamed named
      · rename_i empty
        cases moved
        exact .cellEmpty empty
    · rename_i all
      cases moved
      exact .cellsEnd (Nat.le_of_not_lt all)
  | scanItems c todo keep =>
    cases todo with
    | nil =>
      cases moved
      refine .itemsEnd ?_
      cases c.orphans with
      | false => exact .inl rfl
      | true => exact .inr rfl
    | cons entry todo =>
      simp only [effect] at moved
      split at moved
      · cases moved
        exact .itemKeep
      · rename_i free
        cases moved
        exact .itemFree free
  | loadOrphans c =>
    cases moved
    refine .loadOrphans ?_
    split
    · exact .inr rfl
    · exact .inl rfl
  | lockOrphans c =>
    obtain ⟨free, moved⟩ := Option.ite_none_left_eq_some.mp moved
    cases moved
    exact .lockOrphans (Bool.eq_false_of_not_eq_true free)
  | scanOrphans c todo stillNamed =>
    cases todo with
    | nil =>
      cases moved
      exact .orphansEnd
    | cons entry todo =>
      simp only [effect] at moved
      split at moved
      · cases moved
        exact .orphanKeep
      · rename_i free
        cases moved
        exact .orphanFree free
  | deleting entry =>
    cases moved
    exact .deleted

/-- Only `Retire` puts its frame on the stack. -/
theorem call_retires {op : Op} {entry : Entry}
    (called : call layout sh i op = some (sh', [.retire entry])) : op = .retire (some entry.ptr) := by
  cases op with
  | protect k source =>
    obtain ⟨-, moved⟩ := Option.ite_none_right_eq_some.mp called
    cases moved
  | set k ptr =>
    obtain ⟨-, moved⟩ := Option.ite_none_right_eq_some.mp called
    cases moved
  | retire ptr =>
    cases ptr with
    | none => cases called
    | some ptr =>
      cases called
      rfl
  | scan orphans => cases called
  | handOffPending =>
    simp only [call] at called
    split at called
    · cases called
    · obtain ⟨sh'', -, same⟩ := Option.map_eq_some_iff.mp called
      cases same

theorem apart_single (f : Frame) : Apart [f] := by
  cases f with
  | scan orphans => rfl
  | _ => trivial

theorem effect_retires {f : Frame} {entry : Entry}
    (moved : effect layout sh i f = some (sh', [.retire entry])) : False := by
  have move : Move layout i sh [] [f] sh' [.retire entry] := .of_effect (apart_single f) moved
  cases move with
  | retireItems _ _ next | itemsEnd next | loadOrphans next =>
    rcases next with absurd | absurd
    · cases absurd
    · cases absurd

/-- A step moves one thread, from outside or a deleter for a new call, or it is a step of no call. -/
theorem step_cases {s t : State n} {a : Label n} (apart : scansApart s a)
    (stepped : step layout s a = some t) :
    (∃ i old rest sh new, s.stack i = old ++ rest ∧ Move layout i s.shared rest old sh new ∧
      (old = [] → callable rest = true) ∧ (old ≠ [] → a = .step i) ∧
      (∀ entry, new = [.retire entry] → a = .call i (.retire (some entry.ptr))) ∧
      t = ⟨sh, Stacks.replace s.stack i new rest⟩) ∨
    ∃ sh, Outside s.shared a sh ∧ t = ⟨sh, s.stack⟩ := by
  cases a with
  | call i op =>
    obtain ⟨free, moved⟩ := Option.ite_none_right_eq_some.mp stepped
    obtain ⟨⟨sh, new⟩, called, same⟩ := Option.map_eq_some_iff.mp moved
    cases same
    have asked : op = .handOffPending →
        s.shared.retireDead i = true ∨ inItems (s.stack i) = false := by
      rintro rfl
      exact apart
    refine .inl ⟨i, [], s.stack i, sh, new, rfl, .of_call asked called, fun _ => free,
      fun absurd => False.elim (absurd rfl), ?_, rfl⟩
    rintro entry rfl
    rw [call_retires called]
  | step i =>
    have apart : Apart (s.stack i) := apart
    simp only [step] at stepped
    cases here : s.stack i with
    | nil =>
      rw [here] at stepped
      cases stepped
    | cons f rest =>
      rw [here] at stepped apart
      obtain ⟨⟨sh, new⟩, moved, same⟩ := Option.map_eq_some_iff.mp stepped
      cases same
      refine .inl ⟨i, [f], rest, sh, new, here, .of_effect apart moved,
        fun absurd => (by cases absurd), fun _ => rfl, ?_, rfl⟩
      rintro entry rfl
      exact False.elim (effect_retires moved)
  | exit i =>
    obtain ⟨idle, moved⟩ := Option.ite_none_right_eq_some.mp stepped
    obtain ⟨sh, adopted, same⟩ := Option.map_eq_some_iff.mp moved
    cases same
    refine .inl ⟨i, [], [], _, [], idle,
      .of_adoptItems (Function.update sh.retireDead i true) rfl adopted, fun _ => rfl,
      fun absurd => False.elim (absurd rfl), fun entry absurd => (by cases absurd), ?_⟩
    rw [Stacks.replace_self idle]
  | slot i runsGates =>
    cases stepped
    exact .inr ⟨_, .settings, rfl⟩
  | startPool =>
    cases stepped
    exact .inr ⟨_, .settings, rfl⟩
  | allocate ptr =>
    obtain ⟨absent, moved⟩ := Option.ite_none_right_eq_some.mp stepped
    cases moved
    exact .inr ⟨_, .allocate absent, rfl⟩
  | write source ptr =>
    cases stepped
    exact .inr ⟨_, .write rfl, rfl⟩

end JLibSched.Hazard
