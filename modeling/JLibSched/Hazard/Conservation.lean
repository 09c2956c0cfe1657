import JLibSched.Hazard.Moves

/-!
# What was retired is kept until it is freed

An entry waits in the list of a thread, in the orphan store, or in the hands of a call.  While a
thread is in the loop over its list, what counts is what the loop has in hand: the list is
overwritten at its end.  `Move.balance` says how a move changes what waits and what is freed.  An
entry is lost only by a `Retire` that puts it into the list while the loop is going on.
-/

namespace JLibSched.Hazard

open Transition Stacks

variable {n : Nat} {layout : Layout n} {s t : State n} {i : Fin n} {sh sh' : Shared n}
  {old new rest : List Frame} {a : Label n}

/-! ## The frames of a thread -/

/-- A frame other calls may stand on. -/
def Frame.waits : Frame → Bool
  | .deleting _ | .scanItems .. | .scanOrphans .. => true
  | _ => false

/-- A scan that has not come to the end of its own list. -/
def Frame.scans : Frame → Bool
  | .scanCells .. | .scanItems .. => true
  | _ => false

/-- Calls stand on frames that wait, and no scan goes through the list inside another one. -/
def Nested : List Frame → Prop
  | [] => True
  | f :: rest =>
    (∀ g ∈ rest, g.waits = true) ∧ (f.scans = true → inItems rest = false) ∧ Nested rest

theorem callable_waits (nested : Nested rest) (free : callable rest = true) :
    ∀ g ∈ rest, g.waits = true := by
  cases rest with
  | nil => exact fun g absurd => by cases absurd
  | cons f rest =>
    intro g mem
    rcases List.mem_cons.mp mem with rfl | below
    · cases g with
      | deleting entry => rfl
      | _ => cases free
    · exact nested.1 g below

/-- One frame takes the place of another one. -/
theorem Nested.turn {f g : Frame} (nested : Nested (f :: rest))
    (scans : g.scans = true → inItems rest = false) : Nested (g :: rest) :=
  ⟨nested.1, scans, nested.2.2⟩

theorem Move.nested (move : Move layout i sh rest old sh' new) (nested : Nested (old ++ rest))
    (free : old = [] → callable rest = true) : Nested (new ++ rest) := by
  cases move with
  | nothing | set | adopt => exact nested
  | protect | retireCall | scanCall =>
    exact ⟨callable_waits nested (free rfl), fun absurd => (by cases absurd), nested⟩
  | load | publish | again | orphanKeep | lockOrphans =>
    exact nested.turn fun absurd => by cases absurd
  | hold | retireOrphan | scanNothing | orphansEnd | deleted => exact nested.2.2
  | retireItems _ _ next | itemsEnd next | loadOrphans next =>
    rcases next with rfl | rfl
    · exact nested.2.2
    · exact nested.turn fun absurd => by cases absurd
  | scanBegin apart => exact nested.turn fun _ => apart
  | cellNamed | cellEmpty | cellsEnd | itemKeep => exact nested.turn fun _ => nested.2.1 rfl
  | itemFree | orphanFree =>
    refine ⟨?_, fun absurd => (by cases absurd), nested.turn nested.2.1⟩
    intro g mem
    rcases List.mem_cons.mp mem with rfl | below
    · rfl
    · exact nested.1 g below

/-! ## Where an entry waits -/

/-- The entries that a call has in hand. -/
def Frame.entries : Frame → List Entry
  | .retire entry => [entry]
  | .scanItems _ todo keep => todo ++ keep
  | .scanOrphans _ todo stillNamed => todo ++ stillNamed
  | _ => []

/-- The entry whose deleter runs. -/
def Frame.deletes : Frame → List Entry
  | .deleting entry => [entry]
  | _ => []

/-- The list of a thread, outside of the loop over it. -/
def pending (items : List Entry) (frames : List Frame) : List Entry :=
  if inItems frames then [] else items

variable (m : Entry → Bool)

/-- How many entries of a kind wait. -/
def State.waiting (s : State n) : Nat :=
  ∑ i, (pending (s.shared.items i) (s.stack i)).countP m + s.shared.orphans.countP m +
    total (fun f => f.entries.countP m) s.stack

/-- How many deleters of a kind run. -/
def State.deleting (s : State n) : Nat := total (fun f => f.deletes.countP m) s.stack

/-- What a move adds to the entries that wait (`born`) or takes from them (`ran`, `lost`), and the
deleters that return (`done`). -/
structure Balance (i : Fin n) (sh : Shared n) (rest old : List Frame)
    (sh' : Shared n) (new : List Frame) (born ran lost done : Nat) : Prop where
  waiting : (pending (sh'.items i) (new ++ rest)).countP m + sh'.orphans.countP m +
      (new.map fun f => f.entries.countP m).sum + ran + lost =
    (pending (sh.items i) (old ++ rest)).countP m + sh.orphans.countP m +
      (old.map fun f => f.entries.countP m).sum + born
  deleting : (new.map fun f => f.deletes.countP m).sum + done =
    (old.map fun f => f.deletes.countP m).sum + ran
  freed : sh'.freed.countP m = sh.freed.countP m + ran
  retired : sh'.retired.countP m = sh.retired.countP m + born
  lost : lost ≠ 0 → inItems rest = true ∧
    ∃ entry, old = [.retire entry] ∧ sh.retireDead i = false ∧ sh.runsGates i = true

variable {m}

/-- Nothing comes and nothing goes. -/
theorem Balance.still (items : pending (sh'.items i) (new ++ rest) = pending (sh.items i) (old ++ rest))
    (orphans : sh'.orphans = sh.orphans)
    (entries : (new.map fun f => f.entries.countP m).sum = (old.map fun f => f.entries.countP m).sum)
    (deletes : (new.map fun f => f.deletes.countP m).sum = (old.map fun f => f.deletes.countP m).sum)
    (freed : sh'.freed = sh.freed) (retired : sh'.retired = sh.retired) :
    Balance m i sh rest old sh' new 0 0 0 0 where
  waiting := by rw [items, orphans, entries]
  deleting := by rw [deletes]
  freed := by rw [freed]; rfl
  retired := by rw [retired]; rfl
  lost absurd := False.elim (absurd rfl)

section Pending

variable {items : List Entry}

/-- A frame that is not the loop over the list leaves the list as it is. -/
theorem pending_cons {f : Frame} (other : f.isScanItems = false) :
    pending items ([f] ++ rest) = pending items rest := by
  unfold pending inItems
  rw [List.singleton_append, List.any_cons, other, Bool.false_or]

theorem pending_free (apart : inItems rest = false) : pending items rest = items := by
  unfold pending
  rw [apart]
  rfl

theorem pending_busy (inside : inItems rest = true) : pending items rest = [] := by
  unfold pending
  rw [inside]
  rfl

end Pending

theorem Move.balance (move : Move layout i sh rest old sh' new) (nested : Nested (old ++ rest))
    (empty : ∀ c todo stillNamed, old = [.scanOrphans c todo stillNamed] → sh.orphans = []) :
    ∃ born ran lost done, Balance m i sh rest old sh' new born ran lost done := by
  cases move with
  | nothing | protect | set | scanCall | load | publish | hold | again | scanNothing
  | scanBegin | cellNamed | cellEmpty =>
    exact ⟨0, 0, 0, 0, .still rfl rfl rfl rfl rfl rfl⟩
  | retireCall =>
    refine ⟨_, 0, 0, 0, ?_, rfl, rfl, List.countP_append, fun absurd => False.elim (absurd rfl)⟩
    simp only [Frame.entries, List.map_cons, List.map_nil, List.sum_cons, List.sum_nil]
    rw [pending_cons rfl]
    rfl
  | adopt apart =>
    refine ⟨0, 0, 0, 0, ?_, rfl, rfl, rfl, fun absurd => False.elim (absurd rfl)⟩
    simp only [List.nil_append]
    rw [pending_free apart, pending_free apart]
    simp only [Function.update_self, Shared.adopt, List.countP_nil, List.countP_append]
    omega
  | retireOrphan =>
    refine ⟨0, 0, 0, 0, ?_, rfl, rfl, rfl, fun absurd => False.elim (absurd rfl)⟩
    simp only [Frame.entries, List.map_cons, List.map_nil, List.sum_cons, List.sum_nil]
    rw [pending_cons rfl]
    simp only [Shared.adopt, List.countP_append]
    exact (Nat.add_assoc _ _ _).symm
  | @retireItems entry new alive slotted next =>
    have frames : (new.map fun f => f.entries.countP m).sum = 0 ∧
        (new.map fun f => f.deletes.countP m).sum = 0 ∧ inItems (new ++ rest) = inItems rest := by
      rcases next with rfl | rfl
      · exact ⟨rfl, rfl, rfl⟩
      · exact ⟨rfl, rfl, rfl⟩
    obtain ⟨entries, deletes, same⟩ := frames
    cases inside : inItems rest with
    | true =>
      refine ⟨0, 0, [entry].countP m, 0, ?_, by rw [deletes]; rfl, rfl, rfl,
        fun _ => ⟨inside, entry, rfl, alive, slotted⟩⟩
      rw [entries, pending_busy (same.trans inside)]
      simp only [Frame.entries, List.map_cons, List.map_nil, List.sum_cons, List.sum_nil]
      rw [pending_cons rfl, pending_busy inside]
      rfl
    | false =>
      refine ⟨0, 0, 0, 0, ?_, by rw [deletes]; rfl, rfl, rfl, fun absurd => False.elim (absurd rfl)⟩
      rw [entries, pending_free (same.trans inside), pending_cons rfl, pending_free inside]
      simp only [Frame.entries, List.map_cons, List.map_nil, List.sum_cons, List.sum_nil,
        Function.update_self, Shared.ensureTable, List.countP_append]
      omega
  | cellsEnd =>
    refine ⟨0, 0, 0, 0, ?_, rfl, rfl, rfl, fun absurd => False.elim (absurd rfl)⟩
    have apart : inItems rest = false := nested.2.1 rfl
    simp only [Frame.entries, List.map_cons, List.map_nil, List.sum_cons, List.sum_nil,
      List.countP_nil, List.append_nil]
    rw [pending_busy rfl, pending_cons rfl, pending_free apart, List.countP_nil]
    omega
  | itemKeep =>
    refine ⟨0, 0, 0, 0, ?_, rfl, rfl, rfl, fun absurd => False.elim (absurd rfl)⟩
    rw [pending_busy rfl, pending_busy rfl]
    simp only [Frame.entries, List.map_cons, List.map_nil, List.sum_cons, List.sum_nil,
      List.cons_append, List.countP_append, List.countP_cons, List.countP_nil]
    omega
  | orphanKeep =>
    refine ⟨0, 0, 0, 0, ?_, rfl, rfl, rfl, fun absurd => False.elim (absurd rfl)⟩
    rw [pending_cons rfl, pending_cons rfl]
    simp only [Frame.entries, List.map_cons, List.map_nil, List.sum_cons, List.sum_nil,
      List.cons_append, List.countP_append, List.countP_cons, List.countP_nil]
    omega
  | @itemFree c entry todo keep free =>
    refine ⟨0, [entry].countP m, 0, 0, ?_, ?_, List.countP_append, rfl,
      fun absurd => False.elim (absurd rfl)⟩
    · rw [pending_busy rfl, pending_busy rfl]
      simp only [Frame.entries, List.map_cons, List.map_nil, List.sum_cons, List.sum_nil,
        List.cons_append, List.countP_append, List.countP_cons, List.countP_nil]
      omega
    · simp only [Frame.deletes, List.map_cons, List.map_nil, List.sum_cons, List.sum_nil,
        List.countP_nil]
      omega
  | @orphanFree c entry todo stillNamed free =>
    refine ⟨0, [entry].countP m, 0, 0, ?_, ?_, List.countP_append, rfl,
      fun absurd => False.elim (absurd rfl)⟩
    · have same : pending (sh.items i)
          ([.deleting entry, .scanOrphans c todo stillNamed] ++ rest) =
          pending (sh.items i) rest := rfl
      rw [same, pending_cons rfl]
      simp only [Frame.entries, List.map_cons, List.map_nil, List.sum_cons, List.sum_nil,
        List.cons_append, List.countP_append, List.countP_cons, List.countP_nil]
      omega
    · simp only [Frame.deletes, List.map_cons, List.map_nil, List.sum_cons, List.sum_nil,
        List.countP_nil]
      omega
  | @itemsEnd c keep new next =>
    have apart := nested.2.1 rfl
    have frames : (new.map fun f => f.entries.countP m).sum = 0 ∧
        (new.map fun f => f.deletes.countP m).sum = 0 ∧ inItems (new ++ rest) = false := by
      rcases next with rfl | rfl
      · exact ⟨rfl, rfl, apart⟩
      · exact ⟨rfl, rfl, apart⟩
    obtain ⟨entries, deletes, outside⟩ := frames
    refine ⟨0, 0, 0, 0, ?_, by rw [deletes]; rfl, rfl, rfl, fun absurd => False.elim (absurd rfl)⟩
    rw [entries, pending_free outside, pending_busy rfl]
    simp only [Frame.entries, List.map_cons, List.map_nil, List.sum_cons, List.sum_nil,
      Function.update_self, List.nil_append, List.countP_nil]
    omega
  | loadOrphans next =>
    rcases next with rfl | rfl
    · exact ⟨0, 0, 0, 0, .still rfl rfl rfl rfl rfl rfl⟩
    · exact ⟨0, 0, 0, 0, .still rfl rfl rfl rfl rfl rfl⟩
  | lockOrphans =>
    refine ⟨0, 0, 0, 0, ?_, rfl, rfl, rfl, fun absurd => False.elim (absurd rfl)⟩
    rw [pending_cons rfl, pending_cons rfl]
    simp only [Frame.entries, List.map_cons, List.map_nil, List.sum_cons, List.sum_nil,
      List.append_nil, List.countP_nil]
    omega
  | orphansEnd =>
    refine ⟨0, 0, 0, 0, ?_, rfl, rfl, rfl, fun absurd => False.elim (absurd rfl)⟩
    rw [pending_cons rfl, List.nil_append, empty _ _ _ rfl, List.countP_nil]
    simp only [Frame.entries, List.map_cons, List.map_nil, List.sum_cons, List.sum_nil,
      List.nil_append]
    omega
  | @deleted entry =>
    refine ⟨0, 0, 0, [entry].countP m, ?_, ?_, rfl, rfl, fun absurd => False.elim (absurd rfl)⟩
    · rw [pending_cons rfl]
      rfl
    · simp only [Frame.deletes, List.map_cons, List.map_nil, List.sum_cons, List.sum_nil]
      omega

/-! ## The mutex of the orphan store -/

def Frame.sweepsOrphans : Frame → Bool
  | .scanOrphans .. => true
  | _ => false

/-- Who holds the mutex has the entries of the store in hand. -/
structure Locked (s : State n) : Prop where
  holders : total (fun f => f.sweepsOrphans.toNat) s.stack = s.shared.orphanLock.toNat
  empty : s.shared.orphanLock = true → s.shared.orphans = []

theorem initial_locked : Locked (initial : State n) where
  holders := total_empty _ _ fun _ => rfl
  empty absurd := by cases absurd

theorem Locked.emptied (locked : Locked s) {f : Frame} (mem : f ∈ s.stack i)
    (sweeps : f.sweepsOrphans = true) : s.shared.orphans = [] := by
  have bound := le_total (fun f => f.sweepsOrphans.toNat) mem
  rw [locked.holders, sweeps] at bound
  cases lock : s.shared.orphanLock with
  | true => exact locked.empty lock
  | false =>
    rw [lock] at bound
    cases bound

theorem Move.holders (move : Move layout i sh rest old sh' new)
    (locked : (old.map fun f => f.sweepsOrphans.toNat).sum ≤ sh.orphanLock.toNat) :
    (new.map fun f => f.sweepsOrphans.toNat).sum + sh.orphanLock.toNat =
      (old.map fun f => f.sweepsOrphans.toNat).sum + sh'.orphanLock.toNat := by
  cases move with
  | retireItems _ _ next | itemsEnd next | loadOrphans next => rcases next with rfl | rfl <;> rfl
  | lockOrphans free =>
    rw [free]
    rfl
  | orphansEnd =>
    cases lock : sh.orphanLock with
    | true => rfl
    | false =>
      rw [lock] at locked
      cases locked
  | _ => rfl

theorem Move.emptied (move : Move layout i sh rest old sh' new)
    (empty : sh.orphanLock = true → sh.orphans = []) :
    sh'.orphanLock = true → sh'.orphans = [] := by
  cases move with
  | adopt apart free | retireOrphan free => exact fun absurd => by cases free.symm.trans absurd
  | lockOrphans => exact fun _ => rfl
  | orphansEnd => exact fun absurd => by cases absurd
  | _ => exact empty

theorem Locked.move (locked : Locked s) (here : s.stack i = old ++ rest)
    (move : Move layout i s.shared rest old sh' new) :
    Locked ⟨sh', replace s.stack i new rest⟩ where
  holders := by
    have moved := total_replace (fun f : Frame => f.sweepsOrphans.toNat) new here
    have bound : (old.map fun f => f.sweepsOrphans.toNat).sum ≤ s.shared.orphanLock.toNat := by
      rw [← locked.holders]
      exact sum_le_total _ here
    have held := move.holders bound
    have holders := locked.holders
    simp only
    omega
  empty := move.emptied locked.empty

/-! ## Every entry -/

/-- The other threads keep their lists. -/
theorem Move.others (move : Move layout i sh rest old sh' new) {j : Fin n} (other : j ≠ i) :
    sh'.items j = sh.items j := by
  cases move with
  | adopt | retireItems | itemsEnd => exact Function.update_of_ne other _ _
  | _ => rfl

/-- What a step does to the entries, over all threads. -/
structure Counted (m : Entry → Bool) (s t : State n) (a : Label n) (born ran lost done : Nat) :
    Prop where
  waiting : t.waiting m + ran + lost = s.waiting m + born
  deleting : t.deleting m + done = s.deleting m + ran
  freed : t.shared.freed.countP m = s.shared.freed.countP m + ran
  retired : t.shared.retired.countP m = s.shared.retired.countP m + born
  lost : lost ≠ 0 → ∃ i entry rest, a = .step i ∧ s.stack i = .retire entry :: rest ∧
    inItems rest = true ∧ s.shared.retireDead i = false ∧ s.shared.runsGates i = true

theorem Move.counted (move : Move layout i s.shared rest old sh' new) (here : s.stack i = old ++ rest)
    (nested : Nested (s.stack i)) (locked : Locked s) (label : old ≠ [] → a = .step i)
    (m : Entry → Bool) :
    ∃ born ran lost done,
      Counted m s ⟨sh', replace s.stack i new rest⟩ a born ran lost done := by
  have empty (c : Sweep) (todo stillNamed : List Entry)
      (top : old = [.scanOrphans c todo stillNamed]) : s.shared.orphans = [] := by
    refine locked.emptied (i := i) (f := .scanOrphans c todo stillNamed) ?_ rfl
    rw [here, top]
    exact List.mem_cons_self
  rw [here] at nested
  obtain ⟨born, ran, lost, done, balance⟩ := move.balance nested empty (m := m)
  refine ⟨born, ran, lost, done, ?_, ?_, balance.freed, balance.retired, ?_⟩
  · have lists : (fun j => pending (sh'.items j) (replace s.stack i new rest j)) =
        Function.update (fun j => pending (s.shared.items j) (s.stack j)) i
          (pending (sh'.items i) (new ++ rest)) := by
      funext j
      rcases eq_or_ne j i with rfl | other
      · unfold replace
        rw [Function.update_self, Function.update_self]
      · unfold replace
        rw [Function.update_of_ne other, Function.update_of_ne other, move.others other]
    have sum := sum_update (List.countP m) (fun j => pending (s.shared.items j) (s.stack j)) i
      (pending (sh'.items i) (new ++ rest))
    rw [← lists] at sum
    simp only [here] at sum
    have frames := total_replace (fun f : Frame => f.entries.countP m) new here
    have waiting := balance.waiting
    unfold State.waiting
    simp only
    omega
  · have frames := total_replace (fun f : Frame => f.deletes.countP m) new here
    have deleting := balance.deleting
    unfold State.deleting
    simp only
    omega
  · intro some
    obtain ⟨inside, entry, top, alive, slotted⟩ := balance.lost some
    refine ⟨i, entry, rest, label ?_, ?_, inside, alive, slotted⟩
    · rw [top]
      exact List.cons_ne_nil _ _
    · rw [here, top]
      rfl

theorem Outside.entries (outside : Outside sh a sh') : sh'.items = sh.items ∧
    sh'.orphans = sh.orphans ∧ sh'.freed = sh.freed ∧ sh'.retired = sh.retired ∧
    sh'.orphanLock = sh.orphanLock := by
  cases outside with
  | settings | allocate | write => exact ⟨rfl, rfl, rfl, rfl, rfl⟩

/-- The calls of each thread are nested, and one thread at most is in the orphan store. -/
structure Ordered (s : State n) : Prop where
  nested : ∀ i, Nested (s.stack i)
  locked : Locked s

theorem initial_ordered : Ordered (initial : State n) := ⟨fun _ => trivial, initial_locked⟩

theorem Ordered.step (ordered : Ordered s) (apart : scansApart s a)
    (stepped : step layout s a = some t) : Ordered t := by
  rcases step_cases apart stepped with
    ⟨i, old, rest, sh, new, here, move, free, -, -, rfl⟩ | ⟨sh, outside, rfl⟩
  · refine ⟨fun j => ?_, ordered.locked.move here move⟩
    rcases eq_or_ne j i with rfl | other
    · have nested := ordered.nested j
      rw [here] at nested
      simp only [replace, Function.update_self]
      exact move.nested nested free
    · simp only [replace, Function.update_of_ne other]
      exact ordered.nested j
  · obtain ⟨-, orphans, -, -, lock⟩ := outside.entries
    refine ⟨ordered.nested, ?_, ?_⟩
    · simp only [lock]
      exact ordered.locked.holders
    · simp only [lock, orphans]
      exact ordered.locked.empty

theorem Ordered.counted (ordered : Ordered s) (apart : scansApart s a)
    (stepped : Hazard.step layout s a = some t) (m : Entry → Bool) :
    ∃ born ran lost done, Counted m s t a born ran lost done := by
  rcases step_cases apart stepped with
    ⟨i, old, rest, sh, new, here, move, -, label, -, rfl⟩ | ⟨sh, outside, rfl⟩
  · exact move.counted here (ordered.nested i) ordered.locked label m
  · obtain ⟨items, orphans, freed, retired, -⟩ := outside.entries
    refine ⟨0, 0, 0, 0, ?_, rfl, ?_, ?_, fun absurd => False.elim (absurd rfl)⟩
    · unfold State.waiting
      simp only [items, orphans]
    · rw [freed]
      rfl
    · rw [retired]
      rfl

/-! ## The numbers of the entries -/

/-- What was retired is numbered in order. -/
def Numbered (sh : Shared n) : Prop :=
  sh.retired.Nodup ∧ ∀ e ∈ sh.retired, e.number < sh.retired.length

theorem Numbered.retire (numbered : Numbered sh) {ptr : Nat}
    (retired : sh'.retired = sh.retired ++ [⟨ptr, sh.retired.length⟩]) : Numbered sh' := by
  obtain ⟨nodup, below⟩ := numbered
  unfold Numbered
  rw [retired]
  refine ⟨nodup.append (List.nodup_singleton _) ?_, fun e mem => ?_⟩
  · intro e mem new
    obtain rfl := List.mem_singleton.mp new
    exact Nat.lt_irrefl _ (below _ mem)
  · rw [List.length_append, List.length_singleton]
    rcases List.mem_append.mp mem with before | new
    · exact Nat.lt_succ_of_lt (below e before)
    · obtain rfl := List.mem_singleton.mp new
      exact Nat.lt_succ_self _

theorem Move.numbered (move : Move layout i sh rest old sh' new) (numbered : Numbered sh) :
    Numbered sh' := by
  cases move with
  | retireCall => exact numbered.retire rfl
  | _ => exact numbered

theorem Numbered.step (numbered : Numbered s.shared) (apart : scansApart s a)
    (stepped : Hazard.step layout s a = some t) : Numbered t.shared := by
  rcases step_cases apart stepped with
    ⟨i, old, rest, sh, new, here, move, -, -, -, rfl⟩ | ⟨sh, outside, rfl⟩
  · exact move.numbered numbered
  · obtain ⟨-, -, -, retired, -⟩ := outside.entries
    unfold Numbered
    rw [retired]
    exact numbered

/-! ## Nothing is lost -/

/-- The step on top of the frames does not put an entry into the list inside the loop over it. -/
def Grows (sh : Shared n) (i : Fin n) : List Frame → Prop
  | .retire _ :: rest =>
    sh.retireDead i = true ∨ sh.runsGates i = false ∨ inItems rest = false
  | _ => True

def growsOutside (s : State n) : Label n → Prop
  | .step i => Grows s.shared i (s.stack i)
  | _ => True

/-- No deleter that runs from the loop over `items` retires, scans or hands off on its thread. -/
def listKept (s : State n) (a : Label n) : Prop := scansApart s a ∧ growsOutside s a

instance (frames : List Frame) : Decidable (Apart frames) :=
  match frames with
  | .scan _ :: rest => inferInstanceAs (Decidable (inItems rest = false))
  | .load .. :: _ | .publish .. :: _ | .recheck .. :: _ | .retire _ :: _ | .scanCells .. :: _
  | .scanItems .. :: _ | .loadOrphans _ :: _ | .lockOrphans _ :: _ | .scanOrphans .. :: _
  | .deleting _ :: _ | [] => isTrue trivial

instance (s : State n) (a : Label n) : Decidable (scansApart s a) :=
  match a with
  | .call i .handOffPending => inferInstanceAs (Decidable
      (s.shared.retireDead i = true ∨ inItems (s.stack i) = false))
  | .step i => inferInstanceAs (Decidable (Apart (s.stack i)))
  | .call _ (.protect ..) | .call _ (.set ..) | .call _ (.retire _) | .call _ (.scan _)
  | .exit _ | .slot .. | .startPool | .allocate _ | .write .. => isTrue trivial

instance (sh : Shared n) (i : Fin n) (frames : List Frame) : Decidable (Grows sh i frames) :=
  match frames with
  | .retire _ :: rest => inferInstanceAs (Decidable
      (sh.retireDead i = true ∨ sh.runsGates i = false ∨ inItems rest = false))
  | .load .. :: _ | .publish .. :: _ | .recheck .. :: _ | .scan _ :: _ | .scanCells .. :: _
  | .scanItems .. :: _ | .loadOrphans _ :: _ | .lockOrphans _ :: _ | .scanOrphans .. :: _
  | .deleting _ :: _ | [] => isTrue trivial

instance (s : State n) (a : Label n) : Decidable (growsOutside s a) :=
  match a with
  | .step i => inferInstanceAs (Decidable (Grows s.shared i (s.stack i)))
  | .call .. | .exit _ | .slot .. | .startPool | .allocate _ | .write .. => isTrue trivial

instance (s : State n) (a : Label n) : Decidable (listKept s a) :=
  inferInstanceAs (Decidable (scansApart s a ∧ growsOutside s a))

/-- What waits and what was freed is what was retired. -/
structure Conserved (s : State n) : Prop where
  ordered : Ordered s
  numbered : Numbered s.shared
  all : ∀ m, s.waiting m + s.shared.freed.countP m = s.shared.retired.countP m

theorem initial_waiting (m : Entry → Bool) : (initial : State n).waiting m = 0 := by
  have frames : total (fun f => f.entries.countP m) (initial : State n).stack = 0 :=
    total_empty _ _ fun _ => rfl
  have lists : ∑ i, (pending ((initial : State n).shared.items i)
      ((initial : State n).stack i)).countP m = 0 := Finset.sum_eq_zero fun i _ => rfl
  unfold State.waiting
  rw [frames, lists]
  rfl

theorem initial_conserved : Conserved (initial : State n) where
  ordered := initial_ordered
  numbered := ⟨List.nodup_nil, fun e absurd => by cases absurd⟩
  all m := by
    rw [initial_waiting]
    rfl

theorem Conserved.step (conserved : Conserved s) (kept : listKept s a)
    (stepped : Hazard.step layout s a = some t) : Conserved t where
  ordered := conserved.ordered.step kept.1 stepped
  numbered := conserved.numbered.step kept.1 stepped
  all m := by
    obtain ⟨born, ran, lost, done, counted⟩ := conserved.ordered.counted kept.1 stepped m
    have none : lost = 0 := by
      by_contra some
      obtain ⟨i, entry, rest, rfl, here, inside, alive, slotted⟩ := counted.lost some
      have grows : Grows s.shared i (s.stack i) := kept.2
      rw [here] at grows
      rcases grows with dead | unslotted | outside
      · cases alive.symm.trans dead
      · cases slotted.symm.trans unslotted
      · cases inside.symm.trans outside
    have all := conserved.all m
    have waiting := counted.waiting
    have freed := counted.freed
    have retired := counted.retired
    omega

/-- When no call is under way, what waits is in the lists and the store. -/
theorem waiting_idle (idle : ∀ i, s.stack i = []) (m : Entry → Bool) :
    s.waiting m = ∑ i, (s.shared.items i).countP m + s.shared.orphans.countP m := by
  unfold State.waiting
  rw [total_empty _ _ idle]
  simp only [idle]
  rfl

/-- While deleters that run from the loop over a list leave it alone, every entry that was retired
is in one place: it waits in a list, in the store or with a call, or it was freed, once. -/
theorem retired_once (s : State n) (reach : Reach (Hazard.step layout) listKept initial s) :
    (∀ e, s.waiting (· == e) + s.shared.freed.count e = if e ∈ s.shared.retired then 1 else 0) ∧
      ((∀ i, s.stack i = []) → ∀ e,
        ∑ i, (s.shared.items i).count e + s.shared.orphans.count e + s.shared.freed.count e =
          if e ∈ s.shared.retired then 1 else 0) := by
  have conserved : Conserved s :=
    reach.invariant initial_conserved fun conserved kept stepped => conserved.step kept stepped
  have all (e : Entry) : s.waiting (· == e) + s.shared.freed.count e =
      if e ∈ s.shared.retired then 1 else 0 := by
    rw [← conserved.numbered.1.count]
    exact conserved.all _
  refine ⟨all, fun idle e => ?_⟩
  rw [← all, waiting_idle idle]
  rfl

/-- Two threads, with a row of one cell each. -/
def twoRows : Layout 2 where
  readerCount := 2
  kCellsPerReader := 1
  reader i := i.val
  inside i := i.isLt
  apart _ _ := Fin.ext

/-- Thread 0 retires two objects, hands them off and retires a third one; thread 1 sweeps. -/
def sweptLabels : List (Label 2) :=
  [.slot 0 true, .startPool, .call 0 (.retire (some 7)), .step 0, .call 0 (.retire (some 8)),
    .step 0, .call 0 .handOffPending, .call 0 (.retire (some 9)), .step 0, .call 1 (.scan true)] ++
  List.replicate 12 (.step 1)

def sweptAt : State 2 := (run (Hazard.step twoRows) listKept initial sweptLabels).getD initial

theorem sweptAt_once :
    sweptAt.shared.freed = [⟨7, 0⟩, ⟨8, 1⟩] ∧ sweptAt.shared.items 0 = [⟨9, 2⟩] ∧
      (∀ e, sweptAt.waiting (· == e) + sweptAt.shared.freed.count e =
        if e ∈ sweptAt.shared.retired then 1 else 0) ∧
      ((∀ i, sweptAt.stack i = []) → ∀ e,
        ∑ i, (sweptAt.shared.items i).count e + sweptAt.shared.orphans.count e +
          sweptAt.shared.freed.count e = if e ∈ sweptAt.shared.retired then 1 else 0) :=
  ⟨by decide +kernel, by decide +kernel,
    retired_once sweptAt (Reach.of_isSome sweptLabels (by decide +kernel))⟩

/-- The deleter that a scan calls retires another object on its thread. -/
def reentrantLabels : List (Label 2) :=
  [.slot 0 true, .startPool, .call 0 (.retire (some 7)), .step 0, .call 0 (.scan false), .step 0,
    .step 0, .step 0, .step 0, .step 0, .call 0 (.retire (some 8)), .step 0, .step 0, .step 0]

def reentrantAt : State 2 :=
  (run (Hazard.step twoRows) anyStep initial reentrantLabels).getD initial

/-- No call is under way, and the second object is nowhere. -/
theorem reentrant_lost :
    Reach (Hazard.step twoRows) anyStep initial reentrantAt ∧
      (∀ i, reentrantAt.stack i = []) ∧ ⟨8, 1⟩ ∈ reentrantAt.shared.retired ∧
      ∑ i, (reentrantAt.shared.items i).count ⟨8, 1⟩ + reentrantAt.shared.orphans.count ⟨8, 1⟩ +
        reentrantAt.shared.freed.count ⟨8, 1⟩ = 0 :=
  ⟨Reach.of_isSome reentrantLabels (by decide +kernel), by decide +kernel, by decide +kernel,
    by decide +kernel⟩

end JLibSched.Hazard
