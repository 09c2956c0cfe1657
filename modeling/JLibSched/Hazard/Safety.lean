import JLibSched.Hazard.Conservation

/-!
# No deleter runs on an object that a guard holds

What `Protect` returns was named by the source pointer after the cell was set, so its object was not
retired then (`Safe.tracked`).  A scan that began after an entry was retired finds the pointer in
every cell that still holds it (`Sees`), and keeps the entry.  So a scan may free what was retired
before it began to load the cells.  Its own list holds nothing else, as the thread itself retires
what comes into it.  The orphan store may: other threads hand entries over while the cells are
loaded.
-/

namespace JLibSched.Hazard

open Transition Stacks

variable {n : Nat} {layout : Layout n} {s t : State n} {i j : Fin n} {sh sh' : Shared n}
  {old new rest : List Frame} {a : Label n} {k k' p : Nat} {f : Frame} {e : Entry}

/-! ## The conditions -/

/-- A writer links and retires only objects that no source pointer names. -/
def orderly (s : State n) : Label n → Prop
  | .call _ (.retire (some p)) => s.shared.object p = .unlinked
  | .write _ (some p) => s.shared.object p = .unlinked
  | _ => True

/-- A scan that takes the orphan store began after everything in it was retired. -/
def Older (sh : Shared n) : List Frame → Prop
  | .lockOrphans c :: _ => ∀ e ∈ sh.orphans, e.number < c.since
  | _ => True

def takesOlder (s : State n) : Label n → Prop
  | .step i => Older s.shared (s.stack i)
  | _ => True

/-- No scan takes a store with an entry that was retired since it began to load the cells, and no
deleter that runs from the loop over `items` scans or hands off on its thread. -/
def sweepsOlder (s : State n) (a : Label n) : Prop :=
  orderly s a ∧ scansApart s a ∧ takesOlder s a

instance (s : State n) (a : Label n) : Decidable (orderly s a) :=
  match a with
  | .call _ (.retire (some p)) | .write _ (some p) =>
    inferInstanceAs (Decidable (s.shared.object p = .unlinked))
  | .call _ (.retire none) | .call _ (.protect ..) | .call _ (.set ..) | .call _ (.scan _)
  | .call _ .handOffPending | .step _ | .exit _ | .slot .. | .startPool | .allocate _
  | .write _ none => isTrue trivial

instance (sh : Shared n) (frames : List Frame) : Decidable (Older sh frames) :=
  match frames with
  | .lockOrphans c :: _ => inferInstanceAs (Decidable (∀ e ∈ sh.orphans, e.number < c.since))
  | .load .. :: _ | .publish .. :: _ | .recheck .. :: _ | .retire _ :: _ | .scan _ :: _
  | .scanCells .. :: _ | .scanItems .. :: _ | .loadOrphans _ :: _ | .scanOrphans .. :: _
  | .deleting _ :: _ | [] => isTrue trivial

instance (s : State n) (a : Label n) : Decidable (takesOlder s a) :=
  match a with
  | .step i => inferInstanceAs (Decidable (Older s.shared (s.stack i)))
  | .call .. | .exit _ | .slot .. | .startPool | .allocate _ | .write .. => isTrue trivial

instance (s : State n) (a : Label n) : Decidable (sweepsOlder s a) :=
  inferInstanceAs (Decidable (orderly s a ∧ scansApart s a ∧ takesOlder s a))

/-! ## The cells -/

theorem Layout.cell_lt (layout : Layout n) (inside : k < layout.kCellsPerReader) :
    layout.cell i k < layout.size := by
  have row := layout.inside i
  calc layout.reader i * layout.kCellsPerReader + k
      < layout.reader i * layout.kCellsPerReader + layout.kCellsPerReader :=
        Nat.add_lt_add_left inside _
    _ = (layout.reader i + 1) * layout.kCellsPerReader := (Nat.succ_mul _ _).symm
    _ ≤ layout.readerCount * layout.kCellsPerReader := Nat.mul_le_mul_right _ row

/-- Two threads have no cell in common. -/
theorem Layout.cell_inj (layout : Layout n) (inside : k < layout.kCellsPerReader)
    (inside' : k' < layout.kCellsPerReader) (same : layout.cell i k = layout.cell j k') :
    i = j ∧ k = k' := by
  have positive : 0 < layout.kCellsPerReader := Nat.lt_of_le_of_lt (Nat.zero_le _) inside
  have rows := congrArg (· / layout.kCellsPerReader) same
  have places := congrArg (· % layout.kCellsPerReader) same
  unfold Layout.cell at rows places
  simp only [Nat.mul_comm _ layout.kCellsPerReader,
    Nat.mul_add_div positive, Nat.div_eq_of_lt inside, Nat.div_eq_of_lt inside',
    Nat.mul_add_mod, Nat.mod_eq_of_lt inside, Nat.mod_eq_of_lt inside'] at rows places
  exact ⟨layout.apart i j rows, places⟩

/-! ## What a frame knows of its thread -/

def Frame.Local (layout : Layout n) (sh : Shared n) (i : Fin n) : Frame → Prop
  | .load k _ | .publish k _ _ => k < layout.kCellsPerReader
  | .recheck k _ ptr => k < layout.kCellsPerReader ∧ sh.cells (layout.cell i k) = ptr
  | .scanCells c _ =>
    c.since ≤ sh.retired.length ∧ ∀ e ∈ sh.items i, e.number < c.since
  | .loadOrphans c | .lockOrphans c => c.since ≤ sh.retired.length
  | .scanItems c todo _ | .scanOrphans c todo _ =>
    c.since ≤ sh.retired.length ∧ ∀ e ∈ todo, e.number < c.since
  | _ => True

/-- The frames under a move can wait. -/
theorem Move.below (move : Move layout i sh rest old sh' new) (nested : Nested (old ++ rest))
    (free : old = [] → callable rest = true) : ∀ g ∈ rest, g.waits = true := by
  cases move with
  | nothing | protect | set | retireCall | scanCall | adopt => exact callable_waits nested (free rfl)
  | _ => exact nested.1

theorem Move.retired_le (move : Move layout i sh rest old sh' new) :
    sh.retired.length ≤ sh'.retired.length := by
  cases move with
  | retireCall =>
    rw [List.length_append]
    exact Nat.le_add_right _ _
  | _ => exact Nat.le_refl _

theorem setCell_apart (inside : k < layout.kCellsPerReader) (inside' : k' < layout.kCellsPerReader)
    (other : j ≠ i) {ptr : Option Nat} :
    (sh.setCell layout i k ptr).cells (layout.cell j k') = sh.cells (layout.cell j k') :=
  Function.update_of_ne (fun same => other (layout.cell_inj inside' inside same).1) _ _

/-- A thread writes only cells of its own row. -/
theorem Move.cells_apart (move : Move layout i sh rest old sh' new)
    (top : ∀ f ∈ old, f.Local layout sh i) (other : j ≠ i) (inside : k < layout.kCellsPerReader) :
    sh'.cells (layout.cell j k) = sh.cells (layout.cell j k) := by
  cases move with
  | set inside' => exact setCell_apart inside' inside other
  | publish => exact setCell_apart (top _ List.mem_cons_self) inside other
  | _ => rfl

/-- Another thread's frame. -/
theorem Frame.Local.other (here : f.Local layout sh j)
    (move : Move layout i sh rest old sh' new) (top : ∀ f ∈ old, f.Local layout sh i)
    (other : j ≠ i) : f.Local layout sh' j := by
  have more := move.retired_le
  cases f with
  | recheck k source ptr => exact ⟨here.1, (move.cells_apart top other here.1).trans here.2⟩
  | scanCells c loaded =>
    refine ⟨Nat.le_trans here.1 more, ?_⟩
    rw [move.others other]
    exact here.2
  | loadOrphans c | lockOrphans c => exact Nat.le_trans here more
  | scanItems c todo keep | scanOrphans c todo stillNamed => exact ⟨Nat.le_trans here.1 more, here.2⟩
  | load k source | publish k source ptr => exact here
  | retire entry | scan orphans | deleting entry => trivial

/-- A frame of the same thread under the move. -/
theorem Frame.Local.below (here : f.Local layout sh i) (waits : f.waits = true)
    (move : Move layout i sh rest old sh' new) : f.Local layout sh' i := by
  have more := move.retired_le
  cases f with
  | scanItems c todo keep | scanOrphans c todo stillNamed => exact ⟨Nat.le_trans here.1 more, here.2⟩
  | deleting entry => trivial
  | _ => cases waits

/-- The new frames of a move. -/
theorem Move.locals (move : Move layout i sh rest old sh' new)
    (top : ∀ f ∈ old, f.Local layout sh i)
    (listed : inItems (old ++ rest) = false → ∀ e ∈ sh.items i, e.number < sh.retired.length)
    (older : ∀ c, old = [.lockOrphans c] → ∀ e ∈ sh.orphans, e.number < c.since) :
    ∀ f ∈ new, f.Local layout sh' i := by
  cases move with
  | nothing | set | adopt | hold | retireOrphan | scanNothing | orphansEnd | deleted =>
    exact fun f absurd => by cases absurd
  | protect inside => exact List.forall_mem_singleton.mpr inside
  | retireCall | scanCall => exact List.forall_mem_singleton.mpr trivial
  | load =>
    have inside := top _ List.mem_cons_self
    exact List.forall_mem_singleton.mpr inside
  | publish =>
    exact List.forall_mem_singleton.mpr ⟨top _ List.mem_cons_self, Function.update_self _ _ _⟩
  | again => exact List.forall_mem_singleton.mpr (top _ List.mem_cons_self).1
  | retireItems _ _ next =>
    rcases next with rfl | rfl
    · exact fun f absurd => by cases absurd
    · exact List.forall_mem_singleton.mpr trivial
  | scanBegin apart => exact List.forall_mem_singleton.mpr ⟨Nat.le_refl _, listed apart⟩
  | cellNamed | cellEmpty | cellsEnd =>
    have here := top _ List.mem_cons_self
    exact List.forall_mem_singleton.mpr here
  | itemKeep | orphanKeep =>
    obtain ⟨begun, all⟩ := top _ List.mem_cons_self
    exact List.forall_mem_singleton.mpr ⟨begun, (List.forall_mem_cons.mp all).2⟩
  | itemFree | orphanFree =>
    obtain ⟨begun, all⟩ := top _ List.mem_cons_self
    exact List.forall_mem_cons.mpr
      ⟨trivial, List.forall_mem_singleton.mpr ⟨begun, (List.forall_mem_cons.mp all).2⟩⟩
  | itemsEnd next =>
    obtain ⟨begun, -⟩ := top _ List.mem_cons_self
    rcases next with rfl | rfl
    · exact fun f absurd => by cases absurd
    · exact List.forall_mem_singleton.mpr begun
  | loadOrphans next =>
    have begun := top _ List.mem_cons_self
    rcases next with rfl | rfl
    · exact fun f absurd => by cases absurd
    · exact List.forall_mem_singleton.mpr begun
  | lockOrphans =>
    exact List.forall_mem_singleton.mpr ⟨top _ List.mem_cons_self, older _ rfl⟩

/-! ## What waits, and what is held -/

/-- An entry that was not freed yet. -/
def Waits (s : State n) (e : Entry) : Prop := 0 < s.waiting (· == e)

/-- How many of the cells a scan has loaded. -/
def Frame.seen (layout : Layout n) : Frame → Option (Sweep × Nat)
  | .scanCells c loaded => some (c, loaded)
  | .scanItems c _ _ | .loadOrphans c | .lockOrphans c | .scanOrphans c _ _ => some (c, layout.size)
  | _ => none

/-- A scan has named what guards hold of the entries from before it, as far as it has come. -/
def Sees (layout : Layout n) (s : State n) (f : Frame) : Prop :=
  ∀ c loaded, f.seen layout = some (c, loaded) → ∀ e, Waits s e → e.number < c.since →
    ∀ i k, s.shared.held i k = some e.ptr → layout.cell i k < loaded → e.ptr ∈ c.named

structure Safe (layout : Layout n) (s : State n) : Prop where
  ordered : Ordered s
  numbered : Numbered s.shared
  frames : ∀ i, ∀ f ∈ s.stack i, f.Local layout s.shared i
  /-- Who waits was retired. -/
  listed : ∀ m, s.waiting m ≤ s.shared.retired.countP m
  /-- A source pointer names an object that nobody else names. -/
  linked : ∀ source p, s.shared.src source = some p → s.shared.object p = .linked
  single : ∀ source source' p, s.shared.src source = some p → s.shared.src source' = some p →
    source = source'
  /-- An object waits or is deleted once, and only if it is retired. -/
  tracked : ∀ p, s.waiting (·.ptr == p) + s.deleting (·.ptr == p) ≤
    if s.shared.object p = .retired then 1 else 0
  /-- What is held is in the cell. -/
  held : ∀ i k p, s.shared.held i k = some p → k < layout.kCellsPerReader ∧
    s.shared.cells (layout.cell i k) = some p
  sees : ∀ i, ∀ f ∈ s.stack i, Sees layout s f
  safe : ∀ i e, .deleting e ∈ s.stack i → ∀ j k, s.shared.held j k ≠ some e.ptr

theorem waiting_mono {m m' : Entry → Bool} (le : ∀ e, m e = true → m' e = true) :
    s.waiting m ≤ s.waiting m' := by
  have count (l : List Entry) : l.countP m ≤ l.countP m' := List.countP_mono_left fun e _ => le e
  exact Nat.add_le_add (Nat.add_le_add (Finset.sum_le_sum fun i _ => count _) (count _))
    (total_mono fun f => count _)

theorem Waits.ptr (waits : Waits s e) : 0 < s.waiting (·.ptr == e.ptr) := by
  refine Nat.lt_of_lt_of_le waits (waiting_mono fun x same => ?_)
  obtain rfl := eq_of_beq same
  exact beq_self_eq_true _

/-- The object of an entry that waits is retired. -/
theorem Safe.waits_retired (safe : Safe layout s) (waits : Waits s e) :
    s.shared.object e.ptr = .retired := by
  have tracked := safe.tracked e.ptr
  have some := waits.ptr
  by_contra other
  rw [if_neg other] at tracked
  omega

theorem Safe.deleting_retired (safe : Safe layout s) (mem : .deleting e ∈ s.stack i) :
    s.shared.object e.ptr = .retired := by
  have tracked := safe.tracked e.ptr
  have bound := le_total (fun f : Frame => f.deletes.countP (·.ptr == e.ptr)) mem
  have one : (Frame.deleting e).deletes.countP (·.ptr == e.ptr) = 1 := by
    unfold Frame.deletes
    rw [List.countP_singleton, if_pos (beq_self_eq_true _)]
  unfold State.deleting at tracked
  by_contra other
  rw [if_neg other] at tracked
  omega

theorem Safe.waits_number (safe : Safe layout s) (waits : Waits s e) :
    e.number < s.shared.retired.length := by
  have listed := Nat.lt_of_lt_of_le waits (safe.listed _)
  obtain ⟨x, mem, same⟩ := List.countP_pos_iff.mp listed
  obtain rfl := eq_of_beq same
  exact safe.numbered.2 x mem

theorem waits_of_frame (mem : f ∈ s.stack i) (inside : e ∈ f.entries) : Waits s e := by
  have bound := le_total (fun f : Frame => f.entries.countP (· == e)) mem
  have some : 0 < f.entries.countP (· == e) :=
    List.countP_pos_iff.mpr ⟨e, inside, beq_self_eq_true e⟩
  unfold Waits State.waiting
  omega

theorem waits_of_items (apart : inItems (s.stack i) = false) (mem : e ∈ s.shared.items i) :
    Waits s e := by
  have bound := le_sum (List.countP (· == e)) (fun j => pending (s.shared.items j) (s.stack j)) i
  have some : 0 < (s.shared.items i).countP (· == e) :=
    List.countP_pos_iff.mpr ⟨e, mem, beq_self_eq_true e⟩
  rw [pending_free apart] at bound
  unfold Waits State.waiting
  omega

/-! ## A move -/

theorem setCell_held {ptr : Option Nat} (held : (sh.setCell layout i k ptr).held j k' = some p) :
    ¬(j = i ∧ k' = k) ∧ sh.held j k' = some p := by
  have held : Function.update sh.held i (Function.update (sh.held i) k none) j k' = some p := held
  rcases eq_or_ne j i with rfl | other
  · rw [Function.update_self] at held
    rcases eq_or_ne k' k with rfl | apart
    · rw [Function.update_self] at held
      cases held
    · rw [Function.update_of_ne apart] at held
      exact ⟨fun same => apart same.2, held⟩
  · rw [Function.update_of_ne other] at held
    exact ⟨fun same => other same.1, held⟩

/-- What is held was held before, or a source pointer names it. -/
theorem Move.held (move : Move layout i sh rest old sh' new) (held : sh'.held j k = some p) :
    sh.held j k = some p ∨ ∃ source, sh.src source = some p := by
  cases move with
  | set | publish => exact .inl (setCell_held held).2
  | @hold k' source =>
    have held : Function.update sh.held i
        (Function.update (sh.held i) k' (sh.src source)) j k = some p := held
    rcases eq_or_ne j i with rfl | other
    · rw [Function.update_self] at held
      rcases eq_or_ne k k' with rfl | apart
      · rw [Function.update_self] at held
        exact .inr ⟨source, held⟩
      · rw [Function.update_of_ne apart] at held
        exact .inl held
    · rw [Function.update_of_ne other] at held
      exact .inl held
  | _ => exact .inl held

theorem setCell_cells {ptr : Option Nat} (inside : k < layout.kCellsPerReader)
    (inside' : k' < layout.kCellsPerReader) (apart : ¬(j = i ∧ k' = k)) :
    (sh.setCell layout i k ptr).cells (layout.cell j k') = sh.cells (layout.cell j k') :=
  Function.update_of_ne (fun same => apart (layout.cell_inj inside' inside same)) _ _

/-- What is held is in the cell. -/
theorem Move.in_cell (move : Move layout i sh rest old sh' new)
    (top : ∀ f ∈ old, f.Local layout sh i)
    (before : ∀ j k p, sh.held j k = some p →
      k < layout.kCellsPerReader ∧ sh.cells (layout.cell j k) = some p)
    (held : sh'.held j k = some p) :
    k < layout.kCellsPerReader ∧ sh'.cells (layout.cell j k) = some p := by
  cases move with
  | set inside =>
    obtain ⟨apart, held⟩ := setCell_held held
    obtain ⟨inside', cell⟩ := before j k p held
    exact ⟨inside', (setCell_cells inside inside' apart).trans cell⟩
  | publish =>
    obtain ⟨apart, held⟩ := setCell_held held
    obtain ⟨inside', cell⟩ := before j k p held
    exact ⟨inside', (setCell_cells (top _ List.mem_cons_self) inside' apart).trans cell⟩
  | @hold k' source =>
    have held : Function.update sh.held i
        (Function.update (sh.held i) k' (sh.src source)) j k = some p := held
    rcases eq_or_ne j i with rfl | other
    · rw [Function.update_self] at held
      rcases eq_or_ne k k' with rfl | apart
      · obtain ⟨inside, cell⟩ := top _ List.mem_cons_self
        rw [Function.update_self] at held
        exact ⟨inside, cell.trans held⟩
      · rw [Function.update_of_ne apart] at held
        exact before j k p held
    · rw [Function.update_of_ne other] at held
      exact before j k p held
  | _ => exact before j k p held

/-- Where the objects are retired and freed. -/
theorem Move.object (move : Move layout i sh rest old sh' new) :
    sh'.object = sh.object ∧ sh'.retired = sh.retired ∨
      (∃ p, new = [.retire ⟨p, sh.retired.length⟩] ∧
        sh'.object = Function.update sh.object p .retired ∧
        sh'.retired = sh.retired ++ [⟨p, sh.retired.length⟩]) ∨
      ∃ e, old = [.deleting e] ∧ new = [] ∧ sh'.retired = sh.retired ∧
        sh'.object = Function.update sh.object e.ptr .absent := by
  cases move with
  | @retireCall p => exact .inr (.inl ⟨p, rfl, rfl, rfl⟩)
  | @deleted e => exact .inr (.inr ⟨e, rfl, rfl, rfl, rfl⟩)
  | _ => exact .inl ⟨rfl, rfl⟩

theorem Move.src (move : Move layout i sh rest old sh' new) : sh'.src = sh.src := by
  cases move with
  | _ => rfl

theorem Frame.Local.begun {c : Sweep} {loaded : Nat} (here : f.Local layout sh i)
    (seen : f.seen layout = some (c, loaded)) : c.since ≤ sh.retired.length := by
  cases f with
  | scanCells | scanItems | scanOrphans =>
    cases seen
    exact here.1
  | loadOrphans | lockOrphans =>
    cases seen
    exact here
  | _ => cases seen

/-- A scan that goes on has seen what it had seen, and the cell that it has just loaded. -/
theorem Move.sees {t : State n} (move : Move layout i s.shared rest old sh' new)
    (sees : ∀ f ∈ old, Sees layout s f)
    (held : ∀ j k p, s.shared.held j k = some p →
      k < layout.kCellsPerReader ∧ s.shared.cells (layout.cell j k) = some p)
    (carry : ∀ c : Sweep, c.since ≤ s.shared.retired.length → ∀ e, Waits t e → e.number < c.since →
      ∀ j k, t.shared.held j k = some e.ptr → Waits s e ∧ s.shared.held j k = some e.ptr)
    (top : ∀ f ∈ old, f.Local layout s.shared i) : ∀ f ∈ new, Sees layout t f := by
  -- a frame that has seen as much as the one it takes the place of
  have same {f g : Frame} (mem : f ∈ old) (seen : g.seen layout = f.seen layout) :
      Sees layout t g := by
    intro c loaded now e waits before j k holds inside
    have was := seen.symm.trans now
    obtain ⟨waits, holds⟩ := carry c ((top f mem).begun was) e waits before j k holds
    exact sees f mem c loaded was e waits before j k holds inside
  have blind {g : Frame} (seen : g.seen layout = none) : Sees layout t g := by
    intro c loaded now
    rw [seen] at now
    cases now
  cases move with
  | nothing | set | adopt | hold | retireOrphan | scanNothing | orphansEnd | deleted =>
    exact fun f absurd => by cases absurd
  | protect | retireCall | scanCall | load | publish | again =>
    exact List.forall_mem_singleton.mpr (blind rfl)
  | retireItems _ _ next =>
    rcases next with rfl | rfl
    · exact fun f absurd => by cases absurd
    · exact List.forall_mem_singleton.mpr (blind rfl)
  | scanBegin =>
    refine List.forall_mem_singleton.mpr ?_
    intro c loaded now e waits before j k holds inside
    cases now
    exact False.elim (Nat.not_lt_zero _ inside)
  | @cellNamed c loaded ptr named =>
    have begun : c.since ≤ s.shared.retired.length := (top _ List.mem_cons_self).1
    refine List.forall_mem_singleton.mpr ?_
    intro c' loaded' now e waits before j k holds inside
    cases now
    obtain ⟨waits, holds⟩ := carry c begun e waits before j k holds
    rcases Nat.lt_succ_iff_lt_or_eq.mp inside with earlier | rfl
    · exact List.mem_cons_of_mem _ (sees _ List.mem_cons_self c loaded rfl e waits before j k holds earlier)
    · have cell := (held j k e.ptr holds).2
      cases named.symm.trans cell
      exact List.mem_cons_self
  | @cellEmpty c loaded empty =>
    have begun : c.since ≤ s.shared.retired.length := (top _ List.mem_cons_self).1
    refine List.forall_mem_singleton.mpr ?_
    intro c' loaded' now e waits before j k holds inside
    cases now
    obtain ⟨waits, holds⟩ := carry c begun e waits before j k holds
    rcases Nat.lt_succ_iff_lt_or_eq.mp inside with earlier | rfl
    · exact sees _ List.mem_cons_self c loaded rfl e waits before j k holds earlier
    · cases empty.symm.trans (held j k e.ptr holds).2
  | @cellsEnd c loaded all =>
    have begun : c.since ≤ s.shared.retired.length := (top _ List.mem_cons_self).1
    refine List.forall_mem_singleton.mpr ?_
    intro c' loaded' now e waits before j k holds inside
    cases now
    obtain ⟨waits, holds⟩ := carry c begun e waits before j k holds
    exact sees _ List.mem_cons_self c loaded rfl e waits before j k holds
      (Nat.lt_of_lt_of_le inside all)
  | itemKeep | orphanKeep | lockOrphans =>
    exact List.forall_mem_singleton.mpr (same List.mem_cons_self rfl)
  | itemFree | orphanFree =>
    exact List.forall_mem_cons.mpr
      ⟨blind rfl, List.forall_mem_singleton.mpr (same List.mem_cons_self rfl)⟩
  | itemsEnd next | loadOrphans next =>
    rcases next with rfl | rfl
    · exact fun f absurd => by cases absurd
    · exact List.forall_mem_singleton.mpr (same List.mem_cons_self rfl)

/-- Who is freed was in hand, was retired before the scan began, and no cell named it. -/
theorem Move.frees (move : Move layout i sh rest old sh' new)
    (top : ∀ f ∈ old, f.Local layout sh i) (mem : .deleting e ∈ new) :
    ∃ f ∈ old, e ∈ f.entries ∧ ∃ c, f.seen layout = some (c, layout.size) ∧
      e.number < c.since ∧ e.ptr ∉ c.named := by
  cases move with
  | @itemFree c entry todo _ free | @orphanFree c entry todo _ free =>
    obtain ⟨-, all⟩ := top _ List.mem_cons_self
    have same : e = entry := by
      rcases List.mem_cons.mp mem with same | absurd
      · cases same
        rfl
      · cases List.mem_singleton.mp absurd
    subst same
    exact ⟨_, List.mem_cons_self, List.mem_append_left _ List.mem_cons_self, c, rfl,
      (List.forall_mem_cons.mp all).1, free⟩
  | retireItems _ _ next | itemsEnd next | loadOrphans next =>
    rcases next with rfl | rfl
    · cases mem
    · cases List.mem_singleton.mp mem
  | protect | retireCall | scanCall | load | publish | again | scanBegin | cellNamed | cellEmpty
  | cellsEnd | itemKeep | lockOrphans | orphanKeep => cases List.mem_singleton.mp mem
  | nothing | set | adopt | hold | retireOrphan | scanNothing | orphansEnd | deleted => cases mem

/-! ## A step -/

/-- Who waits after a step waited before it, or was retired by it. -/
theorem Counted.waits {born ran lost done : Nat} (counted : Counted (· == e) s t a born ran lost done)
    (waits : Waits t e)
    (retired : t.shared.retired = s.shared.retired ∨
      ∃ p, t.shared.retired = s.shared.retired ++ [⟨p, s.shared.retired.length⟩]) :
    Waits s e ∨ e.number = s.shared.retired.length := by
  have moved := counted.waiting
  have more := counted.retired
  unfold Waits at *
  rcases retired with same | ⟨p, new⟩
  · rw [same] at more
    exact .inl (by omega)
  · rw [new, List.countP_append, List.countP_singleton] at more
    by_cases same : (⟨p, s.shared.retired.length⟩ : Entry) = e
    · subst same
      exact .inr rfl
    · rw [if_neg fun eq => same (eq_of_beq eq)] at more
      exact .inl (by omega)

/-- What waits and is held after the move waited and was held before. -/
theorem Safe.carry (safe : Safe layout s) (move : Move layout i s.shared rest old sh new)
    (counted : ∀ m, ∃ born ran lost done,
      Counted m s ⟨sh, replace s.stack i new rest⟩ a born ran lost done)
    (number : e.number < s.shared.retired.length)
    (waits : Waits ⟨sh, replace s.stack i new rest⟩ e) :
    Waits s e ∧ ∀ j k, sh.held j k = some e.ptr → s.shared.held j k = some e.ptr := by
  have retired : sh.retired = s.shared.retired ∨
      ∃ p, sh.retired = s.shared.retired ++ [⟨p, s.shared.retired.length⟩] := by
    rcases move.object with ⟨-, same⟩ | ⟨p, -, -, more⟩ | ⟨-, -, -, same, -⟩
    · exact .inl same
    · exact .inr ⟨p, more⟩
    · exact .inl same
  obtain ⟨born, ran, lost, done, count⟩ := counted (· == e)
  have before : Waits s e :=
    (count.waits waits retired).resolve_right fun same => Nat.ne_of_lt number same
  refine ⟨before, fun j k held => (move.held held).resolve_right ?_⟩
  rintro ⟨source, named⟩
  have linked := safe.linked source e.ptr named
  rw [safe.waits_retired before] at linked
  cases linked

/-- An object is retired when it waits or is deleted, and then only once. -/
theorem Safe.tracked_move (safe : Safe layout s) (here : s.stack i = old ++ rest)
    (move : Move layout i s.shared rest old sh new)
    (counted : ∀ m, ∃ born ran lost done,
      Counted m s ⟨sh, replace s.stack i new rest⟩ a born ran lost done)
    (own : ∀ p, new = [.retire ⟨p, s.shared.retired.length⟩] → s.shared.object p = .unlinked) (p : Nat) :
    (⟨sh, replace s.stack i new rest⟩ : State n).waiting (·.ptr == p) +
      (⟨sh, replace s.stack i new rest⟩ : State n).deleting (·.ptr == p) ≤
        if sh.object p = .retired then 1 else 0 := by
  have before := safe.tracked p
  obtain ⟨born, ran, lost, done, count⟩ := counted (·.ptr == p)
  have waiting := count.waiting
  have deleting := count.deleting
  have retired := count.retired
  rcases move.object with ⟨object, same⟩ | ⟨q, retires, object, more⟩ | ⟨e, rfl, rfl, same, object⟩
  · rw [object]
    rw [show sh.retired = s.shared.retired from same] at retired
    omega
  · have unlinked := own q retires
    simp only [more, List.countP_append, List.countP_singleton] at retired
    rw [object]
    rcases eq_or_ne p q with rfl | other
    · rw [unlinked, if_neg (fun absurd => by cases absurd)] at before
      rw [Function.update_self, if_pos rfl]
      split at retired
      · omega
      · omega
    · rw [Function.update_of_ne other]
      rw [if_neg fun eq => other (eq_of_beq eq).symm] at retired
      omega
  · rw [show sh.retired = s.shared.retired from same] at retired
    rw [object]
    rcases eq_or_ne p e.ptr with rfl | other
    · have frames := total_replace (fun f : Frame => f.deletes.countP (·.ptr == e.ptr)) [] here
      have one : ([Frame.deleting e].map fun f => f.deletes.countP (·.ptr == e.ptr)).sum = 1 := by
        show [e].countP (·.ptr == e.ptr) + 0 = 1
        rw [List.countP_singleton, if_pos (beq_self_eq_true _)]
      have once : (if s.shared.object e.ptr = .retired then 1 else 0) ≤ 1 := by
        split
        · exact Nat.le_refl 1
        · exact Nat.zero_le 1
      rw [one, List.map_nil, List.sum_nil] at frames
      rw [Function.update_self, if_neg (fun absurd => by cases absurd)]
      unfold State.deleting at *
      simp only at *
      omega
    · rw [Function.update_of_ne other]
      omega

theorem Safe.linked_move (safe : Safe layout s) (here : s.stack i = old ++ rest)
    (move : Move layout i s.shared rest old sh new)
    (own : ∀ p, new = [.retire ⟨p, s.shared.retired.length⟩] → s.shared.object p = .unlinked)
    {source p : Nat} (named : sh.src source = some p) : sh.object p = .linked := by
  rw [move.src] at named
  have linked := safe.linked source p named
  rcases move.object with ⟨object, -⟩ | ⟨q, retires, object, -⟩ | ⟨e, rfl, -, -, object⟩
  · rw [object]
    exact linked
  · have other : p ≠ q := by
      rintro rfl
      rw [own p retires] at linked
      cases linked
    rw [object, Function.update_of_ne other]
    exact linked
  · have mem : .deleting e ∈ s.stack i := by
      rw [here]
      exact List.mem_cons_self
    have other : p ≠ e.ptr := by
      rintro rfl
      rw [safe.deleting_retired mem] at linked
      cases linked
    rw [object, Function.update_of_ne other]
    exact linked

theorem Safe.move (safe : Safe layout s) (here : s.stack i = old ++ rest)
    (move : Move layout i s.shared rest old sh new)
    (counted : ∀ m, ∃ born ran lost done,
      Counted m s ⟨sh, replace s.stack i new rest⟩ a born ran lost done)
    (free : old = [] → callable rest = true)
    (ordered : Ordered ⟨sh, replace s.stack i new rest⟩)
    (own : ∀ p, new = [.retire ⟨p, s.shared.retired.length⟩] → s.shared.object p = .unlinked)
    (older : ∀ c, old = [.lockOrphans c] → ∀ e ∈ s.shared.orphans, e.number < c.since) :
    Safe layout ⟨sh, replace s.stack i new rest⟩ := by
  have nested : Nested (old ++ rest) := here ▸ safe.ordered.nested i
  have below := move.below nested free
  have inOld {f : Frame} (mem : f ∈ old) : f ∈ s.stack i := by
    rw [here]
    exact List.mem_append_left _ mem
  have inRest {f : Frame} (mem : f ∈ rest) : f ∈ s.stack i := by
    rw [here]
    exact List.mem_append_right _ mem
  have top : ∀ f ∈ old, f.Local layout s.shared i := fun f mem => safe.frames i f (inOld mem)
  have listed (apart : inItems (old ++ rest) = false) (e : Entry) (mem : e ∈ s.shared.items i) :
      e.number < s.shared.retired.length := by
    rw [← here] at apart
    exact safe.waits_number (waits_of_items apart mem)
  have carry (c : Sweep) (begun : c.since ≤ s.shared.retired.length) (e : Entry)
      (waits : Waits ⟨sh, replace s.stack i new rest⟩ e) (before : e.number < c.since) :=
    safe.carry move counted (Nat.lt_of_lt_of_le before begun) waits
  -- a frame that stays where it is
  have stays {j : Fin n} {f : Frame} (mem : f ∈ s.stack j) :
      Sees layout ⟨sh, replace s.stack i new rest⟩ f := by
    intro c loaded seen e waits before k cell holds inside
    obtain ⟨waited, held⟩ := carry c ((safe.frames j f mem).begun seen) e waits before
    exact safe.sees j f mem c loaded seen e waited before k cell (held k cell holds) inside
  refine ⟨ordered, move.numbered safe.numbered, ?_, fun m => ?_, fun source p named =>
    safe.linked_move here move own named, fun source source' p mine yours => ?_,
    safe.tracked_move here move counted own, fun j k p held => move.in_cell top safe.held held, ?_, ?_⟩
  · intro j f mem
    rcases mem_replace_cases mem with ⟨rfl, inside⟩ | ⟨rfl, later⟩ | ⟨other, before⟩
    · exact move.locals top listed older f inside
    · exact (safe.frames j f (inRest later)).below (below f later) move
    · exact (safe.frames j f before).other move top other
  · obtain ⟨born, ran, lost, done, count⟩ := counted m
    have waiting := count.waiting
    have retired := count.retired
    have before := safe.listed m
    omega
  · rw [move.src] at mine yours
    exact safe.single source source' p mine yours
  · intro j f mem
    rcases mem_replace here mem with inside | before
    · refine move.sees (fun f mem => safe.sees i f (inOld mem)) safe.held ?_ top f inside
      intro c begun e waits before j k holds
      obtain ⟨waited, held⟩ := carry c begun e waits before
      exact ⟨waited, held j k holds⟩
    · exact stays before
  · intro j e mem k cell holds
    rcases mem_replace here mem with inside | before
    · obtain ⟨f, was, entry, c, seen, number, free⟩ := move.frees top inside
      have waited : Waits s e := waits_of_frame (inOld was) entry
      have held : s.shared.held k cell = some e.ptr := by
        refine (move.held holds).resolve_right ?_
        rintro ⟨source, named⟩
        have linked := safe.linked source e.ptr named
        rw [safe.waits_retired waited] at linked
        cases linked
      have inside := layout.cell_lt (i := k) (safe.held k cell e.ptr held).1
      exact free (safe.sees i f (inOld was) c layout.size seen e waited number k cell held inside)
    · have held : s.shared.held k cell = some e.ptr := by
        refine (move.held holds).resolve_right ?_
        rintro ⟨source, named⟩
        have linked := safe.linked source e.ptr named
        rw [safe.deleting_retired before] at linked
        cases linked
      exact safe.safe j e before k cell held

theorem Frame.Local.congr (here : f.Local layout sh i) (cells : sh'.cells = sh.cells)
    (items : sh'.items = sh.items) (retired : sh'.retired = sh.retired) :
    f.Local layout sh' i := by
  cases f with
  | recheck k source ptr =>
    refine ⟨here.1, ?_⟩
    rw [cells]
    exact here.2
  | scanCells c loaded =>
    refine ⟨?_, ?_⟩
    · rw [retired]
      exact here.1
    · rw [items]
      exact here.2
  | loadOrphans c | lockOrphans c =>
    show c.since ≤ sh'.retired.length
    rw [retired]
    exact here
  | scanItems c todo keep | scanOrphans c todo stillNamed =>
    refine ⟨?_, here.2⟩
    rw [retired]
    exact here.1
  | load | publish => exact here
  | retire | scan | deleting => trivial

/-- Source pointers and objects may change, as long as what is retired stays so. -/
theorem Safe.relink (safe : Safe layout s) {isInitialized : Bool} {runsGates : Fin n → Bool}
    {src : Nat → Option Nat} {object : Nat → Phase}
    (ordered : Ordered ⟨{ s.shared with
      isInitialized := isInitialized, runsGates := runsGates, src := src, object := object }, s.stack⟩)
    (linked : ∀ source p, src source = some p → object p = .linked)
    (single : ∀ source source' p, src source = some p → src source' = some p → source = source')
    (retired : ∀ p, s.shared.object p = .retired → object p = .retired) :
    Safe layout ⟨{ s.shared with
      isInitialized := isInitialized, runsGates := runsGates, src := src, object := object },
      s.stack⟩ where
  ordered := ordered
  numbered := safe.numbered
  frames i f mem := (safe.frames i f mem).congr rfl rfl rfl
  listed := safe.listed
  linked := linked
  single := single
  tracked p := by
    have before := safe.tracked p
    show s.waiting (·.ptr == p) + s.deleting (·.ptr == p) ≤ if object p = .retired then 1 else 0
    split
    · refine Nat.le_trans before ?_
      split
      · exact Nat.le_refl 1
      · exact Nat.zero_le 1
    · rename_i other
      rw [if_neg fun absurd => other (retired p absurd)] at before
      exact before
  held := safe.held
  sees := safe.sees
  safe := safe.safe

/-- The objects after a source pointer was written. -/
theorem Safe.write (safe : Safe layout s) {source : Nat} {ptr : Option Nat}
    (own : ∀ p, ptr = some p → s.shared.object p = .unlinked)
    (ordered : Ordered ⟨s.shared.write source ptr, s.stack⟩) :
    Safe layout ⟨s.shared.write source ptr, s.stack⟩ := by
  -- nobody names what is linked now, and what was named there is named nowhere else
  have fresh (p : Nat) (new : ptr = some p) (source' : Nat) : s.shared.src source' ≠ some p := by
    intro named
    have linked := safe.linked source' p named
    rw [own p new] at linked
    cases linked
  have elsewhere {source' p : Nat} (other : source' ≠ source)
      (named : s.shared.src source' = some p) : s.shared.src source ≠ some p := fun absurd =>
    other (safe.single source' source p named absurd)
  have dropped (p : Nat) (other : s.shared.src source ≠ some p) :
      (s.shared.write source none).object p = s.shared.object p := by
    unfold Shared.write
    simp only
    cases was : s.shared.src source with
    | none => rfl
    | some old =>
      refine Function.update_of_ne ?_ _ _
      rintro rfl
      exact other was
  refine safe.relink ordered ?_ ?_ ?_
  · intro source' p named
    rcases eq_or_ne source' source with rfl | other
    · rw [Function.update_self] at named
      rw [named]
      exact Function.update_self _ _ _
    · rw [Function.update_of_ne other] at named
      have linked := (dropped p (elsewhere other named)).trans (safe.linked source' p named)
      cases new : ptr with
      | none => exact linked
      | some q =>
        have apart : p ≠ q := by
          rintro rfl
          exact fresh p new source' named
        exact (Function.update_of_ne apart _ _).trans linked
  · intro source₁ source₂ p mine yours
    rcases eq_or_ne source₁ source with rfl | other₁
    · rw [Function.update_self] at mine
      rcases eq_or_ne source₂ source₁ with rfl | other₂
      · rfl
      · rw [Function.update_of_ne other₂] at yours
        exact absurd yours (fresh p mine source₂)
    · rw [Function.update_of_ne other₁] at mine
      rcases eq_or_ne source₂ source with rfl | other₂
      · rw [Function.update_self] at yours
        exact absurd mine (fresh p yours source₁)
      · rw [Function.update_of_ne other₂] at yours
        exact safe.single source₁ source₂ p mine yours
  · intro p retired
    have notNamed : s.shared.src source ≠ some p := by
      intro named
      have linked := safe.linked source p named
      rw [retired] at linked
      cases linked
    have kept := (dropped p notNamed).trans retired
    cases new : ptr with
    | none => exact kept
    | some q =>
      have apart : p ≠ q := by
        rintro rfl
        rw [own p new] at retired
        cases retired
      exact (Function.update_of_ne apart _ _).trans kept

theorem initial_safe : Safe layout (initial : State n) where
  ordered := initial_ordered
  numbered := initial_conserved.numbered
  frames i f absurd := by cases absurd
  listed m := Nat.le_of_eq (initial_waiting m)
  linked source p absurd := by cases absurd
  single source source' p absurd := by cases absurd
  tracked p := by
    have none : (initial : State n).deleting (·.ptr == p) = 0 := total_empty _ _ fun _ => rfl
    rw [initial_waiting, none]
    exact Nat.zero_le _
  held i k p absurd := by cases absurd
  sees i f absurd := by cases absurd
  safe i e absurd := by cases absurd

theorem Safe.step (safe : Safe layout s) (allowed : sweepsOlder s a)
    (stepped : Hazard.step layout s a = some t) : Safe layout t := by
  obtain ⟨orderly, apart, older⟩ := allowed
  have ordered := safe.ordered.step apart stepped
  rcases step_cases apart stepped with
    ⟨i, old, rest, sh, new, here, move, free, label, retires, rfl⟩ | ⟨sh, outside, rfl⟩
  · have counted (m : Entry → Bool) : ∃ born ran lost done,
        Counted m s ⟨sh, replace s.stack i new rest⟩ a born ran lost done :=
      move.counted here (safe.ordered.nested i) safe.ordered.locked label m
    refine safe.move here move counted free ordered ?_ ?_
    · intro p new
      have label := retires _ new
      subst label
      exact orderly
    · rintro c rfl
      have label := label (List.cons_ne_nil _ _)
      subst label
      have older : Older s.shared (s.stack i) := older
      rw [here] at older
      exact older
  · cases outside with
    | settings => exact safe.relink ordered safe.linked safe.single fun p retired => retired
    | @allocate ptr absent =>
      refine safe.relink ordered (fun source p named => ?_) safe.single fun p retired => ?_
      · have linked := safe.linked source p named
        have other : p ≠ ptr := by
          rintro rfl
          rw [absent] at linked
          cases linked
        exact (Function.update_of_ne other _ _).trans linked
      · have other : p ≠ ptr := by
          rintro rfl
          rw [absent] at retired
          cases retired
        exact (Function.update_of_ne other _ _).trans retired
    | write label =>
      subst label
      refine safe.write (fun p new => ?_) ordered
      subst new
      exact orderly

/-- While no scan takes a store with an entry that was retired since it began to load the cells, no
deleter runs on an object that a guard holds. -/
theorem no_deleter_while_held (s : State n)
    (reach : Reach (Hazard.step layout) sweepsOlder initial s) :
    ∀ i e, .deleting e ∈ s.stack i → ∀ j k, s.shared.held j k ≠ some e.ptr := by
  have safe : Safe layout s :=
    reach.invariant initial_safe fun safe allowed stepped => safe.step allowed stepped
  exact safe.safe

/-- Thread 1 holds an object that thread 0 retires, together with another one, and scans for. -/
def keptLabels : List (Label 2) :=
  [.startPool, .slot 0 true, .allocate 7, .write 0 (some 7), .call 1 (.protect 0 0), .step 1, .step 1,
    .step 1, .write 0 none, .call 0 (.retire (some 7)), .step 0, .allocate 8,
    .call 0 (.retire (some 8)), .step 0, .call 0 (.scan false)] ++ List.replicate 6 (.step 0)

def keptAt : State 2 := (run (Hazard.step twoRows) sweepsOlder initial keptLabels).getD initial

theorem keptAt_held :
    .deleting ⟨8, 1⟩ ∈ keptAt.stack 0 ∧ keptAt.shared.held 1 0 = some 7 ∧
      ∀ i e, .deleting e ∈ keptAt.stack i → ∀ j k, keptAt.shared.held j k ≠ some e.ptr :=
  ⟨by decide +kernel, by decide +kernel,
    no_deleter_while_held keptAt (Reach.of_isSome keptLabels (by decide +kernel))⟩

/-- Three threads, with a row of one cell each. -/
def threeRows : Layout 3 where
  readerCount := 3
  kCellsPerReader := 1
  reader i := i.val
  inside i := i.isLt
  apart _ _ := Fin.ext

/-- Thread 2 has loaded the cells when thread 1 protects an object, and thread 0, which is at its
end, unlinks and retires it, into the orphan store. -/
def overtakenLabels : List (Label 3) :=
  [.startPool, .slot 0 true, .exit 0, .allocate 6, .call 0 (.retire (some 6)), .step 0,
    .call 2 (.scan true)] ++ List.replicate 6 (.step 2) ++
  [.allocate 7, .write 0 (some 7), .call 1 (.protect 0 0), .step 1, .step 1, .step 1, .write 0 none,
    .call 0 (.retire (some 7)), .step 0] ++ List.replicate 5 (.step 2)

def overtakenAt : State 3 := (run (Hazard.step threeRows) orderly initial overtakenLabels).getD initial

theorem held_deleted :
    Reach (Hazard.step threeRows) orderly initial overtakenAt ∧
      .deleting ⟨7, 1⟩ ∈ overtakenAt.stack 2 ∧ overtakenAt.shared.held 1 0 = some 7 :=
  ⟨Reach.of_isSome overtakenLabels (by decide +kernel), by decide +kernel, by decide +kernel⟩

end JLibSched.Hazard
