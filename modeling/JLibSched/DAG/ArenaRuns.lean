import JLibSched.DAG.Arena

/-!
# The edge arena in every run

Each step keeps the invariant of the arena, and `~TaskDAG` walks the whole chain (`arena_sound`).

A call counts up `used` of a full block at most once: then it holds the block as the one to be
replaced, and when it lets go of it the block is not the current one of any slot.  So the threads
that have counted past the end are different ones (`Counted`), and `used` stays small (`used_le`).
-/

namespace JLibSched.DAG.Arena

open Transition Links

variable {n workers kEdgesPerBlock : Nat} {s s' : State n workers} {t : Fin n}
  {chain : List Block} {b : Block}

/-! ## One step -/

theorem Kept.allocStep (kept : Kept kEdgesPerBlock s chain) (positive : 0 < kEdgesPerBlock)
    {fails : Bool} (stepped : allocStep kEdgesPerBlock s t fails = some s') :
    ∃ chain', Kept kEdgesPerBlock s' chain' := by
  unfold Arena.allocStep at stepped
  cases here : s.pc t with
  | idle | take | aborted =>
    rw [here] at stepped
    cases stepped
  | loadCur slot =>
    simp only [here] at stepped
    cases current : s.cur slot with
    | some block =>
      simp only [current] at stepped
      cases stepped
      refine ⟨chain, kept.moves _ (by rw [here]; rfl) ?_ ?_ ?_ ?_⟩
      · exact fun b absurd => by cases absurd
      · exact fun b absurd => by cases absurd
      · exact fun b head absurd => by cases absurd
      · intro slot' b loaded
        cases loaded
        exact kept.cur slot block current
    | none =>
      simp only [current] at stepped
      cases stepped
      exact ⟨chain, kept.drops _ (by rw [here]; rfl) rfl fun slot b absurd => by cases absurd⟩
  | bump slot block =>
    have isOpen := kept.loaded t slot block (by rw [here]; rfl)
    have bumped := kept.bumps isOpen
    have counted : (s.setUsed block (s.used block + 1)).used block = s.used block + 1 :=
      Function.update_self block _ s.used
    simp only [here] at stepped
    split at stepped
    · rename_i inside
      cases stepped
      have moved := bumped.drops (t := t) .idle (by rw [State.setUsed, here]; rfl) rfl
        fun slot b absurd => by cases absurd
      refine ⟨chain, moved.returns ⟨isOpen.mem, ?_, fun u holds => ?_⟩ ?_ inside ?_⟩
      · exact (Nat.succ_pos _).trans_eq counted.symm
      · rcases eq_or_ne u t with rfl | other
        · rw [State.go_self] at holds
          cases holds
        · rw [State.go_of_ne _ _ other] at holds
          exact isOpen.installed u holds
      · exact fun again => (kept.returned _ _ again).2.2.false
      · exact (Nat.lt_succ_self _).trans_eq counted.symm
    · cases stepped
      exact ⟨chain, bumped.drops _ (by rw [State.setUsed, here]; rfl) rfl fun slot' b loaded =>
        bumped.loaded t slot' b (by rw [State.setUsed, here]; exact loaded)⟩
  | reserve slot block fresh =>
    simp only [here] at stepped
    cases stepped
    have held : (s.pc t).fresh = some fresh := by rw [here]; rfl
    refine ⟨chain, (kept.reserves held).moves _ (by rw [State.setUsed, here]; rfl) ?_ ?_ ?_ ?_⟩
    · exact fun b holds => by cases holds; exact held
    · exact fun b holds => by cases holds; exact Function.update_self fresh 1 s.used
    · exact fun b head absurd => by cases absurd
    · exact fun slot' b loaded => (kept.reserves held).loaded t slot' b
        (by rw [State.setUsed, here]; exact loaded)
  | loadHead slot block fresh =>
    simp only [here] at stepped
    cases stepped
    refine ⟨chain, kept.moves _ (by rw [here]; rfl) ?_ ?_ ?_ ?_⟩
    · exact fun b holds => by cases holds; rw [here]; rfl
    · exact fun b holds => kept.reserved t b (by cases holds; rw [here]; rfl)
    · exact fun b head absurd => by cases absurd
    · exact fun slot' b loaded => kept.loaded t slot' b (by rw [here]; exact loaded)
  | setPrev slot block fresh head =>
    simp only [here] at stepped
    cases stepped
    have holds : (s.pc t).chaining = some fresh := by rw [here]; rfl
    have linked := kept.links holds (by rw [here]; rfl) head
    refine ⟨chain, linked.moves _ (by rw [State.setPrev, here]; rfl) ?_ ?_ ?_ ?_⟩
    · exact fun b holds => by cases holds; exact Pc.fresh_of_chaining holds
    · exact fun b holds => kept.reserved t b (by cases holds; rw [here]; rfl)
    · exact fun b behind linked => by cases linked; exact Function.update_self fresh head s.prev
    · exact fun slot' b loaded =>
        linked.loaded t slot' b (by rw [State.setPrev, here]; exact loaded)
  | swap slot block fresh head =>
    have held : (s.pc t).chaining = some fresh := by rw [here]; rfl
    have counted := kept.reserved t fresh (by rw [here]; rfl)
    simp only [here] at stepped
    split at stepped
    · rename_i found
      cases stepped
      have links := kept.linked t fresh head (by rw [here]; rfl)
      exact ⟨fresh :: chain, kept.chains held (links.trans found.1.symm) rfl rfl rfl counted rfl
        (by rw [here]; rfl)⟩
    · cases stepped
      refine ⟨chain, kept.moves _ (by rw [here]; rfl) ?_ ?_ ?_ ?_⟩
      · exact fun b holds => by cases holds; rw [here]; rfl
      · exact fun b holds => by cases holds; exact counted
      · exact fun b head absurd => by cases absurd
      · exact fun slot' b loaded => kept.loaded t slot' b (by rw [here]; exact loaded)
  | publish slot block fresh =>
    have held : (s.pc t).fresh = some fresh := by rw [here]; rfl
    have free : (s.pc t).chaining = none := by rw [here]; rfl
    simp only [here] at stepped
    split at stepped
    · cases stepped
      have isOpen := kept.open_of_drops held (by rw [here]; rfl) free
      have moved := (kept.drops (t := t) .idle free rfl fun slot b absurd => by cases absurd).installs
        isOpen slot
      refine ⟨chain, moved.returns ⟨isOpen.mem, isOpen.used, isOpen.installed⟩ ?_ positive
        isOpen.used⟩
      exact fun again => (kept.returned _ _ again).1.installed t held
    · cases stepped
      exact ⟨chain, kept.drops _ free rfl fun slot b absurd => by cases absurd⟩

theorem Kept.takeStep (kept : Kept kEdgesPerBlock s chain) {mem : Option Block}
    (stepped : takeStep s t mem = some s') : Kept kEdgesPerBlock s' chain := by
  unfold Arena.takeStep at stepped
  split at stepped
  · rename_i slot block here
    cases stepped
    exact kept.drops _ (by rw [here]; rfl) rfl fun slot b absurd => by cases absurd
  · rename_i slot block fresh here
    split at stepped
    · cases stepped
    · rename_i new
      cases stepped
      exact kept.takes new (by rw [here]; rfl) rfl rfl rfl rfl (by rw [here]; rfl)
  · cases stepped

/-- The calls change nothing of what `~TaskDAG` has. -/
theorem allocStep_walk {fails : Bool} (stepped : allocStep kEdgesPerBlock s t fails = some s') :
    s'.walk = s.walk ∧ s'.retired = s.retired := by
  unfold allocStep at stepped
  cases here : s.pc t with
  | idle | take | aborted =>
    rw [here] at stepped
    cases stepped
  | loadCur slot =>
    cases current : s.cur slot with
    | some | none =>
      simp only [here, current] at stepped
      cases stepped
      exact ⟨rfl, rfl⟩
  | bump | swap | publish =>
    simp only [here] at stepped
    split at stepped
    · cases stepped
      exact ⟨rfl, rfl⟩
    · cases stepped
      exact ⟨rfl, rfl⟩
  | reserve | loadHead | setPrev =>
    simp only [here] at stepped
    cases stepped
    exact ⟨rfl, rfl⟩

theorem takeStep_walk {mem : Option Block} (stepped : takeStep s t mem = some s') :
    s'.walk = s.walk ∧ s'.retired = s.retired := by
  unfold takeStep at stepped
  split at stepped
  · cases stepped
    exact ⟨rfl, rfl⟩
  · split at stepped
    · cases stepped
    · cases stepped
      exact ⟨rfl, rfl⟩
  · cases stepped

/-! ## The walk -/

/-- `~TaskDAG` runs with no call in progress.  What it has retired is a first part of the chain, and
it stands at the rest. -/
structure Walks (s : State n workers) (chain : List Block) : Prop where
  before : s.walk = none → s.retired = []
  alone : s.walk ≠ none → ∀ t, s.pc t = .idle
  during : ∀ block, s.walk = some block →
    ∃ rest, chain = s.retired ++ rest ∧ Leads s.prev block rest none

/-- It has not started when a call is in progress. -/
theorem Walks.not_started (walks : Walks s chain) (busy : s.pc t ≠ .idle) : s.walk = none := by
  by_contra started
  exact busy (walks.alone started t)

theorem Walks.of_not_started (walk : s.walk = none) (retired : s.retired = []) : Walks s chain where
  before _ := retired
  alone started := (started walk).elim
  during block absurd := by cases walk.symm.trans absurd

theorem allocStep_busy {fails : Bool} (stepped : allocStep kEdgesPerBlock s t fails = some s') :
    s.pc t ≠ .idle := by
  intro idle
  simp only [allocStep, idle] at stepped
  cases stepped

theorem takeStep_busy {mem : Option Block} (stepped : takeStep s t mem = some s') :
    s.pc t ≠ .idle := by
  intro idle
  simp only [takeStep, idle] at stepped
  cases stepped

theorem step_kept (kept : Kept kEdgesPerBlock s chain) (walks : Walks s chain)
    (positive : 0 < kEdgesPerBlock) {a : Label n} (stepped : step kEdgesPerBlock s a = some s') :
    ∃ chain', Kept kEdgesPerBlock s' chain' ∧ Walks s' chain' := by
  cases a with
  | call t qIndex =>
    simp only [step] at stepped
    split at stepped
    · rename_i ready
      cases stepped
      exact ⟨chain, kept.drops _ (by rw [ready.1]; rfl) rfl (fun slot b absurd => by cases absurd),
        .of_not_started ready.2 (walks.before ready.2)⟩
    · cases stepped
  | step t fails =>
    have unstarted := walks.not_started (allocStep_busy stepped)
    obtain ⟨walk, retired⟩ := allocStep_walk stepped
    obtain ⟨chain', kept'⟩ := kept.allocStep positive stepped
    exact ⟨chain', kept', .of_not_started (walk.trans unstarted)
      (retired.trans (walks.before unstarted))⟩
  | alloc t mem =>
    have unstarted := walks.not_started (takeStep_busy stepped)
    obtain ⟨walk, retired⟩ := takeStep_walk stepped
    exact ⟨chain, kept.takeStep stepped, .of_not_started (walk.trans unstarted)
      (retired.trans (walks.before unstarted))⟩
  | destroy =>
    simp only [step] at stepped
    split at stepped
    · rename_i ready
      cases stepped
      refine ⟨chain, kept.walks _ _, ⟨fun absurd => (by cases absurd), fun _ => ready.1, ?_⟩⟩
      intro block started
      cases started
      refine ⟨chain, ?_, kept.chained.leads⟩
      rw [walks.before ready.2]
      rfl
    · cases stepped
  | retire =>
    simp only [step] at stepped
    split at stepped
    · rename_i block started
      cases stepped
      refine ⟨chain, kept.walks _ _, ⟨fun absurd => (by cases absurd),
        fun _ => walks.alone (by simp [started]), ?_⟩⟩
      obtain ⟨rest, parts, leads⟩ := walks.during _ started
      intro next moved
      cases moved
      cases rest with
      | nil => cases leads
      | cons first rest =>
        cases leads.1
        refine ⟨rest, ?_, leads.2⟩
        rw [parts, List.append_assoc]
        rfl
    · cases stepped
    · cases stepped

/-! ## Every run -/

/-- What the calls promise: no edge is returned twice, and each lies in a block on the chain, on
which the blocks taken are found once.  `~TaskDAG` retires no block twice, none but those on the
chain, and has retired every block taken when it ends. -/
structure State.Sound (kEdgesPerBlock : Nat) (s : State n workers) (chain : List Block) : Prop where
  chained : s.Chained chain
  taken : s.taken.Nodup
  once : s.returned.Nodup
  inside : ∀ b i, (b, i) ∈ s.returned → b ∈ chain ∧ i < kEdgesPerBlock
  retired : s.retired.Nodup
  retires : ∀ b ∈ s.retired, b ∈ chain
  ends : s.walk = some none → s.retired.Perm s.taken

theorem reach_kept (positive : 0 < kEdgesPerBlock)
    (reach : Reach (step kEdgesPerBlock) anyStep (initial n workers) s) :
    ∃ chain, Kept kEdgesPerBlock s chain ∧ Walks s chain := by
  induction reach with
  | start => exact ⟨[], initial_kept, .of_not_started rfl rfl⟩
  | next _ _ stepped ih =>
    obtain ⟨chain, kept, walks⟩ := ih
    exact step_kept kept walks positive stepped

/-- With no call in progress the chain is the blocks taken. -/
theorem Kept.perm (kept : Kept kEdgesPerBlock s chain) (quiet : ∀ t, s.pc t = .idle) :
    chain.Perm s.taken := by
  refine (List.perm_ext_iff_of_nodup kept.chained.nodup kept.taken).mpr fun b => ?_
  rw [kept.chained.mem b]
  refine and_iff_left fun t absurd => ?_
  rw [quiet t] at absurd
  cases absurd

theorem Kept.sound (kept : Kept kEdgesPerBlock s chain) (walks : Walks s chain) :
    s.Sound kEdgesPerBlock chain := by
  have part : s.retired.Nodup ∧ ∀ b ∈ s.retired, b ∈ chain := by
    cases started : s.walk with
    | none =>
      rw [walks.before started]
      exact ⟨List.nodup_nil, fun b absurd => by cases absurd⟩
    | some block =>
      obtain ⟨rest, parts, -⟩ := walks.during block started
      have nodup := kept.chained.nodup
      rw [parts] at nodup ⊢
      exact ⟨(List.nodup_append.mp nodup).1, fun b mem => List.mem_append_left _ mem⟩
  constructor
  case chained => exact kept.chained
  case taken => exact kept.taken
  case once => exact kept.once
  case inside => exact fun b i mem => ⟨(kept.returned b i mem).1.mem, (kept.returned b i mem).2.1⟩
  case retired => exact part.1
  case retires => exact part.2
  case ends =>
    intro ended
    obtain ⟨rest, parts, leads⟩ := walks.during none ended
    have whole : s.retired = chain := by
      cases rest with
      | nil => rw [parts, List.append_nil]
      | cons first rest => cases leads.1
    rw [whole]
    exact kept.perm (walks.alone (by simp [ended]))

theorem run_cons {σ ℓ : Type*} {step : σ → ℓ → Option σ} {ok : σ → ℓ → Prop}
    [∀ s a, Decidable (ok s a)] {s t : σ} {a : ℓ} (allowed : ok s a) (stepped : step s a = some t)
    (as : List ℓ) : run step ok s (a :: as) = run step ok t as := by
  rw [run, if_pos allowed, stepped]
  rfl

/-- From where it stands the walk takes a step for every block that is left. -/
theorem walk_ends (kEdgesPerBlock : Nat) {rest : List Block} :
    ∀ {s : State n workers} {block : Option Block},
    s.walk = some block → Leads s.prev block rest none →
    ∃ t, run (step kEdgesPerBlock) anyStep s (List.replicate rest.length .retire) = some t ∧
      t.walk = some none ∧ t.taken = s.taken := by
  induction rest with
  | nil =>
    intro s block started leads
    cases leads
    exact ⟨s, rfl, started, rfl⟩
  | cons first rest ih =>
    intro s block started leads
    obtain ⟨rfl, leads⟩ := leads
    obtain ⟨t, ran, ended⟩ := ih
      (s := { s with walk := some (s.prev first), retired := s.retired ++ [first] }) rfl leads
    refine ⟨t, ?_, ended⟩
    have moved : step kEdgesPerBlock s .retire =
        some { s with walk := some (s.prev first), retired := s.retired ++ [first] } := by
      simp only [step, started]
    rw [List.length_cons, List.replicate_succ, run_cons trivial moved]
    exact ran

/-- In every run the arena is sound, and `~TaskDAG` comes to its end when no call is in progress:
it takes one step for each block ever taken. -/
theorem arena_sound (positive : 0 < kEdgesPerBlock)
    (reach : Reach (step kEdgesPerBlock) anyStep (initial n workers) s) :
    (∃ chain, s.Sound kEdgesPerBlock chain) ∧
      ((∀ t, s.pc t = .idle) → s.walk = none →
        ∃ t, run (step kEdgesPerBlock) anyStep s
            (.destroy :: List.replicate s.taken.length .retire) = some t ∧
          t.walk = some none ∧ t.retired.Nodup ∧ t.retired.Perm s.taken) := by
  obtain ⟨chain, kept, walks⟩ := reach_kept positive reach
  refine ⟨⟨chain, kept.sound walks⟩, fun quiet unstarted => ?_⟩
  have start : step kEdgesPerBlock s .destroy = some { s with walk := some s.retireHead } :=
    if_pos ⟨quiet, unstarted⟩
  obtain ⟨t, ran, ended, same⟩ := walk_ends kEdgesPerBlock
    (s := { s with walk := some s.retireHead }) rfl kept.chained.leads
  obtain ⟨last, kept', walks'⟩ :=
    reach_kept positive (Reach.of_run (reach.next trivial start) ran)
  have sound := kept'.sound walks'
  rw [(kept.perm quiet).length_eq] at ran
  refine ⟨t, ?_, ended, sound.retired, ?_⟩
  · rw [run_cons trivial start]
    exact ran
  · have perm := sound.ends ended
    rw [same] at perm
    exact perm

/-! ## Counting past the end -/

/-- The block a call is about to replace. -/
def Pc.passed : Pc workers → Option Block
  | .take _ block | .reserve _ block _ | .loadHead _ block _ | .setPrev _ block _ _
  | .swap _ block _ _ | .publish _ block _ => block
  | .idle | .loadCur _ | .bump _ _ | .aborted => none

/-- The thread does not count up this block any more. -/
def State.Spent (s : State n workers) (b : Block) (t : Fin n) : Prop :=
  s.pc t = .aborted ∨ (s.pc t).passed = some b ∨
    (∀ slot, s.pc t ≠ .bump slot b) ∧ ∀ slot, s.cur slot ≠ some b

structure Counted (kEdgesPerBlock : Nat) (s : State n workers) : Prop where
  apart : ∀ slot slot' b, s.cur slot = some b → s.cur slot' = some b → slot = slot'
  home : ∀ t slot b, (s.pc t).loaded = some (slot, b) → ∀ slot', s.cur slot' = some b → slot' = slot
  used : ∀ b, ∃ late : Finset (Fin n),
    s.used b ≤ kEdgesPerBlock + late.card ∧ ∀ t ∈ late, s.Spent b t

theorem initial_counted : Counted kEdgesPerBlock (initial n workers) where
  apart slot slot' b absurd := by cases absurd
  home t slot b absurd := by cases absurd
  used b := ⟨∅, Nat.zero_le _, fun t absurd => by cases absurd⟩

/-- A thread moves on, and counts up a block at most where it had not. -/
theorem Counted.moves (counted : Counted kEdgesPerBlock s) {pc : Pc workers}
    (pcs : s'.pc = Function.update s.pc t pc) (cur : s'.cur = s.cur)
    (loaded : ∀ slot b, pc.loaded = some (slot, b) →
      (s.pc t).loaded = some (slot, b) ∨ s.cur slot = some b)
    (used : ∀ b, s'.used b = s.used b ∨ s'.used b ≤ kEdgesPerBlock ∨
      s'.used b = s.used b + 1 ∧ ¬ s.Spent b t ∧ s'.Spent b t)
    (spent : ∀ b, s.Spent b t → s'.Spent b t) : Counted kEdgesPerBlock s' := by
  have still : ∀ b u, s.Spent b u → s'.Spent b u := by
    intro b u was
    rcases eq_or_ne u t with rfl | other
    · exact spent b was
    · unfold State.Spent
      rw [pcs, cur, Function.update_of_ne other]
      exact was
  constructor
  case apart =>
    rw [cur]
    exact counted.apart
  case home =>
    rw [pcs, cur]
    intro u slot b holds slot' current
    rcases eq_or_ne u t with rfl | other
    · rw [Function.update_self] at holds
      rcases loaded slot b holds with before | now
      · exact counted.home u slot b before slot' current
      · exact counted.apart slot' slot b current now
    · rw [Function.update_of_ne other] at holds
      exact counted.home u slot b holds slot' current
  case used =>
    intro b
    obtain ⟨late, bound, all⟩ := counted.used b
    rcases used b with same | small | ⟨more, new, spent'⟩
    · exact ⟨late, same ▸ bound, fun u mem => still b u (all u mem)⟩
    · exact ⟨∅, small, fun u absurd => by cases absurd⟩
    · have out : t ∉ late := fun mem => new (all t mem)
      refine ⟨late.cons t out, ?_, fun u mem => ?_⟩
      · rw [Finset.card_cons]
        omega
      · rcases Finset.mem_cons.mp mem with rfl | before
        · exact spent'
        · exact still b u (all u before)

/-- A thread that is spent stays so where it goes on with the block it has passed, and does not load
another one. -/
theorem State.Spent.goes {pc : Pc workers} (spent : s.Spent b t) (pcs : s'.pc t = pc)
    (cur : s'.cur = s.cur) (alive : s.pc t ≠ .aborted)
    (passed : (s.pc t).passed = some b → pc.passed = some b)
    (bump : ∀ slot, pc = .bump slot b → s.cur slot = some b) : s'.Spent b t := by
  unfold State.Spent
  rw [pcs, cur]
  rcases spent with absurd | before | ⟨-, gone⟩
  · exact (alive absurd).elim
  · exact .inr (.inl (passed before))
  · exact .inr (.inr ⟨fun slot loads => gone slot (bump slot loads), gone⟩)

/-- A thread goes on with what it has, if not without it, and not to count a block up. -/
theorem Counted.goes (counted : Counted kEdgesPerBlock s) {before pc : Pc workers}
    (here : s.pc t = before) (pcs : s'.pc = Function.update s.pc t pc) (cur : s'.cur = s.cur)
    (loaded : pc.loaded = none ∨ pc.loaded = before.loaded)
    (others : before ≠ .aborted ∧ ∀ slot b, pc ≠ .bump slot b)
    (passed : ∀ b, before.passed = some b → pc.passed = some b)
    (used : ∀ b, s'.used b = s.used b ∨ s'.used b ≤ kEdgesPerBlock ∨
      s'.used b = s.used b + 1 ∧ ¬ s.Spent b t ∧ s'.Spent b t) : Counted kEdgesPerBlock s' := by
  subst here
  refine counted.moves pcs cur (fun slot b holds => .inl ?_) used fun b spent =>
    spent.goes (pcs ▸ Function.update_self _ _ _) cur others.1 (passed b) fun slot bump =>
      (others.2 slot b bump).elim
  rcases loaded with none | same
  · cases none.symm.trans holds
  · exact same ▸ holds

/-- A fresh block takes the place of the one that was passed. -/
theorem Counted.installs (counted : Counted kEdgesPerBlock s)
    (kept : Kept kEdgesPerBlock s chain) (positive : 0 < kEdgesPerBlock)
    {slot : Fin (workers + 1)} {block : Option Block} {fresh : Block}
    (here : s.pc t = .publish slot block fresh) (found : s.cur slot = block) :
    Counted kEdgesPerBlock ((s.setCur slot fresh).returns t (fresh, 0)) := by
  have held : (s.pc t).fresh = some fresh := by rw [here]; rfl
  have counts : s.used fresh = 1 := kept.reserved t fresh (by rw [here]; rfl)
  have unseen : ∀ slot', s.cur slot' ≠ some fresh :=
    fun slot' current => (kept.cur slot' fresh current).installed t held
  have now : ((s.setCur slot fresh).returns t (fresh, 0)).cur =
      Function.update s.cur slot (some fresh) := rfl
  have pcs : ((s.setCur slot fresh).returns t (fresh, 0)).pc = Function.update s.pc t .idle := rfl
  have was : ∀ slot' b, b ≠ fresh → Function.update s.cur slot (some fresh) slot' = some b →
      slot' ≠ slot ∧ s.cur slot' = some b := by
    intro slot' b other current
    rcases eq_or_ne slot' slot with rfl | apart
    · rw [Function.update_self] at current
      cases current
      exact (other rfl).elim
    · rw [Function.update_of_ne apart] at current
      exact ⟨apart, current⟩
  have only : ∀ slot', Function.update s.cur slot (some fresh) slot' = some fresh →
      slot' = slot := by
    intro slot' current
    by_contra apart
    rw [Function.update_of_ne apart] at current
    exact unseen slot' current
  constructor
  case apart =>
    rw [now]
    intro first second b one two
    rcases eq_or_ne b fresh with rfl | other
    · rw [only first one, only second two]
    · exact counted.apart first second b (was first b other one).2 (was second b other two).2
  case home =>
    rw [now, pcs]
    intro u first b loaded second current
    rcases eq_or_ne u t with rfl | apart
    · rw [Function.update_self] at loaded
      cases loaded
    · rw [Function.update_of_ne apart] at loaded
      rcases eq_or_ne b fresh with rfl | other
      · exact ((kept.loaded u first b loaded).installed t held).elim
      · exact counted.home u first b loaded second (was second b other current).2
  case used =>
    intro b
    rcases eq_or_ne b fresh with rfl | other
    · exact ⟨∅, counts.trans_le positive, fun u absurd => by cases absurd⟩
    · obtain ⟨late, bound, all⟩ := counted.used b
      refine ⟨late, bound, fun u mem => ?_⟩
      have spent := all u mem
      unfold State.Spent
      rw [now, pcs]
      rcases eq_or_ne u t with rfl | apart
      · rw [Function.update_self]
        refine .inr (.inr ⟨fun slot absurd => (by cases absurd), fun slot' current => ?_⟩)
        obtain ⟨elsewhere, before⟩ := was slot' b other current
        rcases spent with absurd | passed | ⟨-, gone⟩
        · cases here.symm.trans absurd
        · rw [here] at passed
          exact elsewhere (counted.apart slot' slot b before (found.trans passed))
        · exact gone slot' before
      · rw [Function.update_of_ne apart]
        rcases spent with dead | passed | ⟨bump, gone⟩
        · exact .inl dead
        · exact .inr (.inl passed)
        · exact .inr (.inr ⟨bump, fun slot' current => gone slot' (was slot' b other current).2⟩)

theorem Counted.allocStep (counted : Counted kEdgesPerBlock s)
    (kept : Kept kEdgesPerBlock s chain) (positive : 0 < kEdgesPerBlock) {fails : Bool}
    (stepped : allocStep kEdgesPerBlock s t fails = some s') : Counted kEdgesPerBlock s' := by
  unfold Arena.allocStep at stepped
  cases here : s.pc t with
  | idle | take | aborted =>
    rw [here] at stepped
    cases stepped
  | loadCur slot =>
    simp only [here] at stepped
    cases current : s.cur slot with
    | some block =>
      simp only [current] at stepped
      cases stepped
      refine counted.moves rfl rfl ?_ (fun b => .inl rfl) fun b spent => spent.goes
        (State.go_self _ _ _) rfl (by simp [here]) (by simp [here, Pc.passed]) ?_
      · intro slot' b loaded
        cases loaded
        exact .inr current
      · intro slot' loads
        cases loads
        exact current
    | none =>
      simp only [current] at stepped
      cases stepped
      exact counted.goes here rfl rfl (.inl rfl) (by simp) (fun _ same => same) fun _ => .inl rfl
  | bump slot block =>
    simp only [here] at stepped
    split at stepped
    · rename_i inside
      cases stepped
      refine counted.goes here rfl rfl (.inl rfl) (by simp) (fun _ absurd => by cases absurd)
        fun b => ?_
      rcases eq_or_ne b block with rfl | other
      · exact .inr (.inl ((Function.update_self b _ s.used).trans_le inside))
      · exact .inl (Function.update_of_ne other _ s.used)
    · cases stepped
      refine counted.goes here rfl rfl (.inr rfl) (by simp) (fun _ absurd => by cases absurd)
        fun b => ?_
      rcases eq_or_ne b block with rfl | other
      · refine .inr (.inr ⟨Function.update_self b _ s.used, ?_, .inr (.inl ?_)⟩)
        · rintro (absurd | absurd | ⟨absurd, -⟩)
          · cases here.symm.trans absurd
          · rw [here] at absurd
            cases absurd
          · exact absurd slot here
        · rw [State.go_self]
          rfl
      · exact .inl (Function.update_of_ne other _ s.used)
  | reserve slot block fresh =>
    simp only [here] at stepped
    cases stepped
    refine counted.goes here rfl rfl (.inr rfl) (by simp) (fun _ same => same) fun b => ?_
    rcases eq_or_ne b fresh with rfl | other
    · exact .inr (.inl ((Function.update_self b 1 s.used).trans_le positive))
    · exact .inl (Function.update_of_ne other _ s.used)
  | loadHead slot block fresh | setPrev slot block fresh head =>
    simp only [here] at stepped
    cases stepped
    exact counted.goes here rfl rfl (.inr rfl) (by simp) (fun _ same => same) fun _ => .inl rfl
  | swap slot block fresh head =>
    simp only [here] at stepped
    split at stepped
    · cases stepped
      exact counted.goes here rfl rfl (.inr rfl) (by simp) (fun _ same => same) fun _ => .inl rfl
    · cases stepped
      exact counted.goes here rfl rfl (.inr rfl) (by simp) (fun _ same => same) fun _ => .inl rfl
  | publish slot block fresh =>
    simp only [here] at stepped
    split at stepped
    · rename_i found
      cases stepped
      exact counted.installs kept positive here found
    · rename_i lost
      cases stepped
      refine counted.moves rfl rfl (fun slot b absurd => by cases absurd) (fun b => .inl rfl)
        fun b spent => ?_
      have gone : ∀ slot', s.cur slot' ≠ some b := by
        rcases spent with absurd | passed | ⟨-, gone⟩
        · cases here.symm.trans absurd
        · rw [here] at passed
          cases passed
          intro slot' current
          have same := counted.home t slot b (by rw [here]; rfl) slot' current
          exact lost (same ▸ current)
        · exact gone
      refine .inr (.inr ⟨fun slot absurd => ?_, gone⟩)
      rw [State.go_self] at absurd
      cases absurd

theorem Counted.takeStep (counted : Counted kEdgesPerBlock s) {mem : Option Block}
    (stepped : takeStep s t mem = some s') : Counted kEdgesPerBlock s' := by
  unfold Arena.takeStep at stepped
  split at stepped
  · rename_i slot block here
    cases stepped
    exact counted.moves rfl rfl (fun slot b absurd => by cases absurd) (fun b => .inl rfl)
      fun b spent => .inl (State.go_self _ _ _)
  · rename_i slot block fresh here
    split at stepped
    · cases stepped
    · cases stepped
      refine counted.goes here rfl rfl (.inr rfl) (by simp) (fun _ same => same) fun b => ?_
      rcases eq_or_ne b fresh with rfl | other
      · exact .inr (.inl ((Function.update_self b 0 s.used).trans_le (Nat.zero_le _)))
      · exact .inl (Function.update_of_ne other _ s.used)
  · cases stepped

theorem Counted.step (counted : Counted kEdgesPerBlock s) (kept : Kept kEdgesPerBlock s chain)
    (positive : 0 < kEdgesPerBlock) {a : Label n} (stepped : step kEdgesPerBlock s a = some s') :
    Counted kEdgesPerBlock s' := by
  cases a with
  | call t qIndex =>
    simp only [Arena.step] at stepped
    split at stepped
    · rename_i ready
      cases stepped
      exact counted.goes ready.1 rfl rfl (.inl rfl) (by simp) (fun _ same => same) fun _ => .inl rfl
    · cases stepped
  | step t fails => exact counted.allocStep kept positive stepped
  | alloc t mem => exact counted.takeStep stepped
  | destroy =>
    simp only [Arena.step] at stepped
    split at stepped
    · cases stepped
      exact ⟨counted.apart, counted.home, counted.used⟩
    · cases stepped
  | retire =>
    simp only [Arena.step] at stepped
    split at stepped
    · cases stepped
      exact ⟨counted.apart, counted.home, counted.used⟩
    · cases stepped
    · cases stepped

/-- In every run a thread adds at most one to what a block can hold. -/
theorem used_le (positive : 0 < kEdgesPerBlock)
    (reach : Reach (step kEdgesPerBlock) anyStep (initial n workers) s) (b : Block) :
    s.used b ≤ kEdgesPerBlock + n := by
  have counted : Counted kEdgesPerBlock s :=
    Reach.invariant_of (reach_kept positive) initial_counted
      (fun known counted _ stepped => by
        obtain ⟨chain, kept, -⟩ := known
        exact counted.step kept positive stepped) reach
  obtain ⟨late, bound, -⟩ := counted.used b
  have few : late.card ≤ n := (Finset.card_le_univ late).trans_eq (Fintype.card_fin n)
  omega

/-! ## A run -/

/-- Two threads outside the pool take a fresh block each.  The second one loses the slot and takes
the next edge of the first one's block. -/
def race : List (Label 2) :=
  [.call 0 none, .call 1 none, .step 0 false, .step 1 false, .alloc 0 (some 10), .alloc 1 (some 20),
    .step 0 false, .step 1 false, .step 0 false, .step 1 false, .step 0 false, .step 1 false,
    .step 0 false, .step 1 false, .step 0 false, .step 1 false, .step 1 false, .step 1 false,
    .step 1 false, .step 1 false]

def raced : State 2 3 := (run (step 5) anyStep (initial 2 3) race).getD (initial 2 3)

theorem raced_sound :
    (raced.returned = [(10, 0), (10, 1)] ∧ raced.taken = [10, 20]) ∧
      ((∃ chain, raced.Sound 5 chain) ∧
        ((∀ t, raced.pc t = .idle) → raced.walk = none →
          ∃ t, run (step 5) anyStep raced (.destroy :: List.replicate raced.taken.length .retire) =
            some t ∧ t.walk = some none ∧ t.retired.Nodup ∧ t.retired.Perm raced.taken)) :=
  ⟨by decide +kernel, arena_sound (by decide) (Reach.of_isSome race (by decide +kernel))⟩

/-- Blocks of two edges; the one in the slot is full, and both threads count it up once more. -/
def overrunLabels : List (Label 2) :=
  race ++ [.call 0 none, .call 1 none, .step 0 false, .step 1 false, .step 0 false, .step 1 false]

def overrun : State 2 3 := (run (step 2) anyStep (initial 2 3) overrunLabels).getD (initial 2 3)

theorem overrun_used : overrun.used 10 = 4 ∧ ∀ b, overrun.used b ≤ 2 + 2 :=
  ⟨by decide +kernel, used_le (by decide) (Reach.of_isSome overrunLabels (by decide +kernel))⟩

end JLibSched.DAG.Arena
