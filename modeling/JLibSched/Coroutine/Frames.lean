import JLibSched.Coroutine.Model

/-!
# The frames of a task

The frames of a task lead from the innermost one along the continuations to its `Coro`; no frame
belongs to two tasks, and one that belongs to none is that of a task that was discarded.  What
changes the frames of one thread leaves those of the others alone.
-/

namespace JLibSched.Coroutine

open Transition
open Calls (Instr Status Control Thread)

variable {ω σ γ ε ν : Type*}

/-- What a thread is tagged with: the wait group and the node of its task. -/
abbrev Tag : Type := Option Nat × Option Nat

def Label.view : Label ω σ → Calls.Label Nat ω Tag σ
  | .spawn _ t c waitGroup dagNode => .spawn t c (waitGroup, dagNode)
  | .discard t => .drop t
  | .wake t => .wake t
  | .resume w t => .resume w t
  | .exec w _ stays => .exec w stays

/-! ## Chains of frames -/

/-- The frames of task `t`, the innermost first, with what their awaiters do with the results. -/
inductive Chain (frame : Nat → Option (Frame σ ε ν)) (t : Nat) (node : Option Nat) :
    List (Except ε ν → σ) → List Nat → Prop where
  | base {h : Nat} {f : Frame σ ε ν} :
      frame h = some f → f.kind = .coro → f.promise.task = some t → f.promise.dagNode = node →
      Chain frame t node [] [h]
  | call {h p : Nat} {ps : List Nat} {f g : Frame σ ε ν} {k : Except ε ν → σ}
      {ks : List (Except ε ν → σ)} :
      frame h = some f → f.kind = .lazy → f.promise.task = some t →
      f.promise.continuation = some p → frame p = some g → g.point = .awaiting h k →
      g.promise.eptr = none → Chain frame t node ks (p :: ps) →
      Chain frame t node (k :: ks) (h :: p :: ps)

section Chains

variable {frame frame' : Nat → Option (Frame σ ε ν)} {t h : Nat} {node : Option Nat}
  {ks : List (Except ε ν → σ)} {hs : List Nat} {f f' : Frame σ ε ν}

theorem Chain.congr (chain : Chain frame t node ks hs) (same : ∀ h ∈ hs, frame' h = frame h) :
    Chain frame' t node ks hs := by
  induction chain with
  | base here coro task dagNode =>
    exact .base ((same _ (List.mem_cons_self ..)).trans here) coro task dagNode
  | call here lazy task continuation there awaits unset rest ih =>
    refine .call ((same _ (List.mem_cons_self ..)).trans here) lazy task continuation
      ((same _ (by simp)).trans there) awaits unset (ih fun h mem => ?_)
    exact same h (List.mem_cons_of_mem _ mem)

/-- The innermost frame changes, but not whose it is. -/
theorem Chain.head (chain : Chain frame t node ks (h :: hs)) (nodup : (h :: hs).Nodup)
    (here : frame h = some f) (here' : frame' h = some f') (kind : f'.kind = f.kind)
    (task : f'.promise.task = f.promise.task) (dagNode : f'.promise.dagNode = f.promise.dagNode)
    (continuation : f'.promise.continuation = f.promise.continuation)
    (same : ∀ p ∈ hs, frame' p = frame p) : Chain frame' t node ks (h :: hs) := by
  cases chain with
  | base found coro owner tag =>
    obtain rfl := Option.some.inj (here.symm.trans found)
    exact .base here' (kind.trans coro) (task.trans owner) (dagNode.trans tag)
  | call found lazy owner next there awaits unset rest =>
    obtain rfl := Option.some.inj (here.symm.trans found)
    exact .call here' (kind.trans lazy) (task.trans owner) (continuation.trans next)
      ((same _ (List.mem_cons_self ..)).trans there) awaits unset (rest.congr same)

theorem Chain.used (chain : Chain frame t node ks hs) (mem : h ∈ hs) : (frame h).isSome := by
  induction chain with
  | base here =>
    obtain rfl := List.mem_singleton.mp mem
    rw [here]
    rfl
  | call here _ _ _ _ _ _ _ ih =>
    rcases List.mem_cons.mp mem with rfl | mem
    · rw [here]
      rfl
    · exact ih mem

/-- One frame for each caller and one for the innermost body. -/
theorem Chain.length (chain : Chain frame t node ks hs) : hs.length = ks.length + 1 := by
  induction chain with
  | base => rfl
  | call _ _ _ _ _ _ _ _ ih => exact congrArg Nat.succ ih

theorem Chain.task (chain : Chain frame t node ks (h :: hs)) (here : frame h = some f) :
    f.promise.task = some t := by
  cases chain with
  | base found _ owner _ =>
    obtain rfl := Option.some.inj (here.symm.trans found)
    exact owner
  | call found _ owner =>
    obtain rfl := Option.some.inj (here.symm.trans found)
    exact owner

/-- Only the last frame is that of a `Coro`. -/
theorem Chain.kind (chain : Chain frame t node ks (h :: hs)) (here : frame h = some f) :
    f.kind = .coro ∧ ks = [] ∧ hs = [] ∧ f.promise.dagNode = node ∨
      ∃ k ks' p ps, f.kind = .lazy ∧ ks = k :: ks' ∧ hs = p :: ps ∧
        f.promise.continuation = some p := by
  cases chain with
  | base found coro _ tag =>
    obtain rfl := Option.some.inj (here.symm.trans found)
    exact .inl ⟨coro, rfl, rfl, tag⟩
  | call found lazy _ next =>
    obtain rfl := Option.some.inj (here.symm.trans found)
    exact .inr ⟨_, _, _, _, lazy, rfl, rfl, next⟩

end Chains

/-- The innermost frame stands where the thread does. -/
def Top (f : Frame σ ε ν) : Control σ ε ν → Prop
  | .run c => f.point = .before c ∧ f.promise.eptr = none
  | .done r => f.promise.take = some r

/-- The frame that the worker of a thread runs: after the innermost body ended, that of its
awaiter. -/
def active : Control σ ε ν → List Nat → Option Nat
  | .run _, hs => hs.head?
  | .done _, hs => hs.tail.head?

/-- A thread in memory. -/
structure Stored (c : State ω σ γ ε ν) (t : Nat) (th : Thread Tag σ ε ν) (hs : List Nat) :
    Prop where
  task : ∃ task, c.task t = some task ∧ task.waitGroup = th.tag.1 ∧ task.status = th.status ∧
    (th.status ≠ .running → hs.head? = some task.data)
  chain : Chain c.frame t th.tag.2 th.stack hs
  top : ∃ h f, hs.head? = some h ∧ c.frame h = some f ∧ Top f th.control
  nodup : hs.Nodup

/-- The frames of every thread, and those that nobody owns. -/
structure Frames (c : State ω σ γ ε ν) (s : Calls.State Nat ω Tag σ γ ε ν)
    (chain : Nat → List Nat) (stranded : List Nat) : Prop where
  gone : ∀ t, s.thread t = none → c.task t = none ∧ chain t = []
  stored : ∀ t th, s.thread t = some th → Stored c t th (chain t)
  live : ∀ h, (c.frame h).isSome ↔ (∃ t, h ∈ chain t) ∨ h ∈ stranded
  apart : ∀ t r h, h ∈ chain t → h ∈ chain r → t = r
  beside : ∀ t h, h ∈ chain t → h ∉ stranded
  running : ∀ w, c.running w =
    (s.running w).bind fun t => (s.thread t).bind fun th => active th.control (chain t)
  /-- As many frames as threads that were dropped. -/
  lost : stranded.Nodup ∧ stranded.length = s.dropped.length

/-- What all share is the same, the groups count the tasks that have not ended, and the nodes of
those that finished are signalled. -/
structure Totals (c : State ω σ γ ε ν) (s : Calls.State Nat ω Tag σ γ ε ν) : Prop where
  shared : c.shared = s.shared
  escaped : c.escaped = s.escaped
  signalled : c.signalled = s.finished.filterMap Prod.snd
  counts : ∀ g, c.count g + s.finished.countP (fun tag => tag.1 = some g) +
    s.dropped.countP (fun tag => tag.1 = some g) = s.spawned.countP fun tag => tag.1 = some g

section Moves

variable {c c' : State ω σ γ ε ν} {s s' : Calls.State Nat ω Tag σ γ ε ν}
  {chain : Nat → List Nat} {stranded stranded' : List Nat} {t : Nat} {hs : List Nat}

theorem Stored.congr {th : Thread Tag σ ε ν} (stored : Stored c t th hs)
    (task : c'.task t = c.task t) (same : ∀ h ∈ hs, c'.frame h = c.frame h) :
    Stored c' t th hs := by
  obtain ⟨h, f, first, here, top⟩ := stored.top
  constructor
  case task =>
    rw [task]
    exact stored.task
  case chain => exact stored.chain.congr same
  case top => exact ⟨h, f, first, (same h (List.mem_of_mem_head? first)).trans here, top⟩
  case nodup => exact stored.nodup

/-- A frame of a thread is in use. -/
theorem Frames.used (frames : Frames c s chain stranded) {h : Nat} (mem : h ∈ chain t) :
    c.frame h ≠ none := by
  intro unused
  have live := (frames.live h).mpr (.inl ⟨t, mem⟩)
  rw [unused] at live
  cases live

/-- One thread changes, or comes or goes, and the others keep what they have. -/
theorem Frames.change (frames : Frames c s chain stranded) (o : Option (Thread Tag σ ε ν))
    (threads : s'.thread = Function.update s.thread t o)
    (tasks : ∀ r, r ≠ t → c'.task r = c.task r)
    (elsewhere : ∀ h, h ∉ chain t → h ∉ hs → c'.frame h = c.frame h)
    (new : ∀ h ∈ hs, h ∈ chain t ∨ c.frame h = none)
    (stored : ∀ th, o = some th → Stored c' t th hs)
    (removed : o = none → c'.task t = none ∧ hs = [])
    (left : ∀ h ∈ chain t, h ∉ hs → ((c'.frame h).isSome ↔ h ∈ stranded'))
    (kept : ∀ h, h ∈ stranded' ↔ h ∈ stranded ∨ h ∈ stranded' ∧ h ∈ chain t ∧ h ∉ hs)
    (lost : stranded'.Nodup ∧ stranded'.length = s'.dropped.length)
    (idle : ∀ v, s'.running v = none → c'.running v = none)
    (others : ∀ v r, r ≠ t → s'.running v = some r →
      s.running v = some r ∧ c'.running v = c.running v)
    (here : ∀ v th, o = some th → s'.running v = some t → c'.running v = active th.control hs)
    (runs : ∀ v, s'.running v = some t → o.isSome) :
    Frames c' s' (Function.update chain t hs) stranded' := by
  have keeps (r : Nat) (other : r ≠ t) (h : Nat) (mem : h ∈ chain r) : c'.frame h = c.frame h := by
    have away : h ∉ chain t := fun mem' => other (frames.apart r t h mem mem')
    refine elsewhere h away fun mem' => ?_
    rcases new h mem' with mem' | unused
    · exact away mem'
    · exact frames.used mem unused
  constructor
  case gone =>
    intro r none
    rcases eq_or_ne r t with rfl | other
    · rw [threads, Function.update_self] at none
      rw [Function.update_self]
      exact removed none
    · rw [threads, Function.update_of_ne other] at none
      rw [Function.update_of_ne other, tasks r other]
      exact frames.gone r none
  case stored =>
    intro r th there
    rcases eq_or_ne r t with rfl | other
    · rw [threads, Function.update_self] at there
      rw [Function.update_self]
      exact stored th there
    · rw [threads, Function.update_of_ne other] at there
      rw [Function.update_of_ne other]
      exact (frames.stored r th there).congr (tasks r other) (keeps r other)
  case live =>
    intro h
    have strand (away : h ∉ chain t) : h ∈ stranded' ↔ h ∈ stranded := by
      rw [kept h]
      exact or_iff_left fun lost => away lost.2.1
    by_cases mem : h ∈ hs
    · have used : (c'.frame h).isSome := by
        cases o with
        | none =>
          rw [(removed rfl).2] at mem
          cases mem
        | some th => exact (stored th rfl).chain.used mem
      refine iff_of_true used (.inl ⟨t, ?_⟩)
      rw [Function.update_self]
      exact mem
    · by_cases old : h ∈ chain t
      · rw [left h old mem]
        refine ⟨.inr, fun owned => ?_⟩
        rcases owned with ⟨r, owned⟩ | lost
        · rcases eq_or_ne r t with rfl | other
          · rw [Function.update_self] at owned
            exact absurd owned mem
          · rw [Function.update_of_ne other] at owned
            exact absurd (frames.apart r t h owned old) other
        · exact lost
      · rw [elsewhere h old mem, frames.live h, strand old]
        refine or_congr_left (exists_congr fun r => ?_)
        rcases eq_or_ne r t with rfl | other
        · rw [Function.update_self]
          exact iff_of_false old mem
        · rw [Function.update_of_ne other]
  case apart =>
    have alone (r h : Nat) (other : r ≠ t) (mem : h ∈ hs) (owned : h ∈ chain r) : False := by
      rcases new h mem with old | unused
      · exact other (frames.apart r t h owned old)
      · exact frames.used owned unused
    intro r r' h mem mem'
    rcases eq_or_ne r t with rfl | other
    · rw [Function.update_self] at mem
      rcases eq_or_ne r' r with rfl | other'
      · rfl
      · rw [Function.update_of_ne other'] at mem'
        exact (alone r' h other' mem mem').elim
    · rw [Function.update_of_ne other] at mem
      rcases eq_or_ne r' t with rfl | other'
      · rw [Function.update_self] at mem'
        exact (alone r h other mem' mem).elim
      · rw [Function.update_of_ne other'] at mem'
        exact frames.apart r r' h mem mem'
  case beside =>
    intro r h mem lost
    have lost := (kept h).mp lost
    rcases eq_or_ne r t with rfl | other
    · rw [Function.update_self] at mem
      rcases lost with lost | ⟨-, -, away⟩
      · rcases new h mem with old | unused
        · exact frames.beside r h old lost
        · have used := (frames.live h).mpr (.inr lost)
          rw [unused] at used
          cases used
      · exact away mem
    · rw [Function.update_of_ne other] at mem
      rcases lost with lost | ⟨-, old, -⟩
      · exact frames.beside r h mem lost
      · exact other (frames.apart r t h mem old)
  case running =>
    intro v
    cases at_v : s'.running v with
    | none => exact idle v at_v
    | some r =>
      rcases eq_or_ne r t with rfl | other
      · obtain ⟨th, same⟩ := Option.isSome_iff_exists.mp (runs v at_v)
        rw [here v th same at_v, Option.bind_some, threads, Function.update_self,
          Function.update_self, same, Option.bind_some]
      · obtain ⟨before, stays⟩ := others v r other at_v
        rw [stays, frames.running v, before, Option.bind_some, Option.bind_some, threads,
          Function.update_of_ne other, Function.update_of_ne other]
  case lost => exact lost

/-- The thread of a worker goes on in the frames `hs`. -/
theorem Frames.goes [DecidableEq ω] (frames : Frames c s chain stranded) (inv : Calls.Inv s) {w : ω}
    {th : Thread Tag σ ε ν} (at_w : s.running w = some t)
    (threads : s'.thread = Function.update s.thread t (some th)) (running : s'.running = s.running)
    (dropped : s'.dropped = s.dropped) (tasks : ∀ r, r ≠ t → c'.task r = c.task r)
    (elsewhere : ∀ h, h ∉ chain t → h ∉ hs → c'.frame h = c.frame h)
    (new : ∀ h ∈ hs, h ∈ chain t ∨ c.frame h = none) (stored : Stored c' t th hs)
    (left : ∀ h ∈ chain t, h ∉ hs → c'.frame h = none)
    (runs : c'.running = Function.update c.running w (active th.control hs)) :
    Frames c' s' (Function.update chain t hs) stranded := by
  have apart (v : ω) (r : Nat) (other : r ≠ t) (at_v : s.running v = some r) : v ≠ w := by
    rintro rfl
    exact other (Option.some.inj (at_v.symm.trans at_w))
  refine frames.change (some th) threads tasks elsewhere new ?_ (by simp) ?_ ?_ ?_ ?_ ?_ ?_
    (fun _ _ => rfl)
  · rintro _ ⟨⟩
    exact stored
  · intro h mem away
    rw [left h mem away]
    exact iff_of_false Bool.false_ne_true (frames.beside t h mem)
  · exact fun h => ⟨.inl, fun kept => kept.elim id And.left⟩
  · rw [dropped]
    exact frames.lost
  · intro v none
    rw [running] at none
    have other : v ≠ w := by
      rintro rfl
      rw [at_w] at none
      cases none
    rw [runs, Function.update_of_ne other, frames.running v, none]
    rfl
  · intro v r other at_v
    rw [running] at at_v
    exact ⟨at_v, by rw [runs, Function.update_of_ne (apart v r other at_v)]⟩
  · rintro v _ ⟨⟩ at_v
    rw [running] at at_v
    obtain rfl := inv.single v w t at_v at_w
    rw [runs, Function.update_self]

/-- The thread of a worker leaves it, and maybe ends. -/
theorem Frames.leaves [DecidableEq ω] (frames : Frames c s chain stranded) (inv : Calls.Inv s)
    {w : ω} (o : Option (Thread Tag σ ε ν)) (at_w : s.running w = some t)
    (threads : s'.thread = Function.update s.thread t o)
    (running : s'.running = Function.update s.running w none)
    (dropped : s'.dropped = s.dropped) (tasks : ∀ r, r ≠ t → c'.task r = c.task r)
    (elsewhere : ∀ h, h ∉ chain t → h ∉ hs → c'.frame h = c.frame h)
    (new : ∀ h ∈ hs, h ∈ chain t) (stored : ∀ th, o = some th → Stored c' t th hs)
    (removed : o = none → c'.task t = none ∧ hs = [])
    (left : ∀ h ∈ chain t, h ∉ hs → c'.frame h = none)
    (runs : c'.running = Function.update c.running w none) :
    Frames c' s' (Function.update chain t hs) stranded := by
  have free (v : ω) (r : Nat) (at_v : s'.running v = some r) :
      r ≠ t ∧ v ≠ w ∧ s.running v = some r := by
    rw [running] at at_v
    have other : v ≠ w := by
      rintro rfl
      rw [Function.update_self] at at_v
      cases at_v
    rw [Function.update_of_ne other] at at_v
    refine ⟨?_, other, at_v⟩
    rintro rfl
    exact other (inv.single v w r at_v at_w)
  refine frames.change o threads tasks elsewhere (fun h mem => .inl (new h mem)) stored removed ?_ ?_
    ?_ ?_ ?_ ?_ ?_
  · intro h mem away
    rw [left h mem away]
    exact iff_of_false Bool.false_ne_true (frames.beside t h mem)
  · exact fun h => ⟨.inl, fun kept => kept.elim id And.left⟩
  · rw [dropped]
    exact frames.lost
  · intro v none
    rcases eq_or_ne v w with rfl | other
    · rw [runs, Function.update_self]
    · rw [running, Function.update_of_ne other] at none
      rw [runs, Function.update_of_ne other, frames.running v, none]
      rfl
  · intro v r _ at_v
    obtain ⟨-, other, before⟩ := free v r at_v
    exact ⟨before, by rw [runs, Function.update_of_ne other]⟩
  · intro v _ _ at_v
    exact absurd rfl (free v t at_v).1
  · intro v at_v
    exact absurd rfl (free v t at_v).1

end Moves

end JLibSched.Coroutine
