import JLibSched.Ref.Model
import Mathlib.Tactic

/-!
# An object lives as long as its references

The count of a live object is the number of its references, and it is retired when that comes to
zero.  An `Acquire` that has loaded the object has had a guard open since before that, so the object
waits for it.
-/

namespace JLibSched.Ref

open Transition

variable {n m : Nat} {kind : Fin m → Kind} {s t : State n m} {i : Fin n} {p : Nat}

/-! ## The invariant -/

/-- The thread may read the count of the object. -/
structure Safe (s : State n m) (i : Fin n) (p : Nat) : Prop where
  alive : s.alive p = true
  guarded : 0 < s.guards i
  waits : s.references p = 0 → s.protects p i = true

/-- What is known at each place of a thread. -/
def Fits (s : State n m) (i : Fin n) : Pc m → Prop
  | .increment o p => s.value o = some p
  | .load _ | .recheck _ _ => 0 < s.guards i
  | .loadRefs _ p => Safe s i p
  | .exchange _ p c => Safe s i p ∧ c ≠ 0
  | .idle | .decrement _ | .retire _ => True

/-- The count of an object agrees with its references, and so do the times it was retired. -/
structure Counted (s : State n m) (p : Nat) : Prop where
  dead : s.alive p = false → s.references p = 0 ∧ s.retiring p = 0
  count : s.alive p = true → s.refs p = UInt32.ofNat (s.references p)
  bounded : s.references p < 2 ^ 32
  once : s.alive p = true → s.retired p + s.retiring p = if s.references p = 0 then 1 else 0

structure Inv (s : State n m) : Prop where
  counted : ∀ p, Counted s p
  fits : ∀ i, Fits s i (s.pc i)

theorem named_none : named p none = 0 := rfl

theorem named_other {q : Nat} (apart : q ≠ p) : named q (some p) = 0 :=
  if_neg fun same => apart (Option.some.inj same).symm

theorem drops_other {q : Nat} (apart : q ≠ p) : (Pc.decrement p : Pc m).drops q = 0 :=
  if_neg apart.symm

theorem retires_other {q : Nat} (apart : q ≠ p) : (Pc.retire p : Pc m).retires q = 0 :=
  if_neg apart.symm

theorem named_self : named p (some p) = 1 := if_pos rfl

theorem drops_self : (Pc.decrement p : Pc m).drops p = 1 := if_pos rfl

theorem retires_self : (Pc.retire p : Pc m).retires p = 1 := if_pos rfl

/-- What `Reset` takes out of a `Ref` it has in hand. -/
theorem drops_decrement {q : Nat} : (Pc.decrement p : Pc m).drops q = named q (some p) := by
  rcases eq_or_ne q p with rfl | apart
  · rw [named_self, drops_self]
  · rw [named_other apart, drops_other apart]

theorem named_pos {v : Fin m} (here : s.value v = some p) : 0 < s.references p := by
  have one := le_sum (named p) s.value v
  rw [here, named_self] at one
  unfold State.references
  omega

theorem drops_pos (here : s.pc i = .decrement p) : 0 < s.references p := by
  have one := le_sum (Pc.drops p) s.pc i
  rw [here, drops_self] at one
  unfold State.references
  omega

theorem retires_pos (here : s.pc i = .retire p) : 0 < s.retiring p := by
  have one := le_sum (Pc.retires p) s.pc i
  rw [here, retires_self] at one
  exact one

theorem Counted.alive (counted : Counted s p) (held : 0 < s.references p) :
    s.alive p = true := by
  by_contra dead
  have none := (counted.dead (Bool.eq_false_of_not_eq_true dead)).1
  omega

theorem Counted.refs_toNat (counted : Counted s p) (alive : s.alive p = true) :
    (s.refs p).toNat = s.references p := by
  rw [counted.count alive]
  exact UInt32.toNat_ofNat_of_lt' counted.bounded

theorem Counted.refs_eq_zero (counted : Counted s p) (alive : s.alive p = true) :
    s.refs p = 0 ↔ s.references p = 0 := by
  rw [← counted.refs_toNat alive, ← UInt32.toNat_inj]
  rfl

theorem Fits.found {src : Fin m} {c : UInt32} (safe : Safe s i p) :
    Fits s i (Pc.found src p c) := by
  unfold Pc.found
  split
  · exact safe.guarded
  · rename_i some
    exact ⟨safe, some⟩

/-- What is known at a place stays known. -/
theorem Fits.mono {pc : Pc m} (fits : Fits s i pc)
    (value : ∀ o p, pc = .increment o p → s.value o = some p → t.value o = some p)
    (guards : pc ≠ .idle → 0 < s.guards i → 0 < t.guards i)
    (safe : ∀ p, Safe s i p → Safe t i p) : Fits t i pc := by
  cases pc with
  | idle | decrement p | retire p => trivial
  | increment o p => exact value o p rfl fits
  | load src | recheck src p => exact guards (by simp) fits
  | loadRefs src p => exact safe p fits
  | exchange src p c => exact ⟨safe p fits.1, fits.2⟩

/-! ## What a step can do -/

/-- A place at which the thread has no reference in hand and is not about to retire. -/
def Pc.plain : Pc m → Bool
  | .decrement _ | .retire _ => false
  | _ => true

theorem Pc.drops_plain {pc : Pc m} (plain : pc.plain = true) : pc.drops p = 0 := by
  cases pc with
  | decrement q => cases plain
  | _ => rfl

theorem Pc.retires_plain {pc : Pc m} (plain : pc.plain = true) : pc.retires p = 0 := by
  cases pc with
  | retire q => cases plain
  | _ => rfl

inductive Move (s : State n m) : State n m → Prop where
  | same : Move s s
  | make {r : Fin m} {p : Nat} (empty : s.value r = none) (dead : s.alive p = false) :
      Move s { s with
        alive := Function.update s.alive p true
        refs := Function.update s.refs p 1
        retired := Function.update s.retired p 0
        protects := Function.update s.protects p fun _ => false
        value := Function.update s.value r (some p) }
  | exchange {v w : Fin m} (one : s.free v) (two : s.free w) : Move s (s.exchange v w)
  | take {i : Fin n} {r : Fin m} {p : Nat} (plain : (s.pc i).plain = true)
      (empty : s.value r = none) (positive : s.refs p ≠ 0) (alive : s.alive p = true)
      (fewer : s.references p + 1 < 2 ^ 32) :
      Move s { s with
        refs := Function.update s.refs p (s.refs p + 1)
        value := Function.update s.value r (some p)
        pc := Function.update s.pc i .idle }
  | reset {i : Fin n} {r : Fin m} {p : Nat} (idle : s.pc i = .idle) (here : s.value r = some p)
      (free : s.free r) :
      Move s { s with
        value := Function.update s.value r none
        pc := Function.update s.pc i (.decrement p) }
  | decrement {i : Fin n} {p : Nat} (here : s.pc i = .decrement p) : Move s (s.decrement i p)
  | retire {i : Fin n} {p : Nat} (here : s.pc i = .retire p) :
      Move s { s with
        retired := Function.update s.retired p (s.retired p + 1)
        pc := Function.update s.pc i .idle }
  | goto {i : Fin n} {pc : Pc m} (before : (s.pc i).plain = true) (after : pc.plain = true)
      (fits : Fits s i pc) : Move s (s.goto i pc)
  | openGuard {i : Fin n} :
      Move s { s with guards := Function.update s.guards i (s.guards i + 1) }
  | closeGuard {i : Fin n} (idle : s.pc i = .idle) {protects : Nat → Fin n → Bool}
      (others : ∀ p j, j ≠ i → protects p j = s.protects p j) :
      Move s { s with
        guards := Function.update s.guards i (s.guards i - 1), protects := protects }
  | delete {p : Nat} (alive : s.alive p = true) (retired : 0 < s.retired p)
      (closed : ∀ i, s.protects p i = false) :
      Move s { s with alive := Function.update s.alive p false }

theorem found_plain {src : Fin m} {c : UInt32} : (Pc.found src p c).plain = true := by
  unfold Pc.found
  split <;> rfl

theorem Move.of_take {r : Fin m} (plain : (s.pc i).plain = true) (positive : s.refs p ≠ 0)
    (alive : s.alive p = true) (fewer : s.references p + 1 < 2 ^ 32)
    (taken : s.take kind i r p = some t) : Move s t := by
  obtain ⟨⟨-, empty⟩, moved⟩ := Option.ite_none_right_eq_some.mp taken
  cases moved
  exact .take plain empty positive alive fewer

theorem Move.of_advance (inv : Inv s) {r : Fin m} {fails : Bool}
    (few : ∀ p ∈ (s.pc i).takes s.refs fails, s.references p + 1 < 2 ^ 32)
    (stepped : advance kind s i r fails = some t) : Move s t := by
  have fits := inv.fits i
  unfold advance at stepped
  cases place : s.pc i with
  | idle => simp [place] at stepped
  | increment o p =>
    simp only [place] at stepped few fits
    have held := named_pos fits
    have alive := (inv.counted p).alive held
    refine .of_take (by rw [place]; rfl) ?_ alive (few p rfl) stepped
    rw [Ne, (inv.counted p).refs_eq_zero alive]
    omega
  | decrement p =>
    simp only [place, Option.some.injEq] at stepped
    exact stepped ▸ .decrement place
  | retire p =>
    simp only [place, Option.some.injEq] at stepped
    exact stepped ▸ .retire place
  | load src =>
    simp only [place] at stepped fits
    cases here : s.value src with
    | none =>
      simp only [here, Option.some.injEq] at stepped
      exact stepped ▸ .goto (by rw [place]; rfl) rfl trivial
    | some p =>
      simp only [here, Option.some.injEq] at stepped
      have held := named_pos here
      exact stepped ▸ .goto (by rw [place]; rfl) rfl
        ⟨(inv.counted p).alive held, fits, fun none => absurd none (by omega)⟩
  | loadRefs src p =>
    simp only [place, Option.some.injEq] at stepped fits
    exact stepped ▸ .goto (by rw [place]; rfl) found_plain (.found fits)
  | exchange src p c =>
    simp only [place] at stepped few fits
    split at stepped
    · rename_i same
      obtain ⟨rfl, works⟩ := same
      refine .of_take (by rw [place]; rfl) fits.2 fits.1.alive (few p ?_) stepped
      simp [Pc.takes, works]
    · cases stepped
      exact .goto (by rw [place]; rfl) found_plain (.found fits.1)
  | recheck src p =>
    simp only [place] at stepped fits
    split at stepped
    · cases stepped
      exact .goto (by rw [place]; rfl) rfl trivial
    · cases stepped
      exact .goto (by rw [place]; rfl) rfl fits

theorem Move.of_step (inv : Inv s) {a : Label n m} (few : fewReferences s a)
    (stepped : step kind s a = some t) : Move s t := by
  cases a with
  | make r p =>
    obtain ⟨⟨-, empty, dead⟩, moved⟩ := Option.ite_none_right_eq_some.mp stepped
    cases moved
    exact .make empty dead
  | copy i o =>
    obtain ⟨⟨idle, -⟩, moved⟩ := Option.ite_none_right_eq_some.mp stepped
    cases here : s.value o with
    | none =>
      simp only [here, Option.some.injEq] at moved
      exact moved ▸ .same
    | some p =>
      simp only [here, Option.some.injEq] at moved
      exact moved ▸ .goto (by rw [idle]; rfl) rfl here
  | move r o | releaseToShared r x | adoptFromShared r x =>
    obtain ⟨⟨-, -, -, one, two⟩, moved⟩ := Option.ite_none_right_eq_some.mp stepped
    cases moved
    exact .exchange one two
  | swap r o | publish src x =>
    obtain ⟨⟨-, -, one, two⟩, moved⟩ := Option.ite_none_right_eq_some.mp stepped
    cases moved
    exact .exchange one two
  | reset i r =>
    obtain ⟨⟨idle, -, free⟩, moved⟩ := Option.ite_none_right_eq_some.mp stepped
    cases here : s.value r with
    | none =>
      simp only [here, Option.some.injEq] at moved
      exact moved ▸ .same
    | some p =>
      simp only [here, Option.some.injEq] at moved
      exact moved ▸ .reset idle here free
  | openGuard i =>
    obtain ⟨-, moved⟩ := Option.ite_none_right_eq_some.mp stepped
    cases moved
    exact .openGuard
  | closeGuard i =>
    obtain ⟨⟨idle, -⟩, moved⟩ := Option.ite_none_right_eq_some.mp stepped
    cases moved
    refine .closeGuard idle fun p j other => ?_
    split
    · exact Function.update_of_ne other _ _
    · rfl
  | acquire i src =>
    obtain ⟨⟨idle, -, guarded⟩, moved⟩ := Option.ite_none_right_eq_some.mp stepped
    cases moved
    exact .goto (by rw [idle]; rfl) rfl guarded
  | step i r fails => exact .of_advance inv few stepped
  | delete p =>
    obtain ⟨⟨alive, retired, closed⟩, moved⟩ := Option.ite_none_right_eq_some.mp stepped
    cases moved
    exact .delete alive retired closed

/-! ## How the references change -/

theorem references_value {r : Fin m} {x : Option Nat} (value : t.value = Function.update s.value r x)
    (pc : t.pc = s.pc) (q : Nat) :
    t.references q + named q (s.value r) = s.references q + named q x := by
  have moved := sum_update (named q) s.value r x
  unfold State.references
  rw [value, pc]
  omega

theorem references_pc {place : Pc m} (value : t.value = s.value)
    (pc : t.pc = Function.update s.pc i place) (q : Nat) :
    t.references q + (s.pc i).drops q = s.references q + place.drops q := by
  have moved := sum_update (Pc.drops q) s.pc i place
  unfold State.references
  rw [value, pc]
  omega

theorem references_both {r : Fin m} {x : Option Nat} {place : Pc m}
    (value : t.value = Function.update s.value r x) (pc : t.pc = Function.update s.pc i place)
    (q : Nat) :
    t.references q + named q (s.value r) + (s.pc i).drops q =
      s.references q + named q x + place.drops q := by
  have first := sum_update (named q) s.value r x
  have second := sum_update (Pc.drops q) s.pc i place
  unfold State.references
  rw [value, pc]
  omega

theorem references_exchange (v w : Fin m) (q : Nat) :
    (s.exchange v w).references q = s.references q := by
  have first := sum_update (named q) s.value v (s.value w)
  have second := sum_update (named q) (Function.update s.value v (s.value w)) w (s.value v)
  have between : Function.update s.value v (s.value w) w = s.value w := by
    rcases eq_or_ne w v with rfl | other
    · rw [Function.update_self]
    · rw [Function.update_of_ne other]
  rw [between] at second
  unfold State.references State.exchange
  dsimp only
  omega

theorem retiring_pc {place : Pc m} (pc : t.pc = Function.update s.pc i place) (q : Nat) :
    t.retiring q + (s.pc i).retires q = s.retiring q + place.retires q := by
  unfold State.retiring
  rw [pc]
  exact sum_update (Pc.retires q) s.pc i place

/-! ## The invariant is kept -/

/-- Nothing about the object changes. -/
theorem Counted.same {q : Nat} (counted : Counted s q) (alive : t.alive q = s.alive q)
    (refs : t.refs q = s.refs q) (retired : t.retired q = s.retired q)
    (references : t.references q = s.references q) (retiring : t.retiring q = s.retiring q) :
    Counted t q where
  dead := by
    rw [alive, references, retiring]
    exact counted.dead
  count := by
    rw [alive, refs, references]
    exact counted.count
  bounded := by
    rw [references]
    exact counted.bounded
  once := by
    rw [alive, retired, references, retiring]
    exact counted.once

/-- The places of all threads, when one thread goes on. -/
theorem fits_update {place : Pc m} (pc : t.pc = Function.update s.pc i place)
    (own : Fits t i place) (others : ∀ j, j ≠ i → Fits t j (s.pc j)) (j : Fin n) :
    Fits t j (t.pc j) := by
  rw [pc]
  rcases eq_or_ne j i with rfl | other
  · rw [Function.update_self]
    exact own
  · rw [Function.update_of_ne other]
    exact others j other

theorem Safe.mono {j : Fin n} {q : Nat} (safe : Safe s j q) (alive : t.alive q = true)
    (guards : t.guards j = s.guards j) (references : t.references q = 0 → s.references q = 0)
    (protects : s.protects q j = true → t.protects q j = true) : Safe t j q where
  alive := alive
  guarded := guards ▸ safe.guarded
  waits none := protects (safe.waits (references none))

theorem State.free.ne {v o : Fin m} {j : Fin n} {q : Nat} (free : s.free v)
    (reading : s.pc j = .increment o q) : o ≠ v := by
  have unread := free j
  rw [reading] at unread
  exact of_decide_eq_false unread

theorem Inv.make (inv : Inv s) {r : Fin m} (empty : s.value r = none) (dead : s.alive p = false)
    (alive : t.alive = Function.update s.alive p true) (refs : t.refs = Function.update s.refs p 1)
    (retired : t.retired = Function.update s.retired p 0)
    (protects : t.protects = Function.update s.protects p fun _ => false)
    (value : t.value = Function.update s.value r (some p)) (pc : t.pc = s.pc)
    (guards : t.guards = s.guards) : Inv t := by
  have moved (q : Nat) := references_value value pc q
  simp only [empty, named_none, Nat.add_zero] at moved
  have retiring (q : Nat) : t.retiring q = s.retiring q := by
    unfold State.retiring
    rw [pc]
  have other (q : Nat) (apart : q ≠ p) : t.references q = s.references q := by
    rw [moved, named_other apart, Nat.add_zero]
  refine ⟨fun q => ?_, fun j => ?_⟩
  · rcases eq_or_ne q p with rfl | apart
    · obtain ⟨unheld, calm⟩ := (inv.counted q).dead dead
      have one : t.references q = 1 := by rw [moved, unheld, named_self]
      have living : t.alive q = true := by rw [alive, Function.update_self]
      refine ⟨fun absurd => ?_, fun _ => ?_, ?_, fun _ => ?_⟩
      · rw [living] at absurd
        cases absurd
      · rw [one, refs, Function.update_self]
        rfl
      · rw [one]
        decide
      · rw [one, retired, Function.update_self, retiring, calm]
        rfl
    · exact (inv.counted q).same (by rw [alive, Function.update_of_ne apart])
        (by rw [refs, Function.update_of_ne apart]) (by rw [retired, Function.update_of_ne apart])
        (other q apart) (retiring q)
  · rw [pc]
    refine (inv.fits j).mono (fun o q reading here => ?_) (fun _ guarded => guards ▸ guarded)
      fun q safe => ?_
    · rw [value]
      rcases eq_or_ne o r with rfl | apart
      · rw [empty] at here
        cases here
      · rw [Function.update_of_ne apart]
        exact here
    · have apart : q ≠ p := by
        rintro rfl
        have living := safe.alive
        rw [dead] at living
        cases living
      refine safe.mono ?_ (by rw [guards]) (fun none => ?_) fun waits => ?_
      · rw [alive, Function.update_of_ne apart]
        exact safe.alive
      · rw [← other q apart]
        exact none
      · rw [protects, Function.update_of_ne apart]
        exact waits

theorem Inv.exchange (inv : Inv s) {v w : Fin m} (one : s.free v) (two : s.free w) :
    Inv (s.exchange v w) where
  counted q := (inv.counted q).same rfl rfl rfl (references_exchange v w q) rfl
  fits j := by
    refine (inv.fits j).mono (fun o q reading here => ?_) (fun _ guarded => guarded) fun q safe =>
      safe.mono safe.alive rfl (fun none => ?_) id
    · unfold State.exchange
      simp only
      rw [Function.update_of_ne (two.ne reading), Function.update_of_ne (one.ne reading)]
      exact here
    · rw [← references_exchange v w q]
      exact none

theorem Inv.take (inv : Inv s) {r : Fin m} (plain : (s.pc i).plain = true)
    (empty : s.value r = none) (positive : s.refs p ≠ 0) (living : s.alive p = true)
    (fewer : s.references p + 1 < 2 ^ 32) (refs : t.refs = Function.update s.refs p (s.refs p + 1))
    (value : t.value = Function.update s.value r (some p))
    (pc : t.pc = Function.update s.pc i .idle) (alive : t.alive = s.alive)
    (retired : t.retired = s.retired) (protects : t.protects = s.protects)
    (guards : t.guards = s.guards) : Inv t := by
  have moved (q : Nat) : t.references q = s.references q + named q (some p) := by
    have both := references_both value pc q
    rw [empty, named_none, Pc.drops_plain plain, Pc.drops_plain rfl] at both
    exact both
  have retiring (q : Nat) : t.retiring q = s.retiring q := by
    have both := retiring_pc pc q
    rw [Pc.retires_plain plain, Pc.retires_plain rfl] at both
    exact both
  have counted := inv.counted p
  have held : s.references p ≠ 0 := fun none => positive ((counted.refs_eq_zero living).mpr none)
  refine ⟨fun q => ?_, fits_update pc trivial fun j _ => ?_⟩
  · rcases eq_or_ne q p with rfl | apart
    · have more : t.references q = s.references q + 1 := by rw [moved, named_self]
      refine ⟨fun dead => ?_, fun _ => ?_, ?_, fun _ => ?_⟩
      · rw [alive, living] at dead
        cases dead
      · rw [refs, Function.update_self, counted.count living, more, UInt32.ofNat_add]
        rfl
      · rw [more]
        exact fewer
      · rw [retired, retiring, counted.once living, if_neg held, if_neg (by omega)]
    · exact (inv.counted q).same (by rw [alive]) (by rw [refs, Function.update_of_ne apart])
        (by rw [retired]) (by rw [moved, named_other apart, Nat.add_zero]) (retiring q)
  · refine (inv.fits j).mono (fun o q reading here => ?_) (fun _ guarded => guards ▸ guarded)
      fun q safe => safe.mono (alive ▸ safe.alive) (by rw [guards]) (fun none => ?_) fun waits => ?_
    · rw [value]
      rcases eq_or_ne o r with rfl | apart
      · rw [empty] at here
        cases here
      · rw [Function.update_of_ne apart]
        exact here
    · have moved := moved q
      omega
    · rw [protects]
      exact waits

theorem Inv.reset (inv : Inv s) {r : Fin m} (idle : s.pc i = .idle) (here : s.value r = some p)
    (free : s.free r) (value : t.value = Function.update s.value r none)
    (pc : t.pc = Function.update s.pc i (.decrement p)) (alive : t.alive = s.alive)
    (refs : t.refs = s.refs) (retired : t.retired = s.retired) (protects : t.protects = s.protects)
    (guards : t.guards = s.guards) : Inv t := by
  have references (q : Nat) : t.references q = s.references q := by
    have both := references_both value pc q
    rw [here, idle, named_none, drops_decrement, Pc.drops_plain rfl] at both
    omega
  have retiring (q : Nat) : t.retiring q = s.retiring q := by
    have both := retiring_pc pc q
    rw [idle] at both
    exact both
  refine ⟨fun q => (inv.counted q).same (by rw [alive]) (by rw [refs]) (by rw [retired])
    (references q) (retiring q), fits_update pc trivial fun j _ => ?_⟩
  refine (inv.fits j).mono (fun o q reading here => ?_) (fun _ guarded => guards ▸ guarded)
    fun q safe => safe.mono (alive ▸ safe.alive) (by rw [guards]) (fun none => ?_) fun waits => ?_
  · rw [value, Function.update_of_ne (free.ne reading)]
    exact here
  · rw [← references q]
    exact none
  · rw [protects]
    exact waits

/-- The last reference goes, and the object waits for the guards that are open. -/
theorem Inv.last (inv : Inv s) (here : s.pc i = .decrement p) (last : s.refs p = 1)
    (refs : t.refs = Function.update s.refs p (s.refs p - 1))
    (protects : t.protects = Function.update s.protects p fun j => decide (0 < s.guards j))
    (pc : t.pc = Function.update s.pc i (.retire p)) (value : t.value = s.value)
    (alive : t.alive = s.alive) (retired : t.retired = s.retired) (guards : t.guards = s.guards) :
    Inv t := by
  have moved (q : Nat) : t.references q + named q (some p) = s.references q := by
    have both := references_pc value pc q
    rw [here, drops_decrement] at both
    exact both
  have retiring (q : Nat) : t.retiring q = s.retiring q + (Pc.retire p : Pc m).retires q := by
    have both := retiring_pc pc q
    rw [here] at both
    exact both
  have counted := inv.counted p
  have living := counted.alive (drops_pos here)
  have only : s.references p = 1 := by
    rw [← counted.refs_toNat living, last]
    rfl
  have gone : t.references p = 0 := by
    have moved := moved p
    rw [named_self] at moved
    omega
  refine ⟨fun q => ?_, fits_update pc trivial fun j _ => ?_⟩
  · rcases eq_or_ne q p with rfl | apart
    · refine ⟨fun dead => ?_, fun _ => ?_, ?_, fun _ => ?_⟩
      · rw [alive, living] at dead
        cases dead
      · rw [refs, Function.update_self, last, gone]
        rfl
      · rw [gone]
        decide
      · have once := counted.once living
        rw [only, if_neg (by decide)] at once
        rw [retired, retiring, retires_self, gone, if_pos rfl]
        omega
    · refine (inv.counted q).same (by rw [alive]) (by rw [refs, Function.update_of_ne apart])
        (by rw [retired]) ?_ (by rw [retiring, retires_other apart, Nat.add_zero])
      rw [← moved q, named_other apart, Nat.add_zero]
  · refine (inv.fits j).mono (fun o q _ here => value ▸ here) (fun _ guarded => guards ▸ guarded)
      fun q safe => ?_
    rcases eq_or_ne q p with rfl | apart
    · refine ⟨alive ▸ safe.alive, guards ▸ safe.guarded, fun _ => ?_⟩
      rw [protects, Function.update_self]
      exact decide_eq_true safe.guarded
    · refine safe.mono (alive ▸ safe.alive) (by rw [guards]) (fun none => ?_) fun waits => ?_
      · rw [← moved q, none, named_other apart]
      · rw [protects, Function.update_of_ne apart]
        exact waits

/-- A reference goes that is not the last. -/
theorem Inv.drop (inv : Inv s) (here : s.pc i = .decrement p) (more : s.refs p ≠ 1)
    (refs : t.refs = Function.update s.refs p (s.refs p - 1))
    (pc : t.pc = Function.update s.pc i .idle) (value : t.value = s.value)
    (alive : t.alive = s.alive) (retired : t.retired = s.retired)
    (protects : t.protects = s.protects) (guards : t.guards = s.guards) : Inv t := by
  have moved (q : Nat) : t.references q + named q (some p) = s.references q := by
    have both := references_pc value pc q
    rw [here, drops_decrement] at both
    exact both
  have retiring (q : Nat) : t.retiring q = s.retiring q := by
    have both := retiring_pc pc q
    rw [here] at both
    exact both
  have counted := inv.counted p
  have held := drops_pos here
  have living := counted.alive held
  have several : s.references p ≠ 1 := by
    intro only
    rw [counted.count living, only] at more
    exact more rfl
  have fewer : t.references p + 1 = s.references p := by
    have moved := moved p
    rw [named_self] at moved
    exact moved
  refine ⟨fun q => ?_, fits_update pc trivial fun j _ => ?_⟩
  · rcases eq_or_ne q p with rfl | apart
    · refine ⟨fun dead => ?_, fun _ => ?_, ?_, fun _ => ?_⟩
      · rw [alive, living] at dead
        cases dead
      · rw [refs, Function.update_self, counted.count living, ← fewer, UInt32.ofNat_add]
        exact UInt32.add_sub_cancel _ _
      · have bounded := counted.bounded
        omega
      · rw [retired, retiring, counted.once living, if_neg (by omega), if_neg (by omega)]
    · refine (inv.counted q).same (by rw [alive]) (by rw [refs, Function.update_of_ne apart])
        (by rw [retired]) ?_ (retiring q)
      rw [← moved q, named_other apart, Nat.add_zero]
  · refine (inv.fits j).mono (fun o q _ here => value ▸ here) (fun _ guarded => guards ▸ guarded)
      fun q safe => safe.mono (alive ▸ safe.alive) (by rw [guards]) (fun none => ?_)
        fun waits => protects ▸ waits
    rcases eq_or_ne q p with rfl | apart
    · omega
    · rw [← moved q, none, named_other apart]

theorem Inv.retire (inv : Inv s) (here : s.pc i = .retire p)
    (retired : t.retired = Function.update s.retired p (s.retired p + 1))
    (pc : t.pc = Function.update s.pc i .idle) (value : t.value = s.value)
    (alive : t.alive = s.alive) (refs : t.refs = s.refs) (protects : t.protects = s.protects)
    (guards : t.guards = s.guards) : Inv t := by
  have references (q : Nat) : t.references q = s.references q := by
    have both := references_pc value pc q
    rw [here] at both
    exact both
  have moved (q : Nat) : t.retiring q + (Pc.retire p : Pc m).retires q = s.retiring q := by
    have both := retiring_pc pc q
    rw [here] at both
    exact both
  have counted := inv.counted p
  have waiting := retires_pos here
  refine ⟨fun q => ?_, fits_update pc trivial fun j _ => ?_⟩
  · rcases eq_or_ne q p with rfl | apart
    · have moved := moved q
      rw [retires_self] at moved
      refine ⟨fun dead => ?_, fun living => ?_, ?_, fun living => ?_⟩
      · rw [alive] at dead
        have none := (counted.dead dead).2
        omega
      · rw [alive] at living
        rw [refs, references]
        exact counted.count living
      · rw [references]
        exact counted.bounded
      · rw [alive] at living
        rw [references, ← counted.once living, retired, Function.update_self]
        omega
    · refine (inv.counted q).same (by rw [alive]) (by rw [refs])
        (by rw [retired, Function.update_of_ne apart]) (references q) ?_
      rw [← moved q, retires_other apart, Nat.add_zero]
  · exact (inv.fits j).mono (fun o q _ here => value ▸ here) (fun _ guarded => guards ▸ guarded)
      fun q safe => safe.mono (alive ▸ safe.alive) (by rw [guards])
        (fun none => references q ▸ none) fun waits => protects ▸ waits

theorem Inv.goto (inv : Inv s) {place : Pc m} (before : (s.pc i).plain = true)
    (after : place.plain = true) (fits : Fits s i place) : Inv (s.goto i place) := by
  have references (q : Nat) : (s.goto i place).references q = s.references q := by
    have both := references_pc (s := s) (t := s.goto i place) rfl rfl q
    rw [Pc.drops_plain before, Pc.drops_plain after] at both
    exact both
  have retiring (q : Nat) : (s.goto i place).retiring q = s.retiring q := by
    have both := retiring_pc (s := s) (t := s.goto i place) rfl q
    rw [Pc.retires_plain before, Pc.retires_plain after] at both
    exact both
  have kept {j : Fin n} {pc : Pc m} (fits : Fits s j pc) : Fits (s.goto i place) j pc :=
    fits.mono (fun _ _ _ here => here) (fun _ guarded => guarded) fun q safe =>
      safe.mono safe.alive rfl (fun none => references q ▸ none) id
  exact ⟨fun q => (inv.counted q).same rfl rfl rfl (references q) (retiring q),
    fits_update rfl (kept fits) fun j _ => kept (inv.fits j)⟩

theorem Inv.openGuard (inv : Inv s) :
    Inv { s with guards := Function.update s.guards i (s.guards i + 1) } := by
  have more (j : Fin n) (guarded : 0 < s.guards j) :
      0 < Function.update s.guards i (s.guards i + 1) j := by
    rcases eq_or_ne j i with rfl | apart
    · rw [Function.update_self]
      omega
    · rw [Function.update_of_ne apart]
      exact guarded
  exact ⟨fun q => (inv.counted q).same rfl rfl rfl rfl rfl, fun j =>
    (inv.fits j).mono (fun _ _ _ here => here) (fun _ => more j) fun q safe =>
      ⟨safe.alive, more j safe.guarded, safe.waits⟩⟩

theorem Inv.closeGuard (inv : Inv s) (idle : s.pc i = .idle) {protects : Nat → Fin n → Bool}
    (others : ∀ p j, j ≠ i → protects p j = s.protects p j) :
    Inv { s with guards := Function.update s.guards i (s.guards i - 1), protects := protects } := by
  refine ⟨fun q => (inv.counted q).same rfl rfl rfl rfl rfl, fun j => ?_⟩
  rcases eq_or_ne j i with rfl | apart
  · simp only [idle]
    trivial
  · have same : Function.update s.guards i (s.guards i - 1) j = s.guards j :=
      Function.update_of_ne apart _ _
    refine (inv.fits j).mono (fun _ _ _ here => here) (fun _ guarded => ?_) fun q safe =>
      safe.mono safe.alive same id fun waits => ?_
    · exact guarded.trans_eq same.symm
    · exact (others q j apart).trans waits

theorem Inv.delete (inv : Inv s) (living : s.alive p = true) (retired : 0 < s.retired p)
    (closed : ∀ i, s.protects p i = false) :
    Inv { s with alive := Function.update s.alive p false } := by
  have once := (inv.counted p).once living
  have gone : s.references p = 0 := by
    by_contra held
    rw [if_neg held] at once
    omega
  rw [if_pos gone] at once
  refine ⟨fun q => ?_, fun j => ?_⟩
  · rcases eq_or_ne q p with rfl | apart
    · refine ⟨fun _ => ⟨gone, ?_⟩, fun alive => ?_, (inv.counted q).bounded, fun alive => ?_⟩
      · change s.retiring q = 0
        omega
      · exact absurd alive (by simp)
      · exact absurd alive (by simp)
    · exact (inv.counted q).same (Function.update_of_ne apart _ _) rfl rfl rfl rfl
  · refine (inv.fits j).mono (fun _ _ _ here => here) (fun _ guarded => guarded) fun q safe => ?_
    have apart : q ≠ p := by
      rintro rfl
      have waits := safe.waits gone
      rw [closed j] at waits
      cases waits
    exact safe.mono ((Function.update_of_ne apart _ _).trans safe.alive) rfl id id

theorem Inv.move (inv : Inv s) (move : Move s t) : Inv t := by
  cases move with
  | same => exact inv
  | make empty dead => exact inv.make empty dead rfl rfl rfl rfl rfl rfl rfl
  | exchange one two => exact inv.exchange one two
  | take plain empty positive alive fewer =>
    exact inv.take plain empty positive alive fewer rfl rfl rfl rfl rfl rfl rfl
  | reset idle here free => exact inv.reset idle here free rfl rfl rfl rfl rfl rfl rfl
  | @decrement i p here =>
    unfold State.decrement
    split
    · rename_i last
      exact inv.last here last rfl rfl rfl rfl rfl rfl rfl
    · rename_i more
      exact inv.drop here more rfl rfl rfl rfl rfl rfl rfl
  | retire here => exact inv.retire here rfl rfl rfl rfl rfl rfl rfl
  | goto before after fits => exact inv.goto before after fits
  | openGuard => exact inv.openGuard
  | closeGuard idle others => exact inv.closeGuard idle others
  | delete alive retired closed => exact inv.delete alive retired closed

theorem inv_initial : Inv (initial : State n m) := by
  have none (p : Nat) : (initial : State n m).references p = 0 := by
    unfold State.references
    simp [initial, named, Pc.drops]
  refine ⟨fun p => ⟨fun _ => ⟨none p, ?_⟩, fun absurd => ?_, ?_, fun absurd => ?_⟩,
    fun i => trivial⟩
  · unfold State.retiring
    simp [initial, Pc.retires]
  · cases absurd
  · rw [none]
    decide
  · cases absurd

theorem Inv.of_reach (reach : Reach (step kind) fewReferences initial s) : Inv s :=
  reach.invariant inv_initial fun inv few stepped => inv.move (.of_step inv few stepped)

/-! ## The lifetime of an object -/

/-- `Acquire` has loaded the object, and `TryIncrement` has not come back. -/
def Pc.acquires (p : Nat) : Pc m → Bool
  | .loadRefs _ q | .exchange _ q _ => q = p
  | _ => false

theorem Fits.alive {pc : Pc m} (fits : Fits s i pc) (acquires : pc.acquires p = true) :
    s.alive p = true := by
  cases pc with
  | loadRefs src q => exact of_decide_eq_true acquires ▸ Safe.alive fits
  | exchange src q c => exact of_decide_eq_true acquires ▸ Safe.alive fits.1
  | idle | increment o q | decrement q | retire q | load src | recheck src q => cases acquires

theorem Move.zero (inv : Inv s) (move : Move s t) (alive : s.alive p = true)
    (zero : s.refs p = 0) : t.refs p = 0 := by
  have unheld := ((inv.counted p).refs_eq_zero alive).mp zero
  have update {q : Nat} (apart : q ≠ p) (c : UInt32) : Function.update s.refs q c p = 0 :=
    (Function.update_of_ne apart.symm _ _).trans zero
  cases move with
  | @make r q empty dead =>
    refine update ?_ 1
    rintro rfl
    rw [alive] at dead
    cases dead
  | @take i r q plain empty positive living fewer =>
    refine update ?_ _
    rintro rfl
    exact positive zero
  | @decrement i q here =>
    have apart : q ≠ p := by
      rintro rfl
      have held := drops_pos here
      omega
    unfold State.decrement
    split
    · exact update apart _
    · exact update apart _
  | same | exchange | reset | retire | goto | openGuard | closeGuard | delete => exact zero

/-- In every run with fewer than `2 ^ 32` references at a time: the count of a live object is the
number of its references, and it was retired, or is about to be, once if the count is zero and not
at all before; no step raises the count from zero; and what a `Ref` holds, a structure owns or an
`Acquire` has loaded and not yet counted is alive. -/
theorem ref_lifetime (reach : Reach (step kind) fewReferences initial s) :
    (∀ p, s.alive p = true →
      (s.refs p).toNat = s.references p ∧
      s.retired p + s.retiring p = if s.refs p = 0 then 1 else 0) ∧
    (∀ a t, fewReferences s a → step kind s a = some t →
      ∀ p, s.alive p = true → s.refs p = 0 → t.refs p = 0) ∧
    (∀ v p, s.value v = some p → s.alive p = true ∧ s.retired p = 0) ∧
    (∀ i p, (s.pc i).acquires p = true → s.alive p = true) ∧
    ∀ p, s.alive p = false → s.references p = 0 ∧ s.retiring p = 0 := by
  have inv := Inv.of_reach reach
  refine ⟨fun p alive => ?_, fun a t few stepped p alive zero => ?_, fun v p here => ?_,
    fun i p acquires => (inv.fits i).alive acquires, fun p => (inv.counted p).dead⟩
  · have counted := inv.counted p
    rw [if_congr (counted.refs_eq_zero alive) rfl rfl]
    exact ⟨counted.refs_toNat alive, counted.once alive⟩
  · exact (Move.of_step inv few stepped).zero inv alive zero
  · have held := named_pos here
    have alive := (inv.counted p).alive held
    have once := (inv.counted p).once alive
    rw [if_neg (by omega)] at once
    exact ⟨alive, by omega⟩

def kinds (v : Fin 3) : Kind := if v = 0 then .ref else if v = 1 then .source else .shared

/-- Thread 1 loads a published object.  Thread 0 takes it out, and lets the last reference go. -/
def dyingLabels : List (Label 2 3) :=
  [.make 0 7, .releaseToShared 0 2, .publish 1 2, .openGuard 1, .acquire 1 1, .step 1 0 false,
    .publish 1 2, .adoptFromShared 0 2, .reset 0 0, .step 0 0 false, .step 0 0 false]

def dyingAt : State 2 3 := (run (step kinds) fewReferences initial dyingLabels).getD initial

/-- The object was retired, and thread 1 has yet to read its count. -/
theorem dyingAt_lifetime :
    dyingAt.alive 7 = true ∧ dyingAt.retired 7 = 1 ∧ dyingAt.pc 1 = .loadRefs 1 7 ∧
    (∀ p, dyingAt.alive p = true →
      (dyingAt.refs p).toNat = dyingAt.references p ∧
      dyingAt.retired p + dyingAt.retiring p = if dyingAt.refs p = 0 then 1 else 0) ∧
    (∀ a t, fewReferences dyingAt a → step kinds dyingAt a = some t →
      ∀ p, dyingAt.alive p = true → dyingAt.refs p = 0 → t.refs p = 0) ∧
    (∀ v p, dyingAt.value v = some p → dyingAt.alive p = true ∧ dyingAt.retired p = 0) ∧
    (∀ i p, (dyingAt.pc i).acquires p = true → dyingAt.alive p = true) ∧
    ∀ p, dyingAt.alive p = false → dyingAt.references p = 0 ∧ dyingAt.retiring p = 0 :=
  ⟨by decide +kernel, by decide +kernel, by decide +kernel,
    ref_lifetime (Reach.of_isSome dyingLabels (by decide +kernel))⟩

end JLibSched.Ref
