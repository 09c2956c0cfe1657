import JLibSched.Lib.Memory
import JLibSched.Lib.Transition

/-!
# Switching between contexts

Each worker runs one context, and the others are suspended: what a context is to find again lies in
a frame on its stack, and its slot has the address of the frame.  A switch saves the registers of
the running context in a frame, stores where, and loads those of another context.

`Port` says what a switch has to do on a processor, for one call.  Whatever the workers run between
the switches, as long as it leaves the frames and the slots of suspended contexts alone, a context
that was suspended by one worker comes back, on any worker, with what it had when it called
(`returns`).
-/

namespace Switching

open Transition Memory

/-- A switch on a processor with registers `ρ`, for contexts that keep a `γ`. -/
structure Port (ρ γ : Type*) where
  /-- The bytes of a frame. -/
  size : Nat
  /-- What the caller of the switch is to find again. -/
  caller : ρ → Mem → γ
  /-- What a context finds when a switch to it has returned. -/
  resumed : ρ → γ
  /-- Where the frame of the caller will be. -/
  room : ρ → BitVec 64
  /-- The call has these slots as its arguments, and the registers are as a call has them. -/
  Calls : ρ → BitVec 64 → BitVec 64 → Prop
  Saved : Mem → BitVec 64 → γ → Prop
  run : ρ → Mem → Option (ρ × Mem)
  saved_congr : ∀ {m m' sp g}, Saved m sp g → Same sp size m m' → Saved m' sp g
  switches : ∀ {r m src dst sp g}, Calls r src dst → read m dst 8 = sp.toNat → Saved m sp g →
    Apart (room r) size src 8 → Apart (room r) size dst 8 → Apart (room r) size sp size →
    Apart src 8 dst 8 → Apart src 8 sp size →
    ∃ r' m', run r m = some (r', m') ∧ resumed r' = g ∧ Saved m' (room r) (caller r m) ∧
      read m' src 8 = (room r).toNat ∧
      ∀ x, ¬ Within (room r) size x → ¬ Within src 8 x → m' x = m x

structure State (κ ω ρ γ : Type*) where
  mem : Mem
  cpu : ω → ρ
  running : ω → κ
  /-- The frame of a suspended context, and what it is to find again; no switch looks at it. -/
  saved : κ → Option (BitVec 64 × γ)

inductive Label (κ ω ρ γ : Type*) where
  /-- A worker runs code of its context. -/
  | compute (w : ω) (cpu : ρ) (mem : Mem)
  /-- A context that does not run gets a first frame. -/
  | prepare (k : κ) (mem : Mem) (sp : BitVec 64) (g : γ)
  /-- The context of a worker calls the switch to another one. -/
  | switch (w : ω) (k : κ)

variable {κ ω ρ γ : Type*}

/-- A suspended context has its frame there. -/
def State.At (s : State κ ω ρ γ) (k : κ) (sp : BitVec 64) (g : γ) : Prop := s.saved k = some (sp, g)

section Steps

variable [DecidableEq κ] [DecidableEq ω]

/-- The worker suspends its context and goes on with another one. -/
def State.turn (s : State κ ω ρ γ) (w : ω) (k : κ) (frame : BitVec 64 × γ) (cpu : ρ) (mem : Mem) :
    State κ ω ρ γ where
  mem := mem
  cpu := Function.update s.cpu w cpu
  running := Function.update s.running w k
  saved := Function.update (Function.update s.saved (s.running w) (some frame)) k none

def step (port : Port ρ γ) (s : State κ ω ρ γ) : Label κ ω ρ γ → Option (State κ ω ρ γ)
  | .compute w cpu mem => some { s with mem := mem, cpu := Function.update s.cpu w cpu }
  | .prepare k mem sp g =>
    some { s with mem := mem, saved := Function.update s.saved k (some (sp, g)) }
  | .switch w k =>
    match s.saved k with
    | none => none
    | some _ =>
      (port.run (s.cpu w) s.mem).map fun (cpu, mem) =>
        s.turn w k (port.room (s.cpu w), port.caller (s.cpu w) s.mem) cpu mem

end Steps

/-- The new frame meets no slot, and no frame of another suspended context. -/
structure Roomy (port : Port ρ γ) (slot : κ → BitVec 64) (s : State κ ω ρ γ) (k : κ)
    (sp : BitVec 64) : Prop where
  slots : ∀ j, Apart sp port.size (slot j) 8
  frames : ∀ j sp' g, j ≠ k → s.At j sp' g → Apart sp port.size sp' port.size

/-- The frame and the slot of a suspended context are left alone. -/
def Leaves (port : Port ρ γ) (slot : κ → BitVec 64) (s : State κ ω ρ γ) (mem : Mem) (k : κ) : Prop :=
  ∀ sp g, s.At k sp g → Same sp port.size s.mem mem ∧ Same (slot k) 8 s.mem mem

/-- What the code around the switches has to do. -/
def polite (port : Port ρ γ) (slot : κ → BitVec 64) (s : State κ ω ρ γ) : Label κ ω ρ γ → Prop
  | .compute _ _ mem => ∀ k, Leaves port slot s mem k
  | .prepare k mem sp g =>
    (∀ w, s.running w ≠ k) ∧ port.Saved mem sp g ∧ read mem (slot k) 8 = sp.toNat ∧
      Roomy port slot s k sp ∧ ∀ j, j ≠ k → Leaves port slot s mem j
  | .switch w k =>
    port.Calls (s.cpu w) (slot (s.running w)) (slot k) ∧
      Roomy port slot s (s.running w) (port.room (s.cpu w))

/-- Nobody is suspended yet, and no context runs twice. -/
structure Starts (s : State κ ω ρ γ) : Prop where
  saved : ∀ k, s.saved k = none
  single : Function.Injective s.running

/-! ## Invariant -/

/-- The frames of the suspended contexts are in memory, where their slots say, and do not meet. -/
structure Inv (port : Port ρ γ) (slot : κ → BitVec 64) (s : State κ ω ρ γ) : Prop where
  slots : ∀ k sp g, s.At k sp g → read s.mem (slot k) 8 = sp.toNat
  frames : ∀ k sp g, s.At k sp g → port.Saved s.mem sp g
  clear : ∀ k sp g, s.At k sp g → ∀ j, Apart sp port.size (slot j) 8
  apart : ∀ j k sp sp' g g', j ≠ k → s.At j sp g → s.At k sp' g' →
    Apart sp port.size sp' port.size
  free : ∀ w, s.saved (s.running w) = none
  single : Function.Injective s.running

theorem Starts.inv {port : Port ρ γ} {slot : κ → BitVec 64} {s : State κ ω ρ γ} (starts : Starts s) :
    Inv port slot s where
  slots k sp g there := by simp [State.At, starts.saved] at there
  frames k sp g there := by simp [State.At, starts.saved] at there
  clear k sp g there := by simp [State.At, starts.saved] at there
  apart j k sp sp' g g' _ there := by simp [State.At, starts.saved] at there
  free w := starts.saved _
  single := starts.single

section Runs

variable {port : Port ρ γ} {slot : κ → BitVec 64} {s t : State κ ω ρ γ} {j k : κ} {w : ω}
  {sp : BitVec 64} {g : γ}

/-- Memory changes, and every suspended context is left alone. -/
theorem Inv.leave (inv : Inv port slot s) (saved : t.saved = s.saved)
    (running : t.running = s.running) (leaves : ∀ k, Leaves port slot s t.mem k) :
    Inv port slot t := by
  have at_iff (k : κ) (sp : BitVec 64) (g : γ) : t.At k sp g ↔ s.At k sp g := by
    rw [State.At, State.At, saved]
  constructor
  case slots =>
    intro k sp g there
    have there := (at_iff k sp g).mp there
    exact (read_congr (leaves k sp g there).2).trans (inv.slots k sp g there)
  case frames =>
    intro k sp g there
    have there := (at_iff k sp g).mp there
    exact port.saved_congr (inv.frames k sp g there) (leaves k sp g there).1
  case clear =>
    intro k sp g there
    exact inv.clear k sp g ((at_iff k sp g).mp there)
  case apart =>
    intro j k sp sp' g g' other there there'
    exact inv.apart j k sp sp' g g' other ((at_iff j sp g).mp there) ((at_iff k sp' g').mp there')
  case free =>
    intro w
    rw [saved, running]
    exact inv.free w
  case single =>
    rw [running]
    exact inv.single

/-- A context gets a frame, and another one may lose its own. -/
theorem Inv.frame (inv : Inv port slot s) (gone : κ) (roomy : Roomy port slot s k sp)
    (saved : ∀ j sp' g', t.At j sp' g' → j = k ∧ sp' = sp ∧ g' = g ∨ j ≠ k ∧ j ≠ gone ∧ s.At j sp' g')
    (frame : port.Saved t.mem sp g) (stored : read t.mem (slot k) 8 = sp.toNat)
    (leaves : ∀ j, j ≠ k → j ≠ gone → Leaves port slot s t.mem j)
    (free : ∀ w, t.saved (t.running w) = none) (single : Function.Injective t.running) :
    Inv port slot t := by
  constructor
  case slots =>
    intro j sp' g' there
    rcases saved j sp' g' there with ⟨rfl, rfl, rfl⟩ | ⟨other, stays, old⟩
    · exact stored
    · exact (read_congr (leaves j other stays sp' g' old).2).trans (inv.slots j sp' g' old)
  case frames =>
    intro j sp' g' there
    rcases saved j sp' g' there with ⟨rfl, rfl, rfl⟩ | ⟨other, stays, old⟩
    · exact frame
    · exact port.saved_congr (inv.frames j sp' g' old) (leaves j other stays sp' g' old).1
  case clear =>
    intro j sp' g' there
    rcases saved j sp' g' there with ⟨rfl, rfl, rfl⟩ | ⟨-, -, old⟩
    · exact roomy.slots
    · exact inv.clear j sp' g' old
  case apart =>
    intro i j sp₁ sp₂ g₁ g₂ differ there there'
    rcases saved i sp₁ g₁ there with ⟨rfl, rfl, rfl⟩ | ⟨other, -, old⟩
    · rcases saved j sp₂ g₂ there' with ⟨rfl, -, -⟩ | ⟨other', -, old'⟩
      · exact absurd rfl differ
      · exact roomy.frames j sp₂ g₂ other' old'
    · rcases saved j sp₂ g₂ there' with ⟨rfl, rfl, rfl⟩ | ⟨-, -, old'⟩
      · exact (roomy.frames i sp₁ g₁ other old).symm
      · exact inv.apart i j sp₁ sp₂ g₁ g₂ differ old old'
  case free => exact free
  case single => exact single

/-- A new frame in the stack of a context that does not run leaves the others alone. -/
theorem Inv.polite_prepare (inv : Inv port slot s)
    (slots : ∀ j k, j ≠ k → Apart (slot j) 8 (slot k) 8) {mem : Mem} (idle : ∀ w, s.running w ≠ k)
    (roomy : Roomy port slot s k sp) (frame : port.Saved mem sp g)
    (stored : read mem (slot k) 8 = sp.toNat)
    (others : ∀ x, ¬ Within sp port.size x → ¬ Within (slot k) 8 x → mem x = s.mem x) :
    polite port slot s (.prepare k mem sp g) := by
  refine ⟨idle, frame, stored, roomy, fun j other sp' g' there => ⟨fun x here => ?_, fun x here => ?_⟩⟩
  · exact others x ((roomy.frames j sp' g' other there).symm x here)
      (inv.clear j sp' g' there k x here)
  · exact others x ((roomy.slots j).symm x here) (slots j k other x here)

variable [DecidableEq κ] [DecidableEq ω]

omit [DecidableEq ω] in
theorem Inv.prepare (inv : Inv port slot s) {mem : Mem}
    (allowed : polite port slot s (.prepare k mem sp g)) :
    Inv port slot { s with mem := mem, saved := Function.update s.saved k (some (sp, g)) } := by
  obtain ⟨idle, frame, stored, roomy, leaves⟩ := allowed
  refine inv.frame k roomy (fun j sp' g' there => ?_) frame stored
    (fun j other _ => leaves j other) (fun w => ?_) inv.single
  · rcases eq_or_ne j k with rfl | other
    · simp only [State.At, Function.update_self, Option.some.injEq, Prod.mk.injEq] at there
      exact .inl ⟨rfl, there.1.symm, there.2.symm⟩
    · simp only [State.At, Function.update_of_ne other] at there
      exact .inr ⟨other, other, there⟩
  · exact (Function.update_of_ne (idle w) _ _).trans (inv.free w)

/-- A switch to a suspended context succeeds, and the worker goes on with what that one had. -/
theorem Inv.switch (inv : Inv port slot s) (slots : ∀ j k, j ≠ k → Apart (slot j) 8 (slot k) 8)
    (allowed : polite port slot s (.switch w k)) (suspended : s.At k sp g) :
    ∃ t, step port s (.switch w k) = some t ∧ port.resumed (t.cpu w) = g ∧
      t.running = Function.update s.running w k ∧
      t.saved = Function.update (Function.update s.saved (s.running w)
        (some (port.room (s.cpu w), port.caller (s.cpu w) s.mem))) k none ∧
      Inv port slot t := by
  obtain ⟨calls, roomy⟩ := allowed
  have other : k ≠ s.running w := by
    rintro rfl
    rw [State.At, inv.free w] at suspended
    cases suspended
  obtain ⟨cpu, mem, ran, back, saved, stored, others⟩ := port.switches calls
    (inv.slots k sp g suspended) (inv.frames k sp g suspended) (roomy.slots _) (roomy.slots k)
    (roomy.frames k sp g other suspended) (slots _ _ other.symm)
    (inv.clear k sp g suspended (s.running w)).symm
  refine ⟨s.turn w k (port.room (s.cpu w), port.caller (s.cpu w) s.mem) cpu mem, ?_, ?_, rfl, rfl,
    ?_⟩
  · have suspended : s.saved k = some (sp, g) := suspended
    simp only [step, suspended, ran, Option.map_some]
  · simp only [State.turn, Function.update_self]
    exact back
  · refine inv.frame k roomy (fun j sp' g' there => ?_) saved stored
      (fun j differs stays sp' g' old => ⟨fun x here => ?_, fun x here => ?_⟩) (fun v => ?_) ?_
    · rcases eq_or_ne j k with rfl | stays
      · simp [State.At, State.turn] at there
      · rcases eq_or_ne j (s.running w) with rfl | differs
        · simp [State.At, State.turn, stays] at there
          exact .inl ⟨rfl, there.1.symm, there.2.symm⟩
        · simp only [State.At, State.turn, Function.update_of_ne stays,
            Function.update_of_ne differs] at there
          exact .inr ⟨differs, stays, there⟩
    · exact others x ((roomy.frames j sp' g' differs old).symm x here)
        (inv.clear j sp' g' old (s.running w) x here)
    · exact others x ((roomy.slots j).symm x here) (slots j _ differs x here)
    · simp only [State.turn]
      rcases eq_or_ne v w with rfl | elsewhere
      · rw [Function.update_self, Function.update_self]
      · have apart : s.running v ≠ s.running w := fun same => elsewhere (inv.single same)
        rw [Function.update_of_ne elsewhere]
        rcases eq_or_ne (s.running v) k with same | stays
        · rw [same, Function.update_self]
        · rw [Function.update_of_ne stays, Function.update_of_ne apart]
          exact inv.free v
    · -- the context that it goes on with was suspended, so nobody runs it
      intro u v same
      simp only [State.turn] at same
      have nobody (v : ω) : s.running v ≠ k := by
        rintro rfl
        rw [State.At, inv.free v] at suspended
        cases suspended
      rcases eq_or_ne u w with rfl | apart
      · rcases eq_or_ne v u with rfl | apart'
        · rfl
        · rw [Function.update_self, Function.update_of_ne apart'] at same
          exact absurd same.symm (nobody v)
      · rcases eq_or_ne v w with rfl | apart'
        · rw [Function.update_self, Function.update_of_ne apart] at same
          exact absurd same (nobody u)
        · rw [Function.update_of_ne apart, Function.update_of_ne apart'] at same
          exact inv.single same

theorem Inv.step (inv : Inv port slot s) (slots : ∀ j k, j ≠ k → Apart (slot j) 8 (slot k) 8)
    {a : Label κ ω ρ γ} (allowed : polite port slot s a) (stepped : step port s a = some t) :
    Inv port slot t := by
  cases a with
  | compute w cpu mem =>
    cases stepped
    exact inv.leave rfl rfl allowed
  | prepare k mem sp g =>
    cases stepped
    exact inv.prepare allowed
  | switch w k =>
    cases saved : s.saved k with
    | none =>
      simp only [Switching.step, saved] at stepped
      cases stepped
    | some frame =>
      obtain ⟨t', ran, -, -, -, kept⟩ :=
        inv.switch slots allowed (show s.At k frame.1 frame.2 from saved)
      rw [ran] at stepped
      cases stepped
      exact kept

/-- The step neither switches to the context nor gives it a new frame. -/
def Spares (k : κ) : Label κ ω ρ γ → Prop
  | .compute _ _ _ => True
  | .prepare j _ _ _ => j ≠ k
  | .switch _ j => j ≠ k

/-- A suspended context stays so. -/
theorem Inv.stays (inv : Inv port slot s) {a : Label κ ω ρ γ} (spares : Spares k a)
    (stepped : Switching.step port s a = some t) (suspended : s.At k sp g) : t.At k sp g := by
  cases a with
  | compute w cpu mem =>
    cases stepped
    exact suspended
  | prepare j mem sp' g' =>
    cases stepped
    exact (Function.update_of_ne spares.symm _ _).trans suspended
  | switch w j =>
    have apart : k ≠ s.running w := by
      rintro rfl
      rw [State.At, inv.free w] at suspended
      cases suspended
    simp only [Switching.step] at stepped
    split at stepped
    · cases stepped
    · obtain ⟨result, -, rfl⟩ := Option.map_eq_some_iff.mp stepped
      simp only [State.At, State.turn]
      rw [Function.update_of_ne spares.symm, Function.update_of_ne apart]
      exact suspended

/-- A suspended context that nobody has switched to since comes back with what it is to find. -/
theorem Inv.comes_back (inv : Inv port slot s)
    (slots : ∀ j k, j ≠ k → Apart (slot j) 8 (slot k) 8) (suspended : s.At k sp g)
    (between : Reach (Switching.step port) (fun u a => polite port slot u a ∧ Spares k a) s t)
    (again : polite port slot t (.switch w k)) :
    ∃ u, Switching.step port t (.switch w k) = some u ∧ port.resumed (u.cpu w) = g := by
  have waits : Inv port slot t ∧ t.At k sp g := by
    refine between.invariant (I := fun t => Inv port slot t ∧ t.At k sp g) ⟨inv, suspended⟩ ?_
    rintro t u a ⟨inv, waits⟩ ⟨allowed, spares⟩ stepped
    exact ⟨inv.step slots allowed stepped, inv.stays spares stepped waits⟩
  obtain ⟨inv', still⟩ := waits
  obtain ⟨u, ran, back, -, -, -⟩ := inv'.switch slots again still
  exact ⟨u, ran, back⟩

/-- A context that a worker switches to may call back at once. -/
theorem Inv.calls_back (inv : Inv port slot s)
    (slots : ∀ j k, j ≠ k → Apart (slot j) 8 (slot k) 8) (allowed : polite port slot s (.switch w k))
    (suspended : s.At k sp g) {cpu : ρ} (calls : port.Calls cpu (slot k) (slot (s.running w)))
    (clear : ∀ j, Apart (port.room cpu) port.size (slot j) 8)
    (own : Apart (port.room cpu) port.size (port.room (s.cpu w)) port.size)
    (frames : ∀ j sp' g', j ≠ k → s.At j sp' g' → Apart (port.room cpu) port.size sp' port.size) :
    ∃ t u, Switching.step port s (.switch w k) = some t ∧
      Reach (Switching.step port)
        (fun u a => polite port slot u a ∧ Spares (s.running w) a) t u ∧
      polite port slot u (.switch w (s.running w)) := by
  obtain ⟨t, left, -, running, saved, -⟩ := inv.switch slots allowed suspended
  have runs : t.running w = k := by rw [running, Function.update_self]
  refine ⟨t, { t with cpu := Function.update t.cpu w cpu }, left, ?_, ?_, ?_, ?_⟩
  · exact Reach.start.next (a := .compute w cpu t.mem)
      ⟨fun _ _ _ _ => ⟨fun _ _ => rfl, fun _ _ => rfl⟩, trivial⟩ rfl
  · simp only [Function.update_self, runs]
    exact calls
  · simp only [Function.update_self]
    exact clear
  · simp only [Function.update_self, runs]
    intro j sp' g' other there
    have there : t.saved j = some (sp', g') := there
    rw [saved] at there
    rcases eq_or_ne j (s.running w) with rfl | apart
    · rw [Function.update_of_ne other, Function.update_self] at there
      obtain ⟨rfl, -⟩ := Prod.mk.inj (Option.some.inj there)
      exact own
    · rw [Function.update_of_ne other, Function.update_of_ne apart] at there
      exact frames j sp' g' other there

section Reached

variable {s₀ u : State κ ω ρ γ} {w' : ω}

theorem inv_of_reach (slots : ∀ j k, j ≠ k → Apart (slot j) 8 (slot k) 8) (starts : Starts s₀)
    (reach : Reach (Switching.step port) (polite port slot) s₀ s) : Inv port slot s :=
  reach.invariant starts.inv fun inv ok stepped => inv.step slots ok stepped

/-- A context that a worker has switched away from comes back on any worker, as soon as one switches
to it, with what it had when it called. -/
theorem returns (slots : ∀ j k, j ≠ k → Apart (slot j) 8 (slot k) 8) (starts : Starts s₀)
    (reach : Reach (Switching.step port) (polite port slot) s₀ s)
    (allowed : polite port slot s (.switch w j))
    (left : Switching.step port s (.switch w j) = some t)
    (between : Reach (Switching.step port)
      (fun u a => polite port slot u a ∧ Spares (s.running w) a) t u)
    (again : polite port slot u (.switch w' (s.running w))) :
    ∃ v, Switching.step port u (.switch w' (s.running w)) = some v ∧
      port.resumed (v.cpu w') = port.caller (s.cpu w) s.mem := by
  have inv := inv_of_reach slots starts reach
  have suspended : ∃ frame, s.saved j = some frame := by
    cases saved : s.saved j with
    | none =>
      simp only [Switching.step, saved] at left
      cases left
    | some frame => exact ⟨frame, rfl⟩
  obtain ⟨⟨sp, g⟩, there⟩ := suspended
  obtain ⟨t', ran, -, -, saved, kept⟩ := inv.switch slots allowed there
  obtain rfl := Option.some.inj (left.symm.trans ran)
  have other : s.running w ≠ j := by
    rintro rfl
    rw [inv.free w] at there
    cases there
  have away : t.At (s.running w) (port.room (s.cpu w)) (port.caller (s.cpu w) s.mem) := by
    change t.saved (s.running w) = _
    rw [saved, Function.update_of_ne other, Function.update_self]
  exact kept.comes_back slots away between again

/-- A context that was given a first frame begins with it. -/
theorem begins (slots : ∀ j k, j ≠ k → Apart (slot j) 8 (slot k) 8) (starts : Starts s₀)
    (reach : Reach (Switching.step port) (polite port slot) s₀ s) {mem : Mem}
    (allowed : polite port slot s (.prepare k mem sp g))
    (prepared : Switching.step port s (.prepare k mem sp g) = some t)
    (between : Reach (Switching.step port) (fun u a => polite port slot u a ∧ Spares k a) t u)
    (first : polite port slot u (.switch w k)) :
    ∃ v, Switching.step port u (.switch w k) = some v ∧ port.resumed (v.cpu w) = g := by
  have inv := inv_of_reach slots starts reach
  cases prepared
  exact (inv.prepare allowed).comes_back slots (Function.update_self _ _ _) between first

end Reached

end Runs

end Switching
