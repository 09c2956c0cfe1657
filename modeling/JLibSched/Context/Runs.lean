import JLibSched.Context.AArch64
import JLibSched.Context.X86

/-!
# Fibers across switches

On both processors a fiber that calls `ContextSwitch` finds its registers again when the call
returns, whoever ran in between and on whatever worker; and a fiber that was initialised begins at
its entry point.  The code between the switches keeps off the frames and the `Context` of those that
are suspended, and a call has room for its frame.
-/

namespace JLibSched.Context

open Memory Transition Switching

/-! A worker runs one context, and gives another one a stack at `0x20000`. -/

def slotOf : Bool → BitVec 64
  | false => 0x1000
  | true => 0x1008

theorem slotOf_apart (j k : Bool) (other : j ≠ k) : Apart (slotOf j) 8 (slotOf k) 8 := by
  have apart : Apart (slotOf false) 8 (slotOf true) 8 := apart_of_le (by decide) (by decide)
  cases j with
  | false => cases k with
    | false => exact absurd rfl other
    | true => exact apart
  | true => cases k with
    | false => exact apart.symm
    | true => exact absurd rfl other

/-- A frame above the slots meets none. -/
theorem slotOf_clear {sp : BitVec 64} {size : Nat} (above : 0x1010 ≤ sp.toNat)
    (inside : sp.toNat + size ≤ 2 ^ 64) (j : Bool) : Apart sp size (slotOf j) 8 := by
  refine (apart_of_le ?_ inside).symm
  cases j with
  | false => exact Nat.le_trans (by decide) above
  | true => exact Nat.le_trans (by decide) above

def oneWorker {ρ γ : Type} (cpu : ρ) : Switching.State Bool Unit ρ γ where
  mem := fun _ => 0
  cpu := fun _ => cpu
  running := fun _ => false
  saved := fun _ => none

section OneWorker

variable {ρ γ : Type} {cpu : ρ} {port : Port ρ γ} {mem : Mem} {sp : BitVec 64} {g : γ}

theorem oneWorker_starts : Starts (oneWorker cpu : Switching.State Bool Unit ρ γ) :=
  ⟨fun _ => rfl, fun _ _ _ => rfl⟩

theorem oneWorker_roomy (above : 0x1010 ≤ sp.toNat) (inside : sp.toNat + port.size ≤ 2 ^ 64) :
    Roomy port slotOf (oneWorker cpu : Switching.State Bool Unit ρ γ) true sp where
  slots := slotOf_clear above inside
  frames j sp' g' _ there := by cases there

/-- The other context has its first frame. -/
def prepared (cpu : ρ) (mem : Mem) (sp : BitVec 64) (g : γ) : Switching.State Bool Unit ρ γ :=
  { (oneWorker cpu : Switching.State Bool Unit ρ γ) with
    mem := mem
    saved := Function.update (fun _ => none) true (some (sp, g)) }

theorem prepared_frames {j : Bool} {sp' : BitVec 64} {g' : γ}
    (there : (prepared cpu mem sp g).At j sp' g') : j = true ∧ sp' = sp := by
  cases j with
  | false => cases there
  | true =>
    obtain ⟨rfl, -⟩ := Prod.mk.inj (Option.some.inj there)
    exact ⟨rfl, rfl⟩

/-- The worker may switch to it. -/
theorem prepared_polite (mem : Mem) (sp : BitVec 64) (g : γ)
    (calls : port.Calls cpu (slotOf false) (slotOf true)) (above : 0x1010 ≤ (port.room cpu).toNat)
    (below : (port.room cpu).toNat + port.size ≤ sp.toNat)
    (inside : sp.toNat + port.size ≤ 2 ^ 64) :
    polite port slotOf (prepared cpu mem sp g) (.switch () true) := by
  refine ⟨calls, slotOf_clear above (show (port.room cpu).toNat + port.size ≤ 2 ^ 64 by omega), ?_⟩
  intro j sp' g' _ there
  obtain ⟨-, rfl⟩ := prepared_frames there
  exact apart_of_le below inside

end OneWorker

namespace X86

section Runs

variable {κ ω : Type*} [DecidableEq κ] [DecidableEq ω] {slot : κ → BitVec 64}
  {s₀ s t u : Switching.State κ ω Cpu Kept} {w w' : ω} {j i : κ}

omit [DecidableEq κ] [DecidableEq ω] in
/-- `Fiber::Init` may be called on a context that does not run. -/
theorem init_polite (stackBase stackSize trampoline entryPoint : BitVec 64)
    (slots : ∀ j k, j ≠ k → Apart (slot j) 8 (slot k) 8) (inv : Inv port slot s)
    (idle : ∀ w, s.running w ≠ i)
    (roomy : Roomy port slot s i (alignDown (stackBase + stackSize) - 64#64)) :
    polite port slot s (.prepare i (init s.mem stackBase stackSize (slot i) trampoline entryPoint)
      (alignDown (stackBase + stackSize) - 64#64)
      (fresh (alignDown (stackBase + stackSize)) trampoline entryPoint)) := by
  have top := (sub_add_cancel (alignDown (stackBase + stackSize)) 64#64).symm
  obtain ⟨saved, stored, others⟩ := init_spec s.mem trampoline entryPoint top (roomy.slots i)
  rw [← top] at saved
  exact inv.polite_prepare slots idle roomy saved stored others

/-- However the workers switch, a context that calls `ContextSwitch` finds, when the call returns,
the registers that a call preserves, its stack and its control words, on whatever worker. -/
theorem context_returns (slots : ∀ j k, j ≠ k → Apart (slot j) 8 (slot k) 8) (starts : Starts s₀)
    (reach : Reach (Switching.step port) (polite port slot) s₀ s)
    (allowed : polite port slot s (.switch w j))
    (left : Switching.step port s (.switch w j) = some t)
    (between : Reach (Switching.step port)
      (fun u a => polite port slot u a ∧ Spares (s.running w) a) t u)
    (again : polite port slot u (.switch w' (s.running w))) :
    ∃ v, Switching.step port u (.switch w' (s.running w)) = some v ∧
      resumed (v.cpu w') = caller (s.cpu w) s.mem :=
  returns slots starts reach allowed left between again

end Runs

/-- The registers in a call from the first slot to the second one. -/
def callCpu (src dst sp : BitVec 64) : Cpu where
  regs := Function.update (Function.update (Function.update (fun _ => 0) .rdi src) .rsi dst) .rsp sp
  rip := 0
  mxcsr := 0x1F80
  fcw := 0x037F

theorem callCpu_calls (src dst sp : BitVec 64) : port.Calls (callCpu src dst sp) src dst :=
  ⟨rfl, rfl, show (0x1F80 : BitVec 32).toNat < 2 ^ 16 by decide⟩

/-- The worker switches to the other context, which calls back. -/
theorem oneWorker_returns : ∃ s t u v : Switching.State Bool Unit Cpu Kept,
    Switching.step port s (.switch () true) = some t ∧
      Reach (Switching.step port)
        (fun u a => polite port slotOf u a ∧ Spares (s.running ()) a) t u ∧
      Switching.step port u (.switch () (s.running ())) = some v ∧
      resumed (v.cpu ()) = caller (s.cpu ()) s.mem := by
  have inv : Inv port slotOf (oneWorker (callCpu 0x1000 0x1008 0x10038)) := oneWorker_starts.inv
  have first := init_polite 0x20000 0x1000 0x400000 0x400100 slotOf_apart inv
    (fun _ => Bool.false_ne_true) (oneWorker_roomy (by decide) (by decide))
  have reach : Reach (Switching.step port) (polite port slotOf)
      (oneWorker (callCpu 0x1000 0x1008 0x10038)) (prepared (callCpu 0x1000 0x1008 0x10038) _ _ _) :=
    Reach.start.next first rfl
  have allowed := prepared_polite
    (init (fun _ => 0) 0x20000 0x1000 (slotOf true) 0x400000 0x400100)
    (alignDown (0x20000 + 0x1000) - 64#64) (fresh (alignDown (0x20000 + 0x1000)) 0x400000 0x400100)
    (callCpu_calls 0x1000 0x1008 0x10038) (by decide) (by decide) (by decide)
  obtain ⟨t, u, left, between, again⟩ :=
    (inv_of_reach slotOf_apart oneWorker_starts reach).calls_back slotOf_apart allowed rfl
      (callCpu_calls 0x1008 0x1000 0x20F38) (slotOf_clear (by decide) (by decide))
      (apart_of_le (by decide) (by decide)).symm
      fun j sp' g' other there => absurd (prepared_frames there).1 other
  obtain ⟨v, back, same⟩ :=
    context_returns slotOf_apart oneWorker_starts reach allowed left between again
  exact ⟨_, t, u, v, left, between, back, same⟩

section Runs

variable {κ ω : Type*} [DecidableEq κ] [DecidableEq ω] {slot : κ → BitVec 64}
  {s₀ s t u : Switching.State κ ω Cpu Kept} {w w' : ω} {j i : κ}

/-- A context that does not run may be given a first frame anywhere where it meets no slot and no
frame of another one, and the first switch to it enters the entry point through the trampoline, with
the stack aligned as for a call and the default control words. -/
theorem fiber_begins {stackBase stackSize trampoline entryPoint trap : BitVec 64}
    (slots : ∀ j k, j ≠ k → Apart (slot j) 8 (slot k) 8) (starts : Starts s₀)
    (reach : Reach (Switching.step port) (polite port slot) s₀ s) (idle : ∀ w, s.running w ≠ i)
    (roomy : Roomy port slot s i (alignDown (stackBase + stackSize) - 64#64)) :
    let mem := init s.mem stackBase stackSize (slot i) trampoline entryPoint
    let top := alignDown (stackBase + stackSize)
    let first := Label.prepare i mem (top - 64#64) (fresh top trampoline entryPoint)
    ∃ t, Switching.step port s first = some t ∧ polite port slot s first ∧
      ∀ u w, Reach (Switching.step port) (fun u a => polite port slot u a ∧ Spares i a) t u →
        polite port slot u (.switch w i) →
          ∃ v c m, Switching.step port u (.switch w i) = some v ∧ (v.cpu w).rip = trampoline ∧
            (fiberTrampoline trap).head?.bind (exec (v.cpu w) v.mem) = some (c, m) ∧
            c.rip = entryPoint ∧
            (c.regs .rsp).toNat % 16 = 8 ∧ c.mxcsr = 0x1F80 ∧ c.fcw = 0x037F := by
  intro mem top first
  have allowed : polite port slot s first :=
    init_polite _ _ _ _ slots (inv_of_reach slots starts reach) idle roomy
  refine ⟨_, rfl, allowed, fun u w between again => ?_⟩
  obtain ⟨v, ran, back⟩ := begins slots starts reach allowed rfl between again
  have back : resumed (v.cpu w) = fresh top trampoline entryPoint := back
  obtain ⟨c, m, called, entered⟩ :=
    fiberTrampoline_spec v.mem _ _ trap (alignDown_aligned _) back
  exact ⟨v, c, m, ran, congrArg Kept.rip back, called, entered⟩

end Runs

theorem oneWorker_begins :
    let s : Switching.State Bool Unit Cpu Kept := oneWorker (callCpu 0x1000 0x1008 0x10038)
    let mem := init s.mem 0x20000 0x1000 (slotOf true) 0x400000 0x400100
    let top := alignDown (0x20000 + 0x1000)
    let first := Label.prepare true mem (top - 64#64) (fresh top 0x400000 0x400100)
    ∃ t, Switching.step port s first = some t ∧ polite port slotOf s first ∧
      ∀ u w, Reach (Switching.step port) (fun u a => polite port slotOf u a ∧ Spares true a) t u →
        polite port slotOf u (.switch w true) →
          ∃ v c m, Switching.step port u (.switch w true) = some v ∧
            (v.cpu w).rip = 0x400000 ∧
            (fiberTrampoline 0x400002).head?.bind (exec (v.cpu w) v.mem) = some (c, m) ∧
            c.rip = 0x400100 ∧
            (c.regs .rsp).toNat % 16 = 8 ∧ c.mxcsr = 0x1F80 ∧ c.fcw = 0x037F :=
  fiber_begins slotOf_apart oneWorker_starts .start (fun _ => Bool.false_ne_true)
    (oneWorker_roomy (by decide) (by decide))

end X86

namespace AArch64

section Runs

variable {κ ω : Type*} [DecidableEq κ] [DecidableEq ω] {slot : κ → BitVec 64}
  {s₀ s t u : Switching.State κ ω Cpu Kept} {w w' : ω} {j i : κ}

omit [DecidableEq κ] [DecidableEq ω] in
/-- `Fiber::Init` may be called on a context that does not run. -/
theorem init_polite (stackBase stackSize trampoline entryPoint : BitVec 64)
    (slots : ∀ j k, j ≠ k → Apart (slot j) 8 (slot k) 8) (inv : Inv port slot s)
    (idle : ∀ w, s.running w ≠ i)
    (roomy : Roomy port slot s i (alignDown (stackBase + stackSize) - 176#64)) :
    polite port slot s (.prepare i (init s.mem stackBase stackSize (slot i) trampoline entryPoint)
      (alignDown (stackBase + stackSize) - 176#64)
      (fresh (alignDown (stackBase + stackSize)) trampoline entryPoint)) := by
  have top := (sub_add_cancel (alignDown (stackBase + stackSize)) 176#64).symm
  obtain ⟨saved, stored, others⟩ := init_spec s.mem trampoline entryPoint top
    ((alignDown_aligned _).sub 11) (roomy.slots i)
  rw [← top] at saved
  exact inv.polite_prepare slots idle roomy saved stored others

/-- However the workers switch, a context that calls `ContextSwitch` finds, when the call returns,
the registers that a call preserves, its stack and FPCR, on whatever worker. -/
theorem switch_resumes (slots : ∀ j k, j ≠ k → Apart (slot j) 8 (slot k) 8) (starts : Starts s₀)
    (reach : Reach (Switching.step port) (polite port slot) s₀ s)
    (allowed : polite port slot s (.switch w j))
    (left : Switching.step port s (.switch w j) = some t)
    (between : Reach (Switching.step port)
      (fun u a => polite port slot u a ∧ Spares (s.running w) a) t u)
    (again : polite port slot u (.switch w' (s.running w))) :
    ∃ v, Switching.step port u (.switch w' (s.running w)) = some v ∧
      resumed (v.cpu w') = caller (s.cpu w) :=
  returns slots starts reach allowed left between again

end Runs

/-- The registers in a call from the first slot to the second one. -/
def callCpu (src dst sp : BitVec 64) : Cpu where
  x := Function.update (Function.update (fun _ => 0) 0 src) 1 dst
  d := fun _ => 0
  sp := sp
  pc := 0
  fpcr := 0

theorem callCpu_calls (src dst sp : BitVec 64) (aligned : Aligned sp) :
    port.Calls (callCpu src dst sp) src dst :=
  ⟨rfl, rfl, aligned⟩

/-- The worker switches to the other context, which calls back. -/
theorem oneWorker_resumes : ∃ s t u v : Switching.State Bool Unit Cpu Kept,
    Switching.step port s (.switch () true) = some t ∧
      Reach (Switching.step port)
        (fun u a => polite port slotOf u a ∧ Spares (s.running ()) a) t u ∧
      Switching.step port u (.switch () (s.running ())) = some v ∧
      resumed (v.cpu ()) = caller (s.cpu ()) := by
  have inv : Inv port slotOf (oneWorker (callCpu 0x1000 0x1008 0x100B0)) := oneWorker_starts.inv
  have first := init_polite 0x20000 0x1000 0x400000 0x400100 slotOf_apart inv
    (fun _ => Bool.false_ne_true) (oneWorker_roomy (by decide) (by decide))
  have reach : Reach (Switching.step port) (polite port slotOf)
      (oneWorker (callCpu 0x1000 0x1008 0x100B0)) (prepared (callCpu 0x1000 0x1008 0x100B0) _ _ _) :=
    Reach.start.next first rfl
  have allowed := prepared_polite
    (init (fun _ => 0) 0x20000 0x1000 (slotOf true) 0x400000 0x400100)
    (alignDown (0x20000 + 0x1000) - 176#64) (fresh (alignDown (0x20000 + 0x1000)) 0x400000 0x400100)
    (callCpu_calls 0x1000 0x1008 0x100B0 (by decide)) (by decide) (by decide) (by decide)
  obtain ⟨t, u, left, between, again⟩ :=
    (inv_of_reach slotOf_apart oneWorker_starts reach).calls_back slotOf_apart allowed rfl
      (callCpu_calls 0x1008 0x1000 0x20E00 (by decide)) (slotOf_clear (by decide) (by decide))
      (apart_of_le (by decide) (by decide)).symm
      fun j sp' g' other there => absurd (prepared_frames there).1 other
  obtain ⟨v, back, same⟩ :=
    switch_resumes slotOf_apart oneWorker_starts reach allowed left between again
  exact ⟨_, t, u, v, left, between, back, same⟩

section Runs

variable {κ ω : Type*} [DecidableEq κ] [DecidableEq ω] {slot : κ → BitVec 64}
  {s₀ s t u : Switching.State κ ω Cpu Kept} {w w' : ω} {j i : κ}

/-- A context that does not run may be given a first frame anywhere where it meets no slot and no
frame of another one, and the first switch to it enters the entry point through the trampoline, on
an aligned stack and with FPCR zero. -/
theorem fiber_enters {stackBase stackSize trampoline entryPoint trap : BitVec 64}
    (slots : ∀ j k, j ≠ k → Apart (slot j) 8 (slot k) 8) (starts : Starts s₀)
    (reach : Reach (Switching.step port) (polite port slot) s₀ s) (idle : ∀ w, s.running w ≠ i)
    (roomy : Roomy port slot s i (alignDown (stackBase + stackSize) - 176#64)) :
    let mem := init s.mem stackBase stackSize (slot i) trampoline entryPoint
    let top := alignDown (stackBase + stackSize)
    let first := Label.prepare i mem (top - 176#64) (fresh top trampoline entryPoint)
    ∃ t, Switching.step port s first = some t ∧ polite port slot s first ∧
      ∀ u w, Reach (Switching.step port) (fun u a => polite port slot u a ∧ Spares i a) t u →
        polite port slot u (.switch w i) →
          ∃ v c m, Switching.step port u (.switch w i) = some v ∧ (v.cpu w).pc = trampoline ∧
            (fiberTrampoline trap).head?.bind (exec (v.cpu w) v.mem) = some (c, m) ∧
            c.pc = entryPoint ∧
            c.x 30 = trap ∧ Aligned c.sp ∧ c.fpcr = 0 := by
  intro mem top first
  have allowed : polite port slot s first :=
    init_polite _ _ _ _ slots (inv_of_reach slots starts reach) idle roomy
  refine ⟨_, rfl, allowed, fun u w between again => ?_⟩
  obtain ⟨v, ran, back⟩ := begins slots starts reach allowed rfl between again
  have back : resumed (v.cpu w) = fresh top trampoline entryPoint := back
  obtain ⟨c, m, called, entered⟩ :=
    fiberTrampoline_spec v.mem _ _ trap (alignDown_aligned _) back
  exact ⟨v, c, m, ran, congrArg Kept.pc back, called, entered⟩

end Runs

theorem oneWorker_enters :
    let s : Switching.State Bool Unit Cpu Kept := oneWorker (callCpu 0x1000 0x1008 0x100B0)
    let mem := init s.mem 0x20000 0x1000 (slotOf true) 0x400000 0x400100
    let top := alignDown (0x20000 + 0x1000)
    let first := Label.prepare true mem (top - 176#64) (fresh top 0x400000 0x400100)
    ∃ t, Switching.step port s first = some t ∧ polite port slotOf s first ∧
      ∀ u w, Reach (Switching.step port) (fun u a => polite port slotOf u a ∧ Spares true a) t u →
        polite port slotOf u (.switch w true) →
          ∃ v c m, Switching.step port u (.switch w true) = some v ∧
            (v.cpu w).pc = 0x400000 ∧
            (fiberTrampoline 0x400004).head?.bind (exec (v.cpu w) v.mem) = some (c, m) ∧
            c.pc = 0x400100 ∧
            c.x 30 = 0x400004 ∧ Aligned c.sp ∧ c.fpcr = 0 :=
  fiber_enters slotOf_apart oneWorker_starts .start (fun _ => Bool.false_ne_true)
    (oneWorker_roomy (by decide) (by decide))

end AArch64

end JLibSched.Context
