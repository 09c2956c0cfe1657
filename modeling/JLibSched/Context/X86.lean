import JLibSched.Lib.Switching

/-!
# The context switch on x86-64

`ContextSwitch` of the System V port pushes the six registers that a callee must preserve, stores
MXCSR and the x87 control word below them, exchanges `rsp`, and does the reverse on the other stack.
`Fiber::Init` writes a first frame, from which a switch enters `FiberTrampoline`.

The instructions are those of the two routines.  A `ret` or `call` sets `rip`; between them it is not
followed.  Nothing here reads the flags, which a call need not preserve.
-/

namespace JLibSched.Context.X86

open Memory

inductive Reg where
  | rax | rcx | rdx | rbx | rsp | rbp | rsi | rdi
  | r8 | r9 | r10 | r11 | r12 | r13 | r14 | r15
deriving DecidableEq, Repr

structure Cpu where
  regs : Reg → BitVec 64
  rip : BitVec 64
  mxcsr : BitVec 32
  /-- The x87 control word. -/
  fcw : BitVec 16

inductive Instr where
  | push (r : Reg)
  | pop (r : Reg)
  /-- `sub r, imm` and `add r, imm`. -/
  | sub (r : Reg) (imm : BitVec 64)
  | add (r : Reg) (imm : BitVec 64)
  /-- `mov [base], r` and `mov r, [base]`. -/
  | store (base r : Reg)
  | load (r base : Reg)
  /-- With `[base + disp]`. -/
  | stmxcsr (base : Reg) (disp : BitVec 64)
  | ldmxcsr (base : Reg) (disp : BitVec 64)
  | fnstcw (base : Reg) (disp : BitVec 64)
  | fldcw (base : Reg) (disp : BitVec 64)
  | ret
  /-- `call r`, before an instruction at `next`. -/
  | call (r : Reg) (next : BitVec 64)
  | ud2
deriving DecidableEq, Repr

def Cpu.set (c : Cpu) (r : Reg) (value : BitVec 64) : Cpu :=
  { c with regs := Function.update c.regs r value }

def exec (c : Cpu) (m : Mem) : Instr → Option (Cpu × Mem)
  | .push r =>
    let sp := c.regs .rsp - 8#64
    some (c.set .rsp sp, store64 m sp (c.regs r))
  | .pop r =>
    let sp := c.regs .rsp
    some ((c.set .rsp (sp + 8#64)).set r (load64 m sp), m)
  | .sub r imm => some (c.set r (c.regs r - imm), m)
  | .add r imm => some (c.set r (c.regs r + imm), m)
  | .store base r => some (c, store64 m (c.regs base) (c.regs r))
  | .load r base => some (c.set r (load64 m (c.regs base)), m)
  | .stmxcsr base disp => some (c, write m (c.regs base + disp) 4 c.mxcsr.toNat)
  | .ldmxcsr base disp =>
    let value := read m (c.regs base + disp) 4
    -- a reserved bit faults
    if value < 2 ^ 16 then some ({ c with mxcsr := BitVec.ofNat 32 value }, m) else none
  | .fnstcw base disp => some (c, write m (c.regs base + disp) 2 c.fcw.toNat)
  | .fldcw base disp =>
    some ({ c with fcw := BitVec.ofNat 16 (read m (c.regs base + disp) 2) }, m)
  | .ret =>
    let sp := c.regs .rsp
    some ({ c.set .rsp (sp + 8#64) with rip := load64 m sp }, m)
  | .call r next =>
    let sp := c.regs .rsp - 8#64
    some ({ c.set .rsp sp with rip := c.regs r }, store64 m sp next)
  | .ud2 => none

def execAll : List Instr → Cpu → Mem → Option (Cpu × Mem)
  | [], c, m => some (c, m)
  | i :: is, c, m => (exec c m i).bind fun (c, m) => execAll is c m

/-! ## The routines -/

def saveContext : List Instr :=
  [.push .rbp, .push .rbx, .push .r12, .push .r13, .push .r14, .push .r15,
    .sub .rsp 8#64, .stmxcsr .rsp 0#64, .fnstcw .rsp 4#64]

def swapStacks : List Instr := [.store .rdi .rsp, .load .rsp .rsi]

def restoreContext : List Instr :=
  [.ldmxcsr .rsp 0#64, .fldcw .rsp 4#64, .add .rsp 8#64,
    .pop .r15, .pop .r14, .pop .r13, .pop .r12, .pop .rbx, .pop .rbp, .ret]

def contextSwitch : List Instr := saveContext ++ swapStacks ++ restoreContext

def fiberTrampoline (trap : BitVec 64) : List Instr := [.call .rbx trap, .ud2]

/-- `Fiber::Init`. -/
def init (m : Mem) (stackBase stackSize ctx trampoline entryPoint : BitVec 64) : Mem :=
  let top := alignDown (stackBase + stackSize)
  let (m, sp) := pushWords m top [trampoline, 0, entryPoint, 0, 0, 0, 0, 0x0000037F00001F80#64]
  store64 m ctx sp

/-! ## What a context keeps -/

/-- The registers that a call preserves, with `rsp` and `rip` as they are after it. -/
structure Kept where
  rbx : BitVec 64
  rbp : BitVec 64
  r12 : BitVec 64
  r13 : BitVec 64
  r14 : BitVec 64
  r15 : BitVec 64
  rsp : BitVec 64
  rip : BitVec 64
  mxcsr : BitVec 32
  fcw : BitVec 16
deriving DecidableEq, Repr

/-- What the caller of a routine is to find, while its return address is on the stack. -/
def caller (c : Cpu) (m : Mem) : Kept where
  rbx := c.regs .rbx
  rbp := c.regs .rbp
  r12 := c.regs .r12
  r13 := c.regs .r13
  r14 := c.regs .r14
  r15 := c.regs .r15
  rsp := c.regs .rsp + 8#64
  rip := load64 m (c.regs .rsp)
  mxcsr := c.mxcsr
  fcw := c.fcw

def resumed (c : Cpu) : Kept where
  rbx := c.regs .rbx
  rbp := c.regs .rbp
  r12 := c.regs .r12
  r13 := c.regs .r13
  r14 := c.regs .r14
  r15 := c.regs .r15
  rsp := c.regs .rsp
  rip := c.rip
  mxcsr := c.mxcsr
  fcw := c.fcw

/-- What `ContextSwitch` stores, in its order. -/
def Kept.stores (k : Kept) : List Field :=
  [⟨48, 8, k.rbp.toNat⟩, ⟨40, 8, k.rbx.toNat⟩, ⟨32, 8, k.r12.toNat⟩, ⟨24, 8, k.r13.toNat⟩,
    ⟨16, 8, k.r14.toNat⟩, ⟨8, 8, k.r15.toNat⟩, ⟨0, 4, k.mxcsr.toNat⟩, ⟨4, 2, k.fcw.toNat⟩]

/-- The frame, with the return address that was there before. -/
def Kept.frame (k : Kept) : List Field := ⟨56, 8, k.rip.toNat⟩ :: k.stores

structure Saved (m : Mem) (sp : BitVec 64) (k : Kept) : Prop where
  above : k.rsp = sp + 64#64
  reserved : k.mxcsr.toNat < 2 ^ 16
  stored : Stored m sp k.frame

variable {c : Cpu} {m m' : Mem} {b sp src dst : BitVec 64} {k : Kept}

theorem frame_fits : ∀ f ∈ k.frame, f.Fits 64 := by
  have quad (x : BitVec 64) : x.toNat < 256 ^ 8 := x.isLt
  have double (x : BitVec 32) : x.toNat < 256 ^ 4 := x.isLt
  have word (x : BitVec 16) : x.toNat < 256 ^ 2 := x.isLt
  simp only [Kept.frame, Kept.stores, List.forall_mem_cons, List.not_mem_nil, false_imp_iff,
    implies_true, and_true, Field.Fits]
  exact ⟨⟨by decide, quad _⟩, ⟨by decide, quad _⟩, ⟨by decide, quad _⟩, ⟨by decide, quad _⟩,
    ⟨by decide, quad _⟩, ⟨by decide, quad _⟩, ⟨by decide, quad _⟩, ⟨by decide, double _⟩,
    by decide, word _⟩

theorem frame_clear : k.frame.Pairwise Field.Clear := by
  simp [Kept.frame, Kept.stores, Field.Clear]

/-- One list of instructions after another one. -/
theorem execAll_append {c c' : Cpu} {m m' : Mem} {is : List Instr} (js : List Instr)
    (first : execAll is c m = some (c', m')) : execAll (is ++ js) c m = execAll js c' m' := by
  induction is generalizing c m with
  | nil =>
    cases first
    rfl
  | cons i is ih =>
    simp only [List.cons_append, execAll] at first ⊢
    cases stepped : exec c m i with
    | none =>
      rw [stepped] at first
      cases first
    | some next =>
      rw [stepped] at first
      exact ih first

/-- The first part stores the registers in a frame. -/
theorem saveContext_spec (top : c.regs .rsp = b + 56#64) :
    execAll saveContext c m = some (c.set .rsp b, writeAll m b (caller c m).stores) := by
  have a48 : b + 56#64 - 8#64 = b + 48#64 := sub_offset b 48 8
  have a40 : b + 48#64 - 8#64 = b + 40#64 := sub_offset b 40 8
  have a32 : b + 40#64 - 8#64 = b + 32#64 := sub_offset b 32 8
  have a24 : b + 32#64 - 8#64 = b + 24#64 := sub_offset b 24 8
  have a16 : b + 24#64 - 8#64 = b + 16#64 := sub_offset b 16 8
  have a8 : b + 16#64 - 8#64 = b + 8#64 := sub_offset b 8 8
  have a0 : b + 8#64 - 8#64 = b := add_sub_cancel_right ..
  simp only [saveContext, execAll, exec, Cpu.set, Option.bind_some, Function.update_self,
    Function.update_idem, top, a48, a40, a32, a24, a16, a8, a0]
  simp [caller, Kept.stores, writeAll, store64]

theorem Saved.congr (saved : Saved m sp k) (same : Same sp 64 m m') : Saved m' sp k :=
  ⟨saved.above, saved.reserved, saved.stored.congr frame_fits (by norm_num) same⟩

/-- A field of the frame. -/
theorem Saved.quad (saved : Saved m sp k) {i : Nat} {value : BitVec 64}
    (mem : ⟨i, 8, value.toNat⟩ ∈ k.frame) : load64 m (sp + BitVec.ofNat 64 i) = value :=
  load64_of_read (saved.stored _ mem)

/-- The last part finds in the frame what the context keeps. -/
theorem restoreContext_spec (saved : Saved m sp k) (top : c.regs .rsp = sp) :
    ∃ c', execAll restoreContext c m = some (c', m) ∧ resumed c' = k := by
  have mxcsr : read m (sp + 0#64) 4 = k.mxcsr.toNat :=
    saved.stored ⟨0, 4, k.mxcsr.toNat⟩ (by simp [Kept.frame, Kept.stores])
  have fcw : read m (sp + 4#64) 2 = k.fcw.toNat :=
    saved.stored ⟨4, 2, k.fcw.toNat⟩ (by simp [Kept.frame, Kept.stores])
  have r15 : load64 m (sp + 8#64) = k.r15 := saved.quad (by simp [Kept.frame, Kept.stores])
  have r14 : load64 m (sp + 16#64) = k.r14 := saved.quad (by simp [Kept.frame, Kept.stores])
  have r13 : load64 m (sp + 24#64) = k.r13 := saved.quad (by simp [Kept.frame, Kept.stores])
  have r12 : load64 m (sp + 32#64) = k.r12 := saved.quad (by simp [Kept.frame, Kept.stores])
  have rbx : load64 m (sp + 40#64) = k.rbx := saved.quad (by simp [Kept.frame, Kept.stores])
  have rbp : load64 m (sp + 48#64) = k.rbp := saved.quad (by simp [Kept.frame, Kept.stores])
  have rip : load64 m (sp + 56#64) = k.rip := saved.quad (by simp [Kept.frame])
  have a16 : sp + 8#64 + 8#64 = sp + 16#64 := add_offset sp 8 8
  have a24 : sp + 16#64 + 8#64 = sp + 24#64 := add_offset sp 16 8
  have a32 : sp + 24#64 + 8#64 = sp + 32#64 := add_offset sp 24 8
  have a40 : sp + 32#64 + 8#64 = sp + 40#64 := add_offset sp 32 8
  have a48 : sp + 40#64 + 8#64 = sp + 48#64 := add_offset sp 40 8
  have a56 : sp + 48#64 + 8#64 = sp + 56#64 := add_offset sp 48 8
  have a64 : sp + 56#64 + 8#64 = k.rsp := (add_offset sp 56 8).trans saved.above.symm
  have reserved : read m (sp + 0#64) 4 < 2 ^ 16 := mxcsr ▸ saved.reserved
  have mxcsr : BitVec.ofNat 32 (read m (sp + 0#64) 4) = k.mxcsr := by
    rw [mxcsr, BitVec.ofNat_toNat, BitVec.setWidth_eq]
  have fcw : BitVec.ofNat 16 (read m (sp + 4#64) 2) = k.fcw := by
    rw [fcw, BitVec.ofNat_toNat, BitVec.setWidth_eq]
  have ran : (execAll restoreContext c m).map (fun r => (resumed r.1, r.2)) = some (k, m) := by
    simp only [restoreContext, execAll, exec, Cpu.set, top, mxcsr, fcw, if_pos reserved,
      Option.bind_some, Option.map_some, Function.update_self, Function.update_of_ne, ne_eq, reduceCtorEq,
      not_false_eq_true, r15, r14, r13, r12, rbx, rbp, rip, a16, a24, a32, a40, a48, a56, a64]
    simp [resumed]
  obtain ⟨⟨c', m'⟩, ran, found⟩ := Option.map_eq_some_iff.mp ran
  obtain ⟨back, rfl⟩ := Prod.mk.inj found
  exact ⟨c', ran, back⟩

/-- The second part changes stacks. -/
theorem swapStacks_spec : execAll swapStacks c m =
    some (c.set .rsp (load64 (store64 m (c.regs .rdi) (c.regs .rsp)) (c.regs .rsi)),
      store64 m (c.regs .rdi) (c.regs .rsp)) := rfl

@[simp] theorem set_regs_self (r : Reg) (value : BitVec 64) : (c.set r value).regs r = value :=
  Function.update_self ..

theorem set_regs_of_ne {r r' : Reg} (other : r' ≠ r) (value : BitVec 64) :
    (c.set r value).regs r' = c.regs r' :=
  Function.update_of_ne other ..

/-- The stores of the frame, and the return address above it. -/
theorem saved_stores (reserved : c.mxcsr.toNat < 2 ^ 16) (top : c.regs .rsp = b + 56#64) :
    Saved (writeAll m b (caller c m).stores) b (caller c m) where
  above := by
    simp only [caller, top]
    bv_omega
  reserved := reserved
  stored := by
    have fits : ∀ f ∈ (caller c m).stores, f.Fits 64 :=
      fun f mem => frame_fits f (List.mem_cons_of_mem _ mem)
    obtain ⟨above, clear⟩ := List.pairwise_cons.mp (frame_clear (k := caller c m))
    refine List.forall_mem_cons.mpr ⟨?_, stored_writeAll fits (by norm_num) clear⟩
    -- the call has stored the return address
    refine (read_writeAll fits (by norm_num) (g := ⟨56, 8, _⟩) (by simp)
      fun f mem => (above f mem).symm).trans ?_
    simp only [caller, load64_toNat, top]

theorem contextSwitch_spec (source : c.regs .rdi = src) (target : c.regs .rsi = dst)
    (reserved : c.mxcsr.toNat < 2 ^ 16) (top : c.regs .rsp = b + 56#64)
    (slot : read m dst 8 = sp.toNat) (saved : Saved m sp k) (frame_src : Apart b 64 src 8)
    (frame_dst : Apart b 64 dst 8) (frames : Apart b 64 sp 64) (slots : Apart src 8 dst 8)
    (src_frame : Apart src 8 sp 64) :
    ∃ c' m', execAll contextSwitch c m = some (c', m') ∧ resumed c' = k ∧
      Saved m' b (caller c m) ∧ read m' src 8 = b.toNat ∧
      ∀ x, ¬ Within b 64 x → ¬ Within src 8 x → m' x = m x := by
  have fits : ∀ f ∈ (caller c m).stores, f.Fits 64 :=
    fun f mem => frame_fits f (List.mem_cons_of_mem _ mem)
  have small : 64 ≤ 2 ^ 64 := by norm_num
  generalize stored : writeAll m b (caller c m).stores = m₁
  have outside (x : BitVec 64) (out : ¬ Within b 64 x) : m₁ x = m x :=
    stored ▸ writeAll_apart fits small out
  have own : Saved m₁ b (caller c m) := stored ▸ saved_stores reserved top
  have other : Saved m₁ sp k := saved.congr fun x here => outside x (frames.symm x here)
  have address : read m₁ dst 8 = sp.toNat :=
    (read_congr fun x here => outside x (frame_dst.symm x here)).trans slot
  -- the slot of the caller gets the address of its frame
  generalize written : store64 m₁ src b = m₂
  have beside (x : BitVec 64) (out : ¬ Within src 8 x) : m₂ x = m₁ x :=
    written ▸ if_neg out
  have own' : Saved m₂ b (caller c m) := own.congr fun x here => beside x (frame_src x here)
  have other' : Saved m₂ sp k := other.congr fun x here => beside x (src_frame.symm x here)
  have loaded : load64 m₂ dst = sp := load64_of_read
    ((read_congr fun x here => beside x (slots.symm x here)).trans address)
  have stored' : read m₂ src 8 = b.toNat := written ▸ read_store64
  obtain ⟨c', restored, back⟩ :=
    restoreContext_spec other' (c := (c.set .rsp b).set .rsp sp) (set_regs_self ..)
  have swapped : execAll swapStacks (c.set .rsp b) m₁ = some ((c.set .rsp b).set .rsp sp, m₂) := by
    rw [swapStacks_spec, set_regs_self, set_regs_of_ne (by decide), set_regs_of_ne (by decide),
      source, target, written, loaded]
  refine ⟨c', m₂, ?_, back, own', stored', fun x out out' => ?_⟩
  · have saves : execAll saveContext c m = some (c.set .rsp b, m₁) := stored ▸ saveContext_spec top
    rw [contextSwitch, List.append_assoc, execAll_append _ saves, execAll_append _ swapped, restored]
  · rw [beside x out', outside x out]

/-- `ContextSwitch` as a switch. -/
def port : Switching.Port Cpu Kept where
  size := 64
  caller := caller
  resumed := resumed
  room c := c.regs .rsp - 56#64
  Calls c src dst := c.regs .rdi = src ∧ c.regs .rsi = dst ∧ c.mxcsr.toNat < 2 ^ 16
  Saved := Saved
  run c m := execAll contextSwitch c m
  saved_congr saved same := saved.congr same
  switches := by
    rintro c m src dst sp k ⟨source, target, reserved⟩ slot saved frame_src frame_dst frames slots
      src_frame
    exact contextSwitch_spec source target reserved (by bv_omega) slot saved frame_src frame_dst
      frames slots src_frame

/-! ## A first frame -/

/-- With what a context begins: the default control words, and the entry point in `rbx`. -/
def fresh (top trampoline entryPoint : BitVec 64) : Kept where
  rbx := entryPoint
  rbp := 0
  r12 := 0
  r13 := 0
  r14 := 0
  r15 := 0
  rsp := top
  rip := trampoline
  mxcsr := 0x1F80
  fcw := 0x037F

/-- What `Fiber::Init` pushes. -/
def firstWords (trampoline entryPoint : BitVec 64) : List (BitVec 64) :=
  [trampoline, 0, entryPoint, 0, 0, 0, 0, 0x0000037F00001F80#64]

/-- The first frame is one that a switch can return through. -/
theorem saved_first (b trampoline entryPoint : BitVec 64) :
    Saved (writeAll m b (pushed (firstWords trampoline entryPoint))) b
      (fresh (b + 64#64) trampoline entryPoint) where
  above := rfl
  reserved := show (0x1F80 : BitVec 32).toNat < 2 ^ 16 by decide
  stored := by
    have stored := stored_pushed (m := m) (b := b) (firstWords trampoline entryPoint)
      (show 8 * 8 ≤ 2 ^ 64 by norm_num)
    generalize writeAll m b (pushed (firstWords trampoline entryPoint)) = m' at stored
    simp only [Stored, firstWords, pushed, List.forall_mem_cons, List.not_mem_nil, false_imp_iff,
      implies_true, and_true] at stored
    obtain ⟨rip, rbp, rbx, r12, r13, r14, r15, words⟩ := stored
    -- the last quadword holds both control words
    have words : read m' (b + 0#64) 8 = 0x0000037F00001F80 := words
    have mxcsr : read m' (b + 0#64) 4 = 0x1F80 := by
      rw [read_low (show 4 ≤ 8 by decide), words]
      rfl
    have fcw : read m' (b + 4#64) 2 = 0x037F := by
      rw [BitVec.add_zero] at words
      rw [read_low (show 2 ≤ 4 by decide), read_high 4 4, words]
      rfl
    simp only [Stored, Kept.frame, Kept.stores, List.forall_mem_cons, List.not_mem_nil,
      false_imp_iff, implies_true, and_true]
    exact ⟨rip, rbp, rbx, r12, r13, r14, r15, mxcsr, fcw⟩

section Init

variable (m) {stackBase stackSize ctx : BitVec 64} (trampoline entryPoint trap : BitVec 64)

/-- `Fiber::Init` leaves a first frame below the top of the stack, and its address in the slot. -/
theorem init_spec (top : alignDown (stackBase + stackSize) = b + 64#64)
    (apart : Apart b 64 ctx 8) :
    Saved (init m stackBase stackSize ctx trampoline entryPoint) b
        (fresh (b + 64#64) trampoline entryPoint) ∧
      read (init m stackBase stackSize ctx trampoline entryPoint) ctx 8 = b.toNat ∧
      ∀ x, ¬ Within b 64 x → ¬ Within ctx 8 x →
        init m stackBase stackSize ctx trampoline entryPoint x = m x := by
  have writes : init m stackBase stackSize ctx trampoline entryPoint =
      store64 (writeAll m b (pushed (firstWords trampoline entryPoint))) ctx b := by
    have words : 64#64 = BitVec.ofNat 64 (8 * (firstWords trampoline entryPoint).length) := rfl
    rw [words] at top
    rw [init, top, ← firstWords, pushWords_eq]
  have beside (x : BitVec 64) (out : ¬ Within ctx 8 x) :
      init m stackBase stackSize ctx trampoline entryPoint x =
        writeAll m b (pushed (firstWords trampoline entryPoint)) x := by
    rw [writes]
    exact if_neg out
  refine ⟨?_, ?_, fun x out out' => ?_⟩
  · exact (saved_first b trampoline entryPoint).congr fun x here => beside x (apart x here)
  · rw [writes]
    exact read_store64
  · rw [beside x out']
    exact writeAll_apart (pushed_fits _) (show 8 * 8 ≤ 2 ^ 64 by norm_num) out

/-- The trampoline calls the entry point with the stack as a call leaves it. -/
theorem fiberTrampoline_spec {top : BitVec 64} (aligned : Aligned top)
    (back : resumed c = fresh top trampoline entryPoint) :
    ∃ c' m', (fiberTrampoline trap).head?.bind (exec c m) = some (c', m') ∧ c'.rip = entryPoint ∧
      (c'.regs .rsp).toNat % 16 = 8 ∧ c'.mxcsr = 0x1F80 ∧ c'.fcw = 0x037F := by
  have rbx : c.regs .rbx = entryPoint := congrArg Kept.rbx back
  have rsp : c.regs .rsp = top := congrArg Kept.rsp back
  refine ⟨_, _, rfl, rbx, ?_, congrArg Kept.mxcsr back, congrArg Kept.fcw back⟩
  simp only [Cpu.set, Function.update_self, rsp]
  have small := top.isLt
  rw [Aligned] at aligned
  rw [BitVec.toNat_sub, show (8#64).toNat = 8 from rfl]
  omega

end Init

end JLibSched.Context.X86
