import JLibSched.Lib.Switching

/-!
# The context switch on AArch64

The return address is in `x30` here, so the frame has it with the registers that a callee must
preserve: `x19` to `x30`, the low halves of `v8` to `v15`, and FPCR.  A stack pointer that is not a
multiple of 16 faults on every access.

The instructions are those of the two routines, and `ret` and `blr` set `pc`.
-/

namespace JLibSched.Context.AArch64

open Memory

/-! The registers are written as numerals. -/

instance thirtyOne_ne : NeZero (31 : Nat) := ⟨Nat.succ_ne_zero 30⟩

instance thirtyTwo_ne : NeZero (32 : Nat) := ⟨Nat.succ_ne_zero 31⟩

structure Cpu where
  x : Fin 31 → BitVec 64
  /-- The low halves of the vector registers. -/
  d : Fin 32 → BitVec 64
  sp : BitVec 64
  pc : BitVec 64
  fpcr : BitVec 32

inductive Instr where
  /-- `stp r, r', [sp, #-16]!` and `ldp r, r', [sp], #16`. -/
  | stp (r r' : Fin 31)
  | ldp (r r' : Fin 31)
  | stpD (r r' : Fin 32)
  | ldpD (r r' : Fin 32)
  /-- `str r, [sp, #-16]!` and `ldr r, [sp], #16`. -/
  | push (r : Fin 31)
  | pop (r : Fin 31)
  /-- `mrs r, fpcr` and `msr fpcr, r`. -/
  | mrs (r : Fin 31)
  | msr (r : Fin 31)
  /-- `mov r, sp` and `mov sp, r`. -/
  | getSp (r : Fin 31)
  | setSp (r : Fin 31)
  /-- `str r, [base]` and `ldr r, [base]`. -/
  | str (r base : Fin 31)
  | ldr (r base : Fin 31)
  | ret
  /-- `blr r`, before an instruction at `next`. -/
  | blr (r : Fin 31) (next : BitVec 64)
  | brk
deriving DecidableEq, Repr

def Cpu.set (c : Cpu) (r : Fin 31) (value : BitVec 64) : Cpu :=
  { c with x := Function.update c.x r value }

def Cpu.setD (c : Cpu) (r : Fin 32) (value : BitVec 64) : Cpu :=
  { c with d := Function.update c.d r value }

/-- Two doublewords below the stack pointer. -/
def storePair (c : Cpu) (m : Mem) (value value' : BitVec 64) : Option (Cpu × Mem) :=
  let sp := c.sp - 16#64
  if Aligned c.sp then
    some ({ c with sp := sp }, store64 (store64 m sp value) (sp + 8#64) value')
  else none

def exec (c : Cpu) (m : Mem) : Instr → Option (Cpu × Mem)
  | .stp r r' => storePair c m (c.x r) (c.x r')
  | .ldp r r' =>
    if Aligned c.sp then
      some (({ c with sp := c.sp + 16#64 }.set r (load64 m c.sp)).set r'
        (load64 m (c.sp + 8#64)), m)
    else none
  | .stpD r r' => storePair c m (c.d r) (c.d r')
  | .ldpD r r' =>
    if Aligned c.sp then
      some (({ c with sp := c.sp + 16#64 }.setD r (load64 m c.sp)).setD r'
        (load64 m (c.sp + 8#64)), m)
    else none
  | .push r =>
    let sp := c.sp - 16#64
    if Aligned c.sp then some ({ c with sp := sp }, store64 m sp (c.x r)) else none
  | .pop r =>
    if Aligned c.sp then some ({ c with sp := c.sp + 16#64 }.set r (load64 m c.sp), m) else none
  | .mrs r => some (c.set r (c.fpcr.setWidth 64), m)
  | .msr r => some ({ c with fpcr := (c.x r).setWidth 32 }, m)
  | .getSp r => some (c.set r c.sp, m)
  | .setSp r => some ({ c with sp := c.x r }, m)
  | .str r base => some (c, store64 m (c.x base) (c.x r))
  | .ldr r base => some (c.set r (load64 m (c.x base)), m)
  | .ret => some ({ c with pc := c.x 30 }, m)
  | .blr r next => some ({ c.set 30 next with pc := c.x r }, m)
  | .brk => none

def execAll : List Instr → Cpu → Mem → Option (Cpu × Mem)
  | [], c, m => some (c, m)
  | i :: is, c, m => (exec c m i).bind fun (c, m) => execAll is c m

/-! ## The routines -/

def saveContext : List Instr :=
  [.stp 29 30, .stp 27 28, .stp 25 26, .stp 23 24, .stp 21 22, .stp 19 20, .mrs 9, .push 9,
    .stpD 14 15, .stpD 12 13, .stpD 10 11, .stpD 8 9]

def swapStacks : List Instr := [.getSp 9, .str 9 0, .ldr 9 1, .setSp 9]

def restoreContext : List Instr :=
  [.ldpD 8 9, .ldpD 10 11, .ldpD 12 13, .ldpD 14 15, .pop 9, .msr 9, .ldp 19 20, .ldp 21 22,
    .ldp 23 24, .ldp 25 26, .ldp 27 28, .ldp 29 30, .ret]

def contextSwitch : List Instr := saveContext ++ swapStacks ++ restoreContext

def fiberTrampoline (trap : BitVec 64) : List Instr := [.blr 19 trap, .brk]

/-- `Fiber::Init`. -/
def init (m : Mem) (stackBase stackSize ctx trampoline entryPoint : BitVec 64) : Mem :=
  let top := alignDown (stackBase + stackSize)
  let (m, sp) := pushWords m top
    ([trampoline, 0] ++ List.replicate 9 0 ++ [entryPoint, 0, 0] ++ List.replicate 8 0)
  store64 m ctx sp

/-! ## What a context keeps -/

/-- The registers that a call preserves, and `pc` as it is after it. -/
structure Kept where
  x19 : BitVec 64
  x20 : BitVec 64
  x21 : BitVec 64
  x22 : BitVec 64
  x23 : BitVec 64
  x24 : BitVec 64
  x25 : BitVec 64
  x26 : BitVec 64
  x27 : BitVec 64
  x28 : BitVec 64
  x29 : BitVec 64
  x30 : BitVec 64
  d8 : BitVec 64
  d9 : BitVec 64
  d10 : BitVec 64
  d11 : BitVec 64
  d12 : BitVec 64
  d13 : BitVec 64
  d14 : BitVec 64
  d15 : BitVec 64
  fpcr : BitVec 32
  sp : BitVec 64
  pc : BitVec 64
deriving DecidableEq, Repr

/-- What the caller of a routine is to find. -/
def caller (c : Cpu) : Kept where
  x19 := c.x 19
  x20 := c.x 20
  x21 := c.x 21
  x22 := c.x 22
  x23 := c.x 23
  x24 := c.x 24
  x25 := c.x 25
  x26 := c.x 26
  x27 := c.x 27
  x28 := c.x 28
  x29 := c.x 29
  x30 := c.x 30
  d8 := c.d 8
  d9 := c.d 9
  d10 := c.d 10
  d11 := c.d 11
  d12 := c.d 12
  d13 := c.d 13
  d14 := c.d 14
  d15 := c.d 15
  fpcr := c.fpcr
  sp := c.sp
  pc := c.x 30

/-- What it finds. -/
def resumed (c : Cpu) : Kept := { caller c with pc := c.pc }

/-- What `ContextSwitch` stores, in its order. -/
def Kept.frame (k : Kept) : List Field :=
  [⟨160, 8, k.x29.toNat⟩, ⟨168, 8, k.x30.toNat⟩, ⟨144, 8, k.x27.toNat⟩, ⟨152, 8, k.x28.toNat⟩,
    ⟨128, 8, k.x25.toNat⟩, ⟨136, 8, k.x26.toNat⟩, ⟨112, 8, k.x23.toNat⟩, ⟨120, 8, k.x24.toNat⟩,
    ⟨96, 8, k.x21.toNat⟩, ⟨104, 8, k.x22.toNat⟩, ⟨80, 8, k.x19.toNat⟩, ⟨88, 8, k.x20.toNat⟩,
    ⟨64, 8, (k.fpcr.setWidth 64).toNat⟩, ⟨48, 8, k.d14.toNat⟩, ⟨56, 8, k.d15.toNat⟩,
    ⟨32, 8, k.d12.toNat⟩, ⟨40, 8, k.d13.toNat⟩, ⟨16, 8, k.d10.toNat⟩, ⟨24, 8, k.d11.toNat⟩,
    ⟨0, 8, k.d8.toNat⟩, ⟨8, 8, k.d9.toNat⟩]

structure Saved (m : Mem) (b : BitVec 64) (k : Kept) : Prop where
  above : k.sp = b + 176#64
  aligned : Aligned b
  returns : k.pc = k.x30
  stored : Stored m b k.frame

variable {c : Cpu} {m m' : Mem} {b src dst : BitVec 64} {k : Kept}

theorem frame_fits : ∀ f ∈ k.frame, f.Fits 176 := by
  have quad (x : BitVec 64) : x.toNat < 256 ^ 8 := x.isLt
  simp only [Kept.frame, List.forall_mem_cons, List.not_mem_nil, false_imp_iff, implies_true,
    and_true, Field.Fits, quad]
  decide

theorem frame_clear : k.frame.Pairwise Field.Clear := by
  simp [Kept.frame, Field.Clear]

theorem Saved.congr (saved : Saved m b k) (same : Same b 176 m m') : Saved m' b k :=
  { saved with stored := saved.stored.congr frame_fits (by norm_num) same }

/-- One list of instructions after another one. -/
theorem execAll_append {c c' : Cpu} {m m' : Mem} {is : List Instr} (js : List Instr)
    (first : execAll is c m = some (c', m')) : execAll (is ++ js) c m = execAll js c' m' := by
  induction is generalizing c m with
  | nil =>
    cases first
    rfl
  | cons i is ih =>
    simp only [List.cons_append, execAll] at first ⊢
    cases stepped : exec c m i with
    | none =>
      rw [stepped] at first
      cases first
    | some next =>
      rw [stepped] at first
      exact ih first

/-- The first part stores the registers in a frame; `x9` is scratch. -/
theorem saveContext_spec (top : c.sp = b + 176#64) (aligned : Aligned b) :
    execAll saveContext c m = some ({ c with sp := b }.set 9 (c.fpcr.setWidth 64),
      writeAll m b (caller c).frame) := by
  have a160 : b + 176#64 - 16#64 = b + 160#64 := sub_offset b 160 16
  have a144 : b + 160#64 - 16#64 = b + 144#64 := sub_offset b 144 16
  have a128 : b + 144#64 - 16#64 = b + 128#64 := sub_offset b 128 16
  have a112 : b + 128#64 - 16#64 = b + 112#64 := sub_offset b 112 16
  have a96 : b + 112#64 - 16#64 = b + 96#64 := sub_offset b 96 16
  have a80 : b + 96#64 - 16#64 = b + 80#64 := sub_offset b 80 16
  have a64 : b + 80#64 - 16#64 = b + 64#64 := sub_offset b 64 16
  have a48 : b + 64#64 - 16#64 = b + 48#64 := sub_offset b 48 16
  have a32 : b + 48#64 - 16#64 = b + 32#64 := sub_offset b 32 16
  have a16 : b + 32#64 - 16#64 = b + 16#64 := sub_offset b 16 16
  have a0 : b + 16#64 - 16#64 = b := add_sub_cancel_right ..
  have on176 : Aligned (b + 176#64) := aligned.add 11
  have on160 : Aligned (b + 160#64) := aligned.add 10
  have on144 : Aligned (b + 144#64) := aligned.add 9
  have on128 : Aligned (b + 128#64) := aligned.add 8
  have on112 : Aligned (b + 112#64) := aligned.add 7
  have on96 : Aligned (b + 96#64) := aligned.add 6
  have on80 : Aligned (b + 80#64) := aligned.add 5
  have on64 : Aligned (b + 64#64) := aligned.add 4
  have on48 : Aligned (b + 48#64) := aligned.add 3
  have on32 : Aligned (b + 32#64) := aligned.add 2
  have on16 : Aligned (b + 16#64) := aligned.add 1
  have h160 : b + 160#64 + 8#64 = b + 168#64 := add_offset b 160 8
  have h144 : b + 144#64 + 8#64 = b + 152#64 := add_offset b 144 8
  have h128 : b + 128#64 + 8#64 = b + 136#64 := add_offset b 128 8
  have h112 : b + 112#64 + 8#64 = b + 120#64 := add_offset b 112 8
  have h96 : b + 96#64 + 8#64 = b + 104#64 := add_offset b 96 8
  have h80 : b + 80#64 + 8#64 = b + 88#64 := add_offset b 80 8
  have h48 : b + 48#64 + 8#64 = b + 56#64 := add_offset b 48 8
  have h32 : b + 32#64 + 8#64 = b + 40#64 := add_offset b 32 8
  have h16 : b + 16#64 + 8#64 = b + 24#64 := add_offset b 16 8
  simp only [saveContext, execAll, exec, storePair, Cpu.set, top, Option.bind_some, if_true,
    Function.update_self,
    a160, a144, a128, a112, a96, a80, a64, a48, a32, a16, a0,
    on176, on160, on144, on128, on112, on96, on80, on64, on48, on32, on16,
    h160, h144, h128, h112, h96, h80, h48, h32, h16]
  simp [caller, Kept.frame, writeAll, store64]

/-- The second part changes stacks. -/
theorem swapStacks_spec : execAll swapStacks c m =
    some ({ (c.set 9 c.sp).set 9 (load64 (store64 m (c.x 0) c.sp) (c.x 1)) with
      sp := load64 (store64 m (c.x 0) c.sp) (c.x 1) }, store64 m (c.x 0) c.sp) := rfl

/-- A register in the frame. -/
theorem Saved.quad (saved : Saved m b k) {i : Nat} {value : BitVec 64}
    (mem : ⟨i, 8, value.toNat⟩ ∈ k.frame) : load64 m (b + BitVec.ofNat 64 i) = value :=
  load64_of_read (saved.stored _ mem)

/-- The last part finds in the frame what the context keeps. -/
theorem restoreContext_spec (saved : Saved m b k) (top : c.sp = b) :
    ∃ c', execAll restoreContext c m = some (c', m) ∧ resumed c' = k := by
  have d8 : load64 m b = k.d8 := by
    have first : load64 m (b + 0#64) = k.d8 := saved.quad (by simp [Kept.frame])
    rwa [BitVec.add_zero] at first
  have d9 : load64 m (b + 8#64) = k.d9 := saved.quad (by simp [Kept.frame])
  have d10 : load64 m (b + 16#64) = k.d10 := saved.quad (by simp [Kept.frame])
  have d11 : load64 m (b + 24#64) = k.d11 := saved.quad (by simp [Kept.frame])
  have d12 : load64 m (b + 32#64) = k.d12 := saved.quad (by simp [Kept.frame])
  have d13 : load64 m (b + 40#64) = k.d13 := saved.quad (by simp [Kept.frame])
  have d14 : load64 m (b + 48#64) = k.d14 := saved.quad (by simp [Kept.frame])
  have d15 : load64 m (b + 56#64) = k.d15 := saved.quad (by simp [Kept.frame])
  have x19 : load64 m (b + 80#64) = k.x19 := saved.quad (by simp [Kept.frame])
  have x20 : load64 m (b + 88#64) = k.x20 := saved.quad (by simp [Kept.frame])
  have x21 : load64 m (b + 96#64) = k.x21 := saved.quad (by simp [Kept.frame])
  have x22 : load64 m (b + 104#64) = k.x22 := saved.quad (by simp [Kept.frame])
  have x23 : load64 m (b + 112#64) = k.x23 := saved.quad (by simp [Kept.frame])
  have x24 : load64 m (b + 120#64) = k.x24 := saved.quad (by simp [Kept.frame])
  have x25 : load64 m (b + 128#64) = k.x25 := saved.quad (by simp [Kept.frame])
  have x26 : load64 m (b + 136#64) = k.x26 := saved.quad (by simp [Kept.frame])
  have x27 : load64 m (b + 144#64) = k.x27 := saved.quad (by simp [Kept.frame])
  have x28 : load64 m (b + 152#64) = k.x28 := saved.quad (by simp [Kept.frame])
  have x29 : load64 m (b + 160#64) = k.x29 := saved.quad (by simp [Kept.frame])
  have x30 : load64 m (b + 168#64) = k.x30 := saved.quad (by simp [Kept.frame])
  have fpcr : (load64 m (b + 64#64)).setWidth 32 = k.fpcr := by
    have wide : load64 m (b + 64#64) = k.fpcr.setWidth 64 := saved.quad (by simp [Kept.frame])
    rw [wide]
    simp
  have a32 : b + 16#64 + 16#64 = b + 32#64 := add_offset b 16 16
  have a48 : b + 32#64 + 16#64 = b + 48#64 := add_offset b 32 16
  have a64 : b + 48#64 + 16#64 = b + 64#64 := add_offset b 48 16
  have a80 : b + 64#64 + 16#64 = b + 80#64 := add_offset b 64 16
  have a96 : b + 80#64 + 16#64 = b + 96#64 := add_offset b 80 16
  have a112 : b + 96#64 + 16#64 = b + 112#64 := add_offset b 96 16
  have a128 : b + 112#64 + 16#64 = b + 128#64 := add_offset b 112 16
  have a144 : b + 128#64 + 16#64 = b + 144#64 := add_offset b 128 16
  have a160 : b + 144#64 + 16#64 = b + 160#64 := add_offset b 144 16
  have a176 : b + 160#64 + 16#64 = b + 176#64 := add_offset b 160 16
  have h16 : b + 16#64 + 8#64 = b + 24#64 := add_offset b 16 8
  have h32 : b + 32#64 + 8#64 = b + 40#64 := add_offset b 32 8
  have h48 : b + 48#64 + 8#64 = b + 56#64 := add_offset b 48 8
  have h80 : b + 80#64 + 8#64 = b + 88#64 := add_offset b 80 8
  have h96 : b + 96#64 + 8#64 = b + 104#64 := add_offset b 96 8
  have h112 : b + 112#64 + 8#64 = b + 120#64 := add_offset b 112 8
  have h128 : b + 128#64 + 8#64 = b + 136#64 := add_offset b 128 8
  have h144 : b + 144#64 + 8#64 = b + 152#64 := add_offset b 144 8
  have h160 : b + 160#64 + 8#64 = b + 168#64 := add_offset b 160 8
  have on0 := saved.aligned
  have on16 : Aligned (b + 16#64) := saved.aligned.add 1
  have on32 : Aligned (b + 32#64) := saved.aligned.add 2
  have on48 : Aligned (b + 48#64) := saved.aligned.add 3
  have on64 : Aligned (b + 64#64) := saved.aligned.add 4
  have on80 : Aligned (b + 80#64) := saved.aligned.add 5
  have on96 : Aligned (b + 96#64) := saved.aligned.add 6
  have on112 : Aligned (b + 112#64) := saved.aligned.add 7
  have on128 : Aligned (b + 128#64) := saved.aligned.add 8
  have on144 : Aligned (b + 144#64) := saved.aligned.add 9
  have on160 : Aligned (b + 160#64) := saved.aligned.add 10
  have ran : (execAll restoreContext c m).map (fun r => (resumed r.1, r.2)) = some (k, m) := by
    simp only [restoreContext, execAll, exec, Cpu.set, Cpu.setD, top, Option.bind_some,
      Option.map_some, if_true, Function.update_self, fpcr,
      d8, d9, d10, d11, d12, d13, d14, d15, x19, x20, x21, x22, x23, x24, x25, x26, x27, x28, x29,
      x30, a32, a48, a64, a80, a96, a112, a128, a144, a160, a176, h16, h32, h48, h80, h96, h112,
      h128, h144, h160, on0, on16, on32, on48, on64, on80, on96, on112, on128, on144, on160]
    simp [resumed, caller, ← saved.above]
    exact congrArg (fun pc => { k with pc := pc }) saved.returns.symm
  obtain ⟨⟨c', m'⟩, ran, found⟩ := Option.map_eq_some_iff.mp ran
  obtain ⟨back, rfl⟩ := Prod.mk.inj found
  exact ⟨c', ran, back⟩

@[simp] theorem set_x_self (r : Fin 31) (value : BitVec 64) : (c.set r value).x r = value :=
  Function.update_self ..

theorem set_x_of_ne {r r' : Fin 31} (other : r' ≠ r) (value : BitVec 64) :
    (c.set r value).x r' = c.x r' :=
  Function.update_of_ne other ..

theorem set_sp (r : Fin 31) (value : BitVec 64) : (c.set r value).sp = c.sp := rfl

theorem saved_frame (top : c.sp = b + 176#64) (aligned : Aligned b) :
    Saved (writeAll m b (caller c).frame) b (caller c) where
  above := top
  aligned := aligned
  returns := rfl
  stored := stored_writeAll frame_fits (by norm_num) frame_clear

theorem contextSwitch_spec {sp : BitVec 64} (source : c.x 0 = src) (target : c.x 1 = dst)
    (top : c.sp = b + 176#64) (aligned : Aligned b) (slot : read m dst 8 = sp.toNat)
    (saved : Saved m sp k) (frame_src : Apart b 176 src 8) (frame_dst : Apart b 176 dst 8)
    (frames : Apart b 176 sp 176) (slots : Apart src 8 dst 8) (src_frame : Apart src 8 sp 176) :
    ∃ c' m', execAll contextSwitch c m = some (c', m') ∧ resumed c' = k ∧
      Saved m' b (caller c) ∧ read m' src 8 = b.toNat ∧
      ∀ x, ¬ Within b 176 x → ¬ Within src 8 x → m' x = m x := by
  have saves := saveContext_spec (m := m) top aligned
  have own := saved_frame (m := m) top aligned
  have outside (x : BitVec 64) (out : ¬ Within b 176 x) :
      writeAll m b (caller c).frame x = m x := writeAll_apart frame_fits (by norm_num) out
  generalize writeAll m b (caller c).frame = m₁ at saves own outside
  have other : Saved m₁ sp k := saved.congr fun x here => outside x (frames.symm x here)
  have address : read m₁ dst 8 = sp.toNat :=
    (read_congr fun x here => outside x (frame_dst.symm x here)).trans slot
  -- the slot of the caller gets the address of its frame
  have written : read (store64 m₁ src b) src 8 = b.toNat := read_store64
  have beside (x : BitVec 64) (out : ¬ Within src 8 x) : store64 m₁ src b x = m₁ x := if_neg out
  have own' : Saved (store64 m₁ src b) b (caller c) :=
    own.congr fun x here => beside x (frame_src x here)
  have other' : Saved (store64 m₁ src b) sp k :=
    other.congr fun x here => beside x (src_frame.symm x here)
  have loaded : load64 (store64 m₁ src b) dst = sp := load64_of_read
    ((read_congr fun x here => beside x (slots.symm x here)).trans address)
  have swapped := swapStacks_spec (c := { c with sp := b }.set 9 (c.fpcr.setWidth 64)) (m := m₁)
  rw [set_x_of_ne (by decide), set_x_of_ne (by decide), source, target, set_sp, loaded] at swapped
  obtain ⟨c', restored, back⟩ := restoreContext_spec (c := { ((({ c with sp := b }).set 9
    (c.fpcr.setWidth 64)).set 9 b).set 9 sp with sp := sp }) other' rfl
  refine ⟨c', _, ?_, back, own', written, fun x out out' => ?_⟩
  · rw [contextSwitch, List.append_assoc, execAll_append _ saves, execAll_append _ swapped, restored]
  · rw [beside x out', outside x out]

/-- `ContextSwitch` as a switch. -/
def port : Switching.Port Cpu Kept where
  size := 176
  caller c _ := caller c
  resumed := resumed
  room c := c.sp - 176#64
  Calls c src dst := c.x 0 = src ∧ c.x 1 = dst ∧ Aligned c.sp
  Saved := Saved
  run c m := execAll contextSwitch c m
  saved_congr saved same := saved.congr same
  switches := by
    rintro c m src dst sp k ⟨source, target, aligned⟩ slot saved frame_src frame_dst frames slots
      src_frame
    exact contextSwitch_spec source target (sub_add_cancel ..).symm (aligned.sub 11) slot saved
      frame_src frame_dst frames slots src_frame

/-! ## A first frame -/

/-- With what a context begins: the entry point is in `x19`. -/
def fresh (top trampoline entryPoint : BitVec 64) : Kept where
  x19 := entryPoint
  x20 := 0
  x21 := 0
  x22 := 0
  x23 := 0
  x24 := 0
  x25 := 0
  x26 := 0
  x27 := 0
  x28 := 0
  x29 := 0
  x30 := trampoline
  d8 := 0
  d9 := 0
  d10 := 0
  d11 := 0
  d12 := 0
  d13 := 0
  d14 := 0
  d15 := 0
  fpcr := 0
  sp := top
  pc := trampoline

/-- What `Fiber::Init` pushes. -/
def firstWords (trampoline entryPoint : BitVec 64) : List (BitVec 64) :=
  [trampoline, 0] ++ List.replicate 9 0 ++ [entryPoint, 0, 0] ++ List.replicate 8 0

/-- The first frame is one that a switch can return through. -/
theorem saved_first {trampoline entryPoint : BitVec 64} (aligned : Aligned b) :
    Saved (writeAll m b (pushed (firstWords trampoline entryPoint))) b
      (fresh (b + 176#64) trampoline entryPoint) where
  above := rfl
  aligned := aligned
  returns := rfl
  stored := by
    have stored := stored_pushed (m := m) (b := b) (firstWords trampoline entryPoint)
      (show 8 * 22 ≤ 2 ^ 64 by norm_num)
    refine fun f mem => stored f ?_
    simp only [Kept.frame, fresh, List.mem_cons, List.not_mem_nil, or_false] at mem
    simp only [firstWords, pushed, List.replicate, List.cons_append, List.nil_append,
      List.mem_cons, List.length_cons, List.length_nil]
    rcases mem with rfl | rfl | rfl | rfl | rfl | rfl | rfl | rfl | rfl | rfl | rfl | rfl | rfl |
      rfl | rfl | rfl | rfl | rfl | rfl | rfl | rfl <;> simp

section Init

variable (m) {stackBase stackSize ctx : BitVec 64} (trampoline entryPoint trap : BitVec 64)

/-- `Fiber::Init` leaves a first frame below the top of the stack, and its address in the slot. -/
theorem init_spec (top : alignDown (stackBase + stackSize) = b + 176#64) (aligned : Aligned b)
    (apart : Apart b 176 ctx 8) :
    Saved (init m stackBase stackSize ctx trampoline entryPoint) b
        (fresh (b + 176#64) trampoline entryPoint) ∧
      read (init m stackBase stackSize ctx trampoline entryPoint) ctx 8 = b.toNat ∧
      ∀ x, ¬ Within b 176 x → ¬ Within ctx 8 x →
        init m stackBase stackSize ctx trampoline entryPoint x = m x := by
  have writes : init m stackBase stackSize ctx trampoline entryPoint =
      store64 (writeAll m b (pushed (firstWords trampoline entryPoint))) ctx b := by
    have words : 176#64 = BitVec.ofNat 64 (8 * (firstWords trampoline entryPoint).length) := rfl
    rw [words] at top
    rw [init, top, ← firstWords, pushWords_eq]
  have beside (x : BitVec 64) (out : ¬ Within ctx 8 x) :
      init m stackBase stackSize ctx trampoline entryPoint x =
        writeAll m b (pushed (firstWords trampoline entryPoint)) x := by
    rw [writes]
    exact if_neg out
  refine ⟨?_, ?_, fun x out out' => ?_⟩
  · exact (saved_first aligned).congr fun x here => beside x (apart x here)
  · rw [writes]
    exact read_store64
  · rw [beside x out']
    exact writeAll_apart (pushed_fits _) (show 8 * 22 ≤ 2 ^ 64 by norm_num) out

/-- The trampoline calls the entry point on an aligned stack. -/
theorem fiberTrampoline_spec {top : BitVec 64} (aligned : Aligned top)
    (back : resumed c = fresh top trampoline entryPoint) :
    ∃ c' m', (fiberTrampoline trap).head?.bind (exec c m) = some (c', m') ∧
      c'.pc = entryPoint ∧ c'.x 30 = trap ∧ Aligned c'.sp ∧ c'.fpcr = 0 := by
  have x19 : c.x 19 = entryPoint := congrArg Kept.x19 back
  have sp : c.sp = top := congrArg Kept.sp back
  have link : (c.set 30 trap).x 30 = trap := set_x_self ..
  refine ⟨_, _, rfl, x19, link, ?_, congrArg Kept.fpcr back⟩
  rw [← sp] at aligned
  exact aligned

end Init

end JLibSched.Context.AArch64
