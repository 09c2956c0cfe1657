import Mathlib.Data.BitVec
import Mathlib.Tactic

/-!
# Bytes in memory

A memory gives a byte at every 64-bit address, and addresses wrap around.  A value of `k` bytes is
stored little-endian.  What lies at known distances from one base address is described by its
fields (`Stored`), which a sequence of stores that do not meet establishes (`stored_writeAll`) and
every change elsewhere keeps (`Stored.congr`).
-/

namespace Memory

abbrev Mem : Type := BitVec 64 → BitVec 8

/-- The address is one of the `k` bytes from `a`. -/
def Within (a : BitVec 64) (k : Nat) (x : BitVec 64) : Prop := (x - a).toNat < k

instance (a : BitVec 64) (k : Nat) (x : BitVec 64) : Decidable (Within a k x) :=
  inferInstanceAs (Decidable ((x - a).toNat < k))

def write (m : Mem) (a : BitVec 64) (k v : Nat) : Mem := fun x =>
  if Within a k x then BitVec.ofNat 8 (v / 256 ^ (x - a).toNat) else m x

def read (m : Mem) (a : BitVec 64) : Nat → Nat
  | 0 => 0
  | k + 1 => (m a).toNat + 256 * read m (a + 1#64) k

/-- No byte is in both places. -/
def Apart (a : BitVec 64) (k : Nat) (b : BitVec 64) (l : Nat) : Prop :=
  ∀ x, Within a k x → ¬ Within b l x

/-- Two memories have the same bytes in a place. -/
def Same (a : BitVec 64) (k : Nat) (m m' : Mem) : Prop := ∀ x, Within a k x → m' x = m x

variable {m m' : Mem} {a b x : BitVec 64} {i j k l v : Nat}

/-! ## Places -/

theorem Apart.symm (apart : Apart a k b l) : Apart b l a k :=
  fun x here there => apart x there here

/-- One place ends where the other one begins, or before. -/
theorem apart_of_le (before : a.toNat + k ≤ b.toNat) (inside : b.toNat + l ≤ 2 ^ 64) :
    Apart a k b l := by
  intro x here there
  rw [Within, BitVec.toNat_sub] at here there
  have small := x.isLt
  omega

theorem sub_offset (b : BitVec 64) (i d : Nat) :
    b + BitVec.ofNat 64 (i + d) - BitVec.ofNat 64 d = b + BitVec.ofNat 64 i := by
  rw [BitVec.ofNat_add, ← add_assoc, add_sub_cancel_right]

theorem add_offset (b : BitVec 64) (i d : Nat) :
    b + BitVec.ofNat 64 i + BitVec.ofNat 64 d = b + BitVec.ofNat 64 (i + d) := by
  rw [BitVec.ofNat_add, add_assoc]

/-- The place that begins `i` bytes behind `b`. -/
theorem within_offset (fits : i + k ≤ 2 ^ 64) :
    Within (b + BitVec.ofNat 64 i) k x ↔ i ≤ (x - b).toNat ∧ (x - b).toNat < i + k := by
  have shift : x - (b + BitVec.ofNat 64 i) = x - b - BitVec.ofNat 64 i := by
    rw [sub_add_eq_sub_sub]
  rw [Within, shift]
  generalize x - b = y
  have small := y.isLt
  rw [BitVec.toNat_sub, BitVec.toNat_ofNat]
  rcases Nat.lt_or_ge i (2 ^ 64) with inside | beyond
  · rw [Nat.mod_eq_of_lt inside]
    rcases Nat.lt_or_ge y.toNat i with before | behind
    · rw [Nat.mod_eq_of_lt (by omega)]
      omega
    · rw [show 2 ^ 64 - i + y.toNat = 2 ^ 64 + (y.toNat - i) by omega, Nat.add_mod_left,
        Nat.mod_eq_of_lt (by omega)]
      omega
  · obtain rfl : k = 0 := by omega
    omega

theorem within_succ (here : Within (a + 1#64) k x) : Within a (k + 1) x := by
  rw [Within] at here ⊢
  have next : x - a = x - (a + 1#64) + 1#64 := by
    rw [sub_add_eq_sub_sub, sub_add_cancel]
  rw [next, BitVec.toNat_add]
  have bound := Nat.mod_le ((x - (a + 1#64)).toNat + (1#64).toNat) (2 ^ 64)
  have one : (1#64).toNat = 1 := rfl
  omega

theorem within_self : Within a (k + 1) a := by
  rw [Within, BitVec.sub_self]
  exact Nat.succ_pos k

/-! ## Reading and writing -/

theorem read_congr (same : Same a k m m') : read m' a k = read m a k := by
  induction k generalizing a with
  | zero => rfl
  | succ k ih =>
    rw [read, read, same a within_self, ih fun x here => same x (within_succ here)]

theorem read_lt (k : Nat) : read m a k < 256 ^ k := by
  induction k generalizing a with
  | zero => exact Nat.one_pos
  | succ k ih =>
    have byte := (m a).isLt
    have rest := ih (a := a + 1#64)
    rw [read, pow_succ']
    omega

/-- A value is its low bytes and its high bytes. -/
theorem read_add (k l : Nat) :
    read m a (k + l) = read m a k + 256 ^ k * read m (a + BitVec.ofNat 64 k) l := by
  induction k generalizing a with
  | zero => simp [read]
  | succ k ih =>
    have next : a + 1#64 + BitVec.ofNat 64 k = a + BitVec.ofNat 64 (k + 1) := by
      rw [BitVec.add_assoc, Nat.add_comm k 1, BitVec.ofNat_add]
    rw [Nat.succ_add, read, ih, next, read, pow_succ']
    ring

theorem read_low (less : k ≤ l) : read m a k = read m a l % 256 ^ k := by
  obtain ⟨rest, rfl⟩ := Nat.exists_eq_add_of_le less
  rw [read_add, Nat.add_mul_mod_self_left, Nat.mod_eq_of_lt (read_lt k)]

theorem read_high (k l : Nat) :
    read m (a + BitVec.ofNat 64 k) l = read m a (k + l) / 256 ^ k := by
  rw [read_add, Nat.add_mul_div_left _ _ (by positivity), Nat.div_eq_of_lt (read_lt k), Nat.zero_add]

theorem write_same (apart : Apart a k b l) : Same b l m (write m a k v) := by
  intro x here
  exact if_neg (apart.symm x here)

/-- A value is read from its bytes. -/
theorem read_bytes (bytes : ∀ n < k, m (a + BitVec.ofNat 64 n) = BitVec.ofNat 8 (v / 256 ^ n)) :
    read m a k = v % 256 ^ k := by
  induction k generalizing a v with
  | zero => rw [read, Nat.pow_zero, Nat.mod_one]
  | succ k ih =>
    have first := bytes 0 (Nat.succ_pos k)
    rw [BitVec.add_zero, Nat.pow_zero, Nat.div_one] at first
    have rest : read m (a + 1#64) k = v / 256 % 256 ^ k := by
      refine ih fun n below => ?_
      have next : a + 1#64 + BitVec.ofNat 64 n = a + BitVec.ofNat 64 (n + 1) := by
        rw [BitVec.add_assoc]
        congr 1
        rw [Nat.add_comm, BitVec.ofNat_add]
      rw [next, bytes (n + 1) (Nat.succ_lt_succ below), Nat.pow_succ', Nat.div_div_eq_div_mul]
    rw [read, first, rest, BitVec.toNat_ofNat, pow_succ' 256 k, Nat.mod_mul]

theorem read_write (fits : k ≤ 2 ^ 64) (value : v < 256 ^ k) : read (write m a k v) a k = v := by
  refine (read_bytes fun n below => ?_).trans (Nat.mod_eq_of_lt value)
  have near : (a + BitVec.ofNat 64 n - a).toNat = n := by
    rw [add_sub_cancel_left, BitVec.toNat_ofNat]
    exact Nat.mod_eq_of_lt (by omega)
  rw [write, if_pos (by rw [Within, near]; exact below), near]

theorem read_write_apart (apart : i + k ≤ j ∨ j + l ≤ i) (fits : i + k ≤ 2 ^ 64)
    (fits' : j + l ≤ 2 ^ 64) :
    read (write m (b + BitVec.ofNat 64 i) k v) (b + BitVec.ofNat 64 j) l =
      read m (b + BitVec.ofNat 64 j) l := by
  refine read_congr (write_same fun x here there => ?_)
  rw [within_offset fits] at here
  rw [within_offset fits'] at there
  omega

/-! ## Fields -/

/-- A value at some distance from a base address. -/
structure Field where
  offset : Nat
  width : Nat
  value : Nat
deriving DecidableEq, Repr

/-- The fields end within `size` bytes, and their values fit. -/
def Field.Fits (size : Nat) (f : Field) : Prop :=
  f.offset + f.width ≤ size ∧ f.value < 256 ^ f.width

def Field.Clear (f g : Field) : Prop :=
  f.offset + f.width ≤ g.offset ∨ g.offset + g.width ≤ f.offset

/-- The fields are in memory. -/
def Stored (m : Mem) (b : BitVec 64) (fields : List Field) : Prop :=
  ∀ f ∈ fields, read m (b + BitVec.ofNat 64 f.offset) f.width = f.value

def writeAll (m : Mem) (b : BitVec 64) (fields : List Field) : Mem :=
  fields.foldl (fun m f => write m (b + BitVec.ofNat 64 f.offset) f.width f.value) m

variable {size : Nat} {fields : List Field}

theorem Stored.congr (stored : Stored m b fields) (fits : ∀ f ∈ fields, f.Fits size)
    (small : size ≤ 2 ^ 64) (same : Same b size m m') : Stored m' b fields := by
  intro f mem
  obtain ⟨ends, -⟩ := fits f mem
  rw [← stored f mem]
  refine read_congr fun x here => same x ?_
  exact Nat.lt_of_lt_of_le ((within_offset (by omega)).mp here).2 ends

/-- Stores of fields change nothing else. -/
theorem writeAll_apart (fits : ∀ f ∈ fields, f.Fits size) (small : size ≤ 2 ^ 64)
    (outside : ¬ Within b size x) : writeAll m b fields x = m x := by
  induction fields generalizing m with
  | nil => rfl
  | cons f fields ih =>
    obtain ⟨ends, -⟩ := fits f List.mem_cons_self
    refine (ih fun g mem => fits g (List.mem_cons_of_mem f mem)).trans (if_neg fun here => ?_)
    exact outside (Nat.lt_of_lt_of_le ((within_offset (by omega)).mp here).2 ends)

/-- A value that no store meets stays. -/
theorem read_writeAll (fits : ∀ f ∈ fields, f.Fits size) (small : size ≤ 2 ^ 64) {g : Field}
    (ends : g.offset + g.width ≤ size) (clear : ∀ f ∈ fields, f.Clear g) :
    read (writeAll m b fields) (b + BitVec.ofNat 64 g.offset) g.width =
      read m (b + BitVec.ofNat 64 g.offset) g.width := by
  induction fields generalizing m with
  | nil => rfl
  | cons f fields ih =>
    obtain ⟨within, -⟩ := fits f List.mem_cons_self
    refine (ih (fun h mem => fits h (List.mem_cons_of_mem f mem))
      fun h mem => clear h (List.mem_cons_of_mem f mem)).trans ?_
    exact read_write_apart (clear f List.mem_cons_self) (by omega) (by omega)

/-- Stores that do not meet leave all their fields. -/
theorem stored_writeAll (fits : ∀ f ∈ fields, f.Fits size) (small : size ≤ 2 ^ 64)
    (apart : fields.Pairwise Field.Clear) : Stored (writeAll m b fields) b fields := by
  induction fields generalizing m with
  | nil => exact fun f absurd => (List.not_mem_nil absurd).elim
  | cons f fields ih =>
    obtain ⟨clear, others⟩ := List.pairwise_cons.mp apart
    have rest (g : Field) (mem : g ∈ fields) : g.Fits size := fits g (List.mem_cons_of_mem f mem)
    intro g mem
    rcases List.mem_cons.mp mem with rfl | later
    · obtain ⟨ends, value⟩ := fits g List.mem_cons_self
      have kept := read_writeAll (b := b)
        (m := write m (b + BitVec.ofNat 64 g.offset) g.width g.value) rest small ends
        fun h mem => (clear h mem).symm
      exact kept.trans (read_write (by omega) value)
    · exact ih rest others g later

/-! ## Quadwords -/

def load64 (m : Mem) (a : BitVec 64) : BitVec 64 := BitVec.ofNat 64 (read m a 8)

def store64 (m : Mem) (a value : BitVec 64) : Mem := write m a 8 value.toNat

theorem read_store64 {value : BitVec 64} : read (store64 m a value) a 8 = value.toNat :=
  read_write (by norm_num) value.isLt

/-- A quadword is loaded as it was stored. -/
theorem load64_of_read {value : BitVec 64} (stored : read m a 8 = value.toNat) :
    load64 m a = value := by
  rw [load64, stored, BitVec.ofNat_toNat, BitVec.setWidth_eq]

theorem load64_toNat : (load64 m a).toNat = read m a 8 := by
  rw [load64, BitVec.toNat_ofNat]
  exact Nat.mod_eq_of_lt (read_lt 8)

/-- `*(--sp) = value` for each of the values. -/
def pushWords (m : Mem) (sp : BitVec 64) : List (BitVec 64) → Mem × BitVec 64
  | [] => (m, sp)
  | value :: values => pushWords (store64 m (sp - 8#64) value) (sp - 8#64) values

/-- The values from the last one up. -/
def pushed : List (BitVec 64) → List Field
  | [] => []
  | value :: values => ⟨8 * values.length, 8, value.toNat⟩ :: pushed values

theorem pushWords_eq (values : List (BitVec 64)) :
    pushWords m (b + BitVec.ofNat 64 (8 * values.length)) values =
      (writeAll m b (pushed values), b) := by
  induction values generalizing m with
  | nil =>
    rw [List.length_nil, Nat.mul_zero, BitVec.add_zero]
    rfl
  | cons value values ih =>
    rw [pushWords, List.length_cons, Nat.mul_succ, sub_offset, ih]
    rfl

theorem pushed_fits (values : List (BitVec 64)) :
    ∀ f ∈ pushed values, f.Fits (8 * values.length) := by
  induction values with
  | nil => exact fun f absurd => (List.not_mem_nil absurd).elim
  | cons value values ih =>
    intro f mem
    rw [List.length_cons]
    rcases List.mem_cons.mp mem with rfl | later
    · exact ⟨Nat.le_refl _, value.isLt⟩
    · obtain ⟨ends, fits⟩ := ih f later
      exact ⟨by omega, fits⟩

theorem pushed_clear (values : List (BitVec 64)) : (pushed values).Pairwise Field.Clear := by
  induction values with
  | nil => exact .nil
  | cons value values ih =>
    refine .cons (fun f mem => ?_) ih
    exact .inr (pushed_fits values f mem).1

theorem stored_pushed (values : List (BitVec 64)) (small : 8 * values.length ≤ 2 ^ 64) :
    Stored (writeAll m b (pushed values)) b (pushed values) :=
  stored_writeAll (pushed_fits values) small (pushed_clear values)

/-! ## Aligned addresses -/

def Aligned (a : BitVec 64) : Prop := a.toNat % 16 = 0

instance (a : BitVec 64) : Decidable (Aligned a) := inferInstanceAs (Decidable (a.toNat % 16 = 0))

/-- `& ~0xF`. -/
def alignDown (a : BitVec 64) : BitVec 64 := a &&& ~~~0xF#64

theorem alignDown_aligned (a : BitVec 64) : Aligned (alignDown a) := by
  have low : (a &&& ~~~0xF#64) &&& 0xF#64 = 0#64 := by
    rw [BitVec.and_assoc, show ~~~0xF#64 &&& 0xF#64 = 0#64 by decide, BitVec.and_zero]
  have bits := congrArg BitVec.toNat low
  rw [BitVec.toNat_and] at bits
  exact (Nat.and_two_pow_sub_one_eq_mod _ 4).symm.trans bits

/-- An address at a multiple of 16 from an aligned one. -/
theorem Aligned.add (aligned : Aligned b) (i : Nat) : Aligned (b + BitVec.ofNat 64 (16 * i)) := by
  rw [Aligned] at aligned ⊢
  rw [BitVec.toNat_add, BitVec.toNat_ofNat]
  omega

theorem Aligned.sub (aligned : Aligned b) (i : Nat) : Aligned (b - BitVec.ofNat 64 (16 * i)) := by
  have small := b.isLt
  rw [Aligned] at aligned ⊢
  rw [BitVec.toNat_sub, BitVec.toNat_ofNat]
  omega

end Memory
