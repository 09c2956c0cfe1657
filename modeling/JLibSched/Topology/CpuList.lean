import Mathlib.Tactic

/-!
# Lists of processors

The kernel writes a set of processors as a list such as `0-3,8`.  `ParseCpuList` reads one into a
mask of 256 bits.  It reads a number with `strtol`, which may skip white space and take a sign, and
a second one when a minus follows.  It stops at the first place where there is no number.

A number beyond a `long` is read as the greatest one, and the loop over a range ends at the end of
the mask, so a list may name processors that the mask does not have.
-/

namespace JLibSched.Topology

/-! ## Masks -/

/-- `kWords`. -/
def words : Nat := 4

/-- `kMaxCpus`. -/
def maxCpus : Nat := words * 64

/-- `CpuMask`.  Whether a word below `words` is meant is for the operations to see to. -/
structure CpuMask where
  w : Nat → BitVec 64

namespace CpuMask

def empty : CpuMask := ⟨fun _ => 0⟩

/-- `Set`. -/
def set (m : CpuMask) (c : Nat) : CpuMask :=
  if c < maxCpus then ⟨Function.update m.w (c / 64) (m.w (c / 64) ||| 1#64 <<< (c % 64))⟩ else m

/-- `Test`. -/
def test (m : CpuMask) (c : Nat) : Bool :=
  c < maxCpus && (m.w (c / 64) >>> (c % 64)) &&& 1#64 != 0#64

end CpuMask

/-! ## Numbers -/

/-- `LONG_MAX`. -/
def longMax : Int := 2 ^ 63 - 1

/-- `LONG_MIN`. -/
def longMin : Int := -2 ^ 63

/-- `isspace`. -/
def isSpace (c : Char) : Bool := c = ' ' || 9 ≤ c.toNat && c.toNat ≤ 13

def isDigit (c : Char) : Bool := 48 ≤ c.toNat && c.toNat ≤ 57

/-- The number that digits write. -/
def value (digits : List Char) : Nat := digits.foldl (fun n c => 10 * n + (c.toNat - 48)) 0

/-- A number as a `long`. -/
def saturate (n : Int) : Int := max longMin (min n longMax)

/-- The optional sign. -/
def sign : List Char → Int × List Char
  | '-' :: rest => (-1, rest)
  | '+' :: rest => (1, rest)
  | rest => (1, rest)

/-- `strtol`: the number and what follows it, if there is one. -/
def strtol (p : List Char) : Option (Int × List Char) :=
  let s := sign (p.dropWhile isSpace)
  if s.2.takeWhile isDigit = [] then none
  else some (saturate (s.1 * value (s.2.takeWhile isDigit)), s.2.dropWhile isDigit)

/-! ## `ParseCpuList` -/

def isSeparator (c : Char) : Bool := c = ',' || c = ' ' || c = '\n'

/-- The loop over a range. -/
def setRange (m : CpuMask) (c hi : Int) : CpuMask :=
  if c ≤ hi ∧ c < maxCpus then setRange (if 0 ≤ c then m.set c.toNat else m) (c + 1) hi else m
termination_by (maxCpus - c).toNat
decreasing_by omega

/-- What one round reads: the ends of a range, and what follows. -/
def readRange (p : List Char) : Option (Int × Int × List Char) :=
  match strtol (p.dropWhile isSeparator) with
  | none => none
  | some (lo, '-' :: p) => (strtol p).map fun hi => (lo, hi.1, hi.2)
  | some (lo, p) => some (lo, lo, p)

theorem sign_length (p : List Char) : (sign p).2.length ≤ p.length := by
  unfold sign
  split
  · exact Nat.le_succ _
  · exact Nat.le_succ _
  · exact Nat.le_refl _

/-- A number takes at least one character. -/
theorem strtol_length {p rest : List Char} {n : Int} (read : strtol p = some (n, rest)) :
    rest.length < p.length := by
  unfold strtol at read
  simp only at read
  split at read
  · cases read
  · rename_i some
    cases read
    have signed := sign_length (p.dropWhile isSpace)
    have spaces := (List.dropWhile_suffix (l := p) isSpace).length_le
    have whole := congrArg List.length
      (List.takeWhile_append_dropWhile (p := isDigit) (l := (sign (p.dropWhile isSpace)).2))
    have positive := List.length_pos_iff.mpr some
    rw [List.length_append] at whole
    omega

theorem readRange_length {p rest : List Char} {lo hi : Int}
    (read : readRange p = some (lo, hi, rest)) : rest.length < p.length := by
  unfold readRange at read
  have gap := (List.dropWhile_suffix (l := p) isSeparator).length_le
  split at read
  · cases read
  · rename_i first
    obtain ⟨second, there, same⟩ := Option.map_eq_some_iff.mp read
    cases same
    have one := strtol_length first
    have two := strtol_length there
    rw [List.length_cons] at one
    omega
  · rename_i first
    cases read
    have one := strtol_length first
    omega

/-- The outer loop. -/
def parseFrom (m : CpuMask) (p : List Char) : CpuMask :=
  match _ : readRange p with
  | none => m
  | some (lo, hi, rest) => parseFrom (setRange m lo hi) rest
termination_by p.length
decreasing_by exact readRange_length ‹_›

/-- `ParseCpuList`.  A C string ends at the first null character. -/
def parseCpuList (s : List Char) : CpuMask :=
  parseFrom .empty (s.takeWhile fun c => c.toNat ≠ 0)

/-! ## What is set -/

/-- Nothing is written beyond the words of the mask. -/
def CpuMask.Within (m : CpuMask) : Prop := ∀ k, words ≤ k → m.w k = 0

theorem test_iff (m : CpuMask) (c : Nat) :
    m.test c = true ↔ c < maxCpus ∧ (m.w (c / 64)).getLsbD (c % 64) = true := by
  have bit : (m.w (c / 64) >>> (c % 64)) &&& 1#64 ≠ 0#64 ↔
      (m.w (c / 64)).getLsbD (c % 64) = true := by
    rw [BitVec.and_one_eq_setWidth_ofBool_getLsbD, BitVec.getLsbD_ushiftRight, Nat.add_zero]
    cases (m.w (c / 64)).getLsbD (c % 64) with
    | false => decide
    | true => decide
  unfold CpuMask.test
  rw [Bool.and_eq_true, decide_eq_true_iff, bne_iff_ne, bit]

theorem test_set (m : CpuMask) {c x : Nat} (inside : c < maxCpus) :
    (m.set c).test x = true ↔ m.test x = true ∨ x = c := by
  rw [test_iff, test_iff]
  unfold CpuMask.set
  rw [if_pos inside]
  simp only
  by_cases word : x / 64 = c / 64
  · rw [word, Function.update_self, BitVec.getLsbD_or, Bool.or_eq_true, BitVec.getLsbD_shiftLeft,
      BitVec.getLsbD_one]
    have bit : x % 64 < 64 := Nat.mod_lt x (by decide)
    simp only [bit, decide_true, Bool.true_and, Bool.and_eq_true, Bool.not_eq_true',
      decide_eq_false_iff_not, decide_eq_true_eq]
    constructor
    · rintro ⟨below, old | new⟩
      · exact .inl ⟨below, old⟩
      · exact .inr (by omega)
    · rintro (⟨below, old⟩ | same)
      · exact ⟨below, .inl old⟩
      · exact ⟨same ▸ inside, .inr (by omega)⟩
  · rw [Function.update_of_ne word]
    constructor
    · exact .inl
    · rintro (old | rfl)
      · exact old
      · exact absurd rfl word

theorem set_within {m : CpuMask} (within : m.Within) (c : Nat) : (m.set c).Within := by
  intro k beyond
  unfold CpuMask.set
  split
  · rename_i inside
    unfold maxCpus at inside
    have other : k ≠ c / 64 := by omega
    exact (Function.update_of_ne other _ _).trans (within k beyond)
  · exact within k beyond

theorem setRange_within {m : CpuMask} (within : m.Within) (c hi : Int) :
    (setRange m c hi).Within := by
  induction m, c using setRange.induct hi with
  | case1 m c more ih =>
    rw [setRange, if_pos more]
    refine ih ?_
    split
    · exact set_within within _
    · exact within
  | case2 m c ended =>
    rw [setRange, if_neg ended]
    exact within

theorem test_setRange (m : CpuMask) (c hi : Int) (x : Nat) :
    (setRange m c hi).test x = true ↔
      m.test x = true ∨ x < maxCpus ∧ c ≤ x ∧ (x : Int) ≤ hi := by
  induction m, c using setRange.induct hi with
  | case1 m c more ih =>
    simp only [dite_eq_ite] at ih
    rw [setRange, if_pos more, ih]
    by_cases positive : 0 ≤ c
    · rw [if_pos positive, test_set m (by omega)]
      have same : x = c.toNat ↔ (x : Int) = c := by omega
      rw [same]
      constructor
      · rintro ((old | new) | ⟨inside, low, high⟩)
        · exact .inl old
        · exact .inr (by omega)
        · exact .inr (by omega)
      · rintro (old | ⟨inside, low, high⟩)
        · exact .inl (.inl old)
        · by_cases first : (x : Int) = c
          · exact .inl (.inr first)
          · exact .inr (by omega)
    · rw [if_neg positive]
      refine or_congr_right ⟨fun later => ?_, fun now => ?_⟩
      · omega
      · omega
  | case2 m c ended =>
    rw [setRange, if_neg ended]
    refine ⟨.inl, fun either => either.resolve_right fun new => ended ?_⟩
    omega

/-- One round of the outer loop. -/
theorem parseFrom_round (m : CpuMask) {p rest : List Char} {lo hi : Int}
    (read : readRange p = some (lo, hi, rest)) :
    parseFrom m p = parseFrom (setRange m lo hi) rest := by
  rw [parseFrom]
  split
  · rename_i none
    rw [read] at none
    cases none
  · rename_i some
    rw [read] at some
    cases some
    rfl

theorem parseFrom_end (m : CpuMask) {p : List Char} (none : readRange p = none) :
    parseFrom m p = m := by
  rw [parseFrom]
  split
  · rfl
  · rename_i some
    rw [none] at some
    cases some

theorem parseFrom_within {m : CpuMask} (within : m.Within) (p : List Char) :
    (parseFrom m p).Within := by
  induction m, p using parseFrom.induct with
  | case1 m p none =>
    rw [parseFrom_end m none]
    exact within
  | case2 m p lo hi rest read ih =>
    rw [parseFrom_round m read]
    exact ih (setRange_within within lo hi)

/-! ## Lists as the kernel writes them -/

/-- An item: a number, or two with a minus between them. -/
inductive Written : List Char → Nat × Nat → Prop where
  | single {d : List Char} (some : d ≠ []) (digits : ∀ c ∈ d, isDigit c = true) :
      Written d (value d, value d)
  | range {d e : List Char} (some : d ≠ []) (digits : ∀ c ∈ d, isDigit c = true)
      (some' : e ≠ []) (digits' : ∀ c ∈ e, isDigit c = true) :
      Written (d ++ '-' :: e) (value d, value e)

/-- Items with separators around them, at least one between two. -/
inductive Listed : List Char → List (Nat × Nat) → Prop where
  | done {gap : List Char} (separators : ∀ c ∈ gap, isSeparator c = true) : Listed gap []
  | item {gap text rest : List Char} {range : Nat × Nat} {ranges : List (Nat × Nat)}
      (separators : ∀ c ∈ gap, isSeparator c = true) (written : Written text range)
      (apart : ∀ c ∈ rest.head?, isSeparator c = true) (listed : Listed rest ranges) :
      Listed (gap ++ text ++ rest) (range :: ranges)

/-- The next character is no digit. -/
def Stops (rest : List Char) : Prop := ∀ c ∈ rest.head?, isDigit c = false

theorem digit_plain {c : Char} (digit : isDigit c = true) :
    isSpace c = false ∧ isSeparator c = false ∧ c ≠ '-' ∧ c ≠ '+' ∧ c.toNat ≠ 0 := by
  unfold isDigit at digit
  rw [Bool.and_eq_true, decide_eq_true_iff, decide_eq_true_iff] at digit
  have other {x : Char} (outside : x.toNat < 48) : c ≠ x := by
    rintro rfl
    omega
  refine ⟨?_, ?_, other (by decide), other (by decide), by omega⟩
  · unfold isSpace
    rw [Bool.or_eq_false_iff, decide_eq_false_iff_not, Bool.and_eq_false_iff,
      decide_eq_false_iff_not, decide_eq_false_iff_not]
    exact ⟨other (by decide), .inr (by omega)⟩
  · unfold isSeparator
    rw [Bool.or_eq_false_iff, Bool.or_eq_false_iff, decide_eq_false_iff_not,
      decide_eq_false_iff_not, decide_eq_false_iff_not]
    exact ⟨⟨other (by decide), other (by decide)⟩, other (by decide)⟩

theorem separator_stops {c : Char} (separator : isSeparator c = true) :
    isDigit c = false ∧ c ≠ '-' ∧ c.toNat ≠ 0 := by
  unfold isSeparator at separator
  rw [Bool.or_eq_true, Bool.or_eq_true, decide_eq_true_iff, decide_eq_true_iff,
    decide_eq_true_iff] at separator
  rcases separator with (rfl | rfl) | rfl
  · decide
  · decide
  · decide

theorem takeWhile_stops {rest : List Char} (stops : Stops rest) :
    rest.takeWhile isDigit = [] ∧ rest.dropWhile isDigit = rest := by
  cases rest with
  | nil => exact ⟨rfl, rfl⟩
  | cons c rest =>
    have other : isDigit c = false := stops c rfl
    exact ⟨List.takeWhile_cons_of_neg (by rw [other]; decide),
      List.dropWhile_cons_of_neg (by rw [other]; decide)⟩

theorem sign_plain {c : Char} (rest : List Char) (minus : c ≠ '-') (plus : c ≠ '+') :
    sign (c :: rest) = (1, c :: rest) := by
  unfold sign
  split
  · rename_i same
    exact absurd (List.cons.inj same).1 minus
  · rename_i same
    exact absurd (List.cons.inj same).1 plus
  · rfl

/-- Digits are read to their end. -/
theorem strtol_digits {d rest : List Char} (some : d ≠ []) (digits : ∀ c ∈ d, isDigit c = true)
    (stops : Stops rest) : strtol (d ++ rest) = Option.some (saturate (value d), rest) := by
  obtain ⟨c, tail, rfl⟩ := List.exists_cons_of_ne_nil some
  obtain ⟨space, -, minus, plus, -⟩ := digit_plain (digits c List.mem_cons_self)
  obtain ⟨front, back⟩ := takeWhile_stops stops
  have start : (c :: tail ++ rest).dropWhile isSpace = c :: tail ++ rest :=
    List.dropWhile_cons_of_neg (by rw [space]; decide)
  have number : (c :: tail ++ rest).takeWhile isDigit = c :: tail := by
    rw [List.takeWhile_append_of_pos digits, front, List.append_nil]
  have behind : (c :: tail ++ rest).dropWhile isDigit = rest := by
    rw [List.dropWhile_append_of_pos digits, back]
  have signed : sign (c :: tail ++ rest) = (1, c :: tail ++ rest) := sign_plain _ minus plus
  unfold strtol
  simp only [start, signed, number, behind, Int.one_mul]
  rw [if_neg some]

/-- Between the items nothing is read. -/
theorem dropWhile_gap {gap rest : List Char} (separators : ∀ c ∈ gap, isSeparator c = true) :
    (gap ++ rest).dropWhile isSeparator = rest.dropWhile isSeparator :=
  List.dropWhile_append_of_pos separators

/-- An item is read as its range. -/
theorem readRange_written {gap text rest : List Char} {range : Nat × Nat}
    (separators : ∀ c ∈ gap, isSeparator c = true) (written : Written text range)
    (apart : ∀ c ∈ rest.head?, isSeparator c = true) :
    readRange (gap ++ text ++ rest) = some (saturate range.1, saturate range.2, rest) := by
  have stops : Stops rest := fun c first => (separator_stops (apart c first)).1
  have begins {d more : List Char} (some : d ≠ []) (digits : ∀ c ∈ d, isDigit c = true) :
      (d ++ more).dropWhile isSeparator = d ++ more := by
    obtain ⟨c, tail, rfl⟩ := List.exists_cons_of_ne_nil some
    have plain := (digit_plain (digits c List.mem_cons_self)).2.1
    exact List.dropWhile_cons_of_neg (by rw [plain]; decide)
  unfold readRange
  rw [List.append_assoc, dropWhile_gap separators]
  cases written with
  | single some digits =>
    rw [begins some digits, strtol_digits some digits stops]
    cases rest with
    | nil => rfl
    | cons c rest =>
      have other := (separator_stops (apart c rfl)).2.1
      split
      · rename_i none
        cases none
      · rename_i same
        cases same
        exact absurd rfl other
      · rename_i same
        cases same
        rfl
  | @range d e some digits some' digits' =>
    have minus : Stops ('-' :: e ++ rest) := fun c first => by
      cases first
      decide
    rw [List.append_assoc, begins some digits, strtol_digits some digits minus,
      List.cons_append]
    simp only
    rw [strtol_digits some' digits' stops]
    rfl

/-- A gap without items reads nothing. -/
theorem readRange_gap {gap : List Char} (separators : ∀ c ∈ gap, isSeparator c = true) :
    readRange gap = none := by
  have empty : gap.dropWhile isSeparator = [] := by
    rw [← List.append_nil gap, dropWhile_gap separators]
    rfl
  unfold readRange
  rw [empty]
  rfl

/-- A processor of the mask lies between two numbers if it lies between what is read of them. -/
theorem saturate_between (lo hi c : Nat) (inside : c < maxCpus) :
    saturate lo ≤ c ∧ (c : Int) ≤ saturate hi ↔ lo ≤ c ∧ c ≤ hi := by
  unfold saturate longMin longMax
  unfold maxCpus words at inside
  omega

/-- What is left of a list adds what its items name. -/
theorem test_parseFrom {p : List Char} {ranges : List (Nat × Nat)} (listed : Listed p ranges)
    (m : CpuMask) {c : Nat} (inside : c < maxCpus) :
    (parseFrom m p).test c = true ↔
      m.test c = true ∨ ∃ range ∈ ranges, range.1 ≤ c ∧ c ≤ range.2 := by
  induction listed generalizing m with
  | done separators =>
    rw [parseFrom_end m (readRange_gap separators)]
    simp
  | item separators written apart listed ih =>
    rw [parseFrom_round m (readRange_written separators written apart), ih, test_setRange,
      saturate_between _ _ c inside]
    simp only [inside, true_and, List.exists_mem_cons_iff, or_assoc]

/-- There is no null character in a list. -/
theorem listed_nonnull {p : List Char} {ranges : List (Nat × Nat)} (listed : Listed p ranges) :
    ∀ c ∈ p, c.toNat ≠ 0 := by
  have plain {d : List Char} (digits : ∀ c ∈ d, isDigit c = true) : ∀ c ∈ d, c.toNat ≠ 0 :=
    fun c mem => (digit_plain (digits c mem)).2.2.2.2
  induction listed with
  | done separators => exact fun c mem => (separator_stops (separators c mem)).2.2
  | item separators written apart listed ih =>
    intro c mem
    rw [List.mem_append, List.mem_append] at mem
    rcases mem with (gap | text) | rest
    · exact (separator_stops (separators c gap)).2.2
    · cases written with
      | single some digits => exact plain digits c text
      | range some digits some' digits' =>
        rw [List.mem_append, List.mem_cons] at text
        rcases text with first | rfl | second
        · exact plain digits c first
        · decide
        · exact plain digits' c second
    · exact ih c rest

/-- Every string is read to an end without a bit beyond the mask being set, and for a list as the
kernel writes them the mask has the processors that its items name. -/
theorem parseCpuList_exact (s : List Char) :
    ((parseCpuList s).Within ∧ ∀ c, (parseCpuList s).test c = true → c < maxCpus) ∧
    ∀ ranges, Listed s ranges → ∀ c < maxCpus, (parseCpuList s).test c = true ↔
      ∃ range ∈ ranges, range.1 ≤ c ∧ c ≤ range.2 := by
  refine ⟨⟨parseFrom_within (fun _ _ => rfl) _, fun c set => ((test_iff _ c).mp set).1⟩,
    fun ranges listed c inside => ?_⟩
  have whole : s.takeWhile (fun c => c.toNat ≠ 0) = s := by
    have plain : (s ++ []).takeWhile (fun c => c.toNat ≠ 0) = s ++ [] :=
      List.takeWhile_append_of_pos fun c mem => decide_eq_true (listed_nonnull listed c mem)
    rw [List.append_nil] at plain
    exact plain
  unfold parseCpuList
  rw [whole, test_parseFrom listed _ inside]
  have none : CpuMask.empty.test c ≠ true := by
    rw [Ne, test_iff]
    simp [CpuMask.empty]
  exact or_iff_right none

/-- A list with a range and a processor, as it stands in a file. -/
theorem parseCpuList_file : (parseCpuList ['0', '-', '2', ',', '8', '\n']).test 1 = true ∧
    (parseCpuList ['0', '-', '2', ',', '8', '\n']).test 3 ≠ true := by
  have first : Written ['0', '-', '2'] (0, 2) :=
    @Written.range ['0'] ['2'] (by decide) (List.all_eq_true.mp rfl) (by decide)
      (List.all_eq_true.mp rfl)
  have second : Written ['8'] (8, 8) := .single (by decide) (List.all_eq_true.mp rfl)
  have last : Listed ['\n'] [] := .done (List.all_eq_true.mp rfl)
  have behind : Listed [',', '8', '\n'] [(8, 8)] :=
    @Listed.item [','] ['8'] ['\n'] (8, 8) [] (List.all_eq_true.mp rfl) second
      (fun c here => Option.some.inj here ▸ rfl) last
  have listed : Listed ['0', '-', '2', ',', '8', '\n'] [(0, 2), (8, 8)] :=
    @Listed.item [] ['0', '-', '2'] [',', '8', '\n'] (0, 2) [(8, 8)] (List.all_eq_true.mp rfl) first
      (fun c here => Option.some.inj here ▸ rfl) behind
  have exact := (parseCpuList_exact _).2 _ listed
  exact ⟨(exact 1 (by decide)).mpr (by decide), fun set =>
    absurd ((exact 3 (by decide)).mp set) (by decide)⟩

end JLibSched.Topology
