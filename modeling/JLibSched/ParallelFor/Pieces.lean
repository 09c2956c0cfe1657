import JLibSched.ParallelFor.Lazy
import JLibSched.ParallelFor.Drawn

/-!
# What lazy splitting covers

At every moment the calls that have begun, what is left to the pieces and the parts that are still
with the caller meet each index once (`Inv.once`).  A piece keeps the first index it was given, so
there are never more shares than indices, and the bits of the count do not run into the waiter bit
once the caller has given up its own.
-/

namespace JLibSched.ParallelFor.Lazy

open Transition Ranges

variable {job : Job} {s t : State} {parts i k : Nat} {p : Piece} {x : Int}

theorem sum_map_set_of {α M : Type} [AddCommMonoid M] {l : List α} {k : Nat} {a : α}
    (found : l[k]? = some a) (f : α → M) (b : α) :
    ((l.set k b).map f).sum + f a = (l.map f).sum + f b := by
  induction l generalizing k with
  | nil => cases found
  | cons c l ih =>
    cases k with
    | zero =>
      cases found
      rw [List.set_cons_zero, List.map_cons, List.map_cons, List.sum_cons, List.sum_cons,
        add_right_comm, add_comm (f b), add_right_comm]
    | succ k =>
      rw [List.set_cons_succ, List.map_cons, List.map_cons, List.sum_cons, List.sum_cons,
        add_assoc, add_assoc, ih found]

/-! ## Numbers that stay `int`s -/

theorem Job.wrap_index (job : Job) (low : job.start ≤ x) (high : x ≤ job.stop) : wrap x = x :=
  wrap_of_int (job.start_int.trans low) (high.trans job.stop_int)

theorem Job.wrap_length (job : Job) (low : 0 ≤ x) (high : x ≤ job.stop - job.start) :
    wrap x = x := by
  have length := job.length_le
  refine wrap_of_int ?_ ?_
  · unfold IntMin
    omega
  · unfold IntMax
    omega

theorem Job.wrap_double (job : Job) : wrap (2 * job.grain) = 2 * job.grain := by
  have least := job.grain_pos
  have most := job.grain_le
  refine wrap_of_int ?_ ?_
  · unfold IntMin
    omega
  · unfold IntMax
    omega

/-! ## Parts -/

/-- The parts are at most as many as the indices. -/
structure Fair (job : Job) (parts : Nat) : Prop where
  some : 1 ≤ parts
  few : (parts : Int) ≤ job.stop - job.start

theorem Job.parts_fair (job : Job) (others : Nat) : Fair job (job.parts others) := by
  have ordered := job.ordered
  have least := job.grain_pos
  have most : (job.stop - job.start) / job.grain ≤ job.stop - job.start :=
    Int.ediv_le_self _ (by omega)
  unfold Job.parts
  generalize (job.stop - job.start) / job.grain = maxParts at most
  dsimp only
  constructor
  · split
    · split <;> omega
    · omega
  · split
    · split <;> omega
    · omega

theorem Fair.share (fair : Fair job parts) (inside : i ≤ parts) :
    0 ≤ (job.stop - job.start) * i / parts ∧
      (job.stop - job.start) * i / parts ≤ job.stop - job.start := by
  have ordered := job.ordered
  have some := fair.some
  have positive : (0 : Int) < parts := by omega
  have total : 0 ≤ job.stop - job.start := by omega
  constructor
  · exact Int.ediv_nonneg (Int.mul_nonneg total (Int.natCast_nonneg i)) positive.le
  · refine Int.ediv_le_of_le_mul positive ?_
    exact Int.mul_le_mul_of_nonneg_left (Int.ofNat_le.mpr inside) total

theorem Fair.bound_eq (fair : Fair job parts) (inside : i ≤ parts) :
    job.bound parts i = job.start + (job.stop - job.start) * i / parts := by
  obtain ⟨low, high⟩ := fair.share inside
  unfold Job.bound
  rw [job.wrap_length low high, job.wrap_index (by omega) (by omega)]

theorem Fair.bound_zero (fair : Fair job parts) : job.bound parts 0 = job.start := by
  rw [fair.bound_eq (Nat.zero_le _), Int.natCast_zero, Int.mul_zero, Int.zero_ediv, Int.add_zero]

theorem Fair.bound_last (fair : Fair job parts) : job.bound parts parts = job.stop := by
  have some := fair.some
  rw [fair.bound_eq (le_refl _), Int.mul_ediv_cancel _ (by omega)]
  omega

/-- Each part has an index at least. -/
theorem Fair.bound_lt (fair : Fair job parts) (inside : i < parts) :
    job.bound parts i < job.bound parts (i + 1) := by
  have few := fair.few
  have positive : (0 : Int) < parts := by omega
  rw [fair.bound_eq inside.le, fair.bound_eq (i := i + 1) inside]
  have more : (job.stop - job.start) * i + 1 * parts ≤
      (job.stop - job.start) * ((i + 1 : Nat) : Int) := by
    rw [Int.natCast_add, Int.mul_add, Int.natCast_one, Int.mul_one]
    omega
  have steps := Int.ediv_le_ediv positive more
  rw [Int.add_mul_ediv_right _ _ positive.ne'] at steps
  omega

theorem Fair.bound_le (fair : Fair job parts) (inside : i ≤ parts) :
    job.start ≤ job.bound parts i ∧ job.bound parts i ≤ job.stop := by
  obtain ⟨low, high⟩ := fair.share inside
  rw [fair.bound_eq inside]
  omega

/-- What is left from part `i` on. -/
def Job.rest (job : Job) (parts i : Nat) : List Range :=
  if i < parts then [(job.bound parts i, job.stop)] else []

def Job.restLength (job : Job) (parts i : Nat) : Int :=
  if i < parts then job.stop - job.bound parts i else 0

theorem Fair.rest_next (fair : Fair job parts) (inside : i < parts) (x : Int) :
    hits (job.rest parts i) x =
      hits [(job.bound parts i, job.bound parts (i + 1))] x + hits (job.rest parts (i + 1)) x := by
  have here := fair.bound_lt inside
  unfold Job.rest
  rw [if_pos inside]
  split
  · rename_i more
    rw [← hits_cut here.le (fair.bound_le inside).2, ← hits_append]
    rfl
  · have last : i + 1 = parts := by omega
    rw [last, fair.bound_last, hits_nil, Nat.add_zero]

theorem Fair.restLength_next (fair : Fair job parts) (inside : i < parts) :
    job.restLength parts i =
      (job.bound parts (i + 1) - job.bound parts i) + job.restLength parts (i + 1) := by
  unfold Job.restLength
  rw [if_pos inside]
  split
  · omega
  · have last : i + 1 = parts := by omega
    rw [last, fair.bound_last]
    omega

/-! ## Pieces -/

/-- What is left to a piece. -/
def Piece.rest (p : Piece) : List Range :=
  match p.phase with
  | .queued => [(p.begin, p.hi)]
  | .looking lo | .offering lo _ => [(lo, p.hi)]
  | .calling _ next => [(next, p.hi)]
  | .tail _ | .left | .done => []

/-- A piece keeps the index it began with. -/
def Piece.length (p : Piece) : Int := p.hi - p.begin

/-- Where the locals of a piece are. -/
def Phase.Inside (p : Piece) : Phase → Prop
  | .queued | .left | .done => True
  | .looking lo | .tail lo => p.begin ≤ lo ∧ lo < p.hi
  | .offering lo mid => p.begin ≤ lo ∧ lo < mid ∧ mid < p.hi
  | .calling lo next => p.begin ≤ lo ∧ lo < next ∧ next < p.hi

structure Piece.Good (job : Job) (p : Piece) : Prop where
  low : job.start ≤ p.begin
  some : p.begin < p.hi
  high : p.hi ≤ job.stop
  inside : p.phase.Inside p

/-- A share for each piece, and the index that carries it. -/
theorem Piece.Good.shares_le (good : p.Good job) : (p.shares : Int) ≤ p.length := by
  obtain ⟨begin, hi, phase⟩ := p
  have some := good.some
  have inside := good.inside
  unfold Piece.length
  cases phase with
  | queued | looking lo | calling lo next | tail lo | left =>
    show (1 : Int) ≤ hi - begin
    dsimp only at some
    omega
  | offering lo mid =>
    obtain ⟨low, half, more⟩ := inside
    show (2 : Int) ≤ hi - begin
    dsimp only at low half more
    omega
  | done =>
    show (0 : Int) ≤ hi - begin
    dsimp only at some
    omega

/-! ## The invariant -/

/-- The first part that is still with the caller. -/
def Caller.next (parts : Nat) : Caller → Nat
  | .entered => 0
  | .seeding i | .counted i => i
  | .inlining i => i + 1
  | .running | .returned => parts

/-- The loop over the parts is still under way. -/
def Caller.seeds (parts : Nat) : Caller → Prop
  | .entered | .running | .returned => False
  | .seeding i => 1 ≤ i ∧ i ≤ parts
  | .counted i | .inlining i => 1 ≤ i ∧ i < parts

/-- Calls, pieces and parts together meet `x` so often. -/
def State.hits (job : Job) (s : State) (x : Int) : Nat :=
  Ranges.hits s.calls x + (s.pieces.map fun p => Ranges.hits p.rest x).sum +
    Ranges.hits (job.rest s.parts (s.caller.next s.parts)) x

structure Inv (job : Job) (s : State) : Prop where
  fair : Fair job s.parts
  good : ∀ p ∈ s.pieces, p.Good job
  calls : ∀ r ∈ s.calls, job.start ≤ r.1 ∧ r.1 < r.2 ∧ r.2 ≤ job.stop
  once : ∀ x, job.start ≤ x → x < job.stop → s.hits job x = 1
  counted : s.n = ((s.pieces.map Piece.shares).sum + s.caller.shares : Nat)
  length : (s.pieces.map Piece.length).sum + job.restLength s.parts (s.caller.next s.parts) ≤
    job.stop - job.start
  /-- The piece of the caller is there, and waits for it. -/
  first : s.caller ≠ .entered → ∃ p, s.pieces[0]? = some p ∧
    (s.caller ≠ .running → s.caller ≠ .returned →
      s.caller.seeds s.parts ∧ ∃ lo, p.phase = .looking lo)
  settled : s.caller = .returned → s.n = 0
  fresh : s.caller = .entered → s.pieces = [] ∧ s.calls = [] ∧ s.parts = 1

/-- Shares are at most indices. -/
theorem Inv.shares_le (inv : Inv job s) {l : List Piece} (sub : ∀ p ∈ l, p ∈ s.pieces) :
    ((l.map Piece.shares).sum : Int) ≤ (l.map Piece.length).sum := by
  induction l with
  | nil => exact le_refl _
  | cons p l ih =>
    have here := (inv.good p (sub p List.mem_cons_self)).shares_le
    have rest := ih fun p mem => sub p (List.mem_cons_of_mem _ mem)
    rw [List.map_cons, List.map_cons, List.sum_cons, List.sum_cons, Int.natCast_add]
    omega

theorem shares_zero {l : List Piece} (none : (l.map Piece.shares).sum = 0) {p : Piece}
    (mem : p ∈ l) : p.phase = .done := by
  have zero : p.shares = 0 := List.sum_eq_zero_iff.mp none _ (List.mem_map_of_mem mem)
  obtain ⟨begin, hi, phase⟩ := p
  cases phase with
  | done => rfl
  | queued | looking | offering | calling | tail | left => cases zero

theorem Job.restLength_nonneg (fair : Fair job parts) (i : Nat) : 0 ≤ job.restLength parts i := by
  unfold Job.restLength
  split
  · rename_i inside
    have most := (fair.bound_le inside.le).2
    omega
  · exact le_refl _

/-- Once the caller has given up its share, the bits of the count are the count. -/
theorem Inv.count_zero (inv : Inv job s) (here : s.caller = .running)
    (gone : s.pieces[0]?.map Piece.phase = some .done) (zero : s.n % WaiterBit = 0) : s.n = 0 := by
  obtain ⟨p, first, done⟩ := Option.map_eq_some_iff.mp gone
  obtain ⟨rest, pieces⟩ : ∃ rest, s.pieces = p :: rest := by
    cases held : s.pieces with
    | nil =>
      rw [held] at first
      cases first
    | cons q rest =>
      rw [held] at first
      cases first
      exact ⟨rest, rfl⟩
  have counted := inv.counted
  have length := inv.length
  have left := Job.restLength_nonneg inv.fair (s.caller.next s.parts)
  have shares := inv.shares_le (l := rest) fun q mem => by
    rw [pieces]
    exact List.mem_cons_of_mem _ mem
  have own : p.shares = 0 := by
    unfold Piece.shares
    rw [done]
  have some := (inv.good p (by rw [pieces]; exact List.mem_cons_self)).some
  have total := job.length_le
  rw [pieces, List.map_cons, List.sum_cons, own, here] at counted
  rw [pieces, List.map_cons, List.sum_cons] at length
  unfold Piece.length at length
  unfold WaiterBit at zero
  have caller : Caller.running.shares = 0 := rfl
  unfold Piece.length at shares
  omega

/-- A count of zero means that the range is finished. -/
theorem Inv.finished (inv : Inv job s) (begun : s.caller ≠ .entered) (zero : s.n = 0) :
    s.Finished job := by
  have counted := inv.counted
  have none : (s.pieces.map Piece.shares).sum = 0 := by omega
  have settled : ∀ p ∈ s.pieces, p.phase = .done := fun p mem => shares_zero none mem
  obtain ⟨p, first, busy⟩ := inv.first begun
  have finished := settled p (List.mem_of_getElem? first)
  have late : s.caller = .running ∨ s.caller = .returned := by
    by_contra early
    obtain ⟨notRunning, notReturned⟩ := not_or.mp early
    obtain ⟨-, lo, looking⟩ := busy notRunning notReturned
    rw [finished] at looking
    cases looking
  have next : s.caller.next s.parts = s.parts := by
    cases late with
    | inl here | inr here =>
      rw [here]
      rfl
  refine ⟨fun x low high => ?_, settled, fun i here => ?_⟩
  · have once := inv.once x low high
    have rest : (s.pieces.map fun p => Ranges.hits p.rest x).sum = 0 := by
      refine List.sum_eq_zero_iff.mpr fun a mem => ?_
      obtain ⟨q, held, rfl⟩ := List.mem_map.mp mem
      have none : q.rest = [] := by
        unfold Piece.rest
        rw [settled q held]
      rw [none, hits_nil]
    have parts : Ranges.hits (job.rest s.parts (s.caller.next s.parts)) x = 0 := by
      unfold Job.rest
      rw [next, if_neg (lt_irrefl _), hits_nil]
    unfold State.hits at once
    omega
  · cases late with
    | inl running =>
      rw [running] at here
      cases here
    | inr returned =>
      rw [returned] at here
      cases here

end JLibSched.ParallelFor.Lazy
