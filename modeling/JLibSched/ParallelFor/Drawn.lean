import JLibSched.ParallelFor.Cursor

/-!
# The blocks of the cursor

The calls follow one another from the begin of the range to where the cursor stands, or to its end
(`Drawn`).  The additions are at most the blocks and one for each loop that has left, so the sum that
a loop reads is below the bound of `Fits` and has not wrapped.
-/

namespace JLibSched.ParallelFor

open Transition Ranges

variable {pool : Pool} {call : Call} {s t : State} {f : Frame} {k ended : Nat}

/-! ## The frame of `RunCursorRange` -/

/-- What the lanes may rely on. -/
structure Framed (pool : Pool) (call : Call) (f : Frame) : Prop where
  inside : call.begin ≤ f.start
  some : f.start < call.stop
  grain : 0 < f.grain
  lanes : 0 < f.lanes ∧ f.lanes < WaiterBit
  fits : f.Fits pool call

/-- Where the cursor stands after `k` additions that did not wrap. -/
def Frame.mark (f : Frame) (k : Nat) : Int := f.start + k * f.grain

theorem Frame.mark_succ (f : Frame) (k : Nat) : f.mark (k + 1) = f.mark k + f.grain := by
  unfold Frame.mark
  rw [Int.natCast_add, Int.add_mul, Int.natCast_one, Int.one_mul, Int.add_assoc]

theorem Framed.slices_eq (framed : Framed pool call f) :
    f.slices call = (call.stop - f.start + f.grain - 1) / f.grain := by
  have some := framed.some
  have grain := framed.grain
  unfold Frame.slices sliceCount
  exact Int.tdiv_eq_ediv_of_nonneg (by omega)

theorem Framed.blocks_end (framed : Framed pool call f) :
    call.stop - f.start ≤ f.slices call * f.grain := by
  have grain := framed.grain
  have rest := Int.emod_lt_of_pos (call.stop - f.start + f.grain - 1) grain
  have parts := Int.mul_ediv_add_emod (call.stop - f.start + f.grain - 1) f.grain
  rw [framed.slices_eq, Int.mul_comm]
  omega

theorem Framed.slices_pos (framed : Framed pool call f) : 0 < f.slices call := by
  by_contra none
  have least := Int.mul_le_mul_of_nonneg_right (not_lt.mp none) framed.grain.le
  have blocks := framed.blocks_end
  have some := framed.some
  omega

theorem Framed.le_mark (framed : Framed pool call f) (none : f.slices call ≤ k) :
    call.stop ≤ f.mark k := by
  have least := Int.mul_le_mul_of_nonneg_right none framed.grain.le
  have last := framed.blocks_end
  unfold Frame.mark
  omega

theorem Framed.mark_fits (framed : Framed pool call f)
    (most : (k : Int) ≤ f.slices call + pool.helpers f.lanes) : f.mark k ≤ IntMax := by
  have below := Int.mul_le_mul_of_nonneg_right most framed.grain.le
  have fits := framed.fits
  unfold Frame.Fits at fits
  unfold Frame.mark
  omega

theorem Framed.start_le_mark (framed : Framed pool call f) (k : Nat) : f.start ≤ f.mark k := by
  have added := Int.mul_nonneg (Int.natCast_nonneg k) framed.grain.le
  unfold Frame.mark
  omega

theorem Framed.wrap_mark (framed : Framed pool call f)
    (most : (k : Int) ≤ f.slices call + pool.helpers f.lanes) : wrap (f.mark k) = f.mark k :=
  wrap_of_int ((call.begin_int.trans framed.inside).trans (framed.start_le_mark k))
    (framed.mark_fits most)

/-! ## Drawing blocks -/

/-- After `k` additions and `ended` loops that have left, the calls reach to the cursor. -/
structure Drawn (call : Call) (f : Frame) (cursor : Int) (calls : List Range) (k ended : Nat) :
    Prop where
  cursor : cursor = wrap (f.mark k)
  calls : Follows call.begin calls (min call.stop (f.mark k))
  reads : (k : Int) ≤ f.slices call + ended

variable {cursor : Int} {calls : List Range}

theorem Drawn.cursor_eq (drawn : Drawn call f cursor calls k ended) (framed : Framed pool call f)
    (room : ended ≤ pool.helpers f.lanes) : cursor = f.mark k := by
  rw [drawn.cursor]
  have reads := drawn.reads
  exact framed.wrap_mark (by omega)

/-- A loop finds that there is nothing left. -/
theorem Drawn.leave (drawn : Drawn call f cursor calls k ended) (framed : Framed pool call f)
    (room : ended ≤ pool.helpers f.lanes) (spent : cursor ≥ call.stop) :
    call.stop ≤ f.mark (k + 1) ∧
      Drawn call f (wrap (cursor + f.grain)) calls (k + 1) (ended + 1) := by
  have here := drawn.cursor_eq framed room
  have grain := framed.grain
  have next := f.mark_succ k
  have reads := drawn.reads
  refine ⟨by omega, by rw [here, next], ?_, by omega⟩
  have follows := drawn.calls
  rw [min_eq_left (by omega)] at follows
  rw [min_eq_left (by omega)]
  exact follows

/-- A loop takes the next block. -/
theorem Drawn.take (drawn : Drawn call f cursor calls k ended) (framed : Framed pool call f)
    (room : ended ≤ pool.helpers f.lanes) (more : ¬cursor ≥ call.stop) :
    Drawn call f (wrap (cursor + f.grain)) (calls ++ [f.block call cursor]) (k + 1) ended := by
  have here := drawn.cursor_eq framed room
  have grain := framed.grain
  have next := f.mark_succ k
  have inside : (k : Int) < f.slices call := by
    by_contra none
    have past := framed.le_mark (not_lt.mp none)
    omega
  have whole : wrap (cursor + f.grain) = f.mark (k + 1) := by
    rw [here, ← next]
    exact framed.wrap_mark (by omega)
  refine ⟨by rw [here, next], ?_, by omega⟩
  have follows := drawn.calls
  rw [min_eq_right (by omega), ← here] at follows
  have block : f.block call cursor = (cursor, min call.stop (f.mark (k + 1))) := by
    unfold Frame.block
    rw [whole]
    by_cases past : f.mark (k + 1) > call.stop
    · rw [if_pos past, min_eq_left past.le]
    · rw [if_neg past, min_eq_right (not_lt.mp past)]
  rw [block]
  exact follows.append (.single (lt_min (by omega) (by omega)))

/-! ## The tasks -/

def Helper.hasLeft : Helper → Bool
  | .left | .done => true
  | .taking | .running _ => false

/-- The group counts the task. -/
def Helper.counted : Helper → Bool
  | .done => false
  | .taking | .running _ | .left => true

theorem countP_set_of {α : Type} {l : List α} {i : Nat} {x : α} (found : l[i]? = some x)
    (p : α → Bool) (y : α) :
    (l.set i y).countP p + (p x).toNat = l.countP p + (p y).toNat := by
  obtain ⟨inside, rfl⟩ := List.getElem?_eq_some_iff.mp found
  have least := List.boole_getElem_le_countP (p := p) inside
  rw [List.countP_set inside, Bool.toNat, Bool.toNat, Bool.cond_eq_ite, Bool.cond_eq_ite]
  omega

/-- `w` tasks have been tried, and the group counts the others and those that are not done. -/
structure Grouped (pool : Pool) (s : State) (w : Nat) : Prop where
  seeds : (w : Int) ≤ s.frame.lanes
  pushed : s.helpers.length = (List.range w).countP pool.helps
  count : s.n = s.frame.lanes - w + s.helpers.countP Helper.counted

variable {w i : Nat} {h : Helper}

theorem Grouped.length_le (grouped : Grouped pool s w) :
    s.helpers.length ≤ pool.helpers s.frame.lanes := by
  rw [grouped.pushed]
  have seeds := grouped.seeds
  exact (List.range_sublist.mpr (by omega)).countP_le

theorem Grouped.left_le (grouped : Grouped pool s w) :
    s.helpers.countP Helper.hasLeft ≤ pool.helpers s.frame.lanes :=
  List.countP_le_length.trans grouped.length_le

/-- A task whose loop is still running leaves room for one more addition. -/
theorem Grouped.left_lt (grouped : Grouped pool s w) (found : s.helpers[i]? = some .taking) :
    s.helpers.countP Helper.hasLeft < pool.helpers s.frame.lanes := by
  have more := countP_set_of found Helper.hasLeft .left
  have most : (s.helpers.set i .left).countP Helper.hasLeft ≤ (s.helpers.set i .left).length :=
    List.countP_le_length
  rw [List.length_set] at most
  have length := grouped.length_le
  have taking : (Helper.hasLeft .taking).toNat = 0 := rfl
  have leaves : (Helper.hasLeft .left).toNat = 1 := rfl
  omega

/-- A task goes on, and the group changes by what it counts of it. -/
theorem Grouped.set (grouped : Grouped pool s w) (found : s.helpers[i]? = some h) {h' : Helper}
    (frame : t.frame = s.frame) (helpers : t.helpers = s.helpers.set i h')
    (n : t.n + h.counted.toNat = s.n + h'.counted.toNat) :
    Grouped pool t w where
  seeds := by
    rw [frame]
    exact grouped.seeds
  pushed := by
    rw [helpers, List.length_set]
    exact grouped.pushed
  count := by
    have counted := countP_set_of found Helper.counted h'
    have count := grouped.count
    rw [frame, helpers]
    omega

end JLibSched.ParallelFor
