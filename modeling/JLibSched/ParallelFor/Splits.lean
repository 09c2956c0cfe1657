import JLibSched.ParallelFor.Pieces

/-!
# Lazy splitting covers its range

Each step moves indices between the calls, the pieces and the parts (`Inv.piece`, `Inv.hand`).  A
task is counted in the step before the one that pushes it, and a piece gives up its share after its
last call has returned.
-/

namespace JLibSched.ParallelFor.Lazy

open Transition Ranges

variable {job : Job} {s t : State} {i k : Nat} {p : Piece}

/-! ## A piece goes on -/

/-- A piece goes on, begins a call or gives a part of its range to new pieces. -/
theorem Inv.piece (inv : Inv job s) (found : s.pieces[k]? = some p) (busy : p.phase ≠ .done)
    (mine : k = 0 → s.caller = .running) {q : Piece} (good : q.Good job) (more : List Piece)
    (goods : ∀ p ∈ more, p.Good job) (n : Int) (calls : List Range)
    (proper : ∀ r ∈ calls, job.start ≤ r.1 ∧ r.1 < r.2 ∧ r.2 ≤ job.stop)
    (same : ∀ x, job.start ≤ x → x < job.stop →
      Ranges.hits calls x + Ranges.hits q.rest x +
        (more.map fun p => Ranges.hits p.rest x).sum =
      Ranges.hits s.calls x + Ranges.hits p.rest x)
    (counts : n + p.shares = s.n + (q.shares + (more.map Piece.shares).sum : Nat))
    (lengths : q.length + (more.map Piece.length).sum = p.length) :
    Inv job { s with n := n, pieces := s.pieces.set k q ++ more, calls := calls } where
  fair := inv.fair
  good := by
    intro r mem
    cases List.mem_append.mp mem with
    | inl old =>
      cases List.mem_or_eq_of_mem_set old with
      | inl before => exact inv.good r before
      | inr here =>
        rw [here]
        exact good
    | inr new => exact goods r new
  calls := proper
  once := by
    intro x low high
    have once := inv.once x low high
    have swap := sum_map_set_of found (fun p => Ranges.hits p.rest x) q
    have same := same x low high
    unfold State.hits at once ⊢
    dsimp only at swap ⊢
    rw [List.map_append, List.sum_append]
    omega
  counted := by
    have counted := inv.counted
    have swap := sum_map_set_of found Piece.shares q
    dsimp only
    rw [List.map_append, List.sum_append]
    omega
  length := by
    have length := inv.length
    have swap := sum_map_set_of found Piece.length q
    dsimp only
    rw [List.map_append, List.sum_append]
    omega
  first := by
    intro begun
    obtain ⟨first, held, busy⟩ := inv.first begun
    have nonempty : 0 < s.pieces.length := (List.getElem?_eq_some_iff.mp held).1
    have front : (s.pieces.set k q ++ more)[0]? = (s.pieces.set k q)[0]? :=
      List.getElem?_append_left (by rw [List.length_set]; exact nonempty)
    dsimp only
    rw [front]
    by_cases own : k = 0
    · rw [own, List.getElem?_set_self nonempty]
      exact ⟨q, rfl, fun idle => absurd (mine own) idle⟩
    · rw [List.getElem?_set_ne own]
      exact ⟨first, held, busy⟩
  settled := by
    intro returned
    have begun : s.caller ≠ .entered := by
      intro entered
      rw [entered] at returned
      cases returned
    have finished := inv.finished begun (inv.settled returned)
    exact absurd (finished.settled p (List.mem_of_getElem? found)) busy
  fresh := by
    intro entered
    obtain ⟨none, -⟩ := inv.fresh entered
    rw [none] at found
    cases found

/-- The piece as it stands in the list is where its phase says. -/
theorem Inv.at (inv : Inv job s) (found : s.pieces[k]? = some p) : p.Good job :=
  inv.good p (List.mem_of_getElem? found)

/-- A piece goes on without a call and without a share. -/
theorem Inv.move (inv : Inv job s) (found : s.pieces[k]? = some p) (busy : p.phase ≠ .done)
    (mine : k = 0 → s.caller = .running) {phase : Phase} {n : Int}
    (inside : phase.Inside p) (rest : (⟨p.begin, p.hi, phase⟩ : Piece).rest = p.rest)
    (counts : n + p.shares = s.n + (⟨p.begin, p.hi, phase⟩ : Piece).shares) :
    Inv job { s with n := n, pieces := s.pieces.set k { p with phase := phase } } := by
  have good := inv.at found
  have moved := inv.piece found busy mine (q := { p with phase := phase })
    ⟨good.low, good.some, good.high, by cases phase <;> exact inside⟩ []
    (fun r mem => by cases mem) n s.calls inv.calls (fun x _ _ => by rw [rest]; rfl) counts
    (Int.add_zero _)
  rw [List.append_nil] at moved
  exact moved

/-- A piece begins a call on the start of what is left to it. -/
theorem Inv.call (inv : Inv job s) (found : s.pieces[k]? = some p)
    (mine : k = 0 → s.caller = .running) {lo next : Int} (here : p.phase = .looking lo)
    {phase : Phase} (inside : phase.Inside p) (some : lo < next) (most : next ≤ p.hi)
    (rest : (⟨p.begin, p.hi, phase⟩ : Piece).rest =
      if next < p.hi then [(next, p.hi)] else [])
    (shares : (⟨p.begin, p.hi, phase⟩ : Piece).shares = 1) :
    Inv job { s with
      pieces := s.pieces.set k { p with phase := phase }, calls := s.calls ++ [(lo, next)] } := by
  have good := inv.at found
  have start := good.inside
  rw [here] at start
  obtain ⟨low, more⟩ := start
  have own : p.rest = [(lo, p.hi)] := by
    unfold Piece.rest
    rw [here]
  have before : p.shares = 1 := by
    unfold Piece.shares
    rw [here]
  have moved := inv.piece found (fun absurd => by rw [here] at absurd; cases absurd) mine
    (q := { p with phase := phase })
    ⟨good.low, good.some, good.high, by cases phase <;> exact inside⟩ []
    (fun r mem => by cases mem) s.n (s.calls ++ [(lo, next)]) ?_ (fun x _ _ => ?_) ?_ (Int.add_zero _)
  · rw [List.append_nil] at moved
    exact moved
  · intro r mem
    cases List.mem_append.mp mem with
    | inl old => exact inv.calls r old
    | inr new =>
      cases List.mem_singleton.mp new
      exact ⟨good.low.trans low, some, most.trans good.high⟩
  · rw [hits_append, rest, own, List.map_nil, List.sum_nil, Nat.add_zero, Nat.add_assoc]
    congr 1
    split
    · rename_i left
      rw [← hits_append, ← hits_cut some.le left.le]
      rfl
    · have last : next = p.hi := by omega
      rw [last, hits_nil, Nat.add_zero]
  · rw [before, shares]
    rfl

/-- A piece pushes its upper half. -/
theorem Inv.split (inv : Inv job s) (found : s.pieces[k]? = some p)
    (mine : k = 0 → s.caller = .running) {lo mid : Int} (here : p.phase = .offering lo mid) :
    Inv job ((s.set k ⟨p.begin, mid, .looking lo⟩).add mid p.hi) := by
  have good := inv.at found
  have inside := good.inside
  rw [here] at inside
  obtain ⟨low, some, more⟩ := inside
  have own : p.rest = [(lo, p.hi)] := by
    unfold Piece.rest
    rw [here]
  have before : p.shares = 2 := by
    unfold Piece.shares
    rw [here]
  have start := good.low
  have stop := good.high
  refine inv.piece found (fun absurd => by rw [here] at absurd; cases absurd) mine
    (q := ⟨p.begin, mid, .looking lo⟩)
    ⟨start, low.trans_lt some, (more.trans_le stop).le, low, some⟩ [⟨mid, p.hi, .queued⟩]
    (fun r mem => ?_) s.n s.calls inv.calls (fun x _ _ => ?_) ?_ ?_
  · cases List.mem_singleton.mp mem
    exact ⟨start.trans (low.trans some.le), more, stop, trivial⟩
  · rw [own, Nat.add_assoc, List.map_singleton, List.sum_singleton, ← hits_append,
      ← hits_cut some.le more.le]
    rfl
  · rw [before]
    rfl
  · show mid - p.begin + (p.hi - mid + 0) = p.hi - p.begin
    omega

theorem Inv.look (inv : Inv job s) (found : s.pieces[k]? = some p)
    (mine : k = 0 → s.caller = .running) {lo : Int} (here : p.phase = .looking lo)
    (empty created : Bool) : Inv job (s.look job k p lo empty created) := by
  have good := inv.at found
  have inside := good.inside
  rw [here] at inside
  obtain ⟨low, some⟩ := inside
  have start := good.low
  have stop := good.high
  have least := job.grain_pos
  have length : wrap (p.hi - lo) = p.hi - lo := job.wrap_length (by omega) (by omega)
  have busy : p.phase ≠ .done := by
    intro absurd
    rw [here] at absurd
    cases absurd
  unfold State.look
  rw [length, job.wrap_double]
  split
  · rename_i more
    have next : wrap (lo + job.grain) = lo + job.grain := job.wrap_index (by omega) (by omega)
    have half : wrap (lo + (p.hi - lo) / 2) = lo + (p.hi - lo) / 2 :=
      job.wrap_index (by omega) (by omega)
    split
    · rename_i offers
      have twice := offers.2.1
      refine inv.move found busy mine (n := s.n + 1) ?_ ?_ ?_
      · rw [half]
        exact ⟨low, by omega, by omega⟩
      · unfold Piece.rest
        rw [here]
      · unfold Piece.shares
        rw [here]
        show s.n + 1 + 1 = s.n + 2
        omega
    · rw [next]
      refine inv.call found mine here ⟨low, by omega, by omega⟩ (by omega) (by omega) ?_ rfl
      rw [if_pos (by omega)]
      rfl
  · refine inv.call found mine here ⟨low, some⟩ some (le_refl _) ?_ rfl
    rw [if_neg (lt_irrefl _)]
    rfl

theorem Inv.pieceStep {a : Label} (inv : Inv job s) (found : s.pieces[k]? = some p)
    (mine : k = 0 → s.caller = .running) (stepped : pieceStep job s k p a = some t) :
    Inv job t := by
  have good := inv.at found
  have inside := good.inside
  cases a with
  | begin j =>
    unfold Lazy.pieceStep at stepped
    dsimp only at stepped
    split at stepped
    · rename_i here
      cases stepped
      refine inv.move found (fun absurd => by rw [here] at absurd; cases absurd) mine
        ⟨le_refl _, good.some⟩ ?_ ?_
      · unfold Piece.rest
        rw [here]
      · unfold Piece.shares
        rw [here]
    · cases stepped
  | look j empty created =>
    unfold Lazy.pieceStep at stepped
    dsimp only at stepped
    split at stepped
    · rename_i lo here
      cases stepped
      exact inv.look found mine here empty created
    · cases stepped
  | pushPiece j =>
    unfold Lazy.pieceStep at stepped
    dsimp only at stepped
    split at stepped
    · rename_i lo mid here
      cases stepped
      exact inv.split found mine here
    · cases stepped
  | bodyReturned j =>
    unfold Lazy.pieceStep at stepped
    dsimp only at stepped
    split at stepped
    · rename_i lo next here
      rw [here] at inside
      obtain ⟨low, some, more⟩ := inside
      cases stepped
      refine inv.move found (fun absurd => by rw [here] at absurd; cases absurd) mine
        ⟨low.trans some.le, more⟩ ?_ ?_
      · unfold Piece.rest
        rw [here]
      · unfold Piece.shares
        rw [here]
    · rename_i lo here
      cases stepped
      refine inv.move found (fun absurd => by rw [here] at absurd; cases absurd) mine trivial ?_ ?_
      · unfold Piece.rest
        rw [here]
      · unfold Piece.shares
        rw [here]
    · cases stepped
  | done j =>
    unfold Lazy.pieceStep at stepped
    dsimp only at stepped
    split at stepped
    · rename_i here
      cases stepped
      refine inv.move found (fun absurd => by rw [here] at absurd; cases absurd) mine trivial ?_ ?_
      · unfold Piece.rest
        rw [here]
      · unfold Piece.shares
        rw [here]
        show s.n - 1 + 1 = s.n + 0
        omega
    · cases stepped
  | seeds | seed | push | inlineReturned | waited => cases stepped

/-! ## The caller goes on -/

/-- The caller hands out parts, calls the body on one or gets to its own piece. -/
theorem Inv.hand (inv : Inv job s) (busy : s.caller.seeds s.parts) {c : Caller}
    (next : c.seeds s.parts ∨ c = .running) (more : List Piece)
    (goods : ∀ p ∈ more, p.Good job) (n : Int) (calls : List Range)
    (proper : ∀ r ∈ calls, job.start ≤ r.1 ∧ r.1 < r.2 ∧ r.2 ≤ job.stop)
    (same : ∀ x, Ranges.hits calls x + (more.map fun p => Ranges.hits p.rest x).sum +
        Ranges.hits (job.rest s.parts (c.next s.parts)) x =
      Ranges.hits s.calls x + Ranges.hits (job.rest s.parts (s.caller.next s.parts)) x)
    (counts : n + s.caller.shares = s.n + ((more.map Piece.shares).sum + c.shares : Nat))
    (lengths : (more.map Piece.length).sum + job.restLength s.parts (c.next s.parts) ≤
      job.restLength s.parts (s.caller.next s.parts)) :
    Inv job { s with caller := c, n := n, pieces := s.pieces ++ more, calls := calls } where
  fair := inv.fair
  good := fun r mem => (List.mem_append.mp mem).elim (inv.good r) (goods r)
  calls := proper
  once := by
    intro x low high
    have once := inv.once x low high
    have same := same x
    unfold State.hits at once ⊢
    dsimp only
    rw [List.map_append, List.sum_append]
    omega
  counted := by
    have counted := inv.counted
    dsimp only
    rw [List.map_append, List.sum_append]
    omega
  length := by
    have length := inv.length
    dsimp only
    rw [List.map_append, List.sum_append]
    omega
  first := by
    intro begun
    have early : s.caller ≠ .entered ∧ s.caller ≠ .running ∧ s.caller ≠ .returned := by
      refine ⟨?_, ?_, ?_⟩ <;>
      · intro here
        rw [here] at busy
        exact busy
    obtain ⟨first, held, looks⟩ := inv.first early.1
    have front : (s.pieces ++ more)[0]? = s.pieces[0]? :=
      List.getElem?_append_left (List.getElem?_eq_some_iff.mp held).1
    dsimp only
    rw [front]
    refine ⟨first, held, fun notRunning _ => ⟨next.resolve_right notRunning, ?_⟩⟩
    exact (looks early.2.1 early.2.2).2
  settled := by
    intro returned
    cases next with
    | inl seeds =>
      dsimp only at returned
      rw [returned] at seeds
      exact seeds.elim
    | inr running =>
      dsimp only at returned
      rw [running] at returned
      cases returned
  fresh := by
    intro entered
    cases next with
    | inl seeds =>
      dsimp only at entered
      rw [entered] at seeds
      exact seeds.elim
    | inr running =>
      dsimp only at entered
      rw [running] at entered
      cases entered

/-- The loop over the parts is under way, and where it is. -/
theorem Inv.busy (inv : Inv job s) {c : Caller} (here : s.caller = c)
    (others : c ≠ .entered ∧ c ≠ .running ∧ c ≠ .returned) :
    s.caller.seeds s.parts ∧ c.seeds s.parts := by
  subst here
  obtain ⟨first, held, seeds⟩ := inv.first others.1
  have busy := (seeds others.2.1 others.2.2).1
  exact ⟨busy, busy⟩

theorem Inv.part (inv : Inv job s) (inside : i < s.parts) :
    job.start ≤ (s.part job i).1 ∧ (s.part job i).1 < (s.part job i).2 ∧
      (s.part job i).2 ≤ job.stop :=
  ⟨(inv.fair.bound_le inside.le).1, inv.fair.bound_lt inside,
    (inv.fair.bound_le (i := i + 1) inside).2⟩

theorem Inv.begin (inv : Inv job s) (here : s.caller = .entered) (others : Nat) :
    Inv job (s.begin job (job.parts others)) := by
  obtain ⟨-, none, -⟩ := inv.fresh here
  have fair := job.parts_fair others
  have zero := fair.bound_zero
  have inside : 0 < job.parts others := fair.some
  have next : job.bound (job.parts others) 0 < job.bound (job.parts others) 1 := fair.bound_lt inside
  have last : job.bound (job.parts others) 1 ≤ job.stop := (fair.bound_le (i := 0 + 1) inside).2
  have length : job.restLength (job.parts others) 0 =
      job.bound (job.parts others) 1 - job.bound (job.parts others) 0 +
        job.restLength (job.parts others) 1 := fair.restLength_next inside
  have whole : job.restLength (job.parts others) 0 = job.stop - job.start := by
    unfold Job.restLength
    rw [if_pos inside, zero]
  rw [zero] at next length
  refine ⟨fair, ?_, ?_, ?_, rfl, ?_, ?_, ?_, ?_⟩
  · intro p mem
    cases List.mem_singleton.mp mem
    exact ⟨le_refl _, next, last, le_refl _, next⟩
  · intro r mem
    rw [show (s.begin job (job.parts others)).calls = [] from none] at mem
    cases mem
  · intro x low high
    have rest : Ranges.hits (job.rest (job.parts others) 0) x =
        Ranges.hits [(job.bound (job.parts others) 0, job.bound (job.parts others) 1)] x +
          Ranges.hits (job.rest (job.parts others) 1) x := fair.rest_next inside x
    have all : Ranges.hits (job.rest (job.parts others) 0) x = 1 := by
      unfold Job.rest
      rw [if_pos inside, zero]
      exact (Tiles.single job.ordered).once x low high
    rw [zero] at rest
    show Ranges.hits s.calls x + (Ranges.hits [(job.start, job.bound (job.parts others) 1)] x + 0) +
      Ranges.hits (job.rest (job.parts others) 1) x = 1
    rw [none, hits_nil]
    omega
  · show job.bound (job.parts others) 1 - job.start + 0 + job.restLength (job.parts others) 1 ≤ _
    rw [whole] at length
    omega
  · exact fun _ => ⟨_, rfl, fun _ _ => ⟨⟨le_refl _, inside⟩, _, rfl⟩⟩
  · intro returned
    cases returned
  · intro entered
    cases entered

theorem Inv.return (inv : Inv job s) (here : s.caller = .running) (zero : s.n = 0) :
    Inv job (s.setCaller .returned) where
  fair := inv.fair
  good := inv.good
  calls := inv.calls
  once := by
    intro x low high
    have once := inv.once x low high
    unfold State.hits at once
    rw [here] at once
    exact once
  counted := by
    have counted := inv.counted
    rw [here] at counted
    exact counted
  length := by
    have length := inv.length
    rw [here] at length
    exact length
  first := by
    intro _
    obtain ⟨first, held, -⟩ := inv.first fun absurd => by
      rw [here] at absurd
      cases absurd
    exact ⟨first, held, fun _ notReturned => absurd rfl notReturned⟩
  settled := fun _ => zero
  fresh := by
    intro entered
    cases entered

theorem Inv.callerStep {a : Label} (inv : Inv job s) (stepped : callerStep job s a = some t) :
    Inv job t := by
  have nothing : ∀ p ∈ ([] : List Piece), p.Good job := by
    intro p mem
    cases mem
  cases a with
  | seeds others =>
    unfold Lazy.callerStep at stepped
    dsimp only at stepped
    split at stepped
    · rename_i here
      split at stepped
      · cases stepped
        exact inv.begin here others
      · cases stepped
    · cases stepped
  | seed created =>
    unfold Lazy.callerStep at stepped
    dsimp only at stepped
    split at stepped
    · rename_i i here
      obtain ⟨busy, range⟩ := inv.busy here (by simp)
      split at stepped
      · rename_i inside
        split at stepped
        · cases stepped
          have next := inv.hand busy (c := .counted i) (.inl ⟨range.1, inside⟩) [] nothing
            (s.n + 1) s.calls inv.calls (fun x => by rw [here]; rfl) ?_
            (by rw [here]; exact (Int.zero_add _).le)
          · rw [List.append_nil] at next
            exact next
          · rw [here]
            show s.n + 1 + 0 = s.n + ((0 + 1 : Nat) : Int)
            omega
        · cases stepped
          have next := inv.hand busy (c := .inlining i) (.inl ⟨range.1, inside⟩) [] nothing
            s.n (s.calls ++ [s.part job i]) ?_ ?_ (by rw [here]; rfl) ?_
          · rw [List.append_nil] at next
            exact next
          · intro r mem
            cases List.mem_append.mp mem with
            | inl old => exact inv.calls r old
            | inr new =>
              cases List.mem_singleton.mp new
              exact inv.part inside
          · intro x
            have rest := inv.fair.rest_next inside x
            rw [here, hits_append]
            show Ranges.hits s.calls x + Ranges.hits [s.part job i] x + 0 +
                Ranges.hits (job.rest s.parts (i + 1)) x =
              Ranges.hits s.calls x + Ranges.hits (job.rest s.parts i) x
            rw [rest, Nat.add_zero]
            exact Nat.add_assoc ..
          · have rest := inv.fair.restLength_next inside
            have step := inv.fair.bound_lt inside
            rw [here]
            show 0 + job.restLength s.parts (i + 1) ≤ job.restLength s.parts i
            omega
      · rename_i all
        cases stepped
        have last : i = s.parts := by
          have most := range.2
          omega
        have next := inv.hand busy (c := .running) (.inr rfl) [] nothing s.n s.calls inv.calls
          (fun x => by rw [here, last]; rfl) (by rw [here]; rfl)
          (by rw [here, last]; exact (Int.zero_add _).le)
        rw [List.append_nil] at next
        exact next
    · cases stepped
  | push =>
    unfold Lazy.callerStep at stepped
    dsimp only at stepped
    split at stepped
    · rename_i i here
      obtain ⟨busy, range⟩ := inv.busy here (by simp)
      have inside : i < s.parts := range.2
      obtain ⟨low, some, high⟩ := inv.part inside
      cases stepped
      refine inv.hand busy (c := .seeding (i + 1)) (.inl ⟨by omega, inside⟩)
        [⟨(s.part job i).1, (s.part job i).2, .queued⟩] ?_ s.n s.calls inv.calls ?_ ?_ ?_
      · intro p mem
        cases List.mem_singleton.mp mem
        exact ⟨low, some, high, trivial⟩
      · intro x
        have rest := inv.fair.rest_next inside x
        rw [here]
        show Ranges.hits s.calls x + (Ranges.hits [s.part job i] x + 0) +
            Ranges.hits (job.rest s.parts (i + 1)) x =
          Ranges.hits s.calls x + Ranges.hits (job.rest s.parts i) x
        rw [rest]
        exact Nat.add_assoc ..
      · rw [here]
        rfl
      · have rest := inv.fair.restLength_next inside
        rw [here]
        show job.bound s.parts (i + 1) - job.bound s.parts i + 0 +
          job.restLength s.parts (i + 1) ≤ job.restLength s.parts i
        omega
    · cases stepped
  | inlineReturned =>
    unfold Lazy.callerStep at stepped
    dsimp only at stepped
    split at stepped
    · rename_i i here
      obtain ⟨busy, range⟩ := inv.busy here (by simp)
      have inside : i < s.parts := range.2
      cases stepped
      have next := inv.hand busy (c := .seeding (i + 1)) (.inl ⟨by omega, inside⟩) [] nothing
        s.n s.calls inv.calls (fun x => by rw [here]; rfl) (by rw [here]; rfl)
        (by rw [here]; exact (Int.zero_add _).le)
      rw [List.append_nil] at next
      exact next
    · cases stepped
  | waited =>
    unfold Lazy.callerStep at stepped
    dsimp only at stepped
    split at stepped
    · rename_i here
      split at stepped
      · rename_i gone
        cases stepped
        have zero := inv.count_zero here gone.1 gone.2
        exact inv.return here zero
      · cases stepped
    · cases stepped
  | begin | look | pushPiece | bodyReturned | done => cases stepped

/-! ## A run -/

theorem Inv.onPiece {a : Label} (inv : Inv job s) (stepped : onPiece job s k a = some t) :
    Inv job t := by
  unfold Lazy.onPiece at stepped
  split at stepped
  · cases stepped
  · rename_i mine
    split at stepped
    · rename_i p found
      refine inv.pieceStep found (fun own => ?_) stepped
      by_contra early
      exact mine ⟨own, early⟩
    · cases stepped

theorem Inv.step {a : Label} (inv : Inv job s) (stepped : step job s a = some t) : Inv job t := by
  cases a with
  | begin k => exact inv.onPiece (a := .begin k) stepped
  | look k empty created => exact inv.onPiece (a := .look k empty created) stepped
  | pushPiece k => exact inv.onPiece (a := .pushPiece k) stepped
  | bodyReturned k => exact inv.onPiece (a := .bodyReturned k) stepped
  | done k => exact inv.onPiece (a := .done k) stepped
  | seeds others => exact inv.callerStep (a := .seeds others) stepped
  | seed created => exact inv.callerStep (a := .seed created) stepped
  | push => exact inv.callerStep (a := .push) stepped
  | inlineReturned => exact inv.callerStep (a := .inlineReturned) stepped
  | waited => exact inv.callerStep (a := .waited) stepped

theorem inv_initial (job : Job) : Inv job initial := by
  have ordered := job.ordered
  have fair : Fair job 1 := ⟨le_refl _, by omega⟩
  have all : job.rest 1 0 = [(job.start, job.stop)] := by
    unfold Job.rest
    rw [if_pos Nat.zero_lt_one, fair.bound_zero]
  have whole : job.restLength 1 0 = job.stop - job.start := by
    unfold Job.restLength
    rw [if_pos Nat.zero_lt_one, fair.bound_zero]
  refine ⟨fair, ?_, ?_, fun x low high => ?_, rfl, ?_, ?_, ?_, fun _ => ⟨rfl, rfl, rfl⟩⟩
  · intro p mem
    cases mem
  · intro r mem
    cases mem
  · show 0 + 0 + Ranges.hits (job.rest 1 0) x = 1
    rw [all, (Tiles.single ordered).once x low high]
  · show 0 + job.restLength 1 0 ≤ _
    rw [whole]
    omega
  · intro begun
    exact absurd rfl begun
  · intro returned
    cases returned

/-- No index of the range is in two calls, and none outside it is in one. -/
theorem Inv.hits_le (inv : Inv job s) (x : Int) : Ranges.hits s.calls x ≤ 1 := by
  by_cases inside : job.start ≤ x ∧ x < job.stop
  · have once := inv.once x inside.1 inside.2
    unfold State.hits at once
    omega
  · have none : Ranges.hits s.calls x = 0 := by
      refine hits_eq_zero fun r mem => ?_
      obtain ⟨low, some, high⟩ := inv.calls r mem
      omega
    omega

/-- Lazy splitting covers its range exactly once, counts every piece before it pushes it, and keeps
the group above zero until every call of the body has returned. -/
theorem lazy_covers (job : Job) (s : State) (reach : Reach (step job) anyStep initial s) :
    Covered job s := by
  have inv : Inv job s := reach.invariant (inv_initial job) fun inv _ stepped => inv.step stepped
  refine ⟨inv.calls, inv.hits_le, inv.counted, inv.finished, fun returned => ?_⟩
  refine ⟨inv.settled returned, inv.finished (fun entered => ?_) (inv.settled returned)⟩
  rw [entered] at returned
  cases returned

/-! ## A run with a split -/

/-- A job from numbers that are in bounds. -/
def Job.of (start stop grain : Int) (width : Nat) (bounds : start < stop ∧ IntMin ≤ start ∧
    stop ≤ IntMax ∧ stop - start ≤ 1073741824 ∧ 1 ≤ grain ∧ grain ≤ 536870912) : Job where
  start := start
  stop := stop
  grain := grain
  width := width
  ordered := bounds.1
  start_int := bounds.2.1
  stop_int := bounds.2.2.1
  length_le := bounds.2.2.2.1
  grain_pos := bounds.2.2.2.2.1
  grain_le := bounds.2.2.2.2.2

theorem quarters_bounds : (0 : Int) < 100 ∧ IntMin ≤ 0 ∧ 100 ≤ IntMax ∧
    (100 : Int) - 0 ≤ 1073741824 ∧ (1 : Int) ≤ 25 ∧ (25 : Int) ≤ 536870912 := by decide

def quarters : Job := .of 0 100 25 2 quarters_bounds

/-- One target gets `[50, 100)`, and the caller gives `[25, 50)` away. -/
def splitting : List Label :=
  [.seeds 1, .seed true, .push, .seed true, .look 0 true true, .pushPiece 0, .begin 1,
    .look 1 false true, .look 0 true true, .bodyReturned 0, .done 0, .bodyReturned 1,
    .look 1 true true, .bodyReturned 1, .begin 2, .done 1, .look 2 true true, .bodyReturned 2,
    .done 2, .waited]

def splitRun : State := (run (step quarters) anyStep initial splitting).getD initial

theorem splitRun_reach : Reach (step quarters) anyStep initial splitRun :=
  Reach.of_isSome splitting (by decide +kernel)

theorem splitRun_covers :
    splitRun.caller = .returned ∧ splitRun.calls = [(50, 75), (0, 25), (75, 100), (25, 50)] ∧
      Covered quarters splitRun :=
  ⟨by decide +kernel, by decide +kernel, lazy_covers quarters splitRun splitRun_reach⟩

end JLibSched.ParallelFor.Lazy
