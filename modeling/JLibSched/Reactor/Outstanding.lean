import JLibSched.Reactor.Holders

/-!
# The count of the requests that are outstanding

`g_ioOutstanding` goes up in `Link` and down in `UnlinkLocked`, and counts the requests in the lists
while `UnlinkLocked` finds each of them in its list.  It does as long as no call of `SubmitOp` fails
at `io_uring_enter` and the rest of a send is never refused at once.
-/

namespace JLibSched.Reactor

open Transition Ring

variable {n : Nat} {s t : State n} {a : Label n} {lists : Nat → List Nat} {q r : Nat}

/-- No call of `SubmitOp` fails at `io_uring_enter`, and none of `Complete` returns true. -/
def settled (s : State n) (a : Label n) : Prop := taken s a ∧ ¬ refused s a

instance (s : State n) (a : Label n) : Decidable (settled s a) :=
  inferInstanceAs (Decidable (taken s a ∧ ¬ refused s a))

/-- How many requests there are in the lists. -/
def total (lists : Nat → List Nat) : Nat := ∑ i ∈ Finset.range kShards, (lists i).length

/-- What is in the lists is what the parties, the ring and the kernel have. -/
structure Counted (s : State n) (lists : Nat → List Nat) : Prop where
  holds : s.shards.Holds lists
  linked : ∀ r, s.after r + s.held r = if r ∈ lists (shardFor r) then 1 else 0
  outstanding : s.shards.outstanding = (total lists : Int)
  once : ∀ r, s.linksOf r = s.unlinksOf r + if r ∈ lists (shardFor r) then 1 else 0

theorem shardFor_lt : shardFor r < kShards := Nat.mod_lt _ (by decide)

theorem total_update (lists : Nat → List Nat) (l : List Nat) :
    total (Function.update lists (shardFor r) l) + (lists (shardFor r)).length =
      total lists + l.length := by
  have mem := Finset.mem_range.mpr (shardFor_lt (r := r))
  unfold total
  rw [← Finset.add_sum_erase _ _ mem, ← Finset.add_sum_erase _ (fun i => (lists i).length) mem,
    Function.update_self]
  have rest : ∑ i ∈ (Finset.range kShards).erase (shardFor r),
      (Function.update lists (shardFor r) l i).length =
        ∑ i ∈ (Finset.range kShards).erase (shardFor r), (lists i).length := by
    refine Finset.sum_congr rfl fun i other => ?_
    rw [Function.update_of_ne (Finset.ne_of_mem_erase other)]
  rw [rest]
  omega

theorem initial_balanced {ringUp : Bool} : (initial n ringUp).Balanced := by
  intro r
  have held : (initial n ringUp).held r = 0 := by
    unfold State.held State.ops
    rw [initial_pending]
    rfl
  have before : (initial n ringUp).before r = 0 := Finset.sum_eq_zero fun p _ => rfl
  have after : (initial n ringUp).after r = 0 := Finset.sum_eq_zero fun p _ => rfl
  rw [held, before, after]
  rfl

theorem initial_counted {ringUp : Bool} : Counted (initial n ringUp) fun _ => [] where
  holds := empty_holds
  linked r := by
    have balanced := (initial_balanced : (initial n ringUp).Balanced) r
    have free : ((initial n ringUp).busy r).toNat = 0 := rfl
    rw [if_neg List.not_mem_nil]
    omega
  outstanding := rfl
  once r := by
    rw [if_neg List.not_mem_nil]
    rfl

theorem Counted.filed (counted : Counted s lists) (balanced : s.Balanced) (filed : Filed s t) :
    ∃ lists, Counted t lists := by
  cases filed with
  | stay after shards links unlinks =>
    refine ⟨lists, ⟨?_, fun r => ?_, ?_, fun r => ?_⟩⟩
    · rw [shards]
      exact counted.holds
    · rw [after r]
      exact counted.linked r
    · rw [shards]
      exact counted.outstanding
    · rw [links, unlinks]
      exact counted.once r
  | link q waiting after shards links unlinks =>
    have out : q ∉ lists (shardFor q) := by
      intro mem
      have once := counted.linked q
      have one := balanced q
      have bound := Bool.toNat_le (s.busy q)
      rw [if_pos mem] at once
      omega
    refine ⟨Function.update lists (shardFor q) (q :: lists (shardFor q)), ⟨?_, fun r => ?_, ?_,
      fun r => ?_⟩⟩
    · rw [shards]
      exact counted.holds.link out
    · have before := counted.linked r
      have now := after r
      simp only [mem_update_cons]
      rcases eq_or_ne r q with rfl | other
      · rw [if_neg out] at before
        rw [one_self] at now
        rw [if_pos (.inl rfl)]
        omega
      · rw [one_of_ne other.symm] at now
        simp only [other, false_or]
        omega
    · have counts := total_update lists (r := q) (q :: lists (shardFor q))
      have more : t.shards.outstanding = s.shards.outstanding + 1 := by
        rw [shards]
        rfl
      have before := counted.outstanding
      rw [List.length_cons] at counts
      omega
    · have before := counted.once r
      rw [links, unlinks]
      simp only [mem_update_cons]
      rcases eq_or_ne r q with rfl | other
      · rw [if_neg out] at before
        rw [Function.update_self, if_pos (.inl rfl)]
        omega
      · rw [Function.update_of_ne other]
        simp only [other, false_or]
        exact before
  | unlink q after shards links unlinks =>
    have mem : q ∈ lists (shardFor q) := by
      by_contra out
      have once := counted.linked q
      have now := after q
      rw [if_neg out] at once
      rw [one_self] at now
      omega
    have nodup := counted.holds.nodup (shardFor q)
    refine ⟨Function.update lists (shardFor q) ((lists (shardFor q)).erase q), ⟨?_, fun r => ?_, ?_,
      fun r => ?_⟩⟩
    · rw [shards]
      exact counted.holds.unlink mem
    · have before := counted.linked r
      have now := after r
      simp only [mem_update_erase nodup]
      rcases eq_or_ne r q with rfl | other
      · rw [if_pos mem] at before
        rw [one_self] at now
        rw [if_neg fun both => both.1 rfl]
        omega
      · rw [one_of_ne other.symm] at now
        simp only [ne_eq, other, not_false_eq_true, true_and]
        omega
    · have counts := total_update lists (r := q) ((lists (shardFor q)).erase q)
      have less : t.shards.outstanding = s.shards.outstanding - 1 := by
        rw [shards]
        rfl
      have before := counted.outstanding
      have some := List.length_pos_of_mem mem
      rw [List.length_erase_of_mem mem] at counts
      omega
    · have before := counted.once r
      rw [links, unlinks]
      simp only [mem_update_erase nodup]
      rcases eq_or_ne r q with rfl | other
      · rw [if_pos mem] at before
        rw [Function.update_self, if_neg fun both => both.1 rfl]
        omega
      · rw [Function.update_of_ne other]
        simp only [ne_eq, other, not_false_eq_true, true_and]
        exact before

theorem counted_of_reach {ringUp : Bool} (reach : Reach step settled (initial n ringUp) s) :
    s.Balanced ∧ ∃ lists, Counted s lists := by
  refine reach.invariant_of (J := fun s => s.ring.Sound)
    (I := fun s => s.Balanced ∧ ∃ lists, Counted s lists) ring_of_reach
    ⟨initial_balanced, _, initial_counted⟩ ?_
  intro s t a sound inv may stepped
  obtain ⟨balanced, lists, counted⟩ := inv
  obtain ⟨balanced', filed⟩ := (move_of_step stepped).filed sound may.1 balanced
  exact ⟨balanced', counted.filed balanced (filed.resolve_right fun slipped => may.2 slipped.1)⟩

/-- The lists of the shards, the count, and the links and unlinks of each request, in every state of
a run in which no call of `SubmitOp` fails at `io_uring_enter` and no rest of a send is refused. -/
theorem outstanding_counts {ringUp : Bool} (reach : Reach step settled (initial n ringUp) s) :
    0 ≤ s.shards.outstanding ∧
      ∃ lists, s.shards.Holds lists ∧ s.shards.outstanding = (total lists : Int) ∧
        (∀ i j r, r ∈ lists i → r ∈ lists j → i = j) ∧
        ∀ r, s.linksOf r = s.unlinksOf r + if r ∈ lists (shardFor r) then 1 else 0 := by
  obtain ⟨-, lists, counted⟩ := counted_of_reach reach
  refine ⟨?_, lists, counted.holds, counted.outstanding, fun i j r here there => ?_, counted.once⟩
  · rw [counted.outstanding]
    exact Int.natCast_nonneg _
  · exact (counted.holds.place i r here).symm.trans (counted.holds.place j r there)

/-- A send is done in two parts. -/
def partsLabels : List (Label 2) :=
  [.start, .submit 0 0 (.send 3 64 8 0) 1 2 none, .advance 0 true, .advance 0 true, .advance 0 true,
    .submit 0 16 (.recv 4 64 8 0) 1 2 none, .advance 0 true, .advance 0 true, .advance 0 true,
    .complete 1 0 0 5, .advance 1 true, .advance 1 true, .advance 1 true, .advance 1 true,
    .complete 1 0 2 3, .advance 1 true]

def parts : State 2 := (run step settled (initial 2 true) partsLabels).getD (initial 2 true)

theorem parts_counts : parts.linksOf 0 = 2 ∧ parts.unlinksOf 0 = 2 ∧
    0 ≤ parts.shards.outstanding ∧
      ∃ lists, parts.shards.Holds lists ∧ parts.shards.outstanding = (total lists : Int) ∧
        (∀ i j r, r ∈ lists i → r ∈ lists j → i = j) ∧
        ∀ r, parts.linksOf r = parts.unlinksOf r + if r ∈ lists (shardFor r) then 1 else 0 :=
  ⟨by decide +kernel, by decide +kernel,
    outstanding_counts (Reach.of_isSome partsLabels (by decide +kernel))⟩

/-- The reactor is stopping when the first part of a send is done, and the rest is refused. -/
def brokenOffLabels : List (Label 1) :=
  [.start, .submit 0 0 (.send 3 64 8 0) 1 2 none, .advance 0 true, .advance 0 true, .advance 0 true,
    .stop, .complete 0 0 0 5, .advance 0 true, .advance 0 true, .advance 0 true]

def brokenOff : State 1 := (run step anyStep (initial 1 true) brokenOffLabels).getD (initial 1 true)

/-- Nobody is doing anything, no request is in a list, and the one that was linked once was unlinked
twice. -/
theorem broken_off : Reach step anyStep (initial 1 true) brokenOff ∧ brokenOff.pc 0 = .idle ∧
    brokenOff.kernel = [] ∧ (∀ i < kShards, brokenOff.shards.head i = none) ∧
    brokenOff.shards.outstanding = -1 ∧ brokenOff.linksOf 0 = 1 ∧ brokenOff.unlinksOf 0 = 2 :=
  ⟨Reach.of_isSome brokenOffLabels (by decide +kernel), by decide +kernel, by decide +kernel,
    by decide +kernel, by decide +kernel, by decide +kernel, by decide +kernel⟩

end JLibSched.Reactor
