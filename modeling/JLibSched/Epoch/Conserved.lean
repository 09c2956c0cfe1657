import JLibSched.Epoch.Gates

/-!
# Entries are freed once and counted

An entry waits in a bag, in the orphan store or in the hands of a call, until its deleter is run.
`Moved` says what a step does to the entries and to the count.  The count lags behind by the calls of
`RetirePtr` that have yet to count their entry, and is ahead by what passes have freed and not yet
taken off.
-/

namespace JLibSched.Gates

open Transition Stacks

variable {n : Nat} {s t : State n} {i : Fin n} {sh sh' : Shared n} {old new rest : List Frame}
  {a : Label n}

/-! ## What the frames stand for -/

/-- The entries that a call has in hand. -/
def Frame.entries : Frame → List Entry
  | .retirePtr entry => [entry]
  | .sweep _ work kept _ => work ++ kept
  | .sweepOrphans _ todo kept _ => todo ++ kept
  | _ => []

/-- A call of `RetirePtr` that has yet to count its entry. -/
def Frame.uncounted : Frame → Nat
  | .count => 1
  | _ => 0

/-- What a pass has freed and not yet taken off the count. -/
def Frame.ahead : Frame → Nat
  | .sweep _ _ _ freed | .loadOrphans _ freed | .lockOrphans _ freed | .sweepOrphans _ _ _ freed
  | .uncount freed => freed
  | _ => 0

/-- Who goes through the store holds its mutex. -/
def Frame.holds : Frame → Nat
  | .sweepOrphans .. => 1
  | _ => 0

/-- What a step of thread `i` does: `born` is retired, and a deleter runs for `ran`. -/
structure Moved (i : Fin n) (sh : Shared n) (old : List Frame) (sh' : Shared n) (new : List Frame)
    (born ran : List Entry) : Prop where
  retired : sh'.retired = sh.retired ++ born
  freed : sh'.freed = sh.freed ++ ran
  numbers : ∀ e ∈ born, born = [e] ∧ e.number = sh.retired.length
  waiting : ∀ m : Entry → Bool,
    (sh'.bag i).countP m + sh'.orphans.countP m + (new.map fun f => f.entries.countP m).sum +
        ran.countP m =
      (sh.bag i).countP m + sh.orphans.countP m + (old.map fun f => f.entries.countP m).sum +
        born.countP m
  others : ∀ j, j ≠ i → sh'.bag j = sh.bag j
  count : sh'.retiredCount + UInt64.ofNat (new.map Frame.uncounted).sum + UInt64.ofNat ran.length +
      UInt64.ofNat (old.map Frame.ahead).sum =
    sh.retiredCount + UInt64.ofNat (old.map Frame.uncounted).sum + UInt64.ofNat born.length +
      UInt64.ofNat (new.map Frame.ahead).sum
  lock : (new.map Frame.holds).sum + sh.orphanLock.toNat =
    (old.map Frame.holds).sum + sh'.orphanLock.toNat
  emptied : sh'.orphanLock = true → sh'.orphans = []

/-- A step of the call that touches none of this. -/
theorem Moved.still (empty : sh.orphanLock = true → sh.orphans = [])
    (retired : sh'.retired = sh.retired) (freed : sh'.freed = sh.freed) (bag : sh'.bag = sh.bag)
    (orphans : sh'.orphans = sh.orphans) (lock : sh'.orphanLock = sh.orphanLock)
    (count : sh'.retiredCount = sh.retiredCount)
    (entries : ∀ m : Entry → Bool, (new.map fun f => f.entries.countP m).sum =
      (old.map fun f => f.entries.countP m).sum)
    (uncounted : (new.map Frame.uncounted).sum = (old.map Frame.uncounted).sum)
    (ahead : (new.map Frame.ahead).sum = (old.map Frame.ahead).sum)
    (holds : (new.map Frame.holds).sum = (old.map Frame.holds).sum) :
    Moved i sh old sh' new [] [] where
  retired := by rw [retired, List.append_nil]
  freed := by rw [freed, List.append_nil]
  numbers e absurd := by cases absurd
  waiting m := by rw [bag, orphans, entries]
  others j _ := by rw [bag]
  count := by
    rw [count, uncounted, ahead]
  lock := by rw [lock, holds]
  emptied := by
    rw [lock, orphans]
    exact empty

theorem Moved.of_call (empty : sh.orphanLock = true → sh.orphans = []) (op : Op) :
    ∃ born, Moved i sh [] (call sh op).1 (call sh op).2 born [] := by
  cases op with
  | gate | tryReclaim | tick =>
    exact ⟨[], .still empty rfl rfl rfl rfl rfl rfl (fun _ => rfl) rfl rfl rfl⟩
  | retirePtr ptr epoch =>
    refine ⟨[⟨ptr, epoch, sh.retired.length⟩], rfl, (List.append_nil _).symm, ?_, fun m => ?_,
      fun _ _ => rfl, ?_, rfl, empty⟩
    · intro e mem
      obtain rfl := List.mem_singleton.mp mem
      exact ⟨rfl, rfl⟩
    · simp only [call, Frame.entries, List.map_cons, List.map_nil, List.sum_cons, List.sum_nil,
        List.countP_nil]
      omega
    · simp only [call, Frame.uncounted, Frame.ahead, List.map_cons, List.map_nil, List.sum_cons,
        List.sum_nil, List.length_singleton, List.length_nil]
      grind

/-- The section of `OrphanEpochEntries`, for what comes from the bag (`bag`) or from a call. -/
theorem Moved.orphan (free : sh.orphanLock = false) {entries : List Entry}
    {bag : Fin n → List Entry} {dead gate : Fin n → Bool} {limit : Fin n → Nat}
    (others : ∀ j, j ≠ i → bag j = sh.bag j)
    (same : ∀ m : Entry → Bool, (bag i).countP m + entries.countP m +
        (new.map fun f => f.entries.countP m).sum =
      (sh.bag i).countP m + (old.map fun f => f.entries.countP m).sum)
    (uncounted : (new.map Frame.uncounted).sum = (old.map Frame.uncounted).sum)
    (ahead : (new.map Frame.ahead).sum = (old.map Frame.ahead).sum)
    (holds : (new.map Frame.holds).sum = (old.map Frame.holds).sum) :
    Moved i sh old
      { sh.orphan entries with bag := bag, bagDead := dead, inGate := gate, bagLimit := limit }
      new [] [] where
  retired := (List.append_nil _).symm
  freed := (List.append_nil _).symm
  numbers e absurd := by cases absurd
  waiting m := by
    have same := same m
    simp only [Shared.orphan, List.countP_append, List.countP_nil]
    omega
  others := others
  count := by
    rw [uncounted, ahead]
    rfl
  lock := by
    rw [holds]
    rfl
  emptied absurd := by cases free.symm.trans absurd

/-- `OrphanEpochEntries` on a bag. -/
theorem Moved.orphanBag {dead gate : Fin n → Bool} {limit : Fin n → Nat}
    (empty : sh.orphanLock = true → sh.orphans = []) (moved : sh.orphanBag i = some sh')
    (entries : ∀ m : Entry → Bool, (new.map fun f => f.entries.countP m).sum =
      (old.map fun f => f.entries.countP m).sum)
    (uncounted : (new.map Frame.uncounted).sum = (old.map Frame.uncounted).sum)
    (ahead : (new.map Frame.ahead).sum = (old.map Frame.ahead).sum)
    (holds : (new.map Frame.holds).sum = (old.map Frame.holds).sum) :
    Moved i sh old { sh' with bagDead := dead, inGate := gate, bagLimit := limit } new [] [] := by
  unfold Shared.orphanBag at moved
  split at moved
  · cases moved
    exact .still empty rfl rfl rfl rfl rfl rfl entries uncounted ahead holds
  · obtain ⟨free, moved⟩ := Option.ite_none_left_eq_some.mp moved
    cases moved
    refine .orphan (Bool.eq_false_of_not_eq_true free)
      (fun j other => Function.update_of_ne other _ _) (fun m => ?_) uncounted ahead holds
    simp only [Function.update_self, List.countP_nil, entries]
    omega

/-- The deleter of an entry is run by a pass that goes through a copy, and the pass counts it. -/
theorem Moved.free (empty : sh.orphanLock = true → sh.orphans = []) {entry : Entry}
    (entries : ∀ m : Entry → Bool, (new.map fun f => f.entries.countP m).sum + [entry].countP m =
      (old.map fun f => f.entries.countP m).sum)
    (uncounted : (new.map Frame.uncounted).sum = (old.map Frame.uncounted).sum)
    (ahead : (new.map Frame.ahead).sum = (old.map Frame.ahead).sum + 1)
    (holds : (new.map Frame.holds).sum = (old.map Frame.holds).sum) :
    Moved i sh old { sh with freed := sh.freed ++ [entry] } new [] [entry] where
  retired := (List.append_nil _).symm
  freed := rfl
  numbers e absurd := by cases absurd
  waiting m := by
    have entries := entries m
    simp only [List.countP_nil]
    omega
  others _ _ := rfl
  count := by
    rw [uncounted, ahead, UInt64.ofNat_add]
    simp only [List.length_singleton, List.length_nil]
    grind
  lock := by rw [holds]
  emptied := empty

/-- The bag of the thread, and what its call has in hand, change places. -/
theorem Moved.bag (empty : sh.orphanLock = true → sh.orphans = []) {bag : List Entry}
    (same : ∀ m : Entry → Bool, bag.countP m + (new.map fun f => f.entries.countP m).sum =
      (sh.bag i).countP m + (old.map fun f => f.entries.countP m).sum)
    (uncounted : (new.map Frame.uncounted).sum = (old.map Frame.uncounted).sum)
    (ahead : (new.map Frame.ahead).sum = (old.map Frame.ahead).sum)
    (holds : (new.map Frame.holds).sum = (old.map Frame.holds).sum) :
    Moved i sh old { sh with bag := Function.update sh.bag i bag } new [] [] where
  retired := (List.append_nil _).symm
  freed := (List.append_nil _).symm
  numbers e absurd := by cases absurd
  waiting m := by
    have same := same m
    simp only [Function.update_self, List.countP_nil]
    omega
  others j other := Function.update_of_ne other _ _
  count := by rw [uncounted, ahead]
  lock := by rw [holds]
  emptied := empty

theorem Moved.of_effect {f : Frame} {minActiveEpoch : Nat}
    (empty : sh.orphanLock = true → sh.orphans = [])
    (holding : f.holds ≤ sh.orphanLock.toNat)
    (moved : effect sh i minActiveEpoch f = some (sh', new)) :
    ∃ ran, Moved i sh [f] sh' new [] ran := by
  cases f with
  | retirePtr entry =>
    simp only [effect] at moved
    split at moved
    · obtain ⟨free, moved⟩ := Option.ite_none_left_eq_some.mp moved
      cases moved
      refine ⟨[], .orphan (Bool.eq_false_of_not_eq_true free) (fun _ _ => rfl) (fun m => ?_)
        rfl rfl rfl⟩
      rfl
    · split at moved
      · cases moved
        exact ⟨[], .bag empty (fun m => by rw [List.countP_append]; rfl) rfl rfl rfl⟩
      · cases moved
        exact ⟨[], .bag empty (fun m => by rw [List.countP_append]; rfl) rfl rfl rfl⟩
  | count =>
    cases moved
    refine ⟨[], (List.append_nil _).symm, (List.append_nil _).symm, fun e absurd => (by cases absurd),
      fun m => rfl, fun _ _ => rfl, ?_, rfl, empty⟩
    simp only [Frame.uncounted, Frame.ahead, List.map_cons, List.map_nil, List.sum_cons,
      List.sum_nil, List.length_nil]
    grind
  | gate idle orphans | loadOrphans pass freed =>
    simp only [effect] at moved
    split at moved
    · cases moved
      exact ⟨[], .still empty rfl rfl rfl rfl rfl rfl (fun _ => rfl) rfl rfl rfl⟩
    · cases moved
      exact ⟨[], .still empty rfl rfl rfl rfl rfl rfl (fun _ => rfl) rfl rfl rfl⟩
  | scan | deleting =>
    cases moved
    exact ⟨[], .still empty rfl rfl rfl rfl rfl rfl (fun _ => rfl) rfl rfl rfl⟩
  | rearm idle =>
    cases idle with
    | false =>
      cases moved
      exact ⟨[], .still empty rfl rfl rfl rfl rfl rfl (fun _ => rfl) rfl rfl rfl⟩
    | true =>
      obtain ⟨sh'', adopted, same⟩ := Option.map_eq_some_iff.mp moved
      cases same
      exact ⟨[], .orphanBag empty adopted (fun _ => rfl) rfl rfl rfl⟩
  | tryReclaim orphans =>
    simp only [effect] at moved
    split at moved
    · cases moved
      exact ⟨[], .still empty rfl rfl rfl rfl rfl rfl (fun _ => rfl) rfl rfl rfl⟩
    · cases moved
      refine ⟨[], .bag empty (fun m => ?_) rfl rfl rfl⟩
      simp only [Frame.entries, List.map_cons, List.map_nil, List.sum_cons, List.sum_nil,
        List.append_nil, List.countP_nil]
      omega
  | sweep pass work kept freed =>
    cases work with
    | nil =>
      simp only [effect] at moved
      split at moved
      · cases moved
        exact ⟨[], .bag empty (fun m => by rw [List.countP_append]; rfl) rfl rfl rfl⟩
      · cases moved
        exact ⟨[], .bag empty (fun m => by rw [List.countP_append]; rfl) rfl rfl rfl⟩
    | cons entry work =>
      simp only [effect] at moved
      split at moved
      · cases moved
        refine ⟨[entry], .free empty (fun m => ?_) rfl ?_ rfl⟩
        · simp only [Frame.entries, List.map_cons, List.map_nil, List.sum_cons, List.sum_nil,
            List.countP_append, List.cons_append, List.countP_cons, List.countP_nil]
          omega
        · simp only [Frame.ahead, List.map_cons, List.map_nil, List.sum_cons, List.sum_nil]
          omega
      · cases moved
        refine ⟨[], .still empty rfl rfl rfl rfl rfl rfl (fun m => ?_) rfl rfl rfl⟩
        simp only [Frame.entries, List.map_cons, List.map_nil, List.sum_cons, List.sum_nil,
          List.countP_append, List.cons_append, List.countP_cons, List.countP_nil]
        omega
  | lockOrphans pass freed =>
    obtain ⟨free, moved⟩ := Option.ite_none_left_eq_some.mp moved
    cases moved
    refine ⟨[], (List.append_nil _).symm, (List.append_nil _).symm, fun e absurd => (by cases absurd),
      fun m => ?_, fun _ _ => rfl, rfl, ?_, fun _ => rfl⟩
    · simp only [Frame.entries, List.map_cons, List.map_nil, List.sum_cons, List.sum_nil,
        List.append_nil, List.countP_nil]
      omega
    · rw [Bool.eq_false_of_not_eq_true free]
      rfl
  | sweepOrphans pass todo kept freed =>
    have lock : sh.orphanLock = true := by
      cases lock : sh.orphanLock with
      | true => rfl
      | false =>
        rw [lock] at holding
        cases holding
    cases todo with
    | nil =>
      cases moved
      refine ⟨[], (List.append_nil _).symm, (List.append_nil _).symm,
        fun e absurd => (by cases absurd), fun m => ?_, fun _ _ => rfl, rfl, ?_,
        fun absurd => (by cases absurd)⟩
      · simp only [Frame.entries, List.map_cons, List.map_nil, List.sum_cons, List.sum_nil,
          List.nil_append, List.countP_nil]
        rw [empty lock, List.countP_nil]
        omega
      · rw [lock]
        rfl
    | cons entry todo =>
      simp only [effect] at moved
      split at moved
      · cases moved
        refine ⟨[entry], .free empty (fun m => ?_) rfl ?_ rfl⟩
        · simp only [Frame.entries, List.map_cons, List.map_nil, List.sum_cons, List.sum_nil,
            List.countP_append, List.cons_append, List.countP_cons, List.countP_nil]
          omega
        · simp only [Frame.ahead, List.map_cons, List.map_nil, List.sum_cons, List.sum_nil]
          omega
      · cases moved
        refine ⟨[], .still empty rfl rfl rfl rfl rfl rfl (fun m => ?_) rfl rfl rfl⟩
        simp only [Frame.entries, List.map_cons, List.map_nil, List.sum_cons, List.sum_nil,
          List.countP_append, List.cons_append, List.countP_cons, List.countP_nil]
        omega
  | uncount freed =>
    cases moved
    split
    · rename_i none
      subst none
      exact ⟨[], .still empty rfl rfl rfl rfl rfl rfl (fun _ => rfl) rfl rfl rfl⟩
    · refine ⟨[], (List.append_nil _).symm, (List.append_nil _).symm,
        fun e absurd => (by cases absurd), fun m => rfl, fun _ _ => rfl, ?_, rfl, empty⟩
      simp only [Frame.uncounted, Frame.ahead, List.map_cons, List.map_nil, List.sum_cons,
        List.sum_nil, List.length_nil]
      grind

/-! ## A run -/

/-- How many entries of a kind wait. -/
def State.waiting (s : State n) (m : Entry → Bool) : Nat :=
  ∑ i, (s.shared.bag i).countP m + s.shared.orphans.countP m +
    total (fun f => f.entries.countP m) s.stack

structure Inv (s : State n) : Prop where
  /-- What was retired is numbered in order. -/
  numbered : s.shared.retired.Nodup ∧
    ∀ e ∈ s.shared.retired, e.number < s.shared.retired.length
  all : ∀ m, s.waiting m + s.shared.freed.countP m = s.shared.retired.countP m
  count : s.shared.retiredCount + UInt64.ofNat (total Frame.uncounted s.stack) +
      UInt64.ofNat s.shared.freed.length =
    UInt64.ofNat s.shared.retired.length + UInt64.ofNat (total Frame.ahead s.stack)
  lock : total Frame.holds s.stack = s.shared.orphanLock.toNat
  empty : s.shared.orphanLock = true → s.shared.orphans = []

theorem initial_waiting (m : Entry → Bool) : (initial : State n).waiting m = 0 := by
  have frames : total (fun f => f.entries.countP m) (initial : State n).stack = 0 :=
    total_empty _ _ fun _ => rfl
  have bags : ∑ i, ((initial : State n).shared.bag i).countP m = 0 :=
    Finset.sum_eq_zero fun i _ => rfl
  unfold State.waiting
  rw [frames, bags]
  rfl

theorem initial_inv : Inv (initial : State n) where
  numbered := ⟨List.nodup_nil, fun e absurd => by cases absurd⟩
  all m := by
    rw [initial_waiting]
    rfl
  count := by
    have uncounted : total Frame.uncounted (initial : State n).stack = 0 :=
      total_empty _ _ fun _ => rfl
    have ahead : total Frame.ahead (initial : State n).stack = 0 := total_empty _ _ fun _ => rfl
    rw [uncounted, ahead]
    rfl
  lock := total_empty _ _ fun _ => rfl
  empty absurd := by cases absurd

theorem Moved.numbered {born ran : List Entry} (moved : Moved i sh old sh' new born ran)
    (numbered : sh.retired.Nodup ∧ ∀ e ∈ sh.retired, e.number < sh.retired.length) :
    sh'.retired.Nodup ∧ ∀ e ∈ sh'.retired, e.number < sh'.retired.length := by
  obtain ⟨nodup, below⟩ := numbered
  rw [moved.retired]
  cases born with
  | nil =>
    rw [List.append_nil]
    exact ⟨nodup, below⟩
  | cons e born =>
    obtain ⟨single, number⟩ := moved.numbers e List.mem_cons_self
    rw [single]
    refine ⟨nodup.append (List.nodup_singleton _) ?_, fun x mem => ?_⟩
    · intro x mem new
      obtain rfl := List.mem_singleton.mp new
      exact Nat.ne_of_lt (below x mem) number
    · rw [List.length_append, List.length_singleton]
      rcases List.mem_append.mp mem with before | new
      · exact Nat.lt_succ_of_lt (below x before)
      · obtain rfl := List.mem_singleton.mp new
        rw [number]
        exact Nat.lt_succ_self _

theorem Inv.move (inv : Inv s) {born ran : List Entry} (here : s.stack i = old ++ rest)
    (moved : Moved i s.shared old sh new born ran) :
    Inv ⟨sh, replace s.stack i new rest⟩ where
  numbered := moved.numbered inv.numbered
  all m := by
    have bags : sh.bag = Function.update s.shared.bag i (sh.bag i) := by
      funext j
      rcases eq_or_ne j i with rfl | other
      · rw [Function.update_self]
      · rw [Function.update_of_ne other, moved.others j other]
    have sum := sum_update (List.countP m) s.shared.bag i (sh.bag i)
    rw [← bags] at sum
    have frames := total_replace (fun f : Frame => f.entries.countP m) new here
    have waiting := moved.waiting m
    have all := inv.all m
    unfold State.waiting at *
    simp only [moved.retired, moved.freed, List.countP_append]
    omega
  count := by
    have uncounted := congrArg UInt64.ofNat (total_replace Frame.uncounted new here)
    have ahead := congrArg UInt64.ofNat (total_replace Frame.ahead new here)
    have count := moved.count
    have before := inv.count
    simp only [moved.retired, moved.freed, List.length_append, UInt64.ofNat_add] at *
    grind
  lock := by
    have holds := total_replace Frame.holds new here
    have lock := moved.lock
    have before := inv.lock
    simp only
    omega
  empty := moved.emptied

theorem Inv.step (inv : Inv s) (stepped : Gates.step s a = some t) : Inv t := by
  cases a with
  | call i op =>
    obtain ⟨-, moved⟩ := Option.ite_none_right_eq_some.mp stepped
    cases moved
    obtain ⟨born, moved⟩ := Moved.of_call (i := i) inv.empty op
    exact inv.move rfl moved
  | step i minActiveEpoch =>
    simp only [Gates.step] at stepped
    cases here : s.stack i with
    | nil =>
      rw [here] at stepped
      cases stepped
    | cons f rest =>
      rw [here] at stepped
      obtain ⟨⟨sh, new⟩, moved, same⟩ := Option.map_eq_some_iff.mp stepped
      cases same
      have holding : f.holds ≤ s.shared.orphanLock.toNat := by
        rw [← inv.lock]
        refine le_total Frame.holds (i := i) ?_
        rw [here]
        exact List.mem_cons_self
      obtain ⟨ran, moved⟩ := Moved.of_effect inv.empty holding moved
      have here : s.stack i = [f] ++ rest := here
      exact inv.move here moved
  | exit i =>
    obtain ⟨idle, moved⟩ := Option.ite_none_right_eq_some.mp stepped
    obtain ⟨sh, adopted, same⟩ := Option.map_eq_some_iff.mp moved
    cases same
    have moved : Moved i s.shared [] { sh with bagDead := Function.update sh.bagDead i true } []
        [] [] := .orphanBag inv.empty adopted (fun _ => rfl) rfl rfl rfl
    have left := inv.move idle moved
    rw [replace_self idle] at left
    exact left
  | slot i runsGates =>
    cases stepped
    exact ⟨inv.numbered, inv.all, inv.count, inv.lock, inv.empty⟩

/-- When no call is under way, what waits is in the bags and the store. -/
theorem waiting_idle (idle : ∀ i, s.stack i = []) (m : Entry → Bool) :
    s.waiting m = ∑ i, (s.shared.bag i).countP m + s.shared.orphans.countP m := by
  unfold State.waiting
  rw [total_empty _ _ idle]
  rfl

/-- Every entry that was retired is in one place: it waits in a bag, in the store or with a call, or
its deleter was run, once.  When no call is under way, the count is the number of the entries in the
bags and the store. -/
theorem entries_conserved (s : State n) (reach : Reach Gates.step anyStep initial s) :
    (∀ e, s.waiting (· == e) + s.shared.freed.count e = if e ∈ s.shared.retired then 1 else 0) ∧
      ((∀ i, s.stack i = []) →
        (∀ e, ∑ i, (s.shared.bag i).count e + s.shared.orphans.count e + s.shared.freed.count e =
          if e ∈ s.shared.retired then 1 else 0) ∧
        s.shared.retiredCount =
          UInt64.ofNat (∑ i, (s.shared.bag i).length + s.shared.orphans.length)) := by
  have inv : Inv s := reach.invariant initial_inv fun inv _ stepped => inv.step stepped
  have all (e : Entry) : s.waiting (· == e) + s.shared.freed.count e =
      if e ∈ s.shared.retired then 1 else 0 := by
    rw [← inv.numbered.1.count]
    exact inv.all _
  refine ⟨all, fun idle => ⟨fun e => ?_, ?_⟩⟩
  · rw [← all, waiting_idle idle]
    rfl
  · have count := inv.count
    rw [total_empty _ _ idle, total_empty _ _ idle] at count
    have every := inv.all fun _ => true
    rw [waiting_idle idle] at every
    simp only [List.countP_true] at every
    have sum := congrArg UInt64.ofNat every
    simp only [UInt64.ofNat_add] at sum count ⊢
    grind

/-- The deleter that thread 0 runs in `Tick` retires another object; thread 1 is idle and leaves its
bag to the store. -/
def busyLabels : List (Label 2) :=
  [.slot 0 true, .slot 1 true, .call 0 (.retirePtr 7 0), .step 0 0, .step 0 0,
    .call 1 (.retirePtr 8 5), .step 1 0, .step 1 0, .call 1 (.gate true false), .step 1 0, .step 1 1,
    .step 1 0, .step 1 0, .step 1 0, .step 1 0, .step 1 0, .call 0 .tick, .step 0 1, .step 0 0,
    .call 0 (.retirePtr 9 1), .step 0 0, .step 0 0] ++ List.replicate 7 (.step 0 0)

def busyAt : State 2 := (run Gates.step anyStep initial busyLabels).getD initial

theorem busyAt_conserved :
    busyAt.shared.freed = [⟨7, 0, 0⟩] ∧ busyAt.shared.bag 0 = [⟨9, 1, 2⟩] ∧
      busyAt.shared.orphans = [⟨8, 5, 1⟩] ∧
      (∀ e, busyAt.waiting (· == e) + busyAt.shared.freed.count e =
        if e ∈ busyAt.shared.retired then 1 else 0) ∧
      ((∀ i, busyAt.stack i = []) →
        (∀ e, ∑ i, (busyAt.shared.bag i).count e + busyAt.shared.orphans.count e +
          busyAt.shared.freed.count e = if e ∈ busyAt.shared.retired then 1 else 0) ∧
        busyAt.shared.retiredCount =
          UInt64.ofNat (∑ i, (busyAt.shared.bag i).length + busyAt.shared.orphans.length)) :=
  ⟨by decide +kernel, by decide +kernel, by decide +kernel,
    entries_conserved busyAt (Reach.of_isSome busyLabels (by decide +kernel))⟩

end JLibSched.Gates
