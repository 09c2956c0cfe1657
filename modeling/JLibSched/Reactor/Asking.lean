import JLibSched.Reactor.Outstanding

/-!
# Whom `RequestCancel` asks

`RequestCancel` in one piece, when nobody submits or completes meanwhile.  On Linux it keeps the
targets of a shard in an array of 64 places, and goes on to the next shard when `io_uring_enter`
fails.  On Windows it asks each request as it walks the list.
-/

namespace JLibSched.Reactor

open Transition Cancel Ring Links

variable {n : Nat} {s t : State n} {p : Fin n} {lists : Nat → List Nat} {r : Nat}
  {enters : Nat → Bool} {token : Nat}

/-! ## Linux -/

/-- What `RequestCancel` has done. -/
structure Asking where
  ring : Buffer Sqe
  /-- Its calls of `io_uring_enter`. -/
  calls : Nat
  /-- The requests that it has issued a cancel for. -/
  issued : List Nat
  asked : Nat

/-- The cancels for the targets of a shard.  `enters` says which calls of `io_uring_enter`
succeed. -/
def askTargets (enters : Nat → Bool) : List Nat → Asking → Asking
  | [], x => x
  | r :: targets, x =>
    match x.ring.next with
    | none => x
    | some _ =>
      let ring := x.ring.put (.cancel r)
      if enters x.calls then
        askTargets enters targets ⟨ring.drop, x.calls + 1, r :: x.issued, x.asked + 1⟩
      else { x with ring := ring, calls := x.calls + 1 }

/-- The loop over the shards. -/
def State.askShards (s : State n) (token : Nat) (enters : Nat → Bool) :
    List Nat → Asking → Option Asking
  | [], x => some x
  | shard :: shards, x =>
    (collect s.shards.next (s.matches token) s.shards.made (s.shards.head shard) 0).bind
      fun targets => s.askShards token enters shards (askTargets enters targets x)

/-- `RequestCancel`. -/
def State.requestCancel (s : State n) (token : Nat) (enters : Nat → Bool) : Option Asking :=
  if s.ringUp then s.askShards token enters (List.range kShards) ⟨s.ring, 0, [], 0⟩
  else some ⟨s.ring, 0, [], 0⟩

/-! ## Windows -/

/-- The lists of the shards on Windows. -/
structure WinShards where
  next : Nat → Option Nat
  head : Nat → Option Nat
  made : Nat

/-- `ShardFor` on Windows. -/
def winShardFor (r : Nat) : Nat := r / 2 ^ 4 * 2654435761 % 2 ^ 64 % kShards

theorem winShardFor_lt {r : Nat} : winShardFor r < kShards := Nat.mod_lt _ (by decide)

/-- The walk over a shard, with the requests that are asked.  `fuel` bounds the turns. -/
def walk (next : Nat → Option Nat) (select : Nat → Bool) : Nat → Option Nat → Option (List Nat)
  | _, none => some []
  | 0, some _ => none
  | fuel + 1, some r =>
    (walk next select fuel (next r)).map fun asked => if select r then r :: asked else asked

def WinShards.askShards (w : WinShards) (select : Nat → Bool) : List Nat → Option (List Nat)
  | [] => some []
  | shard :: shards =>
    (walk w.next select w.made (w.head shard)).bind fun asked =>
      (w.askShards select shards).map (asked ++ ·)

/-- `RequestCancel` on Windows. -/
def WinShards.requestCancel (w : WinShards) (select : Nat → Bool) : Option (List Nat) :=
  w.askShards select (List.range kShards)

/-- `Link` on Windows; nothing here reads the links back. -/
def WinShards.link (w : WinShards) (r : Nat) : WinShards where
  next := Function.update w.next r (w.head (winShardFor r))
  head := Function.update w.head (winShardFor r) (some r)
  made := w.made + 1

/-- The lists are those of `lists`. -/
structure WinShards.Holds (w : WinShards) (lists : Nat → List Nat) : Prop where
  leads : ∀ i, Leads w.next (w.head i) (lists i) none
  nodup : ∀ i, (lists i).Nodup
  place : ∀ i, ∀ r ∈ lists i, winShardFor r = i
  made : ∀ i, (lists i).length ≤ w.made

theorem winEmpty_holds : WinShards.Holds ⟨fun _ => none, fun _ => none, 0⟩ fun _ => [] where
  leads i := rfl
  nodup i := List.nodup_nil
  place i r absurd := by cases absurd
  made i := Nat.le_refl 0

theorem WinShards.Holds.link {w : WinShards} (holds : w.Holds lists)
    (out : r ∉ lists (winShardFor r)) :
    (w.link r).Holds (Function.update lists (winShardFor r) (r :: lists (winShardFor r))) where
  leads i := by
    unfold WinShards.link
    rcases eq_or_ne i (winShardFor r) with rfl | other
    · simp only [Function.update_self]
      exact ⟨rfl, by rw [Function.update_self]; exact (holds.leads _).write out _⟩
    · simp only [Function.update_of_ne other]
      exact (holds.leads i).write (fun mem => other (holds.place i r mem).symm) _
  nodup i := by
    rcases eq_or_ne i (winShardFor r) with rfl | other
    · rw [Function.update_self]
      exact List.nodup_cons.mpr ⟨out, holds.nodup _⟩
    · rw [Function.update_of_ne other]
      exact holds.nodup i
  place i x mem := by
    rcases eq_or_ne i (winShardFor r) with rfl | other
    · rw [Function.update_self] at mem
      rcases List.mem_cons.mp mem with rfl | mem
      · rfl
      · exact holds.place _ x mem
    · rw [Function.update_of_ne other] at mem
      exact holds.place i x mem
  made i := by
    rcases eq_or_ne i (winShardFor r) with rfl | other
    · rw [Function.update_self]
      exact Nat.succ_le_succ (holds.made _)
    · rw [Function.update_of_ne other]
      exact (holds.made i).trans (Nat.le_succ _)

/-- A request more is in flight. -/
theorem mem_update {hash : Nat → Nat} {x : Nat} :
    (∃ i, x ∈ Function.update lists (hash r) (r :: lists (hash r)) i) ↔
      x = r ∨ ∃ i, x ∈ lists i := by
  constructor
  · rintro ⟨i, mem⟩
    rcases eq_or_ne i (hash r) with rfl | other
    · rw [Function.update_self] at mem
      exact (List.mem_cons.mp mem).imp_right fun mem => ⟨_, mem⟩
    · rw [Function.update_of_ne other] at mem
      exact .inr ⟨i, mem⟩
  · rintro (rfl | ⟨i, mem⟩)
    · exact ⟨hash x, by rw [Function.update_self]; exact List.mem_cons_self⟩
    · refine ⟨i, ?_⟩
      rcases eq_or_ne i (hash r) with rfl | other
      · rw [Function.update_self]
        exact List.mem_cons_of_mem _ mem
      · rw [Function.update_of_ne other]
        exact mem

/-! ## The requests in flight -/

/-- All the requests in the lists. -/
def inFlight (lists : Nat → List Nat) : List Nat := (List.range kShards).flatMap lists

theorem nodup_inFlight {hash : Nat → Nat} (nodup : ∀ i, (lists i).Nodup)
    (place : ∀ i, ∀ r ∈ lists i, hash r = i) : (inFlight lists).Nodup := by
  refine List.nodup_flatMap.mpr ⟨fun i _ => nodup i, ?_⟩
  refine (List.nodup_range).imp fun {i j} apart r here there => ?_
  exact apart ((place i r here).symm.trans (place j r there))

theorem mem_inFlight {hash : Nat → Nat} (bound : ∀ r, hash r < kShards)
    (place : ∀ i, ∀ r ∈ lists i, hash r = i) : r ∈ inFlight lists ↔ ∃ i, r ∈ lists i := by
  unfold inFlight
  rw [List.mem_flatMap]
  constructor
  · rintro ⟨i, -, mem⟩
    exact ⟨i, mem⟩
  · rintro ⟨i, mem⟩
    refine ⟨i, List.mem_range.mpr ?_, mem⟩
    rw [← place i r mem]
    exact bound r

/-! ## The cancels of a shard -/

/-- While `io_uring_enter` succeeds, each target is asked. -/
theorem askTargets_all {targets : List Nat} {x : Asking} (sound : x.ring.Sound)
    (room : x.ring.count < x.ring.entries.toNat)
    (all : ∀ k < targets.length, enters (x.calls + k) = true) :
    ∃ ring : Buffer Sqe, ring.Sound ∧ ring.count < ring.entries.toNat ∧
      askTargets enters targets x = ⟨ring, x.calls + targets.length, targets.reverse ++ x.issued,
        x.asked + targets.length⟩ := by
  induction targets generalizing x with
  | nil => exact ⟨x.ring, sound, room, rfl⟩
  | cons r targets ih =>
    have found : x.ring.next = some (x.ring.place x.ring.count) :=
      Buffer.next_eq_some.mpr ⟨room, rfl⟩
    have more := sound.count_put (x := .cancel r) found
    have some : (x.ring.put (.cancel r)).count ≠ 0 := by
      rw [more]
      exact Nat.succ_ne_zero _
    have less := Buffer.count_drop some
    have entered : enters x.calls = true := all 0 (Nat.succ_pos _)
    have rest : ∀ k < targets.length, enters (x.calls + 1 + k) = true := by
      intro k inside
      rw [Nat.add_right_comm]
      exact all (k + 1) (Nat.succ_lt_succ inside)
    obtain ⟨ring, sound', room', same⟩ := ih
      (x := ⟨(x.ring.put (.cancel r)).drop, x.calls + 1, r :: x.issued, x.asked + 1⟩)
      ((sound.put found).drop some)
      (by
        show (x.ring.put (.cancel r)).drop.count < x.ring.entries.toNat
        omega) rest
    refine ⟨ring, sound', room', ?_⟩
    unfold askTargets
    simp only [found, entered, if_true, same]
    rw [List.reverse_cons, List.append_assoc, List.length_cons, Nat.add_right_comm,
      Nat.add_right_comm x.asked]
    rfl

/-- Whoever is counted has been asked by a call that succeeds. -/
theorem askTargets_le (enters : Nat → Bool) (targets : List Nat) (x : Asking) :
    (askTargets enters targets x).asked ≤ x.asked + targets.length ∧
      ((askTargets enters targets x).asked = x.asked + targets.length →
        (askTargets enters targets x).calls = x.calls + targets.length ∧
          ∀ k < targets.length, enters (x.calls + k) = true) := by
  induction targets generalizing x with
  | nil => exact ⟨Nat.le_refl _, fun _ => ⟨rfl, fun k absurd => by cases absurd⟩⟩
  | cons r targets ih =>
    unfold askTargets
    rw [List.length_cons]
    cases x.ring.next with
    | none =>
      refine ⟨Nat.le_add_right _ _, fun absurd => ?_⟩
      simp only at absurd
      omega
    | some i =>
      simp only
      split
      · rename_i entered
        obtain ⟨bound, exact'⟩ :=
          ih ⟨(x.ring.put (.cancel r)).drop, x.calls + 1, r :: x.issued, x.asked + 1⟩
        simp only at bound exact'
        refine ⟨by omega, fun same => ?_⟩
        obtain ⟨calls, all⟩ := exact' (by omega)
        refine ⟨by omega, fun k inside => ?_⟩
        cases k with
        | zero => exact entered
        | succ k =>
          rw [Nat.add_succ, ← Nat.succ_add]
          exact all k (Nat.lt_of_succ_lt_succ inside)
      · refine ⟨Nat.le_add_right _ _, fun absurd => ?_⟩
        simp only at absurd
        omega

/-! ## All shards -/

/-- The targets of some shards, whatever their number. -/
def targets (lists : Nat → List Nat) (select : Nat → Bool) (shards : List Nat) : List Nat :=
  (shards.flatMap lists).filter select

theorem targets_cons {select : Nat → Bool} {i : Nat} {shards : List Nat} :
    targets lists select (i :: shards) = (lists i).filter select ++ targets lists select shards := by
  unfold targets
  rw [List.flatMap_cons, List.filter_append]

/-- The array of targets of a shard. -/
theorem collected (holds : s.shards.Holds lists) (shard : Nat) :
    collect s.shards.next (s.matches token) s.shards.made (s.shards.head shard) 0 =
      some (((lists shard).filter (s.matches token)).take kTargets) :=
  collect_spec (holds.leads shard) (holds.made shard) 0

theorem askShards_all (holds : s.shards.Holds lists) {shards : List Nat} {x : Asking}
    (sound : x.ring.Sound) (room : x.ring.count < x.ring.entries.toNat)
    (few : ∀ i ∈ shards, ((lists i).filter (s.matches token)).length ≤ kTargets)
    (all : ∀ k < (targets lists (s.matches token) shards).length, enters (x.calls + k) = true) :
    ∃ y, s.askShards token enters shards x = some y ∧
      (∀ r, r ∈ y.issued ↔ r ∈ targets lists (s.matches token) shards ∨ r ∈ x.issued) ∧
      y.asked = x.asked + (targets lists (s.matches token) shards).length := by
  induction shards generalizing x with
  | nil => exact ⟨x, rfl, fun r => (or_iff_right List.not_mem_nil).symm, rfl⟩
  | cons i shards ih =>
    have whole : ((lists i).filter (s.matches token)).take kTargets =
        (lists i).filter (s.matches token) := List.take_of_length_le (few i List.mem_cons_self)
    rw [targets_cons, List.length_append] at all
    have first : ∀ k < ((lists i).filter (s.matches token)).length,
        enters (x.calls + k) = true := fun k inside => all k (Nat.lt_add_right _ inside)
    obtain ⟨ring, sound', room', same⟩ := askTargets_all sound room first
    have rest : ∀ k < (targets lists (s.matches token) shards).length,
        enters (x.calls + ((lists i).filter (s.matches token)).length + k) = true := by
      intro k inside
      rw [Nat.add_assoc]
      exact all _ (Nat.add_lt_add_left inside _)
    obtain ⟨y, asks, issued, asked⟩ := ih (x := ⟨ring, _, _, _⟩) sound' room'
      (fun j mem => few j (List.mem_cons_of_mem _ mem)) rest
    refine ⟨y, ?_, fun r => ?_, ?_⟩
    · unfold State.askShards
      rw [collected holds, whole, Option.bind_some, same]
      exact asks
    · rw [issued, targets_cons, List.mem_append, List.mem_append, List.mem_reverse]
      exact or_left_comm.trans or_assoc.symm
    · rw [asked, targets_cons, List.length_append, Nat.add_assoc]

theorem askShards_le (holds : s.shards.Holds lists) {shards : List Nat} {x y : Asking}
    (asks : s.askShards token enters shards x = some y) :
    y.asked ≤ x.asked + (targets lists (s.matches token) shards).length ∧
      (y.asked = x.asked + (targets lists (s.matches token) shards).length →
        (∀ i ∈ shards, ((lists i).filter (s.matches token)).length ≤ kTargets) ∧
          ∀ k < (targets lists (s.matches token) shards).length,
            enters (x.calls + k) = true) := by
  induction shards generalizing x with
  | nil =>
    cases asks
    refine ⟨Nat.le_refl _, fun _ => ⟨fun i absurd => ?_, fun k absurd => ?_⟩⟩
    · cases absurd
    · cases absurd
  | cons i shards ih =>
    unfold State.askShards at asks
    rw [collected holds, Option.bind_some] at asks
    obtain ⟨bound, exact'⟩ :=
      askTargets_le enters (((lists i).filter (s.matches token)).take kTargets) x
    obtain ⟨bound', exact''⟩ := ih asks
    rw [targets_cons, List.length_append]
    rw [List.length_take] at bound exact'
    refine ⟨by omega, fun same => ?_⟩
    have few : ((lists i).filter (s.matches token)).length ≤ kTargets := by omega
    rw [Nat.min_eq_right few] at bound exact'
    obtain ⟨calls, entered⟩ := exact' (by omega)
    obtain ⟨few', entered'⟩ := exact'' (by omega)
    refine ⟨fun j mem => ?_, fun k inside => ?_⟩
    · rcases List.mem_cons.mp mem with rfl | mem
      · exact few
      · exact few' j mem
    · rcases Nat.lt_or_ge k ((lists i).filter (s.matches token)).length with first | later
      · exact entered k first
      · obtain ⟨m, rfl⟩ := Nat.exists_eq_add_of_le later
        have next := entered' m (by omega)
        rw [calls, Nat.add_assoc] at next
        exact next

/-- The loop over the shards comes to its end. -/
theorem askShards_isSome (holds : s.shards.Holds lists) (shards : List Nat) (x : Asking) :
    ∃ y, s.askShards token enters shards x = some y := by
  induction shards generalizing x with
  | nil => exact ⟨x, rfl⟩
  | cons i shards ih =>
    unfold State.askShards
    rw [collected holds, Option.bind_some]
    exact ih _

/-! ## Windows asks all -/

theorem walk_eq {next : Nat → Option Nat} {select : Nat → Bool} {fuel : Nat} {first : Option Nat}
    {l : List Nat} (leads : Leads next first l none) (enough : l.length ≤ fuel) :
    walk next select fuel first = some (l.filter select) := by
  induction l generalizing fuel first with
  | nil =>
    cases leads
    unfold walk
    rfl
  | cons r l ih =>
    obtain ⟨rfl, rest⟩ := leads
    cases fuel with
    | zero => cases enough
    | succ fuel =>
      unfold walk
      rw [ih rest (Nat.le_of_succ_le_succ enough), Option.map_some, List.filter_cons]

theorem WinShards.Holds.askShards {w : WinShards} (holds : w.Holds lists) (select : Nat → Bool)
    (shards : List Nat) : w.askShards select shards = some (targets lists select shards) := by
  induction shards with
  | nil => rfl
  | cons i shards ih =>
    unfold WinShards.askShards
    rw [walk_eq (holds.leads i) (holds.made i), Option.bind_some, ih, Option.map_some, targets_cons]

/-! ## The answer -/

/-- Every request in flight that `select` holds of is asked, and no other one, and their number is
returned. -/
def Asks (lists : Nat → List Nat) (select : Nat → Bool) (issued : List Nat) (asked : Nat) : Prop :=
  (∀ r, r ∈ issued ↔ (∃ i, r ∈ lists i) ∧ select r = true) ∧
    asked = ((inFlight lists).filter select).length

/-- On Windows that is always so. -/
theorem WinShards.Holds.asks {w : WinShards} (holds : w.Holds lists) (select : Nat → Bool) :
    ∃ asked, w.requestCancel select = some asked ∧ Asks lists select asked asked.length := by
  refine ⟨_, holds.askShards select _, fun r => ?_, rfl⟩
  unfold targets
  rw [List.mem_filter]
  exact and_congr_left fun _ => mem_inFlight (fun r => winShardFor_lt) holds.place

/-- On Linux it is so exactly if no shard has more than 64 targets, and no call of `io_uring_enter`
fails. -/
theorem asks_iff (holds : s.shards.Holds lists) (up : s.ringUp = true) (sound : s.ring.Sound)
    (room : s.ring.count < s.ring.entries.toNat) (token : Nat) (enters : Nat → Bool) :
    (∃ x, s.requestCancel token enters = some x ∧
      Asks lists (s.matches token) x.issued x.asked) ↔
    (∀ i < kShards, ((lists i).filter (s.matches token)).length ≤ kTargets) ∧
      ∀ k < ((inFlight lists).filter (s.matches token)).length, enters k = true := by
  unfold State.requestCancel
  rw [up, if_pos rfl]
  constructor
  · rintro ⟨x, asks, -, asked⟩
    obtain ⟨-, exact'⟩ := askShards_le holds asks
    obtain ⟨few, entered⟩ := exact' (asked.trans (Nat.zero_add _).symm)
    refine ⟨fun i inside => few i (List.mem_range.mpr inside), fun k inside => ?_⟩
    have next := entered k inside
    rw [Nat.zero_add] at next
    exact next
  · rintro ⟨few, entered⟩
    have entered' : ∀ k < (targets lists (s.matches token) (List.range kShards)).length,
        enters (0 + k) = true := by
      intro k inside
      rw [Nat.zero_add]
      exact entered k inside
    obtain ⟨x, asks, issued, asked⟩ := askShards_all (x := ⟨s.ring, 0, [], 0⟩) holds sound room
      (fun i mem => few i (List.mem_range.mp mem)) entered'
    refine ⟨x, asks, fun r => ?_, asked.trans (Nat.zero_add _)⟩
    rw [issued, or_iff_left List.not_mem_nil]
    unfold targets
    rw [List.mem_filter]
    exact and_congr_left fun _ => mem_inFlight (fun r => shardFor_lt) holds.place

/-- Two ways to keep the same requests. -/
theorem perm_inFlight {hash hash' : Nat → Nat} {lists' : Nat → List Nat}
    (nodup : ∀ i, (lists i).Nodup) (place : ∀ i, ∀ r ∈ lists i, hash r = i)
    (bound : ∀ r, hash r < kShards) (nodup' : ∀ i, (lists' i).Nodup)
    (place' : ∀ i, ∀ r ∈ lists' i, hash' r = i) (bound' : ∀ r, hash' r < kShards)
    (same : ∀ r, (∃ i, r ∈ lists i) ↔ ∃ i, r ∈ lists' i) :
    (inFlight lists).Perm (inFlight lists') := by
  refine (List.perm_ext_iff_of_nodup (nodup_inFlight nodup place)
    (nodup_inFlight nodup' place')).mpr fun r => ?_
  rw [mem_inFlight bound place, mem_inFlight bound' place', same]

/-- `RequestCancel` asks all requests in flight that are within the token, as on Windows, exactly
if no shard has more than 64 of them and no call of `io_uring_enter` fails. -/
theorem requestCancel_asks {winLists : Nat → List Nat} {w : WinShards}
    (holds : s.shards.Holds lists) (winHolds : w.Holds winLists)
    (same : ∀ r, (∃ i, r ∈ lists i) ↔ ∃ i, r ∈ winLists i) (up : s.ringUp = true)
    (sound : s.ring.Sound) (room : s.ring.count < s.ring.entries.toNat) (token : Nat)
    (enters : Nat → Bool) :
    (∃ x winAsked, s.requestCancel token enters = some x ∧
      w.requestCancel (s.matches token) = some winAsked ∧
      Asks lists (s.matches token) x.issued x.asked ∧
      (∀ r, r ∈ x.issued ↔ r ∈ winAsked) ∧ x.asked = winAsked.length) ↔
    (∀ i < kShards, ((lists i).filter (s.matches token)).length ≤ kTargets) ∧
      ∀ k < ((inFlight lists).filter (s.matches token)).length, enters k = true := by
  rw [← asks_iff holds up sound room token enters]
  constructor
  · rintro ⟨x, -, asks, -, all, -⟩
    exact ⟨x, asks, all⟩
  · rintro ⟨x, asks, issued, asked⟩
    obtain ⟨winAsked, winAsks, winIssued, number⟩ := winHolds.asks (s.matches token)
    have perm := perm_inFlight holds.nodup holds.place (fun r => shardFor_lt) winHolds.nodup
      winHolds.place (fun r => winShardFor_lt) same
    refine ⟨x, winAsked, asks, winAsks, ⟨issued, asked⟩, fun r => ?_, ?_⟩
    · rw [issued, winIssued, same]
    · rw [asked, number]
      exact (perm.filter _).length_eq

/-- A scope. -/
def createdScope : Scopes.State :=
  (run Scopes.step anyStep Scopes.initial [.create none, .advance 0, .advance 0]).getD Scopes.initial

/-- Three requests in flight.  The first two are for scope 0, in two shards, and the third one, which
shares a shard with the second, is for no scope. -/
def trio : State 1 :=
  { initial 1 true with
    shards := (((initial 1 true).shards.link 48).link 96).link 304
    req := fun r => { IoRequest.fresh with token := if r = 304 then kNone else 0 }
    scopes := createdScope }

def winTrio : WinShards :=
  (((⟨fun _ => none, fun _ => none, 0⟩ : WinShards).link 48).link 96).link 304

/-- A request more in its list. -/
def filed (hash : Nat → Nat) (r : Nat) (lists : Nat → List Nat) : Nat → List Nat :=
  Function.update lists (hash r) (r :: lists (hash r))

def trioLists (hash : Nat → Nat) : Nat → List Nat :=
  filed hash 304 (filed hash 96 (filed hash 48 fun _ => []))

theorem trio_holds : trio.shards.Holds (trioLists shardFor) :=
  ((empty_holds.link (by decide +kernel)).link (by decide +kernel)).link (by decide +kernel)

theorem winTrio_holds : winTrio.Holds (trioLists winShardFor) :=
  ((winEmpty_holds.link (by decide +kernel)).link (by decide +kernel)).link (by decide +kernel)

theorem mem_trio (hash : Nat → Nat) (r : Nat) :
    (∃ i, r ∈ trioLists hash i) ↔ r = 304 ∨ r = 96 ∨ r = 48 := by
  unfold trioLists filed
  rw [mem_update, mem_update, mem_update]
  simp

theorem trio_asks : (∃ x, trio.requestCancel 0 (fun _ => true) = some x ∧ x.issued = [48, 96]) ∧
    ∃ x winAsked, trio.requestCancel 0 (fun _ => true) = some x ∧
      winTrio.requestCancel (trio.matches 0) = some winAsked ∧
      Asks (trioLists shardFor) (trio.matches 0) x.issued x.asked ∧
      (∀ r, r ∈ x.issued ↔ r ∈ winAsked) ∧ x.asked = winAsked.length := by
  have same : ∀ r, (∃ i, r ∈ trioLists shardFor i) ↔ ∃ i, r ∈ trioLists winShardFor i := fun r =>
    (mem_trio shardFor r).trans (mem_trio winShardFor r).symm
  have sound : trio.ring.Sound := @initial_ring 1 true
  have issued : (trio.requestCancel 0 fun _ => true).map Asking.issued = some [48, 96] := by
    decide +kernel
  exact ⟨Option.map_eq_some_iff.mp issued,
    (requestCancel_asks trio_holds winTrio_holds same rfl sound (by decide +kernel)
      0 fun _ => true).mpr ⟨by decide +kernel, fun k _ => rfl⟩⟩

/-- 65 requests in one shard. -/
def crowd : List Nat := (((List.range 1200).map (16 * ·)).filter fun r => shardFor r = 0).take 65

def crowdedLabels : List (Label 1) :=
  .start :: crowd.flatMap fun r => [.submit 0 r (.recv 3 64 8 0) 1 2 none, .advance 0 true,
    .advance 0 true, .advance 0 true]

def crowded : State 1 := (run step anyStep (initial 1 true) crowdedLabels).getD (initial 1 true)

/-- All of them are with the kernel, there is room in the ring, and `io_uring_enter` always succeeds;
one of them is not asked. -/
theorem crowd_cut : Reach step anyStep (initial 1 true) crowded ∧ crowded.pc 0 = .idle ∧
    crowded.kernel.length = 65 ∧ crowded.ring.count = 0 ∧ (0, 0) ∈ crowded.kernel ∧
    (crowded.requestCancel kNone fun _ => true).map (fun x => (x.asked, decide (0 ∈ x.issued))) =
      some (64, false) :=
  ⟨Reach.of_isSome crowdedLabels (by decide +kernel), by decide +kernel, by decide +kernel,
    by decide +kernel, by decide +kernel, by decide +kernel⟩

/-! ## The steps of the call -/

/-- Only one party takes a step. -/
def only (p : Fin n) (_ : State n) : Label n → Prop
  | .requestCancel u _ | .advance u _ => u = p
  | _ => False

/-- What the party has come to: the requests are as before, and those that it has issued a cancel for
have been asked. -/
structure Along (s t : State n) (x : Asking) : Prop where
  ring : t.ring = x.ring
  sound : t.ring.Sound
  shards : t.shards = s.shards
  req : t.req = s.req
  scopes : t.scopes = s.scopes
  submitted : t.submitted = s.submitted
  asked : ∀ r ∈ x.issued, s.submitted r = true → t.asked r = true

variable {shard : Nat} {marked : Bool} {x : Asking}

theorem Along.matches (along : Along s t x) : t.matches token = s.matches token := by
  funext r
  unfold State.matches
  rw [along.req, along.scopes]

/-- `io_uring_enter` takes one entry. -/
theorem enter_drop (sound : s.ring.Sound) {i : UInt32} (room : s.ring.next = some i) (y : Sqe) :
    ∃ kernel, s.enter y true =
      { s with ring := (s.ring.put y).drop, kernel := kernel, entered := s.entered + 1 } := by
  obtain ⟨first, head⟩ : ∃ first, (s.ring.put y).first = some first := by
    rw [Buffer.first_eq, sound.pending_put room]
    cases s.ring.pending with
    | nil => exact ⟨_, rfl⟩
    | cons z l => exact ⟨_, rfl⟩
  unfold State.enter State.consume
  simp only [if_true, head]
  exact ⟨_, rfl⟩

theorem askTargets_steps (enters : Nat → Bool) {targets : List Nat} (along : Along s t x)
    (here : t.pc p = .cancelling token shard targets marked) :
    ∃ u, Reach step (only p) t u ∧ u.pc p = .cancelling token shard [] marked ∧
      Along s u (askTargets enters targets x) := by
  induction targets generalizing t x with
  | nil => exact ⟨t, .start, here, along⟩
  | cons r targets ih =>
    have next (entered : Bool) : Reach step (only p) t
        (t.submitCancel p token shard r targets marked entered) := by
      refine Reach.start.next (a := .advance p entered) rfl ?_
      show advance t p entered = _
      unfold advance
      rw [here]
    have sound := along.sound
    unfold askTargets
    rw [← along.ring]
    cases room : t.ring.next with
    | none =>
      have left := next true
      rw [submitCancel_full room] at left
      exact ⟨_, left, Function.update_self _ _ _, along.ring, sound, along.shards, along.req,
        along.scopes, along.submitted, along.asked⟩
    | some i =>
      simp only
      split
      · have taken := next true
        have some : (t.ring.put (.cancel r)).count ≠ 0 := by
          rw [sound.count_put room]
          exact Nat.succ_ne_zero _
        obtain ⟨kernel, same⟩ := enter_drop sound room (.cancel r)
        rw [submitCancel_taken room, same] at taken
        have asked : ∀ q ∈ r :: x.issued, s.submitted q = true →
            Function.update t.asked r (t.asked r || t.submitted r) q = true := by
          intro q mem was
          rcases eq_or_ne q r with rfl | other
          · rw [Function.update_self, along.submitted, was, Bool.or_true]
          · rw [Function.update_of_ne other]
            exact along.asked q (List.mem_of_ne_of_mem other mem) was
        obtain ⟨u, rest, back, along'⟩ := ih
          (t := { { t with
              ring := (t.ring.put (.cancel r)).drop
              kernel := kernel
              entered := t.entered + 1 }.go p (.cancelling token shard targets marked) with
            asked := Function.update t.asked r (t.asked r || t.submitted r) })
          (x := ⟨(t.ring.put (.cancel r)).drop, x.calls + 1, r :: x.issued, x.asked + 1⟩)
          ⟨rfl, (sound.put room).drop some, along.shards, along.req, along.scopes,
            along.submitted, asked⟩ (Function.update_self _ _ _)
        exact ⟨u, taken.trans rest, back, along'⟩
      · have failed := next false
        rw [submitCancel_failed room] at failed
        exact ⟨_, failed, Function.update_self _ _ _, rfl, sound.put room, along.shards,
          along.req, along.scopes, along.submitted, along.asked⟩

theorem askShards_steps {k : Nat} (few : shard + k = kShards) {y : Asking} (along : Along s t x)
    (here : t.pc p = .sweeping token shard marked)
    (asks : s.askShards token enters (List.range' shard k) x = some y) :
    ∃ u, Reach step (only p) t u ∧ u.pc p = .sweeping token kShards marked ∧ Along s u y := by
  induction k generalizing shard t x with
  | zero =>
    obtain rfl : shard = kShards := few
    cases asks
    exact ⟨t, .start, here, along⟩
  | succ k ih =>
    rw [List.range'_succ] at asks
    unfold State.askShards at asks
    obtain ⟨targets, found, rest⟩ := Option.bind_eq_some_iff.mp asks
    have collects : step t (.advance p true) =
        some (t.go p (.cancelling token shard targets marked)) := by
      show advance t p true = _
      unfold advance
      rw [here]
      simp only
      rw [if_pos (by omega), along.shards, along.matches, found, Option.map_some]
    obtain ⟨u, asked, back, along'⟩ := askTargets_steps enters
      (t := t.go p (.cancelling token shard targets marked)) (s := s) (x := x)
      ⟨along.ring, along.sound, along.shards, along.req, along.scopes, along.submitted,
        along.asked⟩ (Function.update_self _ _ _)
    have onward : step u (.advance p true) = some (u.go p (.sweeping token (shard + 1) marked)) := by
      show advance u p true = _
      unfold advance
      rw [back]
    obtain ⟨v, others, arrived, along''⟩ := ih (by omega)
      (t := u.go p (.sweeping token (shard + 1) marked))
      ⟨along'.ring, along'.sound, along'.shards, along'.req, along'.scopes, along'.submitted,
        along'.asked⟩ (Function.update_self _ _ _) rest
    have first : Reach step (only p) t (t.go p (.cancelling token shard targets marked)) :=
      Reach.start.next (a := .advance p true) rfl collects
    have last : Reach step (only p) u (u.go p (.sweeping token (shard + 1) marked)) :=
      Reach.start.next (a := .advance p true) rfl onward
    exact ⟨v, first.trans (asked.trans (last.trans others)), arrived, along''⟩

/-- When nobody else moves, the steps of `RequestCancel` do what it does in one piece. -/
theorem requestCancel_steps {scope : Option Nat} {y : Asking} (sound : s.ring.Sound)
    (idle : s.pc p = .idle) (has : s.scopes.has scope) (up : s.ringUp = true)
    (asks : s.requestCancel (s.tokenOf scope) enters = some y) :
    ∃ t, Reach step (only p) s t ∧ t.pc p = .idle ∧ t.ring = y.ring ∧
      ∀ r ∈ y.issued, s.submitted r = true → t.asked r = true := by
  unfold State.requestCancel at asks
  rw [up, if_pos rfl, List.range_eq_range'] at asks
  have called : step s (.requestCancel p scope) = some (s.go p (.sweeping (s.tokenOf scope) 0
      (decide (Marked s.scopes.slots (s.tokenOf scope))))) := by
    unfold step
    simp only
    rw [if_pos ⟨idle, has⟩, up, if_pos rfl]
  obtain ⟨t, swept, back, along⟩ := askShards_steps (p := p) (Nat.zero_add kShards)
    (t := s.go p (.sweeping (s.tokenOf scope) 0
      (decide (Marked s.scopes.slots (s.tokenOf scope)))))
    ⟨rfl, sound, rfl, rfl, rfl, rfl, fun r absurd => by cases absurd⟩ (Function.update_self _ _ _)
    asks
  have returned : step t (.advance p true) = some (t.sweep p (s.tokenOf scope)
      (decide (Marked s.scopes.slots (s.tokenOf scope)))) := by
    show advance t p true = _
    unfold advance
    rw [back]
    simp only
    rw [if_neg (Nat.lt_irrefl _)]
  have first : Reach step (only p) s _ := Reach.start.next (a := .requestCancel p scope) rfl called
  exact ⟨_, (first.trans swept).next (a := .advance p true) rfl returned, Function.update_self _ _ _,
    along.ring, along.asked⟩

end JLibSched.Reactor
