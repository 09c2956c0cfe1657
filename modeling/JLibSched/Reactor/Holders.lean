import JLibSched.Reactor.Lists
import JLibSched.Reactor.Moves

/-!
# Who has a request

While a submission of a request is under way, one party has it, or the ring, or the kernel, unless a
call of `SubmitOp` fails at `io_uring_enter`, which leaves its entry in the ring.  Before the request
is linked it is in no list.  Afterwards it is, unless the rest of a send was refused at once: then
`Complete` has taken it out already and goes on as if it had not.
-/

namespace JLibSched.Reactor

open Transition Cancel Ring

variable {n : Nat} {s t : State n} {a : Label n} {p u : Fin n} {c : Call} {x : Sqe} {entered : Bool}
  {q r : Nat} {lists : Nat → List Nat}

/-! ## Counting -/

def one (q r : Nat) : Nat := if q = r then 1 else 0

theorem one_self : one q q = 1 := if_pos rfl

theorem one_of_ne (other : q ≠ r) : one q r = 0 := if_neg other

/-- The party has the request, which is not linked. -/
def Pc.before (r : Nat) : Pc → Nat
  | .tested c | .passed c => one c.r r
  | .resubmitting q => one q r
  | .idle | .linked _ | .failing _ | .finishing _ | .sweeping _ _ _ | .cancelling _ _ _ _ => 0

/-- The party has the request, which should be linked. -/
def Pc.after (r : Nat) : Pc → Nat
  | .linked c | .failing c => one c.r r
  | .finishing q => one q r
  | .idle | .tested _ | .passed _ | .resubmitting _ | .sweeping _ _ _ | .cancelling _ _ _ _ => 0

/-- What the ring and the kernel have. -/
def State.ops (s : State n) : List (Nat × Nat) := s.ring.pending.flatMap Sqe.ops ++ s.kernel

def State.held (s : State n) (r : Nat) : Nat := s.ops.countP fun o => decide (o.1 = r)

def State.before (s : State n) (r : Nat) : Nat := ∑ p, (s.pc p).before r

def State.after (s : State n) (r : Nat) : Nat := ∑ p, (s.pc p).after r

/-- A submission of a request is held once, or there is none. -/
def State.Balanced (s : State n) : Prop :=
  ∀ r, s.before r + (s.after r + s.held r) = (s.busy r).toNat

/-- What changes when a party goes on. -/
theorem weights {pc pc' : Pc} (went : t.pc = Function.update s.pc p pc') (here : s.pc p = pc)
    (r : Nat) : t.before r + pc.before r = s.before r + pc'.before r ∧
      t.after r + pc.after r = s.after r + pc'.after r := by
  unfold State.before State.after
  rw [went, ← here]
  exact ⟨sum_update _ _ _ _, sum_update _ _ _ _⟩

theorem before_le (p : Fin n) : (s.pc p).before r ≤ s.before r :=
  Finset.single_le_sum (f := fun p => (s.pc p).before r) (fun _ _ => Nat.zero_le _)
    (Finset.mem_univ p)

theorem after_le (p : Fin n) : (s.pc p).after r ≤ s.after r :=
  Finset.single_le_sum (f := fun p => (s.pc p).after r) (fun _ _ => Nat.zero_le _)
    (Finset.mem_univ p)

theorem State.Balanced.busy_of_before (balanced : s.Balanced) (here : (s.pc p).before r = 1) :
    s.busy r = true := by
  have counted := balanced r
  have some := before_le (s := s) (r := r) p
  cases busy : s.busy r with
  | true => rfl
  | false =>
    rw [busy, Bool.toNat_false] at counted
    omega

theorem State.Balanced.busy_of_after (balanced : s.Balanced) (here : (s.pc p).after r = 1) :
    s.busy r = true := by
  have counted := balanced r
  have some := after_le (s := s) (r := r) p
  cases busy : s.busy r with
  | true => rfl
  | false =>
    rw [busy, Bool.toNat_false] at counted
    omega

theorem busy_on {busy : Nat → Bool} (free : busy q = false) (r : Nat) :
    (Function.update busy q true r).toNat = (busy r).toNat + one q r := by
  rcases eq_or_ne r q with rfl | other
  · rw [Function.update_self, one_self, free]
    rfl
  · rw [Function.update_of_ne other, one_of_ne other.symm, Nat.add_zero]

theorem busy_off {busy : Nat → Bool} (on : busy q = true) (r : Nat) :
    (Function.update busy q false r).toNat + one q r = (busy r).toNat := by
  rcases eq_or_ne r q with rfl | other
  · rw [Function.update_self, one_self, on]
    rfl
  · rw [Function.update_of_ne other, one_of_ne other.symm, Nat.add_zero]

/-! ## The ring -/

theorem held_of_quiet (quiet : Quiet s t) (r : Nat) : t.held r = s.held r := by
  unfold State.held State.ops
  rw [quiet.ring, quiet.kernel]

/-- The ring or the kernel has what was put in. -/
theorem enter_held (sound : s.ring.Sound) {i : UInt32} (room : s.ring.next = some i) (r : Nat) :
    (s.enter x entered).held r = s.held r + x.ops.countP fun o => decide (o.1 = r) := by
  unfold State.held State.ops
  cases entered with
  | false =>
    obtain ⟨ring, -, pending, same⟩ := enter_failed (x := x) sound room
    rw [same]
    simp only [pending, List.flatMap_append, List.flatMap_singleton, List.countP_append]
    omega
  | true =>
    obtain ⟨first, rest, ring, whole, -, pending, same⟩ := enter_taken (x := x) sound room
    have counted := congrArg
      (fun l => (l.flatMap Sqe.ops).countP fun o => decide (o.1 = r)) whole
    simp only [List.flatMap_append, List.flatMap_cons, List.flatMap_nil, List.append_nil,
      List.countP_append] at counted
    rw [same]
    simp only [pending, List.countP_append]
    omega

theorem enter_others (s : State n) (x : Sqe) (entered : Bool) : (s.enter x entered).pc = s.pc ∧
    (s.enter x entered).busy = s.busy ∧ (s.enter x entered).shards = s.shards ∧
    (s.enter x entered).linksOf = s.linksOf ∧ (s.enter x entered).unlinksOf = s.unlinksOf := by
  obtain ⟨ring, kernel, times, same⟩ := enter_frame s x entered
  rw [same]
  exact ⟨rfl, rfl, rfl, rfl, rfl⟩

/-! ## What a step does to the requests -/

def State.takes (s : State n) (entered : Bool) : Pc → Prop
  | .linked _ => s.ring.next ≠ none → entered = true
  | _ => True

/-- `io_uring_enter` does not fail for an operation. -/
def taken (s : State n) : Label n → Prop
  | .advance p entered => s.takes entered (s.pc p)
  | _ => True

def State.refuses (s : State n) : Pc → Prop
  | .resubmitting r => (s.req r).bufCount = 0 ∨ cancelled s.scopes.slots (s.req r).token = true
  | .tested c => c.origin = .complete ∧ (s.ringUp = false ∨ s.stopping = true)
  | .failing c => c.origin = .complete
  | _ => False

/-- The rest of a send is refused: `SubmitOp` returns true to `Complete`. -/
def refused (s : State n) : Label n → Prop
  | .advance p _ => s.refuses (s.pc p)
  | _ => False

instance (s : State n) (entered : Bool) : ∀ pc, Decidable (s.takes entered pc)
  | .linked _ => inferInstanceAs (Decidable (s.ring.next ≠ none → entered = true))
  | .idle | .tested _ | .passed _ | .failing _ | .resubmitting _ | .finishing _ | .sweeping _ _ _
  | .cancelling _ _ _ _ => isTrue trivial

instance (s : State n) : ∀ a, Decidable (taken s a)
  | .advance p entered => inferInstanceAs (Decidable (s.takes entered (s.pc p)))
  | .submit _ _ _ _ _ _ | .complete _ _ _ _ | .requestCancel _ _ | .postWake _ _ | .start | .stop
  | .scopes _ => isTrue trivial

instance (s : State n) : ∀ pc, Decidable (s.refuses pc)
  | .resubmitting r => inferInstanceAs
      (Decidable ((s.req r).bufCount = 0 ∨ cancelled s.scopes.slots (s.req r).token = true))
  | .tested c => inferInstanceAs
      (Decidable (c.origin = .complete ∧ (s.ringUp = false ∨ s.stopping = true)))
  | .failing c => inferInstanceAs (Decidable (c.origin = .complete))
  | .idle | .passed _ | .linked _ | .finishing _ | .sweeping _ _ _ | .cancelling _ _ _ _ =>
    isFalse not_false

instance (s : State n) : ∀ a, Decidable (refused s a)
  | .advance p _ => inferInstanceAs (Decidable (s.refuses (s.pc p)))
  | .submit _ _ _ _ _ _ | .complete _ _ _ _ | .requestCancel _ _ | .postWake _ _ | .start | .stop
  | .scopes _ => isFalse not_false

/-- The lists stay, or a request comes into its list, or leaves it. -/
inductive Filed (s t : State n) : Prop
  | stay (after : ∀ r, t.after r + t.held r = s.after r + s.held r) (shards : t.shards = s.shards)
      (links : t.linksOf = s.linksOf) (unlinks : t.unlinksOf = s.unlinksOf)
  | link (q : Nat) (before : 1 ≤ s.before q)
      (after : ∀ r, t.after r + t.held r = s.after r + s.held r + one q r)
      (shards : t.shards = s.shards.link q)
      (links : t.linksOf = Function.update s.linksOf q (s.linksOf q + 1))
      (unlinks : t.unlinksOf = s.unlinksOf)
  | unlink (q : Nat) (after : ∀ r, t.after r + t.held r + one q r = s.after r + s.held r)
      (shards : t.shards = s.shards.unlink q) (links : t.linksOf = s.linksOf)
      (unlinks : t.unlinksOf = Function.update s.unlinksOf q (s.unlinksOf q + 1))

/-- `Complete` goes on with a request that is in no list, or is taken out at once. -/
inductive Slipped (s t : State n) : Prop
  | refuse (q : Nat) (after : ∀ r, t.after r + t.held r = s.after r + s.held r + one q r)
      (shards : t.shards = s.shards)
  | unlink (q : Nat) (after : ∀ r, t.after r + t.held r = s.after r + s.held r)
      (shards : t.shards = s.shards.unlink q)

theorem refuse_caller (caller : c.origin = .caller) :
    s.refuse p c = { s.go p .idle with busy := Function.update s.busy c.r false } := by
  unfold State.refuse
  rw [caller]

theorem refuse_complete (complete : c.origin = .complete) :
    s.refuse p c = s.go p (.finishing c.r) := by
  unfold State.refuse
  rw [complete]

/-- What the party that goes on gives up, ring and kernel take, or nobody has it any more. -/
theorem State.Balanced.go {pc : Pc} (balanced : s.Balanced) (pc' : Pc)
    (went : t.pc = Function.update s.pc p pc') (here : s.pc p = pc)
    (flow : ∀ r, pc'.before r + (pc'.after r + t.held r) + (s.busy r).toNat =
      pc.before r + (pc.after r + s.held r) + (t.busy r).toNat) : t.Balanced := by
  intro r
  obtain ⟨before, after⟩ := weights went here r
  have counted := balanced r
  have moved := flow r
  omega

theorem after_go {pc : Pc} {f g : Nat → Nat} (pc' : Pc) (went : t.pc = Function.update s.pc p pc')
    (here : s.pc p = pc)
    (flow : ∀ r, pc'.after r + t.held r + f r = pc.after r + s.held r + g r) (r : Nat) :
    t.after r + t.held r + f r = s.after r + s.held r + g r := by
  obtain ⟨-, after⟩ := weights went here r
  have moved := flow r
  omega

/-- A step that has nothing to do with requests, or with who has them. -/
theorem filed_go {pc : Pc} (pc' : Pc) (went : t.pc = Function.update s.pc p pc') (here : s.pc p = pc)
    (before : ∀ r, pc'.before r = pc.before r) (after : ∀ r, pc'.after r = pc.after r)
    (held : ∀ r, t.held r = s.held r) (busy : t.busy = s.busy) (shards : t.shards = s.shards)
    (links : t.linksOf = s.linksOf) (unlinks : t.unlinksOf = s.unlinksOf) (balanced : s.Balanced) :
    t.Balanced ∧ Filed s t := by
  constructor
  · refine balanced.go pc' went here fun r => ?_
    rw [before r, after r, held r, busy]
  · refine .stay (after_go (f := fun _ => 0) (g := fun _ => 0) pc' went here fun r => ?_) shards links
      unlinks
    rw [after r, held r]

theorem submit_filed (idle : s.pc p = .idle) (free : s.busy c.r = false)
    (caller : c.origin = .caller) (balanced : s.Balanced) :
    (s.submitOp p c).Balanced ∧ Filed s (s.submitOp p c) := by
  unfold State.submitOp
  simp only
  split
  · rw [refuse_caller caller]
    refine filed_go .idle rfl idle (fun r => rfl) (fun r => rfl) (fun r => rfl) ?_ rfl rfl rfl
      balanced
    show Function.update (Function.update s.busy c.r true) c.r false = s.busy
    rw [Function.update_idem, ← free, Function.update_eq_self]
  · constructor
    · refine balanced.go (.tested c) rfl idle fun r => ?_
      have on := busy_on free r
      show one c.r r + (0 + s.held r) + (s.busy r).toNat =
        0 + (0 + s.held r) + (Function.update s.busy c.r true r).toNat
      omega
    · exact .stay (after_go (f := fun _ => 0) (g := fun _ => 0) (.tested c) rfl idle fun r => rfl)
        rfl rfl rfl

/-- The rest of a send is submitted, or `Complete` goes on with the request. -/
theorem resubmit_filed (here : s.pc p = .resubmitting c.r) (complete : c.origin = .complete)
    (balanced : s.Balanced) : (s.submitOp p c).Balanced ∧ (Filed s (s.submitOp p c) ∨
      cancelled s.scopes.slots c.args.token = true ∧ Slipped s (s.submitOp p c)) := by
  have busy : s.busy c.r = true := balanced.busy_of_before (p := p) (by
    rw [here]
    exact one_self)
  have same : Function.update s.busy c.r true = s.busy := by
    rw [← busy, Function.update_eq_self]
  unfold State.submitOp
  simp only
  rw [same]
  split
  · rename_i asked
    rw [refuse_complete complete]
    refine ⟨balanced.go (.finishing c.r) rfl here fun r => ?_, .inr ⟨asked, .refuse c.r
      (after_go (f := fun _ => 0) (g := one c.r) (.finishing c.r) rfl here fun r => ?_) rfl⟩⟩
    · show 0 + (one c.r r + s.held r) + (s.busy r).toNat =
        one c.r r + (0 + s.held r) + (s.busy r).toNat
      omega
    · show one c.r r + s.held r = 0 + s.held r + one c.r r
      omega
  · obtain ⟨balanced', filed⟩ := filed_go (t := { s with calls := s.calls + 1 }.go p (.tested c))
      (.tested c) rfl here (fun r => rfl) (fun r => rfl) (fun r => rfl) rfl rfl rfl rfl balanced
    exact ⟨balanced', .inl filed⟩

/-- A call that fails before the request is linked. -/
theorem fail_filed (here : s.pc p = .tested c) (balanced : s.Balanced) :
    (s.fail p c).Balanced ∧ (Filed s (s.fail p c) ∨
      c.origin = .complete ∧ Slipped s (s.fail p c)) := by
  have busy : s.busy c.r = true := balanced.busy_of_before (p := p) (by
    rw [here]
    exact one_self)
  unfold State.fail
  cases origin : c.origin with
  | caller =>
    rw [refuse_caller origin]
    refine ⟨balanced.go .idle rfl here fun r => ?_, .inl (.stay
      (after_go (f := fun _ => 0) (g := fun _ => 0) .idle rfl here fun r => rfl) rfl rfl rfl)⟩
    have off := busy_off busy r
    show 0 + (0 + s.held r) + (s.busy r).toNat =
      one c.r r + (0 + s.held r) + (Function.update s.busy c.r false r).toNat
    omega
  | complete =>
    rw [refuse_complete origin]
    refine ⟨balanced.go (.finishing c.r) rfl here fun r => ?_, .inr ⟨rfl, .refuse c.r
      (after_go (f := fun _ => 0) (g := one c.r) (.finishing c.r) rfl here fun r => ?_) rfl⟩⟩
    · show 0 + (one c.r r + s.held r) + (s.busy r).toNat =
        one c.r r + (0 + s.held r) + (s.busy r).toNat
      omega
    · show one c.r r + s.held r = 0 + s.held r + one c.r r
      omega

/-- One that finds the ring full. -/
theorem drop_filed (here : s.pc p = .failing c) (balanced : s.Balanced) :
    ((s.unlink c.r).fail p c).Balanced ∧ (Filed s ((s.unlink c.r).fail p c) ∨
      c.origin = .complete ∧ Slipped s ((s.unlink c.r).fail p c)) := by
  have busy : s.busy c.r = true := balanced.busy_of_after (p := p) (by
    rw [here]
    exact one_self)
  unfold State.fail
  cases origin : c.origin with
  | caller =>
    rw [refuse_caller origin]
    refine ⟨balanced.go .idle rfl here fun r => ?_, .inl (.unlink c.r
      (after_go (f := one c.r) (g := fun _ => 0) .idle rfl here fun r => ?_) rfl rfl rfl)⟩
    · have off := busy_off busy r
      show 0 + (0 + s.held r) + (s.busy r).toNat =
        0 + (one c.r r + s.held r) + (Function.update s.busy c.r false r).toNat
      omega
    · show 0 + s.held r + one c.r r = one c.r r + s.held r + 0
      omega
  | complete =>
    rw [refuse_complete origin]
    exact ⟨balanced.go (.finishing c.r) rfl here fun r => rfl, .inr ⟨rfl, .unlink c.r
      (after_go (f := fun _ => 0) (g := fun _ => 0) (.finishing c.r) rfl here fun r => rfl) rfl⟩⟩

theorem entry_filed (sound : s.ring.Sound) (here : s.pc p = .linked c)
    (may : s.ring.next ≠ none → entered = true) (balanced : s.Balanced) :
    (s.submitEntry p c entered).Balanced ∧ Filed s (s.submitEntry p c entered) := by
  cases room : s.ring.next with
  | none =>
    rw [submitEntry_full room]
    exact filed_go (.failing c) rfl here (fun r => rfl) (fun r => rfl) (fun r => rfl) rfl rfl rfl rfl
      balanced
  | some i =>
    obtain rfl := may (by rw [room]; exact Option.some_ne_none i)
    obtain ⟨pc, busy, shards, links, unlinks⟩ :=
      enter_others s (.op c.r c.number) true
    have held (r : Nat) : (s.enter (.op c.r c.number) true).held r = s.held r + one c.r r := by
      rw [enter_held sound room]
      unfold Sqe.ops one
      rw [List.countP_singleton]
      simp only [decide_eq_true_eq]
    rw [submitEntry_taken room]
    have went : Function.update (s.enter (.op c.r c.number) true).pc p .idle =
        Function.update s.pc p .idle := by rw [pc]
    refine ⟨balanced.go .idle went here fun r => ?_, .stay
      (after_go (f := fun _ => 0) (g := fun _ => 0) .idle went here fun r => ?_) shards links
      unlinks⟩
    · show 0 + (0 + (s.enter (.op c.r c.number) true).held r) + (s.busy r).toNat =
        0 + (one c.r r + s.held r) + ((s.enter (.op c.r c.number) true).busy r).toNat
      rw [held, busy]
      omega
    · show 0 + (s.enter (.op c.r c.number) true).held r = one c.r r + s.held r
      rw [held]
      omega

/-- An entry that is not an operation. -/
theorem enter_filed (sound : s.ring.Sound) {i : UInt32} (room : s.ring.next = some i) (x : Sqe)
    (other : x.ops = []) {pc : Pc} (pc' : Pc) (here : s.pc p = pc)
    (before : ∀ r, pc'.before r = pc.before r) (after : ∀ r, pc'.after r = pc.after r)
    (balanced : s.Balanced) (asked : Nat → Bool) :
    ({ (s.enter x entered).go p pc' with asked := asked }).Balanced ∧
      Filed s { (s.enter x entered).go p pc' with asked := asked } := by
  obtain ⟨pc, busy, shards, links, unlinks⟩ := enter_others s x entered
  have went : Function.update (s.enter x entered).pc p pc' = Function.update s.pc p pc' := by rw [pc]
  refine filed_go pc' went here before after (fun r => ?_) busy shards links unlinks balanced
  have held : (s.enter x entered).held r = _ := enter_held sound room r
  rw [other, List.countP_nil, Nat.add_zero] at held
  exact held

theorem complete_others (p : Fin n) (r call : Nat) (res : Int) :
    (s.complete p r call res).busy = s.busy ∧ (s.complete p r call res).linksOf = s.linksOf ∧
      ((s.complete p r call res).pc = Function.update s.pc p (.resubmitting r) ∧
          (s.complete p r call res).shards = s.shards.unlink r ∧
          (s.complete p r call res).unlinksOf =
            Function.update s.unlinksOf r (s.unlinksOf r + 1) ∨
        (s.complete p r call res).pc = Function.update s.pc p (.finishing r) ∧
          (s.complete p r call res).shards = s.shards ∧
          (s.complete p r call res).unlinksOf = s.unlinksOf) := by
  unfold State.complete
  simp only
  split
  · exact ⟨rfl, rfl, .inl ⟨rfl, rfl, rfl⟩⟩
  · exact ⟨rfl, rfl, .inr ⟨rfl, rfl, rfl⟩⟩

/-- The kernel gives the request to the party. -/
theorem complete_held {call : Nat} {res : Int} (has : (r, call) ∈ s.kernel) (q : Nat) :
    (s.complete p r call res).held q + one r q = s.held q := by
  obtain ⟨ring, kernel, -⟩ := complete_ring (s := s) p r call res
  unfold State.held State.ops one
  rw [ring, kernel, List.countP_append, List.countP_append, List.countP_erase]
  rcases eq_or_ne r q with rfl | other
  · have positive : 0 < s.kernel.countP fun o => decide (o.1 = r) :=
      List.countP_pos_iff.mpr ⟨(r, call), has, decide_eq_true rfl⟩
    rw [if_pos ⟨has, decide_eq_true rfl⟩, if_pos rfl]
    omega
  · rw [if_neg fun same => other (of_decide_eq_true same.2), if_neg other]
    omega

theorem complete_filed (idle : s.pc p = .idle) {call : Nat} {res : Int}
    (has : (r, call) ∈ s.kernel) (balanced : s.Balanced) :
    (s.complete p r call res).Balanced ∧ Filed s (s.complete p r call res) := by
  have held (q : Nat) : (s.complete p r call res).held q + one r q = s.held q := complete_held has q
  obtain ⟨busy, links, cases⟩ := complete_others (s := s) p r call res
  rcases cases with ⟨went, shards, unlinks⟩ | ⟨went, shards, unlinks⟩
  · refine ⟨balanced.go (.resubmitting r) went idle fun q => ?_, .unlink r
      (after_go (f := one r) (g := fun _ => 0) (.resubmitting r) went idle fun q => ?_) shards links
      unlinks⟩
    · have less := held q
      rw [busy]
      show one r q + (0 + _) + _ = 0 + (0 + _) + _
      omega
    · have less := held q
      show 0 + _ + _ = 0 + _ + 0
      omega
  · refine ⟨balanced.go (.finishing r) went idle fun q => ?_, .stay
      (after_go (f := fun _ => 0) (g := fun _ => 0) (.finishing r) went idle fun q => ?_) shards links
      unlinks⟩
    · have less := held q
      rw [busy]
      show 0 + (one r q + _) + _ = 0 + (0 + _) + _
      omega
    · have less := held q
      show one r q + _ + 0 = 0 + _ + 0
      omega

/-- A submission of a request is held once, and whoever has it keeps it in its list, or out of it,
unless the rest of a send is refused. -/
theorem Move.filed (move : Move s a t) (sound : s.ring.Sound) (may : taken s a)
    (balanced : s.Balanced) :
    t.Balanced ∧ (Filed s t ∨ refused s a ∧ Slipped s t) := by
  have quiet {t : State n} (filed : t.Balanced ∧ Filed s t) :
      t.Balanced ∧ (Filed s t ∨ refused s a ∧ Slipped s t) := ⟨filed.1, .inl filed.2⟩
  cases move with
  | nothing | start | stop | scopes =>
    exact ⟨balanced, .inl (.stay (fun r => rfl) rfl rfl rfl)⟩
  | submit p r op out resume scope filled idle free has =>
    obtain ⟨balanced', filed⟩ := submit_filed (s := s.fill r filled)
      (c := ⟨r, ⟨out, resume, s.tokenOf scope⟩, s.calls, .caller⟩) idle free rfl balanced
    refine ⟨balanced', .inl ?_⟩
    cases filed with
    | stay after shards links unlinks => exact .stay after shards links unlinks
    | link q before after shards links unlinks => exact .link q before after shards links unlinks
    | unlink q after shards links unlinks => exact .unlink q after shards links unlinks
  | resubmit p r entered here =>
    obtain ⟨balanced', filed⟩ := resubmit_filed (s := s) (p := p)
      (c := ⟨r, ⟨(s.req r).out, (s.req r).resume, (s.req r).token⟩, s.calls, .complete⟩) here rfl
      balanced
    refine ⟨balanced', filed.imp_right fun ⟨asked, slipped⟩ => ⟨?_, slipped⟩⟩
    simp only [refused, State.refuses, here]
    exact .inr asked
  | giveUp p r entered here empty =>
    refine ⟨balanced.go (.finishing r) rfl here fun q => ?_, .inr ⟨?_, .refuse r
      (after_go (f := fun _ => 0) (g := one r) (.finishing r) rfl here fun q => ?_) rfl⟩⟩
    · show 0 + (one r q + s.held q) + (s.busy q).toNat =
        one r q + (0 + s.held q) + (s.busy q).toNat
      omega
    · simp only [refused, State.refuses, here]
      exact .inl empty
    · show one r q + s.held q = 0 + s.held q + one r q
      omega
  | fail p c entered here down =>
    obtain ⟨balanced', filed⟩ := fail_filed here balanced
    refine ⟨balanced', filed.imp_right fun ⟨rest, slipped⟩ => ⟨?_, slipped⟩⟩
    simp only [refused, State.refuses, here]
    exact ⟨rest, down⟩
  | pass p c entered here =>
    exact quiet (filed_go (.passed c) rfl here (fun r => rfl) (fun r => rfl) (fun r => rfl) rfl rfl
      rfl rfl balanced)
  | link p c entered here =>
    refine quiet ⟨balanced.go (.linked c) rfl here fun r => ?_, .link c.r ?_
      (after_go (f := fun _ => 0) (g := one c.r) (.linked c) rfl here fun r => ?_) rfl rfl rfl⟩
    · show 0 + (one c.r r + s.held r) + (s.busy r).toNat =
        one c.r r + (0 + s.held r) + (s.busy r).toNat
      omega
    · have some := before_le (s := s) (r := c.r) p
      rw [here] at some
      exact (one_self (q := c.r)).ge.trans some
    · show one c.r r + s.held r = 0 + s.held r + one c.r r
      omega
  | entry p c entered here =>
    refine quiet (entry_filed sound here ?_ balanced)
    simp only [taken, State.takes, here] at may
    exact may
  | drop p c entered here =>
    obtain ⟨balanced', filed⟩ := drop_filed here balanced
    refine ⟨balanced', filed.imp_right fun ⟨rest, slipped⟩ => ⟨?_, slipped⟩⟩
    simp only [refused, State.refuses, here]
    exact rest
  | finish p r entered here =>
    have busy : s.busy r = true := balanced.busy_of_after (p := p) (by
      rw [here]
      exact one_self)
    refine quiet ⟨balanced.go .idle rfl here fun q => ?_, .unlink r
      (after_go (f := one r) (g := fun _ => 0) .idle rfl here fun q => ?_) rfl rfl rfl⟩
    · have off := busy_off busy q
      show 0 + (0 + s.held q) + (s.busy q).toNat =
        0 + (one r q + s.held q) + (Function.update s.busy r false q).toNat
      omega
    · show 0 + s.held q + one r q = one r q + s.held q + 0
      omega
  | requestCancel p scope idle =>
    exact quiet (filed_go (.sweeping _ _ _) rfl idle (fun r => rfl) (fun r => rfl) (fun r => rfl) rfl rfl rfl rfl
      balanced)
  | collect p token shard marked entered targets here =>
    exact quiet (filed_go (.cancelling _ _ _ _) rfl here (fun r => rfl) (fun r => rfl) (fun r => rfl) rfl rfl rfl rfl
      balanced)
  | sweep p token shard marked entered here =>
    exact quiet (filed_go .idle rfl here (fun r => rfl) (fun r => rfl) (fun r => rfl) rfl rfl rfl rfl
      balanced)
  | nextShard p token shard marked entered here =>
    exact quiet (filed_go (.sweeping _ _ _) rfl here (fun r => rfl) (fun r => rfl) (fun r => rfl) rfl rfl rfl rfl
      balanced)
  | cancel p token shard r targets marked entered here =>
    refine quiet ?_
    cases room : s.ring.next with
    | none =>
      rw [submitCancel_full room]
      exact filed_go (.cancelling _ _ _ _) rfl here (fun r => rfl) (fun r => rfl) (fun r => rfl)
        rfl rfl rfl rfl balanced
    | some i =>
      cases entered with
      | false =>
        rw [submitCancel_failed room]
        exact enter_filed sound room (.cancel r) rfl (.cancelling token shard [] marked) here
          (fun r => rfl) (fun r => rfl) balanced (s.enter (.cancel r) false).asked
      | true =>
        rw [submitCancel_taken room]
        exact enter_filed sound room (.cancel r) rfl (.cancelling token shard targets marked)
          here (fun r => rfl) (fun r => rfl) balanced _
  | complete p r call res idle has => exact quiet (complete_filed idle has balanced)
  | wake p entered idle room =>
    obtain ⟨pc, busy, shards, links, unlinks⟩ :=
      enter_others s .wake entered
    have went : (s.enter .wake entered).pc = Function.update s.pc p .idle := by
      rw [pc, ← idle, Function.update_eq_self]
    exact quiet (filed_go .idle went idle (fun r => rfl) (fun r => rfl)
      (fun r => enter_held sound room r) busy shards links unlinks balanced)

end JLibSched.Reactor
