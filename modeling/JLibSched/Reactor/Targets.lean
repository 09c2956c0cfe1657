import JLibSched.Reactor.Lists
import JLibSched.Reactor.Moves

/-!
# Whom a cancel names

`RequestCancel` collects the addresses of the requests of a scope under the lock of their shard, and
submits the cancels afterwards.  Until then a request may have completed and may be in use again, for
another scope.  While no request is linked again so, each cancel names a request of the scope, or one
that is not in flight.
-/

namespace JLibSched.Reactor

open Transition Cancel Ring

variable {n : Nat} {s t : State n} {a : Label n} {p u : Fin n} {c : Call} {r token : Nat}
  {entered : Bool}

/-- A `RequestCancel` of a valid token has collected the request and not yet come to it. -/
def Pc.aims (token r : Nat) : Pc → Prop
  | .cancelling tok _ targets _ => tok = token ∧ token ≠ kNone ∧ r ∈ targets
  | .idle | .tested _ | .passed _ | .linked _ | .failing _ | .resubmitting _ | .finishing _
  | .sweeping _ _ _ => False

/-- The targets of a party hold `keep`, if its token is valid. -/
def Pc.allTargets (keep : Nat → Nat → Prop) : Pc → Prop
  | .cancelling tok _ targets _ => tok ≠ kNone → ∀ r ∈ targets, keep tok r
  | .idle | .tested _ | .passed _ | .linked _ | .failing _ | .resubmitting _ | .finishing _
  | .sweeping _ _ _ => True

instance (keep : Nat → Nat → Prop) [∀ tok r, Decidable (keep tok r)] :
    ∀ pc : Pc, Decidable (pc.allTargets keep)
  | .cancelling tok _ targets _ => inferInstanceAs
      (Decidable (tok ≠ kNone → ∀ r ∈ targets, keep tok r))
  | .idle | .tested _ | .passed _ | .linked _ | .failing _ | .resubmitting _ | .finishing _
  | .sweeping _ _ _ => isTrue trivial

theorem Pc.allTargets_iff {keep : Nat → Nat → Prop} {pc : Pc} :
    pc.allTargets keep ↔ ∀ token r, pc.aims token r → keep token r := by
  cases pc with
  | cancelling tok shard targets marked =>
    constructor
    · rintro all token r ⟨rfl, valid, mem⟩
      exact all valid r mem
    · intro all valid r mem
      exact all tok r ⟨rfl, valid, mem⟩
  | idle | tested | passed | linked | failing | resubmitting | finishing | sweeping =>
    exact ⟨fun _ _ _ absurd => absurd.elim, fun _ => trivial⟩

/-- A call that links its request leaves out nobody's targets, unless its token is within theirs. -/
def State.linksOwn (s : State n) : Pc → Prop
  | .passed c => ∀ u, (s.pc u).allTargets fun tok r =>
    r = c.r → isWithin s.scopes.slots c.args.token tok = true
  | _ => True

/-- The scopes of the targets stay alive. -/
def State.targetsLive (s : State n) : Option Scopes.State → Prop
  | some scopes => ∀ u, (s.pc u).allTargets fun _ r =>
    Alive s.scopes.slots scopes.slots (s.req r).token
  | none => True

/-- No request is linked for another scope while it is among the targets of a `RequestCancel`, and
their scopes do not end. -/
def targetsStand (s : State n) : Label n → Prop
  | .advance p _ => s.linksOwn (s.pc p)
  | .scopes a => s.targetsLive (Scopes.step s.scopes a)
  | _ => True

instance (s : State n) : ∀ pc, Decidable (s.linksOwn pc)
  | .passed c => inferInstanceAs (Decidable (∀ u, (s.pc u).allTargets fun tok r =>
    r = c.r → isWithin s.scopes.slots c.args.token tok = true))
  | .idle | .tested _ | .linked _ | .failing _ | .resubmitting _ | .finishing _ | .sweeping _ _ _
  | .cancelling _ _ _ _ => isTrue trivial

instance (s : State n) : ∀ x, Decidable (s.targetsLive x)
  | some scopes => inferInstanceAs (Decidable (∀ u, (s.pc u).allTargets fun _ r =>
    Alive s.scopes.slots scopes.slots (s.req r).token))
  | none => isTrue trivial

instance (s : State n) : ∀ a, Decidable (targetsStand s a)
  | .advance p _ => inferInstanceAs (Decidable (s.linksOwn (s.pc p)))
  | .scopes a => inferInstanceAs (Decidable (s.targetsLive (Scopes.step s.scopes a)))
  | .submit _ _ _ _ _ _ | .complete _ _ _ _ | .requestCancel _ _ | .postWake _ _ | .start
  | .stop => isTrue trivial

/-- The targets that are left are within the token. -/
def Aimed (s : State n) : Prop :=
  ∀ u token r, (s.pc u).aims token r → isWithin s.scopes.slots (s.req r).token token = true

/-! ## Steps -/

/-- Tokens and scopes are as before, and nobody has another target. -/
theorem Aimed.keep (aimed : Aimed s) (scopes : t.scopes = s.scopes)
    (token : ∀ r, (t.req r).token = (s.req r).token)
    (aims : ∀ u token r, (t.pc u).aims token r → (s.pc u).aims token r) : Aimed t := by
  intro u tok r here
  rw [scopes, token]
  exact aimed u tok r (aims u tok r here)

/-- A party that goes on and has no other targets. -/
theorem aims_go (pc : Pc) (fewer : ∀ token r, pc.aims token r → (s.pc p).aims token r) (u : Fin n)
    (token r : Nat) (here : (Function.update s.pc p pc u).aims token r) :
    (s.pc u).aims token r := by
  rcases eq_or_ne u p with rfl | other
  · rw [Function.update_self] at here
    exact fewer token r here
  · rw [Function.update_of_ne other] at here
    exact here

theorem refuse_aims : (s.refuse p c).scopes = s.scopes ∧ (s.refuse p c).req = s.req ∧
    ∀ u token r, ((s.refuse p c).pc u).aims token r → (s.pc u).aims token r := by
  unfold State.refuse
  split
  · exact ⟨rfl, rfl, aims_go .idle fun _ _ absurd => absurd.elim⟩
  · exact ⟨rfl, rfl, aims_go (.finishing c.r) fun _ _ absurd => absurd.elim⟩

theorem fail_aimed (aimed : Aimed s) : Aimed (s.fail p c) := by
  obtain ⟨scopes, req, aims⟩ := refuse_aims (s := s) (p := p) (c := c)
  exact aimed.keep scopes (fun r => congrArg (fun f => (f r).token) req) aims

theorem submitOp_aimed (aimed : Aimed s) : Aimed (s.submitOp p c) := by
  unfold State.submitOp
  simp only
  split
  · obtain ⟨scopes, req, aims⟩ := refuse_aims (p := p) (c := c)
      (s := { s with calls := s.calls + 1, busy := Function.update s.busy c.r true })
    exact aimed.keep scopes (fun r => congrArg (fun f => (f r).token) req) aims
  · exact aimed.keep rfl (fun r => rfl) (aims_go (.tested c) fun _ _ absurd => absurd.elim)

/-- Only the token of the request that is linked changes. -/
theorem link_aimed (aimed : Aimed s) (here : s.pc p = .passed c) (own : s.linksOwn (s.pc p)) :
    Aimed ((s.link c).go p (.linked c)) := by
  intro u token r here'
  have before : (s.pc u).aims token r :=
    aims_go (.linked c) (fun _ _ absurd => absurd.elim) u token r here'
  show isWithin s.scopes.slots (Function.update s.req c.r _ r).token token = true
  rcases eq_or_ne r c.r with rfl | other
  · rw [Function.update_self]
    rw [here] at own
    exact Pc.allTargets_iff.mp (own u) token c.r before rfl
  · rw [Function.update_of_ne other]
    exact aimed u token r before

/-- What is collected is within the token. -/
theorem collect_select {next : Nat → Option Nat} {select : Nat → Bool} {fuel : Nat}
    {first : Option Nat} {count : Nat} {l : List Nat}
    (found : collect next select fuel first count = some l) (mem : r ∈ l) : select r = true := by
  induction fuel generalizing first count l with
  | zero =>
    cases first with
    | none =>
      cases found
      cases mem
    | some q =>
      unfold collect at found
      split at found
      · cases found
        cases mem
      · cases found
  | succ fuel ih =>
    cases first with
    | none =>
      cases found
      cases mem
    | some q =>
      unfold collect at found
      split at found
      · cases found
        cases mem
      · simp only at found
        split at found
        · rename_i chosen
          obtain ⟨rest, found', rfl⟩ := Option.map_eq_some_iff.mp found
          rcases List.mem_cons.mp mem with rfl | later
          · exact chosen
          · exact ih found' later
        · exact ih found mem

theorem complete_frame (p : Fin n) (r call : Nat) (res : Int) :
    (s.complete p r call res).scopes = s.scopes ∧
      (∀ q, ((s.complete p r call res).req q).token = (s.req q).token) ∧
      ((s.complete p r call res).pc = Function.update s.pc p (.resubmitting r) ∨
        (s.complete p r call res).pc = Function.update s.pc p (.finishing r)) := by
  have token (x : IoRequest) (same : x.token = (s.req r).token) (q : Nat) :
      (Function.update s.req r x q).token = (s.req q).token := by
    rcases eq_or_ne q r with rfl | other
    · rw [Function.update_self, same]
    · rw [Function.update_of_ne other]
  have kept : ((s.req r).rest res).token = (s.req r).token := by
    unfold IoRequest.rest IoRequest.advanceBufs
    simp only
    split <;> rfl
  unfold State.complete
  simp only
  split
  · exact ⟨rfl, token _ kept, .inl rfl⟩
  · exact ⟨rfl, token _ rfl, .inr rfl⟩

theorem entry_aimed (aimed : Aimed s) : Aimed (s.submitEntry p c entered) := by
  cases room : s.ring.next with
  | none =>
    rw [submitEntry_full room]
    exact aimed.keep rfl (fun r => rfl) (aims_go (.failing c) fun _ _ absurd => absurd.elim)
  | some i =>
    cases entered with
    | false =>
      obtain ⟨ring, kernel, times, same⟩ := enter_frame s (.op c.r c.number) false
      rw [submitEntry_failed room, same]
      exact aimed.keep rfl (fun r => rfl) (aims_go (.failing c) fun _ _ absurd => absurd.elim)
    | true =>
      obtain ⟨ring, kernel, times, same⟩ := enter_frame s (.op c.r c.number) true
      rw [submitEntry_taken room, same]
      exact aimed.keep rfl (fun r => rfl) (aims_go .idle fun _ _ absurd => absurd.elim)

theorem cancel_aimed {shard : Nat} {targets : List Nat} {marked : Bool} (aimed : Aimed s)
    (here : s.pc p = .cancelling token shard (r :: targets) marked) :
    Aimed (s.submitCancel p token shard r targets marked entered) := by
  have stopped (tok q : Nat) (aims : (Pc.cancelling token shard [] marked).aims tok q) :
      (s.pc p).aims tok q := absurd aims.2.2 List.not_mem_nil
  have onward (tok q : Nat) (aims : (Pc.cancelling token shard targets marked).aims tok q) :
      (s.pc p).aims tok q := by
    rw [here]
    exact ⟨aims.1, aims.2.1, List.mem_cons_of_mem _ aims.2.2⟩
  cases room : s.ring.next with
  | none =>
    rw [submitCancel_full room]
    exact aimed.keep rfl (fun r => rfl) (aims_go _ stopped)
  | some i =>
    cases entered with
    | false =>
      obtain ⟨ring, kernel, times, same⟩ := enter_frame s (.cancel r) false
      rw [submitCancel_failed room, same]
      exact aimed.keep rfl (fun r => rfl) (aims_go _ stopped)
    | true =>
      obtain ⟨ring, kernel, times, same⟩ := enter_frame s (.cancel r) true
      rw [submitCancel_taken room, same]
      exact aimed.keep rfl (fun r => rfl) (aims_go _ onward)

theorem Move.aimed (move : Move s a t) (may : targetsStand s a) (aimed : Aimed s) : Aimed t := by
  cases move with
  | nothing | start | stop => exact aimed
  | submit p r op out resume scope filled =>
    refine submitOp_aimed (aimed.keep rfl (fun q => ?_) fun u token r here => here)
    show (Function.update s.req r { filled with
      out := (s.req r).out, resume := (s.req r).resume, token := (s.req r).token } q).token = _
    rcases eq_or_ne q r with rfl | other
    · rw [Function.update_self]
    · rw [Function.update_of_ne other]
  | resubmit => exact submitOp_aimed aimed
  | fail => exact fail_aimed aimed
  | drop p c =>
    have unlinked : Aimed (s.unlink c.r) := aimed.keep rfl (fun q => rfl) fun u token r here => here
    exact fail_aimed unlinked
  | giveUp p r =>
    exact aimed.keep rfl (fun q => rfl) (aims_go (.finishing r) fun _ _ absurd => absurd.elim)
  | pass p c =>
    exact aimed.keep rfl (fun q => rfl) (aims_go (.passed c) fun _ _ absurd => absurd.elim)
  | finish | sweep =>
    exact aimed.keep rfl (fun q => rfl) (aims_go .idle fun _ _ absurd => absurd.elim)
  | requestCancel =>
    exact aimed.keep rfl (fun q => rfl) (aims_go (.sweeping _ _ _) fun _ _ absurd => absurd.elim)
  | nextShard =>
    exact aimed.keep rfl (fun q => rfl) (aims_go (.sweeping _ _ _) fun _ _ absurd => absurd.elim)
  | link p c entered here =>
    unfold targetsStand at may
    exact link_aimed aimed here may
  | entry => exact entry_aimed aimed
  | collect p token shard marked entered targets here inside found =>
    intro u tok r aims
    have aims : (Function.update s.pc p (.cancelling token shard targets marked) u).aims tok r :=
      aims
    rcases eq_or_ne u p with rfl | other
    · rw [Function.update_self] at aims
      obtain ⟨rfl, valid, mem⟩ := aims
      have selected := collect_select found mem
      unfold State.matches at selected
      rw [decide_eq_false valid, Bool.false_or] at selected
      exact selected
    · rw [Function.update_of_ne other] at aims
      exact aimed u tok r aims
  | cancel p token shard r targets marked entered here => exact cancel_aimed aimed here
  | wake p entered =>
    obtain ⟨ring, kernel, times, same⟩ := enter_frame s .wake entered
    rw [same]
    exact aimed.keep rfl (fun r => rfl) fun u token r here => here
  | complete p r call res idle has =>
    obtain ⟨scopes, token, went | went⟩ := complete_frame (s := s) p r call res
    · refine aimed.keep scopes token fun u tok q aims => ?_
      rw [went] at aims
      exact aims_go (.resubmitting r) (fun _ _ absurd => absurd.elim) u tok q aims
    · refine aimed.keep scopes token fun u tok q aims => ?_
      rw [went] at aims
      exact aims_go (.finishing r) (fun _ _ absurd => absurd.elim) u tok q aims
  | scopes b scopes stepped =>
    intro u tok r aims
    simp only [targetsStand, stepped] at may
    have alive := Pc.allTargets_iff.mp (may u) tok r aims
    exact alive.isWithin_eq.trans (aimed u tok r aims)

theorem initial_aimed {ringUp : Bool} : Aimed (initial n ringUp) :=
  fun _ _ _ absurd => False.elim absurd

theorem aimed_of_reach {ringUp : Bool} (reach : Reach step targetsStand (initial n ringUp) s) :
    Aimed s := by
  refine reach.invariant (I := Aimed) initial_aimed fun aimed may stepped => ?_
  exact (move_of_step stepped).aimed may aimed

/-- When a `RequestCancel` of a valid token comes to a cancel, the request that it names is not in
flight, or is within the token. -/
theorem cancel_names {ringUp : Bool} (reach : Reach step targetsStand (initial n ringUp) s)
    {shard : Nat} {targets : List Nat} {marked : Bool}
    (here : s.pc p = .cancelling token shard (r :: targets) marked) (valid : token ≠ kNone) :
    (∀ call, (r, call) ∉ s.kernel) ∨ isWithin s.scopes.slots (s.req r).token token = true := by
  refine .inr (aimed_of_reach reach p token r ?_)
  rw [here]
  exact ⟨rfl, valid, List.mem_cons_self⟩

/-- A receive for scope 0 is in flight.  The scope is cancelled, and a `RequestCancel` has collected
the request. -/
def aimedLabels : List (Label 2) :=
  [.start, .scopes (.create none), .scopes (.advance 0), .scopes (.advance 0),
    .submit 0 0 (.recv 3 64 8 0) 1 2 (some 0), .advance 0 true, .advance 0 true, .advance 0 true,
    .scopes (.cancel 0), .requestCancel 1 (some 0), .advance 1 true]

def aimedAt : State 2 := (run step targetsStand (initial 2 true) aimedLabels).getD (initial 2 true)

theorem aimedAt_names : (0, 0) ∈ aimedAt.kernel ∧
    ((∀ call, (0, call) ∉ aimedAt.kernel) ∨
      isWithin aimedAt.scopes.slots (aimedAt.req 0).token 0 = true) := by
  have here : aimedAt.pc 1 = .cancelling 0 0 [0] true := by decide +kernel
  exact ⟨by decide +kernel,
    cancel_names (Reach.of_isSome aimedLabels (by decide +kernel)) here (by decide)⟩

/-- The request completes and is used again, for no scope. -/
def missedLabels : List (Label 2) :=
  aimedLabels ++ [.complete 0 0 0 8, .advance 0 true,
    .submit 0 0 (.recv 3 64 8 0) 1 2 none, .advance 0 true, .advance 0 true, .advance 0 true]

def missed : State 2 := (run step anyStep (initial 2 true) missedLabels).getD (initial 2 true)

/-- The cancel goes to the new operation, which is within no scope. -/
theorem wrong_request : Reach step anyStep (initial 2 true) missed ∧
    missed.pc 1 = .cancelling 0 0 [0] true ∧ (0, 1) ∈ missed.kernel ∧
    isWithin missed.scopes.slots (missed.req 0).token 0 = false ∧
    (step missed (.advance 1 true)).map (fun s => (s.pc 1, s.entered)) =
      some (.cancelling 0 0 [] true, missed.entered + 1) :=
  ⟨Reach.of_isSome missedLabels (by decide +kernel), by decide +kernel, by decide +kernel,
    by decide +kernel, by decide +kernel⟩

end JLibSched.Reactor
