import JLibSched.IO.AcceptWaiters
import JLibSched.Reactor.Asking
import JLibSched.Reactor.Targets

/-!
# Cancelled scopes and requests

`SubmitOp` tests the token before it links the request, and `RequestCancel` collects what is linked.
While no `SubmitOp` within the scope stands between the two when its shard is collected, and no other
one between `Link` and the ring when the cancel for its request comes to the ring, a `RequestCancel`
of a cancelled scope asks every request within the scope, and nobody is linked there afterwards.
-/

namespace JLibSched.Reactor

open Transition Cancel Ring Links

variable {n : Nat} {s t : State n} {a : Label n} {p u : Fin n} {c : Call} {r q tok token i : Nat}
  {lists lists' : Nat → List Nat} {entered : Bool} {pc pc' : Pc}

/-! ## Where a party stands -/

/-- In a `RequestCancel` of a scope that had been cancelled. -/
def Pc.cancels (tok : Nat) : Pc → Prop
  | .sweeping token _ marked | .cancelling token _ _ marked => token = tok ∧ marked = true
  | .idle | .tested _ | .passed _ | .linked _ | .failing _ | .resubmitting _ | .finishing _ => False

/-- It has collected the shard. -/
def Pc.past (tok i : Nat) : Pc → Prop
  | .sweeping token shard marked => token = tok ∧ marked = true ∧ i < shard
  | .cancelling token shard _ marked => token = tok ∧ marked = true ∧ i ≤ shard
  | .idle | .tested _ | .passed _ | .linked _ | .failing _ | .resubmitting _ | .finishing _ => False

/-- The request is among the targets that are left. -/
def Pc.coming (tok r : Nat) : Pc → Prop
  | .cancelling token _ targets _ => token = tok ∧ r ∈ targets
  | .idle | .tested _ | .passed _ | .linked _ | .failing _ | .resubmitting _ | .finishing _
  | .sweeping _ _ _ => False

/-- `SubmitOp` has tested the token, and the request is not linked. -/
def Pc.stands (r token : Nat) : Pc → Prop
  | .tested c | .passed c => c.r = r ∧ c.args.token = token
  | .idle | .linked _ | .failing _ | .resubmitting _ | .finishing _ | .sweeping _ _ _
  | .cancelling _ _ _ _ => False

/-- The request is linked, and has not come through the section under `submitMx`. -/
def Pc.entering (r : Nat) : Pc → Prop
  | .linked c | .failing c => c.r = r
  | .idle | .tested _ | .passed _ | .resubmitting _ | .finishing _ | .sweeping _ _ _
  | .cancelling _ _ _ _ => False

instance (r : Nat) : ∀ pc : Pc, Decidable (pc.entering r)
  | .linked c | .failing c => inferInstanceAs (Decidable (c.r = r))
  | .idle | .tested _ | .passed _ | .resubmitting _ | .finishing _ | .sweeping _ _ _
  | .cancelling _ _ _ _ => isFalse not_false

/-- No request of the shard stands there with a token within `tok`. -/
def Pc.clearOf (slots : Table) (tok shard : Nat) : Pc → Prop
  | .tested c | .passed c => shardFor c.r = shard → isWithin slots c.args.token tok = false
  | .idle | .linked _ | .failing _ | .resubmitting _ | .finishing _ | .sweeping _ _ _
  | .cancelling _ _ _ _ => True

instance (slots : Table) (tok shard : Nat) : ∀ pc : Pc, Decidable (pc.clearOf slots tok shard)
  | .tested c | .passed c => inferInstanceAs
      (Decidable (shardFor c.r = shard → isWithin slots c.args.token tok = false))
  | .idle | .linked _ | .failing _ | .resubmitting _ | .finishing _ | .sweeping _ _ _
  | .cancelling _ _ _ _ => isTrue trivial

theorem Pc.stands_clear {slots : Table} (clear : pc.clearOf slots tok (shardFor r))
    (stands : pc.stands r token) : isWithin slots token tok = false := by
  cases pc with
  | tested c | passed c =>
    obtain ⟨rfl, rfl⟩ := stands
    exact clear rfl
  | idle | linked | failing | resubmitting | finishing | sweeping | cancelling => cases stands

/-- Who stands there is in no `RequestCancel`. -/
theorem Pc.not_past (stands : pc.stands r token) : ¬ pc.past tok i := by
  cases pc with
  | tested | passed => exact not_false
  | idle | linked | failing | resubmitting | finishing | sweeping | cancelling => cases stands

/-! ## The condition -/

/-- The requests of a list that are looked for. -/
def State.fewTargets (s : State n) (tok shard : Nat) : Prop :=
  ∀ l ∈ walk s.shards.next (s.matches tok) s.shards.made (s.shards.head shard),
    l.length ≤ kTargets

instance (s : State n) (tok shard : Nat) : Decidable (s.fewTargets tok shard) :=
  inferInstanceAs (Decidable (∀ l ∈ walk s.shards.next (s.matches tok) s.shards.made
    (s.shards.head shard), l.length ≤ kTargets))

def State.sweepsClear (s : State n) (entered : Bool) : Pc → Prop
  | .linked _ => s.ring.next ≠ none → entered = true
  | .sweeping tok shard true => shard < kShards →
      (∀ u, (s.pc u).clearOf s.scopes.slots tok shard) ∧ s.fewTargets tok shard
  | .cancelling _ _ (r :: _) true =>
    (∀ u, ¬ (s.pc u).entering r) ∧ s.ring.next ≠ none ∧ entered = true
  | _ => True

/-- When a `RequestCancel` of a cancelled scope collects a shard, no `SubmitOp` within the scope stands
between its test and the list, and the shard has at most 64 targets; when it puts a cancel into the
ring, the request does not stand between its list and the ring, and there is room.  No
`io_uring_enter` fails for an operation or such a cancel, and no slot of a scope comes to its last
generation. -/
def sweepsClear (s : State n) : Label n → Prop
  | .advance p entered => s.sweepsClear entered (s.pc p)
  | .scopes a => Scopes.lasting s.scopes a
  | .submit _ _ _ _ _ _ | .complete _ _ _ _ | .requestCancel _ _ | .postWake _ _ | .start
  | .stop => True

instance (s : State n) (entered : Bool) : ∀ pc, Decidable (s.sweepsClear entered pc)
  | .linked _ => inferInstanceAs (Decidable (s.ring.next ≠ none → entered = true))
  | .sweeping tok shard true => inferInstanceAs (Decidable (shard < kShards →
      (∀ u, (s.pc u).clearOf s.scopes.slots tok shard) ∧ s.fewTargets tok shard))
  | .cancelling _ _ (r :: _) true => inferInstanceAs
      (Decidable ((∀ u, ¬ (s.pc u).entering r) ∧ s.ring.next ≠ none ∧ entered = true))
  | .idle | .tested _ | .passed _ | .failing _ | .resubmitting _ | .finishing _
  | .sweeping _ _ false | .cancelling _ _ [] _ | .cancelling _ _ (_ :: _) false => isTrue trivial

instance (s : State n) : ∀ a, Decidable (sweepsClear s a)
  | .advance p entered => inferInstanceAs (Decidable (s.sweepsClear entered (s.pc p)))
  | .scopes a => inferInstanceAs (Decidable (Scopes.lasting s.scopes a))
  | .submit _ _ _ _ _ _ | .complete _ _ _ _ | .requestCancel _ _ | .postWake _ _ | .start
  | .stop => isTrue trivial

theorem taken_of_clear (may : sweepsClear s a) : taken s a := by
  cases a with
  | advance p entered =>
    simp only [sweepsClear, State.sweepsClear, taken, State.takes] at may ⊢
    cases here : s.pc p with
    | linked c =>
      rw [here] at may
      exact may
    | idle | tested | passed | failing | resubmitting | finishing | sweeping | cancelling =>
      trivial
  | submit | complete | requestCancel | postWake | start | stop | scopes => trivial

/-! ## The invariant -/

/-- The scope of the token is alive. -/
def Current (scopes : Scopes.State) (tok : Nat) : Prop :=
  (scopes.slots (index tok)).genOf = gen tok

/-- The token of a scope that has been cancelled, if it is still alive. -/
structure Cancelled (scopes : Scopes.State) (tok : Nat) : Prop where
  valid : tok ≠ kNone
  inTable : index tok < kCancelSlots
  made : ∃ k, (scopes.phase k).made = true ∧ scopes.raw k = tok
  bit : Current scopes tok → (scopes.slots (index tok)).cancelled = true

theorem Cancelled.marked {scopes : Scopes.State} (cancelled : Cancelled scopes tok)
    (current : Current scopes tok) : Marked scopes.slots tok :=
  ⟨cancelled.valid, cancelled.inTable, current, cancelled.bit current⟩

/-- A `RequestCancel` of the scope has collected the shard. -/
def State.Past (s : State n) (tok i : Nat) : Prop :=
  tok ∈ s.swept ∨ ∃ u, (s.pc u).past tok i

/-- No request within a cancelled scope is left out. -/
structure Heard (s : State n) (lists : Nat → List Nat) : Prop where
  scopes : Scopes.Sound s.scopes
  holds : s.shards.Holds lists
  placed : ∀ r ∈ lists (shardFor r), 1 ≤ s.after r + s.held r
  tokens : ∀ r, s.scopes.Issued (s.req r).token
  calls : ∀ u r token, (s.pc u).stands r token → s.scopes.Issued token
  marked : ∀ tok ∈ s.swept, Marked s.scopes.slots tok
  made : ∀ tok ∈ s.swept, ∃ k, (s.scopes.phase k).made = true ∧ s.scopes.raw k = tok
  cancels : ∀ u tok, (s.pc u).cancels tok → Cancelled s.scopes tok
  /-- Whoever has tested its token since is not within the scope. -/
  clear : ∀ u r token tok, (s.pc u).stands r token → s.Past tok (shardFor r) → Current s.scopes tok →
    isWithin s.scopes.slots token tok = false
  entering : ∀ r ∈ lists (shardFor r), s.submitted r = true ∨ ∃ u, (s.pc u).entering r
  done : ∀ tok ∈ s.swept, ∀ i, ∀ r ∈ lists i,
    isWithin s.scopes.slots (s.req r).token tok = true → s.asked r = true
  own : ∀ u tok i, (s.pc u).past tok i → Current s.scopes tok → ∀ r ∈ lists i,
    isWithin s.scopes.slots (s.req r).token tok = true →
      s.asked r = true ∨ (s.pc u).coming tok r

theorem initial_heard {ringUp : Bool} : Heard (initial n ringUp) fun _ => [] where
  scopes := Scopes.initial_sound
  holds := empty_holds
  placed r absurd := by cases absurd
  tokens r := .inl rfl
  calls u r token absurd := False.elim absurd
  marked tok absurd := by cases absurd
  made tok absurd := by cases absurd
  cancels u tok absurd := False.elim absurd
  clear u r token tok absurd := False.elim absurd
  entering r absurd := by cases absurd
  done tok absurd := by cases absurd
  own u tok i absurd := False.elim absurd

/-! ## A party goes on -/

/-- What holds of the next state's parties held before, or of the party that has gone on. -/
theorem pc_go {P : Pc → Prop} (went : t.pc = Function.update s.pc p pc') (here : P (t.pc u)) :
    P pc' ∧ u = p ∨ P (s.pc u) := by
  rw [went] at here
  rcases eq_or_ne u p with rfl | other
  · rw [Function.update_self] at here
    exact .inl ⟨here, rfl⟩
  · rw [Function.update_of_ne other] at here
    exact .inr here

/-- What a party does that goes from `pc` to `pc'`, and where it leaves the lists. -/
structure Goes (s t : State n) (lists lists' : Nat → List Nat) (pc pc' : Pc) : Prop where
  scopes : t.scopes = s.scopes
  token : ∀ r, (t.req r).token = (s.req r).token
  holds : t.shards.Holds lists'
  fewer : ∀ i, ∀ r ∈ lists' i, r ∈ lists i
  flow : ∀ r ∈ lists' (shardFor r), pc.after r + s.held r ≤ pc'.after r + t.held r
  submitted : ∀ r, s.submitted r = true → t.submitted r = true
  asked : ∀ r, s.asked r = true → t.asked r = true
  cancels : ∀ tok, pc'.cancels tok → Cancelled s.scopes tok
  stands : ∀ r token, pc'.stands r token → pc.stands r token ∨ s.scopes.Issued token ∧
    ∀ tok, s.Past tok (shardFor r) → Current s.scopes tok → isWithin s.scopes.slots token tok = false
  past : ∀ tok i, pc'.past tok i → pc.past tok i ∨ ∀ u, (s.pc u).clearOf s.scopes.slots tok i
  entering : ∀ r ∈ lists' (shardFor r), pc.entering r → t.submitted r = true ∨ pc'.entering r
  own : ∀ tok i, pc'.past tok i → Current s.scopes tok → ∀ r ∈ lists' i,
    isWithin s.scopes.slots (s.req r).token tok = true → t.asked r = true ∨ pc'.coming tok r
  swept : ∀ tok ∈ t.swept, tok ∈ s.swept ∨ Current s.scopes tok ∧ pc.cancels tok ∧
    ∀ i < kShards, pc.past tok i ∧ ∀ r, ¬ pc.coming tok r

/-- Whoever was past is, and only the party that goes on may be newly so. -/
theorem Goes.before {pc pc' : Pc} (goes : Goes s t lists lists' pc pc')
    (went : t.pc = Function.update s.pc p pc') (here : s.pc p = pc) (inside : i < kShards)
    (past : t.Past tok i) :
    s.Past tok i ∨ pc'.past tok i ∧ ∀ u, (s.pc u).clearOf s.scopes.slots tok i := by
  rcases past with swept | ⟨u, past⟩
  · rcases goes.swept tok swept with old | ⟨-, -, all⟩
    · exact .inl (.inl old)
    · refine .inl (.inr ⟨p, ?_⟩)
      rw [here]
      exact (all i inside).1
  · rcases pc_go (P := fun pc => pc.past tok i) went past with ⟨self, -⟩ | other
    · rcases goes.past tok i self with old | clear
      · refine .inl (.inr ⟨p, ?_⟩)
        rw [here]
        exact old
      · exact .inr ⟨self, clear⟩
    · exact .inl (.inr ⟨u, other⟩)

theorem Heard.go {pc pc' : Pc} (heard : Heard s lists) (goes : Goes s t lists lists' pc pc')
    (went : t.pc = Function.update s.pc p pc') (here : s.pc p = pc) : Heard t lists' := by
  have current {tok : Nat} (now : Current t.scopes tok) : Current s.scopes tok := by
    rwa [goes.scopes] at now
  have within {r tok : Nat} (now : isWithin t.scopes.slots (t.req r).token tok = true) :
      isWithin s.scopes.slots (s.req r).token tok = true := by
    rwa [goes.scopes, goes.token] at now
  constructor
  case scopes =>
    rw [goes.scopes]
    exact heard.scopes
  case holds => exact goes.holds
  case placed =>
    intro r mem
    have had := heard.placed r (goes.fewer _ r mem)
    have flows := goes.flow r mem
    obtain ⟨-, after⟩ := weights went here r
    omega
  case tokens =>
    intro r
    rw [goes.scopes, goes.token]
    exact heard.tokens r
  case calls =>
    intro u r token stands
    rw [goes.scopes]
    rcases pc_go (P := fun pc => pc.stands r token) went stands with ⟨self, rfl⟩ | other
    · rcases goes.stands r token self with old | ⟨issued, -⟩
      · rw [← here] at old
        exact heard.calls u r token old
      · exact issued
    · exact heard.calls u r token other
  case marked =>
    intro tok swept
    rw [goes.scopes]
    rcases goes.swept tok swept with old | ⟨now, cancels, -⟩
    · exact heard.marked tok old
    · rw [← here] at cancels
      exact (heard.cancels p tok cancels).marked now
  case made =>
    intro tok swept
    rw [goes.scopes]
    rcases goes.swept tok swept with old | ⟨-, cancels, -⟩
    · exact heard.made tok old
    · rw [← here] at cancels
      exact (heard.cancels p tok cancels).made
  case cancels =>
    intro u tok cancels
    rw [goes.scopes]
    rcases pc_go (P := fun pc => pc.cancels tok) went cancels with ⟨self, -⟩ | other
    · exact goes.cancels tok self
    · exact heard.cancels u tok other
  case clear =>
    intro u r token tok stands past now
    rw [goes.scopes]
    have old (v : Fin n) (stood : (s.pc v).stands r token) :
        isWithin s.scopes.slots token tok = false := by
      rcases goes.before went here shardFor_lt past with before | ⟨-, clear⟩
      · exact heard.clear v r token tok stood before (current now)
      · exact Pc.stands_clear (clear v) stood
    rcases pc_go (P := fun pc => pc.stands r token) went stands with ⟨self, rfl⟩ | other
    · rcases goes.stands r token self with stood | ⟨-, fresh⟩
      · rw [← here] at stood
        exact old u stood
      · rcases goes.before went here shardFor_lt past with before | ⟨newly, -⟩
        · exact fresh tok before (current now)
        · exact False.elim (Pc.not_past self newly)
    · exact old u other
  case entering =>
    intro r mem
    rcases heard.entering r (goes.fewer _ r mem) with done | ⟨u, entering⟩
    · exact .inl (goes.submitted r done)
    · rcases eq_or_ne u p with rfl | other
      · rw [here] at entering
        refine (goes.entering r mem entering).imp_right fun self => ⟨u, ?_⟩
        rw [went, Function.update_self]
        exact self
      · refine .inr ⟨u, ?_⟩
        rw [went, Function.update_of_ne other]
        exact entering
  case done =>
    intro tok swept i r mem now
    have mem' := goes.fewer i r mem
    rcases goes.swept tok swept with old | ⟨now', -, all⟩
    · exact goes.asked r (heard.done tok old i r mem' (within now))
    · have place := heard.holds.place i r mem'
      obtain ⟨past, nobody⟩ := all i (place ▸ shardFor_lt)
      have own := heard.own p tok i
      rw [here] at own
      rcases own past now' r mem' (within now) with asked | coming
      · exact goes.asked r asked
      · exact absurd coming (nobody r)
  case own =>
    intro u tok i past now r mem inside
    rcases eq_or_ne u p with rfl | other
    · rw [went, Function.update_self] at past ⊢
      exact goes.own tok i past (current now) r mem (within inside)
    · rw [went, Function.update_of_ne other] at past ⊢
      exact (heard.own u tok i past (current now) r (goes.fewer i r mem) (within inside)).imp_left
        (goes.asked r)

/-! ## Steps that leave the lists alone -/

/-- In no `RequestCancel`. -/
def Pc.calm : Pc → Prop
  | .idle | .tested _ | .passed _ | .linked _ | .failing _ | .resubmitting _ | .finishing _ => True
  | .sweeping _ _ _ | .cancelling _ _ _ _ => False

theorem Pc.calm.not_cancels (calm : pc.calm) : ¬ pc.cancels tok := by
  cases pc with
  | sweeping | cancelling => cases calm
  | idle | tested | passed | linked | failing | resubmitting | finishing => exact not_false

theorem Pc.cancels_of_past (past : pc.past tok i) : pc.cancels tok := by
  cases pc with
  | sweeping | cancelling => exact ⟨past.1, past.2.1⟩
  | idle | tested | passed | linked | failing | resubmitting | finishing => cases past

/-- A party goes on, and is in no `RequestCancel` afterwards. -/
theorem Heard.calm (heard : Heard s lists) (pc' : Pc) (calm : pc'.calm)
    (went : t.pc = Function.update s.pc p pc') (here : s.pc p = pc) (scopes : t.scopes = s.scopes)
    (token : ∀ r, (t.req r).token = (s.req r).token) (holds : t.shards.Holds lists')
    (fewer : ∀ i, ∀ r ∈ lists' i, r ∈ lists i)
    (flow : ∀ r ∈ lists' (shardFor r), pc.after r + s.held r ≤ pc'.after r + t.held r)
    (submitted : ∀ r, s.submitted r = true → t.submitted r = true) (asked : t.asked = s.asked)
    (swept : t.swept = s.swept)
    (stands : ∀ r token, pc'.stands r token → pc.stands r token ∨ s.scopes.Issued token ∧
      ∀ tok, s.Past tok (shardFor r) → Current s.scopes tok → isWithin s.scopes.slots token tok = false)
    (entering : ∀ r ∈ lists' (shardFor r), pc.entering r →
      t.submitted r = true ∨ pc'.entering r) : Heard t lists' := by
  have never {tok i : Nat} : ¬ pc'.past tok i :=
    fun past => calm.not_cancels (Pc.cancels_of_past past)
  refine heard.go ?_ went here
  constructor
  case scopes => exact scopes
  case token => exact token
  case holds => exact holds
  case fewer => exact fewer
  case flow => exact flow
  case submitted => exact submitted
  case asked =>
    intro r
    rw [asked]
    exact id
  case cancels => exact fun tok cancels => absurd cancels calm.not_cancels
  case stands => exact stands
  case past => exact fun tok i past => absurd past never
  case entering => exact entering
  case own => exact fun tok i past => absurd past never
  case swept =>
    intro tok mem
    rw [swept] at mem
    exact .inl mem

/-- Nothing else changes that counts. -/
theorem Heard.still (heard : Heard s lists) (pc' : Pc) (calm : pc'.calm)
    (went : t.pc = Function.update s.pc p pc') (here : s.pc p = pc) (quiet : Quiet s t)
    (scopes : t.scopes = s.scopes) (token : ∀ r, (t.req r).token = (s.req r).token)
    (shards : t.shards = s.shards) (submitted : t.submitted = s.submitted)
    (asked : t.asked = s.asked) (swept : t.swept = s.swept)
    (after : ∀ r, pc.after r ≤ pc'.after r)
    (stands : ∀ r token, pc'.stands r token → pc.stands r token ∨ s.scopes.Issued token ∧
      ∀ tok, s.Past tok (shardFor r) → Current s.scopes tok → isWithin s.scopes.slots token tok = false)
    (entering : ∀ r, pc.entering r → pc'.entering r) : Heard t lists := by
  refine heard.calm pc' calm went here scopes token ?_ (fun i r mem => mem) (fun r _ => ?_) ?_ asked
    swept stands fun r _ here => .inr (entering r here)
  · rw [shards]
    exact heard.holds
  · rw [held_of_quiet quiet]
    exact Nat.add_le_add_right (after r) _
  · rw [submitted]
    exact fun r => id

/-- Whoever finds its token not cancelled is within no scope of a `RequestCancel`. -/
theorem Heard.alert (heard : Heard s lists) (alert : cancelled s.scopes.slots token = false)
    (past : s.Past tok i) (current : Current s.scopes tok) :
    isWithin s.scopes.slots token tok = false := by
  have marked : Marked s.scopes.slots tok := by
    rcases past with swept | ⟨u, past⟩
    · exact heard.marked tok swept
    · exact (heard.cancels u tok (Pc.cancels_of_past past)).marked current
  by_contra within
  have cancels := isWithin_cancelled marked (Bool.eq_true_of_not_eq_false within)
  rw [alert] at cancels
  cases cancels

theorem Heard.refuse (heard : Heard s lists) (here : s.pc p = pc) (none : ∀ r, pc.after r = 0)
    (out : ∀ r, ¬ pc.entering r) : Heard (s.refuse p c) lists := by
  have after (pc' : Pc) (r : Nat) : pc.after r ≤ pc'.after r := by
    rw [none]
    exact Nat.zero_le _
  unfold State.refuse
  split
  · exact heard.still .idle trivial rfl here ⟨rfl, rfl, rfl, rfl, rfl⟩ rfl (fun r => rfl) rfl rfl
      rfl rfl (after _) (fun r token absurd => False.elim absurd)
      fun r here => absurd here (out r)
  · exact heard.still (.finishing c.r) trivial rfl here ⟨rfl, rfl, rfl, rfl, rfl⟩ rfl
      (fun r => rfl) rfl rfl rfl rfl (after _) (fun r token absurd => False.elim absurd)
      fun r here => absurd here (out r)

theorem Heard.submitOp (heard : Heard s lists) (here : s.pc p = pc) (none : ∀ r, pc.after r = 0)
    (out : ∀ r, ¬ pc.entering r) (issued : s.scopes.Issued c.args.token) :
    Heard (s.submitOp p c) lists := by
  have after (pc' : Pc) (r : Nat) : pc.after r ≤ pc'.after r := by
    rw [none]
    exact Nat.zero_le _
  unfold State.submitOp
  simp only
  split
  · obtain ⟨scopes, holds, placed, tokens, calls, marked, made, cancels, clear, entering, done, own⟩ :=
      heard
    have counted : Heard { s with calls := s.calls + 1, busy := Function.update s.busy c.r true }
        lists :=
      ⟨scopes, holds, placed, tokens, calls, marked, made, cancels, clear, entering, done, own⟩
    exact counted.refuse here none out
  · rename_i alert
    refine heard.still (.tested c) trivial rfl here ⟨rfl, rfl, rfl, rfl, rfl⟩ rfl (fun r => rfl)
      rfl rfl rfl rfl (after _) ?_ fun r here => absurd here (out r)
    rintro r token ⟨rfl, rfl⟩
    exact .inr ⟨issued, fun tok past current =>
      heard.alert (Bool.eq_false_of_not_eq_true alert) past current⟩

/-- A call that has tested the flags or the token. -/
theorem Heard.fail (heard : Heard s lists) (here : s.pc p = .tested c) :
    Heard (s.fail p c) lists := by
  have refused : Heard (s.refuse p c) lists :=
    heard.refuse here (fun r => rfl) fun r absurd => False.elim absurd
  obtain ⟨scopes, holds, placed, tokens, calls, marked, made, cancels, clear, entering, done, own⟩ :=
    refused
  exact ⟨scopes, holds, placed, tokens, calls, marked, made, cancels, clear, entering, done, own⟩

/-- The section under `submitMx`. -/
theorem Heard.entry (heard : Heard s lists) (sound : s.ring.Sound) (here : s.pc p = .linked c)
    (may : s.ring.next ≠ none → entered = true) : Heard (s.submitEntry p c entered) lists := by
  cases room : s.ring.next with
  | none =>
    rw [submitEntry_full room]
    exact heard.still (.failing c) trivial rfl here ⟨rfl, rfl, rfl, rfl, rfl⟩ rfl (fun r => rfl)
      rfl rfl rfl rfl (fun r => Nat.le_refl _) (fun r token absurd => False.elim absurd)
      fun r here => here
  | some i =>
    obtain rfl := may (by rw [room]; exact Option.some_ne_none i)
    have held (r : Nat) : (s.enter (.op c.r c.number) true).held r = s.held r + one c.r r := by
      rw [enter_held sound room]
      unfold Sqe.ops one
      rw [List.countP_singleton]
      simp only [decide_eq_true_eq]
    rw [submitEntry_taken room]
    obtain ⟨ring, kernel, times, same⟩ := enter_frame s (.op c.r c.number) true
    rw [same] at held ⊢
    refine heard.calm .idle trivial rfl here rfl (fun r => rfl) heard.holds (fun i r mem => mem)
      (fun r _ => ?_) (fun r done => ?_) rfl rfl (fun r token absurd => False.elim absurd)
      fun r _ own => .inl ?_
    · have more := held r
      show one c.r r + s.held r ≤ 0 + { s with
        ring := ring, kernel := kernel, entered := times }.held r
      omega
    · show Function.update s.submitted c.r true r = true
      rcases eq_or_ne r c.r with rfl | other
      · rw [Function.update_self]
      · rw [Function.update_of_ne other]
        exact done
    · obtain rfl : c.r = r := own
      exact Function.update_self _ _ _

/-! ## Steps that unlink a request -/

theorem Heard.unlink (heard : Heard s lists) (pc' : Pc) (q : Nat) (calm : pc'.calm)
    (went : t.pc = Function.update s.pc p pc') (here : s.pc p = pc) (scopes : t.scopes = s.scopes)
    (token : ∀ r, (t.req r).token = (s.req r).token) (shards : t.shards = s.shards.unlink q)
    (flow : ∀ r, r ≠ q → pc.after r + s.held r ≤ pc'.after r + t.held r)
    (submitted : t.submitted = s.submitted) (asked : t.asked = s.asked) (swept : t.swept = s.swept)
    (stands : ∀ r token, ¬ pc'.stands r token)
    (entering : ∀ r, pc.entering r → r = q ∨ pc'.entering r) : ∃ lists', Heard t lists' := by
  refine ⟨Function.update lists (shardFor q) ((lists (shardFor q)).erase q),
    heard.calm pc' calm went here scopes token ?_ (fun i r mem => ?_) (fun r mem => ?_) ?_ asked
      swept (fun r token absurd => False.elim (stands r token absurd)) fun r mem own => ?_⟩
  · rw [shards]
    exact heard.holds.unlink_erase q
  · rcases eq_or_ne i (shardFor q) with rfl | other
    · rw [Function.update_self] at mem
      exact List.mem_of_mem_erase mem
    · rw [Function.update_of_ne other] at mem
      exact mem
  · exact flow r ((mem_update_erase (heard.holds.nodup _)).mp mem).1
  · rw [submitted]
    exact fun r => id
  · rcases entering r own with rfl | self
    · exact absurd rfl ((mem_update_erase (heard.holds.nodup _)).mp mem).1
    · exact .inr self

/-- `SubmitOp` unlinks a request that the ring has not taken. -/
theorem Heard.drop (heard : Heard s lists) (here : s.pc p = .failing c) :
    ∃ lists', Heard ((s.unlink c.r).fail p c) lists' := by
  have none (pc' : Pc) (r : Nat) (other : r ≠ c.r) :
      (Pc.failing c).after r + s.held r ≤ pc'.after r + s.held r := by
    show one c.r r + s.held r ≤ pc'.after r + s.held r
    rw [one_of_ne other.symm, Nat.zero_add]
    exact Nat.le_add_left _ _
  have own (pc' : Pc) (r : Nat) (own : (Pc.failing c).entering r) : r = c.r ∨ pc'.entering r :=
    .inl (Eq.symm own)
  unfold State.fail State.refuse
  split
  · exact heard.unlink .idle c.r trivial rfl here rfl (fun r => rfl) rfl (none _) rfl rfl rfl
      (fun r token => not_false) (own _)
  · exact heard.unlink (.finishing c.r) c.r trivial rfl here rfl (fun r => rfl) rfl (none _) rfl rfl
      rfl (fun r token => not_false) (own _)

theorem Heard.finish (heard : Heard s lists) (here : s.pc p = .finishing r) :
    ∃ lists', Heard { (s.unlink r).go p .idle with busy := Function.update s.busy r false } lists' := by
  refine heard.unlink .idle r trivial rfl here rfl (fun q => rfl) rfl (fun q other => ?_) rfl rfl rfl
    (fun q token => not_false) fun q absurd => False.elim absurd
  show one r q + s.held q ≤ 0 + s.held q
  rw [one_of_ne other.symm]

theorem Heard.complete (heard : Heard s lists) {call : Nat} {res : Int} (idle : s.pc p = .idle)
    (has : (r, call) ∈ s.kernel) : ∃ lists', Heard (s.complete p r call res) lists' := by
  have held (q : Nat) : (s.complete p r call res).held q + one r q = s.held q := complete_held has q
  obtain ⟨scopes, token, -⟩ := complete_frame (s := s) p r call res
  obtain ⟨-, -, cases⟩ := complete_others (s := s) p r call res
  have marks : (s.complete p r call res).submitted = s.submitted ∧
      (s.complete p r call res).asked = s.asked ∧ (s.complete p r call res).swept = s.swept := by
    unfold State.complete
    simp only
    split <;> exact ⟨rfl, rfl, rfl⟩
  obtain ⟨submitted, asked, swept⟩ := marks
  rcases cases with ⟨went, shards, -⟩ | ⟨went, shards, -⟩
  · refine heard.unlink (.resubmitting r) r trivial went idle scopes token shards
      (fun q other => ?_) submitted asked swept (fun q token => not_false)
      fun q absurd => False.elim absurd
    have less := held q
    rw [one_of_ne other.symm] at less
    show 0 + s.held q ≤ 0 + _
    omega
  · refine ⟨lists, heard.calm (.finishing r) trivial went idle scopes token ?_
      (fun i q mem => mem) (fun q _ => ?_) ?_ asked swept
      (fun q token absurd => False.elim absurd) fun q _ absurd => False.elim absurd⟩
    · rw [shards]
      exact heard.holds
    · have less := held q
      show 0 + s.held q ≤ one r q + _
      omega
    · rw [submitted]
      exact fun q => id

/-! ## A sweep -/

/-- A `RequestCancel` goes on, and the lists stay. -/
theorem Heard.sweeping (heard : Heard s lists) (pc pc' : Pc)
    (went : t.pc = Function.update s.pc p pc') (here : s.pc p = pc) (scopes : t.scopes = s.scopes)
    (req : t.req = s.req) (shards : t.shards = s.shards) (held : ∀ r, t.held r = s.held r)
    (after : ∀ r, pc.after r = 0) (submitted : t.submitted = s.submitted)
    (asked : ∀ r, s.asked r = true → t.asked r = true)
    (cancels : ∀ tok, pc'.cancels tok → Cancelled s.scopes tok)
    (stands : ∀ r token, ¬ pc'.stands r token)
    (past : ∀ tok i, pc'.past tok i → pc.past tok i ∨ ∀ u, (s.pc u).clearOf s.scopes.slots tok i)
    (entering : ∀ r, ¬ pc.entering r)
    (own : ∀ tok i, pc'.past tok i → Current s.scopes tok → ∀ r ∈ lists i,
      isWithin s.scopes.slots (s.req r).token tok = true → t.asked r = true ∨ pc'.coming tok r)
    (swept : ∀ tok ∈ t.swept, tok ∈ s.swept ∨ Current s.scopes tok ∧ pc.cancels tok ∧
      ∀ i < kShards, pc.past tok i ∧ ∀ r, ¬ pc.coming tok r) : Heard t lists := by
  refine heard.go ?_ went here
  constructor
  case scopes => exact scopes
  case token =>
    rw [req]
    exact fun r => rfl
  case holds =>
    rw [shards]
    exact heard.holds
  case fewer => exact fun i r mem => mem
  case flow =>
    intro r _
    rw [after, held, Nat.zero_add]
    exact Nat.le_add_left _ _
  case submitted =>
    rw [submitted]
    exact fun r => id
  case asked => exact asked
  case cancels => exact cancels
  case stands => exact fun r token absurd => False.elim (stands r token absurd)
  case past => exact past
  case entering => exact fun r _ absurd => False.elim (entering r absurd)
  case own => exact own
  case swept => exact swept

theorem Heard.requestCancel (heard : Heard s lists) {scope : Option Nat} (idle : s.pc p = .idle)
    (has : s.scopes.has scope) : Heard (s.go p (.sweeping (s.tokenOf scope) 0
      (decide (Marked s.scopes.slots (s.tokenOf scope))))) lists := by
  refine heard.sweeping .idle _ rfl idle rfl rfl rfl (fun r => rfl) (fun r => rfl) rfl
    (fun r => id) ?_ (fun r token => not_false) ?_ (fun r => not_false) ?_ fun tok => .inl
  · rintro tok ⟨rfl, decided⟩
    have marked : Marked s.scopes.slots (s.tokenOf scope) := of_decide_eq_true decided
    refine ⟨marked.valid, marked.inTable, ?_, fun _ => marked.cancelled⟩
    cases scope with
    | none => exact absurd rfl marked.valid
    | some k => exact ⟨k, has k rfl, rfl⟩
  · rintro tok i ⟨-, -, absurd⟩
    cases absurd
  · rintro tok i ⟨-, -, absurd⟩
    cases absurd

/-- The requests of a list that are within the scope are all collected. -/
theorem collect_all (holds : s.shards.Holds lists) (few : s.fewTargets tok i) {targets : List Nat}
    (found : collect s.shards.next (s.matches tok) s.shards.made (s.shards.head i) 0 = some targets)
    (mem : r ∈ lists i) (within : isWithin s.scopes.slots (s.req r).token tok = true) :
    r ∈ targets := by
  have walked : walk s.shards.next (s.matches tok) s.shards.made (s.shards.head i) =
      some ((lists i).filter (s.matches tok)) := walk_eq (holds.leads i) (holds.made i)
  have short := few _ walked
  have taken : collect s.shards.next (s.matches tok) s.shards.made (s.shards.head i) 0 = _ :=
    collected holds i
  rw [found, List.take_of_length_le short] at taken
  obtain rfl := Option.some.inj taken
  refine List.mem_filter.mpr ⟨mem, ?_⟩
  unfold State.matches
  rw [within, Bool.or_true]

theorem Heard.collect (heard : Heard s lists) {shard : Nat} {marked : Bool} {targets : List Nat}
    (here : s.pc p = .sweeping token shard marked) (inside : shard < kShards)
    (found : collect s.shards.next (s.matches token) s.shards.made (s.shards.head shard) 0 =
      some targets) (may : s.sweepsClear entered (s.pc p)) :
    Heard (s.go p (.cancelling token shard targets marked)) lists := by
  have cleared (on : marked = true) : (∀ u, (s.pc u).clearOf s.scopes.slots token shard) ∧
      s.fewTargets token shard := by
    rw [here, on] at may
    exact may inside
  refine heard.sweeping _ _ rfl here rfl rfl rfl (fun r => rfl) (fun r => rfl) rfl (fun r => id) ?_
    (fun r token => not_false) ?_ (fun r => not_false) ?_ fun tok => .inl
  · rintro tok ⟨rfl, on⟩
    refine heard.cancels p token ?_
    rw [here]
    exact ⟨rfl, on⟩
  · rintro tok i ⟨rfl, on, upTo⟩
    rcases Nat.lt_or_eq_of_le upTo with earlier | rfl
    · exact .inl ⟨rfl, on, earlier⟩
    · exact .inr (cleared on).1
  · rintro tok i ⟨rfl, on, upTo⟩ current r mem within
    rcases Nat.lt_or_eq_of_le upTo with earlier | rfl
    · have own := heard.own p token i
      rw [here] at own
      exact .inl ((own ⟨rfl, on, earlier⟩ current r mem within).resolve_right not_false)
    · exact .inr ⟨rfl, collect_all heard.holds (cleared on).2 found mem within⟩

theorem Heard.nextShard (heard : Heard s lists) {shard : Nat} {marked : Bool}
    (here : s.pc p = .cancelling token shard [] marked) :
    Heard (s.go p (.sweeping token (shard + 1) marked)) lists := by
  refine heard.sweeping _ _ rfl here rfl rfl rfl (fun r => rfl) (fun r => rfl) rfl (fun r => id) ?_
    (fun r token => not_false) ?_ (fun r => not_false) ?_ fun tok => .inl
  · rintro tok ⟨rfl, on⟩
    refine heard.cancels p token ?_
    rw [here]
    exact ⟨rfl, on⟩
  · rintro tok i ⟨rfl, on, before⟩
    exact .inl ⟨rfl, on, Nat.le_of_lt_succ before⟩
  · rintro tok i ⟨rfl, on, before⟩ current r mem within
    have own := heard.own p token i
    rw [here] at own
    refine .inl ((own ⟨rfl, on, Nat.le_of_lt_succ before⟩ current r mem within).resolve_right ?_)
    rintro ⟨-, absurd⟩
    cases absurd

/-- A `RequestCancel` comes to a cancel.  For a cancelled scope the request is asked, if it is still
linked. -/
theorem Heard.target (heard : Heard s lists) {shard : Nat} {marked : Bool}
    {targets targets' : List Nat} (here : s.pc p = .cancelling token shard (r :: targets) marked)
    (went : t.pc = Function.update s.pc p (.cancelling token shard targets' marked))
    (scopes : t.scopes = s.scopes) (req : t.req = s.req) (shards : t.shards = s.shards)
    (held : ∀ q, t.held q = s.held q) (submitted : t.submitted = s.submitted)
    (asked : ∀ q, s.asked q = true → t.asked q = true) (swept : t.swept = s.swept)
    (own : marked = true →
      targets' = targets ∧ (r ∈ lists (shardFor r) → t.asked r = true)) : Heard t lists := by
  refine heard.sweeping _ _ went here scopes req shards held (fun r => rfl) submitted asked ?_
    (fun r token => not_false) ?_ (fun r => not_false) ?_ ?_
  · rintro tok ⟨rfl, on⟩
    refine heard.cancels p token ?_
    rw [here]
    exact ⟨rfl, on⟩
  · rintro tok i ⟨rfl, on, upTo⟩
    exact .inl ⟨rfl, on, upTo⟩
  · rintro tok i ⟨rfl, on, upTo⟩ current q mem within
    have before := heard.own p token i
    rw [here] at before
    obtain ⟨rfl, self⟩ := own on
    rcases before ⟨rfl, on, upTo⟩ current q mem within with done | ⟨-, coming⟩
    · exact .inl (asked q done)
    · rcases List.mem_cons.mp coming with rfl | later
      · exact .inl (self (heard.holds.own mem))
      · exact .inr ⟨rfl, later⟩
  · intro tok mem
    rw [swept] at mem
    exact .inl mem

theorem Heard.cancel (heard : Heard s lists) (sound : s.ring.Sound) {shard : Nat} {marked : Bool}
    {targets : List Nat} (here : s.pc p = .cancelling token shard (r :: targets) marked)
    (may : s.sweepsClear entered (s.pc p)) :
    Heard (s.submitCancel p token shard r targets marked entered) lists := by
  have cleared (on : marked = true) :
      (∀ u, ¬ (s.pc u).entering r) ∧ s.ring.next ≠ none ∧ entered = true := by
    rw [here, on] at may
    exact may
  cases room : s.ring.next with
  | none =>
    rw [submitCancel_full room]
    exact heard.target here rfl rfl rfl rfl (fun q => rfl) rfl (fun q => id) rfl
      fun on => absurd room (cleared on).2.1
  | some i =>
    have held (q : Nat) : (s.enter (.cancel r) entered).held q = s.held q := enter_held sound room q
    cases entered with
    | false =>
      rw [submitCancel_failed room]
      obtain ⟨ring, kernel, times, same⟩ := enter_frame s (.cancel r) false
      rw [same] at held ⊢
      exact heard.target here rfl rfl rfl rfl held rfl (fun q => id) rfl
        fun on => absurd (cleared on).2.2 Bool.false_ne_true
    | true =>
      rw [submitCancel_taken room]
      obtain ⟨ring, kernel, times, same⟩ := enter_frame s (.cancel r) true
      rw [same] at held ⊢
      refine heard.target here rfl rfl rfl rfl held rfl (fun q done => ?_) rfl
        fun on => ⟨rfl, fun mem => ?_⟩
      · show Function.update s.asked r (s.asked r || s.submitted r) q = true
        rcases eq_or_ne q r with rfl | other
        · rw [Function.update_self, done, Bool.true_or]
        · rw [Function.update_of_ne other]
          exact done
      · show Function.update s.asked r (s.asked r || s.submitted r) r = true
        rw [Function.update_self]
        rcases heard.entering r mem with done | ⟨u, absurd⟩
        · rw [done, Bool.or_true]
        · exact False.elim ((cleared on).1 u absurd)

theorem Heard.sweep (heard : Heard s lists) {shard : Nat} {marked : Bool}
    (here : s.pc p = .sweeping token shard marked) (all : kShards ≤ shard) :
    Heard (s.sweep p token marked) lists := by
  refine heard.sweeping _ .idle rfl here rfl rfl rfl (fun r => rfl) (fun r => rfl) rfl
    (fun r => id) (fun tok absurd => False.elim absurd) (fun r token => not_false)
    (fun tok i absurd => False.elim absurd) (fun r => not_false)
    (fun tok i absurd => False.elim absurd) fun tok mem => ?_
  unfold State.sweep at mem
  simp only at mem
  split at mem
  · rename_i now
    rcases List.mem_cons.mp mem with rfl | old
    · exact .inr ⟨now.2.current, ⟨rfl, now.1⟩, fun i inside =>
        ⟨⟨rfl, now.1, Nat.lt_of_lt_of_le inside all⟩, fun r => not_false⟩⟩
    · exact .inl old
  · exact .inl mem

/-! ## Steps beside the parties' own -/

theorem Heard.link (heard : Heard s lists) (balanced : s.Balanced) (here : s.pc p = .passed c) :
    Heard ((s.link c).go p (.linked c))
      (Function.update lists (shardFor c.r) (c.r :: lists (shardFor c.r))) := by
  have went : ((s.link c).go p (.linked c)).pc = Function.update s.pc p (.linked c) := rfl
  have self : (s.pc p).stands c.r c.args.token := by
    rw [here]
    exact ⟨rfl, rfl⟩
  have out : c.r ∉ lists (shardFor c.r) := by
    intro mem
    have some := before_le (s := s) (r := c.r) p
    rw [here] at some
    have some : one c.r c.r ≤ s.before c.r := some
    have listed := heard.placed c.r mem
    have counted := balanced c.r
    have atMost := Bool.toNat_le (s.busy c.r)
    rw [one_self] at some
    omega
  -- whoever was in a list is another request, and has its token as before
  have token (r : Nat) (other : r ≠ c.r) : (((s.link c).go p (.linked c)).req r).token =
      (s.req r).token := by
    show (Function.update s.req c.r _ r).token = _
    rw [Function.update_of_ne other]
  have own : (((s.link c).go p (.linked c)).req c.r).token = c.args.token := by
    show (Function.update s.req c.r _ c.r).token = _
    rw [Function.update_self]
    rfl
  have listed {i r : Nat}
      (mem : r ∈ Function.update lists (shardFor c.r) (c.r :: lists (shardFor c.r)) i) :
      r = c.r ∧ i = shardFor c.r ∨ r ≠ c.r ∧ r ∈ lists i := by
    rcases eq_or_ne r c.r with rfl | other
    · exact .inl ⟨rfl, ((heard.holds.link out).place i c.r mem).symm⟩
    · refine .inr ⟨other, ?_⟩
      rcases eq_or_ne i (shardFor c.r) with rfl | apart
      · rw [Function.update_self] at mem
        exact (List.mem_cons.mp mem).resolve_left other
      · rwa [Function.update_of_ne apart] at mem
  have past {u : Fin n} {tok i : Nat}
      (past : (((s.link c).go p (.linked c)).pc u).past tok i) : (s.pc u).past tok i :=
    (pc_go (P := fun pc => pc.past tok i) went past).resolve_left fun absurd => absurd.1
  have passed {tok i : Nat} (past' : ((s.link c).go p (.linked c)).Past tok i) : s.Past tok i := by
    rcases past' with swept | ⟨u, here'⟩
    · exact .inl swept
    · exact .inr ⟨u, past here'⟩
  have stood {u : Fin n} {r token : Nat}
      (stands : (((s.link c).go p (.linked c)).pc u).stands r token) : (s.pc u).stands r token :=
    (pc_go (P := fun pc => pc.stands r token) went stands).resolve_left fun absurd => absurd.1
  have kept (f : Nat → Bool) (v : Bool) (r : Nat) (other : r ≠ c.r) (on : f r = true) :
      Function.update f c.r v r = true := by
    rw [Function.update_of_ne other]
    exact on
  constructor
  case scopes => exact heard.scopes
  case holds => exact heard.holds.link out
  case placed =>
    intro r mem
    obtain ⟨-, after⟩ := weights went here r
    have after : _ + 0 = s.after r + one c.r r := after
    show 1 ≤ _ + s.held r
    rcases listed mem with ⟨rfl, -⟩ | ⟨-, old⟩
    · rw [one_self] at after
      omega
    · have had := heard.placed r old
      omega
  case tokens =>
    intro r
    rcases eq_or_ne r c.r with rfl | other
    · rw [own]
      exact heard.calls p c.r c.args.token self
    · rw [token r other]
      exact heard.tokens r
  case calls => exact fun u r token stands => heard.calls u r token (stood stands)
  case marked => exact heard.marked
  case made => exact heard.made
  case cancels =>
    intro u tok cancels
    exact heard.cancels u tok
      ((pc_go (P := fun pc => pc.cancels tok) went cancels).resolve_left fun absurd => absurd.1)
  case clear =>
    exact fun u r token tok stands past current =>
      heard.clear u r token tok (stood stands) (passed past) current
  case entering =>
    intro r mem
    rcases listed mem with ⟨rfl, -⟩ | ⟨other, old⟩
    · refine .inr ⟨p, ?_⟩
      rw [went, Function.update_self]
      rfl
    · rcases heard.entering r old with done | ⟨u, entering⟩
      · exact .inl (kept s.submitted false r other done)
      · refine .inr ⟨u, ?_⟩
        rcases eq_or_ne u p with rfl | apart
        · rw [here] at entering
          cases entering
        · rw [went, Function.update_of_ne apart]
          exact entering
  case done =>
    intro tok swept i r mem within
    rcases listed mem with ⟨rfl, -⟩ | ⟨other, old⟩
    · rw [own] at within
      have apart := heard.clear p c.r c.args.token tok self (.inl swept)
        (heard.marked tok swept).current
      exact absurd (within.symm.trans apart) Bool.true_eq_false_eq_False
    · rw [token r other] at within
      exact kept s.asked false r other (heard.done tok swept i r old within)
  case own =>
    intro u tok i past' current r mem within
    rcases eq_or_ne u p with rfl | apart
    · rw [went, Function.update_self] at past'
      cases past'
    · rw [went, Function.update_of_ne apart] at past' ⊢
      rcases listed mem with ⟨rfl, rfl⟩ | ⟨other, old⟩
      · rw [own] at within
        have apart := heard.clear p c.r c.args.token tok self (.inr ⟨u, past'⟩) current
        exact absurd (within.symm.trans apart) Bool.true_eq_false_eq_False
      · rw [token r other] at within
        exact (heard.own u tok i past' current r old within).imp_left
          (kept s.asked false r other)

theorem Heard.scopes' (heard : Heard s lists) {b : Scopes.Label} {scopes : Scopes.State}
    (allowed : Scopes.lasting s.scopes b) (stepped : Scopes.step s.scopes b = some scopes) :
    Heard { s with
      scopes := scopes
      swept := s.swept.filter fun tok => decide (Marked scopes.slots tok) } lists := by
  have grows := heard.scopes.grows stepped
  have back {raw tok : Nat} (issued : s.scopes.Issued raw)
      (within : isWithin scopes.slots raw tok = true) : isWithin s.scopes.slots raw tok = true :=
    heard.scopes.isWithin_back allowed stepped issued within
  -- the scope of a token that has been given out was alive before
  have before {tok : Nat} (valid : tok ≠ kNone)
      (made : ∃ k, (s.scopes.phase k).made = true ∧ s.scopes.raw k = tok)
      (current : Current scopes tok) : Current s.scopes tok := by
    obtain ⟨k, made, rfl⟩ := made
    exact (heard.scopes.settled allowed stepped made valid current).1
  have kept {tok : Nat} (made : ∃ k, (s.scopes.phase k).made = true ∧ s.scopes.raw k = tok) :
      ∃ k, (scopes.phase k).made = true ∧ scopes.raw k = tok := by
    obtain ⟨k, made, same⟩ := made
    exact ⟨k, grows.made k made, (grows.raw k made).trans same⟩
  have old {tok : Nat}
      (mem : tok ∈ s.swept.filter fun tok => decide (Marked scopes.slots tok)) : tok ∈ s.swept :=
    (List.mem_filter.mp mem).1
  -- whoever was past has a token that had been cancelled
  have alive {tok i : Nat} (past : s.Past tok i) (current : Current scopes tok) :
      Current s.scopes tok := by
    rcases past with swept | ⟨u, past⟩
    · exact (heard.marked tok swept).current
    · have cancelled := heard.cancels u tok (Pc.cancels_of_past past)
      exact before cancelled.valid cancelled.made current
  constructor
  case scopes => exact heard.scopes.step allowed stepped
  case holds => exact heard.holds
  case placed => exact heard.placed
  case tokens => exact fun r => grows.issued (heard.tokens r)
  case calls => exact fun u r token stands => grows.issued (heard.calls u r token stands)
  case marked => exact fun tok mem => of_decide_eq_true (List.mem_filter.mp mem).2
  case made => exact fun tok mem => kept (heard.made tok (old mem))
  case cancels =>
    intro u tok cancels
    obtain ⟨valid, inTable, made, bit⟩ := heard.cancels u tok cancels
    refine ⟨valid, inTable, kept made, fun current => ?_⟩
    have was := before valid made current
    exact Scopes.cancelled_kept stepped (Eq.trans current (Eq.symm was)) (bit was)
  case clear =>
    intro u r token tok stands past current
    have past : s.Past tok (shardFor r) := past.imp_left old
    have apart := heard.clear u r token tok stands past (alive past current)
    by_contra within
    have within := back (heard.calls u r token stands) (Bool.eq_true_of_not_eq_false within)
    exact absurd (within.symm.trans apart) Bool.true_eq_false_eq_False
  case entering => exact heard.entering
  case done =>
    exact fun tok mem i r listed within =>
      heard.done tok (old mem) i r listed (back (heard.tokens r) within)
  case own =>
    exact fun u tok i past current r listed within =>
      heard.own u tok i past (alive (.inr ⟨u, past⟩) current) r listed (back (heard.tokens r) within)

/-! ## Runs -/

theorem Move.heard (move : Move s a t) (sound : s.ring.Sound) (may : sweepsClear s a)
    (balanced : s.Balanced) (heard : Heard s lists) : ∃ lists', Heard t lists' := by
  cases move with
  | nothing => exact ⟨lists, heard⟩
  | start | stop =>
    obtain ⟨scopes, holds, placed, tokens, calls, marked, made, cancels, clear, entering, done,
      own⟩ := heard
    exact ⟨lists, scopes, holds, placed, tokens, calls, marked, made, cancels, clear, entering,
      done, own⟩
  | submit p r op out resume scope filled idle free has =>
    have token (q : Nat) : ((s.fill r filled).req q).token = (s.req q).token := by
      show (Function.update s.req r _ q).token = _
      rcases eq_or_ne q r with rfl | other
      · rw [Function.update_self]
      · rw [Function.update_of_ne other]
    have went : (s.fill r filled).pc = Function.update s.pc p .idle := by
      rw [← idle, Function.update_eq_self]
      rfl
    have filled : Heard (s.fill r filled) lists :=
      heard.still .idle trivial went idle ⟨rfl, rfl, rfl, rfl, rfl⟩ rfl token rfl rfl rfl rfl
        (fun q => Nat.le_refl _) (fun q token absurd => False.elim absurd) fun q => id
    refine ⟨lists, filled.submitOp idle (fun q => rfl) (fun q => not_false) ?_⟩
    cases scope with
    | none => exact .inl rfl
    | some k => exact .inr ⟨k, has k rfl, rfl⟩
  | resubmit p r entered here =>
    exact ⟨lists, heard.submitOp here (fun q => rfl) (fun q => not_false) (heard.tokens r)⟩
  | giveUp p r entered here =>
    exact ⟨lists, heard.still (.finishing r) trivial rfl here ⟨rfl, rfl, rfl, rfl, rfl⟩ rfl
      (fun q => rfl) rfl rfl rfl rfl (fun q => Nat.zero_le _)
      (fun q token absurd => False.elim absurd) fun q absurd => False.elim absurd⟩
  | fail p c entered here => exact ⟨lists, heard.fail here⟩
  | pass p c entered here =>
    exact ⟨lists, heard.still (.passed c) trivial rfl here ⟨rfl, rfl, rfl, rfl, rfl⟩ rfl
      (fun q => rfl) rfl rfl rfl rfl (fun q => Nat.zero_le _) (fun q token => .inl)
      fun q absurd => False.elim absurd⟩
  | link p c entered here => exact ⟨_, heard.link balanced here⟩
  | entry p c entered here =>
    have may : s.sweepsClear entered (s.pc p) := may
    rw [here] at may
    exact ⟨lists, heard.entry sound here may⟩
  | drop p c entered here => exact heard.drop here
  | finish p r entered here => exact heard.finish here
  | requestCancel p scope idle has => exact ⟨lists, heard.requestCancel idle has⟩
  | collect p token shard marked entered targets here inside found =>
    exact ⟨lists, heard.collect here inside found may⟩
  | sweep p token shard marked entered here all => exact ⟨lists, heard.sweep here all⟩
  | nextShard p token shard marked entered here => exact ⟨lists, heard.nextShard here⟩
  | cancel p token shard r targets marked entered here =>
    exact ⟨lists, heard.cancel sound here may⟩
  | complete p r call res idle has => exact heard.complete idle has
  | wake p entered idle room =>
    have held (q : Nat) : (s.enter .wake entered).held q = s.held q := enter_held sound room q
    obtain ⟨ring, kernel, times, same⟩ := enter_frame s .wake entered
    rw [same] at held ⊢
    have went : s.pc = Function.update s.pc p .idle := by
      rw [← idle, Function.update_eq_self]
    refine ⟨lists, heard.calm .idle trivial went idle rfl (fun q => rfl) heard.holds
      (fun i q mem => mem) (fun q _ => ?_) (fun q => id) rfl rfl
      (fun q token absurd => False.elim absurd) fun q _ absurd => False.elim absurd⟩
    rw [held]
  | scopes b scopes stepped => exact ⟨lists, heard.scopes' may stepped⟩

theorem heard_of_reach {ringUp : Bool} (reach : Reach step sweepsClear (initial n ringUp) s) :
    ∃ lists, Heard s lists := by
  have whole : s.ring.Sound ∧ s.Balanced ∧ ∃ lists, Heard s lists := by
    refine reach.invariant (I := fun s => s.ring.Sound ∧ s.Balanced ∧ ∃ lists, Heard s lists)
      ⟨initial_ring, initial_balanced, _, initial_heard⟩ ?_
    rintro s a t ⟨sound, balanced, lists, heard⟩ may stepped
    have move := move_of_step stepped
    exact ⟨(move.wired sound).1, (move.filed sound (taken_of_clear may) balanced).1,
      move.heard sound may balanced heard⟩
  exact whole.2.2

/-! ## Every cancel is heard -/

/-- While the steps meet the condition, every request within the scope of a `RequestCancel` that has
returned is asked once it is linked, and nobody waits in an acceptor that is within the scope of a
`CancelWaiters` that has returned. -/
theorem cancels_heard (n : Nat) (ringUp : Bool) :
    (∀ s, Reach step sweepsClear (initial n ringUp) s →
      ∃ lists, s.shards.Holds lists ∧ ∀ tok ∈ s.swept, ∀ i, ∀ r ∈ lists i,
        isWithin s.scopes.slots (s.req r).token tok = true → s.asked r = true) ∧
    ∀ s, Reach AcceptWaiters.step AcceptWaiters.queuesClear (AcceptWaiters.initial n) s →
      ∀ tok ∈ s.swept, ∀ w ∈ s.waiting, isWithin s.scopes.slots w.token tok = false := by
  constructor
  · intro s reach
    obtain ⟨lists, heard⟩ := heard_of_reach reach
    exact ⟨lists, heard.holds, heard.done⟩
  · intro s reach tok swept w waits
    exact (AcceptWaiters.swept_of_reach reach).none w (.inl waits) tok swept

/-- The `RequestCancel` of `aimedLabels` goes on to its end. -/
def heardLabels : List (Label 2) := aimedLabels ++ List.replicate 33 (.advance 1 true)

def heardAt : State 2 := (run step sweepsClear (initial 2 true) heardLabels).getD (initial 2 true)

/-- A waiter for scope 0 is taken out of the queue, and one for no scope stays. -/
def queueLabels : List (AcceptWaiters.Label 2) :=
  [.scopes (.create none), .scopes (.advance 0), .scopes (.advance 0),
    .takeOrQueue 0 1 2 (some 0), .advance 0, .takeOrQueue 0 3 4 none, .advance 0,
    .scopes (.cancel 0), .cancelWaiters 1 (some 0)]

def queueAt : AcceptWaiters.State 2 :=
  (run AcceptWaiters.step AcceptWaiters.queuesClear (AcceptWaiters.initial 2) queueLabels).getD
    (AcceptWaiters.initial 2)

theorem heardAt_cancels : (0 ∈ heardAt.swept ∧ ∃ lists, heardAt.shards.Holds lists ∧
      ∀ tok ∈ heardAt.swept, ∀ i, ∀ r ∈ lists i,
        isWithin heardAt.scopes.slots (heardAt.req r).token tok = true →
          heardAt.asked r = true) ∧
    0 ∈ queueAt.swept ∧ ∀ tok ∈ queueAt.swept, ∀ w ∈ queueAt.waiting,
      isWithin queueAt.scopes.slots w.token tok = false :=
  ⟨⟨by decide +kernel,
    (cancels_heard 2 true).1 heardAt (Reach.of_isSome heardLabels (by decide +kernel))⟩,
    by decide +kernel,
    (cancels_heard 2 true).2 queueAt (Reach.of_isSome queueLabels (by decide +kernel))⟩

/-- `SubmitOp` has found scope 0 not cancelled; the scope is cancelled, and a `RequestCancel` of it
goes through all shards before the request is linked. -/
def lateLabels : List (Label 2) :=
  [.start, .scopes (.create none), .scopes (.advance 0), .scopes (.advance 0),
    .submit 0 0 (.recv 3 64 8 0) 1 2 (some 0), .scopes (.cancel 0), .requestCancel 1 (some 0)] ++
  List.replicate 33 (.advance 1 true) ++ [.advance 0 true, .advance 0 true, .advance 0 true]

def late : State 2 := (run step anyStep (initial 2 true) lateLabels).getD (initial 2 true)

/-- `TakeOrQueue` has found scope 0 not cancelled; the scope is cancelled, and a `CancelWaiters` of it
goes through the queue before the waiter is queued. -/
def lateQueueLabels : List (AcceptWaiters.Label 2) :=
  [.scopes (.create none), .scopes (.advance 0), .scopes (.advance 0),
    .takeOrQueue 0 1 2 (some 0), .scopes (.cancel 0), .cancelWaiters 1 (some 0), .advance 0]

def lateQueue : AcceptWaiters.State 2 :=
  (run AcceptWaiters.step anyStep (AcceptWaiters.initial 2) lateQueueLabels).getD
    (AcceptWaiters.initial 2)

/-- Both calls have returned, and the request and the waiter are pending, and nobody asks them. -/
theorem late_missed : (Reach step anyStep (initial 2 true) late ∧ 0 ∈ late.swept ∧
      (0, 0) ∈ late.kernel ∧ isWithin late.scopes.slots (late.req 0).token 0 = true ∧
      late.asked 0 = false ∧ ∀ u, late.pc u = .idle) ∧
    Reach AcceptWaiters.step anyStep (AcceptWaiters.initial 2) lateQueue ∧ 0 ∈ lateQueue.swept ∧
      lateQueue.waiting = [⟨1, 2, 0⟩] ∧ isWithin lateQueue.scopes.slots 0 0 = true ∧
      ∀ u, lateQueue.pc u = .idle :=
  ⟨⟨Reach.of_isSome lateLabels (by decide +kernel), by decide +kernel, by decide +kernel,
    by decide +kernel, by decide +kernel, by decide +kernel⟩,
    Reach.of_isSome lateQueueLabels (by decide +kernel), by decide +kernel, by decide +kernel,
    by decide +kernel, by decide +kernel⟩

end JLibSched.Reactor
