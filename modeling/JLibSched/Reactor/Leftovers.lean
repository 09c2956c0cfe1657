import JLibSched.Reactor.Request

/-!
# What an operation finds in its request

`Complete` looks at more fields than some of the `Submit` functions set.  Two requests that agree
in what it looks at (`Alike`) have the same completions.  Three operations find what an earlier one
has left: a send to an address its buffers, a send of several buffers its flags, and a receive on a
stream its address.
-/

namespace JLibSched.Reactor

variable {r r' filled : IoRequest} {op : Op} {a : Args} {c : Completion} {cs : List Completion}

/-- The requests agree in what `Complete` reads, but for the flags. -/
structure Alike (r r' : IoRequest) : Prop where
  kind : r'.kind = r.kind
  handle : r'.handle = r.handle
  out : r'.out = r.out
  recv : r.kind = .recv → r'.aux = r.aux ∧ (r.aux ≠ 0 → r'.msgNamelen = r.msgNamelen)
  send : r.kind = .send → r'.bufCount = r.bufCount ∧ (∀ k < r.bufCount, r'.iov k = r.iov k) ∧
    r'.xferred = r.xferred

/-- The rest of a send has one buffer, and its entry is written with the flags of the request. -/
def IoRequest.usesFlags (r : IoRequest) (c : Completion) : Bool :=
  r.isPartial c.res && decide ((r.rest c.res).bufCount = 1) && c.answer.writes

/-- One of the completions does so. -/
def IoRequest.leavesOne (op : Op) : IoRequest → List Completion → Bool
  | _, [] => false
  | r, c :: cs =>
    let r := r.received op c
    r.usesFlags c ||
      r.isPartial c.res && decide (c.answer = .taken) && (r.rest c.res).leavesOne op cs

/-! ## Buffers -/

theorem Alike.bufs (alike : Alike r r') (send : r.kind = .send) : r'.bufs = r.bufs := by
  obtain ⟨count, iov, -⟩ := alike.send send
  unfold IoRequest.bufs
  rw [count]
  exact List.map_congr_left fun k mem => iov k (List.mem_range.mp mem)

/-- Not all buffers are used up when some bytes remain. -/
theorem usedUp_lt {consumed : Nat} {bufs : List Iov} (less : consumed < (bufs.map Iov.len).sum) :
    (usedUp bufs consumed).1 < bufs.length := by
  induction bufs generalizing consumed with
  | nil => cases less
  | cons v bufs ih =>
    rw [List.map_cons, List.sum_cons] at less
    unfold usedUp
    split
    · exact Nat.succ_pos _
    · split
      · exact Nat.succ_lt_succ (ih (by omega))
      · exact Nat.succ_pos _

theorem length_bufs : r.bufs.length = r.bufCount := by
  unfold IoRequest.bufs
  rw [List.length_map, List.length_range]

theorem advanceBufs_bufCount {consumed : Nat} :
    (r.advanceBufs consumed).bufCount = r.bufCount - (usedUp r.bufs consumed).1 := by
  unfold IoRequest.advanceBufs
  simp only
  split
  · rename_i none
    rw [none]
    rfl
  · rfl

theorem isPartial_iff {res : Int} : r.isPartial res = true ↔
    r.kind = .send ∧ 0 < r.bufCount ∧ 0 < res ∧ res < (r.bufsRemaining : Int) :=
  decide_eq_true_iff

/-- Some of the buffers remain. -/
theorem rest_bufCount {res : Int} (part : r.isPartial res = true) : (r.rest res).bufCount ≠ 0 := by
  obtain ⟨-, -, positive, less⟩ := isPartial_iff.mp part
  have small : res.toNat < (r.bufs.map Iov.len).sum := by
    unfold IoRequest.bufsRemaining at less
    omega
  have used := usedUp_lt small
  rw [length_bufs] at used
  unfold IoRequest.rest
  rw [advanceBufs_bufCount]
  have same : { r with xferred := (r.xferred + res.toNat) % 2 ^ 32 }.bufs = r.bufs := rfl
  rw [same]
  exact Nat.sub_ne_zero_of_lt used

theorem Alike.advanceBufs (alike : Alike r r') (send : r.kind = .send) (consumed : Nat) :
    (r'.advanceBufs consumed).bufCount = (r.advanceBufs consumed).bufCount ∧
      ∀ k < (r.advanceBufs consumed).bufCount,
        (r'.advanceBufs consumed).iov k = (r.advanceBufs consumed).iov k := by
  obtain ⟨count, iov, -⟩ := alike.send send
  have bufs := alike.bufs send
  constructor
  · rw [advanceBufs_bufCount, advanceBufs_bufCount, bufs, count]
  · intro k inside
    rw [advanceBufs_bufCount] at inside
    unfold IoRequest.advanceBufs
    simp only
    rw [bufs, count]
    generalize (usedUp r.bufs consumed).1 = i at inside ⊢
    generalize (usedUp r.bufs consumed).2 = left
    -- what is taken of one buffer
    have shortened : ∀ j < r.bufCount,
        (if i < r.bufCount then shorten r'.iov i left else r'.iov) j =
          (if i < r.bufCount then shorten r.iov i left else r.iov) j := by
      intro j small
      split
      · rename_i before
        unfold shorten
        rcases eq_or_ne j i with rfl | other
        · rw [Function.update_self, Function.update_self, iov j small]
        · rw [Function.update_of_ne other, Function.update_of_ne other, iov j small]
      · exact iov j small
    split
    · exact shortened k (by omega)
    · simp only
      rw [if_pos inside, if_pos inside]
      exact shortened (i + k) (by omega)

/-! ## Requests that are alike -/

theorem Alike.isPartial (alike : Alike r r') (res : Int) : r'.isPartial res = r.isPartial res := by
  unfold IoRequest.isPartial IoRequest.bufsRemaining
  refine decide_eq_decide.mpr ?_
  rw [alike.kind]
  refine and_congr_right fun send => ?_
  rw [alike.bufs send, (alike.send send).1]

theorem Alike.resultOf (alike : Alike r r') (res : Int) : r'.resultOf res = r.resultOf res := by
  unfold IoRequest.resultOf
  rw [alike.kind]

theorem Alike.acceptedOf (alike : Alike r r') (res : Int) :
    r'.acceptedOf res = r.acceptedOf res := by
  unfold IoRequest.acceptedOf
  rw [alike.kind]

theorem Alike.addressOf (alike : Alike r r') (res : Int) :
    r'.addressOf res = r.addressOf res := by
  unfold IoRequest.addressOf
  rw [alike.kind]
  by_cases recv : r.kind = .recv
  · obtain ⟨aux, namelen⟩ := alike.recv recv
    rw [aux]
    by_cases null : r.aux = 0
    · rw [if_neg fun both => both.2.2 null, if_neg fun both => both.2.2 null]
    · rw [namelen null]
  · rw [if_neg fun both => recv both.2.1, if_neg fun both => recv both.2.1]

theorem Alike.total (alike : Alike r r') (result : IoResult) :
    r'.total result = r.total result := by
  unfold IoRequest.total
  rw [alike.kind]
  by_cases send : r.kind = .send
  · rw [(alike.send send).2.2]
  · rw [if_neg fun both => send both.2, if_neg fun both => send both.2]

theorem Alike.write (alike : Alike r r') (result : IoResult) :
    r'.write result = r.write result := by
  unfold IoRequest.write
  rw [alike.out]

theorem rest_kind {res : Int} : (r.rest res).kind = r.kind := by
  unfold IoRequest.rest IoRequest.advanceBufs
  simp only
  split <;> rfl

theorem rest_handle {res : Int} : (r.rest res).handle = r.handle := by
  unfold IoRequest.rest IoRequest.advanceBufs
  simp only
  split <;> rfl

theorem rest_out {res : Int} : (r.rest res).out = r.out := by
  unfold IoRequest.rest IoRequest.advanceBufs
  simp only
  split <;> rfl

theorem rest_flags {res : Int} : (r.rest res).flags = r.flags := by
  unfold IoRequest.rest IoRequest.advanceBufs
  simp only
  split <;> rfl

theorem rest_xferred {res : Int} :
    (r.rest res).xferred = (r.xferred + res.toNat) % 2 ^ 32 := by
  unfold IoRequest.rest IoRequest.advanceBufs
  simp only
  split <;> rfl

theorem Alike.rest (alike : Alike r r') (send : r.kind = .send) (res : Int) :
    Alike (r.rest res) (r'.rest res) where
  kind := by rw [rest_kind, rest_kind, alike.kind]
  handle := by rw [rest_handle, rest_handle, alike.handle]
  out := by rw [rest_out, rest_out, alike.out]
  recv absurd := by
    rw [rest_kind, send] at absurd
    cases absurd
  send _ := by
    have added : Alike { r with xferred := (r.xferred + res.toNat) % 2 ^ 32 }
        { r' with xferred := (r'.xferred + res.toNat) % 2 ^ 32 } :=
      { kind := alike.kind
        handle := alike.handle
        out := alike.out
        recv := alike.recv
        send := fun _ => ⟨(alike.send send).1, (alike.send send).2.1,
          by rw [(alike.send send).2.2]⟩ }
    obtain ⟨count, iov⟩ := added.advanceBufs send res.toNat
    refine ⟨count, iov, ?_⟩
    rw [rest_xferred, rest_xferred, (alike.send send).2.2]

theorem prepared_send (send : r.kind = .send) : r.prepared =
    if r.bufCount = 1 then .send r.handle (r.iov 0) r.flags else .writeV r.handle r.bufs := by
  unfold IoRequest.prepared
  rw [if_pos send, if_pos send]

/-- The entries are the same but for the flags of one with one buffer. -/
theorem Alike.prepared (alike : Alike r r') (send : r.kind = .send) :
    r'.prepared = r.prepared ↔ r'.flags = r.flags ∨ r.bufCount ≠ 1 := by
  obtain ⟨count, iov, -⟩ := alike.send send
  rw [prepared_send send, prepared_send (alike.kind.trans send), count, alike.handle,
    alike.bufs send]
  by_cases one : r.bufCount = 1
  · rw [if_pos one, if_pos one, iov 0 (by omega)]
    constructor
    · intro same
      injection same with _ _ flags
      exact .inl flags
    · rintro (same | other)
      · rw [same]
      · exact absurd one other
  · rw [if_neg one, if_neg one]
    exact iff_of_true rfl (.inr one)

/-! ## Completions -/

theorem complete_whole (whole : r.isPartial c.res = false) : r.complete c =
    (⟨r.write (r.total (r.resultOf c.res)), r.addressOf c.res, r.acceptedOf c.res, none⟩,
      { r with aux := (r.acceptedOf c.res).getD r.aux }, false) := by
  unfold IoRequest.complete
  rw [whole]
  rfl

/-- The entry of the rest of a send, if one is written. -/
def IoRequest.entry (r : IoRequest) (c : Completion) : Option Entry :=
  if c.answer.writes then some (r.rest c.res).prepared else none

theorem complete_again (part : r.isPartial c.res = true) (taken : c.answer = .taken) :
    r.complete c = (⟨none, none, none, r.entry c⟩, r.rest c.res, true) := by
  unfold IoRequest.complete IoRequest.submitPrepared IoRequest.entry
  rw [if_pos part]
  simp only
  rw [if_neg (rest_bufCount part), taken]
  rfl

theorem complete_refused (part : r.isPartial c.res = true) {refused : IoResult}
    (answer : c.answer.result = some refused) : r.complete c =
      (⟨r.write ((r.rest c.res).total (if r.out = 0 then r.resultOf c.res else refused)), none,
        none, r.entry c⟩, r.rest c.res, false) := by
  unfold IoRequest.complete IoRequest.submitPrepared IoRequest.entry
  rw [if_pos part]
  simp only
  rw [if_neg (rest_bufCount part), answer]

theorem taken_iff {answer : Answer} : answer.result = none ↔ answer = .taken := by
  cases answer with
  | taken => exact iff_of_true rfl rfl
  | early | cancelled | noRing | stopping | full | failed =>
    exact iff_of_false (fun absurd => by cases absurd) (fun absurd => by cases absurd)

theorem Alike.entry (alike : Alike r r') (part : r.isPartial c.res = true) :
    r'.entry c = r.entry c ↔ r'.flags = r.flags ∨ r.usesFlags c = false := by
  have send := (isPartial_iff.mp part).1
  have prepared := (alike.rest send c.res).prepared (rest_kind.trans send)
  rw [rest_flags, rest_flags] at prepared
  unfold IoRequest.entry IoRequest.usesFlags
  cases written : c.answer.writes with
  | false =>
    rw [Bool.and_false]
    exact iff_of_true rfl (.inr rfl)
  | true =>
    rw [part, if_pos rfl, if_pos rfl, Option.some_inj, prepared, Bool.true_and, Bool.and_true,
      decide_eq_false_iff_not]

/-- Alike requests have the same completion but for the flags, and are alike after it. -/
theorem Alike.complete (alike : Alike r r') (c : Completion) :
    ((r'.complete c).1 = (r.complete c).1 ↔ r'.flags = r.flags ∨ r.usesFlags c = false) ∧
    ((r.complete c).2.2 = true ↔ r.isPartial c.res = true ∧ c.answer = .taken) ∧
    ((r'.complete c).2.2 = (r.complete c).2.2) ∧
    ((r.complete c).2.2 = true → (r.complete c).2.1 = r.rest c.res ∧
      (r'.complete c).2.1 = r'.rest c.res) := by
  cases part : r.isPartial c.res with
  | false =>
    have part' : r'.isPartial c.res = false := by rw [alike.isPartial, part]
    have unused : r.usesFlags c = false := by
      unfold IoRequest.usesFlags
      rw [part]
      rfl
    rw [complete_whole part, complete_whole part']
    refine ⟨iff_of_true ?_ (.inr unused), ?_, rfl, fun absurd => by cases absurd⟩
    · simp only
      rw [alike.write, alike.total, alike.resultOf, alike.addressOf, alike.acceptedOf]
    · exact iff_of_false (fun absurd => by cases absurd) fun absurd => by cases absurd.1
  | true =>
    have part' : r'.isPartial c.res = true := by rw [alike.isPartial, part]
    have send := (isPartial_iff.mp part).1
    rw [← alike.entry part]
    cases answer : c.answer.result with
    | none =>
      have taken := taken_iff.mp answer
      rw [complete_again part taken, complete_again part' taken]
      refine ⟨?_, iff_of_true rfl ⟨rfl, taken⟩, rfl, fun _ => ⟨rfl, rfl⟩⟩
      simp only [Effects.mk.injEq, true_and]
    | some refused =>
      have other : c.answer ≠ .taken := by
        intro taken
        rw [taken_iff.mpr taken] at answer
        cases answer
      rw [complete_refused part answer, complete_refused part' answer]
      refine ⟨?_, iff_of_false (fun absurd => by cases absurd) fun absurd => other absurd.2,
        rfl, fun absurd => by cases absurd⟩
      simp only [Effects.mk.injEq, true_and]
      rw [alike.write, (alike.rest send c.res).total, alike.resultOf, alike.out]
      exact and_iff_right rfl

theorem Alike.received (alike : Alike r r') (op : Op) (c : Completion) :
    Alike (r.received op c) (r'.received op c) := by
  unfold IoRequest.received
  split
  · exact ⟨alike.kind, alike.handle, alike.out, fun recv => ⟨(alike.recv recv).1, fun _ => rfl⟩,
      alike.send⟩
  · exact alike

/-- Alike requests have the same completions, unless an entry with one buffer is written with
flags that differ. -/
theorem Alike.completions (alike : Alike r r') :
    (IoRequest.completions op r' cs).1 = (IoRequest.completions op r cs).1 ↔
      r'.flags = r.flags ∨ r.leavesOne op cs = false := by
  induction cs generalizing r r' with
  | nil => exact iff_of_true rfl (.inr rfl)
  | cons c cs ih =>
    have received := alike.received op c
    obtain ⟨same, goesOn, goesOn', left⟩ := received.complete c
    have flags (r : IoRequest) : (r.received op c).flags = r.flags := by
      unfold IoRequest.received
      split <;> rfl
    rw [flags, flags] at same
    unfold IoRequest.completions IoRequest.leavesOne
    simp only
    generalize (r.received op c).complete c = out at same goesOn goesOn' left ⊢
    generalize (r'.received op c).complete c = out' at same goesOn' left ⊢
    obtain ⟨effects, after, again⟩ := out
    obtain ⟨effects', after', again'⟩ := out'
    simp only at same goesOn goesOn' left ⊢
    subst goesOn'
    cases again' with
    | false =>
      have done :
          ((r.received op c).isPartial c.res && decide (c.answer = .taken)) = false := by
        rw [Bool.and_eq_false_iff, decide_eq_false_iff_not]
        by_contra both
        push Not at both
        have absurd := goesOn.mpr ⟨Bool.eq_true_of_not_eq_false both.1, both.2⟩
        cases absurd
      simp only [done, Bool.false_and, Bool.or_false, List.cons.injEq, and_true]
      exact same
    | true =>
      obtain ⟨part, taken⟩ := goesOn.mp rfl
      obtain ⟨rfl, rfl⟩ := left rfl
      have send := (isPartial_iff.mp part).1
      have later := ih (received.rest send c.res)
      rw [rest_flags, rest_flags, flags, flags] at later
      simp only [part, taken, decide_true, Bool.and_true, Bool.true_and, List.cons.injEq]
      rw [same, later, Bool.or_eq_false_iff]
      constructor
      · rintro ⟨equal | unused, equal' | none⟩
        · exact .inl equal
        · exact .inl equal
        · exact .inl equal'
        · exact .inr ⟨unused, none⟩
      · rintro (equal | ⟨unused, none⟩)
        · exact ⟨.inl equal, .inl equal⟩
        · exact ⟨.inr unused, .inr none⟩

theorem leavesOne_of_not_send (other : r.kind ≠ .send) : r.leavesOne op cs = false := by
  cases cs with
  | nil => rfl
  | cons c cs =>
    have whole : (r.received op c).isPartial c.res = false := by
      refine Bool.eq_false_of_not_eq_true fun part => other ?_
      have send := (isPartial_iff.mp part).1
      unfold IoRequest.received at send
      split at send
      · exact send
      · exact send
    unfold IoRequest.leavesOne IoRequest.usesFlags
    simp only [whole, Bool.false_and, Bool.or_false]

/-! ## What is left in a request -/

/-- What the operation finds in its request makes no difference: the kernel does not take a part of
the buffers that a send to an address finds there, flags that a send of several buffers finds are
not used, and no address is written that a receive on a stream finds. -/
def Clean (filled : IoRequest) (cs : List Completion) : Op → Prop
  | .sendTo _ _ _ _ _ _ => ∀ c ∈ cs.head?, filled.isPartial c.res = true →
      filled.out = 0 ∧ c.answer.writes = false
  | .sendV s bufs flags => filled.flags = 0 ∨ filled.leavesOne (.sendV s bufs flags) cs = false
  | .streamRecv _ _ _ _ => filled.aux = 0 ∨ ∀ c ∈ cs.head?, c.res < 0
  | .recv _ _ _ _ | .send _ _ _ _ | .recvV _ _ _ | .read _ _ _ _ | .write _ _ _ _
  | .recvFrom _ _ _ _ _ | .accept _ _ _ | .connect _ _ _ | .disconnect _ _
  | .streamSend _ _ _ _ => True

/-- Requests that are alike have the same completions where the flags are not of a send. -/
theorem Alike.same (alike : Alike r r') (flags : r.kind = .send → r'.flags = r.flags) :
    (IoRequest.completions op r' cs).1 = (IoRequest.completions op r cs).1 := by
  refine alike.completions.mpr ?_
  by_cases send : r.kind = .send
  · exact .inl (flags send)
  · exact .inr (leavesOne_of_not_send send)

theorem total_status {result : IoResult} : (r.total result).status = result.status := by
  unfold IoRequest.total
  split <;> rfl

/-- What is refused at once is not completed. -/
theorem refused_status {answer : Answer} {refused : IoResult}
    (result : answer.result = some refused) : refused.status ≠ .completed := by
  cases answer with
  | taken => cases result
  | early | cancelled | noRing | stopping | full | failed =>
    cases result
    exact fun absurd => by cases absurd

/-- A send to an address whose request has no buffers is done with its first completion. -/
theorem sendTo_completions (send : r.kind = .send) (send' : r'.kind = .send) (out : r'.out = r.out)
    (xferred : r'.xferred = r.xferred) (empty : r'.bufCount = 0)
    (received : ∀ (r : IoRequest) (c : Completion), r.received op c = r) :
    (IoRequest.completions op r cs).1 = (IoRequest.completions op r' cs).1 ↔
      ∀ c ∈ cs.head?, r.isPartial c.res = true → r.out = 0 ∧ c.answer.writes = false := by
  cases cs with
  | nil => exact iff_of_true rfl fun c absurd => by cases absurd
  | cons c cs =>
    have whole' : r'.isPartial c.res = false := by
      refine Bool.eq_false_of_not_eq_true fun part => ?_
      have some := (isPartial_iff.mp part).2.1
      rw [empty] at some
      cases some
    have address (r : IoRequest) (send : r.kind = .send) : r.addressOf c.res = none := by
      unfold IoRequest.addressOf
      rw [send]
      exact if_neg fun absurd => by cases absurd.2.1
    have accepted (r : IoRequest) (send : r.kind = .send) : r.acceptedOf c.res = none := by
      unfold IoRequest.acceptedOf
      rw [send]
      exact if_neg fun absurd => by cases absurd.2
    have done : (IoRequest.completions op r' (c :: cs)).1 =
        [⟨r.write (r.total (r.resultOf c.res)), none, none, none⟩] := by
      unfold IoRequest.completions
      rw [received, complete_whole whole', address r' send', accepted r' send']
      unfold IoRequest.write IoRequest.total IoRequest.resultOf
      rw [out, xferred, send, send']
    rw [done]
    have first : (∀ c' ∈ (c :: cs).head?, r.isPartial c'.res = true →
        r.out = 0 ∧ c'.answer.writes = false) ↔
        (r.isPartial c.res = true → r.out = 0 ∧ c.answer.writes = false) := by
      simp only [List.head?_cons, Option.mem_some_iff, forall_eq']
    rw [first]
    unfold IoRequest.completions
    rw [received]
    cases part : r.isPartial c.res with
    | false =>
      rw [complete_whole part, address r send, accepted r send]
      exact iff_of_true rfl fun absurd => by cases absurd
    | true =>
      rw [forall_prop_of_true rfl]
      cases answer : c.answer.result with
      | none =>
        have taken := taken_iff.mp answer
        rw [complete_again part taken]
        refine iff_of_false (fun same => ?_) fun both => ?_
        · injection same with same
          injection same with _ _ _ entry
          unfold IoRequest.entry at entry
          rw [taken] at entry
          cases entry
        · rw [taken] at both
          cases both.2
      | some refused =>
        rw [complete_refused part answer]
        simp only [List.cons.injEq, and_true, Effects.mk.injEq, true_and]
        unfold IoRequest.entry
        cases written : c.answer.writes with
        | true =>
          refine iff_of_false (fun same => ?_) fun both => ?_
          · cases same.2
          · cases both.2
        | false =>
          simp only [Bool.false_eq_true, if_false, and_true]
          unfold IoRequest.write
          by_cases null : r.out = 0
          · rw [if_pos null, if_pos null]
            exact iff_of_true rfl null
          · rw [if_neg null, if_neg null, if_neg null]
            refine iff_of_false (fun same => refused_status answer ?_) null
            injection same with same
            injection same with _ same
            have status := congrArg IoResult.status same
            rw [total_status, total_status] at status
            rw [status]
            have positive := (isPartial_iff.mp part).2.2.1
            unfold IoRequest.resultOf
            rw [if_pos (by omega)]

/-- A receive finds an address, and one whose request has none does not write it. -/
theorem recv_completions (recv : r.kind = .recv) (recv' : r'.kind = .recv) (out : r'.out = r.out)
    (empty : r'.aux = 0) (received : ∀ (r : IoRequest) (c : Completion), r.received op c = r) :
    (IoRequest.completions op r cs).1 = (IoRequest.completions op r' cs).1 ↔
      r.aux = 0 ∨ ∀ c ∈ cs.head?, c.res < 0 := by
  cases cs with
  | nil => exact iff_of_true rfl (.inr fun c absurd => by cases absurd)
  | cons c cs =>
    have whole (r : IoRequest) (recv : r.kind = .recv) : r.isPartial c.res = false := by
      refine Bool.eq_false_of_not_eq_true fun part => ?_
      have send := (isPartial_iff.mp part).1
      rw [recv] at send
      cases send
    have done (r : IoRequest) (recv : r.kind = .recv) :
        (IoRequest.completions op r (c :: cs)).1 =
          [⟨r.write (r.resultOf c.res), r.addressOf c.res, none, none⟩] := by
      have total : r.total (r.resultOf c.res) = r.resultOf c.res := by
        unfold IoRequest.total
        rw [recv]
        exact if_neg fun absurd => by cases absurd.2
      have accepted : r.acceptedOf c.res = none := by
        unfold IoRequest.acceptedOf
        rw [recv]
        exact if_neg fun absurd => by cases absurd.2
      unfold IoRequest.completions
      rw [received, complete_whole (whole r recv), total, accepted]
    have result : r'.write (r'.resultOf c.res) = r.write (r.resultOf c.res) := by
      unfold IoRequest.write IoRequest.resultOf
      rw [out, recv, recv']
    have address : r'.addressOf c.res = none := by
      unfold IoRequest.addressOf
      exact if_neg fun all => all.2.2 empty
    rw [done r recv, done r' recv', result, address]
    simp only [List.cons.injEq, and_true, Effects.mk.injEq, true_and, List.head?_cons,
      Option.mem_some_iff, forall_eq']
    unfold IoRequest.addressOf
    by_cases null : r.aux = 0
    · rw [if_neg fun all => all.2.2 null]
      exact iff_of_true rfl (.inl null)
    · by_cases arrived : 0 ≤ c.res
      · rw [if_pos ⟨arrived, recv, null⟩]
        refine iff_of_false (fun absurd => by cases absurd) ?_
        rintro (absurd | negative)
        · exact null absurd
        · omega
      · rw [if_neg fun all => arrived all.1]
        exact iff_of_true rfl (.inr (by omega))

/-- A send of several buffers finds its flags. -/
theorem sendV_completions (alike : Alike r r') (empty : r'.flags = 0) :
    (IoRequest.completions op r cs).1 = (IoRequest.completions op r' cs).1 ↔
      r.flags = 0 ∨ r.leavesOne op cs = false := by
  rw [eq_comm, alike.completions, empty, eq_comm]

/-! ## One operation after the other -/

theorem effects_ok (ok : r.fill a .taken op = .ok filled) :
    r.effects op a cs = (IoRequest.completions op (filled.submitOp a .taken) cs).1 := by
  unfold IoRequest.effects
  rw [ok]

/-- An operation that sets all that counts. -/
theorem effects_of_alike {filled' : IoRequest} (ok : r.fill a .taken op = .ok filled)
    (ok' : IoRequest.fresh.fill a .taken op = .ok filled')
    (alike : Alike (filled.submitOp a .taken) (filled'.submitOp a .taken))
    (flags : filled.kind = .send → filled'.flags = filled.flags)
    (clean : Clean (filled.submitOp a .taken) cs op) :
    r.effects op a cs = IoRequest.fresh.effects op a cs ↔
      ∀ filled, r.fill a .taken op = .ok filled → Clean (filled.submitOp a .taken) cs op := by
  rw [effects_ok ok, effects_ok ok']
  refine iff_of_true (alike.same flags).symm fun filled same => ?_
  cases ok.symm.trans same
  exact clean

/-- An operation that may find something. -/
theorem effects_of_clean {filled' : IoRequest} (ok : r.fill a .taken op = .ok filled)
    (ok' : IoRequest.fresh.fill a .taken op = .ok filled')
    (clean : (IoRequest.completions op (filled.submitOp a .taken) cs).1 =
      (IoRequest.completions op (filled'.submitOp a .taken) cs).1 ↔
        Clean (filled.submitOp a .taken) cs op) :
    r.effects op a cs = IoRequest.fresh.effects op a cs ↔
      ∀ filled, r.fill a .taken op = .ok filled → Clean (filled.submitOp a .taken) cs op := by
  rw [effects_ok ok, effects_ok ok', clean]
  constructor
  · intro here filled same
    cases ok.symm.trans same
    exact here
  · exact fun all => all _ ok

theorem effects_of_error {code : Nat} (error : r.fill a .taken op = .error code)
    (error' : IoRequest.fresh.fill a .taken op = .error code) :
    r.effects op a cs = IoRequest.fresh.effects op a cs ↔
      ∀ filled, r.fill a .taken op = .ok filled → Clean (filled.submitOp a .taken) cs op := by
  unfold IoRequest.effects
  rw [error, error']
  exact iff_of_true rfl fun filled absurd => by cases absurd

/-- The buffers are refused, or the same in both. -/
theorem fillBufs_cases (r : IoRequest) (bufs : List Iov) :
    (r.fillBufs bufs = none ∧ IoRequest.fresh.fillBufs bufs = none) ∨
      ∃ iov iov', r.fillBufs bufs = some { r with iov := iov } ∧
        IoRequest.fresh.fillBufs bufs = some { IoRequest.fresh with iov := iov' } ∧
        ∀ k < bufs.length, iov' k = iov k := by
  unfold IoRequest.fillBufs
  split
  · exact .inl ⟨rfl, rfl⟩
  · refine .inr ⟨_, _, rfl, rfl, fun k inside => ?_⟩
    simp only [List.getElem?_eq_getElem inside, Option.getD_some]

/-- For any leftovers in the request. -/
theorem effects_iff : r.effects op a cs = IoRequest.fresh.effects op a cs ↔
    ∀ filled, r.fill a .taken op = .ok filled → Clean (filled.submitOp a .taken) cs op := by
  have single {k : Nat} (iov iov' : Nat → Iov) (v : Iov) (inside : k < 1) :
      Function.update iov' 0 v k = Function.update iov 0 v k := by
    rw [Nat.lt_one_iff.mp inside, Function.update_self, Function.update_self]
  cases op with
  | recv s buf len flags =>
    refine effects_of_alike rfl rfl ⟨rfl, rfl, rfl, fun _ => ⟨rfl, fun absurd => ?_⟩, ?_⟩ ?_
      trivial
    · exact (absurd rfl).elim
    · exact fun absurd => by cases absurd
    · exact fun absurd => by cases absurd
  | send s buf len flags =>
    refine effects_of_alike rfl rfl ⟨rfl, rfl, rfl, ?_, fun _ => ⟨rfl, ?_, rfl⟩⟩ (fun _ => rfl)
      trivial
    · exact fun absurd => by cases absurd
    · exact fun k inside => single _ _ _ inside
  | recvV s bufs flags =>
    rcases fillBufs_cases r bufs with ⟨none, none'⟩ | ⟨iov, iov', some, some', -⟩
    · refine @effects_of_error _ _ _ _ eMsgSize ?_ ?_
      · simp only [IoRequest.fill, none]
      · simp only [IoRequest.fill, none']
    · have ok (r : IoRequest) (iov : Nat → Iov)
          (some : r.fillBufs bufs = .some { r with iov := iov }) :
          r.fill a .taken (.recvV s bufs flags) = .ok { r with
            iov := iov
            kind := .recv
            bufCount := bufs.length
            handle := s
            xferred := 0
            aux := 0 } := by
        simp only [IoRequest.fill, some]
      refine effects_of_alike (ok _ _ some) (ok _ _ some')
        ⟨rfl, rfl, rfl, fun _ => ⟨rfl, fun absurd => (absurd rfl).elim⟩, ?_⟩ ?_ trivial
      · exact fun absurd => by cases absurd
      · exact fun absurd => by cases absurd
  | sendV s bufs flags =>
    rcases fillBufs_cases r bufs with ⟨none, none'⟩ | ⟨iov, iov', some, some', same⟩
    · refine @effects_of_error _ _ _ _ eMsgSize ?_ ?_
      · simp only [IoRequest.fill, none]
      · simp only [IoRequest.fill, none']
    · have ok (r : IoRequest) (iov : Nat → Iov)
          (some : r.fillBufs bufs = .some { r with iov := iov }) :
          r.fill a .taken (.sendV s bufs flags) = .ok { r with
            iov := iov, kind := .send, bufCount := bufs.length, handle := s, xferred := 0 } := by
        simp only [IoRequest.fill, some]
      refine effects_of_clean (ok _ _ some) (ok _ _ some')
        (sendV_completions ⟨rfl, rfl, rfl, ?_, fun _ => ⟨rfl, same, rfl⟩⟩ rfl)
      exact fun absurd => by cases absurd
  | read handle buf len offset | write handle buf len offset | connect s sockaddr len =>
    refine effects_of_alike rfl rfl ⟨rfl, rfl, rfl, ?_, ?_⟩ ?_ trivial
    all_goals exact fun absurd => by cases absurd
  | recvFrom s buf len flags source =>
    refine effects_of_alike rfl rfl ⟨rfl, rfl, rfl, fun _ => ⟨rfl, fun _ => rfl⟩, ?_⟩ ?_ trivial
    · exact fun absurd => by cases absurd
    · exact fun absurd => by cases absurd
  | sendTo s buf len flags dest destLen =>
    exact effects_of_clean rfl rfl (sendTo_completions rfl rfl rfl rfl rfl fun _ _ => rfl)
  | accept listener accepted addrs =>
    have ok (r : IoRequest) : ∃ iov, r.fill a .taken (.accept listener accepted addrs) =
        .ok { r with kind := .accept, handle := listener, aux := 0, iov := iov } := ⟨_, rfl⟩
    obtain ⟨iov, filled⟩ := ok r
    obtain ⟨iov', filled'⟩ := ok .fresh
    refine effects_of_alike filled filled' ⟨rfl, rfl, rfl, ?_, ?_⟩ ?_ trivial
    all_goals exact fun absurd => by cases absurd
  | disconnect s reuse =>
    cases reuse with
    | true => exact effects_of_error rfl rfl
    | false =>
      refine effects_of_alike rfl rfl ⟨rfl, rfl, rfl, ?_, ?_⟩ ?_ trivial
      all_goals exact fun absurd => by cases absurd
  | streamSend stream s bufs flags =>
    rcases fillBufs_cases r bufs with ⟨none, none'⟩ | ⟨iov, iov', some, some', same⟩
    · refine @effects_of_error _ _ _ _ eMsgSize ?_ ?_
      · simp only [IoRequest.fill, none]
      · simp only [IoRequest.fill, none']
    · have ok (r : IoRequest) (iov : Nat → Iov)
          (some : r.fillBufs bufs = .some { r with iov := iov }) :
          r.fill a .taken (.streamSend stream s bufs flags) = .ok ({ r with iov := iov }.chained
            .send (.onSendComplete stream) s bufs.length flags a) := by
        simp only [IoRequest.fill, some]
        rfl
      refine effects_of_alike (ok _ _ some) (ok _ _ some')
        ⟨rfl, rfl, rfl, ?_, fun _ => ⟨rfl, same, rfl⟩⟩ (fun _ => rfl) trivial
      exact fun absurd => by cases absurd
  | streamRecv stream s bufs flags =>
    rcases fillBufs_cases r bufs with ⟨none, none'⟩ | ⟨iov, iov', some, some', -⟩
    · refine @effects_of_error _ _ _ _ eMsgSize ?_ ?_
      · simp only [IoRequest.fill, none]
      · simp only [IoRequest.fill, none']
    · have ok (r : IoRequest) (iov : Nat → Iov)
          (some : r.fillBufs bufs = .some { r with iov := iov }) :
          r.fill a .taken (.streamRecv stream s bufs flags) = .ok ({ r with iov := iov }.chained
            .recv (.onRecvComplete stream) s bufs.length flags a) := by
        simp only [IoRequest.fill, some]
        rfl
      exact effects_of_clean (ok _ _ some) (ok _ _ some')
        (recv_completions rfl rfl rfl rfl fun _ _ => rfl)

/-- The completions of an operation are those that it would have with a new request if and only if
what it finds in its request makes no difference. -/
theorem leftovers (history : List Use) (op : Op) (a : Args) (cs : List Completion) :
    (after history).effects op a cs = IoRequest.fresh.effects op a cs ↔
      ∀ filled, (after history).fill a .taken op = .ok filled →
        Clean (filled.submitOp a .taken) cs op :=
  effects_iff

/-- Where the results are written. -/
def someArgs : Args := ⟨1000, 2000, 0xFFFFFFFF⟩

/-- A receive with the address at 4096, which the kernel fills with 16 bytes. -/
def fromAddress : Use := ⟨.recvFrom 5 100 64 0 4096, someArgs, .taken, [⟨12, 16, .taken⟩]⟩

/-- A send of two buffers, all at once. -/
def twoBuffers : Use := ⟨.sendV 5 [⟨100, 10⟩, ⟨200, 20⟩] 0, someArgs, .taken, [⟨30, 0, .taken⟩]⟩

/-- A send with a flag. -/
def flagged : Use := ⟨.send 5 100 10 1, someArgs, .taken, [⟨10, 0, .taken⟩]⟩

/-- A buffer is sent with a flag, and then another one to an address, of which the kernel takes all.
Two buffers are sent without flags, and then two again, of which the kernel first takes one. -/
theorem leftovers_unused :
    (after [flagged]).effects (.sendTo 6 300 30 0 500 16) someArgs [⟨30, 0, .taken⟩] =
      IoRequest.fresh.effects (.sendTo 6 300 30 0 500 16) someArgs [⟨30, 0, .taken⟩] ∧
    (after [twoBuffers]).effects (.sendV 6 [⟨100, 10⟩, ⟨200, 20⟩] 0) someArgs
        [⟨10, 0, .taken⟩, ⟨20, 0, .taken⟩] =
      IoRequest.fresh.effects (.sendV 6 [⟨100, 10⟩, ⟨200, 20⟩] 0) someArgs
        [⟨10, 0, .taken⟩, ⟨20, 0, .taken⟩] := by
  constructor
  · refine (leftovers [flagged] (.sendTo 6 300 30 0 500 16) someArgs [⟨30, 0, .taken⟩]).mpr ?_
    intro filled same c first part
    cases same
    cases first
    exact absurd (isPartial_iff.mp part).2.2.2 (by decide)
  · refine (leftovers [twoBuffers] (.sendV 6 [⟨100, 10⟩, ⟨200, 20⟩] 0) someArgs
      [⟨10, 0, .taken⟩, ⟨20, 0, .taken⟩]).mpr ?_
    intro filled same
    cases same
    exact .inl (by decide)

/-- A receive on a stream writes the length of the address of an earlier receive, a send to an
address is followed by the second buffer of an earlier send, and the rest of a send of two buffers
goes out with the flags of an earlier send. -/
theorem stale_fields :
    (after [fromAddress]).effects (.streamRecv 1 7 [⟨300, 64⟩] 0) someArgs [⟨5, 0, .taken⟩] =
        [⟨some (1000, ⟨.completed, 5, 0⟩), some (4096, 16), none, none⟩] ∧
      IoRequest.fresh.effects (.streamRecv 1 7 [⟨300, 64⟩] 0) someArgs [⟨5, 0, .taken⟩] =
        [⟨some (1000, ⟨.completed, 5, 0⟩), none, none, none⟩] ∧
    (after [twoBuffers]).effects (.sendTo 6 300 10 0 500 16) someArgs [⟨10, 0, .taken⟩] =
        [⟨none, none, none, some (.send 6 ⟨200, 20⟩ 0)⟩] ∧
      IoRequest.fresh.effects (.sendTo 6 300 10 0 500 16) someArgs [⟨10, 0, .taken⟩] =
        [⟨some (1000, ⟨.completed, 10, 0⟩), none, none, none⟩] ∧
    (after [flagged]).effects (.sendV 6 [⟨100, 10⟩, ⟨200, 20⟩] 0) someArgs [⟨10, 0, .taken⟩] =
        [⟨none, none, none, some (.send 6 ⟨200, 20⟩ 1)⟩] ∧
      IoRequest.fresh.effects (.sendV 6 [⟨100, 10⟩, ⟨200, 20⟩] 0) someArgs [⟨10, 0, .taken⟩] =
        [⟨none, none, none, some (.send 6 ⟨200, 20⟩ 0)⟩] := by
  decide +kernel

end JLibSched.Reactor
