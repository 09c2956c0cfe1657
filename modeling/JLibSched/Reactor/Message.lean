import JLibSched.Reactor.Leftovers

/-!
# A message sent in parts

A send of several buffers goes on until the kernel has taken all of them: each time it took a part,
`AdvanceBufs` drops that part from the front and the rest is submitted, as a vector, or as a single
buffer when one is left.  A byte is named by its address, so that the bytes of an entry can be
compared with those of the message.
-/

namespace JLibSched.Reactor

variable {r filled : IoRequest} {op : Op} {a : Args} {c : Completion} {cs : List Completion}
  {v : Iov} {bufs : List Iov} {consumed done s : Nat}

/-! ## Bytes -/

/-- The addresses of a buffer's bytes. -/
def Iov.bytes (v : Iov) : List Nat := (List.range v.len).map (v.base + ·)

/-- The concatenation of the buffers. -/
def message (bufs : List Iov) : List Nat := bufs.flatMap Iov.bytes

/-- The entry sends these bytes on the socket.  The length of a single buffer has 32 bits. -/
def Entry.Sends : Entry → Nat → List Nat → Prop
  | .send handle buf _, s, bytes => handle = s ∧ Iov.bytes ⟨buf.base, buf.len % 2 ^ 32⟩ = bytes
  | .writeV handle bufs, s, bytes => handle = s ∧ message bufs = bytes
  | .recv _ _ _, _, _ | .readV _ _, _, _ => False

theorem Iov.length_bytes : v.bytes.length = v.len := by
  unfold Iov.bytes
  rw [List.length_map, List.length_range]

theorem Iov.getElem?_bytes (k : Nat) :
    v.bytes[k]? = if k < v.len then some (v.base + k) else none := by
  unfold Iov.bytes
  rw [List.getElem?_map]
  split
  · rename_i inside
    rw [List.getElem?_range inside]
    rfl
  · rename_i outside
    rw [List.getElem?_eq_none (List.length_range.trans_le (Nat.le_of_not_lt outside))]
    rfl

theorem message_cons : message (v :: bufs) = v.bytes ++ message bufs := List.flatMap_cons

theorem length_message : (message bufs).length = (bufs.map Iov.len).sum := by
  induction bufs with
  | nil => rfl
  | cons v bufs ih =>
    rw [message_cons, List.length_append, Iov.length_bytes, ih, List.map_cons, List.sum_cons]

/-- A buffer without its first bytes. -/
theorem Iov.bytes_shorten : Iov.bytes ⟨v.base + consumed, v.len - consumed⟩ =
    v.bytes.drop consumed := by
  refine List.ext_getElem? fun k => ?_
  rw [List.getElem?_drop, Iov.getElem?_bytes, Iov.getElem?_bytes]
  by_cases inside : consumed + k < v.len
  · rw [if_pos inside, if_pos (show k < v.len - consumed by omega), Nat.add_assoc]
  · rw [if_neg inside, if_neg (show ¬ k < v.len - consumed by omega)]

/-! ## What `AdvanceBufs` leaves -/

/-- The first buffer is shortened. -/
def trim : List Iov → Nat → List Iov
  | [], _ => []
  | v :: bufs, consumed => ⟨v.base + consumed, v.len - consumed⟩ :: bufs

theorem trim_zero : trim bufs 0 = bufs := by
  cases bufs with
  | nil => rfl
  | cons v bufs => rfl

theorem getElem?_trim (k : Nat) : (trim bufs consumed)[k]? =
    if k = 0 then bufs[k]?.map (fun v => ⟨v.base + consumed, v.len - consumed⟩) else bufs[k]? := by
  cases bufs with
  | nil => split <;> rfl
  | cons v bufs =>
    cases k with
    | zero => rfl
    | succ k => rfl

/-- The loop leaves the message without the bytes it has consumed. -/
theorem message_usedUp : message (trim (bufs.drop (usedUp bufs consumed).1)
    (usedUp bufs consumed).2) = (message bufs).drop consumed := by
  induction bufs generalizing consumed with
  | nil => exact (List.drop_nil).symm
  | cons v bufs ih =>
    unfold usedUp
    by_cases all : consumed = 0
    · rw [if_pos all, all, List.drop_zero, List.drop_zero, trim_zero]
    · rw [if_neg all]
      by_cases whole : v.len ≤ consumed
      · -- the buffer is used up, also when it is empty
        rw [if_pos whole, List.drop_succ_cons, ih, message_cons, List.drop_append,
          Iov.length_bytes, List.drop_eq_nil_of_le (Iov.length_bytes.trans_le whole),
          List.nil_append]
      · rw [if_neg whole, List.drop_zero, message_cons, List.drop_append,
          Iov.length_bytes, Nat.sub_eq_zero_of_le (Nat.le_of_not_le whole), List.drop_zero]
        unfold trim
        rw [message_cons, Iov.bytes_shorten]

theorem getElem?_bufs (r : IoRequest) (k : Nat) :
    r.bufs[k]? = if k < r.bufCount then some (r.iov k) else none := by
  unfold IoRequest.bufs
  rw [List.getElem?_map]
  split
  · rename_i inside
    rw [List.getElem?_range inside]
    rfl
  · rename_i outside
    rw [List.getElem?_eq_none (List.length_range.trans_le (Nat.le_of_not_lt outside))]
    rfl

theorem advanceBufs_iov {k : Nat} (inside : k < (r.advanceBufs consumed).bufCount) :
    (r.advanceBufs consumed).iov k =
      if k = 0 then
        ⟨(r.iov (usedUp r.bufs consumed).1).base + (usedUp r.bufs consumed).2,
          (r.iov (usedUp r.bufs consumed).1).len - (usedUp r.bufs consumed).2⟩
      else r.iov ((usedUp r.bufs consumed).1 + k) := by
  rw [advanceBufs_bufCount] at inside
  unfold IoRequest.advanceBufs
  simp only
  generalize (usedUp r.bufs consumed).1 = i at inside ⊢
  generalize (usedUp r.bufs consumed).2 = left
  rw [if_pos (show i < r.bufCount by omega)]
  have shortened : ∀ j, shorten r.iov i left (i + j) =
      if j = 0 then ⟨(r.iov i).base + left, (r.iov i).len - left⟩ else r.iov (i + j) := by
    intro j
    unfold shorten
    split
    · rename_i first
      rw [first, Nat.add_zero, Function.update_self]
    · exact Function.update_of_ne (by omega) _ _
  split
  · rename_i unmoved
    have at_k := shortened k
    rw [unmoved, Nat.zero_add] at at_k
    rw [unmoved, Nat.zero_add]
    exact at_k
  · simp only
    rw [if_pos inside]
    exact shortened k

theorem bufs_advanceBufs : (r.advanceBufs consumed).bufs =
    trim (r.bufs.drop (usedUp r.bufs consumed).1) (usedUp r.bufs consumed).2 := by
  refine List.ext_getElem? fun k => ?_
  rw [getElem?_bufs, getElem?_trim, List.getElem?_drop, getElem?_bufs]
  by_cases inside : k < (r.advanceBufs consumed).bufCount
  · have there : (usedUp r.bufs consumed).1 + k < r.bufCount := by
      rw [advanceBufs_bufCount] at inside
      omega
    rw [if_pos inside, if_pos there, advanceBufs_iov inside]
    split
    · rename_i first
      rw [first]
      rfl
    · rfl
  · have beyond : ¬ (usedUp r.bufs consumed).1 + k < r.bufCount := by
      rw [advanceBufs_bufCount] at inside
      omega
    rw [if_neg inside, if_neg beyond]
    split <;> rfl

/-- `AdvanceBufs` drops as many bytes as were consumed. -/
theorem message_advanceBufs :
    message (r.advanceBufs consumed).bufs = (message r.bufs).drop consumed := by
  rw [bufs_advanceBufs]
  exact message_usedUp

/-- No buffer becomes longer. -/
theorem advanceBufs_len {bound : Nat} (short : ∀ v ∈ r.bufs, v.len < bound) :
    ∀ v ∈ (r.advanceBufs consumed).bufs, v.len < bound := by
  rw [bufs_advanceBufs]
  have kept : ∀ v ∈ r.bufs.drop (usedUp r.bufs consumed).1, v.len < bound :=
    fun v mem => short v (List.mem_of_mem_drop mem)
  cases rest : r.bufs.drop (usedUp r.bufs consumed).1 with
  | nil => exact fun v absurd => by cases absurd
  | cons first others =>
    rw [rest] at kept
    intro v mem
    rcases List.mem_cons.mp mem with rfl | mem
    · exact Nat.lt_of_le_of_lt (Nat.sub_le _ _) (kept first (List.mem_cons_self ..))
    · exact kept v (List.mem_cons_of_mem _ mem)

/-! ## A send under way -/

/-- The buffers of an operation that sends buffers. -/
def Op.message : Op → Option (List Iov)
  | .send _ buf len _ => some [⟨buf, len⟩]
  | .sendV _ bufs _ | .streamSend _ _ bufs _ => some bufs
  | .recv .. | .recvV .. | .read .. | .write .. | .recvFrom .. | .sendTo .. | .accept ..
  | .connect .. | .disconnect .. | .streamRecv .. => none

def Op.socket : Op → Nat
  | .send s .. | .sendV s .. | .streamSend _ s .. | .recv s .. | .recvV s .. | .streamRecv _ s ..
  | .recvFrom s .. | .sendTo s .. | .connect s .. | .disconnect s _ => s
  | .read handle .. | .write handle .. => handle
  | .accept listener .. => listener

/-- The request after these completions, while the kernel has it. -/
def IoRequest.under (op : Op) : IoRequest → List Completion → Option IoRequest
  | r, [] => some r
  | r, c :: cs =>
    if ((r.received op c).complete c).2.2 then ((r.received op c).complete c).2.1.under op cs
    else none

/-- How many bytes the kernel has taken. -/
def takenBy (cs : List Completion) : Nat := (cs.map fun c => c.res.toNat).sum

/-- The bytes the kernel has taken, from the front of the buffers each time. -/
def IoRequest.takes (op : Op) : IoRequest → List Completion → List Nat
  | _, [] => []
  | r, c :: cs =>
    (message r.bufs).take c.res.toNat ++ ((r.received op c).complete c).2.1.takes op cs

/-- Completions that take some of what is left, each rest being taken by the ring. -/
def Takes : Nat → List Completion → Prop
  | _, [] => True
  | left, c :: cs => (0 < c.res ∧ c.res ≤ left) ∧ c.answer = .taken ∧ Takes (left - c.res.toNat) cs

/-- The request describes what is left of the message after `done` bytes. -/
structure IoRequest.Sending (r : IoRequest) (op : Op) (a : Args) (bufs : List Iov) (done : Nat) :
    Prop where
  kind : r.kind = .send
  handle : r.handle = op.socket
  out : r.out = a.out
  counts : 0 < r.bufCount
  rest : message r.bufs = (message bufs).drop done
  xferred : r.xferred = done % 2 ^ 32
  short : ∀ v ∈ r.bufs, v.len < 2 ^ 32

theorem received_send (sends : op.message = some bufs) : r.received op c = r := by
  cases op with
  | recvFrom => cases sends
  | send | sendV | streamSend | recv | recvV | read | write | sendTo | accept | connect
  | disconnect | streamRecv => rfl

theorem bufs_eq (count : r.bufCount = bufs.length)
    (filled : ∀ k < bufs.length, bufs[k]? = some (r.iov k)) : r.bufs = bufs := by
  refine List.ext_getElem? fun k => ?_
  rw [getElem?_bufs, count]
  split
  · rename_i inside
    exact (filled k inside).symm
  · rename_i outside
    exact (List.getElem?_eq_none (Nat.le_of_not_lt outside)).symm

theorem fillBufs_some (count : 0 < bufs.length ∧ bufs.length ≤ kMaxVectors) :
    r.fillBufs bufs = some { r with iov := fun k => (bufs[k]?).getD (r.iov k) } := by
  unfold IoRequest.fillBufs
  exact if_neg (by omega)

theorem Sending.start {q : IoRequest} (kind : q.kind = .send) (handle : q.handle = op.socket)
    (out : q.out = a.out) (described : q.bufs = bufs) (count : 0 < bufs.length)
    (xferred : q.xferred = 0) (short : ∀ v ∈ bufs, v.len < 2 ^ 32) : q.Sending op a bufs 0 where
  kind := kind
  handle := handle
  out := out
  counts := by rw [← described, length_bufs] at count; exact count
  rest := by rw [described, List.drop_zero]
  xferred := xferred
  short := by rw [described]; exact short

/-- Each of the operations leaves a request that describes the whole message. -/
theorem Sending.submitted (r : IoRequest) (a : Args) (sends : op.message = some bufs)
    (count : 0 < bufs.length ∧ bufs.length ≤ kMaxVectors) (short : ∀ v ∈ bufs, v.len < 2 ^ 32) :
    ∃ filled, r.fill a .taken op = .ok filled ∧
      (filled.submitOp a .taken).Sending op a bufs 0 := by
  have stored : ∀ k < bufs.length, bufs[k]? = some ((bufs[k]?).getD (r.iov k)) := by
    intro k inside
    rw [List.getElem?_eq_getElem inside]
    rfl
  cases op with
  | send s buf len flags =>
    cases sends
    refine ⟨_, rfl, Sending.start rfl rfl rfl (bufs_eq rfl fun k inside => ?_) Nat.one_pos rfl
      short⟩
    obtain rfl : k = 0 := Nat.lt_one_iff.mp inside
    have first : Function.update r.iov 0 ⟨buf, len⟩ 0 = ⟨buf, len⟩ := Function.update_self ..
    exact congrArg some first.symm
  | sendV s bufs flags | streamSend stream s bufs flags =>
    cases sends
    simp only [IoRequest.fill, fillBufs_some count]
    exact ⟨_, rfl, Sending.start rfl rfl rfl (bufs_eq rfl stored) count.1 rfl short⟩
  | recv | recvV | read | write | recvFrom | sendTo | accept | connect | disconnect | streamRecv =>
    cases sends

/-! ## One completion -/

theorem IoRequest.Sending.remaining (sending : r.Sending op a bufs done) :
    r.bufsRemaining = (bufs.map Iov.len).sum - done := by
  unfold IoRequest.bufsRemaining
  rw [← length_message, sending.rest, List.length_drop, length_message]

theorem IoRequest.Sending.isPartial_iff (sending : r.Sending op a bufs done)
    (positive : 0 < c.res) :
    r.isPartial c.res = true ↔ done + c.res.toNat < (bufs.map Iov.len).sum := by
  rw [Reactor.isPartial_iff, sending.remaining]
  constructor
  · rintro ⟨-, -, -, less⟩
    omega
  · intro less
    exact ⟨sending.kind, sending.counts, positive, by omega⟩

/-- What `SubmitPrepared` puts into the ring. -/
theorem IoRequest.Sending.prepared (sending : r.Sending op a bufs done) :
    r.prepared.Sends op.socket ((message bufs).drop done) := by
  unfold IoRequest.prepared
  rw [if_pos sending.kind, if_pos sending.kind, ← sending.rest]
  split
  · rename_i one
    have single : r.bufs = [r.iov 0] := by
      unfold IoRequest.bufs
      rw [one]
      rfl
    have small : (r.iov 0).len % 2 ^ 32 = (r.iov 0).len :=
      Nat.mod_eq_of_lt (sending.short _ (by rw [single]; exact List.mem_singleton.mpr rfl))
    refine ⟨sending.handle, ?_⟩
    rw [small, single, message_cons]
    exact (List.append_nil _).symm
  · exact ⟨sending.handle, rfl⟩

theorem bufs_rest {res : Int} : (r.rest res).bufs = (r.advanceBufs res.toNat).bufs :=
  bufs_advanceBufs.trans (bufs_advanceBufs (r := r)).symm

theorem IoRequest.Sending.goes (sending : r.Sending op a bufs done)
    (part : r.isPartial c.res = true) :
    (r.rest c.res).Sending op a bufs (done + c.res.toNat) where
  kind := rest_kind.trans sending.kind
  handle := rest_handle.trans sending.handle
  out := rest_out.trans sending.out
  counts := Nat.pos_of_ne_zero (rest_bufCount part)
  rest := by rw [bufs_rest, message_advanceBufs, sending.rest, List.drop_drop]
  xferred := by rw [rest_xferred, sending.xferred, Nat.mod_add_mod]
  short := by
    rw [bufs_rest]
    exact advanceBufs_len sending.short

/-- A part: the rest goes into the ring. -/
theorem IoRequest.Sending.again (sending : r.Sending op a bufs done)
    (part : r.isPartial c.res = true) (taken : c.answer = .taken) :
    ∃ entry, r.complete c = (⟨none, none, none, some entry⟩, r.rest c.res, true) ∧
      entry.Sends op.socket ((message bufs).drop (done + c.res.toNat)) := by
  refine ⟨(r.rest c.res).prepared, ?_, (sending.goes part).prepared⟩
  rw [complete_again part taken]
  unfold IoRequest.entry
  rw [taken]
  rfl

/-- The last part: the bytes of all parts are reported. -/
theorem IoRequest.Sending.ends (sending : r.Sending op a bufs done) (positive : 0 < c.res)
    (last : done + c.res.toNat = (bufs.map Iov.len).sum) :
    ∃ left, r.complete c = (⟨if a.out = 0 then none
      else some (a.out, ⟨.completed, (bufs.map Iov.len).sum % 2 ^ 32, 0⟩), none, none, none⟩,
      left, false) := by
  have whole : r.isPartial c.res = false := by
    rw [Bool.eq_false_iff]
    intro part
    exact absurd ((sending.isPartial_iff positive).mp part) (by omega)
  have result : r.resultOf c.res = ⟨.completed, c.res.toNat, 0⟩ := by
    unfold IoRequest.resultOf
    rw [if_pos (le_of_lt positive), sending.kind]
    rfl
  have address : r.addressOf c.res = none := by
    unfold IoRequest.addressOf
    rw [sending.kind]
    exact if_neg fun both => by cases both.2.1
  have accepted : r.acceptedOf c.res = none := by
    unfold IoRequest.acceptedOf
    rw [sending.kind]
    exact if_neg fun both => by cases both.2
  have sum : r.total ⟨.completed, c.res.toNat, 0⟩ =
      ⟨.completed, (bufs.map Iov.len).sum % 2 ^ 32, 0⟩ := by
    unfold IoRequest.total
    rw [if_pos ⟨rfl, sending.kind⟩, sending.xferred, Nat.add_mod_mod, Nat.add_comm, last]
  refine ⟨{ r with aux := (r.acceptedOf c.res).getD r.aux }, ?_⟩
  rw [complete_whole whole, result, address, accepted, sum]
  unfold IoRequest.write
  rw [sending.out]

/-! ## All of them -/

theorem takenBy_cons : takenBy (c :: cs) = c.res.toNat + takenBy cs := by
  unfold takenBy
  rw [List.map_cons, List.sum_cons]

theorem takenBy_append : takenBy (cs ++ [c]) = takenBy cs + c.res.toNat := by
  unfold takenBy
  rw [List.map_append, List.sum_append]
  rfl

theorem Takes.last_pos {left : Nat} (takes : Takes left (cs ++ [c])) : 0 < c.res := by
  induction cs generalizing left with
  | nil => exact takes.1.1
  | cons first cs ih => exact ih takes.2.2

theorem Takes.answer {left : Nat} (takes : Takes left (cs ++ [c])) : c.answer = .taken := by
  induction cs generalizing left with
  | nil => exact takes.2.1
  | cons first cs ih => exact ih takes.2.2

theorem Takes.bounded {left : Nat} (takes : Takes left cs) : takenBy cs ≤ left := by
  induction cs generalizing left with
  | nil => exact Nat.zero_le left
  | cons first cs ih =>
    have rest := ih takes.2.2
    have bound := takes.1.2
    rw [takenBy_cons]
    omega

/-- As long as bytes are left, the request describes them, and those before have been taken. -/
theorem IoRequest.Sending.run (sends : op.message = some bufs) (sending : r.Sending op a bufs done)
    (takes : Takes ((bufs.map Iov.len).sum - done) (cs ++ [c])) :
    ∃ q, r.under op cs = some q ∧ q.Sending op a bufs (done + takenBy cs) ∧
      r.takes op (cs ++ [c]) = ((message bufs).drop done).take (takenBy (cs ++ [c])) := by
  induction cs generalizing r done with
  | nil =>
    refine ⟨r, rfl, sending, ?_⟩
    show (message r.bufs).take c.res.toNat ++ [] = _
    rw [List.append_nil, sending.rest]
    rfl
  | cons first cs ih =>
    obtain ⟨⟨positive, -⟩, taken, rest⟩ := takes
    have others : Takes ((bufs.map Iov.len).sum - done - first.res.toNat) (cs ++ [c]) := rest
    -- the last completion takes something, so the first one does not take all
    have before : done + first.res.toNat < (bufs.map Iov.len).sum := by
      have more := Takes.bounded others
      rw [takenBy_append] at more
      have last := Takes.last_pos others
      omega
    have part := (sending.isPartial_iff positive).mpr before
    obtain ⟨entry, complete, -⟩ := sending.again part taken
    rw [Nat.sub_sub] at others
    obtain ⟨q, under, sent, rest⟩ := ih (sending.goes part) others
    have received : r.received op first = r := received_send sends
    refine ⟨q, ?_, ?_, ?_⟩
    · show (if ((r.received op first).complete first).2.2 then _ else none) = some q
      rw [received, complete, if_pos rfl]
      exact under
    · rw [takenBy_cons, ← Nat.add_assoc]
      exact sent
    · show (message r.bufs).take first.res.toNat ++
        ((r.received op first).complete first).2.1.takes op (cs ++ [c]) = _
      rw [received, complete, List.cons_append, takenBy_cons, List.take_add, List.drop_drop,
        ← rest, sending.rest]

/-- A message is transmitted once: each rest that is submitted is exactly the part of the message
that has not been sent, and the request is done when all of it has. -/
theorem message_sent (r : IoRequest) (a : Args) (sends : op.message = some bufs)
    (count : 0 < bufs.length ∧ bufs.length ≤ kMaxVectors) (short : ∀ v ∈ bufs, v.len < 2 ^ 32)
    (takes : Takes (bufs.map Iov.len).sum (cs ++ [c])) :
    ∃ filled q, r.fill a .taken op = .ok filled ∧
      (filled.submitOp a .taken).under op cs = some q ∧
      message q.bufs = (message bufs).drop (takenBy cs) ∧
      message (q.advanceBufs c.res.toNat).bufs = (message q.bufs).drop c.res.toNat ∧
      (filled.submitOp a .taken).takes op (cs ++ [c]) =
        (message bufs).take (takenBy (cs ++ [c])) ∧
      ((q.complete c).2.2 = false ↔ takenBy (cs ++ [c]) = (bufs.map Iov.len).sum) ∧
      (takenBy (cs ++ [c]) < (bufs.map Iov.len).sum → ∃ entry rest,
        q.complete c = (⟨none, none, none, some entry⟩, rest, true) ∧
          entry.Sends op.socket ((message bufs).drop (takenBy (cs ++ [c])))) ∧
      (takenBy (cs ++ [c]) = (bufs.map Iov.len).sum → ∃ left,
        q.complete c = (⟨if a.out = 0 then none
          else some (a.out, ⟨.completed, (bufs.map Iov.len).sum % 2 ^ 32, 0⟩), none, none, none⟩,
          left, false)) := by
  obtain ⟨filled, ok, start⟩ := Sending.submitted r a sends count short
  obtain ⟨q, under, sending, taken⟩ := start.run sends takes
  rw [Nat.zero_add] at sending
  have positive := Takes.last_pos takes
  have bounded := Takes.bounded takes
  have again : takenBy (cs ++ [c]) < (bufs.map Iov.len).sum → ∃ entry rest,
      q.complete c = (⟨none, none, none, some entry⟩, rest, true) ∧
        entry.Sends op.socket ((message bufs).drop (takenBy (cs ++ [c]))) := by
    intro less
    rw [takenBy_append] at less ⊢
    obtain ⟨entry, complete, described⟩ :=
      sending.again ((sending.isPartial_iff positive).mpr less) (Takes.answer takes)
    exact ⟨entry, _, complete, described⟩
  have ends : takenBy (cs ++ [c]) = (bufs.map Iov.len).sum → ∃ left,
      q.complete c = (⟨if a.out = 0 then none
        else some (a.out, ⟨.completed, (bufs.map Iov.len).sum % 2 ^ 32, 0⟩), none, none, none⟩,
        left, false) := by
    intro all
    rw [takenBy_append] at all
    exact sending.ends positive all
  refine ⟨filled, q, ok, under, sending.rest, message_advanceBufs, taken, ?_, again, ends⟩
  constructor
  · intro done
    rcases Nat.lt_or_eq_of_le bounded with less | all
    · obtain ⟨entry, rest, complete, -⟩ := again less
      rw [complete] at done
      cases done
    · exact all
  · intro all
    obtain ⟨left, complete⟩ := ends all
    rw [complete]

/-- Three buffers, one of them empty, of which the kernel takes five bytes and then the rest. -/
theorem three_message_sent : ∃ filled q,
    IoRequest.fresh.fill ⟨1, 0, 0⟩ .taken (.sendV 3 [⟨1000, 5⟩, ⟨0, 0⟩, ⟨2000, 4⟩] 0) =
      .ok filled ∧
    (filled.submitOp ⟨1, 0, 0⟩ .taken).under (.sendV 3 [⟨1000, 5⟩, ⟨0, 0⟩, ⟨2000, 4⟩] 0)
      [⟨5, 0, .taken⟩] = some q ∧ message q.bufs = [2000, 2001, 2002, 2003] := by
  have sends : (Op.sendV 3 [⟨1000, 5⟩, ⟨0, 0⟩, ⟨2000, 4⟩] 0).message =
      some [⟨1000, 5⟩, ⟨0, 0⟩, ⟨2000, 4⟩] := rfl
  have takes : Takes 9 ([⟨5, 0, .taken⟩] ++ [⟨4, 0, .taken⟩]) :=
    ⟨by decide, rfl, by decide, rfl, trivial⟩
  obtain ⟨filled, q, ok, under, rest, -⟩ :=
    message_sent IoRequest.fresh ⟨1, 0, 0⟩ sends (by decide) (by decide) takes
  exact ⟨filled, q, ok, under, rest.trans (by decide)⟩

end JLibSched.Reactor
