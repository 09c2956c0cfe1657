import JLibSched.Future.Model

/-!
# The loops under the lock

The loop of `CancelWaiters` passes the list once: what it keeps stays in its order, and what it
takes stands on the other list the other way round.  The loop of `Publish` writes the status of
each waiter and no link.
-/

namespace JLibSched.Future

open Links

variable {n : Nat} {select : Fin n → Bool} {nodes : Nodes n} {kept rest vs : List (Fin n)}
  {taken link : Option (Fin n)} {x y : Fin n}

theorem follow_of_leads (leads : Leads nodes.next nodes.waiters (kept ++ rest) none)
    (last : link = kept.getLast?) : nodes.follow link = rest.head? := by
  obtain ⟨middle, front, back⟩ := leads_append.mp leads
  rw [back.head, last]
  rcases List.eq_nil_or_concat kept with rfl | ⟨before, z, rfl⟩
  · exact front
  · rw [List.concat_eq_append] at front ⊢
    obtain ⟨-, -, -, follows⟩ := leads_append.mp front
    rw [List.getLast?_append, List.getLast?_singleton, Option.some_or]
    exact follows

/-- What the loop leaves behind. -/
structure Taken (select : Fin n → Bool) (nodes nodes' : Nodes n) (kept rest vs : List (Fin n))
    (taken : Option (Fin n)) : Prop where
  list : Leads nodes'.next nodes'.waiters (kept ++ rest.filter fun x => !select x) none
  chain : Leads nodes'.next taken ((rest.filter select).reverse ++ vs) none
  token : nodes'.token = nodes.token
  status : ∀ y, nodes'.status y =
    if y ∈ rest ∧ select y = true then .cancelled else nodes.status y
  others : ∀ y, y ∉ kept → y ∉ rest → nodes'.next y = nodes.next y

/-- A waiter is kept. -/
theorem Taken.keep {nodes' : Nodes n} (stays : select x = false)
    (done : Taken select nodes nodes' (kept ++ [x]) rest vs taken) :
    Taken select nodes nodes' kept (x :: rest) vs taken where
  list := by
    rw [List.filter_cons_of_pos (by rw [stays]; rfl)]
    have passed := done.list
    rw [List.append_assoc] at passed
    exact passed
  chain := by
    rw [List.filter_cons_of_neg (by rw [stays]; exact Bool.false_ne_true)]
    exact done.chain
  token := done.token
  status y := by
    rw [done.status y]
    refine if_congr ?_ rfl rfl
    constructor
    · exact fun ⟨mem, chosen⟩ => ⟨List.mem_cons_of_mem x mem, chosen⟩
    · rintro ⟨mem, chosen⟩
      rcases List.mem_cons.mp mem with rfl | behind
      · rw [stays] at chosen
        cases chosen
      · exact ⟨behind, chosen⟩
  others y outKept outRest := by
    refine done.others y (fun mem => ?_) fun mem => outRest (List.mem_cons_of_mem x mem)
    rcases List.mem_append.mp mem with before | here
    · exact outKept before
    · exact outRest (List.mem_singleton.mp here ▸ List.mem_cons_self)

/-- A waiter was taken. -/
theorem Taken.take {nodes' nodes'' : Nodes n} (chosen : select x = true)
    (done : Taken select nodes' nodes'' kept rest (x :: vs) taken)
    (token : nodes'.token = nodes.token)
    (status : nodes'.status = Function.update nodes.status x .cancelled)
    (others : ∀ y, y ∉ kept → y ≠ x → nodes'.next y = nodes.next y) :
    Taken select nodes nodes'' kept (x :: rest) vs taken where
  list := by
    rw [List.filter_cons_of_neg (by rw [chosen]; decide)]
    exact done.list
  chain := by
    rw [List.filter_cons_of_pos chosen, List.reverse_cons, List.append_assoc]
    exact done.chain
  token := done.token.trans token
  status y := by
    rw [done.status y, status]
    by_cases inRest : y ∈ rest ∧ select y = true
    · rw [if_pos inRest, if_pos ⟨List.mem_cons_of_mem x inRest.1, inRest.2⟩]
    · rw [if_neg inRest]
      rcases eq_or_ne y x with rfl | other
      · rw [Function.update_self, if_pos ⟨List.mem_cons_self, chosen⟩]
      · rw [Function.update_of_ne other, if_neg]
        rintro ⟨mem, chosen'⟩
        rcases List.mem_cons.mp mem with same | behind
        · exact other same
        · exact inRest ⟨behind, chosen'⟩
  others y outKept outRest := by
    have other : y ≠ x := by
      rintro rfl
      exact outRest List.mem_cons_self
    rw [done.others y outKept fun mem => outRest (List.mem_cons_of_mem x mem)]
    exact others y outKept other

/-- What taking one waiter does. -/
theorem take_spec (leads : Leads nodes.next nodes.waiters (kept ++ x :: rest) none)
    (chain : Leads nodes.next taken vs none) (last : link = kept.getLast?)
    (nodup : (kept ++ x :: rest ++ vs).Nodup) :
    Leads (nodes.take link x taken).next (nodes.take link x taken).waiters (kept ++ rest) none ∧
      Leads (nodes.take link x taken).next (some x) (x :: vs) none ∧
      ∀ y, y ∉ kept → y ≠ x → (nodes.take link x taken).next y = nodes.next y := by
  obtain ⟨middle, front, rfl, back⟩ := leads_append.mp leads
  have counts := List.nodup_iff_count_le_one.mp nodup
  have outX {l : List (Fin n)} (part : ∀ y, l.count y ≤ kept.count y + rest.count y + vs.count y) :
      x ∉ l := by
    intro mem
    have once := counts x
    have some' := List.count_pos_iff.mpr mem
    have whole := part x
    simp only [List.count_append, List.count_cons_self] at once
    omega
  have outKept : x ∉ kept := outX fun y => by omega
  have outRest : x ∉ rest := outX fun y => by omega
  have outVs : x ∉ vs := outX fun y => by omega
  rcases List.eq_nil_or_concat kept with rfl | ⟨before, z, rfl⟩
  · cases last
    refine ⟨?_, ⟨rfl, ?_⟩, fun y _ other => Function.update_of_ne other _ _⟩
    · exact back.write outRest _
    · simp only [Nodes.take, Nodes.setLink, Function.update_self]
      exact chain.write outVs _
  · rw [List.concat_eq_append] at *
    rw [List.getLast?_append, List.getLast?_singleton, Option.some_or] at last
    cases last
    obtain ⟨middle', front', rfl, -⟩ := leads_append.mp front
    -- the link that is written belongs to the last waiter kept
    have outZ {l : List (Fin n)}
        (part : ∀ y, l.count y ≤ before.count y + rest.count y + vs.count y) : z ∉ l := by
      intro mem
      have once := counts z
      have some' := List.count_pos_iff.mpr mem
      have whole := part z
      have self : List.count z [z] = 1 := List.count_singleton_self
      rw [List.count_append, List.count_append, List.count_append, self, List.count_cons] at once
      omega
    have apart : z ≠ x := by
      rintro rfl
      exact outKept (List.mem_append_right _ (List.mem_singleton_self z))
    have written (y : Fin n) (otherX : y ≠ x) (otherZ : y ≠ z) :
        (nodes.take (some z) x taken).next y = nodes.next y := by
      simp only [Nodes.take, Nodes.setLink]
      rw [Function.update_of_ne otherX, Function.update_of_ne otherZ]
    have linked : (nodes.take (some z) x taken).next z = nodes.next x := by
      simp only [Nodes.take, Nodes.setLink]
      rw [Function.update_of_ne apart, Function.update_self]
    have still {l : List (Fin n)} (withoutX : x ∉ l) (withoutZ : z ∉ l) (y : Fin n) (mem : y ∈ l) :
        (nodes.take (some z) x taken).next y = nodes.next y := by
      refine written y ?_ ?_
      · rintro rfl
        exact withoutX mem
      · rintro rfl
        exact withoutZ mem
    refine ⟨?_, ⟨rfl, ?_⟩, fun y out other => ?_⟩
    · rw [List.append_assoc, leads_append]
      refine ⟨some z, ?_, rfl, ?_⟩
      · refine front'.congr (still (fun mem => ?_) (outZ fun y => by omega))
        exact outKept (List.mem_append_left _ mem)
      · rw [linked]
        exact back.congr (still outRest (outZ fun y => by omega))
    · have first : (nodes.take (some z) x taken).next x = taken := by
        simp only [Nodes.take, Function.update_self]
      rw [first]
      exact chain.congr (still outVs (outZ fun y => by omega))
    · refine written y other ?_
      rintro rfl
      exact out (List.mem_append_right _ (List.mem_singleton_self y))

theorem takeLoop_spec (select : Fin n → Bool) {fuel : Nat}
    (leads : Leads nodes.next nodes.waiters (kept ++ rest) none)
    (chain : Leads nodes.next taken vs none) (last : link = kept.getLast?)
    (nodup : (kept ++ rest ++ vs).Nodup) (short : rest.length ≤ fuel) :
    ∃ nodes' taken', takeLoop select fuel nodes link taken = some (nodes', taken') ∧
      Taken select nodes nodes' kept rest vs taken' := by
  induction rest generalizing fuel nodes kept vs taken link with
  | nil =>
    have ends := follow_of_leads leads last
    refine ⟨nodes, taken, ?_, ?_⟩
    · unfold takeLoop
      rw [ends]
      rfl
    · exact ⟨by simpa using leads, by simpa using chain, rfl, fun y => by simp, fun _ _ _ => rfl⟩
  | cons x rest ih =>
    have here := follow_of_leads leads last
    cases fuel with
    | zero => cases short
    | succ fuel =>
      have short' : rest.length ≤ fuel := Nat.le_of_succ_le_succ short
      unfold takeLoop
      rw [here]
      simp only [List.head?_cons]
      cases chosen : select x with
      | false =>
        have moved : kept ++ x :: rest = kept ++ [x] ++ rest := by simp
        rw [moved] at leads nodup
        have last' : some x = (kept ++ [x]).getLast? := by
          rw [List.getLast?_append, List.getLast?_singleton, Option.some_or]
        obtain ⟨nodes', taken', ran, done⟩ := ih leads chain last' nodup short'
        exact ⟨nodes', taken', ran, done.keep chosen⟩
      | true =>
        obtain ⟨list, chain', others⟩ := take_spec leads chain last nodup
        have nodup' : (kept ++ rest ++ x :: vs).Nodup := by
          refine (List.Perm.nodup_iff (List.perm_iff_count.mpr fun y => ?_)).mp nodup
          simp only [List.count_append, List.count_cons]
          omega
        obtain ⟨nodes', taken', ran, done⟩ := ih list chain' last nodup' short'
        refine ⟨nodes', taken', ran, done.take chosen ?_ ?_ others⟩
        · cases link with
          | none => rfl
          | some z => rfl
        · cases link with
          | none => rfl
          | some z => rfl

/-- The loop of `Publish` writes the status of the waiters. -/
theorem tellLoop_spec (told : FutureStatus) {fuel : Nat} {first : Option (Fin n)}
    {l : List (Fin n)} (leads : Leads nodes.next first l none) (short : l.length ≤ fuel) :
    ∃ nodes', tellLoop told fuel nodes first = some nodes' ∧ nodes'.next = nodes.next ∧
      nodes'.waiters = nodes.waiters ∧ nodes'.token = nodes.token ∧
      ∀ y, nodes'.status y = if y ∈ l then told else nodes.status y := by
  induction l generalizing fuel nodes first with
  | nil =>
    cases leads
    refine ⟨nodes, ?_, rfl, rfl, rfl, fun y => by simp⟩
    cases fuel with
    | zero => rfl
    | succ fuel => rfl
  | cons x l ih =>
    obtain ⟨rfl, rest⟩ := leads
    cases fuel with
    | zero => cases short
    | succ fuel =>
      have rest' : Leads { nodes with status := Function.update nodes.status x told }.next
          (nodes.next x) l none := rest
      obtain ⟨nodes', ran, next, waiters, token, status⟩ :=
        ih rest' (Nat.le_of_succ_le_succ short)
      refine ⟨nodes', ran, next, waiters, token, fun y => ?_⟩
      rw [status y]
      by_cases behind : y ∈ l
      · rw [if_pos behind, if_pos (List.mem_cons_of_mem x behind)]
      · rw [if_neg behind]
        simp only
        rcases eq_or_ne y x with rfl | other
        · rw [Function.update_self, if_pos List.mem_cons_self]
        · rw [Function.update_of_ne other, if_neg]
          intro mem
          rcases List.mem_cons.mp mem with same | inside
          · exact other same
          · exact behind inside

end JLibSched.Future
