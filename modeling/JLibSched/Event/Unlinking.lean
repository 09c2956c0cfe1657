import JLibSched.Event.Model

/-!
# The loop of `CancelWaiters`

The loop passes the list once.  What it has passed and kept stands before the task it looks at, and
what it has taken out hangs on the chain of victims, both in the order of the list.
-/

namespace JLibSched.Event

open Links

variable {n : Nat} {select : Fin n → Bool} {links : Doubly (Fin n)} {kept rest vs : List (Fin n)}
  {victims : Option (Fin n)} {x y : Fin n}

/-- A selected task is taken out of the list. -/
theorem taken_holds (holds : links.Holds (kept ++ x :: rest)) (nodup : (kept ++ x :: rest).Nodup) :
    ((links.unlink x).write x none none).Holds (kept ++ rest) := by
  refine (holds.unlink nodup).write (fun mem => ?_) none none
  exact (List.nodup_cons.mp (List.nodup_middle.mp nodup)).1 mem

/-- The links of other tasks stay, forwards. -/
theorem taken_next (holds : links.Holds (kept ++ x :: rest)) (other : y ≠ x) (out : y ∉ kept) :
    ((links.unlink x).write x none none).next y = links.next y :=
  (Function.update_of_ne other _ _).trans (holds.unlink_next out)

/-- What the loop leaves behind. -/
structure Unlinked (select : Fin n → Bool) (links links' : Doubly (Fin n))
    (kept rest vs : List (Fin n)) (victims : Option (Fin n)) : Prop where
  holds : links'.Holds (kept ++ rest.filter fun x => !select x)
  chain : Leads links'.next victims (vs ++ rest.filter select) none
  others : ∀ y, y ∉ kept → y ∉ rest → y ∉ vs → links'.next y = links.next y

/-- A task was kept. -/
theorem Unlinked.keep {links' : Doubly (Fin n)} (stays : select x = false)
    (unlinked : Unlinked select links links' (kept ++ [x]) rest vs victims) :
    Unlinked select links links' kept (x :: rest) vs victims where
  holds := by
    rw [List.filter_cons_of_pos (by rw [stays]; rfl)]
    have passed := unlinked.holds
    rw [List.append_assoc] at passed
    exact passed
  chain := by
    rw [List.filter_cons_of_neg (by rw [stays]; exact Bool.false_ne_true)]
    exact unlinked.chain
  others y outKept outRest outVs := by
    refine unlinked.others y (fun mem => ?_) (fun mem => ?_) outVs
    · rcases List.mem_append.mp mem with before | here
      · exact outKept before
      · exact outRest (List.mem_singleton.mp here ▸ List.mem_cons_self)
    · exact outRest (List.mem_cons_of_mem _ mem)

/-- A task was taken out and hung on the chain. -/
theorem Unlinked.take {links' links'' : Doubly (Fin n)} (chosen : select x = true)
    (unlinked : Unlinked select links' links'' kept rest (vs ++ [x]) victims)
    (same : ∀ y, y ∉ kept → y ≠ x → y ∉ vs → links'.next y = links.next y) :
    Unlinked select links links'' kept (x :: rest) vs victims where
  holds := by
    rw [List.filter_cons_of_neg (by rw [chosen]; decide)]
    exact unlinked.holds
  chain := by
    rw [List.filter_cons_of_pos chosen]
    have hung := unlinked.chain
    rw [List.append_assoc] at hung
    exact hung
  others y outKept outRest outVs := by
    have other : y ≠ x := by
      rintro rfl
      exact outRest List.mem_cons_self
    rw [unlinked.others y outKept (fun mem => outRest (List.mem_cons_of_mem _ mem)) ?_]
    · exact same y outKept other outVs
    · intro mem
      rcases List.mem_append.mp mem with before | here
      · exact outVs before
      · exact other (List.mem_singleton.mp here)

theorem unlinkLoop_spec (select : Fin n → Bool) {fuel : Nat} {victimsTail : Option (Fin n)}
    (holds : links.Holds (kept ++ rest)) (chain : Leads links.next victims vs none)
    (last : victimsTail = vs.getLast?) (nodup : (kept ++ rest ++ vs).Nodup)
    (short : rest.length ≤ fuel) :
    ∃ links' victims', unlinkLoop select fuel links victims victimsTail rest.head? =
      some (links', victims') ∧ Unlinked select links links' kept rest vs victims' := by
  induction rest generalizing fuel links kept vs victims victimsTail with
  | nil =>
    refine ⟨links, victims, ?_, ?_⟩
    · cases fuel with
      | zero => rfl
      | succ fuel => rfl
    · exact ⟨holds, by simpa using chain, fun _ _ _ _ => rfl⟩
  | cons x rest ih =>
    cases fuel with
    | zero => cases short
    | succ fuel =>
      have short' : rest.length ≤ fuel := Nat.le_of_succ_le_succ short
      have next : links.next x = rest.head? := holds.next
      obtain ⟨listed, -, apart⟩ := List.nodup_append.mp nodup
      simp only [List.head?_cons]
      unfold unlinkLoop
      cases chosen : select x with
      | false =>
        simp only [Bool.false_eq_true, if_false]
        rw [next]
        have moved : kept ++ x :: rest = kept ++ [x] ++ rest := by simp
        rw [moved] at holds nodup
        obtain ⟨links', victims', ran, unlinked⟩ := ih holds chain last nodup short'
        exact ⟨links', victims', ran, unlinked.keep chosen⟩
      | true =>
        simp only [if_true]
        rw [next]
        have left : (kept ++ rest).Nodup := (List.nodup_cons.mp
          (List.nodup_middle.mp listed)).2
        have taken : ((links.unlink x).write x none none).Holds (kept ++ rest) :=
          taken_holds holds listed
        have empty : ((links.unlink x).write x none none).next x = none :=
          Function.update_self _ _ _
        have inside {y : Fin n} (mem : y ∈ kept ++ rest) : y ∈ kept ++ x :: rest := by
          rcases List.mem_append.mp mem with before | behind
          · exact List.mem_append_left _ before
          · exact List.mem_append_right _ (List.mem_cons_of_mem _ behind)
        have outX : x ∉ vs := fun mem => apart x (by simp) x mem rfl
        -- the chain of victims is not touched
        have still {y : Fin n} (outKept : y ∉ kept) (other : y ≠ x) :
            ((links.unlink x).write x none none).next y = links.next y :=
          taken_next holds other outKept
        have nodup' : (kept ++ rest ++ (vs ++ [x])).Nodup := by
          refine (List.Perm.nodup_iff (List.perm_iff_count.mpr fun y => ?_)).mp nodup
          simp only [List.count_append, List.count_cons, List.count_nil]
          omega
        rcases List.eq_nil_or_concat vs with rfl | ⟨front, v, rfl⟩
        · rw [last]
          simp only [List.getLast?_nil]
          have hung : Leads ((links.unlink x).write x none none).next (some x) [x] none :=
            ⟨rfl, empty⟩
          obtain ⟨links', victims', ran, unlinked⟩ := ih taken hung rfl nodup' short'
          exact ⟨links', victims', ran, unlinked.take chosen
            fun y outKept other _ => still outKept other⟩
        · rw [List.concat_eq_append] at *
          rw [last, List.getLast?_append, List.getLast?_singleton, Option.some_or]
          simp only
          have outKept {y : Fin n} (mem : y ∈ front ++ [v]) : y ∉ kept ++ x :: rest :=
            fun mem' => apart y mem' y mem rfl
          have memV : v ∈ front ++ [v] := List.mem_append_right _ (List.mem_singleton_self v)
          have before : Leads ((links.unlink x).write x none none).next victims
              (front ++ [v]) none := by
            refine chain.congr fun y mem => still (fun mem' => ?_) ?_
            · exact outKept mem (List.mem_append_left _ mem')
            · rintro rfl
              exact outX mem
          have hung := before.concat (List.nodup_append.mp nodup).2.1 outX empty
          -- the last victim is not in the list
          have linked : ({ (links.unlink x).write x none none with
              next := Function.update ((links.unlink x).write x none none).next v (some x) } :
                Doubly (Fin n)).Holds (kept ++ rest) := by
            refine taken.congr rfl rfl (fun y mem => ?_) fun _ _ => rfl
            refine Function.update_of_ne ?_ _ _
            rintro rfl
            exact outKept memV (inside mem)
          have last' : some x = (front ++ [v] ++ [x]).getLast? := by
            rw [List.getLast?_append, List.getLast?_singleton, Option.some_or]
          obtain ⟨links', victims', ran, unlinked⟩ := ih linked hung last' nodup' short'
          refine ⟨links', victims', ran, unlinked.take chosen fun y out other outVs => ?_⟩
          refine (Function.update_of_ne ?_ _ _).trans (still out other)
          rintro rfl
          exact outVs memV

end JLibSched.Event
