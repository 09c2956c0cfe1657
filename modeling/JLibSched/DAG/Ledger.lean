import JLibSched.DAG.Delivery

/-!
# What the counter of a node counts

`dependencies_left` is the number of edges that were counted and not taken off again.  An edge
that is still to be delivered is among them.  Only a delivery as completed to an AND node takes
an edge off.
-/

namespace JLibSched.DAG

open Transition Stacks

variable {n : Nat} {s t : State n}

/-- Frames with an edge that is not counted yet. -/
@[grind =] def uncounted (e : Edge) : Frame → Nat
  | .addCount e' _ => if e' = e then 1 else 0
  | _ => 0

/-- The counted edge a frame has in hand. -/
def Counts (sh : Shared) : Frame → Prop
  | .deliver e _ | .addLoad e _ | .addCas e _ _ => e ∈ (sh.node e.dep).counted
  | _ => True

structure Ledger (s : State n) : Prop where
  left : ∀ d, (s.shared.node d).left = (s.shared.node d).counted.length
  counts : All (Counts s.shared) s.stack
  lists : ∀ d, ∀ e ∈ (s.shared.node d).undelivered, e ∈ (s.shared.node e.dep).counted
  dep : ∀ d, ∀ e ∈ (s.shared.node d).counted, e.dep = d
  once : ∀ e, (s.shared.node e.dep).counted.count e + total (uncounted e) s.stack ≤
    s.shared.created.count e

theorem initial_ledger : Ledger (initial n) where
  left := fun _ => rfl
  counts := fun _ _ none => by cases none
  lists := fun _ _ none => by cases none
  dep := fun _ _ none => by cases none
  once := fun e => by rw [total_empty _ (initial n).stack fun _ => rfl]; exact Nat.zero_le _

theorem Counts.congr {sh sh' : Shared} {f : Frame} (counts : Counts sh f)
    (kept : ∀ d, ∀ e ∈ (sh.node d).counted, carries e f ≠ 0 → e ∈ (sh'.node d).counted) :
    Counts sh' f := by
  cases f with
  | deliver e | addLoad e | addCas e => exact kept _ e counts (by simp [carries])
  | _ => trivial

/-- Only a delivery takes an edge off, and only its own. -/
theorem move_counted {sh sh' : Shared} {old new : List Frame} (move : Move sh old sh' new)
    (d : Nat) {e : Edge} (mem : e ∈ (sh.node d).counted)
    (other : ∀ outcome, old ≠ [.deliver e outcome]) : e ∈ (sh'.node d).counted := by
  cases move with
  | @deliverLast e' | @deliverCount e' =>
    have different : e ≠ e' := by
      rintro rfl
      exact other _ rfl
    grind
  | _ => grind [Shared.reject]

theorem Ledger.move_counts {i : Fin n} {old rest new : List Frame} {sh : Shared}
    (ledger : Ledger s) (delivery : Delivery s) (here : s.stack i = old ++ rest)
    (move : Move s.shared old sh new) : All (Counts sh) (replace s.stack i new rest) := by
  have top : ∀ f ∈ old, Counts s.shared f := fun f mem =>
    ledger.counts i f (by rw [here]; exact List.mem_append_left _ mem)
  have lists := ledger.lists
  have keep (still : ∀ e outcome, old ≠ [.deliver e outcome]) (f : Frame)
      (counts : Counts s.shared f) : Counts sh f :=
    counts.congr fun d e mem _ => move_counted move d mem (still e)
  have one {e : Edge} (outcome : Outcome) (mine : old = [.deliver e outcome]) (f : Frame)
      (counts : Counts s.shared f) (light : carries e f = 0) : Counts sh f := by
    refine counts.congr fun d e' mem carried => move_counted move d mem fun outcome' same => ?_
    rw [mine] at same
    cases same
    exact carried light
  cases move with
  | @walkNext d outcome g head e tail done more =>
    obtain ⟨new, todo, -, -, undelivered, -⟩ := delivery.walk_next here more
    refine ledger.counts.replace here ?_ (keep (by simp))
    intro f mem
    simp only [List.mem_cons, List.not_mem_nil, or_false] at mem
    rcases mem with rfl | rfl
    · have counted := lists d e (by rw [undelivered]; simp)
      show e ∈ _
      grind
    · trivial
  | @addCount e g =>
    refine ledger.counts.replace here ?_ (keep (by simp))
    intro f mem
    rw [List.mem_singleton] at mem
    subst mem
    show e ∈ _
    grind
  | @addLoad e g | @addRetry e g _ =>
    have counted : e ∈ (s.shared.node e.dep).counted := top _ List.mem_cons_self
    refine ledger.counts.replace here ?_ (keep (by simp))
    intro f mem
    unfold addHead at mem
    split at mem <;> simp only [List.mem_cons, List.not_mem_nil, or_false] at mem
    · rcases mem with rfl | rfl
      · exact counted
      · trivial
    · subst mem
      exact counted
  | @deliverLast e | @deliverCount e =>
    have place := delivery.one_place e
    refine ledger.counts.replace_single here (w := carries e) (by omega) (by simp [carries])
      ?_ (one .completed rfl)
    simp [Counts]
  | @deliverCancelled e | @deliverOr e =>
    refine ledger.counts.replace here ?_ fun f counts => counts
    simp [Counts]
  | _ =>
    refine ledger.counts.replace here ?_ (keep (by simp))
    simp [Counts]

theorem move_left {sh sh' : Shared} {old new : List Frame} (move : Move sh old sh' new)
    (top : ∀ f ∈ old, Counts sh f) (d : Nat)
    (left : (sh.node d).left = (sh.node d).counted.length) :
    (sh'.node d).left = (sh'.node d).counted.length := by
  cases move with
  | @deliverLast e | @deliverCount e =>
    have counted : e ∈ (sh.node e.dep).counted := top _ List.mem_cons_self
    have positive := List.length_pos_of_mem counted
    have shorter := List.length_erase_of_mem counted
    rcases eq_or_ne d e.dep with rfl | other
    · simp only [modify_node, if_true]
      omega
    · rw [modify_of_ne other]
      exact left
  | _ => grind [Shared.reject]

theorem move_counted_once {sh sh' : Shared} {old new : List Frame} (move : Move sh old sh' new)
    (e : Edge) :
    (sh'.node e.dep).counted.count e + (new.map (uncounted e)).sum + sh.created.count e ≤
      (sh.node e.dep).counted.count e + (old.map (uncounted e)).sum + sh'.created.count e := by
  cases move with
  | addLoad | addRetry =>
    rw [addHead_sum _ fun _ _ _ _ => ⟨rfl, rfl, rfl⟩]
    simp [uncounted]
  | @deliverLast e' | @deliverCount e' =>
    have shorter := (List.erase_sublist (a := e') (l := (sh.node e'.dep).counted)).count_le e
    grind
  | _ => grind [Shared.reject]

/-- An edge comes into a list only by being linked. -/
theorem move_undelivered {sh sh' : Shared} {old new : List Frame} (move : Move sh old sh' new)
    {d : Nat} {e : Edge} (mem : e ∈ (sh'.node d).undelivered) :
    e ∈ (sh.node d).undelivered ∨ ∃ g head, old = [.addCas e g head] := by
  cases move with
  | @addLink e' g head same =>
    rcases eq_or_ne d e'.source with rfl | other
    · simp only [modify_node, if_true, List.mem_cons] at mem
      rcases mem with rfl | before
      · exact .inr ⟨g, head, rfl⟩
      · exact .inl before
    · rw [modify_of_ne other] at mem
      exact .inl mem
  | _ => grind [Shared.reject, List.mem_of_mem_erase]

theorem Ledger.move {i : Fin n} {old rest new : List Frame} {sh : Shared}
    (ledger : Ledger s) (delivery : Delivery s) (here : s.stack i = old ++ rest)
    (move : Move s.shared old sh new) : Ledger ⟨sh, replace s.stack i new rest⟩ := by
  have top : ∀ f ∈ old, Counts s.shared f := fun f mem =>
    ledger.counts i f (by rw [here]; exact List.mem_append_left _ mem)
  refine ⟨fun d => move_left move top d (ledger.left d), ledger.move_counts delivery here move,
    fun d e mem => ?_, fun d e mem => ?_, fun e => ?_⟩ <;> dsimp only at *
  · have counted : e ∈ (s.shared.node e.dep).counted := by
      rcases move_undelivered move mem with before | ⟨g, head, rfl⟩
      · exact ledger.lists d e before
      · exact top _ List.mem_cons_self
    refine move_counted move e.dep counted fun outcome mine => ?_
    -- An edge that is being delivered is in no list.
    subst mine
    have place := delivery.one_place e
    have carried := le_total (carries e) (show Frame.deliver e outcome ∈ s.stack i by
      rw [here]; exact List.mem_append_left _ List.mem_cons_self)
    rcases move_undelivered move mem with before | ⟨g, head, other⟩
    · have listed := List.count_pos_iff.mpr before
      rw [delivery.source d e before] at place
      simp only [carries, if_true] at carried
      omega
    · cases other
  · have dep := ledger.dep d e
    cases move <;> grind [Shared.reject, List.mem_of_mem_erase]
  · have frames := total_replace (uncounted e) new here
    have once := ledger.once e
    have change := move_counted_once move e
    omega

theorem Ledger.create {kind : Kind} {task : Bool} {sh : Shared} (ledger : Ledger s)
    (known : Known s) (made : create s.shared kind task = some sh) :
    Ledger (n := n) ⟨sh, s.stack⟩ := by
  unfold DAG.create at made
  split at made
  · cases made
  cases made
  have blank := known.blank s.shared.count (Nat.le_refl _)
  have same (d : Nat) :
      (Function.update s.shared.node s.shared.count (Node.new kind task) d).left =
        (s.shared.node d).left ∧
      (Function.update s.shared.node s.shared.count (Node.new kind task) d).undelivered =
        (s.shared.node d).undelivered ∧
      (Function.update s.shared.node s.shared.count (Node.new kind task) d).counted =
        (s.shared.node d).counted := by
    rcases eq_or_ne d s.shared.count with rfl | other
    · rw [Function.update_self, blank]
      exact ⟨rfl, rfl, rfl⟩
    · rw [Function.update_of_ne other]
      exact ⟨rfl, rfl, rfl⟩
  refine ⟨fun d => ?_, fun j f mem => (ledger.counts j f mem).congr fun d e inside _ => ?_,
    fun d => ?_, fun d => ?_, fun e => ?_⟩ <;> dsimp only
  · rw [(same d).1, (same d).2.2]
    exact ledger.left d
  · rw [(same d).2.2]
    exact inside
  · rw [(same d).2.1]
    intro e mem
    rw [(same e.dep).2.2]
    exact ledger.lists d e mem
  · rw [(same d).2.2]
    exact ledger.dep d
  · rw [(same e.dep).2.2]
    exact ledger.once e

theorem Ledger.free {d : Nat} {sh : Shared} (ledger : Ledger s)
    (freed : free s.shared d = some sh) : Ledger (n := n) ⟨sh, s.stack⟩ := by
  obtain ⟨guards, -, -, rfl⟩ := free_eq freed
  have left := ledger.left
  have lists := ledger.lists
  have dep := ledger.dep
  have once := ledger.once
  refine ⟨?_, fun j f mem => (ledger.counts j f mem).congr (by grind), ?_, ?_, ?_⟩ <;>
    dsimp only <;> grind

theorem reach_ledger : ∀ {s : State n}, Reach step anyStep (initial n) s →
    s.shared.rejected = false → Ledger s := by
  refine Reach.invariant_of
    (J := fun s => Known s ∧ (s.shared.rejected = false → Delivery s))
    (I := fun s => s.shared.rejected = false → Ledger s)
    (fun reach => ⟨reach_known reach, reach_delivery reach⟩) (fun _ => initial_ledger) ?_
  rintro s t a ⟨known, delivery⟩ ledger - stepped accepted
  rcases step_cases stepped with ⟨_, _, _, made, rfl⟩ |
    ⟨i, old, rest, sh, new, here, move, -, rfl⟩ | ⟨_, _, freed, rfl⟩
  · have same := create_rejected made
    exact (ledger (same ▸ accepted)).create known made
  · have before := move_rejected move accepted
    exact (ledger before).move (delivery before) here move
  · obtain ⟨guards, -, -, rfl⟩ := free_eq freed
    exact (ledger accepted).free freed

end JLibSched.DAG
