import JLibSched.DAG.Tokens

/-!
# Every edge is delivered once

A node that has entered `OnTaskFinished` has one walker until its list is sealed.  The list is
always some new edges in front of the head the walker last read; the walker has still to
deliver the new edges and those from its place down to where it stopped before.  An edge is on
its way in `AddDependency`, in such a list, in a delivery, or delivered, and always in exactly
one of these.
-/

namespace JLibSched.DAG

open Transition Stacks

variable {n : Nat} {s t : State n}

/-- Frames that walk the list of a node. -/
@[grind =] def walks (d : Nat) : Frame → Nat
  | .walk m _ _ _ _ _ | .trySeal m _ _ _ => if m = d then 1 else 0
  | _ => 0

/-- Frames that have an edge in hand. -/
@[grind =] def carries (e : Edge) : Frame → Nat
  | .deliver e' _ | .addCount e' _ | .addLoad e' _ | .addCas e' _ _ => if e' = e then 1 else 0
  | _ => 0

/-- What a frame knows of the list it works on. -/
def Reads (sh : Shared) : Frame → Prop
  | .walk d _ _ head cur done => ∃ new todo, (sh.node d).firstEdge = ⟨new ++ head.edges, false, false⟩ ∧
      cur = todo ++ done ∧ (sh.node d).undelivered = new ++ todo
  | .trySeal d _ _ head => ∃ new, (sh.node d).firstEdge = ⟨new ++ head.edges, false, false⟩ ∧
      (sh.node d).undelivered = new
  | .addCas _ _ head => head.isSealed = false ∧ head.isCancelled = false
  | _ => True

structure Delivery (s : State n) : Prop where
  walkers : ∀ d, total (walks d) s.stack + (s.shared.node d).firstEdge.isSealed.toNat =
    (s.shared.node d).finished.length
  reads : All (Reads s.shared) s.stack
  unfinished : ∀ d, (s.shared.node d).finished = [] →
    (s.shared.node d).firstEdge = ⟨(s.shared.node d).undelivered, false, false⟩
  isSealed : ∀ d, (s.shared.node d).firstEdge.isSealed = true →
    (s.shared.node d).undelivered = []
  tag : ∀ d, (s.shared.node d).firstEdge.isSealed = false →
    (s.shared.node d).firstEdge.isCancelled = false
  source : ∀ d, ∀ e ∈ (s.shared.node d).undelivered, e.source = d
  once : ∀ e, total (carries e) s.stack + (s.shared.node e.source).undelivered.count e +
    s.shared.delivered e = s.shared.created.count e
  ids : ∀ i (h : i < s.shared.created.length), s.shared.created[i].id = i

theorem initial_delivery : Delivery (initial n) where
  walkers := fun d => by rw [total_empty _ (initial n).stack fun _ => rfl]; rfl
  reads := fun _ _ none => by cases none
  unfinished := fun _ _ => rfl
  isSealed := fun _ _ => rfl
  tag := fun _ _ => rfl
  source := fun _ _ none => by cases none
  once := fun e => by rw [total_empty _ (initial n).stack fun _ => rfl]; rfl
  ids := fun _ none => absurd none (Nat.not_lt_zero _)

/-! ## Counts -/

theorem Delivery.nodup (delivery : Delivery s) : s.shared.created.Nodup := by
  rw [List.nodup_iff_injective_getElem]
  intro i j same
  have left := delivery.ids i.val i.isLt
  have right := delivery.ids j.val j.isLt
  have equal : s.shared.created[i.val] = s.shared.created[j.val] := same
  rw [equal, right] at left
  exact Fin.ext left.symm

/-- An edge is in one place at most. -/
theorem Delivery.one_place (delivery : Delivery s) (e : Edge) :
    total (carries e) s.stack + (s.shared.node e.source).undelivered.count e +
      s.shared.delivered e ≤ 1 := by
  rw [delivery.once e]
  exact List.nodup_iff_count_le_one.mp delivery.nodup e

theorem Delivery.one_walker (delivery : Delivery s) (tokens : Tokens s) (d : Nat) :
    total (walks d) s.stack ≤ 1 := by
  have walkers := delivery.walkers d
  have held := tokens.elsewhere_le d
  simp only [Node.elsewhere] at held
  omega

theorem addHead_walks (d : Nat) (e : Edge) (g : Nat) (head : Head) :
    ((addHead e g head).map (walks d)).sum = 0 :=
  addHead_sum _ (fun _ _ _ _ => ⟨rfl, rfl, rfl⟩) e g head

theorem addHead_carries (e e' : Edge) (g : Nat) (head : Head) :
    ((addHead e g head).map (carries e')).sum = if e = e' then 1 else 0 := by
  unfold addHead
  split <;> simp [carries]

theorem move_walkers {sh sh' : Shared} {old new : List Frame} {d : Nat}
    (move : Move sh old sh' new) (reads : ∀ f ∈ old, Reads sh f)
    (bound : (old.map (walks d)).sum + (sh.node d).firstEdge.isSealed.toNat ≤ 1)
    (accepted : sh'.rejected = false) :
    (new.map (walks d)).sum + (sh'.node d).firstEdge.isSealed.toNat +
        (sh.node d).finished.length =
      (old.map (walks d)).sum + (sh.node d).firstEdge.isSealed.toNat +
        (sh'.node d).finished.length := by
  cases move with
  | reject => cases accepted
  | addLoad | addRetry =>
    rw [addHead_walks]
    simp [walks]
  | @addLink e g head same =>
    have unsealed := reads (.addCas e g head) List.mem_cons_self
    simp only [Reads] at unsealed
    grind
  | _ => grind

/-- Taking one edge off a list that has it changes only that edge's count. -/
theorem count_erase_add {l : List Edge} {e : Edge} (e' : Edge) (mem : e ∈ l) :
    (l.erase e).count e' + (if e = e' then 1 else 0) = l.count e' := by
  have positive : 0 < l.count e := List.count_pos_iff.mpr mem
  rw [List.count_erase]
  by_cases same : e = e'
  · subst same
    simp only [BEq.rfl, if_true]
    omega
  · simp [same]

theorem move_once {sh sh' : Shared} {old new : List Frame} (e' : Edge)
    (move : Move sh old sh' new) (accepted : sh'.rejected = false)
    (next : ∀ d outcome g head e rest done,
      old = [.walk d outcome g head (e :: rest) done] → e :: rest ≠ done →
        e ∈ (sh.node d).undelivered ∧ e.source = d) :
    (new.map (carries e')).sum + (sh'.node e'.source).undelivered.count e' + sh'.delivered e' +
        sh.created.count e' =
      (old.map (carries e')).sum + (sh.node e'.source).undelivered.count e' + sh.delivered e' +
        sh'.created.count e' := by
  cases move with
  | reject => cases accepted
  | addLoad | addRetry =>
    rw [addHead_carries]
    simp [carries]
  | @walkNext d outcome g head e rest done more =>
    obtain ⟨mem, source⟩ := next d outcome g head e rest done rfl more
    have counts := count_erase_add e' mem
    grind
  | _ => grind

/-! ## Lists -/

theorem Reads.congr {sh sh' : Shared} {f : Frame} (reads : Reads sh f)
    (first : ∀ d, (sh'.node d).firstEdge = (sh.node d).firstEdge)
    (undelivered : ∀ d, (sh'.node d).undelivered = (sh.node d).undelivered) : Reads sh' f := by
  cases f with
  | walk d | trySeal d =>
    simp only [Reads, first, undelivered] at reads ⊢
    exact reads
  | addCas e g head => exact reads
  | _ => trivial

/-- A frame that does not walk a node does not mind what becomes of its list. -/
theorem Reads.elsewhere {sh : Shared} {d : Nat} {f : Frame} {change : Node → Node}
    (reads : Reads sh f) (other : walks d f = 0) : Reads (sh.modify d change) f := by
  cases f with
  | walk m | trySeal m =>
    have different : m ≠ d := by
      rintro rfl
      simp [walks] at other
    simp only [Reads, modify_of_ne different] at reads ⊢
    exact reads
  | addCas e g head => exact reads
  | _ => trivial

/-- A new edge in front of a list is new to its walker too. -/
theorem Reads.link {sh : Shared} {e : Edge} {f : Frame} (reads : Reads sh f) :
    Reads (sh.modify e.source fun x =>
      { x with firstEdge := ⟨e :: (sh.node e.source).firstEdge.edges, false, false⟩,
               undelivered := e :: x.undelivered }) f := by
  cases f with
  | walk m outcome g head cur done =>
    rcases eq_or_ne m e.source with rfl | other
    · obtain ⟨new, todo, first, place, undelivered⟩ := reads
      refine ⟨e :: new, todo, ?_, place, ?_⟩
      · simp [modify_node, first]
      · simp [modify_node, undelivered]
    · exact Reads.elsewhere reads (by simp [walks, other])
  | trySeal m outcome g head =>
    rcases eq_or_ne m e.source with rfl | other
    · obtain ⟨new, first, undelivered⟩ := reads
      refine ⟨e :: new, ?_, ?_⟩
      · simp [modify_node, first]
      · simp [modify_node, undelivered]
    · exact Reads.elsewhere reads (by simp [walks, other])
  | addCas e g head => exact reads
  | _ => trivial

/-- The next edge of a walk is undelivered, and taking it leaves the rest in order. -/
theorem Delivery.walk_next {i : Fin n} {d g : Nat} {outcome : Outcome} {head : Head} {e : Edge}
    {tail done : List Edge} {below : List Frame} (delivery : Delivery s)
    (here : s.stack i = .walk d outcome g head (e :: tail) done :: below)
    (more : e :: tail ≠ done) :
    ∃ new todo, (s.shared.node d).firstEdge = ⟨new ++ head.edges, false, false⟩ ∧
      tail = todo ++ done ∧ (s.shared.node d).undelivered = new ++ e :: todo ∧
      (s.shared.node d).undelivered.erase e = new ++ todo ∧ e.source = d := by
  obtain ⟨new, todo, first, place, undelivered⟩ :=
    delivery.reads i _ (by rw [here]; exact List.mem_cons_self)
  cases todo with
  | nil => exact absurd place more
  | cons e' todo =>
    simp only [List.cons_append, List.cons.injEq] at place
    obtain ⟨rfl, place⟩ := place
    have source : e.source = d := delivery.source d e (by rw [undelivered]; simp)
    have once := delivery.one_place e
    rw [source, undelivered, List.count_append, List.count_cons_self] at once
    have absent : e ∉ new := by
      intro mem
      have positive := List.count_pos_iff.mpr mem
      omega
    refine ⟨new, todo, first, place, undelivered, ?_, source⟩
    rw [undelivered, List.erase_append_right _ absent, List.erase_cons_head]

/-- The frames whose step may change a node's list, or what is undelivered of it. -/
def Frame.editsList : Frame → Bool
  | .walk .. | .trySeal .. | .addCas .. => true
  | _ => false

theorem move_list_same {sh sh' : Shared} {old new : List Frame} (move : Move sh old sh' new)
    (quiet : ∀ f ∈ old, f.editsList = false) (d : Nat) :
    (sh'.node d).firstEdge = (sh.node d).firstEdge ∧
      (sh'.node d).undelivered = (sh.node d).undelivered := by
  cases move with
  | walkNext | sealed | addLink => simp [Frame.editsList] at quiet
  | _ => grind [Shared.reject]

theorem Delivery.move_reads {i : Fin n} {old rest new : List Frame} {sh : Shared}
    (delivery : Delivery s) (tokens : Tokens s) (here : s.stack i = old ++ rest)
    (move : Move s.shared old sh new) (accepted : sh.rejected = false) :
    All (Reads sh) (replace s.stack i new rest) := by
  have top : ∀ f ∈ old, Reads s.shared f := fun f mem =>
    delivery.reads i f (by rw [here]; exact List.mem_append_left _ mem)
  have tag := delivery.tag
  have frame := move_list_same move
  cases move with
  | reject => cases accepted
  | @enter d outcome =>
    have bound := tokens.elsewhere_le d
    have mine := le_total (holds d) (show Frame.enter d outcome ∈ s.stack i by
      rw [here]; exact List.mem_append_left _ List.mem_cons_self)
    simp only [holds, if_true, Node.elsewhere] at mine bound
    have fresh : (s.shared.node d).finished = [] := List.length_eq_zero_iff.mp (by omega)
    have whole := delivery.unfinished d fresh
    have quiet := frame (by simp [Frame.editsList])
    refine delivery.reads.replace here ?_ fun f reads =>
      reads.congr (fun m => (quiet m).1) fun m => (quiet m).2
    intro f mem
    rw [List.mem_singleton] at mem
    subst mem
    refine ⟨[], (s.shared.node d).firstEdge.edges, ?_, by simp, ?_⟩
    · simp [modify_node, whole]
    · simp [modify_node, whole]
  | @walkEnd d outcome g head done =>
    refine delivery.reads.replace here ?_ fun f reads => reads
    intro f mem
    rw [List.mem_singleton] at mem
    subst mem
    obtain ⟨new, todo, first, place, undelivered⟩ := top _ List.mem_cons_self
    obtain rfl : todo = [] := by simpa using place.symm
    exact ⟨new, first, by simpa using undelivered⟩
  | @walkNext d outcome g head e tail done more =>
    obtain ⟨new, todo, first, place, undelivered, erased, source⟩ :=
      delivery.walk_next here more
    refine delivery.reads.replace_single here (delivery.one_walker tokens d) (by simp [walks])
      ?_ fun f reads other => reads.elsewhere other
    intro f mem
    simp only [List.mem_cons, List.not_mem_nil, or_false] at mem
    rcases mem with rfl | rfl
    · trivial
    · exact ⟨new, todo, by simpa [modify_node] using first, place, by simpa [modify_node] using erased⟩
  | @sealed d outcome g head same =>
    refine delivery.reads.replace_single here (delivery.one_walker tokens d) (by simp [walks])
      ?_ fun f reads other => reads.elsewhere other
    intro f mem
    simp only [List.mem_cons, List.not_mem_nil, or_false] at mem
    rcases mem with rfl | rfl <;> trivial
  | @sealRetry d outcome g head =>
    refine delivery.reads.replace here ?_ fun f reads => reads
    intro f mem
    rw [List.mem_singleton] at mem
    subst mem
    obtain ⟨new, first, undelivered⟩ := top _ List.mem_cons_self
    exact ⟨[], new, by simp [first], by simp [first], by simpa using undelivered⟩
  | @addLink e g head same =>
    subst same
    refine delivery.reads.replace here ?_ fun f reads => reads.link
    intro f mem
    rw [List.mem_singleton] at mem
    subst mem
    trivial
  | @addLoad e g | @addRetry e g =>
    refine delivery.reads.replace here ?_ fun f reads => reads
    intro f mem
    unfold addHead at mem
    split at mem
    · simp only [List.mem_cons, List.not_mem_nil, or_false] at mem
      rcases mem with rfl | rfl <;> trivial
    · rename_i unsealed
      rw [List.mem_singleton] at mem
      subst mem
      have open' : (s.shared.node e.source).firstEdge.isSealed = false := by simpa using unsealed
      exact ⟨open', tag _ open'⟩
  | _ =>
    have quiet := frame (by simp [Frame.editsList])
    refine delivery.reads.replace here ?_ fun f reads =>
      reads.congr (fun m => (quiet m).1) fun m => (quiet m).2
    simp [Reads]

/-- A node's list and what is undelivered of it, over a move. -/
theorem Delivery.move_lists {i : Fin n} {old rest new : List Frame} {sh : Shared}
    (delivery : Delivery s) (here : s.stack i = old ++ rest) (move : Move s.shared old sh new)
    (accepted : sh.rejected = false) (d : Nat) :
    ((sh.node d).finished = [] →
      (sh.node d).firstEdge = ⟨(sh.node d).undelivered, false, false⟩) ∧
    ((sh.node d).firstEdge.isSealed = true → (sh.node d).undelivered = []) ∧
    ((sh.node d).firstEdge.isSealed = false → (sh.node d).firstEdge.isCancelled = false) ∧
    (∀ e ∈ (sh.node d).undelivered, e.source = d) := by
  have top : ∀ f ∈ old, Reads s.shared f := fun f mem =>
    delivery.reads i f (by rw [here]; exact List.mem_append_left _ mem)
  have unfinished := delivery.unfinished d
  have isSealed := delivery.isSealed d
  have tag := delivery.tag d
  have source := delivery.source d
  cases move with
  | reject => cases accepted
  | @walkNext m outcome g head e tail done more =>
    obtain ⟨new, todo, first, -⟩ := delivery.walk_next here more
    have walkers := delivery.walkers m
    have mine := le_total (walks m)
      (show Frame.walk m outcome g head (e :: tail) done ∈ s.stack i by
        rw [here]; exact List.mem_append_left _ List.mem_cons_self)
    simp only [walks, if_true] at mine
    rcases eq_or_ne d m with rfl | other
    · have entered : (s.shared.node d).finished ≠ [] := by
        intro none
        rw [none, List.length_nil] at walkers
        omega
      refine ⟨?_, ?_, ?_, ?_⟩
      · simp [modify_node, entered]
      · simp [modify_node, first]
      · simp [modify_node, first]
      · intro e' mem
        simp only [modify_node, if_true] at mem
        exact source e' (List.mem_of_mem_erase mem)
    · rw [modify_of_ne other]
      exact ⟨unfinished, isSealed, tag, source⟩
  | @sealed m outcome g head same =>
    obtain ⟨new, first, undelivered⟩ := top _ List.mem_cons_self
    rcases eq_or_ne d m with rfl | other
    · have none : new = [] := by
        rw [same] at first
        have lists : head.edges = new ++ head.edges := congrArg Head.edges first
        simpa using lists
      have walkers := delivery.walkers d
      have mine := le_total (walks d) (show Frame.trySeal d outcome g head ∈ s.stack i by
        rw [here]; exact List.mem_append_left _ List.mem_cons_self)
      simp only [walks, if_true] at mine
      have entered : (s.shared.node d).finished ≠ [] := by
        intro none
        rw [none, List.length_nil] at walkers
        omega
      refine ⟨?_, ?_, ?_, ?_⟩
      · simp [modify_node, entered]
      · simp [modify_node, undelivered, none]
      · simp [modify_node]
      · simpa [modify_node] using source
    · rw [modify_of_ne other]
      exact ⟨unfinished, isSealed, tag, source⟩
  | @addLink e g head same =>
    have unsealed := top (.addCas e g head) List.mem_cons_self
    simp only [Reads] at unsealed
    rcases eq_or_ne d e.source with rfl | other
    · refine ⟨?_, ?_, ?_, ?_⟩
      · intro fresh
        simp only [modify_node, if_true] at fresh ⊢
        have whole := unfinished fresh
        rw [same] at whole
        rw [whole]
      · simp [modify_node]
      · simp [modify_node]
      · intro e' mem
        simp only [modify_node, if_true, List.mem_cons] at mem
        rcases mem with rfl | old
        · rfl
        · exact source e' old
    · rw [modify_of_ne other]
      exact ⟨unfinished, isSealed, tag, source⟩
  | @enter m outcome =>
    rcases eq_or_ne d m with rfl | other
    · simp only [modify_node, if_true]
      exact ⟨by simp, isSealed, tag, source⟩
    · rw [modify_of_ne other]
      exact ⟨unfinished, isSealed, tag, source⟩
  | _ => grind

theorem Delivery.move {i : Fin n} {old rest new : List Frame} {sh : Shared}
    (delivery : Delivery s) (tokens : Tokens s) (here : s.stack i = old ++ rest)
    (move : Move s.shared old sh new) (accepted : sh.rejected = false) :
    Delivery ⟨sh, replace s.stack i new rest⟩ := by
  have top : ∀ f ∈ old, Reads s.shared f := fun f mem =>
    delivery.reads i f (by rw [here]; exact List.mem_append_left _ mem)
  have lists := delivery.move_lists here move accepted
  refine ⟨fun d => ?_, delivery.move_reads tokens here move accepted, fun d => (lists d).1,
    fun d => (lists d).2.1, fun d => (lists d).2.2.1, fun d => (lists d).2.2.2, fun e => ?_, ?_⟩
  · have frames := total_replace (walks d) new here
    have walkers := delivery.walkers d
    have held := tokens.elsewhere_le d
    have first := sum_le_total (walks d) here
    simp only [Node.elsewhere] at held
    have change := move_walkers (d := d) move top (by omega) accepted
    dsimp only
    omega
  · have frames := total_replace (carries e) new here
    have once := delivery.once e
    have change := move_once e move accepted ?_
    · dsimp only
      omega
    · intro d outcome g head e tail done shape more
      subst shape
      obtain ⟨new, todo, -, -, undelivered, -, source⟩ := delivery.walk_next here more
      exact ⟨by rw [undelivered]; simp, source⟩
  · have ids := delivery.ids
    cases move with
    | addDependency one two =>
      intro j below
      dsimp only at below ⊢
      rw [List.getElem_append]
      split
      · exact ids j _
      · simp only [List.length_append, List.length_singleton] at below
        simp only [List.getElem_singleton, Shared.newEdge]
        omega
    | _ => exact ids

theorem Delivery.create {kind : Kind} {task : Bool} {sh : Shared} (delivery : Delivery s)
    (known : Known s) (made : create s.shared kind task = some sh) :
    Delivery (n := n) ⟨sh, s.stack⟩ := by
  unfold DAG.create at made
  split at made
  · cases made
  cases made
  have blank := known.blank s.shared.count (Nat.le_refl _)
  have same (d : Nat) :
      (Function.update s.shared.node s.shared.count (Node.new kind task) d).firstEdge =
        (s.shared.node d).firstEdge ∧
      (Function.update s.shared.node s.shared.count (Node.new kind task) d).undelivered =
        (s.shared.node d).undelivered ∧
      (Function.update s.shared.node s.shared.count (Node.new kind task) d).finished =
        (s.shared.node d).finished := by
    rcases eq_or_ne d s.shared.count with rfl | other
    · rw [Function.update_self, blank]
      exact ⟨rfl, rfl, rfl⟩
    · rw [Function.update_of_ne other]
      exact ⟨rfl, rfl, rfl⟩
  refine ⟨fun d => ?_, fun j f mem => (delivery.reads j f mem).congr (fun d => (same d).1)
    fun d => (same d).2.1, fun d => ?_, fun d => ?_, fun d => ?_, fun d => ?_, fun e => ?_,
    delivery.ids⟩ <;> dsimp only
  · rw [(same d).1, (same d).2.2]
    exact delivery.walkers d
  · rw [(same d).1, (same d).2.1, (same d).2.2]
    exact delivery.unfinished d
  · rw [(same d).1, (same d).2.1]
    exact delivery.isSealed d
  · rw [(same d).1]
    exact delivery.tag d
  · rw [(same d).2.1]
    exact delivery.source d
  · rw [(same e.source).2.1]
    exact delivery.once e

theorem Delivery.free {d : Nat} {sh : Shared} (delivery : Delivery s)
    (freed : free s.shared d = some sh) : Delivery (n := n) ⟨sh, s.stack⟩ := by
  obtain ⟨guards, -, -, rfl⟩ := free_eq freed
  have walkers := delivery.walkers
  have unfinished := delivery.unfinished
  have isSealed := delivery.isSealed
  have tag := delivery.tag
  have source := delivery.source
  have once := delivery.once
  refine ⟨?_, fun j f mem => (delivery.reads j f mem).congr (by grind) (by grind), ?_, ?_, ?_, ?_,
    ?_, delivery.ids⟩ <;> dsimp only <;> grind

theorem reach_delivery : ∀ {s : State n}, Reach step anyStep (initial n) s →
    s.shared.rejected = false → Delivery s := by
  refine Reach.invariant_of
    (J := fun s => Known s ∧ (s.shared.rejected = false → Tokens s))
    (I := fun s => s.shared.rejected = false → Delivery s)
    (fun reach => ⟨reach_known reach, reach_tokens reach⟩) (fun _ => initial_delivery) ?_
  rintro s t a ⟨known, tokens⟩ delivery - stepped accepted
  rcases step_cases stepped with ⟨_, _, _, made, rfl⟩ |
    ⟨i, old, rest, sh, new, here, move, -, rfl⟩ | ⟨_, _, freed, rfl⟩
  · have same := create_rejected made
    exact (delivery (same ▸ accepted)).create known made
  · have before := move_rejected move accepted
    exact (delivery before).move (tokens before) here move accepted
  · obtain ⟨guards, -, -, rfl⟩ := free_eq freed
    exact (delivery accepted).free freed

/-! ## Exactly once -/

/-- Each node enters `OnTaskFinished` at most once, each task is pushed or disposed of at most
once, and each edge is delivered at most once, and exactly once when its dependency's list is
sealed and nobody has it in hand: not the walk, and not its own `AddDependency`. -/
structure ExactlyOnce (s : State n) : Prop where
  finished : ∀ d, (s.shared.node d).finished.length ≤ 1
  task : ∀ d, (s.shared.node d).pushed + (s.shared.node d).disposed ≤ 1
  delivered : ∀ e, s.shared.delivered e ≤ 1
  settled : ∀ e ∈ s.shared.created, (s.shared.node e.source).firstEdge.isSealed = true →
    (∀ i, ∀ f ∈ s.stack i, carries e f = 0) → s.shared.delivered e = 1

/-- In every run of a graph that `Submit` does not reject. -/
theorem exactly_once {s : State n} (reach : Reach step anyStep (initial n) s)
    (accepted : s.shared.rejected = false) : ExactlyOnce s := by
  have tokens := reach_tokens reach accepted
  have delivery := reach_delivery reach accepted
  refine ⟨fun d => ?_, fun d => ?_, fun e => ?_, fun e mem isSealed returned => ?_⟩
  · have held := tokens.elsewhere_le d
    simp only [Node.elsewhere] at held
    omega
  · cases given : (s.shared.node d).given with
    | true =>
      have decided := tokens.decided d given
      have one := Bool.toNat_le (s.shared.node d).submitted
      omega
    | false =>
      obtain ⟨-, pushed, disposed⟩ := tokens.noTask d given
      omega
  · have once := delivery.one_place e
    omega
  · have once := delivery.once e
    have none : total (carries e) s.stack = 0 := by
      refine Finset.sum_eq_zero fun j _ => List.sum_eq_zero ?_
      intro w mem
      obtain ⟨f, here, rfl⟩ := List.mem_map.mp mem
      exact returned j f here
    rw [none, delivery.isSealed _ isSealed, List.count_eq_one_of_mem delivery.nodup mem] at once
    simpa using once

/-- Thread `i` takes `k` steps, and whatever may succeed does. -/
def steps (i : Fin n) (k : Nat) : List (Label n) := List.replicate k (.step i true)

/-- Two tasks, the second after the first, built, submitted and run by one thread. -/
def pipeline : List (Label 1) :=
  [.create .task true, .create .task true, .call 0 (.addDependency 1 0)] ++ steps 0 4 ++
    [.call 0 .submit] ++ steps 0 8 ++ [.call 0 (.run 0)] ++ steps 0 11 ++
    [.call 0 (.run 1)] ++ steps 0 6

theorem pipeline_exactly_once :
    ∃ s : State 1, Reach step anyStep (initial 1) s ∧ s.shared.rejected = false ∧
      s.shared.delivered ⟨0, 0, 1⟩ = 1 ∧ ExactlyOnce s :=
  ⟨_, Reach.of_run .start (rfl : run step anyStep (initial 1) pipeline = some _), rfl, rfl,
    exactly_once (Reach.of_run .start (rfl : run step anyStep (initial 1) pipeline = some _)) rfl⟩

end JLibSched.DAG
