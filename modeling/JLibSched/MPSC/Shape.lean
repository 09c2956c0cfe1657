import JLibSched.Lib.Adjacent
import JLibSched.MPSC.Model

/-!
# The shape of the inbox queue

From `tail_` to `head_` the nodes stand in the order of their exchanges.  Two neighbours are
linked, or the push whose first task is the later one stands between its exchange and its
link store; the same holds of the stub and the consumer.  A link is stored only once, into a
node that is still in the queue, because a node leaves the queue over its link.
-/

namespace JLibSched.MPSC

open Transition

variable {n : Nat} {s t : State n}

/-- The link from `x` to `y` is still to be stored. -/
def Waits (s : State n) (x : Option Entry) : Option Entry → Prop
  | some e => ∃ p : Fin n, p.val = e.producer ∧ s.producer p = .link e.task (nodeOf x) e x
  | none => s.consumer = .stubLink (nodeOf x) x

/-- The places in the queue. -/
def State.places (s : State n) : List Node := s.nodes.map nodeOf

/-- A push before its exchange holds a linked run outside the queue. -/
structure Holding (s : State n) (items : List Nat) : Prop where
  some : items ≠ []
  distinct : items.Nodup
  outside : ∀ t ∈ items, Node.task t ∉ s.places
  linked : linkedRun s.next items

def ProducerInv (s : State n) (p : Fin n) : ProducerPc → Prop
  | .idle => True
  | .clear items => Holding s items
  | .exchange items => Holding s items ∧ ∀ last ∈ items.getLast?, s.next (.task last) = none
  | .link first prev entry before =>
    first = entry.task ∧ prev = nodeOf before ∧ p.val = entry.producer ∧
      Adjacent s.nodes before (some entry) ∧ s.next prev = none

def ConsumerInv (s : State n) : ConsumerPc → Prop
  | .idle | .popNext | .quietNext => True
  | .popSecond | .popHead => s.tail ≠ .stub
  | .stubClear => s.tail ≠ .stub ∧ none ∉ s.nodes
  | .stubExchange => s.tail ≠ .stub ∧ none ∉ s.nodes ∧ s.next .stub = none
  | .stubLink prev before =>
    s.tail ≠ .stub ∧ prev = nodeOf before ∧ Adjacent s.nodes before none ∧ s.next prev = none
  | .popAgain => s.tail ≠ .stub ∧ none ∈ s.nodes
  | .quietHead => s.tail = .stub

/-- The shape of the queue. -/
structure Shape (s : State n) : Prop where
  tail : s.nodes.head?.map nodeOf = some s.tail
  head : s.nodes.getLast?.map nodeOf = some s.head
  distinct : s.places.Nodup
  last : s.next s.head = none
  joined : ∀ x y, Adjacent s.nodes x y →
    s.next (nodeOf x) = some (nodeOf y) ∨ (s.next (nodeOf x) = none ∧ Waits s x y)
  producer : ∀ p, ProducerInv s p (s.producer p)
  apart : ∀ p q, p ≠ q → ∀ t ∈ (s.producer p).held, t ∉ (s.producer q).held
  consumer : ConsumerInv s s.consumer

theorem initial_shape : Shape (initial n) where
  tail := rfl
  head := rfl
  distinct := by simp [State.places, initial]
  last := rfl
  joined := by
    intro x y adjacent
    simp [initial, Adjacent.cons_iff, Adjacent.nil] at adjacent
  producer := fun _ => trivial
  apart := by simp [initial, ProducerPc.held]
  consumer := trivial

/-! ## Places -/

namespace Shape

theorem nodup (shape : Shape s) : s.nodes.Nodup := shape.distinct.of_map

theorem place_mem {x : Option Entry} (mem : x ∈ s.nodes) : nodeOf x ∈ s.places :=
  List.mem_map_of_mem mem

theorem place_inj (shape : Shape s) {x y : Option Entry} (left : x ∈ s.nodes)
    (right : y ∈ s.nodes) (same : nodeOf x = nodeOf y) : x = y :=
  List.inj_on_of_nodup_map shape.distinct left right same

theorem nonempty (shape : Shape s) : ∃ x rest, s.nodes = x :: rest ∧ nodeOf x = s.tail := by
  have first := shape.tail
  cases nodes : s.nodes with
  | nil =>
    rw [nodes] at first
    cases first
  | cons x rest =>
    rw [nodes] at first
    exact ⟨x, rest, rfl, Option.some.inj first⟩

theorem exists_last (shape : Shape s) :
    ∃ x, s.nodes.getLast? = some x ∧ nodeOf x = s.head := by
  have last := shape.head
  cases found : s.nodes.getLast? with
  | none =>
    rw [found] at last
    cases last
  | some x =>
    rw [found] at last
    exact ⟨x, rfl, Option.some.inj last⟩

/-- A node with a successor is not `head_`. -/
theorem ne_head (shape : Shape s) {x y : Option Entry} (adjacent : Adjacent s.nodes x y) :
    nodeOf x ≠ s.head := by
  intro same
  obtain ⟨z, last, place⟩ := shape.exists_last
  have equal := shape.place_inj adjacent.mem_left (List.mem_of_getLast? last)
    (same.trans place.symm)
  exact Adjacent.not_last shape.nodup (equal ▸ last) adjacent

/-- Distinct places have distinct successors. -/
theorem ne_of_successors (shape : Shape s) {w x y z : Option Entry}
    (one : Adjacent s.nodes w y) (two : Adjacent s.nodes x z) (different : y ≠ z) :
    nodeOf w ≠ nodeOf x := by
  intro same
  obtain rfl := shape.place_inj one.mem_left two.mem_left same
  exact different (Adjacent.right_unique shape.nodup one two)

end Shape

/-! ## Frames -/

theorem linkedRun_congr {next next' : Node → Option Node} :
    ∀ {items : List Nat}, (∀ u ∈ items.dropLast, next' (.task u) = next (.task u)) →
      linkedRun next items → linkedRun next' items
  | [], _, _ => trivial
  | [_], _, _ => trivial
  | a :: b :: rest, same, linked => by
      refine ⟨?_, linkedRun_congr (fun u mem => same u ?_) linked.2⟩
      · rw [same a (by simp)]
        exact linked.1
      · rw [List.dropLast_cons_cons]
        exact List.mem_cons_of_mem _ mem

theorem Holding.transfer {items : List Nat} (holding : Holding s items)
    (outside : ∀ u ∈ items, Node.task u ∉ t.places)
    (same : ∀ u ∈ items, t.next (.task u) = s.next (.task u)) : Holding t items :=
  ⟨holding.some, holding.distinct, outside,
    linkedRun_congr (fun u mem => same u (List.dropLast_subset _ mem)) holding.linked⟩

/-- What a producer knows survives the steps of others. -/
theorem ProducerInv.transfer {q : Fin n} {pc : ProducerPc} (inv : ProducerInv s q pc)
    (outside : ∀ u ∈ pc.held, Node.task u ∉ t.places)
    (same : ∀ u ∈ pc.held, t.next (.task u) = s.next (.task u))
    (link : ∀ e b, q.val = e.producer → Adjacent s.nodes b (some e) →
      s.next (nodeOf b) = none → Adjacent t.nodes b (some e) ∧ t.next (nodeOf b) = none) :
    ProducerInv t q pc := by
  cases pc with
  | idle => trivial
  | clear items => exact Holding.transfer inv outside same
  | exchange items =>
    refine ⟨inv.1.transfer outside same, fun last mem => ?_⟩
    rw [same last (List.mem_of_getLast? mem)]
    exact inv.2 last mem
  | link first prev e b =>
    obtain ⟨task, rfl, mine, adjacent, unlinked⟩ := inv
    obtain ⟨adjacent', unlinked'⟩ := link e b mine adjacent unlinked
    exact ⟨task, rfl, mine, adjacent', unlinked'⟩

/-- A push before its exchange is outside the queue. -/
theorem Shape.held_outside (shape : Shape s) {p : Fin n} {u : Nat}
    (held : u ∈ (s.producer p).held) : Node.task u ∉ s.places := by
  have inv := shape.producer p
  cases place : s.producer p with
  | idle | link first prev e b =>
    rw [place] at held
    cases held
  | clear items =>
    rw [place] at held inv
    exact Holding.outside inv u held
  | exchange items =>
    rw [place] at held inv
    exact inv.1.outside u held

theorem ConsumerInv.transfer {pc : ConsumerPc} (inv : ConsumerInv s pc) (tail : t.tail = s.tail)
    (stub : none ∈ t.nodes ↔ none ∈ s.nodes)
    (clear : none ∉ s.nodes → s.next .stub = none → t.next .stub = none)
    (link : ∀ b, Adjacent s.nodes b none → s.next (nodeOf b) = none →
      Adjacent t.nodes b none ∧ t.next (nodeOf b) = none) : ConsumerInv t pc := by
  cases pc with
  | idle | popNext | quietNext => trivial
  | popSecond | popHead | quietHead => simpa only [ConsumerInv, tail] using inv
  | stubClear | popAgain => simpa only [ConsumerInv, tail, stub] using inv
  | stubExchange =>
    obtain ⟨task, absent, unlinked⟩ := inv
    exact ⟨by rw [tail]; exact task, by rw [stub]; exact absent, clear absent unlinked⟩
  | stubLink prev b =>
    obtain ⟨task, rfl, adjacent, unlinked⟩ := inv
    obtain ⟨adjacent', unlinked'⟩ := link b adjacent unlinked
    exact ⟨by rw [tail]; exact task, rfl, adjacent', unlinked'⟩

/-- A link that waits for somebody else still waits. -/
theorem Waits.transfer {x y : Option Entry} (waits : Waits s x y)
    (producer : ∀ p e, y = some e → s.producer p = .link e.task (nodeOf x) e x →
      t.producer p = s.producer p)
    (consumer : y = none → s.consumer = .stubLink (nodeOf x) x → t.consumer = s.consumer) :
    Waits t x y := by
  cases y with
  | none =>
    have here : s.consumer = .stubLink (nodeOf x) x := waits
    show t.consumer = _
    rw [consumer rfl here]
    exact here
  | some e =>
    obtain ⟨p, mine, here⟩ := waits
    exact ⟨p, mine, by rw [producer p e rfl here]; exact here⟩

/-! ## Steps of producers -/

/-- Producers move between places that hold no link, and `next` is written only outside the
queue. -/
theorem Shape.outside (shape : Shape s) {next : Node → Option Node}
    {producer : Fin n → ProducerPc} {called : Fin n → List Nat}
    (inside : ∀ x ∈ s.places, next x = s.next x) (stub : next .stub = s.next .stub)
    (links : ∀ p first prev e b, s.producer p = .link first prev e b →
      producer p = s.producer p)
    (own : ∀ p, ProducerInv { s with next, producer, called } p (producer p))
    (apart : ∀ p q, p ≠ q → ∀ u ∈ (producer p).held, u ∉ (producer q).held) :
    Shape { s with next, producer, called } := by
  refine ⟨shape.tail, shape.head, shape.distinct, ?_, ?_, own, apart, ?_⟩
  · obtain ⟨x, last, place⟩ := shape.exists_last
    show next s.head = none
    rw [inside s.head (place ▸ place_mem (List.mem_of_getLast? last))]
    exact shape.last
  · intro x y adjacent
    show next (nodeOf x) = _ ∨ next (nodeOf x) = _ ∧ _
    rw [inside _ (place_mem adjacent.mem_left)]
    refine (shape.joined x y adjacent).imp_right fun ⟨unlinked, waits⟩ => ⟨unlinked, ?_⟩
    exact waits.transfer (fun q e _ here => links q _ _ _ _ here) fun _ _ => rfl
  · refine shape.consumer.transfer rfl Iff.rfl (fun _ unlinked => stub.trans unlinked) ?_
    intro b adjacent unlinked
    exact ⟨adjacent, (inside _ (place_mem adjacent.mem_left)).trans unlinked⟩

/-- Replacing what one producer holds. -/
theorem apart_update {producer : Fin n → ProducerPc} {p : Fin n} {pc : ProducerPc}
    (apart : ∀ q r, q ≠ r → ∀ u ∈ (producer q).held, u ∉ (producer r).held)
    (own : ∀ u ∈ pc.held, ∀ q, q ≠ p → u ∉ (producer q).held) :
    ∀ q r, q ≠ r → ∀ u ∈ (Function.update producer p pc q).held,
      u ∉ (Function.update producer p pc r).held := by
  intro q r different u
  rcases eq_or_ne q p with rfl | other
  · rw [Function.update_self, Function.update_of_ne different.symm]
    exact fun mem => own u mem r different.symm
  · rw [Function.update_of_ne other]
    rcases eq_or_ne r p with rfl | other'
    · rw [Function.update_self]
      exact fun mem mem' => own u mem' q other mem
    · rw [Function.update_of_ne other']
      exact apart q r different u

/-- A task in no push and in no queue is outside the queue. -/
theorem free_outside {task : Nat} (free : s.free task) : Node.task task ∉ s.places := by
  intro mem
  obtain ⟨x, inside, place⟩ := List.mem_map.mp mem
  cases x with
  | none => cases place
  | some e =>
    cases place
    exact free.1 (List.mem_map_of_mem (List.mem_filterMap.mpr ⟨some e, inside, rfl⟩))

theorem Shape.prepare (shape : Shape s) {task : Nat} {value : Option Node}
    (free : s.free task) :
    Shape { s with next := Function.update s.next (.task task) value } := by
  have outside := free_outside free
  refine shape.outside ?_ (Function.update_of_ne (by simp) _ _) (fun _ _ _ _ _ _ => rfl)
    (fun p => ?_) shape.apart
  · rintro x mem
    exact Function.update_of_ne (ne_of_mem_of_not_mem mem outside) _ _
  · refine (shape.producer p).transfer (fun u mem => shape.held_outside mem) ?_ ?_
    · intro u mem
      refine Function.update_of_ne ?_ _ _
      rintro ⟨⟩
      exact free.2 p mem
    · intro e b _ adjacent unlinked
      refine ⟨adjacent, ?_⟩
      dsimp only
      rw [Function.update_of_ne (ne_of_mem_of_not_mem (place_mem adjacent.mem_left) outside)]
      exact unlinked

theorem Shape.pushBatch {p : Fin n} {items : List Nat} (shape : Shape s)
    (pushed : pushBatch s p items = some t) : Shape t := by
  unfold MPSC.pushBatch at pushed
  split at pushed
  · rename_i allowed
    obtain ⟨idle, some, distinct, free, linked⟩ := allowed
    cases pushed
    refine shape.outside (fun _ _ => rfl) rfl ?_ (fun q => ?_) ?_
    · intro q first prev e b here
      refine Function.update_of_ne ?_ _ _
      rintro rfl
      rw [idle] at here
      cases here
    · simp only [State.setProducer]
      rcases eq_or_ne q p with rfl | other
      · rw [Function.update_self]
        exact ⟨some, distinct, fun u mem => free_outside (s := s) (free u mem), linked⟩
      · rw [Function.update_of_ne other]
        exact (shape.producer q).transfer (fun u mem => shape.held_outside mem)
          (fun _ _ => rfl) fun e b _ adjacent unlinked => ⟨adjacent, unlinked⟩
    · exact apart_update shape.apart fun u mem q _ => (free u mem).2 q
  · cases pushed

theorem Shape.clear {p : Fin n} {items : List Nat} {last : Nat} (shape : Shape s)
    (place : s.producer p = .clear items) (ends : items.getLast? = some last) :
    Shape { s.setProducer p (.exchange items) with
      next := Function.update s.next (.task last) none } := by
  have holding := shape.producer p
  rw [place] at holding
  have mem : last ∈ items := List.mem_of_getLast? ends
  have outside : Node.task last ∉ s.places := Holding.outside holding last mem
  have held : (s.producer p).held = items := by rw [place]; rfl
  refine shape.outside ?_ (Function.update_of_ne (by simp) _ _) ?_ (fun q => ?_) ?_
  · intro x inside
    exact Function.update_of_ne (ne_of_mem_of_not_mem inside outside) _ _
  · intro q first prev e b here
    refine Function.update_of_ne ?_ _ _
    rintro rfl
    rw [place] at here
    cases here
  · simp only [State.setProducer]
    rcases eq_or_ne q p with rfl | other
    · rw [Function.update_self]
      refine ⟨⟨holding.some, holding.distinct, holding.outside, ?_⟩, ?_⟩
      · refine linkedRun_congr (fun u before => Function.update_of_ne ?_ _ _) holding.linked
        rintro ⟨⟩
        obtain ⟨front, rfl⟩ := List.getLast?_eq_some_iff.mp ends
        have distinct := holding.distinct
        rw [List.dropLast_concat] at before
        exact (List.nodup_append.mp distinct).2.2 last before last (by simp) rfl
      · intro z ends'
        rw [ends] at ends'
        cases ends'
        exact Function.update_self ..
    · rw [Function.update_of_ne other]
      refine (shape.producer q).transfer (fun u mem => shape.held_outside mem) ?_ ?_
      · intro u theirs
        refine Function.update_of_ne ?_ _ _
        rintro ⟨⟩
        exact shape.apart p q other.symm last (held ▸ mem) theirs
      · intro e b _ adjacent unlinked
        refine ⟨adjacent, ?_⟩
        dsimp only
        rw [Function.update_of_ne (ne_of_mem_of_not_mem (place_mem adjacent.mem_left) outside)]
        exact unlinked
  · refine apart_update shape.apart fun u mine q other theirs => ?_
    exact shape.apart p q other.symm u (held ▸ mine) theirs

/-! ## The exchange -/

theorem map_task_entries (p : Nat) : ∀ (number : Nat) (items : List Nat),
    (entries p number items).map (·.task) = items
  | _, [] => rfl
  | number, task :: rest => by
      rw [entries, List.map_cons, map_task_entries]

theorem producer_entries {p : Nat} {e : Entry} : ∀ {number : Nat} {items : List Nat},
    e ∈ entries p number items → e.producer = p
  | _, [], mem => by cases mem
  | number, task :: rest, mem => by
      rcases List.mem_cons.mp mem with rfl | later
      · rfl
      · exact producer_entries later

theorem adjacent_map {α β : Type*} {f : α → β} {l : List α} {x y : β}
    (adjacent : Adjacent (l.map f) x y) : ∃ a b, Adjacent l a b ∧ f a = x ∧ f b = y := by
  obtain ⟨before, after, shape⟩ := adjacent
  obtain ⟨front, back, rfl, -, later⟩ := List.map_eq_append_iff.mp shape
  obtain ⟨a, tail, rfl, rfl, second⟩ := List.map_eq_cons_iff.mp later
  obtain ⟨b, rest, rfl, rfl, -⟩ := List.map_eq_cons_iff.mp second
  exact ⟨a, b, ⟨front, rest, rfl⟩, rfl, rfl⟩

/-- The run of a push is linked inside. -/
theorem linkedRun_adjacent {next : Node → Option Node} {a b : Nat} :
    ∀ {items : List Nat}, linkedRun next items → Adjacent items a b →
      next (.task a) = some (.task b)
  | [], _, adjacent => absurd adjacent Adjacent.nil
  | [_], _, adjacent => by
      rcases Adjacent.cons_iff.mp adjacent with ⟨-, none⟩ | none
      · cases none
      · exact absurd none Adjacent.nil
  | c :: d :: rest, linked, adjacent => by
      rcases Adjacent.cons_iff.mp adjacent with ⟨rfl, second⟩ | later
      · cases second
        exact linked.1
      · exact linkedRun_adjacent linked.2 later

theorem places_append (nodes : List (Option Entry)) (run : List Entry) :
    (nodes ++ run.map some).map nodeOf =
      nodes.map nodeOf ++ (run.map (·.task)).map Node.task := by
  rw [List.map_append, List.map_map, List.map_map]
  rfl

theorem Shape.exchange {p : Fin n} {items : List Nat} {first : Entry} {rest : List Entry}
    {last : Nat} (shape : Shape s) (place : s.producer p = .exchange items)
    (run : entries p s.pushed.length items = first :: rest)
    (ends : items.getLast? = some last) :
    Shape { s.setProducer p (.link first.task s.head first (s.nodes.getLast?.getD none)) with
      head := .task last
      nodes := s.nodes ++ (first :: rest).map some
      pushed := s.pushed ++ first :: rest } := by
  have inv := shape.producer p
  rw [place] at inv
  obtain ⟨holding, cleared⟩ := inv
  obtain ⟨z, found, atHead⟩ := shape.exists_last
  have tasks : (first :: rest).map (·.task) = items := by
    rw [← run]
    exact map_task_entries p.val _ items
  have mine : p.val = first.producer :=
    (producer_entries (run ▸ List.mem_cons_self)).symm
  have held : (s.producer p).held = items := by rw [place]; rfl
  have before : s.nodes.getLast?.getD none = z := by rw [found]; rfl
  rw [before]
  have edge : Adjacent (s.nodes ++ (first :: rest).map some) z (some first) :=
    Adjacent.append_iff.mpr (.inr (.inl ⟨found, rfl⟩))
  have older {x y : Option Entry} (adjacent : Adjacent s.nodes x y) :
      Adjacent (s.nodes ++ (first :: rest).map some) x y :=
    Adjacent.append_iff.mpr (.inl adjacent)
  have stub : none ∈ s.nodes ++ (first :: rest).map some ↔ none ∈ s.nodes := by simp
  refine ⟨?_, ?_, ?_, ?_, ?_, ?_, ?_, ?_⟩
  · obtain ⟨x, others, nodes, tail⟩ := shape.nonempty
    simp [nodes, tail, State.setProducer]
  · show (s.nodes ++ (first :: rest).map some).getLast?.map nodeOf = some (.task last)
    have newest : (first :: rest).getLast?.map (·.task) = some last := by
      rw [← List.getLast?_map, tasks, ends]
    obtain ⟨e, atEnd, task⟩ := Option.map_eq_some_iff.mp newest
    rw [List.getLast?_append, List.getLast?_map, atEnd, ← task]
    rfl
  · show ((s.nodes ++ (first :: rest).map some).map nodeOf).Nodup
    rw [places_append, tasks, List.nodup_append]
    refine ⟨shape.distinct, holding.distinct.map (fun _ _ h => Node.task.inj h), ?_⟩
    rintro x inside y new rfl
    obtain ⟨u, mem, rfl⟩ := List.mem_map.mp new
    exact holding.outside u mem inside
  · exact cleared last ends
  · intro x y adjacent
    rcases Adjacent.append_iff.mp adjacent with old | ⟨atEnd, new⟩ | inner
    · refine (shape.joined x y old).imp_right fun ⟨unlinked, waits⟩ => ⟨unlinked, ?_⟩
      refine waits.transfer (fun q e _ here => Function.update_of_ne ?_ _ _) fun _ _ => rfl
      rintro rfl
      rw [place] at here
      cases here
    · rw [found] at atEnd
      cases atEnd
      cases new
      refine .inr ⟨by rw [atHead]; exact shape.last, p, mine, ?_⟩
      rw [atHead]
      exact Function.update_self ..
    · obtain ⟨a, b, neighbours, rfl, rfl⟩ := adjacent_map inner
      refine .inl ?_
      have tasksAdjacent : Adjacent items a.task b.task := by
        obtain ⟨front, back, shape⟩ := neighbours
        rw [← tasks, shape]
        exact ⟨front.map (·.task), back.map (·.task), by simp⟩
      exact linkedRun_adjacent holding.linked tasksAdjacent
  · intro q
    simp only [State.setProducer]
    rcases eq_or_ne q p with rfl | other
    · rw [Function.update_self]
      exact ⟨rfl, atHead.symm, mine, edge, shape.last⟩
    · rw [Function.update_of_ne other]
      refine (shape.producer q).transfer ?_ (fun _ _ => rfl) fun e b _ adjacent unlinked =>
        ⟨older adjacent, unlinked⟩
      intro u theirs
      show Node.task u ∉ (s.nodes ++ (first :: rest).map some).map nodeOf
      rw [places_append, tasks, List.mem_append]
      rintro (inside | new)
      · exact shape.held_outside theirs inside
      · obtain ⟨v, mem, same⟩ := List.mem_map.mp new
        cases same
        exact shape.apart p q other.symm u (held ▸ mem) theirs
  · exact apart_update shape.apart fun u none => by cases none
  · exact shape.consumer.transfer rfl stub (fun _ unlinked => unlinked)
      fun b adjacent unlinked => ⟨older adjacent, unlinked⟩

/-! ## The link store -/

/-- A link is stored by the push or the append it waits for. -/
theorem Shape.store {x y : Option Entry} (shape : Shape s) (adjacent : Adjacent s.nodes x y)
    (unlinked : s.next (nodeOf x) = none)
    (next : t.next = Function.update s.next (nodeOf x) (some (nodeOf y)))
    (nodes : t.nodes = s.nodes) (tail : t.tail = s.tail) (head : t.head = s.head)
    (producer : ∀ p, t.producer p = s.producer p ∧ (∀ e, some e = y → p.val ≠ e.producer) ∨
      t.producer p = .idle ∧ ∃ first prev e b, s.producer p = .link first prev e b ∧ some e = y)
    (consumer : t.consumer = s.consumer ∧ none ≠ y ∨ none = y ∧ ConsumerInv t t.consumer) :
    Shape t := by
  have places : t.places = s.places := by rw [State.places, nodes, State.places]
  have elsewhere {w z : Option Entry} (other : Adjacent s.nodes w z) (different : z ≠ y) :
      t.next (nodeOf w) = s.next (nodeOf w) := by
    rw [next]
    exact Function.update_of_ne (shape.ne_of_successors other adjacent different) _ _
  have heldSub (p : Fin n) {u : Nat} (mem : u ∈ (t.producer p).held) :
      u ∈ (s.producer p).held := by
    rcases producer p with ⟨same, -⟩ | ⟨idle, -⟩
    · rw [same] at mem
      exact mem
    · rw [idle] at mem
      cases mem
  refine ⟨?_, ?_, ?_, ?_, ?_, fun p => ?_, ?_, ?_⟩
  · rw [nodes, tail]
    exact shape.tail
  · rw [nodes, head]
    exact shape.head
  · rw [places]
    exact shape.distinct
  · rw [head, next, Function.update_of_ne (shape.ne_head adjacent).symm]
    exact shape.last
  · intro w z other
    rw [nodes] at other
    by_cases same : z = y
    · subst same
      obtain rfl := Adjacent.left_unique shape.nodup other adjacent
      exact .inl (by rw [next, Function.update_self])
    · rw [elsewhere other same]
      refine (shape.joined w z other).imp_right fun ⟨free, waits⟩ => ⟨free, ?_⟩
      refine waits.transfer (fun p e mine here => ?_) fun mine _ => ?_
      · refine ((producer p).resolve_right ?_).1
        rintro ⟨-, first, prev, e', b, there, target⟩
        rw [here] at there
        cases there
        exact same (mine.trans target)
      · exact (consumer.resolve_right fun ⟨target, _⟩ => same (mine.trans target)).1
  · rcases producer p with ⟨same, foreign⟩ | ⟨idle, -⟩
    · rw [same]
      refine (shape.producer p).transfer ?_ ?_ ?_
      · rw [places]
        exact fun u mem => shape.held_outside mem
      · intro u mem
        rw [next]
        refine Function.update_of_ne ?_ _ _
        exact (ne_of_mem_of_not_mem (place_mem adjacent.mem_left) (shape.held_outside mem)).symm
      · intro e b mine other free
        rw [nodes]
        refine ⟨other, ?_⟩
        rw [elsewhere other fun target => foreign e target mine]
        exact free
    · rw [idle]
      trivial
  · intro p q different u mem mem'
    exact shape.apart p q different u (heldSub p mem) (heldSub q mem')
  · rcases consumer with ⟨same, foreign⟩ | ⟨-, inv⟩
    · rw [same]
      refine shape.consumer.transfer tail (by rw [nodes]) ?_ ?_
      · intro absent free
        rw [next, Function.update_of_ne ?_]
        · exact free
        · intro stub
          have mem := adjacent.mem_left
          cases x with
          | none => exact absent mem
          | some e => cases stub
      · intro b other free
        rw [nodes]
        exact ⟨other, (elsewhere other foreign).trans free⟩
    · exact inv

theorem Shape.link {p : Fin n} {first : Nat} {prev : Node} {e : Entry} {b : Option Entry}
    (shape : Shape s) (place : s.producer p = .link first prev e b) :
    Shape { s.setProducer p .idle with
      next := Function.update s.next prev (some (.task first)) } := by
  have inv := shape.producer p
  rw [place] at inv
  obtain ⟨rfl, rfl, mine, adjacent, unlinked⟩ := inv
  refine shape.store adjacent unlinked rfl rfl rfl rfl (fun q => ?_) (.inl ⟨rfl, by simp⟩)
  rcases eq_or_ne q p with rfl | other
  · exact .inr ⟨Function.update_self .., _, _, _, _, place, rfl⟩
  · refine .inl ⟨Function.update_of_ne other _ _, ?_⟩
    rintro e' ⟨⟩ same
    exact other (Fin.ext (same.trans mine.symm))

/-- Every step of a push keeps the shape. -/
theorem Shape.producerStep {p : Fin n} (shape : Shape s) (stepped : producerStep s p = some t) :
    Shape t := by
  unfold MPSC.producerStep at stepped
  cases place : s.producer p with
  | idle =>
    rw [place] at stepped
    cases stepped
  | clear items =>
    rw [place] at stepped
    obtain ⟨last, ends, rfl⟩ := Option.map_eq_some_iff.mp stepped
    exact shape.clear place ends
  | exchange items =>
    rw [place] at stepped
    dsimp only at stepped
    split at stepped
    · rename_i first rest last run ends
      cases stepped
      exact shape.exchange place run ends
    · cases stepped
  | link first prev e b =>
    rw [place] at stepped
    cases stepped
    exact shape.link place

/-! ## Steps of the consumer -/

/-- A step of the consumer that writes nothing. -/
theorem Shape.read (shape : Shape s) {pc : ConsumerPc} {results : List Result}
    (noLink : ∀ prev b, s.consumer ≠ .stubLink prev b)
    (inv : ConsumerInv { s with consumer := pc, results } pc) :
    Shape { s with consumer := pc, results } := by
  refine ⟨shape.tail, shape.head, shape.distinct, shape.last, fun x y adjacent => ?_,
    fun p => ?_, shape.apart, inv⟩
  · refine (shape.joined x y adjacent).imp_right fun ⟨unlinked, waits⟩ => ⟨unlinked, ?_⟩
    exact waits.transfer (fun _ _ _ _ => rfl) fun _ here => absurd here (noLink _ _)
  · exact (shape.producer p).transfer (fun u mem => shape.held_outside mem) (fun _ _ => rfl)
      fun e b _ adjacent unlinked => ⟨adjacent, unlinked⟩

/-- Where `tail_` has a link, it leads to the second node. -/
theorem Shape.follow (shape : Shape s) {next : Node} (found : s.next s.tail = some next) :
    ∃ x y rest, s.nodes = x :: y :: rest ∧ nodeOf x = s.tail ∧ nodeOf y = next := by
  obtain ⟨x, others, nodes, tail⟩ := shape.nonempty
  cases others with
  | nil =>
    have head := shape.head
    have last := shape.last
    rw [nodes] at head
    have same : nodeOf x = s.head := Option.some.inj head
    rw [← same, tail, found] at last
    cases last
  | cons y rest =>
    refine ⟨x, y, rest, nodes, tail, ?_⟩
    have adjacent : Adjacent s.nodes x y := by
      rw [nodes]
      exact ⟨[], rest, rfl⟩
    rcases shape.joined x y adjacent with linked | ⟨unlinked, -⟩
    · rw [tail, found] at linked
      exact (Option.some.inj linked).symm
    · rw [tail, found] at unlinked
      cases unlinked

/-- `tail_` moves over a link that is there: whoever waits, waits further on. -/
theorem Shape.advance (shape : Shape s) {next : Node} (found : s.next s.tail = some next)
    (noLink : ∀ prev b, s.consumer ≠ .stubLink prev b) {pc : ConsumerPc}
    {popped : List Entry} {results : List Result}
    (inv : ConsumerInv { s with tail := next, nodes := s.nodes.tail, consumer := pc, popped,
                                results } pc) :
    Shape { s with tail := next, nodes := s.nodes.tail, consumer := pc, popped, results } := by
  obtain ⟨x, y, rest, nodes, tail, rfl⟩ := shape.follow found
  have shorter : s.nodes.tail = y :: rest := by rw [nodes]; rfl
  have sub {u : Node} (mem : u ∈ s.nodes.tail.map nodeOf) : u ∈ s.places :=
    List.map_subset _ (List.tail_subset _) mem
  refine ⟨by rw [shorter]; rfl, ?_, ?_, shape.last, fun w z adjacent => ?_, fun p => ?_,
    shape.apart, inv⟩
  · have head := shape.head
    rw [nodes, List.getLast?_cons_cons] at head
    rw [shorter]
    exact head
  · exact shape.distinct.sublist ((List.tail_sublist _).map _)
  · have before : Adjacent s.nodes w z := by
      rw [nodes]
      rw [shorter] at adjacent
      exact Adjacent.cons_iff.mpr (.inr adjacent)
    refine (shape.joined w z before).imp_right fun ⟨unlinked, waits⟩ => ⟨unlinked, ?_⟩
    exact waits.transfer (fun _ _ _ _ => rfl) fun _ here => absurd here (noLink _ _)
  · refine (shape.producer p).transfer (fun u mem inside => ?_) (fun _ _ => rfl) ?_
    · exact shape.held_outside mem (sub inside)
    · intro e b _ adjacent unlinked
      refine ⟨?_, unlinked⟩
      rw [shorter]
      rw [nodes] at adjacent
      rcases Adjacent.cons_iff.mp adjacent with ⟨rfl, -⟩ | later
      · rw [tail, found] at unlinked
        cases unlinked
      · exact later

/-- `stub_` is back in nobody's way: it is outside the queue when its `next` is cleared. -/
theorem Shape.stubClear (shape : Shape s) (place : s.consumer = .stubClear) :
    Shape { s with next := Function.update s.next .stub none, consumer := .stubExchange } := by
  have inv := shape.consumer
  rw [place] at inv
  obtain ⟨task, absent⟩ := inv
  have outside {x : Option Entry} (mem : x ∈ s.nodes) : nodeOf x ≠ .stub := by
    cases x with
    | none => exact absurd mem absent
    | some e => intro same; cases same
  have inside {x : Option Entry} (mem : x ∈ s.nodes) :
      Function.update s.next .stub none (nodeOf x) = s.next (nodeOf x) :=
    Function.update_of_ne (outside mem) _ _
  have cleared : Function.update s.next .stub none .stub = none := Function.update_self ..
  refine ⟨shape.tail, shape.head, shape.distinct, ?_, fun x y adjacent => ?_, fun p => ?_,
    shape.apart, task, absent, cleared⟩
  · obtain ⟨z, last, head⟩ := shape.exists_last
    show Function.update s.next .stub none s.head = none
    rw [← head, inside (List.mem_of_getLast? last), head]
    exact shape.last
  · dsimp only
    rw [inside adjacent.mem_left]
    refine (shape.joined x y adjacent).imp_right fun ⟨unlinked, waits⟩ => ⟨unlinked, ?_⟩
    refine waits.transfer (fun _ _ _ _ => rfl) fun _ here => ?_
    rw [place] at here
    cases here
  · refine (shape.producer p).transfer (fun u mem => shape.held_outside mem) ?_ ?_
    · intro u _
      show Function.update s.next .stub none (.task u) = s.next (.task u)
      rw [Function.update_of_ne (by simp)]
    · exact fun e b _ adjacent unlinked =>
        ⟨adjacent, (inside adjacent.mem_left).trans unlinked⟩

theorem Shape.stubExchange (shape : Shape s) (place : s.consumer = .stubExchange) :
    Shape { s with
      head := .stub
      nodes := s.nodes ++ [none]
      consumer := .stubLink s.head (s.nodes.getLast?.getD none) } := by
  have inv := shape.consumer
  rw [place] at inv
  obtain ⟨task, absent, cleared⟩ := inv
  obtain ⟨z, found, atHead⟩ := shape.exists_last
  have before : s.nodes.getLast?.getD none = z := by rw [found]; rfl
  rw [before]
  have older {x y : Option Entry} (adjacent : Adjacent s.nodes x y) :
      Adjacent (s.nodes ++ [none]) x y := Adjacent.append_iff.mpr (.inl adjacent)
  have outside : Node.stub ∉ s.places := by
    intro mem
    obtain ⟨x, inside, same⟩ := List.mem_map.mp mem
    cases x with
    | none => exact absent inside
    | some e => cases same
  have places : (s.nodes ++ [none]).map nodeOf = s.places ++ [.stub] := by
    rw [List.map_append]
    rfl
  refine ⟨?_, by simp [nodeOf], ?_, cleared, fun x y adjacent => ?_, fun p => ?_, shape.apart,
    task, atHead.symm, Adjacent.append_iff.mpr (.inr (.inl ⟨found, rfl⟩)), shape.last⟩
  · obtain ⟨x, others, nodes, tail⟩ := shape.nonempty
    simp [nodes, tail]
  · show ((s.nodes ++ [none]).map nodeOf).Nodup
    rw [places, List.nodup_append]
    refine ⟨shape.distinct, List.nodup_singleton _, ?_⟩
    rintro x mem y last rfl
    rw [List.mem_singleton] at last
    exact outside (last ▸ mem)
  · rcases Adjacent.append_iff.mp adjacent with old | ⟨atEnd, new⟩ | inner
    · refine (shape.joined x y old).imp_right fun ⟨unlinked, waits⟩ => ⟨unlinked, ?_⟩
      refine waits.transfer (fun _ _ _ _ => rfl) fun _ here => ?_
      rw [place] at here
      cases here
    · rw [found] at atEnd
      cases atEnd
      cases new
      refine .inr ⟨by rw [atHead]; exact shape.last, ?_⟩
      show ConsumerPc.stubLink s.head z = .stubLink (nodeOf z) z
      rw [atHead]
    · rcases Adjacent.cons_iff.mp inner with ⟨-, none⟩ | none
      · cases none
      · exact absurd none Adjacent.nil
  · refine (shape.producer p).transfer (fun u mem inside => ?_) (fun _ _ => rfl)
      fun e b _ adjacent unlinked => ⟨older adjacent, unlinked⟩
    have here : Node.task u ∈ (s.nodes ++ [none]).map nodeOf := inside
    rw [places, List.mem_append] at here
    rcases here with old | stub
    · exact shape.held_outside mem old
    · simp at stub

theorem Shape.stubLink {prev : Node} {b : Option Entry} (shape : Shape s)
    (place : s.consumer = .stubLink prev b) :
    Shape { s with next := Function.update s.next prev (some .stub), consumer := .popAgain } := by
  have inv := shape.consumer
  rw [place] at inv
  obtain ⟨task, rfl, adjacent, unlinked⟩ := inv
  refine shape.store adjacent unlinked rfl rfl rfl rfl (fun p => .inl ⟨rfl, ?_⟩)
    (.inr ⟨rfl, task, adjacent.mem_right⟩)
  intro e target
  cases target

/-- `tail_` is the stub exactly when the stub is the first node. -/
theorem Shape.tail_stub (shape : Shape s) {x : Option Entry} {rest : List (Option Entry)}
    (nodes : s.nodes = x :: rest) : s.tail = .stub ↔ x = none := by
  have tail := shape.tail
  rw [nodes] at tail
  have same : nodeOf x = s.tail := Option.some.inj tail
  rw [← same]
  cases x with
  | none => simp [nodeOf]
  | some e => simp [nodeOf]

/-- When `tail_` is `head_` there is one node. -/
theorem Shape.single (shape : Shape s) (level : s.tail = s.head) :
    ∃ x, s.nodes = [x] ∧ nodeOf x = s.tail := by
  obtain ⟨x, rest, nodes, tail⟩ := shape.nonempty
  cases rest with
  | nil => exact ⟨x, nodes, tail⟩
  | cons y rest =>
    have adjacent : Adjacent s.nodes x y := by
      rw [nodes]
      exact ⟨[], rest, rfl⟩
    exact absurd (tail.trans level) (shape.ne_head adjacent)

/-- Every step of the consumer keeps the shape. -/
theorem Shape.consumerStep (shape : Shape s) (stepped : consumerStep s = some t) : Shape t := by
  have inv := shape.consumer
  have noLink {pc : ConsumerPc} (place : s.consumer = pc)
      (other : ∀ prev b, pc ≠ .stubLink prev b) : ∀ prev b, s.consumer ≠ .stubLink prev b := by
    rw [place]
    exact other
  unfold MPSC.consumerStep at stepped
  cases place : s.consumer with
  | idle =>
    rw [place] at stepped
    cases stepped
  | popNext =>
    have here := noLink place (by simp)
    rw [place] at stepped
    dsimp only at stepped
    split at stepped
    · rename_i next found
      split at stepped
      · rename_i stub
        cases stepped
        refine shape.advance found here ?_
        obtain ⟨x, y, rest, nodes, tail, rfl⟩ := shape.follow found
        have distinct := shape.nodup
        obtain rfl := (shape.tail_stub nodes).mp stub
        rw [nodes] at distinct
        cases y with
        | none => simp at distinct
        | some e => simp [ConsumerInv, nodeOf]
      · cases stepped
        exact shape.advance found here trivial
    · split at stepped
      · cases stepped
        exact shape.read here trivial
      · rename_i task
        cases stepped
        exact shape.read here task
  | popSecond =>
    have here := noLink place (by simp)
    rw [place] at stepped inv
    dsimp only at stepped
    split at stepped
    · rename_i next found
      cases stepped
      exact shape.advance found here trivial
    · cases stepped
      exact shape.read here inv
  | popHead =>
    have here := noLink place (by simp)
    rw [place] at stepped inv
    dsimp only at stepped
    split at stepped
    · cases stepped
      exact shape.read here trivial
    · rename_i level
      cases stepped
      refine shape.read here ⟨inv, ?_⟩
      obtain ⟨x, nodes, tail⟩ := shape.single (not_not.mp level)
      have task : x ≠ none := fun stub => inv ((shape.tail_stub nodes).mpr stub)
      simp [nodes, task.symm]
  | stubClear =>
    rw [place] at stepped
    cases stepped
    exact shape.stubClear place
  | stubExchange =>
    rw [place] at stepped
    cases stepped
    exact shape.stubExchange place
  | stubLink prev b =>
    rw [place] at stepped
    cases stepped
    exact shape.stubLink place
  | popAgain =>
    have here := noLink place (by simp)
    rw [place] at stepped
    dsimp only at stepped
    split at stepped
    · rename_i next found
      cases stepped
      exact shape.advance found here trivial
    · cases stepped
      exact shape.read here trivial
  | quietNext =>
    have here := noLink place (by simp)
    rw [place] at stepped
    dsimp only at stepped
    split at stepped
    · cases stepped
      exact shape.read here trivial
    · rename_i stub
      split at stepped
      · cases stepped
        exact shape.read here trivial
      · cases stepped
        exact shape.read here (not_not.mp stub)
  | quietHead =>
    have here := noLink place (by simp)
    rw [place] at stepped
    cases stepped
    exact shape.read here trivial

/-! ## Whole runs -/

/-- The shape does not depend on whether a gap was noted. -/
theorem Shape.note (shape : Shape s) (gap : Bool) : Shape { s with gap } := by
  refine ⟨shape.tail, shape.head, shape.distinct, shape.last, fun x y adjacent => ?_,
    fun p => ?_, shape.apart, ?_⟩
  · refine (shape.joined x y adjacent).imp_right fun ⟨unlinked, waits⟩ => ⟨unlinked, ?_⟩
    exact waits.transfer (fun _ _ _ _ => rfl) fun _ _ => rfl
  · exact (shape.producer p).transfer (fun u mem => shape.held_outside mem) (fun _ _ => rfl)
      fun e b _ adjacent unlinked => ⟨adjacent, unlinked⟩
  · exact shape.consumer.transfer rfl Iff.rfl (fun _ unlinked => unlinked)
      fun b adjacent unlinked => ⟨adjacent, unlinked⟩

theorem Shape.enter (shape : Shape s) {p : ConsumerPc}
    (free : ∀ u : State n, ConsumerInv u p) (entered : s.enter p = some t) : Shape t := by
  unfold State.enter at entered
  split at entered
  · rename_i idle
    cases entered
    refine Shape.note (s := { s with consumer := p }) ?_ false
    exact shape.read (by rw [idle]; simp) (free _)
  · cases entered

theorem Shape.move (shape : Shape s) {a : Label n} (moved : move s a = some t) : Shape t := by
  cases a with
  | prepare task value =>
    simp only [MPSC.move] at moved
    split at moved
    · rename_i free
      cases moved
      exact shape.prepare free
    · cases moved
  | push p task | pushBatch p items => exact shape.pushBatch moved
  | producer p => exact shape.producerStep moved
  | pop => exact shape.enter (p := .popNext) (fun _ => trivial) moved
  | quiescent => exact shape.enter (p := .quietNext) (fun _ => trivial) moved
  | consumer => exact shape.consumerStep moved

/-- The shape holds in every run. -/
theorem reach_shape : ∀ {s : State n}, Reach step anyStep (initial n) s → Shape s := by
  refine Reach.invariant initial_shape fun shape _ stepped => ?_
  obtain ⟨t, moved, rfl⟩ := Option.map_eq_some_iff.mp stepped
  exact (shape.move moved).note _

end JLibSched.MPSC
