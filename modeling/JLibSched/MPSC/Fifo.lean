import JLibSched.MPSC.Shape

/-!
# The inbox queue is first in, first out

The order of the exchanges is the order of the pops: what was pushed is what was popped
followed by what is in the queue.  A producer makes one call after the other, so its own tasks
come out in the order it pushed them.

`pop` answers false only when, at some moment of the call, the queue was empty or cut behind
`tail_`.  That moment may have passed: `pop` looks at `tail->next` first and at `head_` later,
and a whole push fits between the two.
-/

namespace JLibSched.MPSC

open Transition

variable {n : Nat} {s t : State n}

/-! ## What the queue holds -/

/-- What a result hands out. -/
def Result.out : Result → Option Node
  | .popped out => some out
  | _ => none

/-- The records agree with the queue. -/
structure Logs (s : State n) : Prop where
  fifo : s.pushed = s.popped ++ s.content
  numbers : ∀ i (h : i < s.pushed.length), s.pushed[i].number = i
  order : ∀ p, s.called p =
    (s.pushed.filter fun e => e.producer = p.val).map (·.task) ++ (s.producer p).held
  outs : s.results.filterMap Result.out = s.popped.map fun e => .task e.task

theorem initial_logs : Logs (initial n) :=
  ⟨rfl, fun _ none => absurd none (Nat.not_lt_zero _), fun _ => rfl, rfl⟩

theorem content_append (run : List Entry) (nodes : List (Option Entry)) :
    (nodes ++ run.map some).filterMap id = nodes.filterMap id ++ run := by
  rw [List.filterMap_append, List.filterMap_map]
  simp

theorem number_entries {p : Nat} : ∀ {number i : Nat} {items : List Nat}
    (h : i < (entries p number items).length), (entries p number items)[i].number = number + i
  | _, _, [], h => by cases h
  | number, 0, task :: rest, _ => rfl
  | number, i + 1, task :: rest, h => by
      simp only [entries, List.getElem_cons_succ]
      rw [number_entries]
      omega

theorem filter_entries (p q number : Nat) (items : List Nat) :
    ((entries p number items).filter fun e => e.producer = q).map (·.task) =
      if q = p then items else [] := by
  split
  · rename_i same
    subst same
    rw [List.filter_eq_self.mpr fun e mem => by simp [producer_entries mem]]
    exact map_task_entries q number items
  · rename_i different
    rw [List.filter_eq_nil_iff.mpr]
    · rfl
    · intro e mem
      simp [producer_entries mem, Ne.symm different]

/-- A step that changes no record, and no push before its exchange. -/
theorem Logs.keep (logs : Logs s) (pushed : t.pushed = s.pushed) (popped : t.popped = s.popped)
    (content : t.content = s.content) (called : t.called = s.called)
    (held : ∀ p, (t.producer p).held = (s.producer p).held)
    (outs : t.results.filterMap Result.out = s.results.filterMap Result.out) : Logs t := by
  refine ⟨?_, ?_, fun p => ?_, ?_⟩
  · rw [pushed, popped, content]
    exact logs.fifo
  · rw [pushed]
    exact logs.numbers
  · rw [called, pushed, held]
    exact logs.order p
  · rw [outs, popped]
    exact logs.outs

theorem held_update {p q : Fin n} {pc : ProducerPc} (same : pc.held = (s.producer p).held) :
    (Function.update s.producer p pc q).held = (s.producer q).held := by
  rcases eq_or_ne q p with rfl | other
  · rw [Function.update_self, same]
  · rw [Function.update_of_ne other]

theorem Logs.pushBatch {p : Fin n} {items : List Nat} (logs : Logs s)
    (pushed : pushBatch s p items = some t) : Logs t := by
  unfold MPSC.pushBatch at pushed
  split at pushed
  · rename_i allowed
    cases pushed
    refine ⟨logs.fifo, logs.numbers, fun q => ?_, logs.outs⟩
    have order := logs.order q
    simp only [State.setProducer]
    rcases eq_or_ne q p with rfl | other
    · rw [allowed.1] at order
      rw [Function.update_self, Function.update_self, order]
      simp [ProducerPc.held]
    · rw [Function.update_of_ne other, Function.update_of_ne other]
      exact order
  · cases pushed

theorem Logs.exchange {p : Fin n} {items : List Nat} {run : List Entry} {pc : ProducerPc}
    {head : Node} (logs : Logs s) (place : s.producer p = .exchange items)
    (made : entries p s.pushed.length items = run) (done : pc.held = []) :
    Logs { s.setProducer p pc with
      head, nodes := s.nodes ++ run.map some, pushed := s.pushed ++ run } := by
  refine ⟨?_, ?_, fun q => ?_, logs.outs⟩
  · show s.pushed ++ run = s.popped ++ (s.nodes ++ run.map some).filterMap id
    rw [content_append, ← List.append_assoc, ← State.content, ← logs.fifo]
  · intro i below
    show (s.pushed ++ run)[i].number = i
    rw [List.getElem_append]
    split
    · exact logs.numbers i _
    · subst made
      rw [number_entries]
      omega
  · have order := logs.order q
    simp only [State.setProducer, List.filter_append, List.map_append]
    rw [← made, filter_entries]
    rcases eq_or_ne q p with rfl | other
    · rw [place] at order
      rw [Function.update_self, done, if_pos rfl, order]
      simp [ProducerPc.held]
    · rw [Function.update_of_ne other, if_neg (fun same => other (Fin.ext same)), order]
      simp

theorem Logs.producerStep {p : Fin n} (logs : Logs s) (stepped : producerStep s p = some t) :
    Logs t := by
  unfold MPSC.producerStep at stepped
  cases place : s.producer p with
  | idle =>
    rw [place] at stepped
    cases stepped
  | clear items =>
    rw [place] at stepped
    obtain ⟨last, ends, rfl⟩ := Option.map_eq_some_iff.mp stepped
    exact logs.keep rfl rfl rfl rfl (fun q => held_update (by rw [place]; rfl)) rfl
  | exchange items =>
    rw [place] at stepped
    dsimp only at stepped
    split at stepped
    · rename_i first rest last run ends
      cases stepped
      exact logs.exchange place run rfl
    · cases stepped
  | link first prev e b =>
    rw [place] at stepped
    cases stepped
    exact logs.keep rfl rfl rfl rfl (fun q => held_update (by rw [place]; rfl)) rfl

/-- Handing out the first node. -/
theorem Logs.take {next : Node} (logs : Logs s) (shape : Shape s) (task : s.tail ≠ .stub) :
    Logs (s.take next) := by
  obtain ⟨x, rest, nodes, tail⟩ := shape.nonempty
  cases x with
  | none => exact absurd tail.symm task
  | some e =>
    have content : s.content = e :: rest.filterMap id := by
      rw [State.content, nodes]
      rfl
    have fifo := logs.fifo
    rw [content] at fifo
    have first : s.content.take 1 = [e] := by rw [content]; rfl
    refine ⟨?_, logs.numbers, logs.order, ?_⟩
    · show s.pushed = s.popped ++ s.content.take 1 ++ s.nodes.tail.filterMap id
      rw [first, nodes, fifo, List.append_assoc]
      rfl
    · show (s.results ++ [Result.popped s.tail]).filterMap Result.out =
        (s.popped ++ s.content.take 1).map _
      rw [first, List.filterMap_append, List.map_append, logs.outs, ← tail]
      rfl

theorem Logs.answer (logs : Logs s) {result : Result} (none : result.out = none) :
    Logs (s.answer result) := by
  refine logs.keep rfl rfl rfl rfl (fun _ => rfl) ?_
  show (s.results ++ [result]).filterMap Result.out = _
  simp [none]

theorem Logs.consumerStep (logs : Logs s) (shape : Shape s)
    (stepped : consumerStep s = some t) : Logs t := by
  have inv := shape.consumer
  have read {pc : ConsumerPc} : Logs { s with consumer := pc } :=
    logs.keep rfl rfl rfl rfl (fun _ => rfl) rfl
  unfold MPSC.consumerStep at stepped
  cases place : s.consumer with
  | idle =>
    rw [place] at stepped
    cases stepped
  | popNext =>
    rw [place] at stepped
    dsimp only at stepped
    split at stepped
    · split at stepped
      · rename_i next found stub
        cases stepped
        refine logs.keep rfl rfl ?_ rfl (fun _ => rfl) rfl
        obtain ⟨x, rest, nodes, tail⟩ := shape.nonempty
        obtain rfl := (shape.tail_stub nodes).mp stub
        simp [State.content, nodes]
      · rename_i task
        cases stepped
        exact logs.take shape task
    · split at stepped
      · cases stepped
        exact logs.answer rfl
      · cases stepped
        exact read
  | popSecond =>
    rw [place] at stepped inv
    dsimp only at stepped
    split at stepped
    · cases stepped
      exact logs.take shape inv
    · cases stepped
      exact read
  | popHead =>
    rw [place] at stepped
    dsimp only at stepped
    split at stepped
    · cases stepped
      exact logs.answer rfl
    · cases stepped
      exact read
  | stubClear | stubLink prev b =>
    rw [place] at stepped
    cases stepped
    exact logs.keep rfl rfl rfl rfl (fun _ => rfl) rfl
  | stubExchange =>
    rw [place] at stepped
    cases stepped
    refine logs.keep rfl rfl ?_ rfl (fun _ => rfl) rfl
    simp [State.content]
  | popAgain =>
    rw [place] at stepped inv
    dsimp only at stepped
    split at stepped
    · cases stepped
      exact logs.take shape inv.1
    · cases stepped
      exact logs.answer rfl
  | quietNext =>
    rw [place] at stepped
    dsimp only at stepped
    split at stepped
    · cases stepped
      exact logs.answer rfl
    · split at stepped
      · cases stepped
        exact logs.answer rfl
      · cases stepped
        exact read
  | quietHead =>
    rw [place] at stepped
    cases stepped
    exact logs.answer rfl

theorem Logs.move (logs : Logs s) (shape : Shape s) {a : Label n}
    (moved : move s a = some t) : Logs t := by
  cases a with
  | prepare task value =>
    simp only [MPSC.move] at moved
    split at moved
    · cases moved
      exact logs.keep rfl rfl rfl rfl (fun _ => rfl) rfl
    · cases moved
  | push p task | pushBatch p items => exact logs.pushBatch moved
  | producer p => exact logs.producerStep moved
  | pop | quiescent =>
    simp only [MPSC.move, State.enter] at moved
    split at moved
    · cases moved
      exact logs.keep rfl rfl rfl rfl (fun _ => rfl) rfl
    · cases moved
  | consumer => exact logs.consumerStep shape moved

theorem reach_logs : ∀ {s : State n}, Reach step anyStep (initial n) s → Logs s := by
  refine Reach.invariant_of reach_shape initial_logs fun shape logs _ stepped => ?_
  obtain ⟨t, moved, rfl⟩ := Option.map_eq_some_iff.mp stepped
  exact (logs.move shape moved).keep rfl rfl rfl rfl (fun _ => rfl) rfl

/-! ## What `pop` and `quiescent` answer -/

/-- A `pop` that returned nothing saw the queue empty or cut, and a `quiescent` that said yes
found nothing, not even a push that had only exchanged `head_`. -/
def Result.Good : Result → Prop
  | .popped _ => True
  | .nothing gap => gap = true
  | .quiescent answer left => answer = true → left = []

/-- While `pop` is about to compare `tail_` with `head_`, a second node means it saw the cut. -/
structure Answers (s : State n) : Prop where
  noted : s.consumer ≠ .idle → s.gapNow → s.gap
  blind : s.consumer = .popHead → s.gap = true ∨ s.nodes.length = 1
  good : ∀ r ∈ s.results, r.Good

/-- A link that is missing behind `tail_` is a push between its exchange and its store. -/
theorem Shape.gapNow_of_unlinked (shape : Shape s)
    (noLink : ∀ prev b, s.consumer ≠ .stubLink prev b) (unlinked : s.next s.tail = none)
    (more : s.tail = .stub ∨ s.nodes.length ≠ 1) : s.gapNow := by
  obtain ⟨x, rest, nodes, tail⟩ := shape.nonempty
  simp only [State.gapNow, decide_eq_true_eq]
  cases rest with
  | nil =>
    rcases more with stub | more
    · obtain rfl := (shape.tail_stub nodes).mp stub
      exact .inl (by rw [State.content, nodes]; rfl)
    · simp [nodes] at more
  | cons y rest =>
    have adjacent : Adjacent s.nodes x y := by
      rw [nodes]
      exact ⟨[], rest, rfl⟩
    rcases shape.joined x y adjacent with linked | ⟨-, waits⟩
    · rw [tail, unlinked] at linked
      cases linked
    · cases y with
      | none => exact absurd waits (noLink _ _)
      | some e =>
        obtain ⟨p, -, here⟩ := waits
        exact .inr ⟨p, by simp [here, ProducerPc.cuts, tail]⟩

/-- A push cannot hide its exchange from a `pop` that is about to load `head_`. -/
theorem gapNow_of_exchange {p : Fin n} {first : Entry} {rest : List Entry}
    {last : Nat} (shape : Shape s) (single : s.nodes.length = 1) :
    State.gapNow { s.setProducer p
        (.link first.task s.head first (s.nodes.getLast?.getD none)) with
      head := .task last
      nodes := s.nodes ++ (first :: rest).map some
      pushed := s.pushed ++ first :: rest } := by
  obtain ⟨x, nodes⟩ := List.length_eq_one_iff.mp single
  have tail := shape.tail
  have head := shape.head
  rw [nodes] at tail head
  have level : s.head = s.tail := Option.some.inj (head.symm.trans tail)
  simp only [State.gapNow, decide_eq_true_eq]
  refine .inr ⟨p, ?_⟩
  simp [State.setProducer, ProducerPc.cuts, level]

/-- What a step of the consumer adds to the answers is good, and where it goes on to load
`head_` it has seen the cut or there is none. -/
theorem Answers.consumerStep (answers : Answers s) (shape : Shape s)
    (stepped : consumerStep s = some t) :
    (t.consumer = .popHead → t.gapNow = true ∨ t.nodes.length = 1) ∧
      ∀ r ∈ t.results, r.Good := by
  have inv := shape.consumer
  have good := answers.good
  have answer {r : Result} (fine : r.Good) : ∀ r' ∈ s.results ++ [r], r'.Good := by
    intro r' mem
    rcases List.mem_append.mp mem with old | new
    · exact good r' old
    · rw [List.mem_singleton.mp new]
      exact fine
  have taken {next : Node} : ∀ r ∈ (s.take next).results, r.Good := answer trivial
  have busy {pc : ConsumerPc} (place : s.consumer = pc) (other : pc ≠ .idle) (now : s.gapNow) :
      s.gap = true := answers.noted (by rw [place]; exact other) now
  have onward (unlinked : s.next s.tail = none)
      (noLink : ∀ prev b, s.consumer ≠ .stubLink prev b) :
      State.gapNow { s with consumer := .popHead } = true ∨ s.nodes.length = 1 := by
    by_cases single : s.nodes.length = 1
    · exact .inr single
    · exact .inl (shape.gapNow_of_unlinked noLink unlinked (.inr single))
  unfold MPSC.consumerStep at stepped
  cases place : s.consumer with
  | idle =>
    rw [place] at stepped
    cases stepped
  | popNext =>
    rw [place] at stepped
    dsimp only at stepped
    split at stepped
    · split at stepped
      · cases stepped
        exact ⟨fun here => (by cases here), good⟩
      · cases stepped
        exact ⟨fun here => (by cases here), taken⟩
    · rename_i unlinked
      split at stepped
      · rename_i stub
        cases stepped
        refine ⟨fun here => (by cases here), answer (r := .nothing s.gap) (busy place (by simp) ?_)⟩
        exact shape.gapNow_of_unlinked (by rw [place]; simp) unlinked (.inl stub)
      · cases stepped
        exact ⟨fun _ => onward unlinked (by rw [place]; simp), good⟩
  | popSecond =>
    rw [place] at stepped
    dsimp only at stepped
    split at stepped
    · cases stepped
      exact ⟨fun here => (by cases here), taken⟩
    · rename_i unlinked
      cases stepped
      exact ⟨fun _ => onward unlinked (by rw [place]; simp), good⟩
  | popHead =>
    rw [place] at stepped
    dsimp only at stepped
    split at stepped
    · rename_i behind
      cases stepped
      refine ⟨fun here => (by cases here), answer ?_⟩
      rcases answers.blind place with seen | single
      · exact seen
      · obtain ⟨x, nodes⟩ := List.length_eq_one_iff.mp single
        have tail := shape.tail
        have head := shape.head
        rw [nodes] at tail head
        exact absurd (Option.some.inj (tail.symm.trans head)) behind
    · cases stepped
      exact ⟨fun here => (by cases here), good⟩
  | stubClear | stubExchange | stubLink prev b =>
    rw [place] at stepped
    cases stepped
    exact ⟨fun here => (by cases here), good⟩
  | popAgain =>
    rw [place] at stepped inv
    dsimp only at stepped
    split at stepped
    · cases stepped
      exact ⟨fun here => (by cases here), taken⟩
    · rename_i unlinked
      cases stepped
      refine ⟨fun here => (by cases here), answer (r := .nothing s.gap) (busy place (by simp) ?_)⟩
      refine shape.gapNow_of_unlinked (by rw [place]; simp) unlinked (.inr fun single => ?_)
      obtain ⟨x, nodes⟩ := List.length_eq_one_iff.mp single
      have stub := inv.2
      rw [nodes, List.mem_singleton] at stub
      exact inv.1 ((shape.tail_stub nodes).mpr stub.symm)
  | quietNext =>
    rw [place] at stepped
    dsimp only at stepped
    split at stepped
    · cases stepped
      exact ⟨fun here => (by cases here), answer (by simp [Result.Good])⟩
    · split at stepped
      · cases stepped
        exact ⟨fun here => (by cases here), answer (by simp [Result.Good])⟩
      · cases stepped
        exact ⟨fun here => (by cases here), good⟩
  | quietHead =>
    rw [place] at stepped inv
    cases stepped
    refine ⟨fun here => (by cases here), answer fun yes => ?_⟩
    obtain ⟨x, nodes, -⟩ := shape.single (of_decide_eq_true yes).symm
    obtain rfl := (shape.tail_stub nodes).mp inv
    rw [State.content, nodes]
    rfl

/-- A step of somebody else leaves the consumer where it is and its answers as they are; a
second node comes with the cut in front of it. -/
theorem producerStep_gap {p : Fin n} (shape : Shape s) (stepped : producerStep s p = some t) :
    t.consumer = s.consumer ∧ t.gap = s.gap ∧ t.results = s.results ∧
      (s.nodes.length = 1 → t.gapNow = true ∨ t.nodes.length = 1) := by
  unfold producerStep at stepped
  cases place : s.producer p with
  | idle =>
    rw [place] at stepped
    cases stepped
  | clear items =>
    rw [place] at stepped
    obtain ⟨last, ends, rfl⟩ := Option.map_eq_some_iff.mp stepped
    exact ⟨rfl, rfl, rfl, .inr⟩
  | exchange items =>
    rw [place] at stepped
    dsimp only at stepped
    split at stepped
    · cases stepped
      exact ⟨rfl, rfl, rfl, fun single => .inl (gapNow_of_exchange shape single)⟩
    · cases stepped
  | link first prev e b =>
    rw [place] at stepped
    cases stepped
    exact ⟨rfl, rfl, rfl, .inr⟩

theorem Answers.move (answers : Answers s) (shape : Shape s) {a : Label n}
    (moved : move s a = some t) :
    (t.consumer = .popHead → t.gap = true ∨ t.gapNow = true ∨ t.nodes.length = 1) ∧
      ∀ r ∈ t.results, r.Good := by
  have still (consumer : t.consumer = s.consumer) (gap : t.gap = s.gap)
      (nodes : s.nodes.length = 1 → t.gapNow = true ∨ t.nodes.length = 1) :
      t.consumer = .popHead → t.gap = true ∨ t.gapNow = true ∨ t.nodes.length = 1 := by
    intro here
    rw [consumer] at here
    rw [gap]
    exact (answers.blind here).imp_right nodes
  cases a with
  | prepare task value =>
    simp only [MPSC.move] at moved
    split at moved
    · cases moved
      exact ⟨still rfl rfl .inr, answers.good⟩
    · cases moved
  | push p task | pushBatch p items =>
    simp only [MPSC.move, pushBatch] at moved
    split at moved
    · cases moved
      exact ⟨still rfl rfl .inr, answers.good⟩
    · cases moved
  | producer p =>
    obtain ⟨consumer, gap, results, nodes⟩ := producerStep_gap shape moved
    refine ⟨still consumer gap nodes, ?_⟩
    rw [results]
    exact answers.good
  | pop | quiescent =>
    simp only [MPSC.move, State.enter] at moved
    split at moved
    · cases moved
      exact ⟨fun here => (by cases here), answers.good⟩
    · cases moved
  | consumer =>
    obtain ⟨blind, good⟩ := answers.consumerStep shape moved
    exact ⟨fun here => .inr (blind here), good⟩

theorem reach_answers : ∀ {s : State n}, Reach step anyStep (initial n) s → Answers s := by
  refine Reach.invariant_of reach_shape ?_ fun shape answers _ stepped => ?_
  · exact ⟨fun busy => absurd rfl busy, fun here => (by cases here), fun r none => by cases none⟩
  · obtain ⟨t, moved, rfl⟩ := Option.map_eq_some_iff.mp stepped
    obtain ⟨blind, good⟩ := answers.move shape moved
    refine ⟨fun _ now => ?_, fun here => ?_, good⟩
    · have same : t.gapNow = true := now
      simp [same]
    · rcases blind here with seen | now | single
      · exact .inl (by simp [seen])
      · exact .inl (by simp [now])
      · exact .inr single

/-! ## The queue as a whole -/

/-- What the queue promises. -/
structure Correct (s : State n) : Prop where
  /-- Each push is one entry, and the entries come out in the order they went in. -/
  distinct : s.pushed.Nodup
  fifo : s.pushed = s.popped ++ s.content
  outs : s.results.filterMap Result.out = s.popped.map fun e => .task e.task
  /-- What came out of one producer's tasks is what it pushed first. -/
  order : ∀ p, ((s.popped.filter fun e => e.producer = p.val).map (·.task)) <+: s.called p
  /-- `tail_` is the first node and `head_` the last one, with nothing behind it. -/
  tail : s.nodes.head?.map nodeOf = some s.tail
  head : s.nodes.getLast?.map nodeOf = some s.head
  last : s.next s.head = none
  /-- With no push and no `pop` under way the whole content hangs together from `tail_`. -/
  linked : (∀ p, s.producer p = .idle) → s.consumer = .idle → ∀ x y, Adjacent s.nodes x y →
    s.next (nodeOf x) = some (nodeOf y)
  /-- `pop` fails only if it met the queue empty or cut, `quiescent` only accepts emptiness. -/
  answers : ∀ r ∈ s.results, r.Good
  /-- A link is stored into the stub or into a task that has not been popped. -/
  writes : ∀ p first prev e before, s.producer p = .link first prev e before →
    prev = nodeOf before ∧ ∀ b, before = some b → b ∈ s.content ∧ b ∉ s.popped
  stubOnce : s.nodes.count none ≤ 1

theorem Logs.distinct (logs : Logs s) : s.pushed.Nodup := by
  rw [List.nodup_iff_injective_getElem]
  intro i j same
  have left := logs.numbers i.val i.isLt
  have right := logs.numbers j.val j.isLt
  have equal : s.pushed[i.val] = s.pushed[j.val] := same
  rw [equal, right] at left
  exact Fin.ext left.symm

/-- In every interleaving of any number of producers with the consumer. -/
theorem correct (reach : Reach step anyStep (initial n) s) : Correct s := by
  have shape := reach_shape reach
  have logs := reach_logs reach
  refine ⟨logs.distinct, logs.fifo, logs.outs, fun p => ?_, shape.tail, shape.head, shape.last, ?_,
    (reach_answers reach).good,
    ?_, List.nodup_iff_count_le_one.mp shape.nodup none⟩
  · refine ⟨(s.content.filter fun e => e.producer = p.val).map (·.task) ++
      (s.producer p).held, ?_⟩
    rw [logs.order p, logs.fifo, List.filter_append, List.map_append, List.append_assoc]
  · intro producers consumer x y adjacent
    refine (shape.joined x y adjacent).resolve_right fun ⟨_, waits⟩ => ?_
    cases y with
    | none =>
      have here : s.consumer = .stubLink (nodeOf x) x := waits
      rw [consumer] at here
      cases here
    | some e =>
      obtain ⟨p, -, here⟩ := waits
      rw [producers p] at here
      cases here
  · intro p first prev e before here
    have inv := shape.producer p
    rw [here] at inv
    obtain ⟨-, place, -, adjacent, -⟩ := inv
    refine ⟨place, ?_⟩
    rintro b rfl
    have inside : b ∈ s.content := List.mem_filterMap.mpr ⟨some b, adjacent.mem_left, rfl⟩
    have distinct := logs.distinct
    rw [logs.fifo] at distinct
    exact ⟨inside, fun out => (List.nodup_append.mp distinct).2.2 b out b inside rfl⟩

/-- One producer pushes; the consumer starts a `pop` and loads `tail->next`; the producer
pushes again from start to end. -/
def overtaken : List (Label 1) :=
  [.push 0 0, .producer 0, .producer 0, .producer 0, .pop, .consumer, .consumer,
    .push 0 1, .producer 0, .producer 0, .producer 0]

/-- Then `pop` returns false although both pushes are complete and linked. -/
theorem pop_false_with_two :
    ∃ s t : State 1, Reach step anyStep (initial 1) s ∧ step s .consumer = some t ∧
      t.results = s.results ++ [.nothing true] ∧ (∀ p, t.producer p = .idle) ∧
      t.content.map (·.task) = [0, 1] ∧ t.tail = .task 0 ∧ t.next t.tail = some (.task 1) :=
  ⟨_, _, Reach.of_run .start (rfl : run step anyStep (initial 1) overtaken = some _), rfl, rfl,
    by decide, by decide, rfl, rfl⟩

/-- The same run, one `pop` later. -/
theorem correct_overtaken :
    ∃ s : State 1, Reach step anyStep (initial 1) s ∧
      s.results = [.nothing true, .popped (.task 0)] ∧ Correct s :=
  ⟨_, Reach.of_run .start (rfl : run step anyStep (initial 1)
      (overtaken ++ [.consumer, .pop, .consumer]) = some _), rfl,
    correct (Reach.of_run .start (rfl : run step anyStep (initial 1)
      (overtaken ++ [.consumer, .pop, .consumer]) = some _))⟩

end JLibSched.MPSC
