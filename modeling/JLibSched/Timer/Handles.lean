import JLibSched.Timer.Acts

/-!
# A timer ends once

The generation of an entry counts its uses: `2 * uses` while it is free and one less while it is
armed.  So a handle is current exactly as long as the timer it was returned for, until the generation
comes round after `2 ^ 31` uses.
-/

namespace JLibSched.History

open Transition Timer Wheel

variable {s t u : Timer.State} {e es log : List Event} {h : Nat × Nat} {i : Nat}

/-- `Arm` has returned the handle. -/
def Event.returns (h : Nat × Nat) : Event → Bool
  | .armed i g _ _ => h = (i, g)
  | _ => false

def Event.collects (h : Nat × Nat) : Event → Bool
  | .collected i g _ => h = (i, g)
  | _ => false

/-- `Disarm` has returned true for the handle. -/
def Event.disarms (h : Nat × Nat) : Event → Bool
  | .disarmed i g true => h = (i, g)
  | _ => false

def Event.acquired : Event → Option Nat
  | .armed j _ _ _ | .started _ j _ _ => some j
  | _ => none

def uses (log : List Event) (i : Nat) : Nat := log.countP (Event.acquires i)

/-- No entry is used more than `2 ^ 31` times, so it is reused fewer than `2 ^ 31` times. -/
def fewReuses (s : State) : Label → Prop
  | .timer a => ∀ i ∈ (events s.timer a).filterMap Event.acquired,
      uses (s.log ++ events s.timer a) i ≤ 2 ^ 31
  | _ => True

instance (s : State) : (a : Label) → Decidable (fewReuses s a)
  | .timer a => inferInstanceAs (Decidable (∀ i ∈ (events s.timer a).filterMap Event.acquired,
      uses (s.log ++ events s.timer a) i ≤ 2 ^ 31))
  | .begins _ | .ends _ _ | .fails _ => isTrue trivial

/-- The timer of the handle is armed. -/
def Live (t : Timer.State) (h : Nat × Nat) : Prop :=
  (t.wheel.entries h.1).generation = h.2 ∧ (t.wheel.entries h.1).level ≠ none ∧
    (t.wheel.entries h.1).periodic = none

instance (t : Timer.State) (h : Nat × Nat) : Decidable (Live t h) :=
  inferInstanceAs (Decidable (_ ∧ _ ≠ none ∧ _))

def live (t : Timer.State) (h : Nat × Nat) : Nat := if Live t h then 1 else 0

/-- The entries that are armed. -/
def armedEntries (w : Wheel) : Finset Nat := {i ∈ Finset.range w.size | (w.entries i).armed}

/-! ## The books -/

/-- The generations and the log agree. -/
structure Books (t : Timer.State) (log : List Event) : Prop where
  sound : Sound t
  on : ∀ i, (t.wheel.entries i).level ≠ none →
    (t.wheel.entries i).generation + 1 = 2 * uses log i
  off : ∀ i, (t.wheel.entries i).level = none →
    (t.wheel.entries i).generation = 2 * uses log i % 2 ^ 32
  returned : ∀ h, 0 < log.countP (Event.returns h) → h.2 % 2 = 1 ∧ h.2 < 2 * uses log h.1
  own : ∀ h, 0 < log.countP (Event.returns h) → (t.wheel.entries h.1).generation = h.2 →
    (t.wheel.entries h.1).periodic = none
  once : ∀ h, log.countP (Event.returns h) ≤ 1
  ended : ∀ h, log.countP (Event.collects h) + log.countP (Event.disarms h) + live t h =
    log.countP (Event.returns h)
  armedCount : t.wheel.armedCount = (armedEntries t.wheel).card

theorem live_congr (generation : (t.wheel.entries h.1).generation = (s.wheel.entries h.1).generation)
    (off : (t.wheel.entries h.1).level = none ↔ (s.wheel.entries h.1).level = none)
    (periodic : (t.wheel.entries h.1).periodic = (s.wheel.entries h.1).periodic) :
    live t h = live s h := by
  have same : Live t h ↔ Live s h := by
    unfold Live
    rw [generation, periodic, Ne, off]
  exact if_congr same rfl rfl

theorem live_off (off : (t.wheel.entries h.1).level = none) : live t h = 0 :=
  if_neg fun live => live.2.1 off

theorem live_other (other : (t.wheel.entries h.1).generation ≠ h.2) : live t h = 0 :=
  if_neg fun live => other live.1

theorem live_periodic (periodic : (t.wheel.entries h.1).periodic ≠ none) : live t h = 0 :=
  if_neg fun live => periodic live.2.2

theorem uses_append (i : Nat) : uses (log ++ e) i = uses log i + uses e i := List.countP_append

theorem insert_armedCount (w : Wheel) (d : Nat) (fill : Entry → Entry) :
    (State.insert w d fill).1.armedCount = w.armedCount + 1 := by
  have acquired : w.acquireEntry.1.armedCount = w.armedCount := by
    unfold acquireEntry
    split <;> rfl
  exact congrArg (· + 1) acquired

theorem mem_armedEntries {w : Wheel} (valid : Valid w) :
    i ∈ armedEntries w ↔ (w.entries i).level ≠ none := by
  unfold armedEntries
  rw [Finset.mem_filter, Finset.mem_range, valid.parity]
  refine ⟨And.right, fun on => ⟨?_, on⟩⟩
  by_contra beyond
  rw [valid.blank i (Nat.not_lt.mp beyond)] at on
  exact on rfl

/-- An act that neither takes nor ends an entry. -/
theorem Books.still (books : Books s log) (sound : Sound t)
    (generation : ∀ i, (t.wheel.entries i).generation = (s.wheel.entries i).generation)
    (off : ∀ i, (t.wheel.entries i).level = none ↔ (s.wheel.entries i).level = none)
    (periodic : ∀ i, (t.wheel.entries i).periodic = (s.wheel.entries i).periodic)
    (armedCount : t.wheel.armedCount = s.wheel.armedCount)
    (acquires : ∀ i, uses e i = 0) (returns : ∀ h, e.countP (Event.returns h) = 0)
    (collects : ∀ h, e.countP (Event.collects h) = 0)
    (disarms : ∀ h, e.countP (Event.disarms h) = 0) : Books t (log ++ e) := by
  have same (i : Nat) : uses (log ++ e) i = uses log i := by rw [uses_append, acquires, Nat.add_zero]
  have entries : armedEntries t.wheel = armedEntries s.wheel := by
    ext i
    rw [mem_armedEntries sound.wheel, mem_armedEntries books.sound.wheel, Ne, off]
  refine ⟨sound, fun i on => ?_, fun i none => ?_, fun h => ?_, fun h => ?_, fun h => ?_,
    fun h => ?_, ?_⟩
  · rw [same, generation]
    exact books.on i fun none => on ((off i).mpr none)
  · rw [same, generation]
    exact books.off i ((off i).mp none)
  · rw [List.countP_append, returns, same]
    exact books.returned h
  · rw [List.countP_append, returns, generation, periodic]
    exact books.own h
  · rw [List.countP_append, returns]
    exact books.once h
  · rw [List.countP_append, List.countP_append, List.countP_append, returns, collects, disarms,
      live_congr (generation h.1) (off h.1) (periodic h.1)]
    exact books.ended h
  · rw [armedCount, books.armedCount, entries]

/-- An act that ends the armed entry `i`. -/
theorem Books.released (books : Books s log) (sound : Sound t)
    (on : (s.wheel.entries i).level ≠ none) (wheel : t.wheel = s.wheel.disarm i)
    (acquires : ∀ i, uses e i = 0) (returns : ∀ h, e.countP (Event.returns h) = 0)
    (ends : ∀ h, e.countP (Event.collects h) + e.countP (Event.disarms h) =
      if h.1 = i then live s h else 0) : Books t (log ++ e) := by
  have same (j : Nat) : uses (log ++ e) j = uses log j := by rw [uses_append, acquires, Nat.add_zero]
  have entries (j : Nat) : t.wheel.entries j = if j = i then
      { bump (s.wheel.entries i) with eject := ⟨none, none, none⟩, periodic := none, level := none }
      else s.wheel.entries j := by
    rw [wheel, disarm_entries]
  have fewer : armedEntries t.wheel = (armedEntries s.wheel).erase i := by
    ext j
    rw [mem_armedEntries sound.wheel, Finset.mem_erase, mem_armedEntries books.sound.wheel, entries]
    split
    · rename_i here
      exact ⟨fun off => absurd rfl off, fun off => absurd here off.1⟩
    · rename_i other
      exact ⟨fun on => ⟨other, on⟩, And.right⟩
  refine ⟨sound, fun j on => ?_, fun j none => ?_, fun h => ?_, fun h => ?_, fun h => ?_,
    fun h => ?_, ?_⟩
  · by_cases here : j = i
    · rw [entries, if_pos here] at on
      exact absurd rfl on
    · rw [same]
      rw [entries, if_neg here] at on ⊢
      exact books.on j on
  · rw [entries] at none ⊢
    rw [same]
    split at none
    · rename_i here
      rw [if_pos here, here, ← books.on i on]
      rfl
    · rename_i other
      rw [if_neg other]
      exact books.off j none
  · rw [List.countP_append, returns, same]
    exact books.returned h
  · rw [List.countP_append, returns, entries]
    split
    · exact fun _ _ => rfl
    · exact books.own h
  · rw [List.countP_append, returns]
    exact books.once h
  · have before := books.ended h
    have now := ends h
    rw [List.countP_append, List.countP_append, List.countP_append, returns]
    by_cases here : h.1 = i
    · rw [if_pos here] at now
      rw [live_off (by rw [entries, if_pos here])]
      omega
    · rw [if_neg here] at now
      rw [live_congr (s := s) (t := t) (by rw [entries, if_neg here]) (by rw [entries, if_neg here])
        (by rw [entries, if_neg here])]
      omega
  · rw [fewer, Finset.card_erase_of_mem ((mem_armedEntries books.sound.wheel).mpr on),
      ← books.armedCount, wheel]
    rfl

/-- An act that takes the entry `i` for an arm or a periodic. -/
theorem Books.taken (books : Books s log) (d : Nat) (fill : Entry → Entry) (sound : Sound t)
    (fills : ∀ e, (fill e).generation = e.generation)
    (wheel : t.wheel = (State.insert s.wheel d fill).1) (next : i = nextEntry s.wheel)
    (acquires : ∀ j, uses e j = if j = i then 1 else 0) (few : uses (log ++ e) i ≤ 2 ^ 31)
    (returns : ∀ h, e.countP (Event.returns h) = live t h - live s h)
    (collects : ∀ h, e.countP (Event.collects h) = 0)
    (disarms : ∀ h, e.countP (Event.disarms h) = 0) : Books t (log ++ e) := by
  have off : (s.wheel.entries i).level = none := by
    rw [next]
    exact insert_off d fill books.sound.wheel
  have entries (j : Nat) : t.wheel.entries j = if j = i then
      Entry.hang { fill (bump (s.wheel.entries i)) with deadlineTick := d }
        (placeOf s.wheel.currentTick d)
      else s.wheel.entries j := by
    rw [wheel, insert_entries books.sound.wheel, next]
    rfl
  have more : uses (log ++ e) i = uses log i + 1 := by rw [uses_append, acquires, if_pos rfl]
  have same {j : Nat} (other : j ≠ i) : uses (log ++ e) j = uses log j := by
    rw [uses_append, acquires, if_neg other, Nat.add_zero]
  have before := books.off i off
  rw [Nat.mod_eq_of_lt (by omega)] at before
  have generation : (t.wheel.entries i).generation = 2 * uses log i + 1 := by
    rw [entries, if_pos rfl]
    refine (fills _).trans ?_
    unfold bump
    dsimp only
    omega
  have bigger : armedEntries t.wheel = insert i (armedEntries s.wheel) := by
    ext j
    rw [mem_armedEntries sound.wheel, Finset.mem_insert, mem_armedEntries books.sound.wheel, entries]
    split
    · rename_i here
      exact ⟨fun _ => .inl here, fun _ => Option.some_ne_none _⟩
    · rename_i other
      exact ⟨.inr, fun found => found.resolve_left other⟩
  have elsewhere {h : Nat × Nat} (other : h.1 ≠ i) : live t h = live s h :=
    live_congr (by rw [entries, if_neg other]) (by rw [entries, if_neg other])
      (by rw [entries, if_neg other])
  have current (h : Nat × Nat) (here : h.1 = i) : live s h = 0 := live_off (here ▸ off)
  have fresh (h : Nat × Nat) (returned : 0 < e.countP (Event.returns h)) :
      h.1 = i ∧ h.2 = 2 * uses log i + 1 := by
    rw [returns] at returned
    by_cases here : h.1 = i
    · refine ⟨here, ?_⟩
      by_contra other
      rw [live_other (by rw [here, generation]; exact fun same => other same.symm)] at returned
      omega
    · rw [elsewhere here, Nat.sub_self] at returned
      exact absurd returned (Nat.lt_irrefl 0)
  have atMost (h : Nat × Nat) : live t h ≤ 1 := by
    unfold live
    split <;> omega
  refine ⟨sound, fun j on => ?_, fun j none => ?_, fun h => ?_, fun h => ?_, fun h => ?_,
    fun h => ?_, ?_⟩
  · by_cases here : j = i
    · rw [here, more, generation]
      omega
    · rw [same here]
      rw [entries, if_neg here] at on ⊢
      exact books.on j on
  · by_cases here : j = i
    · rw [entries, if_pos here] at none
      cases none
    · rw [same here]
      rw [entries, if_neg here] at none ⊢
      exact books.off j none
  · rw [List.countP_append]
    intro returned
    by_cases new : 0 < e.countP (Event.returns h)
    · obtain ⟨here, this⟩ := fresh h new
      rw [here, more, this]
      omega
    · obtain ⟨odd, below⟩ := books.returned h (by omega)
      refine ⟨odd, Nat.lt_of_lt_of_le below ?_⟩
      rw [uses_append]
      omega
  · rw [List.countP_append]
    intro returned now
    by_cases new : 0 < e.countP (Event.returns h)
    · by_contra periodic
      rw [returns, live_periodic periodic, Nat.zero_sub] at new
      exact absurd new (Nat.lt_irrefl 0)
    · have old : 0 < log.countP (Event.returns h) := by omega
      by_cases here : h.1 = i
      · have below := (books.returned h old).2
        rw [here] at below now
        omega
      · rw [entries, if_neg here] at now ⊢
        exact books.own h old now
  · rw [List.countP_append]
    by_cases new : 0 < e.countP (Event.returns h)
    · obtain ⟨here, this⟩ := fresh h new
      have never : log.countP (Event.returns h) = 0 := by
        by_contra some
        have below := (books.returned h (Nat.pos_of_ne_zero some)).2
        rw [here] at below
        omega
      have single := atMost h
      rw [returns] at new ⊢
      omega
    · have once := books.once h
      omega
  · have ended := books.ended h
    rw [List.countP_append, List.countP_append, List.countP_append, collects, disarms, returns]
    by_cases here : h.1 = i
    · have none := current h here
      omega
    · rw [elsewhere here]
      omega
  · rw [bigger, Finset.card_insert_of_notMem fun mem =>
      (mem_armedEntries books.sound.wheel).mp mem off, ← books.armedCount, wheel,
      insert_armedCount]

/-- The event that ends an arm counts for the handle that was live. -/
theorem count_ended (on : (s.wheel.entries i).level ≠ none)
    (plain : (s.wheel.entries i).periodic = none) (h : Nat × Nat) :
    (if h = (i, (s.wheel.entries i).generation) then 1 else 0) =
      if h.1 = i then live s h else 0 := by
  by_cases here : h.1 = i
  · subst here
    rw [if_pos rfl]
    refine if_congr ?_ rfl rfl
    rw [Prod.ext_iff]
    exact ⟨fun same => ⟨same.2.symm, on, plain⟩, fun live => ⟨rfl, live.1.symm⟩⟩
  · rw [if_neg here, if_neg fun same => here (congrArg Prod.fst same)]

theorem Act.books (act : Act s e t) (few : ∀ i, uses (log ++ e) i ≤ 2 ^ 31) (books : Books s log) :
    Books t (log ++ e) := by
  have sound := act.sound books.sound
  have valid := books.sound.wheel
  cases act with
  | quiet quiet =>
    exact books.still sound quiet.generation quiet.off quiet.periodic quiet.armedCount
      (fun _ => rfl) (fun _ => rfl) (fun _ => rfl) fun _ => rfl
  | arm d reading delayNs eject past after =>
    have off := nextEntry_off books.sound
    have entries := armed_entries books.sound d eject
    refine books.taken d (fun e => { e with eject := eject }) sound (fun _ => rfl)
      rfl rfl (fun j => ?_) (few _) (fun h => ?_)
      (fun _ => rfl) fun _ => rfl
    · unfold uses
      rw [List.countP_singleton]
      exact if_congr decide_eq_true_iff rfl rfl
    · rw [List.countP_singleton]
      by_cases here : h.1 = nextEntry s.wheel
      · rw [live_off (t := s) (here ▸ off), Nat.sub_zero]
        refine if_congr ?_ rfl rfl
        unfold Live
        rw [entries, if_pos here]
        refine decide_eq_true_iff.trans ⟨fun same => ?_, fun live => ?_⟩
        · rw [same]
          exact ⟨rfl, Option.some_ne_none _, valid.plain _ off⟩
        · exact Prod.ext here live.1.symm
      · rw [live_congr (s := s) (t := armed s d eject) (by rw [entries, if_neg here])
          (by rw [entries, if_neg here]) (by rw [entries, if_neg here]), Nat.sub_self]
        exact if_neg fun same => here (congrArg Prod.fst (of_decide_eq_true same))
  | start due interval positive =>
    have entries := started_entries books.sound due interval
    refine books.taken (tickFor due) (fun e => { e with periodic := some s.records })
      sound (fun _ => rfl) rfl rfl (fun j => ?_) (few _) (fun h => ?_)
      (fun _ => rfl) fun _ => rfl
    · unfold uses
      rw [List.countP_singleton]
      exact if_congr decide_eq_true_iff rfl rfl
    · by_cases here : h.1 = nextEntry s.wheel
      · rw [live_periodic (t := started s due interval) (by
          rw [entries, if_pos here]
          exact Option.some_ne_none _), Nat.zero_sub]
        rfl
      · rw [live_congr (s := s) (t := started s due interval) (by rw [entries, if_neg here])
          (by rw [entries, if_neg here]) (by rw [entries, if_neg here]), Nat.sub_self]
        rfl
  | disarm i on plain =>
    refine books.released sound on rfl (fun _ => rfl) (fun _ => rfl) fun h => ?_
    rw [← count_ended on plain]
    refine (Nat.zero_add _).trans ?_
    rw [List.countP_singleton]
    exact if_congr decide_eq_true_iff rfl rfl
  | refuse i g ended =>
    exact books.still sound (fun _ => rfl) (fun _ => Iff.rfl) (fun _ => rfl) rfl (fun _ => rfl)
      (fun _ => rfl) (fun _ => rfl) fun _ => rfl
  | collect i on plain due =>
    refine books.released sound on rfl (fun _ => rfl) (fun _ => rfl) fun h => ?_
    rw [← count_ended on plain]
    refine (Nat.add_zero _).trans ?_
    rw [List.countP_singleton]
    exact if_congr decide_eq_true_iff rfl rfl
  | cancel r =>
    unfold State.cancelPeriodic at sound ⊢
    cases entry : (s.record r).entry with
    | none =>
      rw [entry] at sound
      exact books.still sound (fun _ => rfl) (fun _ => Iff.rfl) (fun _ => rfl) rfl
        (fun _ => rfl) (fun _ => rfl) (fun _ => rfl) fun _ => rfl
    | some i =>
      rw [entry] at sound
      obtain ⟨on, periodic⟩ := books.sound.named r i entry
      refine books.released sound on rfl (fun _ => rfl) (fun _ => rfl) fun h => ?_
      by_cases here : h.1 = i
      · rw [if_pos here, live_periodic (by rw [here, periodic]; exact Option.some_ne_none _)]
        rfl
      · rw [if_neg here]
        rfl
  | fire i r on periodic due =>
    refine books.still sound (fun j => ?_) (fun j => ?_) (fun j => ?_) ?_ (fun _ => rfl)
      (fun _ => rfl) (fun _ => rfl) fun _ => rfl
    · rw [firePeriodic_wheel]
      exact refire_generation j _
    · rw [firePeriodic_wheel]
      rcases eq_or_ne j i with rfl | other
      · exact ⟨fun none => absurd none (refire_on _ on), fun off => absurd off on⟩
      · rw [refire_entries, if_neg other]
    · rw [firePeriodic_wheel]
      exact refire_periodic j _
    · rw [firePeriodic_wheel]
      unfold refire unlink
      split <;> rfl

/-! ## Runs -/

theorem acquires_eq (i : Nat) (event : Event) :
    Event.acquires i event = true ↔ event.acquired = some i := by
  cases event with
  | armed | started => exact decide_eq_true_iff.trans (eq_comm.trans Option.some_inj.symm)
  | disarmed | collected | fired | took | finished =>
    exact ⟨fun absurd => (by cases absurd), fun absurd => (by cases absurd)⟩

theorem uses_events {es : List Event} (absent : i ∉ es.filterMap Event.acquired) : uses es i = 0 := by
  refine List.countP_eq_zero.mpr fun event mem acquires => absent ?_
  exact List.mem_filterMap.mpr ⟨event, mem, (acquires_eq i event).mp acquires⟩

/-- The books are kept and no entry has been used too often. -/
structure Kept (s : State) : Prop where
  books : Books s.timer s.log
  few : ∀ i, uses s.log i ≤ 2 ^ 31

theorem initial_kept : Kept initial :=
  ⟨⟨initial_sound, fun _ on => absurd rfl on, fun _ _ => rfl,
    fun _ none => absurd none (Nat.lt_irrefl 0), fun _ none => absurd none (Nat.lt_irrefl 0),
    fun _ => Nat.zero_le _,
    fun h => congrArg (0 + 0 + ·) (live_off (t := Timer.initial) (h := h) rfl), rfl⟩,
    fun _ => Nat.zero_le _⟩

theorem Acts.books (acts : Acts s es t) (few : ∀ i, uses (log ++ es) i ≤ 2 ^ 31)
    (books : Books s log) : Books t (log ++ es) := by
  refine acts.keep (I := fun u log => (∀ i, uses log i ≤ 2 ^ 31) → Books u log) (fun _ => books)
    (fun act before few => ?_) few
  refine act.books few (before fun i => ?_)
  have more := few i
  rw [uses_append] at more
  omega

/-- A record changes in other fields, and the log takes no note of an entry. -/
theorem Books.setRecord {r : Nat} {f : PeriodicRecord → PeriodicRecord} (books : Books s log)
    (same : (f (s.record r)).entry = (s.record r).entry ∧
      (f (s.record r)).interval = (s.record r).interval)
    (acquires : ∀ i, uses e i = 0) (returns : ∀ h, e.countP (Event.returns h) = 0)
    (collects : ∀ h, e.countP (Event.collects h) = 0)
    (disarms : ∀ h, e.countP (Event.disarms h) = 0) : Books (s.setRecord r f) (log ++ e) :=
  books.still (books.sound.setRecord same) (fun _ => rfl) (fun _ => Iff.rfl) (fun _ => rfl) rfl
    acquires returns collects disarms

theorem Books.finishPeriodic {r : Nat} {stop : Bool} (books : Books s log)
    (few : ∀ i, uses log i ≤ 2 ^ 31) :
    Books (s.finishPeriodic r stop) (log ++ [.finished r]) := by
  unfold State.finishPeriodic
  refine Books.setRecord ?_ ⟨rfl, rfl⟩ (fun _ => rfl) (fun _ => rfl) (fun _ => rfl) fun _ => rfl
  cases stop with
  | false => exact books
  | true =>
    have cancelled := (Act.cancel r).books (by rw [List.append_nil]; exact few) books
    rw [List.append_nil] at cancelled
    exact cancelled

theorem Kept.preserved {s t : State} {a : Label} (kept : Kept s) (allowed : fewReuses s a)
    (stepped : step s a = some t) : Kept t := by
  have noted {events : List Event} (acquires : ∀ i, uses events i = 0) (i : Nat) :
      uses (s.log ++ events) i ≤ 2 ^ 31 := by
    rw [uses_append, acquires]
    exact kept.few i
  cases a with
  | timer a =>
    simp only [step] at stepped
    split at stepped
    · cases stepped
    rename_i other
    obtain ⟨u, moved, rfl⟩ := Option.map_eq_some_iff.mp stepped
    have acts := step_acts kept.books.sound (Bool.eq_false_iff.mpr other) moved
    have few (i : Nat) : uses (s.log ++ events s.timer a) i ≤ 2 ^ 31 := by
      by_cases acquired : i ∈ (events s.timer a).filterMap Event.acquired
      · exact allowed i acquired
      · rw [uses_append, uses_events acquired]
        exact kept.few i
    exact ⟨acts.books few kept.books, few⟩
  | begins k =>
    simp only [step] at stepped
    split at stepped <;> cases stepped
    refine ⟨?_, noted fun _ => rfl⟩
    dsimp only
    unfold State.takeSkipped
    exact kept.books.setRecord ⟨rfl, rfl⟩ (fun _ => rfl) (fun _ => rfl) (fun _ => rfl) fun _ => rfl
  | ends | fails =>
    simp only [step] at stepped
    split at stepped <;> cases stepped
    exact ⟨kept.books.finishPeriodic kept.few, noted fun _ => rfl⟩

/-- `Disarm` on a handle that is not live. -/
theorem disarm_ended (sound : Sound s) (plain : ¬ ((s.wheel.entries h.1).generation = h.2 ∧ h.2 % 2 = 1 ∧
      (s.wheel.entries h.1).periodic ≠ none)) (ended : ¬ Live s h) :
    s.disarm h.1 h.2 = (s, false) := by
  unfold State.disarm
  split
  · rfl
  split
  · rfl
  · rename_i current
    simp only [ne_eq, not_or, not_not] at current
    obtain ⟨same, odd⟩ := current
    have armed : (s.wheel.entries h.1).armed := by
      unfold Entry.armed
      omega
    refine absurd ⟨same, (sound.wheel.parity h.1).mp armed, ?_⟩ ended
    by_contra periodic
    exact plain ⟨same, by omega, periodic⟩

theorem disarm_live (sound : Sound s) (live : Live s h) : (s.disarm h.1 h.2).2 = true := by
  obtain ⟨same, on, -⟩ := live
  have armed := (sound.wheel.parity h.1).mpr on
  have below : ¬ s.wheel.size ≤ h.1 := by
    intro beyond
    rw [sound.wheel.blank h.1 beyond] at on
    exact on rfl
  unfold Entry.armed at armed
  unfold State.disarm
  rw [if_neg below, if_neg]
  omega

/-- Every handle is live until it is collected or disarmed, which happens once. -/
theorem timers_end_once {s : State} (reach : Reach step fewReuses initial s) :
    (∀ h, 0 < s.log.countP (Event.returns h) →
      s.log.countP (Event.collects h) + s.log.countP (Event.disarms h) + live s.timer h = 1 ∧
      (step s (.timer (.disarm h.1 h.2))).isSome ∧
      (s.timer.disarm h.1 h.2).2 = decide (Live s.timer h) ∧
      (¬ Live s.timer h → (s.timer.disarm h.1 h.2).1 = s.timer)) ∧
    s.timer.wheel.armedCount = (armedEntries s.timer.wheel).card := by
  have kept : Kept s := reach.invariant initial_kept Kept.preserved
  refine ⟨fun h returned => ?_, kept.books.armedCount⟩
  have plain : ¬ ((s.timer.wheel.entries h.1).generation = h.2 ∧ h.2 % 2 = 1 ∧
      (s.timer.wheel.entries h.1).periodic ≠ none) :=
    fun own => own.2.2 (kept.books.own h returned own.1)
  refine ⟨?_, ?_, ?_, fun ended => ?_⟩
  · have once := kept.books.once h
    have ended := kept.books.ended h
    omega
  · simp only [step, Timer.step, isInstance, if_neg plain]
    rfl
  · by_cases live : Live s.timer h
    · rw [disarm_live kept.books.sound live, decide_eq_true live]
    · rw [disarm_ended kept.books.sound plain live, decide_eq_false live]
  · rw [disarm_ended kept.books.sound plain ended]

/-- Two arms; the first is disarmed twice, the second collected. -/
def endedLabels : List Label :=
  let eject : Eject := ⟨some 0, some 1, none⟩
  [.timer (.arm 0 0 1000000 eject), .timer (.arm 0 0 2000000 eject), .timer (.disarm 0 1),
    .timer (.disarm 0 1), .timer (.pollFire 3000000 [])]

def endedRun : State := (run step fewReuses initial endedLabels).getD initial

theorem endedRun_reach : Reach step fewReuses initial endedRun :=
  Reach.of_isSome endedLabels (by decide +kernel)

theorem endedRun_once :
    endedRun.log.countP (Event.collects (1, 1)) + endedRun.log.countP (Event.disarms (1, 1)) +
      live endedRun.timer (1, 1) = 1 ∧ 0 < endedRun.log.countP (Event.returns (0, 1)) :=
  ⟨((timers_end_once endedRun_reach).1 (1, 1) (by decide +kernel)).1, by decide +kernel⟩

end JLibSched.History
