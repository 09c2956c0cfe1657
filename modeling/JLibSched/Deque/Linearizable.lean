import JLibSched.Deque.Invariant

/-!
# The deque is linearizable

Every step keeps the invariant and moves the content as the event it logs says, if it logs
one.  So the log of every run is a history of the sequential deque: a pop returns the newest
task, a steal the oldest, and what was pushed and not returned is what lies between `top`
and `bottom`.
-/

namespace JLibSched.Deque

open Transition

/-! ## Steps that keep the content -/

/-- A step that touches neither `top` nor the rings, and keeps the limit. -/
theorem Inv.keep {s t : State} {c held held' : List TaskRef} (inv : Inv s c held)
    (top : t.top = s.top) (ring : t.ring = s.ring) (rings : t.rings = s.rings)
    (made : t.made = s.made) (thief : t.thief = s.thief)
    (limit : t.owner.limit t.bottom = s.owner.limit s.bottom)
    (bottom : t.bottom ≤ s.owner.limit s.bottom) (owner : OwnerInv t c held' t.owner) :
    Inv t c held' := by
  have cur : t.cur = s.cur := by rw [State.cur, State.cur, ring, rings]
  refine ⟨?_, ?_, ?_, ?_, ?_, ?_, owner, fun i => ?_⟩
  · rw [made, rings]
    exact inv.power
  · rw [made, ring]
    exact inv.ring
  · rw [top, limit]
    exact inv.limit
  · rw [limit]
    exact bottom
  · rw [limit, top, cur]
    exact inv.fits
  · rw [cur, top]
    exact inv.holds
  · rw [thief]
    refine (inv.thief i).transfer (by omega) (by omega) (fun _ x h => h) ?_
    intro _ _ r _
    rw [rings]

/-- The content is unchanged and nothing is logged. -/
theorem Moves.silent {s t : State} {content : List TaskRef} (log : t.log = s.log) :
    Moves s content t content :=
  .inl ⟨log, rfl⟩

theorem Pushing.congr {s t : State} {held : List TaskRef} {op : Push} {b u : Nat}
    (pushing : Pushing s held op b u) (top : s.top ≤ t.top) (bottom : t.bottom = s.bottom)
    (room : s.cur.capacity ≤ t.cur.capacity) : Pushing t held op b u where
  held := pushing.held
  bottom := by rw [bottom]; exact pushing.bottom
  top := Nat.le_trans pushing.top top
  room := Nat.le_trans pushing.room (by omega)
  single := pushing.single

/-- The owner's knowledge survives a thief's step, which may move `top` within the limit and
nothing else. -/
theorem OwnerInv.transfer {s t : State} {c d held : List TaskRef} {pc : OwnerPc}
    (owner : OwnerInv s c held pc) (top : s.top ≤ t.top)
    (within : t.top ≠ s.top → s.top < pc.limit s.bottom) (content : t.top = s.top → d = c)
    (bottom : t.bottom = s.bottom) (ring : t.ring = s.ring) (rings : t.rings = s.rings)
    (made : t.made = s.made) : OwnerInv t d held pc := by
  have cur : t.cur = s.cur := by rw [State.cur, State.cur, ring, rings]
  have pushing {op : Push} {b u : Nat} (p : Pushing s held op b u) : Pushing t held op b u :=
    p.congr top bottom (by rw [cur])
  have growing {b u new i : Nat} (g : Growing s b u new i) : Growing t b u new i := by
    refine ⟨?_, ?_, ?_, g.low, g.high, ?_⟩
    · rw [ring]; exact g.fresh
    · rw [made]; exact g.made
    · rw [rings, cur]; exact g.capacity
    · rw [rings, cur]; exact g.copied
  cases pc with
  | idle | pushFlag | fatal => exact owner
  | pushTop op b => simpa only [OwnerInv, bottom] using owner
  | pushRing op b u => exact pushing owner
  | growLoad op b u new i => exact ⟨pushing owner.1, growing owner.2.1, owner.2.2⟩
  | growStore op b u new i v =>
    refine ⟨pushing owner.1, growing owner.2.1, owner.2.2.1, ?_⟩
    rw [cur]
    exact owner.2.2.2
  | growPublish op b u new => exact ⟨pushing owner.1, growing owner.2⟩
  | pushReload op b u =>
    refine ⟨pushing owner.1, ?_⟩
    rw [cur]
    exact owner.2
  | pushSlot op b u r k =>
    refine ⟨pushing owner.1, ?_⟩
    rw [cur, ring]
    exact owner.2
  | pushBottom op b =>
    obtain ⟨none, bound, room, stored⟩ := owner
    refine ⟨none, by rw [bottom]; exact bound, ?_, by rw [cur]; exact stored⟩
    rw [cur]
    omega
  | popTop b | popStore b | popReload b => simpa only [OwnerInv, bottom] using owner
  | popRing b | popSlot b r => simpa only [OwnerInv, bottom, cur, ring] using owner
  | lastRing b =>
    obtain ⟨none, bound, below⟩ := owner
    exact ⟨none, by rw [bottom]; exact bound, by omega⟩
  | lastSlot b r =>
    obtain ⟨none, bound, below, current⟩ := owner
    exact ⟨none, by rw [bottom]; exact bound, by omega, by rw [ring]; exact current⟩
  | lastCas b v =>
    obtain ⟨none, bound, below, value⟩ := owner
    refine ⟨none, by rw [bottom]; exact bound, by omega, fun still => ?_⟩
    rw [content (by omega)]
    exact value (by omega)
  -- In the last three places nothing is left to take, so `top` stands still.
  | lastRestore b result =>
    obtain ⟨bound, moved, claims⟩ := owner
    simp only [OwnerPc.limit] at within
    exact ⟨by rw [bottom]; exact bound, by omega, claims⟩
  | popRestore u =>
    obtain ⟨none, level, below⟩ := owner
    simp only [OwnerPc.limit] at within
    exact ⟨none, by omega, by rw [bottom]; exact below⟩
  | popFlag result =>
    obtain ⟨level, claims⟩ := owner
    simp only [OwnerPc.limit] at within
    exact ⟨by omega, claims⟩

/-- `StoreFlag` writes the flag and its mirror, and nothing else. -/
theorem State.storeFlag_eq (s : State) (v : Nat) :
    ∃ mirror flag, s.storeFlag v = { s with flagMirror := mirror, workFlag := flag } := by
  unfold State.storeFlag
  split
  · exact ⟨v, v, rfl⟩
  · exact ⟨s.flagMirror, s.workFlag, rfl⟩

/-! ## Steps that write a ring -/

/-- After the step the deque holds a content that the step's event explains. -/
def Advances (s : State) (c held : List TaskRef) (t : State) : Prop :=
  ∃ c' held', Inv t c' held' ∧ Moves s (c ++ held) t (c' ++ held')

theorem Inv.advances {s t : State} {c held : List TaskRef} (inv : Inv t c held)
    (log : t.log = s.log) : Advances s c held t :=
  ⟨c, held, inv, .silent log⟩

/-- A step that writes a ring, and leaves the current one the tasks it holds.  A ring made
before the current one is never written, and the current one keeps its oldest task. -/
theorem Inv.write {s t : State} {c held : List TaskRef} (inv : Inv s c held)
    (top : t.top = s.top) (bottom : t.bottom = s.bottom) (ring : t.ring = s.ring)
    (made : s.made ≤ t.made) (thief : t.thief = s.thief)
    (limit : t.owner.limit s.bottom = s.owner.limit s.bottom)
    (power : ∀ r < t.made, ∃ k, (t.rings r).capacity = 2 ^ k)
    (capacity : t.cur.capacity = s.cur.capacity) (holds : Holds t.cur s.top c)
    (older : ∀ r < s.ring, t.rings r = s.rings r) (owner : OwnerInv t c held t.owner) :
    Inv t c held := by
  refine ⟨power, ?_, ?_, ?_, ?_, ?_, owner, fun i => ?_⟩
  · have := inv.ring
    omega
  · rw [top, bottom, limit]
    exact inv.limit
  · rw [bottom, limit]
    exact inv.bottom
  · rw [bottom, limit, top, capacity]
    exact inv.fits
  · rw [top]
    exact holds
  · rw [thief]
    refine (inv.thief i).transfer (by omega) (by omega) (fun _ x h => h) ?_
    intro _ nonempty r low
    rcases Nat.lt_or_eq_of_le low with before | rfl
    · rw [older r before]
    · have first : 0 < c.length := List.length_pos_of_ne_nil nonempty
      have new := holds 0 first
      have old := inv.holds 0 first
      rw [State.cur, ring] at new
      rw [State.cur] at old
      rw [Nat.add_zero] at new old
      rw [new, old]

/-- The head of `grow` makes a ring that nobody reads yet. -/
theorem Inv.grow {s : State} {c : List TaskRef} {op : Push} {b t : Nat} {allocates : Bool}
    (inv : Inv s c []) (place : s.owner = .pushRing op b t) :
    Advances s c [] (s.grow op b t allocates) := by
  have owner := inv.owner
  have limit : s.owner.limit s.bottom = s.bottom := by rw [place]; rfl
  rw [place] at owner
  have pushing : Pushing s [] op b t := owner
  have stop : Advances s c [] { s with owner := .fatal } := by
    refine Inv.advances ?_ rfl
    exact inv.keep rfl rfl rfl rfl rfl limit.symm inv.bottom rfl
  unfold State.grow
  dsimp only
  split
  · exact stop
  split
  · exact stop
  have current (pc : OwnerPc) : State.cur { s with
      rings := Function.update s.rings s.made (makeRing (s.cur.capacity * 2))
      made := s.made + 1
      owner := pc } = s.cur := Function.update_of_ne (Nat.ne_of_lt inv.ring) _ _
  have low : t ≤ b := by
    have := inv.limit
    have := pushing.bottom
    have := pushing.top
    omega
  refine Inv.advances ?_ rfl
  refine inv.write rfl rfl rfl (Nat.le_succ _) rfl ?_ ?_ ?_ ?_ ?_ ?_
  · rw [limit]
    dsimp only
    split <;> rfl
  · intro r below
    rcases Nat.lt_succ_iff_lt_or_eq.mp below with before | rfl
    · dsimp only
      rw [Function.update_of_ne (Nat.ne_of_lt before)]
      exact inv.power r before
    · obtain ⟨k, size⟩ := inv.power s.ring inv.ring
      refine ⟨k + 1, ?_⟩
      dsimp only
      rw [Function.update_self]
      simp only [makeRing, State.cur, size, Nat.pow_succ]
  · rw [current]
  · rw [current]
    exact inv.holds
  · intro r before
    exact Function.update_of_ne (Nat.ne_of_lt (Nat.lt_trans before inv.ring)) _ _
  · have kept (pc : OwnerPc) : Pushing { s with
        rings := Function.update s.rings s.made (makeRing (s.cur.capacity * 2))
        made := s.made + 1
        owner := pc } [] op b t :=
      pushing.congr (Nat.le_refl _) rfl (by rw [current])
    have growing (pc : OwnerPc) : Growing { s with
        rings := Function.update s.rings s.made (makeRing (s.cur.capacity * 2))
        made := s.made + 1
        owner := pc } b t s.made t := by
      refine ⟨inv.ring, Nat.lt_succ_self _, ?_, Nat.le_refl _, low, ?_⟩
      · rw [current]
        dsimp only
        rw [Function.update_self, makeRing]
      · intro j above below
        omega
    dsimp only
    split
    · rename_i same
      subst same
      exact ⟨kept _, growing _⟩
    · exact ⟨kept _, growing _, by omega⟩

/-- Storing into the ring under construction. -/
theorem Inv.growStore {s : State} {c held : List TaskRef} {op : Push} {b t new i : Nat}
    {v : BitVec 64} (inv : Inv s c held) (place : s.owner = .growStore op b t new i v) :
    Inv { s with
      rings := Function.update s.rings new ((s.rings new).store i v)
      owner := if i + 1 = b then .growPublish op b t new
        else .growLoad op b t new (i + 1) } c held := by
  have owner := inv.owner
  have limit : s.owner.limit s.bottom = s.bottom := by rw [place]; rfl
  rw [place] at owner
  obtain ⟨pushing, growing, inside, value⟩ := owner
  have distinct : s.ring ≠ new := Nat.ne_of_lt growing.fresh
  have old : (Function.update s.rings new ((s.rings new).store i v)) s.ring = s.rings s.ring :=
    Function.update_of_ne distinct _ _
  refine inv.write rfl rfl rfl (Nat.le_refl _) rfl ?_ ?_ ?_ ?_ ?_ ?_
  · rw [limit]
    dsimp only
    split <;> rfl
  · intro r below
    dsimp only
    rcases eq_or_ne r new with rfl | other
    · rw [Function.update_self]
      exact inv.power r below
    · rw [Function.update_of_ne other]
      exact inv.power r below
  · simp only [State.cur, old]
  · simp only [State.cur, old]
    exact inv.holds
  · intro r before
    exact Function.update_of_ne (Nat.ne_of_lt (Nat.lt_trans before growing.fresh)) _ _
  · have kept (pc : OwnerPc) : Pushing { s with
        rings := Function.update s.rings new ((s.rings new).store i v), owner := pc }
        held op b t :=
      pushing.congr (Nat.le_refl _) rfl (by simp only [State.cur, old]; exact Nat.le_refl _)
    have grown (pc : OwnerPc) : Growing { s with
        rings := Function.update s.rings new ((s.rings new).store i v), owner := pc }
        b t new (i + 1) := by
      have low := growing.low
      refine ⟨growing.fresh, growing.made, ?_, by omega, inside, fun j above below => ?_⟩
      · simp only [State.cur, old, Function.update_self, store_capacity]
        exact growing.capacity
      · simp only [State.cur, old, Function.update_self]
        rcases Nat.lt_succ_iff_lt_or_eq.mp below with before | rfl
        · have room := pushing.room
          have size := growing.capacity
          rw [load_store_of_ne t (inv.power new growing.made) low (by omega) above
            (by omega) (by omega)]
          exact growing.copied j above before
        · rw [load_store_self]
          exact value
    dsimp only
    split
    · rename_i last
      refine ⟨kept _, ?_⟩
      have done := grown (.growPublish op b t new)
      rw [last] at done
      exact done
    · exact ⟨kept _, grown _, by omega⟩

/-- Publishing the grown ring: it has every task of the old one. -/
theorem Inv.growPublish {s : State} {c held : List TaskRef} {op : Push} {b t new : Nat}
    (inv : Inv s c held) (place : s.owner = .growPublish op b t new) :
    Inv { s with ring := new,
                 owner := if op.batch then .pushRing op b t else .pushReload op b t }
      c held := by
  have owner := inv.owner
  have limit : s.owner.limit s.bottom = s.bottom := by rw [place]; rfl
  have length := inv.limit
  have fits := inv.fits
  rw [place] at owner
  obtain ⟨pushing, growing⟩ := owner
  have size := growing.capacity
  have keepLimit : OwnerPc.limit s.bottom
      (if op.batch then .pushRing op b t else .pushReload op b t) = s.bottom := by
    split <;> rfl
  have bound := pushing.bottom
  have low := pushing.top
  refine ⟨inv.power, growing.made, ?_, ?_, ?_, ?_, ?_, fun i => ?_⟩
  · exact (inv.limit.trans limit).trans keepLimit.symm
  · exact Nat.le_of_eq keepLimit.symm
  · simp only [State.cur, keepLimit, size]
    simp only [State.cur] at fits
    omega
  · intro k below
    show (s.rings new).load (s.top + k) = _
    rw [growing.copied (s.top + k) (by omega) (by omega)]
    exact inv.holds k below
  · have kept (pc : OwnerPc) : Pushing { s with ring := new, owner := pc } held op b t := by
      refine pushing.congr (Nat.le_refl _) rfl ?_
      show s.cur.capacity ≤ (s.rings new).capacity
      omega
    dsimp only
    split
    · exact kept _
    · rename_i single
      refine ⟨kept _, ?_⟩
      show b + op.items.length ≤ t + (s.rings new).capacity
      have one := pushing.single (by simpa using single)
      have room := pushing.room
      obtain ⟨k, power⟩ := inv.power s.ring inv.ring
      have positive : 0 < s.cur.capacity := by
        simp only [State.cur, power]
        exact Nat.two_pow_pos k
      omega
  · have fresh := growing.fresh
    refine (inv.thief i).transfer (Nat.le_refl _) (Nat.le_of_lt fresh) (fun _ x h => h) ?_
    intro _ _ r _
    rfl

/-- Storing a pushed task: its slot is outside what the deque holds. -/
theorem Inv.pushSlot {s : State} {c held : List TaskRef} {op : Push} {b t r k : Nat}
    {item : TaskRef} (inv : Inv s c held) (place : s.owner = .pushSlot op b t r k)
    (found : op.items[k]? = some item) :
    Inv { s with
      rings := Function.update s.rings r ((s.rings r).store (b + k) (tag item))
      owner := if k + 1 = op.items.length then .pushBottom op b
        else .pushSlot op b t r (k + 1) } c held := by
  have owner := inv.owner
  have limit : s.owner.limit s.bottom = s.bottom := by rw [place]; rfl
  have length := inv.limit
  rw [place] at owner
  obtain ⟨pushing, room, rfl, inside, stored⟩ := owner
  have bound := pushing.bottom
  have low := pushing.top
  have power := inv.power s.ring inv.ring
  have same : (Function.update s.rings s.ring ((s.rings s.ring).store (b + k) (tag item)))
      s.ring = s.cur.store (b + k) (tag item) := Function.update_self ..
  have filled : Holds (s.cur.store (b + k) (tag item)) b (op.items.take (k + 1)) := by
    intro j below
    have below' : j < k + 1 := by
      simp only [List.length_take] at below
      omega
    rw [List.getElem_take]
    rcases Nat.lt_succ_iff_lt_or_eq.mp below' with before | rfl
    · have apart : (s.cur.store (b + k) (tag item)).load (b + j) = s.cur.load (b + j) := by
        refine load_store_of_ne b power ?_ ?_ ?_ ?_ ?_ <;>
          simp only [State.cur] at * <;> omega
      rw [apart]
      have old := stored j (by simp only [List.length_take]; omega)
      rw [List.getElem_take] at old
      exact old
    · rw [load_store_self]
      obtain ⟨_, value⟩ := List.getElem?_eq_some_iff.mp found
      rw [value]
  refine inv.write rfl rfl rfl (Nat.le_refl _) rfl ?_ ?_ ?_ ?_ ?_ ?_
  · rw [limit]
    dsimp only
    split <;> rfl
  · intro r below
    dsimp only
    rcases eq_or_ne r s.ring with rfl | other
    · rw [Function.update_self]
      exact power
    · rw [Function.update_of_ne other]
      exact inv.power r below
  · simp only [State.cur, same, store_capacity]
  · simp only [State.cur] at same room
    intro j below
    simp only [State.cur, same]
    rw [load_store_of_ne t power (by omega) (by omega) (by omega) (by omega)
      (by omega)]
    exact inv.holds j below
  · intro r before
    exact Function.update_of_ne (Nat.ne_of_lt before) _ _
  · dsimp only
    split
    · rename_i last
      rw [last, List.take_length] at filled
      refine ⟨pushing.held, bound, ?_, ?_⟩
      · simp only [State.cur, same, store_capacity]
        simp only [State.cur] at room
        omega
      · simp only [State.cur, same]
        exact filled
    · refine ⟨pushing.congr (Nat.le_refl _) rfl ?_, ?_, rfl, by omega, ?_⟩
      · simp only [State.cur, same, store_capacity]
        exact Nat.le_refl _
      · simp only [State.cur, same, store_capacity]
        exact room
      · simp only [State.cur, same]
        exact filled

/-! ## Steps that move the content -/

/-- Publishing `bottom` adds the pushed tasks at the newest end. -/
theorem Inv.pushBottom {s : State} {c held : List TaskRef} {op : Push} {b : Nat}
    (inv : Inv s c held) (place : s.owner = .pushBottom op b) :
    Advances s c held { s with bottom := b + op.items.length, owner := .pushFlag,
                               log := s.log ++ [.pushed op.items] } := by
  have owner := inv.owner
  have length := inv.limit
  rw [place] at owner length
  obtain ⟨rfl, bound, room, stored⟩ := owner
  simp only [OwnerPc.limit] at length
  refine ⟨c ++ op.items, [], ⟨inv.power, inv.ring, ?_, Nat.le_refl _, room, ?_, rfl, fun i => ?_⟩,
    .inr ⟨_, rfl, by simp [applyEvent]⟩⟩
  · show s.top + (c ++ op.items).length = b + op.items.length
    rw [List.length_append]
    omega
  · intro k below
    show s.cur.load (s.top + k) = _
    rw [List.length_append] at below
    rcases Nat.lt_or_ge k c.length with old | new
    · rw [List.getElem_append_left old]
      exact inv.holds k old
    · rw [List.getElem_append_right new]
      have item := stored (k - c.length) (by omega)
      rw [← item]
      congr 1
      omega
  · refine (inv.thief i).transfer (Nat.le_refl _) (Nat.le_refl _) ?_ fun _ _ r _ => rfl
    intro _ x oldest
    rw [List.head?_append]
    simp only [Option.mem_def] at oldest
    simp [oldest]

/-- A pop that still finds `top` below its index has claimed the newest task. -/
theorem Inv.popReload {s : State} {c held : List TaskRef} {b : Nat} (inv : Inv s c held)
    (place : s.owner = .popReload b) :
    Advances s c held { s with owner := if s.top < b then .popRing b
      else if s.top = b then .lastRing b else .popRestore s.top } := by
  have owner := inv.owner
  have length := inv.limit
  have fits := inv.fits
  have limit : s.owner.limit s.bottom = b + 1 := by rw [place]; rfl
  rw [place] at owner
  rw [limit] at length fits
  obtain ⟨rfl, bound⟩ := owner
  split
  · rename_i several
    have nonempty : c ≠ [] := by
      intro none
      rw [none, List.length_nil] at length
      omega
    obtain ⟨newest, shape⟩ : ∃ x, c = c.dropLast ++ [x] :=
      ⟨_, (List.dropLast_append_getLast nonempty).symm⟩
    have size : c.dropLast.length = b - s.top := by
      rw [List.length_dropLast]
      omega
    have loaded : s.cur.load b = tag newest := by
      have last := inv.holds (b - s.top) (by omega)
      rw [show s.top + (b - s.top) = b by omega] at last
      rw [last]
      congr 1
      have value : getElem? c (b - s.top) = some newest := by
        rw [shape, List.getElem?_append_right (by omega), size]
        simp
      exact (List.getElem?_eq_some_iff.mp value).2
    refine ⟨c.dropLast, [newest], ⟨inv.power, inv.ring, ?_, Nat.le_refl _, ?_, ?_, ?_, fun i => ?_⟩,
      ?_⟩
    · show s.top + c.dropLast.length = s.bottom
      omega
    · show s.bottom ≤ s.top + s.cur.capacity
      omega
    · intro k below
      show s.cur.load (s.top + k) = _
      rw [List.getElem_dropLast]
      exact inv.holds k (by omega)
    · exact ⟨bound, newest, rfl, loaded⟩
    · refine (inv.thief i).transfer (Nat.le_refl _) (Nat.le_refl _) ?_ fun _ _ r _ => rfl
      intro _ x oldest
      rw [shape, List.head?_append] at oldest
      obtain ⟨first, rest, front⟩ := List.exists_cons_of_length_pos (l := c.dropLast) (by omega)
      rw [front] at oldest ⊢
      simpa using oldest
    · exact .inl ⟨rfl, by rw [List.append_nil]; exact shape.symm⟩
  split
  · rename_i last
    refine Inv.advances ?_ rfl
    exact inv.keep rfl rfl rfl rfl rfl limit.symm inv.bottom ⟨rfl, bound, Nat.le_of_eq last.symm⟩
  · rename_i notBelow notLast
    have above : s.top = b + 1 := by omega
    refine Inv.advances ?_ rfl
    refine inv.keep rfl rfl rfl rfl rfl ?_ inv.bottom ⟨rfl, rfl, ?_⟩
    · rw [limit]
      exact above
    · show s.bottom ≤ s.top
      omega

/-- A pop that wins `top` has claimed the only task. -/
theorem Inv.lastCas {s : State} {c held : List TaskRef} {b : Nat} {v : BitVec 64}
    (inv : Inv s c held) (place : s.owner = .lastCas b v) (won : s.top = b) :
    Advances s c held { s with top := b + 1, owner := .lastRestore b (some (untag v)) } := by
  have owner := inv.owner
  have length := inv.limit
  have fits := inv.fits
  have limit : s.owner.limit s.bottom = b + 1 := by rw [place]; rfl
  rw [place] at owner
  rw [limit] at length fits
  obtain ⟨rfl, bound, below, value⟩ := owner
  obtain ⟨x, rfl⟩ : ∃ x, c = [x] := List.length_eq_one_iff.mp (by omega)
  have read : v = tag x := value won x rfl
  refine ⟨[], [x], ⟨inv.power, inv.ring, rfl, ?_, ?_, ?_, ⟨bound, rfl, x, rfl, ?_⟩, fun i => ?_⟩,
    .inl ⟨rfl, rfl⟩⟩
  · show s.bottom ≤ b + 1
    omega
  · show b + 1 ≤ b + 1 + s.cur.capacity
    omega
  · intro k none
    cases none
  · rw [read, untag_tag]
  · have moved : ¬ b + 1 = s.top := by omega
    refine (inv.thief i).transfer (u := { s with
        top := b + 1, owner := .lastRestore b (some (untag v)) }) ?_ (Nat.le_refl _)
      (fun still => absurd still moved) (fun still => absurd still moved)
    show s.top ≤ b + 1
    omega

/-- A pop returns: what it claimed is the newest task, and it claimed nothing only when there
is nothing. -/
theorem Inv.popFlag {s : State} {c held : List TaskRef} {result : Option Ptr}
    (inv : Inv s c held) (place : s.owner = .popFlag result) :
    Advances s c held { s.storeFlag 0 with
      owner := .idle
      log := s.log ++ [popEvent result] } := by
  have owner := inv.owner
  have limit : s.owner.limit s.bottom = s.bottom := by rw [place]; rfl
  have length := inv.limit
  rw [place] at owner
  rw [limit] at length
  obtain ⟨level, claims⟩ := owner
  obtain rfl : c = [] := List.length_eq_zero_iff.mp (by omega)
  refine ⟨[], [], ?_, .inr ⟨_, rfl, ?_⟩⟩
  · obtain ⟨mirror, flag, stored⟩ := s.storeFlag_eq 0
    rw [stored]
    exact inv.keep rfl rfl rfl rfl rfl limit.symm inv.bottom rfl
  · cases result with
    | none => simp [popEvent, applyEvent, show held = [] from claims]
    | some item =>
      obtain ⟨x, rfl, address⟩ := claims
      simp [popEvent, applyEvent, address]

/-- A pop of several returns the task it claimed. -/
theorem Inv.popSlot {s : State} {c held : List TaskRef} {b r : Nat} (inv : Inv s c held)
    (place : s.owner = .popSlot b r) :
    Advances s c held { s with
      owner := .idle, log := s.log ++ [.popped (untag ((s.rings r).load b))] } := by
  have owner := inv.owner
  have limit : s.owner.limit s.bottom = s.bottom := by rw [place]; rfl
  rw [place] at owner
  obtain ⟨bound, rfl, x, rfl, loaded⟩ := owner
  refine ⟨c, [], inv.keep rfl rfl rfl rfl rfl limit.symm inv.bottom rfl, .inr ⟨_, rfl, ?_⟩⟩
  have address : untag ((s.rings s.ring).load b) = x.addr := by
    rw [show (s.rings s.ring).load b = tag x from loaded, untag_tag]
  simp [applyEvent, address]

/-! ## The owner's step -/

theorem ownerInv_pushEntry {s t : State} {c : List TaskRef} {op : Push} {b u : Nat}
    (pushing : Pushing s [] op b u) (room : b + op.items.length ≤ u + s.cur.capacity)
    (same : t = { s with owner := pushEntry op b u s.ring }) :
    OwnerInv t c [] (pushEntry op b u s.ring) := by
  subst same
  have low := pushing.top
  unfold pushEntry
  split
  · rename_i none
    refine ⟨rfl, pushing.bottom, ?_, ?_⟩
    · show b + op.items.length ≤ s.top + s.cur.capacity
      omega
    · intro k below
      simp [none] at below
  · rename_i some
    refine ⟨pushing.congr (Nat.le_refl _) rfl (Nat.le_refl _), room, rfl,
      List.length_pos_of_ne_nil some, ?_⟩
    intro k below
    simp at below

theorem limit_pushEntry (op : Push) (b t r bottom : Nat) :
    (pushEntry op b t r).limit bottom = bottom := by
  unfold pushEntry
  split <;> rfl

/-- Every step of the owner moves the content as its event says. -/
theorem ownerStep_advances {s t : State} {c held : List TaskRef} {allocates : Bool}
    (inv : Inv s c held) (stepped : ownerStep s allocates = some t) : Advances s c held t := by
  have owner := inv.owner
  have bottom := inv.bottom
  unfold ownerStep at stepped
  cases place : s.owner with
  | idle | fatal =>
    rw [place] at stepped
    cases stepped
  | pushTop op b =>
    rw [place] at stepped owner
    cases stepped
    obtain ⟨none, bound, single⟩ := owner
    refine Inv.advances ?_ rfl
    refine inv.keep rfl rfl rfl rfl rfl (by rw [place]; rfl) bottom ?_
    have length := inv.limit
    have fits := inv.fits
    rw [place] at length fits
    simp only [OwnerPc.limit] at length fits
    exact ⟨none, bound, Nat.le_refl _, by show b ≤ s.top + s.cur.capacity; omega, single⟩
  | pushRing op b u =>
    rw [place] at stepped owner
    have pushing : Pushing s held op b u := owner
    obtain rfl := pushing.held
    dsimp only at stepped
    split at stepped
    · cases stepped
      exact inv.grow place
    · rename_i enough
      cases stepped
      refine Inv.advances ?_ rfl
      refine inv.keep rfl rfl rfl rfl rfl ?_ bottom ?_
      · rw [place, limit_pushEntry]
        rfl
      · exact ownerInv_pushEntry pushing (by omega) rfl
  | growLoad op b u new i =>
    rw [place] at stepped owner
    cases stepped
    obtain ⟨pushing, growing, inside⟩ := owner
    refine Inv.advances ?_ rfl
    refine inv.keep rfl rfl rfl rfl rfl (by rw [place]; rfl) bottom ?_
    exact ⟨pushing.congr (Nat.le_refl _) rfl (Nat.le_refl _),
      ⟨growing.fresh, growing.made, growing.capacity, growing.low, growing.high,
        growing.copied⟩, inside, rfl⟩
  | growStore op b u new i v =>
    rw [place] at stepped
    cases stepped
    exact (inv.growStore place).advances rfl
  | growPublish op b u new =>
    rw [place] at stepped
    cases stepped
    exact (inv.growPublish place).advances rfl
  | pushReload op b u =>
    rw [place] at stepped owner
    cases stepped
    obtain ⟨pushing, room⟩ := owner
    obtain rfl := pushing.held
    refine Inv.advances ?_ rfl
    refine inv.keep rfl rfl rfl rfl rfl ?_ bottom (ownerInv_pushEntry pushing room rfl)
    rw [place, limit_pushEntry]
    rfl
  | pushSlot op b u r k =>
    rw [place] at stepped
    dsimp only at stepped
    split at stepped
    · cases stepped
    · rename_i item found
      cases stepped
      exact (inv.pushSlot place found).advances rfl
  | pushBottom op b =>
    rw [place] at stepped
    cases stepped
    exact inv.pushBottom place
  | pushFlag =>
    rw [place] at stepped owner
    cases stepped
    obtain ⟨mirror, flag, stored⟩ := s.storeFlag_eq 1
    rw [stored]
    refine Inv.advances ?_ rfl
    exact inv.keep rfl rfl rfl rfl rfl (by rw [place]; rfl) bottom owner
  | popTop b =>
    rw [place] at stepped owner
    cases stepped
    obtain ⟨none, bound⟩ := owner
    have length := inv.limit
    rw [place] at length
    simp only [OwnerPc.limit] at length
    refine Inv.advances ?_ rfl
    refine inv.keep rfl rfl rfl rfl rfl ?_ bottom ?_
    · rw [place]
      dsimp only
      split <;> rfl
    · dsimp only
      split
      · exact ⟨by show s.top = s.bottom; omega, none⟩
      · exact ⟨none, by show b - 1 + 1 = s.bottom; omega⟩
  | popStore b =>
    rw [place] at stepped owner
    cases stepped
    obtain ⟨none, bound⟩ := owner
    refine Inv.advances ?_ rfl
    refine inv.keep rfl rfl rfl rfl rfl ?_ ?_ ⟨none, rfl⟩
    · rw [place]
      exact bound
    · rw [place]
      show b ≤ s.bottom
      omega
  | popReload b =>
    rw [place] at stepped
    cases stepped
    exact inv.popReload place
  | popRing b =>
    rw [place] at stepped owner
    cases stepped
    obtain ⟨bound, x, claimed, loaded⟩ := owner
    refine Inv.advances ?_ rfl
    exact inv.keep rfl rfl rfl rfl rfl (by rw [place]; rfl) bottom
      ⟨bound, rfl, x, claimed, loaded⟩
  | popSlot b r =>
    rw [place] at stepped
    cases stepped
    exact inv.popSlot place
  | lastRing b =>
    rw [place] at stepped owner
    cases stepped
    obtain ⟨none, bound, below⟩ := owner
    refine Inv.advances ?_ rfl
    exact inv.keep rfl rfl rfl rfl rfl (by rw [place]; rfl) bottom ⟨none, bound, below, rfl⟩
  | lastSlot b r =>
    rw [place] at stepped owner
    cases stepped
    obtain ⟨none, bound, below, rfl⟩ := owner
    refine Inv.advances ?_ rfl
    refine inv.keep rfl rfl rfl rfl rfl (by rw [place]; rfl) bottom ⟨none, bound, below, ?_⟩
    intro still x oldest
    obtain ⟨rest, rfl⟩ := List.head?_eq_some_iff.mp oldest
    have loaded := inv.holds 0 (by simp)
    rw [Nat.add_zero, show s.top = b from still] at loaded
    exact loaded
  | lastCas b v =>
    rw [place] at stepped owner
    dsimp only at stepped
    split at stepped
    · rename_i won
      cases stepped
      exact inv.lastCas place won
    · rename_i lost
      cases stepped
      obtain ⟨none, bound, below, -⟩ := owner
      have length := inv.limit
      rw [place] at length
      simp only [OwnerPc.limit] at length
      refine Inv.advances ?_ rfl
      refine inv.keep rfl rfl rfl rfl rfl (by rw [place]; rfl) bottom ⟨bound, ?_, none⟩
      show s.top = b + 1
      omega
  | lastRestore b result =>
    rw [place] at stepped owner
    cases stepped
    obtain ⟨bound, moved, claims⟩ := owner
    refine Inv.advances ?_ rfl
    refine inv.keep rfl rfl rfl rfl rfl (by rw [place]; rfl) ?_ ⟨moved, claims⟩
    rw [place]
    exact Nat.le_refl _
  | popRestore u =>
    rw [place] at stepped owner
    cases stepped
    obtain ⟨none, level, below⟩ := owner
    refine Inv.advances ?_ rfl
    refine inv.keep rfl rfl rfl rfl rfl (by rw [place]; rfl) ?_ ⟨level.symm, none⟩
    rw [place]
    exact Nat.le_refl _
  | popFlag result =>
    rw [place] at stepped
    cases stepped
    exact inv.popFlag place

/-! ## Thieves -/

theorem Inv.setThief {s : State} {c held : List TaskRef} {i : Nat} {p : ThiefPc}
    (inv : Inv s c held) (thief : ThiefInv s c p) : Inv (s.setThief i p) c held := by
  have still : (s.setThief i p).top = s.top := rfl
  have owner : OwnerInv (s.setThief i p) c held s.owner :=
    inv.owner.transfer (Nat.le_refl _) (absurd still) (fun _ => rfl) rfl rfl rfl rfl
  refine ⟨inv.power, inv.ring, inv.limit, inv.bottom, inv.fits, inv.holds, owner, fun j => ?_⟩
  refine ThiefInv.transfer (s := s) (c := c) ?_ (Nat.le_refl _) (Nat.le_refl _)
    (fun _ x h => h) fun _ _ r _ => rfl
  show ThiefInv s c (Function.update s.thief i p j)
  rcases eq_or_ne j i with rfl | other
  · rw [Function.update_self]
    exact thief
  · rw [Function.update_of_ne other]
    exact inv.thief j

/-- A thief that wins `top` takes the oldest task. -/
theorem Inv.steal {s : State} {c held : List TaskRef} {i t : Nat} {vet : Vet} {v : BitVec 64}
    (inv : Inv s c held) (place : s.thief i = .cas vet t v) (won : s.top = t) :
    Advances s c held
      ({ s with top := t + 1, log := s.log ++ [Event.stole vet (untag v)] }.setThief i .idle) := by
  subst won
  have knows := inv.thief i
  rw [place] at knows
  obtain ⟨-, oldest⟩ := knows
  obtain ⟨x, first, rfl, vetted⟩ := oldest rfl
  obtain ⟨rest, rfl⟩ := List.head?_eq_some_iff.mp first
  have length := inv.limit
  have owner := inv.owner.transfer (d := rest)
    (t := { s with top := s.top + 1, log := s.log ++ [Event.stole vet (untag (tag x))] })
    (Nat.le_succ _) (fun _ => by rw [List.length_cons] at length; omega)
    (fun still => absurd still (Nat.succ_ne_self _)) rfl rfl rfl rfl
  refine ⟨rest, held, Inv.setThief ?_ trivial, .inr ⟨_, rfl, ?_⟩⟩
  · have fits := inv.fits
    rw [List.length_cons] at length
    refine ⟨inv.power, inv.ring, ?_, inv.bottom, ?_, ?_, owner, fun j => ?_⟩
    · show s.top + 1 + rest.length = s.owner.limit s.bottom
      omega
    · show s.owner.limit s.bottom ≤ s.top + 1 + s.cur.capacity
      omega
    · intro k below
      show s.cur.load (s.top + 1 + k) = _
      have loaded := inv.holds (k + 1) (by rw [List.length_cons]; omega)
      rw [List.getElem_cons_succ] at loaded
      rw [← loaded]
      congr 1
      omega
    · have moved : ¬ s.top + 1 = s.top := by omega
      exact (inv.thief j).transfer (Nat.le_succ _) (Nat.le_refl _)
        (fun still => absurd still moved) (fun still => absurd still moved)
  · simp [applyEvent, untag_tag, vetted]

/-- Every step of a thief moves the content as its event says. -/
theorem thiefStep_advances {s t : State} {c held : List TaskRef} {i : Nat}
    (inv : Inv s c held) (stepped : thiefStep s i = some t) : Advances s c held t := by
  have knows := inv.thief i
  have length := inv.limit
  have bottom := inv.bottom
  unfold thiefStep at stepped
  cases place : s.thief i with
  | idle =>
    rw [place] at stepped
    cases stepped
  | bottom vet u =>
    rw [place] at stepped knows
    cases stepped
    refine (inv.setThief ?_).advances rfl
    split
    · rename_i below
      refine ⟨knows, fun still none => ?_⟩
      rw [none, List.length_nil] at length
      omega
    · trivial
  | ring vet u =>
    rw [place] at stepped knows
    cases stepped
    refine (inv.setThief (p := .slot vet u s.ring)
      ⟨knows.1, Nat.le_refl _, fun still => ?_⟩).advances rfl
    obtain ⟨x, rest, rfl⟩ := List.exists_cons_of_ne_nil (knows.2 still)
    have loaded := inv.holds 0 (by simp)
    rw [Nat.add_zero, ← still] at loaded
    exact ⟨x, rfl, loaded⟩
  | slot vet u r =>
    rw [place] at stepped knows
    cases stepped
    refine (inv.setThief ?_).advances rfl
    split
    · rename_i vetted
      refine ⟨knows.1, fun still => ?_⟩
      obtain ⟨x, oldest, loaded⟩ := knows.2.2 still
      rw [loaded, bits_tag] at vetted
      exact ⟨x, oldest, loaded, by simpa using vetted⟩
    · trivial
  | cas vet u v =>
    rw [place] at stepped
    dsimp only at stepped
    split at stepped
    · rename_i won
      cases stepped
      exact inv.steal place won
    · cases stepped
      exact (inv.setThief (p := .idle) trivial).advances rfl

/-! ## The system -/

/-- Entering a call. -/
theorem Inv.enter {s t : State} {c held : List TaskRef} {pc : OwnerPc} (inv : Inv s c held)
    (stepped : s.enter pc = some t) (limit : pc.limit s.bottom = s.bottom)
    (owner : held = [] → OwnerInv { s with owner := pc } c held pc) : Advances s c held t := by
  unfold State.enter at stepped
  split at stepped
  · rename_i place
    cases stepped
    have known := inv.owner
    rw [place] at known
    refine Inv.advances ?_ rfl
    refine inv.keep rfl rfl rfl rfl rfl ?_ inv.bottom (owner known)
    rw [place]
    exact limit
  · cases stepped

theorem stealIf_advances {s t : State} {c held : List TaskRef} {i : Nat} {vet : Vet}
    (inv : Inv s c held) (stepped : stealIf s i vet = some t) : Advances s c held t := by
  unfold stealIf at stepped
  split at stepped
  · cases stepped
    exact (inv.setThief (p := .bottom vet s.top) (Nat.le_refl _)).advances rfl
  · cases stepped

/-- Every step of the system moves the content as its event says. -/
theorem step_advances {s t : State} {a : Label} {c held : List TaskRef}
    (inv : Inv s c held) (stepped : step s a = some t) : Advances s c held t := by
  unfold step at stepped
  split at stepped
  · cases stepped
  cases a with
  | pushBottom item =>
    cases item with
    | none => exact inv.enter stepped rfl fun none => none
    | some item =>
      exact inv.enter stepped rfl fun none => ⟨none, rfl, fun _ => Nat.le_refl _⟩
  | pushBottomBatch items =>
    exact inv.enter stepped rfl fun none => ⟨none, rfl, by intro single; cases single⟩
  | popBottom =>
    refine inv.enter stepped ?_ fun none => ?_
    · split <;> rfl
    · split
      · exact none
      · exact ⟨none, rfl⟩
  | owner allocates => exact ownerStep_advances inv stepped
  | steal i => exact stealIf_advances inv stepped
  | stealIf i vet => exact stealIf_advances inv stepped
  | thief i => exact thiefStep_advances inv stepped

theorem initial_inv {capacity maxCapacity : Nat} {pushOnly hasFlag : Bool}
    (power : ∃ k, capacity = 2 ^ k) :
    Inv (initial capacity maxCapacity pushOnly hasFlag) [] [] where
  power := fun _ _ => power
  ring := Nat.one_pos
  limit := rfl
  bottom := Nat.le_refl _
  fits := Nat.zero_le _
  holds := fun _ none => by cases none
  owner := rfl
  thief := fun _ => trivial

/-! ## Histories -/

theorem replay_append {content : List TaskRef} (log : List Event) (e : Event) :
    replay content (log ++ [e]) = (replay content log).bind fun c => applyEvent c e := by
  induction log generalizing content with
  | nil =>
    simp only [List.nil_append, replay, Option.bind_some]
    cases applyEvent content e <;> rfl
  | cons first rest ih =>
    simp only [List.cons_append, replay, Option.bind_assoc, ih]

/-- The history of a run replays to what the deque holds. -/
theorem reach_replay {capacity maxCapacity : Nat} {pushOnly hasFlag : Bool}
    (power : ∃ k, capacity = 2 ^ k) :
    ∀ {s}, Reach step anyStep (initial capacity maxCapacity pushOnly hasFlag) s →
      ∃ c held, replay [] s.log = some (c ++ held) ∧ Inv s c held := by
  refine Reach.invariant (I := fun s => ∃ c held, replay [] s.log = some (c ++ held) ∧
    Inv s c held) ⟨[], [], rfl, initial_inv power⟩ ?_
  rintro s t a ⟨c, held, replayed, inv⟩ - stepped
  obtain ⟨c', held', inv', moves⟩ := step_advances inv stepped
  refine ⟨c', held', ?_, inv'⟩
  rcases moves with ⟨log, same⟩ | ⟨e, log, answered⟩
  · rw [log, same]
    exact replayed
  · rw [log, replay_append, replayed]
    exact answered

/-- One event of the sequential deque loses nothing and makes nothing up. -/
theorem applyEvent_perm {c c' : List TaskRef} {e : Event} (applied : applyEvent c e = some c') :
    (c.map (·.addr) ++ e.pushes).Perm (e.returns ++ c'.map (·.addr)) := by
  cases e with
  | pushed items =>
    cases applied
    simp [Event.pushes, Event.returns]
  | popped item =>
    simp only [applyEvent] at applied
    split at applied
    · rename_i newest last
      obtain ⟨rest, rfl⟩ := List.getLast?_eq_some_iff.mp last
      split at applied
      · rename_i address
        cases applied
        simp [Event.pushes, Event.returns, address]
      · cases applied
    · cases applied
  | poppedNone =>
    simp only [applyEvent] at applied
    split at applied
    · rename_i none
      cases applied
      simp [none, Event.pushes, Event.returns]
    · cases applied
  | stole vet item =>
    simp only [applyEvent] at applied
    split at applied
    · split at applied
      · rename_i answer
        cases applied
        simp [Event.pushes, Event.returns, answer.1]
      · cases applied
    · cases applied

theorem replay_perm {log : List Event} :
    ∀ {c c' : List TaskRef}, replay c log = some c' →
      (c.map (·.addr) ++ log.flatMap Event.pushes).Perm
        (log.flatMap Event.returns ++ c'.map (·.addr)) := by
  induction log with
  | nil =>
    intro c c' replayed
    cases replayed
    simp
  | cons e rest ih =>
    intro c c' replayed
    obtain ⟨d, applied, tail⟩ := Option.bind_eq_some_iff.mp replayed
    have first := applyEvent_perm applied
    have later := ih tail
    simp only [List.flatMap_cons, ← List.append_assoc]
    calc c.map (·.addr) ++ e.pushes ++ rest.flatMap Event.pushes
        |>.Perm (e.returns ++ d.map (·.addr) ++ rest.flatMap Event.pushes) :=
          first.append_right _
      _ |>.Perm (e.returns ++ rest.flatMap Event.returns ++ c'.map (·.addr)) := by
          rw [List.append_assoc, List.append_assoc]
          exact later.append_left _

theorem Inv.linearized {s : State} {c held : List TaskRef} (inv : Inv s c held)
    (replayed : replay [] s.log = some (c ++ held)) : Linearized s := by
  refine ⟨c ++ held, replayed, by simpa using replay_perm replayed, fun idle => ?_⟩
  have owner := inv.owner
  have limit := inv.limit
  rw [idle] at owner limit
  obtain rfl : held = [] := owner
  rw [List.append_nil]
  exact ⟨limit, inv.holds⟩

/-- In every interleaving of the owner with any number of thieves, from every power-of-two
capacity, the deque answers as the sequential deque does. -/
theorem linearizable {capacity maxCapacity : Nat} {pushOnly hasFlag : Bool}
    (power : ∃ k, capacity = 2 ^ k) {s : State}
    (reach : Reach step anyStep (initial capacity maxCapacity pushOnly hasFlag) s) :
    Linearized s := by
  obtain ⟨c, held, replayed, inv⟩ := reach_replay power reach
  exact inv.linearized replayed

/-- Two tasks of different types. -/
def olderTask : TaskRef := ⟨16#64, .fiber, by decide⟩

def newerTask : TaskRef := ⟨32#64, .native, by decide⟩

/-- A batch of two into a ring of one, which grows; one thief takes the older task, another
refuses the newer, and the owner pops it. -/
def contended : List Label :=
  [.pushBottomBatch [olderTask, newerTask]] ++ List.replicate 8 (.owner true) ++
    [.steal 0, .thief 0, .thief 0, .thief 0, .stealIf 1 (· == .fiber), .thief 1, .thief 1,
      .popBottom, .owner true, .owner true, .thief 0, .thief 1] ++
    List.replicate 6 (.owner true)

/-- The history of that run. -/
theorem linearizable_contended :
    ∃ s, Reach step anyStep (initial 1 4 false true) s ∧ s.owner = .idle ∧ s.top = s.bottom ∧
      s.log.flatMap Event.returns = [16#64, 32#64] ∧ Linearized s :=
  ⟨_, Reach.of_run .start (rfl : run step anyStep (initial 1 4 false true) contended = some _),
    rfl, rfl, by decide, linearizable ⟨0, rfl⟩ (Reach.of_run .start
      (rfl : run step anyStep (initial 1 4 false true) contended = some _))⟩

end JLibSched.Deque
