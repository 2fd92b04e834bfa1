import KeyValueServer.Connection.Waiter
import KeyValueServer.Proofs.Connection.BoundedQueue
import KeyValueServer.Proofs.Connection.Lending

/-!
# Rings of one size

The rings of a pool are made one by one, each when its place first needs it, and all with the same
number of cells. What is done to them later changes neither that number nor what follows from it: an
empty ring takes as many events as it has cells but one. If that number is two at least, no place is
ever without a ring, and an event always fits an empty one.
-/

namespace KeyValueServer

/-! ## A ring in use -/

theorem QueueAction.run_append {σ : Type} (perform : σ → QueueAction → QueueReply × σ) (s : σ)
    (actions more : List QueueAction) :
    (run perform s (actions ++ more)).2 = (run perform (run perform s actions).2 more).2 := by
  induction actions generalizing s with
  | nil => rfl
  | cons action rest ih => exact ih _

namespace EventRing

variable {r r' : EventRing} {q : BoundedQueue} {capacity : Nat} {event : Event}
  {events : List Event}

theorem Represents.exists_extend?_iff (h : r.Represents q) :
    (∃ r', r.extend? events = some r') ↔ q.events.length + events.length ≤ q.limit := by
  have hfree := h.free_eq
  have hlength := h.length_le
  rw [extend?]
  split_ifs with hfull
  · simp only [exists_false, false_iff]
    omega
  · simp only [Option.some.injEq, exists_eq', true_iff]
    omega

/-- A ring that was made with so many cells, after whatever was done to it. -/
def ComesFrom (r : EventRing) (capacity : Nat) : Prop :=
  ∃ made actions, new? capacity = some made ∧ (QueueAction.run perform made actions).2 = r

namespace ComesFrom

theorem of_new? (h : new? capacity = some r) : r.ComesFrom capacity := ⟨r, [], h, rfl⟩

theorem perform (h : r.ComesFrom capacity) (action : QueueAction) :
    (r.perform action).2.ComesFrom capacity := by
  obtain ⟨made, actions, hnew, rfl⟩ := h
  exact ⟨made, actions ++ [action], hnew, QueueAction.run_append _ _ _ _⟩

theorem push (h : r.ComesFrom capacity) (hpush : r.push? event = some r') :
    r'.ComesFrom capacity := by
  have hperform := h.perform (.push event)
  rwa [EventRing.perform, hpush] at hperform

theorem extend (h : r.ComesFrom capacity) (hextend : r.extend? events = some r') :
    r'.ComesFrom capacity := by
  have hperform := h.perform (.extend events)
  rwa [EventRing.perform, hextend] at hperform

theorem pop (h : r.ComesFrom capacity) (hpop : r.pop? = some (event, r')) :
    r'.ComesFrom capacity := by
  have hperform := h.perform .pop
  rwa [EventRing.perform, hpop] at hperform

theorem two_le (h : r.ComesFrom capacity) : 2 ≤ capacity := by
  obtain ⟨made, -, hnew, -⟩ := h
  exact exists_new?_iff.mp ⟨made, hnew⟩

theorem exists_represents (h : r.ComesFrom capacity) :
    ∃ events, r.Represents ⟨capacity - 1, events⟩ := by
  have hroom := h.two_le
  obtain ⟨made, actions, hnew, rfl⟩ := h
  have hmade : made.Represents ⟨capacity - 1, []⟩ := by
    refine ⟨sound_of_new? hnew, toList_of_new? hnew, ?_⟩
    rw [capacity_of_new? hnew, Nat.sub_add_cancel (Nat.le_of_succ_le hroom)]
  have hlast := (hmade.run actions).2
  refine ⟨_, hlast.sound, hlast.events, ?_⟩
  rw [hlast.limit, limit_run]

/-- An empty ring takes as many events at once as it has cells but one, and no more. -/
theorem exists_extend?_iff (h : r.ComesFrom capacity) (hempty : r.isEmpty = true) :
    (∃ r', r.extend? events = some r') ↔ events.length < capacity := by
  have hroom := h.two_le
  obtain ⟨queued, hq⟩ := h.exists_represents
  have hnil : queued = [] := hq.events.symm.trans (hq.sound.isEmpty_iff.mp hempty)
  rw [hq.exists_extend?_iff, hnil, List.length_nil, Nat.zero_add]
  exact Nat.le_sub_one_iff_lt (Nat.zero_lt_of_lt hroom)

theorem exists_push? (h : r.ComesFrom capacity) (hempty : r.isEmpty = true) (event : Event) :
    ∃ r', r.push? event = some r' := by
  rw [push?_eq_extend?]
  exact (h.exists_extend?_iff hempty).mpr h.two_le

end ComesFrom

end EventRing

/-! ## The shared queue -/

namespace Waiter

variable {queueCapacity batchLimit workers : Nat} {w : Waiter}

theorem eq_of_new (h : new queueCapacity batchLimit workers = .ok w) :
    ∃ queue, EventRing.new? queueCapacity = some queue ∧
      w = ⟨queue, batchLimit, workers, 0, [], none, []⟩ := by
  unfold new at h
  split_ifs at h
  split at h
  · contradiction
  next queue hqueue => exact ⟨queue, hqueue, (Except.ok.inj h).symm⟩

/-- A queue that is larger than a batch of at least one event needs no limit of its own. -/
theorem exists_new_iff :
    (∃ w, new queueCapacity batchLimit workers = .ok w) ↔
      0 < batchLimit ∧ batchLimit < queueCapacity := by
  rw [new]
  split_ifs with hbatch
  · simp only [exists_false, false_iff]
    omega
  · obtain ⟨queue, hqueue⟩ := EventRing.exists_new?_iff.mpr (by omega : 2 ≤ queueCapacity)
    simp only [hqueue, Except.ok.injEq, exists_eq', true_iff]
    omega

theorem new_eq_error (h : batchLimit = 0 ∨ queueCapacity ≤ batchLimit) :
    new queueCapacity batchLimit workers = .error (.invalidArgument .batchNotBelowQueue) :=
  if_pos h

end Waiter

/-! ## The rings of a pool -/

/-- The ring of a place, if it was made yet, was made with so many cells. -/
def ConnectionSlot.HasCells (s : ConnectionSlot) (cells : Nat) : Prop :=
  ∀ ring, s.ring = some ring → ring.ComesFrom cells

theorem ConnectionSlot.HasCells.retired {s : ConnectionSlot} {cells : Nat} (h : s.HasCells cells) :
    s.retired.HasCells cells := by
  intro ring hring
  obtain ⟨old, hold, rfl⟩ := Option.map_eq_some_iff.mp hring
  exact (h old hold).perform .reset

namespace Arena

/-- A pool of so many places, whose rings all have so many cells. -/
structure Fitted (a : Arena) (places cells : Nat) : Prop where
  size : a.capacity = places
  room : a.ringCapacity = cells
  rings : ∀ {index slot}, a.slotAt index = some slot → slot.HasCells cells

variable {a a' : Arena} {places cells index : Nat} {ring : EventRing} {event : Event}

theorem fitted_new (places cells : Nat) : (Arena.new places cells).Fitted places cells where
  size := Array.size_replicate
  room := rfl
  rings {index slot} hslot := by
    rw [slotAt_new] at hslot
    split_ifs at hslot
    obtain rfl := Option.some.inj hslot
    intro ring hring
    contradiction

namespace Fitted

theorem setFree (ha : a.Fitted places cells) (free : List Nat) :
    Fitted { a with free } places cells := ⟨ha.size, ha.room, ha.rings⟩

theorem modify (ha : a.Fitted places cells) (index : Nat) {f : ConnectionSlot → ConnectionSlot}
    (hf : ∀ slot : ConnectionSlot, slot.HasCells cells → (f slot).HasCells cells) :
    (a.modify index f).Fitted places cells where
  size := (capacity_modify a index f).trans ha.size
  room := ha.room
  rings {other slot} hslot := by
    rw [slotAt_modify] at hslot
    split_ifs at hslot
    · obtain ⟨old, hold, rfl⟩ := Option.map_eq_some_iff.mp hslot
      exact hf old (ha.rings hold)
    · exact ha.rings hslot

theorem setRing (ha : a.Fitted places cells) (index : Nat) (hring : ring.ComesFrom cells) :
    (a.setRing index ring).Fitted places cells := by
  refine ha.modify index fun slot _ found hfound => ?_
  obtain rfl := Option.some.inj hfound
  exact hring

theorem setSocket (ha : a.Fitted places cells) (index : Nat) (socket : Socket) :
    (a.setSocket index socket).Fitted places cells := ha.modify index fun _ hslot => hslot

theorem retire (ha : a.Fitted places cells) (index : Nat) :
    (a.retire index).Fitted places cells := ha.modify index fun _ hslot => hslot.retired

theorem recycle (ha : a.Fitted places cells) (index : Nat) :
    (a.recycle index).Fitted places cells := by
  rw [Arena.recycle]
  split
  · exact ha
  · exact ha.setFree _

theorem allocate (ha : a.Fitted places cells) (h : a.allocate = some (index, a')) :
    a'.Fitted places cells := by
  unfold Arena.allocate at h
  split at h
  · contradiction
  · obtain ⟨-, rfl⟩ := Prod.mk.inj (Option.some.inj h)
    exact ha.setFree _

/-- A ring that was there has as many cells as one that is made now. -/
theorem ringAt (ha : a.Fitted places cells) (h : a.ringAt index = .ok (ring, a')) :
    ring.ComesFrom cells ∧ a'.Fitted places cells := by
  obtain ⟨slot, hslot, hmade, rfl⟩ := exists_ring?_of_ringAt h
  have hcells : ring.ComesFrom cells := by
    unfold ConnectionSlot.ring? at hmade
    split at hmade
    next hring => exact Option.some.inj hmade ▸ ha.rings hslot _ hring
    · exact .of_new? (ha.room ▸ hmade)
  exact ⟨hcells, ha.setRing index hcells⟩

theorem push (ha : a.Fitted places cells) {fits : Bool}
    (h : a.push index event = .ok (fits, a')) : a'.Fitted places cells := by
  obtain ⟨ring, made, hring, rfl | ⟨ring', hpush, rfl⟩⟩ := exists_ringAt_of_push h
  · exact (ha.ringAt hring).2
  · obtain ⟨hcells, hmade⟩ := ha.ringAt hring
    exact hmade.setRing index (hcells.push hpush)

theorem pop (ha : a.Fitted places cells) {event? : Option Event}
    (h : a.pop index = .ok (event?, a')) : a'.Fitted places cells := by
  obtain ⟨ring, made, hring, rfl | ⟨event, ring', hpop, rfl⟩⟩ := exists_ringAt_of_pop h
  · exact (ha.ringAt hring).2
  · obtain ⟨hcells, hmade⟩ := ha.ringAt hring
    exact hmade.setRing index (hcells.pop hpop)

theorem activate (ha : a.Fitted places cells) (index : Nat) (role : ConnectionRole) :
    (a.activate index role).2.Fitted places cells := by
  have hdeclared : (a.modify index fun s => { s with phase := .waiting, role }).Fitted places
      cells := ha.modify index fun _ hslot => hslot
  unfold Arena.activate
  split
  · exact ha
  · dsimp only
    split
    · exact hdeclared
    next hring => exact (hdeclared.ringAt hring).2

theorem install (ha : a.Fitted places cells) (index : Nat) (role : ConnectionRole)
    (socket : Socket) : (a.install index role socket).2.Fitted places cells :=
  (ha.setSocket index socket).activate index role

/-! ### What a place can rely on -/

theorem exists_ringAt (ha : a.Fitted places cells) (hcells : 2 ≤ cells) (hindex : index < places) :
    ∃ ring a', a.ringAt index = .ok (ring, a') := by
  obtain ⟨slot, hslot⟩ := exists_slotAt (ha.size ▸ hindex)
  obtain ⟨ring, hring, -⟩ := activate_eq_ok (ha.room ▸ hcells) hslot .message
  exact ⟨ring, _, by rw [ringAt_of_slotAt hslot, hring]⟩

theorem exists_push (ha : a.Fitted places cells) (hring : a.ringAt index = .ok (ring, a'))
    (hempty : ring.isEmpty = true) (event : Event) :
    ∃ a'', a.push index event = .ok (true, a'') := by
  obtain ⟨ring', hpush⟩ := (ha.ringAt hring).1.exists_push? hempty event
  exact ⟨a'.setRing index ring', by simp only [Arena.push, hring, bind, Except.bind, hpush]⟩

end Fitted

end Arena

end KeyValueServer
