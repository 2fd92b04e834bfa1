import KeyValueServer.Proofs.Connection.EventRing

/-!
# Rings as bounded queues

Whatever is done to a ring, and however often its two places have gone around the circle, it answers
like a queue that holds at most one event less than the ring has cells.
-/

namespace KeyValueServer

/-- What can be done to a queue of events. -/
inductive QueueAction where
  | push (event : Event)
  | extend (events : List Event)
  | pop
  | reset

/-- What comes of it. -/
inductive QueueReply where
  | stored (fits : Bool)
  | popped (event? : Option Event)
  | emptied
deriving DecidableEq

/-- The replies to actions one after the other, and what is left at the end. -/
def QueueAction.run {σ : Type} (perform : σ → QueueAction → QueueReply × σ) :
    σ → List QueueAction → List QueueReply × σ
  | s, [] => ([], s)
  | s, action :: rest =>
      let (reply, s) := perform s action
      let (replies, s) := run perform s rest
      (reply :: replies, s)

/-- A queue, the oldest event first, and the number of events for which there is room. -/
structure BoundedQueue where
  limit : Nat
  events : List Event
deriving DecidableEq

namespace BoundedQueue

/-- Queue all of the events or, where they do not fit, none. -/
def add (q : BoundedQueue) (events : List Event) : QueueReply × BoundedQueue :=
  if q.events.length + events.length ≤ q.limit then
    (.stored true, { q with events := q.events ++ events })
  else (.stored false, q)

def perform (q : BoundedQueue) : QueueAction → QueueReply × BoundedQueue
  | .push event => q.add [event]
  | .extend events => q.add events
  | .pop => (.popped q.events.head?, { q with events := q.events.tail })
  | .reset => (.emptied, { q with events := [] })

end BoundedQueue

namespace EventRing

/-- The ring after an action. Events that it refuses leave it as it was. -/
def perform (r : EventRing) : QueueAction → QueueReply × EventRing
  | .push event =>
      match r.push? event with
      | none => (.stored false, r)
      | some r => (.stored true, r)
  | .extend events =>
      match r.extend? events with
      | none => (.stored false, r)
      | some r => (.stored true, r)
  | .pop =>
      match r.pop? with
      | none => (.popped none, r)
      | some (event, r) => (.popped (some event), r)
  | .reset => (.emptied, r.reset)

/-- A ring whose events are those of a queue, with one cell more than the queue has room for. -/
structure Represents (r : EventRing) (q : BoundedQueue) : Prop where
  sound : r.Sound
  events : r.toList = q.events
  limit : r.capacity = q.limit + 1

variable {r : EventRing} {q : BoundedQueue}

/-! ## One action -/

theorem Represents.length_eq (h : r.Represents q) : r.length = q.events.length := by
  rw [← length_toList, h.events]

theorem Represents.length_le (h : r.Represents q) : q.events.length ≤ q.limit := by
  have hlength := h.sound.length_lt
  rw [h.length_eq, h.limit] at hlength
  exact Nat.le_of_lt_succ hlength

theorem Represents.free_eq (h : r.Represents q) : r.free = q.limit - q.events.length := by
  rw [free, h.length_eq, h.limit, Nat.add_sub_cancel]

theorem push?_eq_extend? (r : EventRing) (event : Event) : r.push? event = r.extend? [event] := by
  rw [push?, extend?]
  simp only [List.length_singleton, Nat.lt_one_iff, List.foldl_cons, List.foldl_nil]

theorem perform_push (r : EventRing) (event : Event) :
    r.perform (.push event) = r.perform (.extend [event]) := by
  simp only [perform, push?_eq_extend?]

theorem Represents.extend (h : r.Represents q) (events : List Event) :
    (r.perform (.extend events)).1 = (q.add events).1 ∧
      (r.perform (.extend events)).2.Represents (q.add events).2 := by
  have hlength := h.length_le
  have hfree := h.free_eq
  rw [perform, BoundedQueue.add]
  split_ifs with hfits
  · have hroom : r.length + events.length ≤ r.capacity - 1 := by
      rw [h.length_eq, h.limit]
      omega
    obtain ⟨hsound, hlist⟩ := h.sound.foldl_store hroom
    rw [extend?, if_neg (by omega)]
    refine ⟨rfl, hsound, ?_, (capacity_foldl_store r events).trans h.limit⟩
    rw [hlist, h.events]
  · rw [extend?, if_pos (by omega)]
    exact ⟨rfl, h⟩

theorem Represents.pop (h : r.Represents q) :
    (r.perform .pop).1 = (q.perform .pop).1 ∧
      (r.perform .pop).2.Represents (q.perform .pop).2 := by
  rw [perform, BoundedQueue.perform, ← h.events]
  rcases h.sound.pop?_cases with ⟨hpop, hnil⟩ | ⟨event, r', hpop, hsound, hcons⟩
  · rw [hpop, hnil]
    exact ⟨rfl, h.sound, hnil, h.limit⟩
  · rw [hpop, hcons]
    exact ⟨rfl, hsound, rfl, (capacity_of_pop? hpop).trans h.limit⟩

/-- Ring and queue give the same reply to an action, and agree after it. -/
theorem Represents.perform (h : r.Represents q) (action : QueueAction) :
    (r.perform action).1 = (q.perform action).1 ∧
      (r.perform action).2.Represents (q.perform action).2 := by
  cases action with
  | push event =>
      rw [perform_push]
      exact h.extend [event]
  | extend events => exact h.extend events
  | pop => exact h.pop
  | reset => exact ⟨rfl, h.sound.reset, h.sound.toList_reset, h.limit⟩

/-! ## Runs -/

theorem Represents.run (h : r.Represents q) (actions : List QueueAction) :
    (QueueAction.run EventRing.perform r actions).1 =
        (QueueAction.run BoundedQueue.perform q actions).1 ∧
      (QueueAction.run EventRing.perform r actions).2.Represents
        (QueueAction.run BoundedQueue.perform q actions).2 := by
  induction actions generalizing r q with
  | nil => exact ⟨rfl, h⟩
  | cons action rest ih =>
      obtain ⟨hreply, hnext⟩ := h.perform action
      obtain ⟨hreplies, hlast⟩ := ih hnext
      exact ⟨congrArg₂ List.cons hreply hreplies, hlast⟩

/-- What a ring of `capacity` cells tells of itself while these events are queued in it. -/
structure Shows (r : EventRing) (capacity : Nat) (events : List Event) : Prop where
  toList : r.toList = events
  length : r.length = events.length
  free : r.free + events.length = capacity - 1
  isEmpty : r.isEmpty = true ↔ events = []
  /-- Both places are cells of the ring. -/
  cells : r.capacity = capacity ∧ r.head < capacity ∧ r.tail < capacity
  /-- What is subtracted for the length and for the room that is left is never too much. -/
  differences : r.head ≤ r.tail + capacity ∧ 1 ≤ capacity ∧ r.length ≤ capacity - 1

theorem Represents.shows (h : r.Represents q) : r.Shows (q.limit + 1) q.events where
  toList := h.events
  length := h.length_eq
  free := by
    have hfree := h.free_eq
    have hlength := h.length_le
    omega
  isEmpty := by rw [h.sound.isEmpty_iff, h.events]
  cells := ⟨h.limit, h.limit ▸ h.sound.head, h.limit ▸ h.sound.tail⟩
  differences := by
    have hhead := h.limit ▸ h.sound.head
    have hlength := h.length_eq ▸ h.length_le
    omega

theorem limit_perform (q : BoundedQueue) (action : QueueAction) :
    (q.perform action).2.limit = q.limit := by
  have hadd : ∀ events, (q.add events).2.limit = q.limit := by
    intro events
    rw [BoundedQueue.add]
    split <;> rfl
  cases action with
  | push event => exact hadd [event]
  | extend events => exact hadd events
  | pop => rfl
  | reset => rfl

theorem limit_run (q : BoundedQueue) (actions : List QueueAction) :
    (QueueAction.run BoundedQueue.perform q actions).2.limit = q.limit := by
  induction actions generalizing q with
  | nil => rfl
  | cons action rest ih => exact (ih _).trans (limit_perform q action)

/-- A new ring of at least two cells gives the replies of a queue that has room for one event less
than that, whatever is done to it, and shows the events of the queue at every moment. -/
theorem run_refines_queue (capacity : Nat) (hcapacity : 2 ≤ capacity) :
    ∃ r, new? capacity = some r ∧ ∀ actions,
      (QueueAction.run perform r actions).1 =
          (QueueAction.run BoundedQueue.perform ⟨capacity - 1, []⟩ actions).1 ∧
        (QueueAction.run perform r actions).2.Shows capacity
          (QueueAction.run BoundedQueue.perform ⟨capacity - 1, []⟩ actions).2.events := by
  obtain ⟨r, hnew⟩ : ∃ r, new? capacity = some r := ⟨_, if_neg (Nat.not_lt.mpr hcapacity)⟩
  have hsize : r.capacity = capacity - 1 + 1 := by
    rw [capacity_of_new? hnew, Nat.sub_add_cancel (Nat.le_of_succ_le hcapacity)]
  have hrepresents : r.Represents ⟨capacity - 1, []⟩ :=
    ⟨sound_of_new? hnew, toList_of_new? hnew, hsize⟩
  refine ⟨r, hnew, fun actions => ?_⟩
  obtain ⟨hreplies, hlast⟩ := hrepresents.run actions
  have hshows := hlast.shows
  rw [limit_run, Nat.sub_add_cancel (Nat.le_of_succ_le hcapacity)] at hshows
  exact ⟨hreplies, hshows⟩

/-- A ring is filled, emptied, filled again with a batch, and takes one more event when it has room
again. -/
def wrapAround : List QueueAction :=
  [.push (.blank 1), .push (.blank 2), .push (.blank 3), .pop, .pop,
    .extend [.blank 4, .blank 5], .extend [.blank 6], .pop, .push (.blank 7)]

/-- Three cells hold two events. Both places go past the last cell, a batch fills the ring across
that place, and what does not fit is refused. -/
theorem run_refines_queue_of_wrapAround :
    2 ≤ 3 ∧ ∃ r, new? 3 = some r ∧
      (QueueAction.run perform r wrapAround).1 =
        [.stored true, .stored true, .stored false, .popped (some (.blank 1)),
          .popped (some (.blank 2)), .stored true, .stored false, .popped (some (.blank 4)),
          .stored true] ∧
      (QueueAction.run perform r wrapAround).2.Shows 3 [.blank 5, .blank 7] := by
  obtain ⟨r, hnew, hrun⟩ := run_refines_queue 3 (by decide)
  obtain ⟨hreplies, hshows⟩ := hrun wrapAround
  exact ⟨by decide, r, hnew, hreplies, hshows⟩

end EventRing

end KeyValueServer
