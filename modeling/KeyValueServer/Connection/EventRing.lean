import KeyValueServer.Connection.Event

/-!
# Event rings

A queue of events in a fixed circle of cells. New events go to the cell at `tail`, the oldest
event is in the cell at `head`, and both wander around the circle. One cell always stays
unused, so that an empty ring, where the two meet, differs from a full one.
-/

namespace KeyValueServer

/-- A circle of cells and the two places in it. -/
structure EventRing where
  cells : Array Event
  head : Nat
  tail : Nat
deriving DecidableEq

namespace EventRing

/-- An empty ring. There is none with fewer than two cells: it could not take an event. -/
def new? (capacity : Nat) : Option EventRing :=
  if capacity < 2 then none
  else some ⟨Array.replicate capacity (Event.blank 0), 0, 0⟩

/-- The number of cells. -/
def capacity (r : EventRing) : Nat := r.cells.size

/-- The number of queued events. -/
def length (r : EventRing) : Nat := (r.tail + r.capacity - r.head) % r.capacity

/-- The number of events that can still be queued. -/
def free (r : EventRing) : Nat := r.capacity - 1 - r.length

/-- Whether no event is queued. -/
def isEmpty (r : EventRing) : Bool := r.head == r.tail

/-- The cell that follows another one. -/
def next (r : EventRing) (place : Nat) : Nat := (place + 1) % r.capacity

/-- The event in a cell. -/
def cell (r : EventRing) (place : Nat) : Event := r.cells[place]?.getD (Event.blank 0)

/-- The queued events, the oldest first. -/
def toList (r : EventRing) : List Event :=
  (List.range r.length).map fun i => r.cell ((r.head + i) % r.capacity)

/-- Write an event into the cell at `tail`. -/
def store (r : EventRing) (event : Event) : EventRing :=
  { r with cells := r.cells.setIfInBounds r.tail event, tail := r.next r.tail }

/-- Queue an event, unless the ring is full. -/
def push? (r : EventRing) (event : Event) : Option EventRing :=
  if r.free = 0 then none else some (r.store event)

/-- Queue all of the events or, where they do not fit, none. -/
def extend? (r : EventRing) (events : List Event) : Option EventRing :=
  if r.free < events.length then none else some (events.foldl store r)

/-- Take the oldest event. -/
def pop? (r : EventRing) : Option (Event × EventRing) :=
  if r.isEmpty then none else some (r.cell r.head, { r with head := r.next r.head })

/-- Drop all events. -/
def reset (r : EventRing) : EventRing := { r with head := 0, tail := 0 }

/-- The line that describes a ring in traces. -/
def describe (r : EventRing) : String :=
  "EventRing \x7b capacity: " ++ toString r.capacity ++ ", head: " ++ toString r.head
    ++ ", tail: " ++ toString r.tail ++ " \x7d"

end EventRing

end KeyValueServer
