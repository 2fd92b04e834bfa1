import KeyValueServer.Connection.EventRing
import KeyValueServer.Error

/-!
# The connection pool

A fixed number of places for connections. Place 0 belongs to the listening socket; the others
are handed out in turn and come back at the end of the line of free places. Handing out a
place, installing a socket and registering it leave the generation of the place alone; giving
the place back advances it, and with that every event on its way to the old connection becomes
stale.

Each place has two halves, the socket and the record of events, and each half is protected by a
lock of its own. Installing and releasing touch first the one and then the other half. Their
parts are separate functions here, since other workers may come between them.
-/

namespace KeyValueServer

/-- Whether a place is unused, idle, or being served by a worker. -/
inductive ConnectionPhase where
  | free
  | waiting
  | running
deriving DecidableEq

/-- Whether a place takes in new clients or messages. -/
inductive ConnectionRole where
  | listener
  | message
deriving DecidableEq

/-- Names the stream of one client. -/
abbrev StreamId := Nat

/-- What a place reads from. -/
inductive Socket where
  | closed
  | listener
  | stream (id : StreamId)
deriving DecidableEq

/-- A place of the pool. Its ring of events is made when it is first needed. -/
structure ConnectionSlot where
  generation : UInt32
  phase : ConnectionPhase
  role : ConnectionRole
  ring : Option EventRing
  socket : Socket

/-- A place that was never used. -/
def ConnectionSlot.unused : ConnectionSlot := ⟨0, .free, .message, none, .closed⟩

/-- The ring of a place, which is made now if there is none yet. -/
def ConnectionSlot.ring? (s : ConnectionSlot) (capacity : Nat) : Option EventRing :=
  match s.ring with
  | some ring => some ring
  | none => EventRing.new? capacity

/-- Why the pool could not do what it was asked for. Neither happens in a pool that a server
has set up. -/
inductive ArenaFault where
  | noSuchPlace
  | ringTooSmall
deriving DecidableEq

/-- The places, the line of free ones, and the size of each place's ring. -/
structure Arena where
  slots : Array ConnectionSlot
  free : List Nat
  ringCapacity : Nat

namespace Arena

/-- The place of the listening socket. -/
def listenerIndex : Nat := 0

/-- A pool in which every place but the listener's is free. -/
def new (capacity ringCapacity : Nat) : Arena :=
  ⟨Array.replicate capacity .unused, List.range' 1 (capacity - 1), ringCapacity⟩

/-- The number of places. -/
def capacity (a : Arena) : Nat := a.slots.size

/-- The place with an index. -/
def slotAt (a : Arena) (index : Nat) : Option ConnectionSlot := a.slots[index]?

/-- Change the place with an index. -/
def modify (a : Arena) (index : Nat) (f : ConnectionSlot → ConnectionSlot) : Arena :=
  { a with slots := a.slots.modify index f }

/-- The number of places that are handed out, the listener's aside. There is no answer when
more places are free than there are. -/
def inUse? (a : Arena) : Option Nat :=
  if a.free.length + 1 ≤ a.capacity then some (a.capacity - 1 - a.free.length) else none

/-- The place and the generation that a token names, if there is such a place. -/
def resolve (a : Arena) (token : ConnectionToken) : Option (Nat × UInt32) :=
  if token.index < a.capacity then some (token.index, token.generation) else none

/-- Hand out the free place that has waited longest. -/
def allocate (a : Arena) : Option (Nat × Arena) :=
  match a.free with
  | [] => none
  | index :: free => some (index, { a with free })

/-! ## Events of a place -/

/-- Put back the ring of a place. -/
def setRing (a : Arena) (index : Nat) (ring : EventRing) : Arena :=
  a.modify index fun s => { s with ring := some ring }

/-- The ring of a place, and the pool in which it has been made. -/
def ringAt (a : Arena) (index : Nat) : Except ArenaFault (EventRing × Arena) :=
  match a.slotAt index with
  | none => .error .noSuchPlace
  | some slot =>
      match slot.ring? a.ringCapacity with
      | none => .error .ringTooSmall
      | some ring => .ok (ring, a.setRing index ring)

/-- Queue an event at a place, and say whether there was room. -/
def push (a : Arena) (index : Nat) (event : Event) : Except ArenaFault (Bool × Arena) := do
  let (ring, a) ← a.ringAt index
  match ring.push? event with
  | none => .ok (false, a)
  | some ring => .ok (true, a.setRing index ring)

/-- Take the oldest event of a place. -/
def pop (a : Arena) (index : Nat) : Except ArenaFault (Option Event × Arena) := do
  let (ring, a) ← a.ringAt index
  match ring.pop? with
  | none => .ok (none, a)
  | some (event, ring) => .ok (some event, a.setRing index ring)

/-! ## Taking a place into use -/

/-- Put a socket into a place. -/
def setSocket (a : Arena) (index : Nat) (socket : Socket) : Arena :=
  a.modify index fun s => { s with socket }

/-- Declare a place idle in a role, and name what is in it from now on. The phase and the role
are set even if no ring can be made. -/
def activate (a : Arena) (index : Nat) (role : ConnectionRole) :
    Except ArenaFault ConnectionToken × Arena :=
  match a.slotAt index with
  | none => (.error .noSuchPlace, a)
  | some slot =>
      let a := a.modify index fun s => { s with phase := .waiting, role }
      match a.ringAt index with
      | .error fault => (.error fault, a)
      | .ok (_, a) => (.ok (ConnectionToken.encode index slot.generation), a)

/-- Put a socket into a place and declare it idle. -/
def install (a : Arena) (index : Nat) (role : ConnectionRole) (socket : Socket) :
    Except ArenaFault ConnectionToken × Arena :=
  (a.setSocket index socket).activate index role

/-- The socket of a place that can be polled. -/
def pollable (a : Arena) (index : Nat) : Except ArenaFault (Except IoFault Socket) :=
  match a.slotAt index with
  | none => .error .noSuchPlace
  | some slot => .ok (if slot.socket = .closed then .error .notConnected else .ok slot.socket)

/-! ## Giving a place back -/

/-- Declare a place unused and forget its events. This advances its generation. -/
def retire (a : Arena) (index : Nat) : Arena :=
  a.modify index fun s =>
    { s with
      phase := .free
      generation := s.generation + 1
      ring := s.ring.map EventRing.reset }

/-- Put a place at the end of the line of free ones. The listener's place is not handed out
again. -/
def recycle (a : Arena) (index : Nat) : Arena :=
  if index = listenerIndex then a else { a with free := a.free ++ [index] }

/-- Close the socket of a place and give the place back. -/
def release (a : Arena) (index : Nat) : Except ArenaFault Arena :=
  if index < a.capacity then
    .ok (((a.setSocket index .closed).retire index).recycle index)
  else .error .noSuchPlace

end Arena

end KeyValueServer
