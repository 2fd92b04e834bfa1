import KeyValueServer.Config.Settings
import KeyValueServer.Connection.Network
import KeyValueServer.Connection.Waiter
import KeyValueServer.Server.Serve

/-!
# The engine

Events travel from the network to the shared queue, from there to the ring of their connection,
and from there to the worker that serves the connection. A worker claims a connection by
queueing an event at one that is idle, and keeps it until its ring is empty, so that a
connection is served by one worker at a time and in order. Events of connections that are gone,
and events for which a ring has no room, are discarded.

The module has the single actions of a worker and, made of them, the rounds of a worker that
has no others beside it. `KeyValueServer.Server.Workers` lets several workers take turns at the
same actions.
-/

namespace KeyValueServer.Server

/-- A server at work: its connections, its waiting workers, its table, and the network. -/
structure Engine where
  arena : Arena
  waiter : Waiter
  table : Table
  network : Network
  memory : Allocator

/-- Why an engine could not be set up. -/
inductive SetupFault where
  | refused (e : Error)
  | pool (fault : ArenaFault)

/-- What a worker finds at the connection that it serves. -/
inductive Finding where
  | event (event : Event) (role : ConnectionRole)
  | drained
  | misplaced (phase : ConnectionPhase)

namespace Engine

/-- Set up the waiter and the pool of connections, and listen. -/
def new (c : Config) (memory : Allocator) (table : Table) (network : Network) :
    Except SetupFault Engine :=
  match Waiter.new c.eventQueueCapacity.toNat c.pollBatch.toNat c.threads.toNat with
  | .error e => .error (.refused e)
  | .ok waiter =>
      let arena := Arena.new c.maxConnections.toNat c.connectionQueueCapacity.toNat
      match arena.install Arena.listenerIndex .listener .listener with
      | (.error fault, _) => .error (.pool fault)
      | (.ok token, arena) =>
          match network.watch token .listener with
          | .error fault => .error (.refused (.io fault))
          | .ok network => .ok { arena, waiter, table, network, memory }

/-- What a worker brings along to answer requests. -/
def workerOf (e : Engine) (index : Nat) : Worker := ⟨Fin.ofNat fieldSize (index + 1), e.memory⟩

/-- The number of open client connections, if it can be told. -/
def connections? (e : Engine) : Option Nat := e.arena.inUse?

/-- The socket of a place. -/
def socketAt (e : Engine) (index : Nat) : Socket :=
  ((e.arena.slotAt index).map ConnectionSlot.socket).getD .closed

/-! ## Claiming a connection -/

/-- Queue an event at its connection. The worker has claimed the connection if it was idle. -/
def route (e : Engine) (event : Event) : Option Nat × Engine :=
  match e.arena.resolve event.token with
  | none => (none, e)
  | some (index, generation) =>
      match e.arena.slotAt index with
      | none => (none, e)
      | some slot =>
          if slot.phase = .free ∨ slot.generation ≠ generation then (none, e)
          else match e.arena.push index event with
            | .error _ => (none, e)
            | .ok (false, arena) => (none, { e with arena })
            | .ok (true, arena) =>
                if slot.phase = .waiting then
                  (some index, { e with arena := arena.modify index fun s =>
                    { s with phase := .running } })
                else (none, { e with arena })

/-- Route up to `limit` events of the shared queue, until one of them claims a connection. -/
def claim : (limit : Nat) → Engine → Option Nat × Engine
  | 0, e => (none, e)
  | limit + 1, e =>
      match e.waiter.dequeue? with
      | none => (none, e)
      | some (event, waiter) =>
          match { e with waiter }.route event with
          | (some index, e) => (some index, e)
          | (none, e) => claim limit e

/-! ## Serving a connection -/

/-- Take the next event of a claimed connection. Where there is none, the connection is idle
again. -/
def takeEvent (e : Engine) (index : Nat) : Finding × Engine :=
  match e.arena.slotAt index with
  | none => (.drained, e)
  | some slot =>
      if slot.phase ≠ .running then (.misplaced slot.phase, e)
      else match e.arena.pop index with
        | .error _ => (.drained, e)
        | .ok (some event, arena) => (.event event slot.role, { e with arena })
        | .ok (none, arena) =>
            (.drained, { e with arena := arena.modify index fun s => { s with phase := .waiting } })

/-- Read the stream in a place once, and answer what the read returned. -/
def readOnce (e : Engine) (worker : Worker) (index : Nat) : Option (ReadOutcome × Engine) :=
  match e.socketAt index with
  | .stream stream =>
      match e.network.peerAt stream with
      | none => some (.failed (.invalidState (.noStream index)), e)
      | some peer =>
          (serveOnce worker e.table peer).map fun turn =>
            (turn.outcome, { e with
              table := turn.table
              network := e.network.modifyPeer stream fun _ => turn.peer })
  | _ => some (.failed (.invalidState (.noStream index)), e)

/-- Read the stream in a place until nothing more has arrived, and answer all requests. Tells
whether the connection stays open. -/
def serveStream (e : Engine) (worker : Worker) (index : Nat) : Option (Bool × Engine) :=
  match e.socketAt index with
  | .stream stream =>
      match e.network.peerAt stream with
      | none => some (false, e)
      | some peer =>
          (serve worker e.table peer).map fun turn =>
            (match turn.outcome with
              | .ended => false
              | .failed _ => false
              | _ => true,
              { e with
                table := turn.table
                network := e.network.modifyPeer stream fun _ => turn.peer })
  | _ => some (false, e)

/-! ## Closing a connection -/

/-- Close the socket of a place. -/
def closeSocket (e : Engine) (index : Nat) : Engine :=
  { e with
    network := e.network.close (e.socketAt index)
    arena := e.arena.setSocket index .closed }

/-- Declare a place unused, which makes the events on their way to it stale. -/
def retire (e : Engine) (index : Nat) : Engine := { e with arena := e.arena.retire index }

/-- Return a place to the line of free ones. -/
def recycle (e : Engine) (index : Nat) : Engine := { e with arena := e.arena.recycle index }

/-- Close a connection and give its place back. -/
def close (e : Engine) (index : Nat) : Engine := ((e.closeSocket index).retire index).recycle index

/-! ## Taking in clients -/

/-- What one call on the listening socket returns. -/
def acceptOnce (e : Engine) : Except Error StreamId × Engine :=
  match e.socketAt Arena.listenerIndex with
  | .listener =>
      match e.network.accept with
      | (.ok stream, network) => (.ok stream, { e with network })
      | (.error fault, network) => (.error (.io fault), { e with network })
  | _ => (.error (.invalidState .listenerClosed), e)

/-- Whether the listening socket is to be called again after a failure. -/
def isRepeated : Error → Bool
  | .io fault => fault.isInterrupted
  | _ => false

/-- Reserve a place for a client. One for whom there is none is dropped. -/
def reserve (e : Engine) (stream : StreamId) : Option Nat × Engine :=
  match e.arena.allocate with
  | none => (none, { e with network := e.network.drop stream })
  | some (index, arena) => (some index, { e with arena })

/-- Put the stream of a client into its place. -/
def place (e : Engine) (index : Nat) (stream : StreamId) : Engine :=
  { e with arena := e.arena.setSocket index (.stream stream) }

/-- Declare the place of a client idle, so that the first event finds it so. -/
def activate (e : Engine) (index : Nat) : Option ConnectionToken × Engine :=
  match e.arena.activate index .message with
  | (.error _, arena) => (none, { e with arena })
  | (.ok token, arena) => (some token, { e with arena })

/-- Have the socket of a place watched, unless it is closed. -/
def register (e : Engine) (index : Nat) (token : ConnectionToken) : Option Engine :=
  match e.arena.pollable index with
  | .ok (.ok socket) =>
      match e.network.watch token socket with
      | .error _ => none
      | .ok network => some { e with network }
  | _ => none

/-- Take a client in, if there is a place for it and its connection can be watched. -/
def attach (e : Engine) (stream : StreamId) : Engine :=
  match e.reserve stream with
  | (none, e) => e
  | (some index, e) =>
      match (e.place index stream).activate index with
      | (none, e) => e.close index
      | (some token, e) => (e.register index token).getD (e.close index)

/-- Take in up to `limit` clients that wait. A failure other than an interruption ends this. -/
def acceptAll : (limit : Nat) → Engine → Engine
  | 0, e => e
  | limit + 1, e =>
      match e.acceptOnce with
      | (.ok stream, e) => acceptAll limit (e.attach stream)
      | (.error error, e) => if isRepeated error then acceptAll limit e else e

/-! ## Rounds of a single worker -/

/-- Serve a claimed connection for up to `limit` of its events. -/
def drain (worker : Worker) : (limit : Nat) → Engine → (index : Nat) → Option Engine
  | 0, e, _ => some e
  | limit + 1, e, index =>
      match e.takeEvent index with
      | (.drained, e) => some e
      | (.misplaced phase, e) => some (if phase = .free then e else e.close index)
      | (.event _ .listener, e) =>
          drain worker limit (e.acceptAll (e.network.backlog.length + 1)) index
      | (.event event .message, e) => do
          let (isOpen, e) ← if event.readable then e.serveStream worker index else some (true, e)
          if !isOpen || event.isHangup then some (e.close index) else drain worker limit e index

/-- The number of events queued at a place. -/
def queuedAt (e : Engine) (index : Nat) : Nat :=
  (((e.arena.slotAt index).bind ConnectionSlot.ring).map EventRing.length).getD 0

/-- Claim and serve up to `limit` connections. -/
def processUpTo (worker : Worker) : (limit : Nat) → Engine → Option Engine
  | 0, e => some e
  | limit + 1, e =>
      match e.claim e.waiter.queue.length with
      | (none, e) => some e
      | (some index, e) => do
          processUpTo worker limit (← drain worker (e.queuedAt index + 1) e index)

/-- Serve connections until the shared queue has nothing that can be claimed. -/
def process (e : Engine) (worker : Worker) : Option Engine :=
  processUpTo worker (e.waiter.queue.length + 1) e

/-- Wait for events, as the only worker: poll and queue what the poll returned. There is no
result where nothing is ready, so that the worker would wait, or where the queue has no room. -/
def await (e : Engine) (index : Nat) : Option Engine :=
  let (batch, network) := e.network.poll e.waiter.batchLimit
  if batch.isEmpty then none
  else ((e.waiter.park index).countRound.enqueue? batch).map fun waiter =>
    { e with network, waiter := (waiter.wake index batch.length).leave index }

/-- Wait and serve for up to `limit` rounds, until nothing is ready any more. -/
def rounds (index : Nat) : (limit : Nat) → Engine → Option Engine
  | 0, e => some e
  | limit + 1, e =>
      match e.await index with
      | none => some e
      | some e => do rounds index limit (← e.process (e.workerOf index))

/-- Work until nothing is ready any more. A client that is taken in may be ready once more. -/
def settle (e : Engine) : Option Engine :=
  rounds 0 (e.network.ready.length + e.network.backlog.length + 1) e

end Engine

end KeyValueServer.Server
