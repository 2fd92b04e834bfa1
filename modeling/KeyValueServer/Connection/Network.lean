import KeyValueServer.Connection.Arena
import KeyValueServer.Stream.Peer

/-!
# The network

All that a server shares with the operating system: the clients, those of them that wait to be
accepted, the sockets that are watched, and the events that are ready to be polled. An event
becomes ready when something arrives at a watched socket, or when a socket is watched at which
something has arrived before; it is handed out once. Events of one socket that were not handed
out yet are merged.
-/

namespace KeyValueServer

/-- What the listening socket returns next: a client, or a failure. -/
inductive Arrival where
  | client (stream : StreamId)
  | fails (fault : IoFault)
deriving DecidableEq

/-- The operating system's side of a server. A network that is not reachable takes no new
clients. -/
structure Network where
  reachable : Bool
  peers : Array Peer
  backlog : List Arrival
  watched : List (ConnectionToken × Socket)
  ready : List Event

namespace Network

/-- A network in which nothing has happened yet. -/
def idle (reachable : Bool) : Network := ⟨reachable, #[], [], [], []⟩

/-! ## Events -/

/-- One event that reports what two of them do. -/
def merge (e f : Event) : Event :=
  ⟨e.token, e.readable || f.readable, e.writable || f.writable, e.error || f.error,
    e.readClosed || f.readClosed, e.writeClosed || f.writeClosed⟩

/-- Make an event ready. -/
def announce (ready : List Event) (event : Event) : List Event :=
  match ready with
  | [] => [event]
  | e :: rest =>
      if e.token = event.token then merge e event :: rest else e :: announce rest event

/-- Make an event ready for each token under which a socket is watched. -/
def signal (n : Network) (socket : Socket) (report : ConnectionToken → Event) : Network :=
  let tokens := (n.watched.filter fun w => w.2 = socket).map Prod.fst
  { n with ready := tokens.foldl (fun ready token => announce ready (report token)) n.ready }

/-- Hand out up to `limit` events, those first that were ready first. -/
def poll (n : Network) (limit : Nat) : List Event × Network :=
  (n.ready.take limit, { n with ready := n.ready.drop limit })

/-! ## Clients -/

/-- The client of a stream. -/
def peerAt (n : Network) (stream : StreamId) : Option Peer := n.peers[stream]?

/-- Change the client of a stream. -/
def modifyPeer (n : Network) (stream : StreamId) (f : Peer → Peer) : Network :=
  { n with peers := n.peers.modify stream f }

/-- The event of a socket at which a client's bytes, or the end of them, are to be read. -/
def outstanding (source : Source) (token : ConnectionToken) : Event :=
  { Event.blank token with readable := true, readClosed := source.ended }

/-- Make ready what there is to read from a client. -/
def signalPeer (n : Network) (stream : StreamId) : Network :=
  match n.peerAt stream with
  | none => n
  | some peer => n.signal (.stream stream) (outstanding peer.source)

/-- Let a client connect. It waits to be accepted. -/
def connect (n : Network) : Except Error (StreamId × Network) :=
  if n.reachable then
    let stream := n.peers.size
    let peers := n.peers.push (.connected true)
    let backlog := n.backlog ++ [Arrival.client stream]
    let n := { n with peers, backlog }
    .ok (stream, n.signal .listener fun token => { Event.blank token with readable := true })
  else .error (.io .unreachable)

/-- Let bytes of a client arrive. -/
def send (n : Network) (stream : StreamId) (bytes : Bytes) : Network :=
  if bytes.isEmpty then n
  else (n.modifyPeer stream fun p => { p with source := p.source.arrive bytes }).signalPeer stream

/-- Let the end of what a client sends arrive. -/
def finish (n : Network) (stream : StreamId) : Network :=
  (n.modifyPeer stream fun p => { p with source := p.source.finish }).signalPeer stream

/-! ## The server's calls -/

/-- Take in the client that has waited longest. -/
def accept (n : Network) : Except IoFault StreamId × Network :=
  match n.backlog with
  | [] => (.error .wouldBlock, n)
  | .client stream :: backlog => (.ok stream, { n with backlog })
  | .fails fault :: backlog => (.error fault, { n with backlog })

/-- What there is to report about a socket when it is first watched. -/
def pending (n : Network) (socket : Socket) (token : ConnectionToken) : List Event :=
  match socket with
  | .closed => []
  | .listener =>
      if n.backlog.isEmpty then [] else [{ Event.blank token with readable := true }]
  | .stream stream =>
      match n.peerAt stream with
      | none => []
      | some peer => if peer.source.isOutstanding then [outstanding peer.source token] else []

/-- Watch a socket under a token. -/
def watch (n : Network) (token : ConnectionToken) (socket : Socket) : Except IoFault Network :=
  let refused : Bool := match socket with
    | .stream stream => ((n.peerAt stream).map fun p => !p.pollable).getD false
    | _ => false
  if refused then .error .other
  else .ok { n with
    watched := n.watched ++ [(token, socket)]
    ready := (n.pending socket token).foldl announce n.ready }

/-- Stop watching a socket. Its events that were not handed out yet are dropped. -/
def unwatch (n : Network) (socket : Socket) : Network :=
  let tokens := (n.watched.filter fun w => w.2 = socket).map Prod.fst
  { n with
    watched := n.watched.filter fun w => w.2 ≠ socket
    ready := n.ready.filter fun e => e.token ∉ tokens }

/-- Close the connection to a client. -/
def drop (n : Network) (stream : StreamId) : Network :=
  n.modifyPeer stream fun p => { p with dropped := true }

/-- Close a socket of the server. -/
def close (n : Network) (socket : Socket) : Network :=
  match socket with
  | .closed => n
  | .listener => n.unwatch .listener
  | .stream stream => (n.unwatch (.stream stream)).drop stream

end Network

end KeyValueServer
