import KeyValueServer.Stream.Sink
import KeyValueServer.Stream.Source

/-!
# Peers

The client at the other end of one connection, as the server sees it.
-/

namespace KeyValueServer

/-- What a client sends and receives, whether the operating system agrees to watch its
connection, and whether the server has closed it. -/
structure Peer where
  source : Source
  sink : Sink
  pollable : Bool
  dropped : Bool

namespace Peer

/-- A client that has just connected. -/
def connected (pollable : Bool) : Peer := ⟨.idle, .accepting, pollable, false⟩

/-- What the client has received. -/
def received (p : Peer) : Bytes := p.sink.accepted

end Peer

end KeyValueServer
