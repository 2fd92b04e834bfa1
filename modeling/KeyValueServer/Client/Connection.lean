import KeyValueServer.Client.Exchange
import KeyValueServer.Server.Engine

/-!
# A client beside its server

A client whose server works in the same process. The server works whenever something has
arrived for it, and what it sends is there to be read once it has nothing more to do.
-/

namespace KeyValueServer.Client

open Server (Engine)

/-- The client's end of a connection: how much of what the server has sent has arrived, and
what of that was not read yet. -/
structure Connection where
  stream : StreamId
  arrived : Nat
  source : Source

namespace Connection

/-- Connect to a server and let it take the connection in. -/
def connect? (engine : Engine) : Except Error (Option (Connection × Engine)) :=
  match engine.network.connect with
  | .error e => .error e
  | .ok (stream, network) =>
      .ok (({ engine with network }.settle).map fun engine => (⟨stream, 0, .idle⟩, engine))

/-- Let what the server has sent arrive. -/
def collect (c : Connection) (engine : Engine) : Connection :=
  match engine.network.peerAt c.stream with
  | none => c
  | some peer =>
      let source := c.source.arrive (peer.received.drop c.arrived)
      { c with
        arrived := peer.received.length
        source := if peer.dropped then source.finish else source }

/-- Send bytes to the server and let it work. -/
def send (c : Connection) (engine : Engine) (bytes : Bytes) : Option (Connection × Engine) :=
  (({ engine with network := engine.network.send c.stream bytes }).settle).map fun engine =>
    (c.collect engine, engine)

/-- Carry out a request. One that does not fit a message is not sent. -/
def ask (c : Connection) (engine : Engine) (request : Request) :
    Option (Except Error (Option Bytes) × Connection × Engine) :=
  match request.encode with
  | .error e => some (.error e, c, engine)
  | .ok message =>
      (c.send engine message.readable).map fun (c, engine) =>
        let (result, source) := await request (Buffer.ofCapacity maxMessage) c.source
        (result, { c with source }, engine)

/-- End the connection, and let the server take note. -/
def close (c : Connection) (engine : Engine) : Option Engine :=
  ({ engine with network := engine.network.finish c.stream }).settle

end Connection

end KeyValueServer.Client
