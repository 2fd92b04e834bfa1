import KeyValueServer.Server.Engine
import KeyValueServer.Store.Fingerprint

/-!
# Launching a server

A configuration is checked before anything is made of it; then come the table, the waiter and
the pool of connections.
-/

namespace KeyValueServer.Server

/-- A server that listens. -/
def launch (c : Config) (memory : Allocator) (network : Network) : Except SetupFault Engine :=
  match c.validate with
  | .error fault => .error (.refused (.config fault))
  | .ok () =>
      match Table.new memory fingerprint c.slotBits.toNat c.maxShards.toNat with
      | .error e => .error (.refused e)
      | .ok table => Engine.new c memory table network

end KeyValueServer.Server
