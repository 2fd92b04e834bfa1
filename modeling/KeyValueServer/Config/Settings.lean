import KeyValueServer.Error
import KeyValueServer.Toml.Node

/-!
# Settings

What can be configured about a server, the defaults, and the limits that a configuration has to
keep. Every setting also has a name and a value of one of the kinds that a configuration file
knows, so that reading and writing files need not know the single settings.
-/

namespace KeyValueServer

/-- The configuration of a server. -/
structure Config where
  /-- The address to listen on. -/
  bindAddress : String
  /-- The port to listen on; zero leaves the choice to the system. -/
  port : UInt16
  /-- The number of worker threads. -/
  threads : UInt64
  /-- The number of slots of a shard, as a power of two. -/
  slotBits : UInt32
  /-- The largest number of shards. -/
  maxShards : UInt64
  /-- The number of places in the connection pool, the listener's included. -/
  maxConnections : UInt64
  /-- The capacity of the queue that all workers share. -/
  eventQueueCapacity : UInt64
  /-- The capacity of the ring of each connection. -/
  connectionQueueCapacity : UInt64
  /-- The largest number of events that one poll returns. -/
  pollBatch : UInt64
  /-- How long to wait for room in the shared queue, in milliseconds. -/
  enqueueRetryMs : UInt64
  /-- Whether small packets are sent at once. -/
  tcpNodelay : Bool
  /-- Whether each worker is bound to a processor. -/
  cpuAffinity : Bool
  /-- The numeric trace level. -/
  traceLevel : Int32
deriving DecidableEq

/-- A setting. -/
inductive Setting where
  | bindAddress
  | port
  | threads
  | slotBits
  | maxShards
  | maxConnections
  | eventQueueCapacity
  | connectionQueueCapacity
  | pollBatch
  | enqueueRetryMs
  | tcpNodelay
  | cpuAffinity
  | traceLevel
deriving DecidableEq

namespace Setting

/-- All settings, in the order in which they are written. -/
def all : List Setting :=
  [bindAddress, port, threads, slotBits, maxShards, maxConnections, eventQueueCapacity,
    connectionQueueCapacity, pollBatch, enqueueRetryMs, tcpNodelay, cpuAffinity, traceLevel]

/-- The name of a setting in a configuration file. -/
def name : Setting → String
  | bindAddress => "bind_addr"
  | port => "port"
  | threads => "threads"
  | slotBits => "slot_bits"
  | maxShards => "max_shards"
  | maxConnections => "max_connections"
  | eventQueueCapacity => "event_queue_capacity"
  | connectionQueueCapacity => "connection_queue_capacity"
  | pollBatch => "poll_batch"
  | enqueueRetryMs => "enqueue_retry_ms"
  | tcpNodelay => "tcp_nodelay"
  | cpuAffinity => "cpu_affinity"
  | traceLevel => "trace_level"

/-- The value of a setting that is a truth value. -/
def flag? : Toml.Node → Option Bool
  | .boolean value => some value
  | _ => none

/-- The value of a setting that is a text. -/
def text? : Toml.Node → Option String
  | .string text => some (String.ofList text)
  | _ => none

/-- The value of a setting that is a number between two bounds, the upper one excluded. -/
def number? (low high : Int) : Toml.Node → Option Int
  | .integer value => if low ≤ value ∧ value < high then some value else none
  | _ => none

/-- The value of a setting that is a number of so many bits, without sign. -/
def natural? (bits : Nat) (node : Toml.Node) : Option Nat :=
  (number? 0 (Nat.pow 2 bits) node).map Int.toNat

end Setting

namespace Config

/-- The configuration without any file. -/
def default : Config where
  bindAddress := "0.0.0.0"
  port := 22000
  threads := 4
  slotBits := 20
  maxShards := 1024
  maxConnections := 4096
  eventQueueCapacity := 1024
  connectionQueueCapacity := 64
  pollBatch := 512
  enqueueRetryMs := 1
  tcpNodelay := true
  cpuAffinity := false
  traceLevel := 0

/-- The value of a setting. -/
def value (c : Config) : Setting → Toml.Node
  | .bindAddress => .string c.bindAddress.toList
  | .port => .integer c.port.toNat
  | .threads => .integer c.threads.toNat
  | .slotBits => .integer c.slotBits.toNat
  | .maxShards => .integer c.maxShards.toNat
  | .maxConnections => .integer c.maxConnections.toNat
  | .eventQueueCapacity => .integer c.eventQueueCapacity.toNat
  | .connectionQueueCapacity => .integer c.connectionQueueCapacity.toNat
  | .pollBatch => .integer c.pollBatch.toNat
  | .enqueueRetryMs => .integer c.enqueueRetryMs.toNat
  | .tcpNodelay => .boolean c.tcpNodelay
  | .cpuAffinity => .boolean c.cpuAffinity
  | .traceLevel => .integer c.traceLevel.toInt

/-- The configuration with another value of a setting, if it is one that the setting can take. -/
def assign? (c : Config) (setting : Setting) (node : Toml.Node) : Option Config :=
  let word : Option UInt64 := (Setting.natural? 64 node).map UInt64.ofNat
  match setting with
  | .bindAddress => (Setting.text? node).map fun bindAddress => { c with bindAddress }
  | .port => (Setting.natural? 16 node).map fun n => { c with port := UInt16.ofNat n }
  | .threads => word.map fun threads => { c with threads }
  | .slotBits => (Setting.natural? 32 node).map fun n => { c with slotBits := UInt32.ofNat n }
  | .maxShards => word.map fun maxShards => { c with maxShards }
  | .maxConnections => word.map fun maxConnections => { c with maxConnections }
  | .eventQueueCapacity => word.map fun eventQueueCapacity => { c with eventQueueCapacity }
  | .connectionQueueCapacity =>
      word.map fun connectionQueueCapacity => { c with connectionQueueCapacity }
  | .pollBatch => word.map fun pollBatch => { c with pollBatch }
  | .enqueueRetryMs => word.map fun enqueueRetryMs => { c with enqueueRetryMs }
  | .tcpNodelay => (Setting.flag? node).map fun tcpNodelay => { c with tcpNodelay }
  | .cpuAffinity => (Setting.flag? node).map fun cpuAffinity => { c with cpuAffinity }
  | .traceLevel =>
      (Setting.number? Int32.minValue.toInt (Int32.maxValue.toInt + 1) node).map fun n =>
        { c with traceLevel := Int32.ofInt n }

/-- The first limit that a configuration breaks, if it breaks one. Queues need room for one
event beside the cell that stays unused, and a batch of events has to fit the shared queue. -/
def validate (c : Config) : Except ConfigFault Unit :=
  if c.threads = 0 then .error .noThreads
  else if c.slotBits < 1 ∨ 28 < c.slotBits then .error .slotBits
  else if c.maxShards = 0 then .error .noShards
  else if c.maxConnections < 2 then .error .connections
  else if c.eventQueueCapacity < 2 ∨ c.connectionQueueCapacity < 2 then .error .queueCapacity
  else if c.pollBatch = 0 ∨ c.eventQueueCapacity ≤ c.pollBatch then .error .pollBatch
  else .ok ()

end Config

end KeyValueServer
