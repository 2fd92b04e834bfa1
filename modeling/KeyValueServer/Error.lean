import KeyValueServer.Text.Numeral

/-!
# Errors

Every way in which an operation can fail, by cause. The wording, the status code that goes
over the wire, and the question whether a connection survives are functions of the cause.
-/

namespace KeyValueServer

/-- Why a read or a write on a connection failed. -/
inductive IoFault where
  | interrupted
  | wouldBlock
  | connectionReset
  | brokenPipe
  | timedOut
  | notConnected
  | unreachable
  | other
  | os (number : Int)
deriving DecidableEq

namespace IoFault

/-- The call was cut short by a signal and can be repeated at once. -/
def isInterrupted (fault : IoFault) : Bool := fault == .interrupted || fault == .os 4

/-- The call has to be repeated later. -/
def isWouldBlock (fault : IoFault) : Bool := fault == .wouldBlock || fault == .os 11

/-- The number the operating system gave, as an unsigned 64-bit word. -/
def number? : IoFault → Option Nat
  | os number => some (number % UInt64.size).toNat
  | _ => none

def message : IoFault → String
  | interrupted => "operation interrupted"
  | wouldBlock => "operation would block"
  | connectionReset => "connection reset"
  | brokenPipe => "broken pipe"
  | timedOut => "timed out"
  | notConnected => "not connected"
  | unreachable => "network unreachable"
  | other => "other error"
  | os number => "os error " ++ toString number

end IoFault

/-- Why an argument, or bytes read as one, were refused. -/
inductive ArgumentFault where
  | bufferFull
  | noRoomForToken
  | noRoomForString
  | integerTooWide
  | truncatedInteger
  | badPrefix
  | missingSuffix
  | emptyInteger
  | nonDigit
  | integerOverflow
  | lengthOverflow
  | truncatedString
  | slotBitsOutOfRange
  | noShards
  | batchNotBelowQueue
  | described (text : String)
deriving DecidableEq

def ArgumentFault.message : ArgumentFault → String
  | bufferFull => "buffer full"
  | noRoomForToken => "no room for token"
  | noRoomForString => "no room for string"
  | integerTooWide => "integer too wide"
  | truncatedInteger => "truncated integer token"
  | badPrefix => "bad token prefix"
  | missingSuffix => "missing token suffix"
  | emptyInteger => "empty integer token"
  | nonDigit => "non-digit in integer token"
  | integerOverflow => "integer token overflow"
  | lengthOverflow => "string length overflow"
  | truncatedString => "truncated string token"
  | slotBitsOutOfRange => "slot_bits out of range"
  | noShards => "max_shards must be > 0"
  | batchNotBelowQueue => "poll batch must be smaller than the event queue"
  | described text => text

/-- Which object was not in the state that a call needs. Lock words are shown whole. -/
inductive StateFault where
  | sharedRelease (word : Nat)
  | exclusiveRelease (word thread : Nat)
  | waiterDropped
  | wrongConnectionState (index : Nat) (state : String)
  | noStream (index : Nat)
  | listenerClosed
  | described (text : String)
deriving DecidableEq

def StateFault.message : StateFault → String
  | sharedRelease word => "shared release of lock in state 0x" ++ Numeral.hex word
  | exclusiveRelease word thread =>
      "exclusive release of lock in state 0x" ++ Numeral.hex word ++ " by thread "
        ++ toString thread
  | waiterDropped => "waiter dropped"
  | wrongConnectionState index state =>
      "connection " ++ toString index ++ " processed in state " ++ state
  | noStream index => "connection " ++ toString index ++ " has no stream"
  | listenerClosed => "listener closed"
  | described text => text

/-- Which limit a configuration breaks. -/
inductive ConfigFault where
  | noThreads
  | slotBits
  | noShards
  | connections
  | queueCapacity
  | pollBatch
  | described (text : String)
deriving DecidableEq

def ConfigFault.message : ConfigFault → String
  | noThreads => "threads must be > 0"
  | slotBits => "slot_bits must be within 1..=28"
  | noShards => "max_shards must be > 0"
  | connections => "max_connections must be >= 2"
  | queueCapacity => "event queue capacities must be >= 2"
  | pollBatch => "poll_batch must be within 1..event_queue_capacity"
  | described text => text

/-- Everything that can go wrong. -/
inductive Error where
  | io (fault : IoFault)
  | invalidArgument (fault : ArgumentFault)
  | notFound
  | busy
  | invalidState (fault : StateFault)
  | outOfMemory
  | unknownCommand (code : Nat)
  | status (code : Nat)
  | connectionClosed
  | config (fault : ConfigFault)
deriving DecidableEq

namespace Error

def message : Error → String
  | io fault => "IO error: " ++ fault.message
  | invalidArgument fault => "Invalid argument: " ++ fault.message
  | notFound => "Key not found"
  | busy => "Resource busy"
  | invalidState fault => "Invalid state: " ++ fault.message
  | outOfMemory => "Out of memory"
  | unknownCommand code => "Unknown command: " ++ toString code
  | status code => "Server returned status " ++ toString code
  | connectionClosed => "Connection closed"
  | config fault => "Configuration error: " ++ fault.message

/-- The status code of an error on the wire. Zero is kept for success. -/
def code : Error → Nat
  | io fault => fault.number?.getD 5
  | invalidArgument _ => 22
  | notFound => 22
  | busy => 16
  | invalidState _ => 9
  | outOfMemory => 12
  | unknownCommand _ => 22
  | status code => code
  | connectionClosed => 104
  | config _ => 5

/-- Whether the error leaves its connection unusable. -/
def isFatal : Error → Bool
  | io _ => true
  | connectionClosed => true
  | _ => false

end Error

end KeyValueServer
