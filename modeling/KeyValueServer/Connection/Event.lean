/-!
# Readiness events

What the poller of the operating system reports about a connection. An event names its
connection by a token: the place of the connection in the pool and, above it, the generation
of that place, so that an event outlives its connection without being taken for one of the
next connection in the same place.
-/

namespace KeyValueServer

/-- Names a connection for as long as it lives. -/
abbrev ConnectionToken := UInt64

namespace ConnectionToken

/-- The token for a place and its generation: the generation is in the upper 32 bits, and the
place is merged into the lower ones. -/
def encode (index : Nat) (generation : UInt32) : ConnectionToken :=
  (generation.toUInt64 <<< 32) ||| UInt64.ofNat index

/-- The place that a token names. -/
def index (token : ConnectionToken) : Nat := token.toNat % UInt32.size

/-- The generation that a token names. -/
def generation (token : ConnectionToken) : UInt32 := (token >>> 32).toUInt32

end ConnectionToken

/-- A report that a connection is ready. -/
structure Event where
  token : ConnectionToken
  readable : Bool
  writable : Bool
  error : Bool
  readClosed : Bool
  writeClosed : Bool
deriving DecidableEq

namespace Event

/-- An event that reports nothing. -/
def blank (token : ConnectionToken) : Event := ⟨token, false, false, false, false, false⟩

/-- Whether the peer is gone or the connection has failed. -/
def isHangup (event : Event) : Bool := event.error || event.readClosed

end Event

end KeyValueServer
