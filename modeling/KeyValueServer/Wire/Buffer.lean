import KeyValueServer.Error

/-!
# Message buffers

A buffer is a fixed run of storage in three parts: the bytes already consumed, the bytes
written and not yet consumed, and the spare room behind them. Writing moves bytes from the
spare part to the readable one, reading moves them on to the consumed one, and clearing makes
all of the storage spare again without erasing it.
-/

namespace KeyValueServer

/-- The usual size of a message buffer, and the largest request. -/
def maxMessage : Nat := 4096

/-- A run of bytes of a buffer, by its place in the storage. -/
structure Span where
  start : Nat
  length : Nat
deriving DecidableEq

/-- The place just past a span. -/
def Span.stop (span : Span) : Nat := span.start + span.length

/-- Storage in three parts, in this order. -/
structure Buffer where
  consumed : Bytes
  readable : Bytes
  spare : Bytes
deriving DecidableEq

namespace Buffer

/-- An empty buffer of a given size, filled with zeros. -/
def ofCapacity (capacity : Nat) : Buffer := ⟨[], [], List.replicate capacity 0⟩

/-- A buffer with these bytes to read and at least the usual size. -/
def ofBytes (bytes : Bytes) : Buffer :=
  ⟨[], bytes, List.replicate (maxMessage - bytes.length) 0⟩

/-- All bytes of the buffer, whatever they are in use for. -/
def storage (b : Buffer) : Bytes := b.consumed ++ b.readable ++ b.spare

/-- The size of the storage. -/
def capacity (b : Buffer) : Nat := b.consumed.length + b.readable.length + b.spare.length

/-- Where the next byte is read. -/
def position (b : Buffer) : Nat := b.consumed.length

/-- How many bytes can be read. -/
def size (b : Buffer) : Nat := b.readable.length

/-- How many bytes can be written. -/
def free (b : Buffer) : Nat := b.spare.length

/-- Whether there is nothing to read. -/
def isEmpty (b : Buffer) : Bool := b.readable.isEmpty

/-- Make all of the storage spare again. The old bytes stay in it. -/
def clear (b : Buffer) : Buffer := ⟨[], [], b.storage⟩

/-- Write bytes for which there is room. -/
def append (b : Buffer) (bytes : Bytes) : Buffer :=
  ⟨b.consumed, b.readable ++ bytes, b.spare.drop bytes.length⟩

/-- Write all of the bytes or, where they do not fit, none. -/
def put (b : Buffer) (bytes : Bytes) : Except Error Buffer :=
  if b.free < bytes.length then .error (.invalidArgument .bufferFull)
  else .ok (b.append bytes)

/-- Write as many of the bytes as fit. -/
def fill (b : Buffer) (bytes : Bytes) : Buffer := b.append (bytes.take b.free)

/-- The byte some places after the read position, if it was written. -/
def peek (b : Buffer) (offset : Nat) : Option UInt8 := b.readable[offset]?

/-- Consume bytes, as many as there are at most. -/
def advance (b : Buffer) (count : Nat) : Buffer :=
  ⟨b.consumed ++ b.readable.take count, b.readable.drop count, b.spare⟩

/-- Consume everything. -/
def discard (b : Buffer) : Buffer := ⟨b.consumed ++ b.readable, [], b.spare⟩

/-- The bytes of a span. -/
def bytesAt (b : Buffer) (span : Span) : Bytes :=
  (b.storage.drop span.start).take span.length

/-- The bytes of a span that lies within the storage. -/
def slice? (b : Buffer) (span : Span) : Option Bytes :=
  if span.stop ≤ b.capacity then some (b.bytesAt span) else none

/-- The line that describes a buffer in traces. -/
def describe (b : Buffer) : String :=
  "Buffer \x7b capacity: " ++ toString b.capacity ++ ", sp: " ++ toString b.position
    ++ ", ep: " ++ toString (b.position + b.size) ++ " \x7d"

end Buffer

end KeyValueServer
