import KeyValueServer.Sync.Lock

/-!
# Entries

An entry keeps one key and one value. Its storage is as large as the value it was made for; a
later value that fits is written over the old one, and the bytes behind it stay unused. Each
entry has a lock of its own and counts the callers that refer to it.
-/

namespace KeyValueServer

/-- Names an entry for as long as a table lives. -/
abbrev EntryId := Nat

/-- A request for memory, which the allocator can refuse. -/
inductive MemoryRequest where
  | shardArray (shards : Nat)
  | slots (count : Nat)
  | key (size : Nat)
  | value (size : Nat)
deriving DecidableEq

/-- The number of bytes asked for. -/
def MemoryRequest.bytes : MemoryRequest → Nat
  | shardArray shards => 16 * shards
  | slots count => 56 * count
  | key size => size
  | value size => size

/-- Which requests for memory are granted. -/
abbrev Allocator := MemoryRequest → Bool

/-- Memory without end. -/
def unlimited : Allocator := fun _ => true

/-- Memory for requests of up to a number of bytes. -/
def limitedTo (limit : Nat) : Allocator := fun request => request.bytes ≤ limit

/-- One stored key and value. The value is the first `size` bytes of the storage. -/
structure Entry where
  hash : UInt64
  key : Bytes
  storage : Bytes
  size : Nat
  lock : Lock
  references : Nat
deriving DecidableEq

namespace Entry

/-- An entry that nobody holds or refers to. -/
def new (hash : UInt64) (key value : Bytes) : Entry := ⟨hash, key, value, value.length, .free, 0⟩

/-- An entry for a key and a value, if there is memory for both. -/
def allocate (memory : Allocator) (hash : UInt64) (key value : Bytes) : Except Error Entry :=
  if !memory (.key key.length) then .error .outOfMemory
  else if !memory (.value value.length) then .error .outOfMemory
  else .ok (new hash key value)

/-- The length of the longest value that the entry can take. -/
def capacity (e : Entry) : Nat := e.storage.length

/-- The value. -/
def value (e : Entry) : Bytes := e.storage.take e.size

/-- Whether this is the entry of a key. -/
def isFor (e : Entry) (hash : UInt64) (key : Bytes) : Bool := e.hash == hash && e.key == key

/-- Write one byte of the storage. -/
def writeByte (e : Entry) (place : Nat) (byte : UInt8) : Entry :=
  { e with storage := e.storage.set place byte }

/-- Say how much of the storage is the value. -/
def resize (e : Entry) (size : Nat) : Entry := { e with size }

/-- Replace the value by one that fits. -/
def overwrite (e : Entry) (value : Bytes) : Entry :=
  { e with storage := value ++ e.storage.drop value.length, size := value.length }

end Entry

end KeyValueServer
