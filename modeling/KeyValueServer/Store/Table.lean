import KeyValueServer.Store.Entry

/-!
# Tables

A table is an array of slots; the hash of a key says in which slot its entry is. A slot is a
lock and a chain of entries, the newest first. An entry that has been replaced leaves its chain
and is retired: it is freed once no caller refers to it any more.

This module has the layout of a table and the single actions on its locks, chains and entries.
The calls that are made of them are in `KeyValueServer.Store.Access`.
-/

namespace KeyValueServer

/-- How many slots there are. -/
structure Layout where
  slotBits : Nat
  shards : Nat
  maxShards : Nat
deriving DecidableEq

namespace Layout

/-- The number of slots of a shard. -/
def slotCount (l : Layout) : Nat := Nat.pow 2 l.slotBits

/-- The shard and the slot in it where a hash belongs. -/
def position (l : Layout) (hash : UInt64) : Nat × Nat :=
  (hash.toNat / l.slotCount % l.shards, hash.toNat % l.slotCount)

/-- The place of a hash in the array of all slots, shard after shard. -/
def place (l : Layout) (hash : UInt64) : Nat :=
  (l.position hash).1 * l.slotCount + (l.position hash).2

end Layout

/-- A place in a table: a lock and the entries that belong there, the newest first. -/
structure Slot where
  lock : Lock
  chain : List EntryId
deriving DecidableEq

/-- A slot without entries. -/
def Slot.empty : Slot := ⟨.free, []⟩

/-- A hash table. Entries are named by their places in the array of all entries ever made;
`retired` lists the replaced ones that were not freed yet, the oldest first. -/
structure Table where
  layout : Layout
  hash : Bytes → UInt64
  slots : Array Slot
  entries : Array Entry
  retired : List EntryId
  size : Nat
  generation : Nat
  retries : Nat

namespace Table

/-- The number of retired entries from which on storing an entry frees what it can. -/
def reclaimThreshold : Nat := 64

/-- An empty table with one shard and room for more. -/
def new (memory : Allocator) (hash : Bytes → UInt64) (slotBits maxShards : Nat) :
    Except Error Table :=
  if slotBits < 1 ∨ 28 < slotBits then .error (.invalidArgument .slotBitsOutOfRange)
  else if maxShards = 0 then .error (.invalidArgument .noShards)
  else if !memory (.shardArray maxShards) then .error .outOfMemory
  else if !memory (.slots (Nat.pow 2 slotBits)) then .error .outOfMemory
  else .ok
    { layout := ⟨slotBits, 1, maxShards⟩
      hash
      slots := Array.replicate (Nat.pow 2 slotBits) .empty
      entries := #[]
      retired := []
      size := 0
      generation := 0
      retries := 0 }

/-! ## Slots -/

/-- The slot at a place. -/
def slot (t : Table) (place : Nat) : Slot := t.slots[place]?.getD .empty

/-- Change the slot at a place. -/
def modifySlot (t : Table) (place : Nat) (f : Slot → Slot) : Table :=
  { t with slots := t.slots.modify place f }

/-- Take a hold on a slot, if that is possible right now. -/
def enterSlot (t : Table) (thread : ThreadId) (mode : LockMode) (place : Nat) : Option Table :=
  ((t.slot place).lock.acquire? mode thread).map fun lock =>
    t.modifySlot place fun s => { s with lock }

/-- Give up a hold on a slot. A failure changes nothing. -/
def leaveSlot (t : Table) (thread : ThreadId) (mode : LockMode) (place : Nat) : Table :=
  match (t.slot place).lock.release mode thread with
  | .ok lock => t.modifySlot place fun s => { s with lock }
  | .error _ => t

/-! ## Entries -/

/-- The entry with a name. -/
def entryAt (t : Table) (id : EntryId) : Option Entry := t.entries[id]?

/-- Change the entry with a name. -/
def modifyEntry (t : Table) (id : EntryId) (f : Entry → Entry) : Table :=
  { t with entries := t.entries.modify id f }

/-- The length of the longest value that an entry can take. -/
def capacityOf (t : Table) (id : EntryId) : Nat := ((t.entryAt id).map Entry.capacity).getD 0

/-- Take a hold on an entry, if that is possible right now. -/
def enterEntry (t : Table) (thread : ThreadId) (mode : LockMode) (id : EntryId) :
    Option Table := do
  let entry ← t.entryAt id
  let lock ← entry.lock.acquire? mode thread
  pure (t.modifyEntry id fun e => { e with lock })

/-- Give up a hold on an entry. -/
def leaveEntry (t : Table) (thread : ThreadId) (mode : LockMode) (id : EntryId) :
    Except Error Unit × Table :=
  match t.entryAt id with
  | none => (.ok (), t)
  | some entry =>
      match entry.lock.release mode thread with
      | .ok lock => (.ok (), t.modifyEntry id fun e => { e with lock })
      | .error e => (.error e, t)

/-- Note that one more caller refers to an entry. -/
def retain (t : Table) (id : EntryId) : Table :=
  t.modifyEntry id fun e => { e with references := e.references + 1 }

/-- Note that one caller less refers to an entry. -/
def forget (t : Table) (id : EntryId) : Table :=
  t.modifyEntry id fun e => { e with references := e.references - 1 }

/-- Whether a caller refers to an entry. -/
def isReferenced (t : Table) (id : EntryId) : Bool :=
  ((t.entryAt id).map fun e => decide (0 < e.references)).getD false

/-! ## Chains -/

/-- Where the entry of a key belongs. -/
def placeOf (t : Table) (key : Bytes) : Nat := t.layout.place (t.hash key)

/-- The entry of a key in the chain at a place. -/
def find? (t : Table) (place : Nat) (key : Bytes) : Option EntryId :=
  let hash := t.hash key
  (t.slot place).chain.find? fun id => ((t.entryAt id).map fun e => e.isFor hash key).getD false

/-- The entry of a key in the chain at a place, if a value of a given length fits it. -/
def findFitting? (t : Table) (place : Nat) (key : Bytes) (length : Nat) : Option EntryId :=
  (t.find? place key).filter fun id => length ≤ t.capacityOf id

/-- Take an entry out of the chain at a place. -/
def detach (t : Table) (place : Nat) (id : EntryId) : Table :=
  t.modifySlot place fun s => { s with chain := s.chain.erase id }

/-- Count one linked entry less. -/
def countDown (t : Table) : Table := { t with size := t.size - 1 }

/-- Put an entry at the end of the retired ones. -/
def retire (t : Table) (id : EntryId) : Table := { t with retired := t.retired ++ [id] }

/-- Take an entry out of the chain at a place and retire it. -/
def unlink (t : Table) (place : Nat) (id : EntryId) : Table :=
  ((t.detach place id).countDown).retire id

/-- Name a new entry, which its caller holds and refers to. -/
def adopt (t : Table) (thread : ThreadId) (mode : LockMode) (entry : Entry) : Table :=
  let lock := (entry.lock.acquire? mode thread).getD entry.lock
  { t with entries := t.entries.push { entry with lock, references := 1 } }

/-- Put an entry at the front of the chain at a place. -/
def attach (t : Table) (place : Nat) (id : EntryId) : Table :=
  t.modifySlot place fun s => { s with chain := id :: s.chain }

/-- Count one linked entry more. -/
def countUp (t : Table) : Table := { t with size := t.size + 1 }

/-- Put an entry into the chain at a place. -/
def link (t : Table) (place : Nat) (id : EntryId) : Table := (t.attach place id).countUp

/-- Free the retired entries that no caller refers to, and count them. -/
def reclaim (t : Table) : Nat × Table :=
  let kept := t.retired.filter t.isReferenced
  (t.retired.length - kept.length, { t with retired := kept })

end Table

end KeyValueServer
