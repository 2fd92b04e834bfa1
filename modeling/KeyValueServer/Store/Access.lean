import KeyValueServer.Store.Table

/-!
# Storing and finding values

The calls of a table, each carried out whole by one thread. A call gives back a handle on an
entry: the caller holds the entry's lock through it, and the entry is not freed while it
lasts. A call has no result where its thread would have to wait for a lock; between calls of a
single thread nobody else could release it.
-/

namespace KeyValueServer

/-- A hold on an entry, and the mode of the hold. -/
structure Handle where
  id : EntryId
  mode : LockMode
deriving DecidableEq

namespace Table

/-- The key that a handle shows. -/
def keyOf (t : Table) (h : Handle) : Bytes := ((t.entryAt h.id).map Entry.key).getD []

/-- The value that a handle shows. -/
def valueOf (t : Table) (h : Handle) : Bytes := ((t.entryAt h.id).map Entry.value).getD []

/-- Release the hold of a handle. The entry is no longer referred to even if that fails. -/
def release (t : Table) (thread : ThreadId) (h : Handle) : Except Error Unit × Table :=
  let (result, t) := t.leaveEntry thread h.mode h.id
  (result, t.forget h.id)

/-- Find the value of a key. -/
def get (t : Table) (thread : ThreadId) (key : Bytes) (mode : LockMode) :
    Option (Except Error Handle × Table) := do
  let place := t.placeOf key
  let t ← t.enterSlot thread .shared place
  match t.find? place key with
  | none => pure (.error .notFound, t.leaveSlot thread .shared place)
  | some id =>
      let t ← (t.retain id).enterEntry thread mode id
      pure (.ok ⟨id, mode⟩, t.leaveSlot thread .shared place)

/-- Write a value into an entry that it fits. The caller is left with a hold in the mode asked
for; on the way to a shared one it has none for a moment. -/
def overwrite (t : Table) (thread : ThreadId) (id : EntryId) (value : Bytes) (mode : LockMode) :
    Option (Except Error Handle × Table) := do
  let t ← (t.retain id).enterEntry thread .exclusive id
  let t := t.modifyEntry id fun e => e.overwrite value
  match mode with
  | .exclusive => pure (.ok ⟨id, .exclusive⟩, t)
  | .shared =>
      match t.leaveEntry thread .exclusive id with
      | (.error e, t) => pure (.error e, t.forget id)
      | (.ok (), t) =>
          let t ← t.enterEntry thread .shared id
          pure (.ok ⟨id, .shared⟩, t)

/-- Put a new entry for a key into its slot, which the caller holds exclusively. -/
def insert (t : Table) (memory : Allocator) (thread : ThreadId) (place : Nat)
    (key value : Bytes) (mode : LockMode) : Except Error Handle × Table :=
  match Entry.allocate memory (t.hash key) key value with
  | .error e => (.error e, t.leaveSlot thread .exclusive place)
  | .ok entry =>
      let id := t.entries.size
      let t := ((t.adopt thread mode entry).link place id).leaveSlot thread .exclusive place
      let t := if reclaimThreshold ≤ t.retired.length then t.reclaim.2 else t
      (.ok ⟨id, mode⟩, t)

/-- Store a value in a slot that the caller holds exclusively: over the entry of its key where
it fits, or else in a new entry, which replaces the old one. -/
def replace (t : Table) (memory : Allocator) (thread : ThreadId) (place : Nat)
    (key value : Bytes) (mode : LockMode) : Option (Except Error Handle × Table) :=
  match t.find? place key with
  | none => some (t.insert memory thread place key value mode)
  | some id =>
      if value.length ≤ t.capacityOf id then do
        let (result, t) ← t.overwrite thread id value mode
        pure (result, t.leaveSlot thread .exclusive place)
      else some ((t.unlink place id).insert memory thread place key value mode)

/-- Store a value for a key. Where it fits the key's entry a shared hold on the slot is
enough. -/
def set (t : Table) (memory : Allocator) (thread : ThreadId) (key value : Bytes)
    (mode : LockMode) : Option (Except Error Handle × Table) := do
  let place := t.placeOf key
  let t ← t.enterSlot thread .shared place
  match t.findFitting? place key value.length with
  | some id =>
      let (result, t) ← t.overwrite thread id value mode
      pure (result, t.leaveSlot thread .shared place)
  | none =>
      let t ← (t.leaveSlot thread .shared place).enterSlot thread .exclusive place
      t.replace memory thread place key value mode

end Table

end KeyValueServer
