import KeyValueServer.Store.Access

/-!
# Threads sharing a table

The atomic steps of the calls that threads make on one table. Taking and releasing a lock,
looking through a chain, copying one byte, and changing a counter are steps, and the steps of
other threads may come between any two of them. A thread that needs a lock which it cannot have
right now has no step until the lock is free for it.

The calls themselves are those of `KeyValueServer.Store.Access`, cut into their steps.
-/

namespace KeyValueServer

/-- A value to be stored, and the mode in which its caller wants to hold the entry. -/
structure Deposit where
  key : Bytes
  value : Bytes
  mode : LockMode
deriving DecidableEq

/-- How far a value has been written over an older one. The entry is held exclusively while
bytes are copied; a caller that wants a shared hold takes it after giving up that one. -/
inductive Overwriting where
  | locking
  | copying (place : Nat)
  | sizing
  | loosening
  | relocking
deriving DecidableEq

/-- What a call gives back. -/
inductive TableResult where
  | handle (result : Except Error Handle)
  | value (bytes : Bytes)
  | released (result : Except Error Unit)
  | freed (count : Nat)

/-- How far a thread has come with its call on a table. -/
inductive TableCall where
  | finished (result : TableResult)
  -- finding an entry
  | seeking (key : Bytes) (mode : LockMode)
  | searching (key : Bytes) (mode : LockMode)
  | taking (place : Nat) (id : EntryId) (mode : LockMode)
  -- storing a value, with a shared hold on the slot
  | approaching (deposit : Deposit)
  | probing (deposit : Deposit)
  | withdrawing (deposit : Deposit)
  -- storing a value, with an exclusive hold on the slot
  | claiming (deposit : Deposit)
  | inspecting (deposit : Deposit)
  | discounting (id : EntryId) (deposit : Deposit)
  | retiring (id : EntryId) (deposit : Deposit)
  | making (deposit : Deposit)
  | linking (id : EntryId) (deposit : Deposit)
  | counting (id : EntryId) (deposit : Deposit)
  | publishing (id : EntryId) (deposit : Deposit)
  -- writing over an entry, with either hold on the slot
  | overwriting (slotMode : LockMode) (id : EntryId) (deposit : Deposit) (progress : Overwriting)
  -- giving up the hold on the slot
  | parting (place : Nat) (slotMode : LockMode) (result : Except Error Handle)
  -- freeing retired entries, for a caller who waits for a handle or for the count
  | weighing (handle : Handle)
  | reclaiming (rounds freed : Nat) (waiting : Option Handle)
  | judging (id : EntryId) (rounds freed : Nat) (waiting : Option Handle)
  -- using a handle
  | measuring (handle : Handle)
  | reading (handle : Handle) (size : Nat) (copied : Bytes)
  | releasing (handle : Handle)
  | forgetting (handle : Handle) (result : Except Error Unit)

namespace TableCall

/-- The call that finds the value of a key. -/
def get (key : Bytes) (mode : LockMode) : TableCall := seeking key mode

/-- The call that stores a value. -/
def set (key value : Bytes) (mode : LockMode) : TableCall := approaching ⟨key, value, mode⟩

/-- The call that frees the retired entries of a table. -/
def reclaim (t : Table) : TableCall := reclaiming t.retired.length 0 none

/-- The call that copies the value that a handle shows. -/
def read (handle : Handle) : TableCall := measuring handle

/-- The call that releases a handle. -/
def release (handle : Handle) : TableCall := releasing handle

end TableCall

/-- A table and the calls of all threads on it. -/
structure Traffic where
  table : Table
  calls : ThreadId → TableCall

namespace Traffic

/-- A table on which no thread has made a call yet. -/
def quiet (table : Table) : Traffic := ⟨table, fun _ => .finished (.freed 0)⟩

/-- Begin a call. -/
def start (s : Traffic) (thread : ThreadId) (call : TableCall) : Traffic :=
  { s with calls := fun t => if t = thread then call else s.calls t }

/-- A step that changes the table and takes its thread on in its call. -/
def advance (s : Traffic) (thread : ThreadId) (table : Table) (call : TableCall) : Traffic :=
  { s with table }.start thread call

@[simp] theorem calls_start_self (s : Traffic) (thread : ThreadId) (call : TableCall) :
    (s.start thread call).calls thread = call := if_pos rfl

@[simp] theorem calls_advance_self (s : Traffic) (thread : ThreadId) (t : Table)
    (call : TableCall) : (s.advance thread t call).calls thread = call := if_pos rfl

theorem calls_advance_of_ne (s : Traffic) {thread other : ThreadId} (t : Table) (call : TableCall)
    (h : other ≠ thread) : (s.advance thread t call).calls other = s.calls other := if_neg h

/-- The next step of writing a value over an entry. -/
def overwriteStep (s : Traffic) (thread : ThreadId) (slotMode : LockMode) (id : EntryId)
    (d : Deposit) : Overwriting → Option Traffic
  | .locking =>
      (s.table.enterEntry thread .exclusive id).map fun t =>
        s.advance thread t (.overwriting slotMode id d (.copying 0))
  | .copying place =>
      match d.value[place]? with
      | none => some (s.start thread (.overwriting slotMode id d .sizing))
      | some byte =>
          some (s.advance thread (s.table.modifyEntry id fun e => e.writeByte place byte)
            (.overwriting slotMode id d (.copying (place + 1))))
  | .sizing =>
      let t := s.table.modifyEntry id fun e => e.resize d.value.length
      match d.mode with
      | .exclusive =>
          some (s.advance thread t (.parting (t.placeOf d.key) slotMode (.ok ⟨id, .exclusive⟩)))
      | .shared => some (s.advance thread t (.overwriting slotMode id d .loosening))
  | .loosening =>
      match s.table.leaveEntry thread .exclusive id with
      | (.error e, t) =>
          some (s.advance thread (t.forget id) (.parting (t.placeOf d.key) slotMode (.error e)))
      | (.ok (), t) => some (s.advance thread t (.overwriting slotMode id d .relocking))
  | .relocking =>
      (s.table.enterEntry thread .shared id).map fun t =>
        s.advance thread t (.parting (t.placeOf d.key) slotMode (.ok ⟨id, .shared⟩))

/-- The next atomic step of a thread, unless it has to wait or has no call under way. -/
def step (memory : Allocator) (s : Traffic) (thread : ThreadId) : Option Traffic :=
  let t := s.table
  match s.calls thread with
  | .finished _ => none
  | .seeking key mode =>
      (t.enterSlot thread .shared (t.placeOf key)).map fun t =>
        s.advance thread t (.searching key mode)
  | .searching key mode =>
      let place := t.placeOf key
      match t.find? place key with
      | none => some (s.start thread (.parting place .shared (.error .notFound)))
      | some id => some (s.advance thread (t.retain id) (.taking place id mode))
  | .taking place id mode =>
      (t.enterEntry thread mode id).map fun t =>
        s.advance thread t (.parting place .shared (.ok ⟨id, mode⟩))
  | .approaching d =>
      (t.enterSlot thread .shared (t.placeOf d.key)).map fun t =>
        s.advance thread t (.probing d)
  | .probing d =>
      match t.findFitting? (t.placeOf d.key) d.key d.value.length with
      | none => some (s.start thread (.withdrawing d))
      | some id =>
          some (s.advance thread (t.retain id) (.overwriting .shared id d .locking))
  | .withdrawing d =>
      some (s.advance thread (t.leaveSlot thread .shared (t.placeOf d.key)) (.claiming d))
  | .claiming d =>
      (t.enterSlot thread .exclusive (t.placeOf d.key)).map fun t =>
        s.advance thread t (.inspecting d)
  | .inspecting d =>
      let place := t.placeOf d.key
      match t.find? place d.key with
      | none => some (s.start thread (.making d))
      | some id =>
          if d.value.length ≤ t.capacityOf id then
            some (s.advance thread (t.retain id) (.overwriting .exclusive id d .locking))
          else some (s.advance thread (t.detach place id) (.discounting id d))
  | .discounting id d => some (s.advance thread t.countDown (.retiring id d))
  | .retiring id d => some (s.advance thread (t.retire id) (.making d))
  | .making d =>
      match Entry.allocate memory (t.hash d.key) d.key d.value with
      | .error e => some (s.start thread (.parting (t.placeOf d.key) .exclusive (.error e)))
      | .ok entry =>
          some (s.advance thread (t.adopt thread d.mode entry) (.linking t.entries.size d))
  | .linking id d =>
      some (s.advance thread (t.attach (t.placeOf d.key) id) (.counting id d))
  | .counting id d => some (s.advance thread t.countUp (.publishing id d))
  | .publishing id d =>
      some (s.advance thread (t.leaveSlot thread .exclusive (t.placeOf d.key))
        (.weighing ⟨id, d.mode⟩))
  | .overwriting slotMode id d progress => s.overwriteStep thread slotMode id d progress
  | .parting place slotMode result =>
      some (s.advance thread (t.leaveSlot thread slotMode place) (.finished (.handle result)))
  | .weighing handle =>
      if Table.reclaimThreshold ≤ t.retired.length then
        some (s.start thread (.reclaiming t.retired.length 0 (some handle)))
      else some (s.start thread (.finished (.handle (.ok handle))))
  | .reclaiming rounds freed waiting =>
      match rounds, t.retired with
      | rounds + 1, id :: retired =>
          some (s.advance thread { t with retired } (.judging id rounds freed waiting))
      | _, _ =>
          some (s.start thread (.finished
            (match waiting with
              | some handle => .handle (.ok handle)
              | none => .freed freed)))
  | .judging id rounds freed waiting =>
      if t.isReferenced id then
        some (s.advance thread (t.retire id) (.reclaiming rounds freed waiting))
      else some (s.start thread (.reclaiming rounds (freed + 1) waiting))
  | .measuring handle =>
      let size := ((t.entryAt handle.id).map Entry.size).getD 0
      some (s.start thread (.reading handle size []))
  | .reading handle size copied =>
      let next := if copied.length < size
        then (t.entryAt handle.id).bind fun e => e.storage[copied.length]? else none
      match next with
      | none => some (s.start thread (.finished (.value copied)))
      | some byte => some (s.start thread (.reading handle size (copied ++ [byte])))
  | .releasing handle =>
      let (result, t) := t.leaveEntry thread handle.mode handle.id
      some (s.advance thread t (.forgetting handle result))
  | .forgetting handle result =>
      some (s.advance thread (t.forget handle.id) (.finished (.released result)))

end Traffic

end KeyValueServer
