import KeyValueServer.Store.Access
import KeyValueServer.Text.Quoted
import KeyValueServer.Text.Utf8

/-!
# Describing a table

The lines that a table writes to the trace about itself: one about the whole and one for each
entry that is linked in it. They are written only where tracing is on. The entries of a slot are
read under a shared hold on it.
-/

namespace KeyValueServer

/-- The key and the capacity of an entry, for a trace line. -/
def Entry.describe (e : Entry) : String :=
  "key: " ++ Text.quoted (Utf8.decodeLossy e.key) ++ ", capacity: " ++ toString e.capacity

namespace Table

/-- The line about the whole table. -/
def describe (t : Table) : String :=
  "hash dump: shards = " ++ toString t.layout.shards
    ++ " : slots = " ++ toString t.layout.slotCount
    ++ " : len = " ++ toString t.size
    ++ " : retired = " ++ toString t.retired.length
    ++ " : retries = " ++ toString t.retries

/-- The entries that are linked at a place. -/
def linkedAt (t : Table) (place : Nat) : List Entry := (t.slot place).chain.filterMap t.entryAt

/-- The linked entries, slot after slot. -/
def linked (t : Table) : List Entry :=
  t.slots.toList.flatMap fun s => s.chain.filterMap t.entryAt

/-- Read the entries at these places, one place after the other, under a hold on each slot. -/
def visit (t : Table) (thread : ThreadId) : List Nat → Option (List Entry × Table)
  | [] => some ([], t)
  | place :: places => do
      let entered ← t.enterSlot thread .shared place
      let (rest, t) ← (entered.leaveSlot thread .shared place).visit thread places
      pure (entered.linkedAt place ++ rest, t)

/-- Write the lines about a table to the trace, if tracing is on. -/
def dump (t : Table) (thread : ThreadId) (tracing : Bool) : Option (List String × Table) :=
  if tracing then do
    let (entries, after) ← t.visit thread (List.range t.slots.size)
    pure (t.describe :: entries.map Entry.describe, after)
  else some ([], t)

/-- Grow the layout. Moving entries is not supported: the layout stays as it is. -/
def grow (t : Table) : Except Error Unit × Table := (.ok (), t)

/-- Grow the layout, and write the lines about the table to the trace. -/
def resize (t : Table) (thread : ThreadId) (tracing : Bool) :
    Option (Except Error Unit × Table) :=
  let (result, t) := t.grow
  (t.dump thread tracing).map fun (_, t) => (result, t)

end Table

end KeyValueServer
