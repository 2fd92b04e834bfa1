import KeyValueServer.Proofs.Store.Session

/-!
# Record lengths

The entry of a key has room for the longest value that was ever stored for the key, and for no
more: a value that fits is written over the last one, and a longer one gets an entry of its own
size. A set whose value is longer than all earlier ones of its key is therefore exactly the one
that replaces an entry.
-/

namespace KeyValueServer

/-! ## Lengths of the values that were stored -/

/-- The value that a move stores for a key. -/
def TableMove.valueFor? (key : Bytes) : TableMove → Option Bytes
  | .set _ stored value _ => if stored = key then some value else none
  | _ => none

/-- All values that moves have stored for a key. -/
def valuesFor (moves : List TableMove) (key : Bytes) : List Bytes :=
  moves.filterMap (TableMove.valueFor? key)

/-- The length of the longest value that moves have stored for a key. -/
def longest (moves : List TableMove) (key : Bytes) : Option Nat :=
  ((valuesFor moves key).map List.length).max?

/-- Whether a move stores a value that is longer than each value that earlier moves have stored for
its key. The first value of a key does not count. -/
def TableMove.isRecord (earlier : List TableMove) : TableMove → Bool
  | .set _ key value _ =>
      !(valuesFor earlier key).isEmpty &&
        (valuesFor earlier key).all fun old => old.length < value.length
  | _ => false

/-- How many of the moves that follow others are records. -/
def recordsAfter (earlier : List TableMove) : List TableMove → Nat
  | [] => 0
  | m :: rest => (m.isRecord earlier).toNat + recordsAfter (earlier ++ [m]) rest

/-- How many of these moves are records. -/
def records (moves : List TableMove) : Nat := recordsAfter [] moves

variable {moves earlier : List TableMove} {thread : ThreadId} {key other value : Bytes}
  {mode : LockMode}

theorem recordsAfter_append (earlier moves rest : List TableMove) :
    recordsAfter earlier (moves ++ rest) =
      recordsAfter earlier moves + recordsAfter (earlier ++ moves) rest := by
  induction moves generalizing earlier with
  | nil => simp [recordsAfter]
  | cons m moves ih => simp [recordsAfter, ih, Nat.add_assoc]

theorem records_concat (moves : List TableMove) (m : TableMove) :
    records (moves ++ [m]) = records moves + (m.isRecord moves).toNat := by
  simp [records, recordsAfter_append, recordsAfter]

theorem longest_eq_none_iff : longest moves key = none ↔ valuesFor moves key = [] := by
  rw [longest, List.max?_eq_none_iff, List.map_eq_nil_iff]

theorem longest_eq_some_iff {length : Nat} :
    longest moves key = some length ↔
      (∃ value ∈ valuesFor moves key, value.length = length) ∧
        ∀ value ∈ valuesFor moves key, value.length ≤ length := by
  rw [longest, List.max?_eq_some_iff]
  simp

/-- A set is a record if its value is longer than the longest one so far. -/
theorem isRecord_set_iff :
    (TableMove.set thread key value mode).isRecord moves = true ↔
      ∃ length, longest moves key = some length ∧ length < value.length := by
  simp only [TableMove.isRecord, Bool.and_eq_true, Bool.not_eq_true', List.isEmpty_eq_false_iff,
    List.all_eq_true, decide_eq_true_eq]
  cases hlongest : longest moves key with
  | none => simp [longest_eq_none_iff.mp hlongest]
  | some length =>
      obtain ⟨⟨old, hold, rfl⟩, hle⟩ := longest_eq_some_iff.mp hlongest
      simp only [Option.some.injEq, exists_eq_left']
      exact ⟨fun h => h.2 old hold, fun h =>
        ⟨List.ne_nil_of_mem hold, fun v hv => (hle v hv).trans_lt h⟩⟩

theorem valuesFor_concat (moves : List TableMove) (m : TableMove) (key : Bytes) :
    valuesFor (moves ++ [m]) key = valuesFor moves key ++ (m.valueFor? key).toList := by
  rw [valuesFor, List.filterMap_append, ← valuesFor, List.filterMap_cons]
  cases m.valueFor? key <;> rfl

theorem longest_concat_of_none {m : TableMove} (h : m.valueFor? key = none) :
    longest (moves ++ [m]) key = longest moves key := by
  rw [longest, valuesFor_concat, h, Option.toList_none, List.append_nil, longest]

theorem longest_concat_set (moves : List TableMove) (thread : ThreadId) (key value : Bytes)
    (mode : LockMode) (other : Bytes) :
    longest (moves ++ [.set thread key value mode]) other =
      if other = key then some (max ((longest moves key).getD 0) value.length)
      else longest moves other := by
  by_cases hother : other = key
  · subst hother
    rw [if_pos rfl, longest_eq_some_iff, valuesFor_concat]
    have hvalue : (TableMove.set thread other value mode).valueFor? other = some value := if_pos rfl
    rw [hvalue, Option.toList_some]
    cases hlongest : longest moves other with
    | none => simp [longest_eq_none_iff.mp hlongest]
    | some length =>
        obtain ⟨⟨old, hold, rfl⟩, hle⟩ := longest_eq_some_iff.mp hlongest
        simp only [Option.getD_some, List.mem_append, List.mem_singleton]
        refine ⟨?_, ?_⟩
        · rcases le_total old.length value.length with hlonger | hfits
          · exact ⟨value, .inr rfl, (max_eq_right hlonger).symm⟩
          · exact ⟨old, .inl hold, (max_eq_left hfits).symm⟩
        · rintro v (hv | rfl)
          · exact (hle v hv).trans (le_max_left _ _)
          · exact le_max_right _ _
  · rw [if_neg hother]
    exact longest_concat_of_none (if_neg (Ne.symm hother))

/-! ## Room in the entry of a key -/

namespace Table

variable {t t' : Table} {id : EntryId}

/-- The length of the longest value that the entry of a key can take. -/
def roomFor (t : Table) (key : Bytes) : Option Nat := (t.entryOf key).map t.capacityOf

theorem roomFor_eq (h : t'.contents = t.contents) (key : Bytes) :
    t'.roomFor key = t.roomFor key := by
  rw [roomFor, roomFor, entryOf_eq h]
  exact congrArg (Option.map · _) (funext fun id => capacityOf_eq h id)

theorem capacityOf_overwritten (hfits : value.length ≤ t.capacityOf id) :
    (t.overwritten id value).capacityOf id = t.capacityOf id := by
  cases he : t.entryAt id with
  | none => simp [capacityOf, entryAt_overwritten, he]
  | some e =>
      have hle : value.length ≤ e.storage.length := by
        simpa [capacityOf, he, Entry.capacity] using hfits
      simp [capacityOf, entryAt_overwritten, he, Entry.capacity, Entry.overwrite, hle]

theorem capacityOf_withNew (t : Table) (key value : Bytes) :
    (t.withNew key value).capacityOf t.entries.size = value.length := by
  rw [capacityOf, entryAt_withNew, if_pos rfl]
  rfl

/-- The entry that has a stored value has room for it and for all that fitted before. -/
theorem capacityOf_stored (t : Table) (key value : Bytes) :
    (t.stored key value).2.capacityOf (t.stored key value).1 =
      max ((t.roomFor key).getD 0) value.length := by
  cases hentry : t.entryOf key with
  | none =>
      have hfind : t.find? (t.placeOf key) key = none := hentry
      simp only [stored, hfind, roomFor, hentry, Option.map_none, Option.getD_none, Nat.zero_max]
      exact t.capacityOf_withNew key value
  | some id =>
      have hfind : t.find? (t.placeOf key) key = some id := hentry
      simp only [stored, hfind, roomFor, hentry, Option.map_some, Option.getD_some]
      by_cases hfits : value.length ≤ t.capacityOf id
      · rw [if_pos hfits, max_eq_left hfits]
        exact capacityOf_overwritten hfits
      · rw [if_neg hfits, max_eq_right (not_le.mp hfits).le]
        exact ((t.detach (t.placeOf key) id).countDown).capacityOf_withNew key value

theorem Sound.roomFor_of_stored (hs : t.Sound) (h : t'.contents = (t.contents.stored key value).2)
    (other : Bytes) :
    t'.roomFor other =
      if other = key then some (max ((t.roomFor key).getD 0) value.length)
      else t.roomFor other := by
  have hcontents := contents_eq_of_stored h
  have hentry := hs.entryOf_of_stored h other
  by_cases hother : other = key
  · have hcapacity := t.contents.capacityOf_stored key value
    rw [stored_fst_eq (contents_contents t), roomFor_eq (contents_contents t)] at hcapacity
    rw [if_pos hother] at hentry
    rw [if_pos hother, roomFor, hentry, Option.map_some, capacityOf_eq hcontents, hcapacity]
  · rw [if_neg hother] at hentry
    rw [if_neg hother, roomFor, roomFor, hentry]
    refine Option.map_congr fun id hid => ?_
    exact (valueOf_capacityOf_of_recordOf hentry (hs.recordOf_of_stored h hother) hid .shared).2

end Table

namespace Session

variable {s s' : Session} {m : TableMove}

/-- The entry of each key keeps having room for exactly the longest value stored for it. -/
theorem roomFor_perform (h : s.perform m = some s') (hs : s.table.Sound)
    (hroom : s.table.roomFor = longest earlier) :
    s'.table.roomFor = longest (earlier ++ [m]) := by
  have hcontents := contents_perform h
  funext key
  cases m with
  | set thread stored value mode =>
      rw [hs.roomFor_of_stored hcontents, longest_concat_set, hroom]
  | _ => rw [Table.roomFor_eq hcontents, hroom, longest_concat_of_none rfl]

end Session

end KeyValueServer
