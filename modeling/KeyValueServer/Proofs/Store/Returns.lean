import KeyValueServer.Proofs.Store.Storing
import KeyValueServer.Proofs.Store.Unmarked

/-!
# Calls that return

A lookup or a set that returns, with a handle or with an error, leaves a sound table. It holds what
its handle says and nothing else, it marks no lock, and no entry is lost. A set for which there is
no memory may have taken the old entry of its key out of its chain, and changes nothing besides.
-/

namespace KeyValueServer

namespace Table

/-- What a lookup or a set on a table can return, with any memory, and the table that it leaves. -/
inductive Returns (t : Table) (thread : ThreadId) : Except Error Handle → Table → Prop
  | get {key : Bytes} {mode : LockMode} {r : Except Error Handle} {t' : Table}
      (h : t.get thread key mode = some (r, t')) : Returns t thread r t'
  | set {memory : Allocator} {key value : Bytes} {mode : LockMode} {r : Except Error Handle}
      {t' : Table} (h : t.set memory thread key value mode = some (r, t')) : Returns t thread r t'

variable {t t' : Table} {thread : ThreadId} {memory : Allocator} {key value : Bytes}
  {mode : LockMode} {place : Nat} {r : Except Error Handle} {e : Error}

/-! ## Sets that fail -/

theorem contents_insert_of_error
    (h : t.insert memory thread place key value mode = (.error e, t')) :
    t'.contents = t.contents := by
  rcases insert_cases h with ⟨-, rfl, -⟩ | ⟨hok, -⟩
  · exact contents_leaveSlot ..
  · contradiction

theorem contents_replace_of_error
    (h : t.replace memory thread place key value mode = some (.error e, t')) :
    t'.contents = t.contents ∨ ∃ id, t'.contents = (t.contents.detach place id).countDown := by
  rcases replace_cases h with ⟨-, hinsert⟩ | ⟨id, -, ⟨-, written, hover, -⟩ | ⟨-, hinsert⟩⟩
  · exact .inl (contents_insert_of_error hinsert)
  · simpa using (contents_overwrite hover).1
  · exact .inr ⟨id, by rw [contents_insert_of_error hinsert, contents_unlink]⟩

theorem contents_set_of_error (h : t.set memory thread key value mode = some (.error e, t')) :
    t'.contents = t.contents ∨
      ∃ place id, t'.contents = (t.contents.detach place id).countDown := by
  obtain ⟨entered, henter, ⟨id, written, -, -, hover, -⟩ | ⟨again, hagain, hreplace⟩⟩ := set_cases h
  · simpa using (contents_overwrite hover).1
  · have hcontents : again.contents = t.contents := by
      rw [contents_enterSlot hagain, contents_leaveSlot, contents_enterSlot henter]
    rcases contents_replace_of_error hreplace with hsame | ⟨id, hdetached⟩
    · exact .inl (hsame.trans hcontents)
    · exact .inr ⟨_, id, by rw [hdetached, hcontents]⟩

/-! ## All calls -/

/-- After a call the contents are those from before, or those with a value stored, or those with an
entry taken out of its chain. -/
theorem Returns.contents_cases (h : t.Returns thread r t') :
    t'.contents = t.contents ∨
      (∃ key value, t'.contents = (t.contents.stored key value).2) ∨
        ∃ place id, t'.contents = (t.contents.detach place id).countDown := by
  cases h with
  | get hget => exact .inl (contents_get hget).1
  | @set memory key value mode r t' hset =>
      cases r with
      | ok handle =>
          rcases contents_set hset with ⟨-, hstored⟩ | ⟨herror, -⟩
          · exact .inr (.inl ⟨key, value, hstored⟩)
          · contradiction
      | error e =>
          rcases contents_set_of_error hset with hsame | hdetached
          · exact .inl hsame
          · exact .inr (.inr hdetached)

theorem Sound.returns (hs : t.Sound) (h : t.Returns thread r t') : t'.Sound := by
  rcases h.contents_cases with hsame | ⟨key, value, hstored⟩ | ⟨place, id, hdetached⟩
  · exact hs.of_contents_eq hsame
  · exact hs.of_stored hstored
  · have hsound := hs.contents.detach place id
    have hcounted : (t.contents.detach place id).countDown.Sound := { hsound with }
    refine hcounted.of_contents_eq ?_
    rw [← hdetached, contents_contents]

theorem size_entries_stored_le (t : Table) (key value : Bytes) :
    t.entries.size ≤ (t.stored key value).2.entries.size := by
  unfold stored
  split
  · simp [enlist, link, attach, modifySlot, countUp]
  · split
    · simp [overwritten, modifyEntry]
    · simp [enlist, link, attach, detach, modifySlot, countUp, countDown]

/-- Entries are made and never lost. -/
theorem Returns.size_entries_le (h : t.Returns thread r t') :
    t.entries.size ≤ t'.entries.size := by
  have hsize : ∀ t : Table, t.entries.size = t.contents.entries.size := fun t => by simp [contents]
  rw [hsize t, hsize t']
  rcases h.contents_cases with hsame | ⟨key, value, hstored⟩ | ⟨place, id, hdetached⟩
  · rw [hsame]
  · rw [hstored]
    exact t.contents.size_entries_stored_le key value
  · rw [hdetached]
    rfl

theorem Unmarked.returns (hu : t.Unmarked) (h : t.Returns thread r t') : t'.Unmarked := by
  cases h with
  | get hget => exact hu.get hget
  | set hset => exact hu.set hset

theorem Shows.returns {holds : EntryId → List Hold} (hrest : t.AtRest holds) (hs : t.Sound)
    (h : t.Returns thread r t')
    (hroom : ∀ id, sharedHolds (granted holds thread r id) < fieldSize) :
    t'.AtRest (granted holds thread r) := by
  cases h with
  | get hget => exact hrest.get hs hget hroom
  | set hset => exact hrest.set hs hset hroom

end Table

end KeyValueServer
