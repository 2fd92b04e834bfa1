import KeyValueServer.Proofs.Store.Returns

/-!
# Stores for which there is no memory

A store fails only if it needs a new entry and one of the two copies that make an entry is refused.
It then holds no lock and has changed no other key. A key without an entry still has none. The
entry of a key that had one is out of its chain and retired by then, so that the key is lost.
-/

namespace KeyValueServer

theorem Entry.refused_of_allocate {memory : Allocator} {hash : UInt64} {key value : Bytes}
    {e : Error} (h : allocate memory hash key value = .error e) :
    memory (.key key.length) = false ∨ memory (.value value.length) = false := by
  simp only [allocate] at h
  split at h
  next hkey => exact .inl (by simpa using hkey)
  · split at h
    next hvalue => exact .inr (by simpa using hvalue)
    · contradiction

/-- Holds that a word shows are few enough to be counted. -/
theorem LockWord.Shows.holds_lt {w : LockWord} {holds : List Hold} (h : w.Shows holds) :
    sharedHolds holds < fieldSize := by
  cases h with
  | free => decide
  | exclusive => exact sharedHolds_singleton_lt _
  | @shared waiters field _ _ hshared hfield =>
      rw [sharedHolds_eq hshared, ← hfield]
      exact field.isLt

namespace Table

theorem Shows.holds_lt {t : Table} {slots : Nat → List Hold} {holds : EntryId → List Hold}
    (h : t.Shows slots holds) (id : EntryId) : sharedHolds (holds id) < fieldSize := by
  cases hid : t.entryAt id with
  | some e => exact (h.entry id e hid).holds_lt
  | none =>
      rw [h.made id (Array.getElem?_eq_none_iff.mp hid)]
      decide

variable {t t' : Table} {thread : ThreadId} {memory : Allocator} {key value : Bytes}
  {mode : LockMode} {place : Nat} {e : Error} {holds : EntryId → List Hold}

/-- A table with other marks in the locks of its slots. -/
structure SameButLocks (t t' : Table) : Prop where
  contents : t'.contents = t.contents
  entries : t'.entries = t.entries
  retired : t'.retired = t.retired

theorem SameButLocks.trans {t₁ t₂ t₃ : Table} (h : t₁.SameButLocks t₂) (h' : t₂.SameButLocks t₃) :
    t₁.SameButLocks t₃ :=
  ⟨h'.contents.trans h.contents, h'.entries.trans h.entries, h'.retired.trans h.retired⟩

theorem sameButLocks_enterSlot (h : t.enterSlot thread mode place = some t') :
    t.SameButLocks t' where
  contents := contents_enterSlot h
  entries := by
    obtain ⟨lock, -, rfl⟩ := Option.map_eq_some_iff.mp h
    rfl
  retired := retired_enterSlot h

theorem sameButLocks_leaveSlot (t : Table) (thread : ThreadId) (mode : LockMode) (place : Nat) :
    t.SameButLocks (t.leaveSlot thread mode place) where
  contents := contents_leaveSlot ..
  entries := by
    unfold leaveSlot
    split <;> rfl
  retired := retired_leaveSlot ..

/-- What a store that fails has done: for a key that has an entry it has taken the entry out of its
chain and retired it. -/
theorem sameButLocks_insert_of_error
    (h : t.insert memory thread place key value mode = (.error e, t')) :
    t.SameButLocks t' ∧ e = .outOfMemory ∧
      (memory (.key key.length) = false ∨ memory (.value value.length) = false) := by
  unfold insert at h
  split at h
  next hallocate =>
    obtain ⟨he, rfl⟩ := Prod.mk.inj h
    obtain rfl := Except.error.inj he
    exact ⟨sameButLocks_leaveSlot .., (Entry.eq_outOfMemory_of_allocate hallocate).1,
      Entry.refused_of_allocate hallocate⟩
  next => cases (Prod.mk.inj h).1

theorem set_error_cases (h : t.set memory thread key value mode = some (.error e, t')) :
    e = .outOfMemory ∧
      (memory (.key key.length) = false ∨ memory (.value value.length) = false) ∧
      ∃ again, t.SameButLocks again ∧
        (t.entryOf key = none ∧ again.SameButLocks t' ∨
          ∃ id, t.entryOf key = some id ∧ t.capacityOf id < value.length ∧
            (again.unlink (t.placeOf key) id).SameButLocks t') := by
  obtain ⟨entered, henter, ⟨id, written, -, -, hover, -⟩ | ⟨again, hagain, hreplace⟩⟩ := set_cases h
  · simpa using (contents_overwrite hover).1
  · have hsame : t.SameButLocks again :=
      ((sameButLocks_enterSlot henter).trans (sameButLocks_leaveSlot ..)).trans
        (sameButLocks_enterSlot hagain)
    have hfound : again.find? (t.placeOf key) key = t.entryOf key := find?_eq hsame.contents ..
    rcases replace_cases hreplace with ⟨hnone, hinsert⟩ | ⟨id, hsome, ⟨-, written, hover, -⟩ |
      ⟨hlarge, hinsert⟩⟩
    · obtain ⟨hlast, he, hrefused⟩ := sameButLocks_insert_of_error hinsert
      exact ⟨he, hrefused, again, hsame, .inl ⟨hfound ▸ hnone, hlast⟩⟩
    · simpa using (contents_overwrite hover).1
    · obtain ⟨hlast, he, hrefused⟩ := sameButLocks_insert_of_error hinsert
      rw [capacityOf_eq hsame.contents] at hlarge
      exact ⟨he, hrefused, again, hsame, .inr ⟨id, hfound ▸ hsome, not_le.mp hlarge, hlast⟩⟩

/-! ## What is left of the key -/

section Unlink

variable {id : EntryId}

theorem Sound.entryOf_unlink (hs : t.Sound) (h : t.entryOf key = some id) (other : Bytes) :
    (t.unlink (t.placeOf key) id).entryOf other = if other = key then none else t.entryOf other :=
  hs.entryOf_detach h other

theorem Sound.lookup_unlink (hs : t.Sound) (h : t.entryOf key = some id) (other : Bytes) :
    (t.unlink (t.placeOf key) id).lookup other = if other = key then none else t.lookup other := by
  rw [lookup_eq_bind, lookup_eq_bind, hs.entryOf_unlink h]
  split <;> rfl

end Unlink

theorem SameButLocks.unlink {again : Table} (h : t.SameButLocks again) (place : Nat)
    (id : EntryId) : (t.unlink place id).SameButLocks (again.unlink place id) where
  contents := by rw [contents_unlink, contents_unlink, h.contents]
  entries := h.entries
  retired := congrArg (· ++ [id]) h.retired

/-- A store that fails, fails for want of memory. It leaves no lock held that was not held before,
and has changed no entry and no other key. If its key had no entry the table is as it was. But an
entry of the key that was too small is gone: the key has no value any more and is no longer
counted, and its entry waits to be freed. -/
theorem set_of_refused_memory (hs : t.Sound) (hrest : t.AtRest holds)
    (h : t.set memory thread key value mode = some (.error e, t')) :
    e = .outOfMemory ∧
      (memory (.key key.length) = false ∨ memory (.value value.length) = false) ∧
      t'.Sound ∧ t'.AtRest holds ∧ t'.entries = t.entries ∧
      (∀ other ≠ key, t'.lookup other = t.lookup other) ∧
      match t.entryOf key with
      | none => t'.lookup key = t.lookup key ∧ t'.size = t.size ∧ t'.retired = t.retired
      | some id => t.capacityOf id < value.length ∧ t'.lookup key = none ∧
          t'.size = t.size - 1 ∧ t'.retired = t.retired ++ [id] := by
  obtain ⟨he, hrefused, again, hsame, hcases⟩ := set_error_cases h
  refine ⟨he, hrefused, hs.returns (.set h), hrest.returns hs (.set h) hrest.holds_lt, ?_⟩
  rcases hcases with ⟨hnone, hlast⟩ | ⟨id, hentry, hlarge, hlast⟩
  · have hall := hsame.trans hlast
    rw [hnone]
    exact ⟨hall.entries, fun other _ => lookup_eq hall.contents other,
      lookup_eq hall.contents key, size_eq hall.contents, hall.retired⟩
  · have hall := (hsame.unlink (t.placeOf key) id).trans hlast
    have hlookup : ∀ other, t'.lookup other = if other = key then none else t.lookup other :=
      fun other => (lookup_eq hall.contents other).trans (hs.lookup_unlink hentry other)
    rw [hentry]
    exact ⟨hall.entries, fun other hother => by rw [hlookup, if_neg hother], hlarge,
      by rw [hlookup, if_pos rfl], size_eq hall.contents, hall.retired⟩

/-- A new table in which a value of one byte was stored, and the handle on it. -/
def stocked : Option (Except Error Handle × Table) :=
  (new unlimited (fun _ => 0) 1 1).toOption.bind fun table =>
    table.set unlimited 1 [1] [7] .shared

theorem exists_stocked : ∃ t, stocked = some (.ok ⟨0, .shared⟩, t) ∧ t.Sound ∧
    t.AtRest (granted (fun _ => []) 1 (.ok ⟨0, .shared⟩)) := by
  obtain ⟨table, hnew⟩ := new_unlimited (fun _ => 0) 1 1 (by decide) (by decide) (by decide)
  have hfirst : stocked.map Prod.fst = some (.ok ⟨0, .shared⟩) := by decide +kernel
  obtain ⟨⟨r, t⟩, hstocked, hr⟩ := Option.map_eq_some_iff.mp hfirst
  obtain rfl : r = .ok ⟨0, .shared⟩ := hr
  have hset : table.set unlimited 1 [1] [7] .shared = some (.ok ⟨0, .shared⟩, t) := by
    rw [stocked, hnew] at hstocked
    exact hstocked
  refine ⟨t, hstocked, (sound_of_new hnew).returns (.set hset), ?_⟩
  refine (atRest_of_new hnew).returns (sound_of_new hnew) (.set hset) fun id => ?_
  rw [granted, Function.update_apply]
  split
  · exact sharedHolds_singleton_lt _
  · decide

/-- While there is a handle on the old value, its key is copied and the new value is not. -/
theorem set_of_refused_memory_of_handle :
    ∃ t t', stocked = some (.ok ⟨0, .shared⟩, t) ∧
      t.set (limitedTo 1) 2 [1] [7, 8] .exclusive = some (.error .outOfMemory, t') ∧
      t'.AtRest (granted (fun _ => []) 1 (.ok ⟨0, .shared⟩)) ∧ t'.entries = t.entries ∧
      t'.lookup [2] = t.lookup [2] ∧ t'.retired = t.retired ++ [0] := by
  obtain ⟨t, hstocked, hs, hrest⟩ := exists_stocked
  have hfails : (stocked.bind fun stored =>
      (stored.2.set (limitedTo 1) 2 [1] [7, 8] .exclusive).map fun failed =>
        (failed.1, stored.2.entryOf [1])) = some (.error .outOfMemory, some 0) := by
    decide +kernel
  rw [hstocked, Option.bind_some] at hfails
  obtain ⟨⟨r, t'⟩, hset, hfailed⟩ := Option.map_eq_some_iff.mp hfails
  obtain ⟨hr, hentry⟩ := Prod.mk.inj hfailed
  obtain rfl : r = .error .outOfMemory := hr
  obtain ⟨-, -, -, hafter, hentries, hothers, hkey⟩ := set_of_refused_memory hs hrest hset
  rw [hentry] at hkey
  exact ⟨t, t', hstocked, hset, hafter, hentries, hothers [2] (by decide), hkey.2.2.2⟩

/-- Without any handle, a key with a value is set to a longer one for which there is no memory:
then it has no value, the table counts no key, and there is an entry to be freed. -/
theorem value_lost_of_refused_memory :
    ∃ stored t t', stocked = some (.ok ⟨0, .shared⟩, stored) ∧
      stored.release 1 ⟨0, .shared⟩ = (.ok (), t) ∧
      t.set (limitedTo 1) 1 [1] [7, 8] .exclusive = some (.error .outOfMemory, t') ∧
      (t.lookup [1] = some [7] ∧ t'.lookup [1] = none) ∧ (t.size = 1 ∧ t'.size = 0) ∧
      t.retired = [] ∧ t'.retired = [0] := by
  obtain ⟨stored, hstocked, -⟩ := exists_stocked
  have hrun : (stocked.bind fun stored =>
      ((stored.2.release 1 ⟨0, .shared⟩).2.set (limitedTo 1) 1 [1] [7, 8] .exclusive).map
        fun failed => (failed.1, failed.2.lookup [1], failed.2.size, failed.2.retired)) =
      some (.error .outOfMemory, none, 0, [0]) := by
    decide +kernel
  have hbefore : (stocked.map fun stored => (stored.2.release 1 ⟨0, .shared⟩).1) =
      some (.ok ()) := by
    decide +kernel
  have hstored : (stocked.map fun stored =>
      ((stored.2.release 1 ⟨0, .shared⟩).2.lookup [1],
        (stored.2.release 1 ⟨0, .shared⟩).2.size, (stored.2.release 1 ⟨0, .shared⟩).2.retired)) =
      some (some [7], 1, []) := by
    decide +kernel
  rw [hstocked, Option.bind_some] at hrun
  rw [hstocked, Option.map_some, Option.some.injEq] at hbefore hstored
  obtain ⟨⟨r, t'⟩, hset, hfailed⟩ := Option.map_eq_some_iff.mp hrun
  simp only [Prod.mk.injEq] at hfailed hstored
  obtain ⟨rfl, hlookup', hsize', hretired'⟩ := hfailed
  obtain ⟨hlookup, hsize, hretired⟩ := hstored
  exact ⟨stored, _, t', hstocked, Prod.ext hbefore rfl, hset, ⟨hlookup, hlookup'⟩,
    ⟨hsize, hsize'⟩, hretired, hretired'⟩

end Table

end KeyValueServer
