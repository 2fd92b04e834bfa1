import KeyValueServer.Proofs.Store.Chains

/-!
# Storing a value

After a value was stored its key leads to the entry that has the value, and every other key leads to
the same entry as before, whose value and capacity are the same. The size of the table goes up by
one if the key is new. All of this holds of the table that a call leaves, whatever locks are held.
-/

namespace KeyValueServer

namespace Table

variable {t : Table} {key other value : Bytes} {id : EntryId}

/-! ## The stored value -/

/-- A value is stored over the entry of its key, or in a new entry for a key that has none or has
just lost its entry. -/
theorem Sound.stored_cases (hs : t.Sound) (key value : Bytes) :
    (∃ id, t.entryOf key = some id ∧
      t.stored key value = (id, t.overwritten id value) ∧
      value.length ≤ t.capacityOf id) ∨
    ∃ cleared : Table, cleared.Sound ∧ cleared.entries = t.entries ∧
      cleared.size = (if (t.entryOf key).isSome then t.size - 1 else t.size) ∧
      (∀ other, cleared.entryOf other = if other = key then none else t.entryOf other) ∧
      t.stored key value = (t.entries.size, cleared.withNew key value) := by
  cases hentry : t.entryOf key with
  | none =>
      have hfind : t.find? (t.placeOf key) key = none := hentry
      refine .inr ⟨t, hs, rfl, rfl, fun other => ?_, by simp only [stored, hfind]⟩
      by_cases hother : other = key
      · rw [if_pos hother, hother, hentry]
      · rw [if_neg hother]
  | some id =>
      have hfind : t.find? (t.placeOf key) key = some id := hentry
      by_cases hfits : value.length ≤ t.capacityOf id
      · exact .inl ⟨id, rfl, by simp only [stored, hfind, if_pos hfits], hfits⟩
      -- The old entry goes first, and then the key is as if it had never been stored.
      · refine .inr ⟨(t.detach (t.placeOf key) id).countDown, ?_, rfl, rfl,
          hs.entryOf_detach hentry, by simp only [stored, hfind, if_neg hfits]; rfl⟩
        have hdetached := hs.detach (t.placeOf key) id
        exact { hdetached with }

theorem Sound.stored (hs : t.Sound) (key value : Bytes) : (t.stored key value).2.Sound := by
  rcases hs.stored_cases key value with ⟨id, -, hstored, -⟩ | ⟨cleared, hc, -, -, hkeys, hstored⟩
  · rw [hstored]
    exact hs.overwritten id value
  · rw [hstored]
    exact hc.withNew (by rw [hkeys, if_pos rfl]) value

/-- After a value was stored its key leads to the entry that has it, and the other keys lead where
they led before. -/
theorem Sound.entryOf_stored (hs : t.Sound) (key value other : Bytes) :
    (t.stored key value).2.entryOf other =
      if other = key then some (t.stored key value).1 else t.entryOf other := by
  rcases hs.stored_cases key value with
    ⟨id, hentry, hstored, -⟩ | ⟨cleared, hc, hentries, -, hkeys, hstored⟩
  · rw [hstored, hs.entryOf_overwritten]
    split
    next hother => rw [hother, hentry]
    next => rfl
  · rw [hstored, hc.entryOf_withNew (by rw [hkeys, if_pos rfl]), hentries, hkeys]
    split <;> rfl

theorem Sound.entryAt_stored (hs : t.Sound) (key value : Bytes) :
    ∃ e, (t.stored key value).2.entryAt (t.stored key value).1 = some e ∧ e.key = key ∧
      e.value = value := by
  rcases hs.stored_cases key value with
    ⟨id, hentry, hstored, -⟩ | ⟨cleared, -, hentries, -, -, hstored⟩
  · obtain ⟨e, he, hkey⟩ := hs.mem_of_entryOf hentry
    rw [hstored, entryAt_overwritten, if_pos rfl, he]
    exact ⟨_, rfl, hkey, Entry.value_overwrite e value⟩
  · rw [hstored, entryAt_withNew, hentries, if_pos rfl]
    exact ⟨_, rfl, rfl, List.take_length⟩

/-- Storing a value leaves the entries of all other keys as they are. -/
theorem Sound.entryAt_stored_of_ne (hs : t.Sound) (hne : other ≠ key) (value : Bytes)
    (h : t.entryOf other = some id) :
    (t.stored key value).2.entryAt id = t.entryAt id := by
  rcases hs.stored_cases key value with
    ⟨id', hentry, hstored, -⟩ | ⟨cleared, -, hentries, -, -, hstored⟩
  · have hid : id' ≠ id := by
      rintro rfl
      have hkey := (hs.entryOf_eq_some_iff.mp hentry).2
      have hother := (hs.entryOf_eq_some_iff.mp h).2
      exact hne (Option.some.inj (hother.symm.trans hkey))
    rw [hstored, entryAt_overwritten, if_neg hid]
  · have hlt := hs.lt_of_mem (hs.entryOf_eq_some_iff.mp h).1
    rw [hstored, entryAt_withNew, hentries, if_neg hlt.ne, entryAt, entryAt, hentries]

theorem Sound.recordOf_stored_of_ne (hs : t.Sound) (hne : other ≠ key) (value : Bytes) :
    (t.stored key value).2.recordOf other = t.recordOf other := by
  rw [recordOf, recordOf, hs.entryOf_stored, if_neg hne]
  refine Option.bind_congr fun id hentry => ?_
  rw [hs.entryAt_stored_of_ne hne value hentry]

/-- A value that was stored is what is found for its key. -/
theorem Sound.lookup_stored (hs : t.Sound) (key value other : Bytes) :
    (t.stored key value).2.lookup other = if other = key then some value else t.lookup other := by
  by_cases hother : other = key
  · subst hother
    obtain ⟨e, he, -, hvalue⟩ := hs.entryAt_stored other value
    rw [if_pos rfl, lookup, recordOf, hs.entryOf_stored, if_pos rfl, Option.bind_some, he]
    simp [hvalue]
  · rw [if_neg hother, lookup, lookup, hs.recordOf_stored_of_ne hother]

theorem Tallies.stored {keys : Finset Bytes} (ht : t.Tallies keys) (hs : t.Sound)
    (key value : Bytes) : (t.stored key value).2.Tallies (Insert.insert key keys) where
  isSome_iff other := by
    rw [hs.entryOf_stored, Finset.mem_insert, ← ht.isSome_iff]
    by_cases hother : other = key
    · simp [hother]
    · simp [hother]
  size := by
    have hmem := ht.isSome_iff key
    rcases hs.stored_cases key value with
      ⟨id, hentry, hstored, -⟩ | ⟨cleared, -, -, hsize, -, hstored⟩
    · rw [hstored, Finset.insert_eq_of_mem (hmem.mp (by simp [hentry])), ← ht.size]
      rfl
    · have hlinked : (t.stored key value).2.size = cleared.size + 1 := by rw [hstored]; rfl
      rw [hlinked, hsize]
      by_cases hkey : key ∈ keys
      -- A key that has lost its entry was counted, so counting down loses nothing.
      · have hpos : 0 < t.size := ht.size ▸ Finset.card_pos.mpr ⟨key, hkey⟩
        rw [if_pos (hmem.mpr hkey), Finset.insert_eq_of_mem hkey, ← ht.size]
        omega
      · rw [if_neg (mt hmem.mp hkey), Finset.card_insert_of_notMem hkey, ht.size]

theorem hash_stored (t : Table) (key value : Bytes) : (t.stored key value).2.hash = t.hash := by
  unfold Table.stored
  split
  · rfl
  · split <;> rfl

theorem layout_stored (t : Table) (key value : Bytes) :
    (t.stored key value).2.layout = t.layout := by
  unfold Table.stored
  split
  · rfl
  · split <;> rfl

/-! ## After a call that has stored a value -/

section AfterStoring

variable {t' : Table}

theorem contents_eq_of_stored (h : t'.contents = (t.contents.stored key value).2) :
    t'.contents = (t.contents.stored key value).2.contents := by
  rw [← h, contents_contents]

theorem hash_of_stored (h : t'.contents = (t.contents.stored key value).2) : t'.hash = t.hash := by
  rw [hash_eq (contents_eq_of_stored h), hash_stored, hash_eq (contents_contents t)]

theorem layout_of_stored (h : t'.contents = (t.contents.stored key value).2) :
    t'.layout = t.layout := by
  rw [layout_eq (contents_eq_of_stored h), layout_stored, layout_eq (contents_contents t)]

theorem Sound.contents (hs : t.Sound) : t.contents.Sound := hs.of_contents_eq (contents_contents t)

theorem Sound.of_stored (hs : t.Sound) (h : t'.contents = (t.contents.stored key value).2) :
    t'.Sound :=
  (hs.contents.stored key value).of_contents_eq (contents_eq_of_stored h)

theorem Sound.entryOf_of_stored (hs : t.Sound)
    (h : t'.contents = (t.contents.stored key value).2) (other : Bytes) :
    t'.entryOf other = if other = key then some (t.stored key value).1 else t.entryOf other := by
  rw [entryOf_eq (contents_eq_of_stored h), hs.contents.entryOf_stored,
    stored_fst_eq (contents_contents t), entryOf_eq (contents_contents t)]

theorem Sound.recordOf_of_stored (hs : t.Sound)
    (h : t'.contents = (t.contents.stored key value).2) (hne : other ≠ key) :
    t'.recordOf other = t.recordOf other := by
  rw [recordOf_eq (contents_eq_of_stored h), hs.contents.recordOf_stored_of_ne hne,
    recordOf_eq (contents_contents t)]

theorem Sound.lookup_of_stored (hs : t.Sound)
    (h : t'.contents = (t.contents.stored key value).2) :
    t'.lookup = Function.update t.lookup key (some value) := by
  funext other
  rw [lookup_eq (contents_eq_of_stored h), hs.contents.lookup_stored,
    lookup_eq (contents_contents t), Function.update_apply]

theorem Tallies.of_stored {keys : Finset Bytes} (ht : t.Tallies keys) (hs : t.Sound)
    (h : t'.contents = (t.contents.stored key value).2) :
    t'.Tallies (Insert.insert key keys) :=
  ((ht.of_contents_eq (contents_contents t)).stored hs.contents key value).of_contents_eq
    (contents_eq_of_stored h)

end AfterStoring

end Table

end KeyValueServer
