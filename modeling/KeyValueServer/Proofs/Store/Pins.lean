import KeyValueServer.Proofs.Store.Holds

/-!
# References to entries

Each entry counts the callers that refer to it. A call refers to an entry from the moment it has
found or made it, before it has the lock, and the handle that it returns goes on with this
reference until it is released. A retired entry that is referred to is pinned: it is not freed.
-/

namespace KeyValueServer

open Function (update)

/-- The references to entries after a call that returned this. -/
def referred (refs : EntryId → Nat) : Except Error Handle → EntryId → Nat
  | .ok handle => update refs handle.id (refs handle.id + 1)
  | .error _ => refs

theorem length_granted (holds : EntryId → List Hold) (thread : ThreadId)
    (r : Except Error Handle) :
    (fun id => (granted holds thread r id).length) = referred (fun id => (holds id).length) r := by
  funext id
  cases r with
  | error => rfl
  | ok handle =>
      by_cases hid : id = handle.id
      · simp [granted, referred, hid]
      · simp [granted, referred, Function.update_of_ne hid]

namespace Table

/-- Each entry counts this many references. -/
structure Pins (t : Table) (refs : EntryId → Nat) : Prop where
  entry : ∀ id e, t.entryAt id = some e → e.references = refs id
  made : ∀ id, t.entries.size ≤ id → refs id = 0

namespace Pins

variable {t t' : Table} {refs : EntryId → Nat} {thread : ThreadId} {mode : LockMode} {place : Nat}
  {id : EntryId} {memory : Allocator} {key value : Bytes} {r : Except Error Handle}

/-- A retired entry is kept by `Table.reclaim` exactly if there is a reference to it. -/
theorem isReferenced_iff (h : t.Pins refs) (id : EntryId) :
    t.isReferenced id = true ↔ refs id ≠ 0 := by
  cases he : t.entryAt id with
  | none =>
      have hsize : t.entries.size ≤ id := Array.getElem?_eq_none_iff.mp he
      simp [isReferenced, he, h.made id hsize]
  | some e =>
      simp [isReferenced, he, h.entry id e he, Nat.pos_iff_ne_zero]

/-! ## Changes beside the references -/

theorem of_entries_eq (h : t.Pins refs) (hentries : t'.entries = t.entries) : t'.Pins refs where
  entry id e he := h.entry id e (by rwa [entryAt, hentries] at he)
  made id hid := h.made id (by rwa [hentries] at hid)

theorem modifyEntry (h : t.Pins refs) (id : EntryId) {f : Entry → Entry}
    (hf : ∀ e, (f e).references = e.references) : (t.modifyEntry id f).Pins refs where
  entry other e he := by
    rw [entryAt_modifyEntry] at he
    split at he
    · obtain ⟨e', he', rfl⟩ := Option.map_eq_some_iff.mp he
      rw [hf]
      exact h.entry other e' he'
    · exact h.entry other e he
  made other hother := h.made other (by simpa [Table.modifyEntry] using hother)

theorem enterSlot (h : t.Pins refs) (henter : t.enterSlot thread mode place = some t') :
    t'.Pins refs := by
  obtain ⟨lock, -, rfl⟩ := Option.map_eq_some_iff.mp henter
  exact h.of_entries_eq rfl

theorem leaveSlot (h : t.Pins refs) (thread : ThreadId) (mode : LockMode) (place : Nat) :
    (t.leaveSlot thread mode place).Pins refs := by
  unfold Table.leaveSlot
  split
  · exact h.of_entries_eq rfl
  · exact h

theorem enterEntry (h : t.Pins refs) (henter : t.enterEntry thread mode id = some t') :
    t'.Pins refs := by
  simp only [Table.enterEntry, Option.bind_eq_bind, Option.bind_eq_some_iff, Option.pure_def,
    Option.some.injEq] at henter
  obtain ⟨entry, -, lock, -, rfl⟩ := henter
  exact h.modifyEntry id fun _ => rfl

theorem leaveEntry (h : t.Pins refs) (thread : ThreadId) (mode : LockMode) (id : EntryId) :
    (t.leaveEntry thread mode id).2.Pins refs := by
  unfold Table.leaveEntry
  split
  · exact h
  · split
    · exact h.modifyEntry id fun _ => rfl
    · exact h

theorem overwritten (h : t.Pins refs) (id : EntryId) (value : Bytes) :
    (t.overwritten id value).Pins refs :=
  h.modifyEntry id fun _ => rfl

/-! ## Changes of references -/

theorem recount (h : t.Pins refs) {f : Entry → Entry} (count : Nat → Nat)
    (hf : ∀ e, (f e).references = count e.references) (hid : t.entries.size ≤ id → count 0 = 0) :
    (t.modifyEntry id f).Pins (update refs id (count (refs id))) where
  entry other e he := by
    rw [entryAt_modifyEntry] at he
    by_cases hother : id = other
    · subst hother
      rw [if_pos rfl] at he
      obtain ⟨e', he', rfl⟩ := Option.map_eq_some_iff.mp he
      rw [Function.update_self, hf, h.entry id e' he']
    · rw [if_neg hother] at he
      rw [Function.update_of_ne (Ne.symm hother)]
      exact h.entry other e he
  made other hother := by
    have hsize : t.entries.size ≤ other := by simpa [Table.modifyEntry] using hother
    by_cases hsame : other = id
    · subst hsame
      rw [Function.update_self, h.made other hsize, hid hsize]
    · rw [Function.update_of_ne hsame]
      exact h.made other hsize

theorem retain (h : t.Pins refs) (hid : id < t.entries.size) :
    (t.retain id).Pins (update refs id (refs id + 1)) :=
  h.recount (· + 1) (fun _ => rfl) fun hsize => absurd hid (not_lt.mpr hsize)

theorem forget (h : t.Pins refs) (id : EntryId) :
    (t.forget id).Pins (update refs id (refs id - 1)) :=
  h.recount (· - 1) (fun _ => rfl) fun _ => rfl

/-- Whoever makes an entry has the first reference to it. -/
theorem adopt (h : t.Pins refs) (thread : ThreadId) (mode : LockMode) (e : Entry) :
    (t.adopt thread mode e).Pins (update refs t.entries.size (refs t.entries.size + 1)) where
  entry id e' he := by
    simp only [Table.adopt, entryAt, Array.getElem?_push] at he
    by_cases hid : id = t.entries.size
    · rw [if_pos hid] at he
      obtain rfl := Option.some.inj he
      rw [hid, Function.update_self, h.made _ le_rfl]
    · rw [if_neg hid] at he
      rw [Function.update_of_ne hid]
      exact h.entry id e' he
  made id hid := by
    have hsize : t.entries.size + 1 ≤ id := by simpa [Table.adopt] using hid
    rw [Function.update_of_ne (Nat.lt_of_succ_le hsize).ne']
    exact h.made id (Nat.le_of_succ_le hsize)

/-! ## Calls -/

/-- The handle that a lookup returns refers to its entry. -/
theorem get (h : t.Pins refs) (hs : t.Sound) (hget : t.get thread key mode = some (r, t')) :
    t'.Pins (referred refs r) := by
  obtain ⟨entered, henter, ⟨-, rfl, rfl⟩ | ⟨id, held, hfind, rfl, hentry, rfl⟩⟩ := get_cases hget
  · exact (h.enterSlot henter).leaveSlot thread .shared _
  · have hcontents := contents_enterSlot henter
    rw [find?_eq hcontents] at hfind
    have hid : id < entered.entries.size := by
      rw [entries_size_eq hcontents]
      exact hs.lt_of_entryOf hfind
    exact (((h.enterSlot henter).retain hid).enterEntry hentry).leaveSlot thread .shared _

theorem overwrite (h : t.Pins refs) (hid : id < t.entries.size)
    (hover : t.overwrite thread id value mode = some (r, t')) : t'.Pins (referred refs r) := by
  have hretained := h.retain hid
  cases mode with
  | exclusive =>
      rw [overwrite_exclusive, Option.map_eq_some_iff] at hover
      obtain ⟨entered, henter, hwritten⟩ := hover
      obtain ⟨rfl, rfl⟩ := Prod.mk.inj hwritten
      exact (hretained.enterEntry henter).overwritten id value
  | shared =>
      rw [overwrite_shared, Option.bind_eq_some_iff] at hover
      obtain ⟨entered, henter, hover⟩ := hover
      obtain ⟨held, hagain, hheld⟩ := Option.map_eq_some_iff.mp hover
      obtain ⟨rfl, rfl⟩ := Prod.mk.inj hheld
      have hwritten := (hretained.enterEntry henter).overwritten id value
      exact (hwritten.leaveEntry thread .exclusive id).enterEntry hagain

theorem insert (h : t.Pins refs) (hinsert : t.insert memory thread place key value mode = (r, t')) :
    t'.Pins (referred refs r) := by
  rcases insert_cases hinsert with ⟨rfl, rfl, -⟩ | ⟨rfl, left, rfl, ht'⟩
  · exact h.leaveSlot thread .exclusive place
  · have hadopted := h.adopt thread mode (.new (t.hash key) key value)
    have hlinked : ((t.adopt thread mode (.new (t.hash key) key value)).link place
        t.entries.size).Pins (referred refs (.ok ⟨t.entries.size, mode⟩)) :=
      hadopted.of_entries_eq rfl
    have hleft := hlinked.leaveSlot thread .exclusive place
    rcases ht' with rfl | rfl
    · exact hleft
    · exact hleft.of_entries_eq rfl

theorem replace (h : t.Pins refs) (hs : t.Sound)
    (hreplace : t.replace memory thread (t.placeOf key) key value mode = some (r, t')) :
    t'.Pins (referred refs r) := by
  rcases replace_cases hreplace with
    ⟨-, hinsert⟩ | ⟨id, hfind, ⟨-, written, hover, rfl⟩ | ⟨-, hinsert⟩⟩
  · exact h.insert hinsert
  · exact (h.overwrite (hs.lt_of_entryOf hfind) hover).leaveSlot thread .exclusive _
  · have hunlinked : (t.unlink (t.placeOf key) id).Pins refs := h.of_entries_eq rfl
    exact hunlinked.insert hinsert

/-- The handle on a stored value refers to the entry that has it. -/
theorem set (h : t.Pins refs) (hs : t.Sound)
    (hset : t.set memory thread key value mode = some (r, t')) : t'.Pins (referred refs r) := by
  obtain ⟨entered, henter, hset⟩ := set_cases hset
  have hcontents := contents_enterSlot henter
  rcases hset with ⟨id, written, hfind, -, hover, rfl⟩ | ⟨again, hagain, hreplace⟩
  · rw [find?_eq hcontents] at hfind
    have hid : id < entered.entries.size := by
      rw [entries_size_eq hcontents]
      exact hs.lt_of_entryOf hfind
    exact ((h.enterSlot henter).overwrite hid hover).leaveSlot thread .shared _
  · have hcontents₂ : again.contents = t.contents := by
      rw [contents_enterSlot hagain, contents_leaveSlot, hcontents]
    rw [← placeOf_eq hcontents₂] at hreplace
    exact (((h.enterSlot henter).leaveSlot thread .shared _).enterSlot hagain).replace
      (hs.of_contents_eq hcontents₂) hreplace

/-- A handle that is released refers to nothing any more. -/
theorem release (h : t.Pins refs) (thread : ThreadId) (handle : Handle) :
    (t.release thread handle).2.Pins (update refs handle.id (refs handle.id - 1)) :=
  (h.leaveEntry thread handle.mode handle.id).forget handle.id

end Pins

theorem pins_of_new {hash : Bytes → UInt64} {slotBits maxShards : Nat} {memory : Allocator}
    {t : Table} (h : new memory hash slotBits maxShards = .ok t) : t.Pins fun _ => 0 where
  entry id e he := by simp [eq_of_new h, entryAt] at he
  made _ _ := rfl

end Table

end KeyValueServer
