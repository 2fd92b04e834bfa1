import KeyValueServer.Store.Access

/-!
# The contents of a table

What a table stores does not depend on who holds its locks, who refers to its entries, and which
replaced entries have been freed. The contents of a table are the table with all of this put back
to the start. Actions on locks and references leave the contents alone; the others act on a table
as they act on its contents.
-/

namespace KeyValueServer

/-- An entry that nobody holds or refers to. -/
def Entry.contents (e : Entry) : Entry := { e with lock := .free, references := 0 }

/-- A slot that nobody holds. -/
def Slot.contents (s : Slot) : Slot := { s with lock := .free }

namespace Entry

@[simp] theorem key_contents (e : Entry) : e.contents.key = e.key := rfl

@[simp] theorem hash_contents (e : Entry) : e.contents.hash = e.hash := rfl

@[simp] theorem value_contents (e : Entry) : e.contents.value = e.value := rfl

@[simp] theorem capacity_contents (e : Entry) : e.contents.capacity = e.capacity := rfl

@[simp] theorem isFor_contents (e : Entry) (hash : UInt64) (key : Bytes) :
    e.contents.isFor hash key = e.isFor hash key := rfl

theorem value_overwrite (e : Entry) (value : Bytes) : (e.overwrite value).value = value :=
  List.take_left

theorem eq_new_of_allocate {memory : Allocator} {hash : UInt64} {key value : Bytes} {e : Entry}
    (h : allocate memory hash key value = .ok e) : e = .new hash key value := by
  simp only [allocate] at h
  split at h
  · contradiction
  · split at h
    · contradiction
    · exact (Except.ok.inj h).symm

theorem eq_outOfMemory_of_allocate {memory : Allocator} {hash : UInt64} {key value : Bytes}
    {e : Error} (h : allocate memory hash key value = .error e) :
    e = .outOfMemory ∧ ∃ request, memory request = false := by
  simp only [allocate] at h
  split at h
  next hkey => exact ⟨(Except.error.inj h).symm, _, by simpa using hkey⟩
  · split at h
    next hvalue => exact ⟨(Except.error.inj h).symm, _, by simpa using hvalue⟩
    · contradiction

end Entry

namespace Table

/-- What a table stores. -/
def contents (t : Table) : Table :=
  { t with
    slots := t.slots.map Slot.contents
    entries := t.entries.map Entry.contents
    retired := []
    generation := 0
    retries := 0 }

/-- A table with a value written over that of an entry. -/
def overwritten (t : Table) (id : EntryId) (value : Bytes) : Table :=
  t.modifyEntry id fun e => e.overwrite value

/-- A table with one more entry, which is not in any chain. -/
def enlist (t : Table) (e : Entry) : Table := { t with entries := t.entries.push e }

@[simp] theorem contents_contents (t : Table) : t.contents.contents = t.contents := by
  simp [contents, Function.comp_def, Slot.contents, Entry.contents]

/-! ## Slots and entries after an action -/

theorem slot_modifySlot (t : Table) (place other : Nat) (f : Slot → Slot) :
    (t.modifySlot place f).slot other =
      if place = other ∧ other < t.slots.size then f (t.slot other) else t.slot other := by
  simp only [slot, modifySlot, Array.getElem?_modify]
  by_cases hplace : place = other
  · by_cases hsize : other < t.slots.size <;> simp [hplace, hsize]
  · simp [hplace]

theorem entryAt_modifyEntry (t : Table) (id other : EntryId) (f : Entry → Entry) :
    (t.modifyEntry id f).entryAt other =
      if id = other then (t.entryAt other).map f else t.entryAt other := by
  simp only [entryAt, modifyEntry, Array.getElem?_modify]

theorem entryAt_overwritten (t : Table) (id other : EntryId) (value : Bytes) :
    (t.overwritten id value).entryAt other =
      if id = other then (t.entryAt other).map fun e => e.overwrite value else t.entryAt other :=
  t.entryAt_modifyEntry id other _

theorem entryAt_enlist (t : Table) (e : Entry) (id : EntryId) :
    (t.enlist e).entryAt id = if id = t.entries.size then some e else t.entryAt id := by
  simp only [entryAt, enlist, Array.getElem?_push]

@[simp] theorem entryAt_contents (t : Table) (id : EntryId) :
    t.contents.entryAt id = (t.entryAt id).map Entry.contents := by
  simp [entryAt, contents]

@[simp] theorem slot_contents (t : Table) (place : Nat) :
    t.contents.slot place = (t.slot place).contents := by
  simp only [slot, contents, Array.getElem?_map]
  cases t.slots[place]? <;> rfl

/-! ## Contents after an action -/

theorem map_modify {α β : Type} {g : α → β} {f : α → α} {f' : β → β}
    (h : ∀ a, g (f a) = f' (g a)) (xs : Array α) (i : Nat) :
    (xs.modify i f).map g = (xs.map g).modify i f' := by
  ext j hj hj'
  · simp
  · simp only [Array.getElem_map, Array.getElem_modify]
    split <;> simp [h]

theorem map_modify_of_eq {α β : Type} {g : α → β} {f : α → α} (h : ∀ a, g (f a) = g a)
    (xs : Array α) (i : Nat) : (xs.modify i f).map g = xs.map g := by
  ext j hj hj'
  · simp
  · simp only [Array.getElem_map, Array.getElem_modify]
    split <;> simp [h]

theorem contents_modifySlot (t : Table) (place : Nat) {f : Slot → Slot}
    (h : ∀ s, (f s).contents = f s.contents) :
    (t.modifySlot place f).contents = t.contents.modifySlot place f := by
  simp [contents, modifySlot, map_modify h]

theorem contents_modifySlot_of_eq (t : Table) (place : Nat) {f : Slot → Slot}
    (h : ∀ s, (f s).contents = s.contents) : (t.modifySlot place f).contents = t.contents := by
  simp [contents, modifySlot, map_modify_of_eq h]

theorem contents_modifyEntry (t : Table) (id : EntryId) {f : Entry → Entry}
    (h : ∀ e, (f e).contents = f e.contents) :
    (t.modifyEntry id f).contents = t.contents.modifyEntry id f := by
  simp [contents, modifyEntry, map_modify h]

theorem contents_modifyEntry_of_eq (t : Table) (id : EntryId) {f : Entry → Entry}
    (h : ∀ e, (f e).contents = e.contents) : (t.modifyEntry id f).contents = t.contents := by
  simp [contents, modifyEntry, map_modify_of_eq h]

theorem contents_enterSlot {t t' : Table} {thread : ThreadId} {mode : LockMode} {place : Nat}
    (h : t.enterSlot thread mode place = some t') : t'.contents = t.contents := by
  obtain ⟨lock, -, rfl⟩ := Option.map_eq_some_iff.mp h
  exact t.contents_modifySlot_of_eq place fun _ => rfl

@[simp] theorem contents_leaveSlot (t : Table) (thread : ThreadId) (mode : LockMode)
    (place : Nat) : (t.leaveSlot thread mode place).contents = t.contents := by
  unfold leaveSlot
  split
  · exact t.contents_modifySlot_of_eq place fun _ => rfl
  · rfl

theorem contents_enterEntry {t t' : Table} {thread : ThreadId} {mode : LockMode} {id : EntryId}
    (h : t.enterEntry thread mode id = some t') : t'.contents = t.contents := by
  simp only [enterEntry, Option.bind_eq_bind, Option.bind_eq_some_iff, Option.pure_def,
    Option.some.injEq] at h
  obtain ⟨entry, -, lock, -, rfl⟩ := h
  exact t.contents_modifyEntry_of_eq id fun _ => rfl

@[simp] theorem contents_leaveEntry (t : Table) (thread : ThreadId) (mode : LockMode)
    (id : EntryId) : (t.leaveEntry thread mode id).2.contents = t.contents := by
  unfold leaveEntry
  split
  · rfl
  · split
    · exact t.contents_modifyEntry_of_eq id fun _ => rfl
    · rfl

@[simp] theorem contents_retain (t : Table) (id : EntryId) :
    (t.retain id).contents = t.contents :=
  t.contents_modifyEntry_of_eq id fun _ => rfl

@[simp] theorem contents_forget (t : Table) (id : EntryId) :
    (t.forget id).contents = t.contents :=
  t.contents_modifyEntry_of_eq id fun _ => rfl

@[simp] theorem contents_reclaim (t : Table) : t.reclaim.2.contents = t.contents := rfl

@[simp] theorem contents_retire (t : Table) (id : EntryId) :
    (t.retire id).contents = t.contents := rfl

theorem contents_detach (t : Table) (place : Nat) (id : EntryId) :
    (t.detach place id).contents = t.contents.detach place id :=
  t.contents_modifySlot place fun _ => rfl

theorem contents_countDown (t : Table) : t.countDown.contents = t.contents.countDown := rfl

theorem contents_unlink (t : Table) (place : Nat) (id : EntryId) :
    (t.unlink place id).contents = (t.contents.detach place id).countDown := by
  rw [unlink, contents_retire, contents_countDown, contents_detach]

theorem contents_attach (t : Table) (place : Nat) (id : EntryId) :
    (t.attach place id).contents = t.contents.attach place id :=
  t.contents_modifySlot place fun _ => rfl

theorem contents_link (t : Table) (place : Nat) (id : EntryId) :
    (t.link place id).contents = t.contents.link place id := by
  rw [link, link, ← contents_attach]
  rfl

theorem contents_adopt (t : Table) (thread : ThreadId) (mode : LockMode) (e : Entry) :
    (t.adopt thread mode e).contents = t.contents.enlist e.contents := by
  simp [adopt, contents, enlist, Entry.contents]

theorem contents_adopt_eq (t : Table) (thread : ThreadId) (mode : LockMode) (e : Entry) :
    (t.adopt thread mode e).contents = (t.enlist e).contents := by
  rw [contents_adopt]
  simp [contents, enlist]

/-! ## Locks and the queue of retired entries -/

theorem retired_enterSlot {t t' : Table} {thread : ThreadId} {mode : LockMode} {place : Nat}
    (h : t.enterSlot thread mode place = some t') : t'.retired = t.retired := by
  obtain ⟨lock, -, rfl⟩ := Option.map_eq_some_iff.mp h
  rfl

@[simp] theorem retired_leaveSlot (t : Table) (thread : ThreadId) (mode : LockMode)
    (place : Nat) : (t.leaveSlot thread mode place).retired = t.retired := by
  unfold leaveSlot
  split <;> rfl

theorem retired_enterEntry {t t' : Table} {thread : ThreadId} {mode : LockMode} {id : EntryId}
    (h : t.enterEntry thread mode id = some t') : t'.retired = t.retired := by
  simp only [enterEntry, Option.bind_eq_bind, Option.bind_eq_some_iff, Option.pure_def,
    Option.some.injEq] at h
  obtain ⟨entry, -, lock, -, rfl⟩ := h
  rfl

@[simp] theorem retired_leaveEntry (t : Table) (thread : ThreadId) (mode : LockMode)
    (id : EntryId) : (t.leaveEntry thread mode id).2.retired = t.retired := by
  unfold leaveEntry
  split
  · rfl
  · split <;> rfl

end Table

end KeyValueServer
