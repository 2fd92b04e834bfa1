import KeyValueServer.Proofs.Store.Contents
import KeyValueServer.Proofs.Sync.LockWord

/-!
# What the calls on a table do to its contents

Looking a key up changes nothing. Storing a value writes it over the entry of its key where it
fits, and otherwise puts a new entry in the place of the old one. The result is a handle on that
entry, unless there is no memory for a new one.
-/

namespace KeyValueServer

namespace Table

variable {t t' : Table} {memory : Allocator} {thread : ThreadId} {key value : Bytes}
  {mode : LockMode} {id : EntryId}

@[simp] theorem placeOf_contents (t : Table) (key : Bytes) :
    t.contents.placeOf key = t.placeOf key := rfl

@[simp] theorem find?_contents (t : Table) (place : Nat) (key : Bytes) :
    t.contents.find? place key = t.find? place key := by
  simp only [find?, slot_contents, entryAt_contents, Option.map_map]
  rfl

@[simp] theorem capacityOf_contents (t : Table) (id : EntryId) :
    t.contents.capacityOf id = t.capacityOf id := by
  simp only [capacityOf, entryAt_contents, Option.map_map]
  rfl

theorem placeOf_eq (h : t'.contents = t.contents) (key : Bytes) :
    t'.placeOf key = t.placeOf key := by
  rw [← placeOf_contents, h, placeOf_contents]

theorem find?_eq (h : t'.contents = t.contents) (place : Nat) (key : Bytes) :
    t'.find? place key = t.find? place key := by
  rw [← find?_contents, h, find?_contents]

theorem capacityOf_eq (h : t'.contents = t.contents) (id : EntryId) :
    t'.capacityOf id = t.capacityOf id := by
  rw [← capacityOf_contents, h, capacityOf_contents]

theorem entries_size_eq (h : t'.contents = t.contents) : t'.entries.size = t.entries.size := by
  simpa [contents] using congrArg (fun c => c.entries.size) h

theorem hash_eq (h : t'.contents = t.contents) : t'.hash = t.hash := by
  simpa [contents] using congrArg (fun c => c.hash) h

theorem slots_size_eq (h : t'.contents = t.contents) : t'.slots.size = t.slots.size := by
  simpa [contents] using congrArg (fun c => c.slots.size) h

theorem layout_eq (h : t'.contents = t.contents) : t'.layout = t.layout := by
  simpa [contents] using congrArg (fun c => c.layout) h

theorem size_eq (h : t'.contents = t.contents) : t'.size = t.size := by
  simpa [contents] using congrArg (fun c => c.size) h

/-! ## What the calls consist of -/

theorem get_cases {r : Except Error Handle} (h : t.get thread key mode = some (r, t')) :
    ∃ entered, t.enterSlot thread .shared (t.placeOf key) = some entered ∧
      ((entered.find? (t.placeOf key) key = none ∧ r = .error .notFound ∧
          t' = entered.leaveSlot thread .shared (t.placeOf key)) ∨
        ∃ id held, entered.find? (t.placeOf key) key = some id ∧ r = .ok ⟨id, mode⟩ ∧
          (entered.retain id).enterEntry thread mode id = some held ∧
          t' = held.leaveSlot thread .shared (t.placeOf key)) := by
  simp only [get, Option.bind_eq_bind, Option.bind_eq_some_iff] at h
  obtain ⟨entered, henter, h⟩ := h
  refine ⟨entered, henter, ?_⟩
  cases hfind : entered.find? (t.placeOf key) key with
  | none =>
      simp only [hfind, Option.pure_def, Option.some.injEq, Prod.mk.injEq] at h
      exact .inl ⟨rfl, h.1.symm, h.2.symm⟩
  | some id =>
      simp only [hfind, Option.bind_eq_some_iff, Option.pure_def, Option.some.injEq,
        Prod.mk.injEq] at h
      obtain ⟨held, hentry, hr, ht'⟩ := h
      exact .inr ⟨id, held, rfl, hr.symm, hentry, ht'.symm⟩

/-- A thread that has taken the lock of an entry exclusively can release it. -/
theorem leaveEntry_of_enterEntry (f : Entry → Entry) (hf : ∀ e, (f e).lock = e.lock)
    (h : t.enterEntry thread .exclusive id = some t') :
    ((t'.modifyEntry id f).leaveEntry thread .exclusive id).1 = .ok () := by
  simp only [enterEntry, Option.bind_eq_bind, Option.bind_eq_some_iff, Option.pure_def,
    Option.some.injEq] at h
  obtain ⟨entry, hentry, lock, hlock, rfl⟩ := h
  obtain ⟨word, hword, rfl⟩ := Option.map_eq_some_iff.mp hlock
  obtain ⟨-, rfl⟩ := LockWord.acquire?_exclusive_eq_some_iff.mp hword
  simp [leaveEntry, entryAt_modifyEntry, hentry, hf, Lock.release, LockWord.release]

theorem overwrite_exclusive (t : Table) (thread : ThreadId) (id : EntryId) (value : Bytes) :
    t.overwrite thread id value .exclusive =
      ((t.retain id).enterEntry thread .exclusive id).map fun entered =>
        (.ok ⟨id, .exclusive⟩, entered.overwritten id value) := by
  rw [overwrite]
  cases (t.retain id).enterEntry thread .exclusive id <;> rfl

/-- For a shared handle the exclusive hold is given up, which is never refused, and a shared one is
taken. -/
theorem overwrite_shared (t : Table) (thread : ThreadId) (id : EntryId) (value : Bytes) :
    t.overwrite thread id value .shared =
      ((t.retain id).enterEntry thread .exclusive id).bind fun entered =>
        (((entered.overwritten id value).leaveEntry thread .exclusive id).2.enterEntry thread
          .shared id).map fun held => (.ok ⟨id, .shared⟩, held) := by
  rw [overwrite]
  cases henter : (t.retain id).enterEntry thread .exclusive id with
  | none => rfl
  | some entered =>
      have hleave := leaveEntry_of_enterEntry (fun e => e.overwrite value) (fun _ => rfl) henter
      simp only [Option.bind_eq_bind, Option.bind_some, overwritten]
      rcases hpair : (entered.modifyEntry id fun e => e.overwrite value).leaveEntry thread
        .exclusive id with ⟨result, left⟩
      rw [hpair] at hleave
      obtain rfl : result = .ok () := hleave
      dsimp only
      cases left.enterEntry thread .shared id <;> rfl

theorem insert_cases {place : Nat} {r : Except Error Handle}
    (h : t.insert memory thread place key value mode = (r, t')) :
    (r = .error .outOfMemory ∧ t' = t.leaveSlot thread .exclusive place ∧
      ∃ request, memory request = false) ∨
    (r = .ok ⟨t.entries.size, mode⟩ ∧ ∃ left,
      left = ((t.adopt thread mode (.new (t.hash key) key value)).link place
        t.entries.size).leaveSlot thread .exclusive place ∧
      (t' = left ∨ t' = left.reclaim.2)) := by
  simp only [insert] at h
  split at h
  next e hallocate =>
    obtain ⟨rfl, rfl⟩ := Prod.mk.inj h
    obtain ⟨rfl, hrefused⟩ := Entry.eq_outOfMemory_of_allocate hallocate
    exact .inl ⟨rfl, rfl, hrefused⟩
  next entry hallocate =>
    obtain rfl := Entry.eq_new_of_allocate hallocate
    obtain ⟨rfl, rfl⟩ := Prod.mk.inj h
    refine .inr ⟨rfl, _, rfl, ?_⟩
    split
    · exact .inr rfl
    · exact .inl rfl

theorem replace_cases {place : Nat} {r : Except Error Handle}
    (h : t.replace memory thread place key value mode = some (r, t')) :
    (t.find? place key = none ∧ t.insert memory thread place key value mode = (r, t')) ∨
    ∃ id, t.find? place key = some id ∧
      ((value.length ≤ t.capacityOf id ∧ ∃ written,
          t.overwrite thread id value mode = some (r, written) ∧
          t' = written.leaveSlot thread .exclusive place) ∨
        (¬value.length ≤ t.capacityOf id ∧
          (t.unlink place id).insert memory thread place key value mode = (r, t'))) := by
  simp only [replace] at h
  cases hfind : t.find? place key with
  | none =>
      simp only [hfind, Option.some.injEq] at h
      exact .inl ⟨rfl, h⟩
  | some id =>
      simp only [hfind] at h
      refine .inr ⟨id, rfl, ?_⟩
      by_cases hfits : value.length ≤ t.capacityOf id
      · simp only [hfits, if_true, Option.bind_eq_bind, Option.bind_eq_some_iff, Option.pure_def,
          Option.some.injEq, Prod.mk.injEq, Prod.exists] at h
        obtain ⟨result, written, hover, rfl, rfl⟩ := h
        exact .inl ⟨hfits, written, hover, rfl⟩
      · simp only [hfits, if_false, Option.some.injEq] at h
        exact .inr ⟨hfits, h⟩

theorem set_cases {r : Except Error Handle}
    (h : t.set memory thread key value mode = some (r, t')) :
    ∃ entered, t.enterSlot thread .shared (t.placeOf key) = some entered ∧
      ((∃ id written, entered.find? (t.placeOf key) key = some id ∧
          value.length ≤ entered.capacityOf id ∧
          entered.overwrite thread id value mode = some (r, written) ∧
          t' = written.leaveSlot thread .shared (t.placeOf key)) ∨
        ∃ again, (entered.leaveSlot thread .shared (t.placeOf key)).enterSlot thread .exclusive
            (t.placeOf key) = some again ∧
          again.replace memory thread (t.placeOf key) key value mode = some (r, t')) := by
  simp only [set, Option.bind_eq_bind, Option.bind_eq_some_iff] at h
  obtain ⟨entered, henter, h⟩ := h
  refine ⟨entered, henter, ?_⟩
  split at h
  next id hfitting =>
    obtain ⟨hfind, hfits⟩ := Option.filter_eq_some_iff.mp hfitting
    simp only [Option.bind_eq_some_iff, Option.pure_def, Option.some.injEq, Prod.mk.injEq,
      Prod.exists] at h
    obtain ⟨result, written, hover, rfl, rfl⟩ := h
    exact .inl ⟨id, written, hfind, by simpa using hfits, hover, rfl⟩
  next => exact .inr (Option.bind_eq_some_iff.mp h)

/-- A call to reclaim frees the retired entries that no caller refers to. -/
theorem reclaim_fst (t : Table) :
    t.reclaim.1 = (t.retired.filter fun id => !t.isReferenced id).length := by
  have hsplit := t.retired.length_eq_countP_add_countP t.isReferenced
  simp only [List.countP_eq_length_filter, decide_not, Bool.decide_eq_true] at hsplit
  simp only [reclaim]
  omega

/-! ## Looking up -/

/-- A lookup finds the entry of its key, or says that there is none. -/
theorem contents_get {r : Except Error Handle} (h : t.get thread key mode = some (r, t')) :
    t'.contents = t.contents ∧
      r = match t.find? (t.placeOf key) key with
        | none => .error .notFound
        | some id => .ok ⟨id, mode⟩ := by
  obtain ⟨entered, henter, h⟩ := get_cases h
  have hcontents := contents_enterSlot henter
  rw [find?_eq hcontents] at h
  rcases h with ⟨hfind, rfl, rfl⟩ | ⟨id, held, hfind, rfl, hentry, rfl⟩
  · exact ⟨by rw [contents_leaveSlot, hcontents], by rw [hfind]⟩
  · refine ⟨?_, by rw [hfind]⟩
    rw [contents_leaveSlot, contents_enterEntry hentry, contents_retain, hcontents]

@[simp] theorem contents_release (t : Table) (thread : ThreadId) (h : Handle) :
    (t.release thread h).2.contents = t.contents := by
  simp [release]

/-! ## Storing -/

/-- The table after a value was stored, and the name of the entry that has it. -/
def stored (t : Table) (key value : Bytes) : EntryId × Table :=
  match t.find? (t.placeOf key) key with
  | none =>
      (t.entries.size, (t.enlist (.new (t.hash key) key value)).link (t.placeOf key) t.entries.size)
  | some id =>
      if value.length ≤ t.capacityOf id then (id, t.overwritten id value)
      else
        (t.entries.size, (((t.detach (t.placeOf key) id).countDown).enlist
          (.new (t.hash key) key value)).link (t.placeOf key) t.entries.size)

theorem contents_overwritten (t : Table) (id : EntryId) (value : Bytes) :
    (t.overwritten id value).contents = t.contents.overwritten id value :=
  t.contents_modifyEntry id fun _ => rfl

theorem contents_overwrite {r : Except Error Handle}
    (h : t.overwrite thread id value mode = some (r, t')) :
    r = .ok ⟨id, mode⟩ ∧ t'.contents = t.contents.overwritten id value := by
  cases mode with
  | exclusive =>
      rw [overwrite_exclusive, Option.map_eq_some_iff] at h
      obtain ⟨entered, henter, h⟩ := h
      obtain ⟨rfl, rfl⟩ := Prod.mk.inj h
      exact ⟨rfl, by rw [contents_overwritten, contents_enterEntry henter, contents_retain]⟩
  | shared =>
      rw [overwrite_shared, Option.bind_eq_some_iff] at h
      obtain ⟨entered, henter, h⟩ := h
      obtain ⟨held, hagain, h⟩ := Option.map_eq_some_iff.mp h
      obtain ⟨rfl, rfl⟩ := Prod.mk.inj h
      refine ⟨rfl, ?_⟩
      rw [contents_enterEntry hagain, contents_leaveEntry, contents_overwritten,
        contents_enterEntry henter, contents_retain]

theorem slots_size_eq_of_overwrite {r : Except Error Handle}
    (h : t.overwrite thread id value mode = some (r, t')) : t'.slots.size = t.slots.size := by
  have hcontents := congrArg (fun c => c.slots.size) (contents_overwrite h).2
  simpa [contents, overwritten, modifyEntry] using hcontents

/-- Putting a new entry into a slot fails only for want of memory. -/
theorem contents_insert {place : Nat} {r : Except Error Handle}
    (h : t.insert memory thread place key value mode = (r, t')) :
    (r = .ok ⟨t.entries.size, mode⟩ ∧ t'.contents =
      (t.contents.enlist (.new (t.hash key) key value)).link place t.entries.size) ∨
    (r = .error .outOfMemory ∧ ∃ request, memory request = false) := by
  rcases insert_cases h with ⟨rfl, -, hrefused⟩ | ⟨rfl, left, rfl, ht'⟩
  · exact .inr ⟨rfl, hrefused⟩
  · refine .inl ⟨rfl, ?_⟩
    rcases ht' with rfl | rfl
    · rw [contents_leaveSlot, contents_link, contents_adopt]
      rfl
    · rw [contents_reclaim, contents_leaveSlot, contents_link, contents_adopt]
      rfl

theorem contents_replace {r : Except Error Handle}
    (h : t.replace memory thread (t.placeOf key) key value mode = some (r, t')) :
    (r = .ok ⟨(t.stored key value).1, mode⟩ ∧ t'.contents = (t.contents.stored key value).2) ∨
    (r = .error .outOfMemory ∧ ∃ request, memory request = false) := by
  have hsize : t.contents.entries.size = t.entries.size := by simp [contents]
  simp only [stored, find?_contents, placeOf_contents, capacityOf_contents, hsize]
  rcases replace_cases h with ⟨hfind, hinsert⟩ | ⟨id, hfind, hover | hinsert⟩
  · rw [hfind]
    exact contents_insert hinsert
  · obtain ⟨hfits, written, hover, rfl⟩ := hover
    obtain ⟨rfl, hcontents⟩ := contents_overwrite hover
    simp only [hfind, if_pos hfits, true_and]
    exact .inl (by rw [contents_leaveSlot, hcontents])
  · obtain ⟨hlarge, hinsert⟩ := hinsert
    have hcontents := contents_insert hinsert
    rw [contents_unlink] at hcontents
    simp only [hfind, if_neg hlarge]
    exact hcontents

theorem stored_fst_eq (h : t'.contents = t.contents) (key value : Bytes) :
    (t'.stored key value).1 = (t.stored key value).1 := by
  simp only [stored, find?_eq h, placeOf_eq h, capacityOf_eq h, entries_size_eq h]
  split
  · rfl
  · split <;> rfl

/-- The stored value is in the entry of its key, where the call has memory for a new one. -/
theorem contents_set {r : Except Error Handle}
    (h : t.set memory thread key value mode = some (r, t')) :
    (r = .ok ⟨(t.stored key value).1, mode⟩ ∧ t'.contents = (t.contents.stored key value).2) ∨
    (r = .error .outOfMemory ∧ ∃ request, memory request = false) := by
  obtain ⟨entered, henter, h⟩ := set_cases h
  have hcontents := contents_enterSlot henter
  rcases h with ⟨id, written, hfind, hfits, hover, rfl⟩ | ⟨again, hagain, hreplace⟩
  · rw [find?_eq hcontents] at hfind
    rw [capacityOf_eq hcontents] at hfits
    obtain ⟨rfl, hwritten⟩ := contents_overwrite hover
    refine .inl ⟨by simp [stored, hfind, hfits], ?_⟩
    rw [contents_leaveSlot, hwritten, hcontents]
    simp [stored, hfind, hfits]
  · have hcontents₂ : again.contents = t.contents := by
      rw [contents_enterSlot hagain, contents_leaveSlot, hcontents]
    rw [← placeOf_eq hcontents₂] at hreplace
    rcases contents_replace hreplace with ⟨rfl, hstored⟩ | hfailed
    · exact .inl ⟨by rw [stored_fst_eq hcontents₂], by rw [hstored, hcontents₂]⟩
    · exact .inr hfailed

end Table

end KeyValueServer
