import KeyValueServer.Proofs.Store.Session
import KeyValueServer.Proofs.Store.Unmarked
import KeyValueServer.Proofs.Sync.Counting

/-!
# More handles than a lock can count

A lookup is never refused for the number of shared handles that an entry has already. With as many
of them as the field of a lock word has values the count is back at zero: the word still says that
the lock is shared, so nobody can write, and it says that nobody shares it, so no handle can be
released. With one more handle a single release is taken for the last one and frees the lock.
-/

namespace KeyValueServer

open Function (update)

namespace Table

variable {t t' : Table} {thread : ThreadId} {key value : Bytes} {id : EntryId} {mode : LockMode}
  {place count : Nat} {memory : Allocator} {e : Entry}

/-! ## Locks beside each other -/

@[simp] theorem entryAt_leaveSlot (t : Table) (thread : ThreadId) (mode : LockMode) (place : Nat)
    (id : EntryId) : (t.leaveSlot thread mode place).entryAt id = t.entryAt id := by
  unfold leaveSlot
  split <;> rfl

theorem entryAt_enterSlot (h : t.enterSlot thread mode place = some t') (id : EntryId) :
    t'.entryAt id = t.entryAt id := by
  obtain ⟨_, -, rfl⟩ := Option.map_eq_some_iff.mp h
  rfl

/-- Giving up a slot does not depend on what was done to entries. -/
theorem slots_leaveSlot (h : t'.slots = t.slots) (thread : ThreadId) (mode : LockMode)
    (place : Nat) :
    (t'.leaveSlot thread mode place).slots = (t.leaveSlot thread mode place).slots := by
  have hslot : t'.slot place = t.slot place := by rw [slot, slot, h]
  rw [leaveSlot, leaveSlot, hslot]
  split
  · rw [modifySlot, modifySlot, h]
  · exact h

/-- A call takes a hold on an entry to which it refers already. -/
theorem exists_enterEntry_retain (he : t.entryAt id = some e) {word : LockWord}
    (hword : e.lock.word.acquire? mode thread = some word) :
    ∃ held e', (t.retain id).enterEntry thread mode id = some held ∧ held.slots = t.slots ∧
      held.entryAt id = some e' ∧ e'.lock.word = word := by
  have hretained : (t.retain id).entryAt id = some { e with references := e.references + 1 } := by
    rw [retain, entryAt_modifyEntry, if_pos rfl, he, Option.map_some]
  obtain ⟨lock, hlock, hsame⟩ : ∃ lock, e.lock.acquire? mode thread = some lock ∧
      lock.word = word := by
    rw [Lock.acquire?, hword]
    exact ⟨_, rfl, rfl⟩
  have henter : (t.retain id).enterEntry thread mode id =
      some ((t.retain id).modifyEntry id fun e' => { e' with lock }) := by
    rw [enterEntry, hretained, Option.bind_eq_bind, Option.bind_some, hlock]
    rfl
  have hentry : ((t.retain id).modifyEntry id fun e' => { e' with lock }).entryAt id =
      some { e with lock, references := e.references + 1 } := by
    rw [entryAt_modifyEntry, if_pos rfl, hretained, Option.map_some]
  exact ⟨_, _, henter, rfl, hentry, hsame⟩

/-- A release that the lock grants. -/
theorem release_of_ok (he : t.entryAt id = some e) {word : LockWord}
    (hword : e.lock.word.release mode thread = .ok word) :
    ∃ left e', t.release thread ⟨id, mode⟩ = (.ok (), left) ∧ left.slots = t.slots ∧
      left.entryAt id = some e' ∧ e'.lock.word = word := by
  obtain ⟨lock, hlock, hsame⟩ : ∃ lock, e.lock.release mode thread = .ok lock ∧
      lock.word = word := by
    rw [Lock.release, hword]
    exact ⟨_, rfl, rfl⟩
  have hrelease : t.release thread ⟨id, mode⟩ =
      (.ok (), (t.modifyEntry id fun e' => { e' with lock }).forget id) := by
    simp only [release, leaveEntry, he, hlock]
  have hentry : ((t.modifyEntry id fun e' => { e' with lock }).forget id).entryAt id =
      some { e with lock, references := e.references - 1 } := by
    simp only [forget, entryAt_modifyEntry, he, if_true, Option.map_some]
  exact ⟨_, _, hrelease, rfl, hentry, hsame⟩

/-- A release that the lock refuses only makes the table forget the handle. -/
theorem release_of_error (he : t.entryAt id = some e) {fault : StateFault}
    (hword : e.lock.word.release mode thread = .error fault) :
    ∃ left e', t.release thread ⟨id, mode⟩ = (.error (.invalidState fault), left) ∧
      left.slots = t.slots ∧ left.entryAt id = some e' ∧ e'.lock.word = e.lock.word := by
  have hrelease : t.release thread ⟨id, mode⟩ = (.error (.invalidState fault), t.forget id) := by
    simp only [release, leaveEntry, he, Lock.release, hword]
  have hentry : (t.forget id).entryAt id = some { e with references := e.references - 1 } := by
    rw [forget, entryAt_modifyEntry, if_pos rfl, he, Option.map_some]
  exact ⟨_, _, hrelease, rfl, hentry, rfl⟩

/-! ## Entries with many handles -/

/-- The lock of the entry of a key has the word for so many shared holds, and the slot of the key
is free. -/
structure Crowded (t : Table) (key : Bytes) (id : EntryId) (count : Nat) : Prop where
  sound : t.Sound
  found : t.entryOf key = some id
  slot : (t.slot (t.placeOf key)).lock.word = .free
  entry : ∃ e, t.entryAt id = some e ∧ e.lock.word = .counted count

namespace Crowded

theorem of_atRest (hs : t.Sound) (hrest : t.AtRest fun _ => []) (hunmarked : t.Unmarked)
    (hfound : t.entryOf key = some id) : t.Crowded key id 0 where
  sound := hs
  found := hfound
  slot := (hrest.slot _).eq_free (hunmarked.slot _)
  entry := by
    obtain ⟨e, he, -⟩ := hs.mem_of_entryOf hfound
    exact ⟨e, he, (hrest.entry id e he).eq_free (hunmarked.entry id e he)⟩

/-- A value as long as the stored one fits the entry. -/
theorem length_le_capacityOf (h : t.Crowded key id count) (hlookup : t.lookup key = some value) :
    value.length ≤ t.capacityOf id := by
  obtain ⟨e, he, -⟩ := h.entry
  simp only [lookup, recordOf, h.found, he, Option.bind_some, Option.map_some] at hlookup
  obtain rfl := Option.some.inj hlookup
  rw [capacityOf, he]
  exact List.length_take_le' ..

/-- Locks and references of entries change, and the word of the one entry becomes another. -/
theorem recount (h : t.Crowded key id count) (hcontents : t'.contents = t.contents)
    (hslots : t'.slots = t.slots) (he : t'.entryAt id = some e) {count' : Nat}
    (hword : e.lock.word = .counted count') : t'.Crowded key id count' where
  sound := h.sound.of_contents_eq hcontents
  found := by rw [entryOf_eq hcontents, h.found]
  slot := by rw [placeOf_eq hcontents, Table.slot, hslots, ← Table.slot, h.slot]
  entry := ⟨e, he, hword⟩

/-- One more lookup is granted, and one more hold counted. -/
theorem exists_get (h : t.Crowded key id count) (thread : ThreadId) :
    ∃ t', t.get thread key .shared = some (.ok ⟨id, .shared⟩, t') ∧
      t'.Crowded key id (count + 1) := by
  obtain ⟨e, he, hword⟩ := h.entry
  obtain ⟨entered, henter, -, hleave⟩ :=
    exists_enterSlot_leaveSlot (h.sound.placeOf_lt key) h.slot thread
  have hfind : entered.find? (t.placeOf key) key = some id := by
    rw [find?_eq (contents_enterSlot henter)]
    exact h.found
  obtain ⟨held, e', hheld, hslots, he', hword'⟩ := exists_enterEntry_retain
    ((entryAt_enterSlot henter id).trans he) (hword ▸ LockWord.acquire?_counted count thread)
  have hget : t.get thread key .shared =
      some (.ok ⟨id, .shared⟩, held.leaveSlot thread .shared (t.placeOf key)) := by
    simp only [get, henter, hfind, hheld, Option.bind_eq_bind, Option.bind_some, Option.pure_def]
  refine ⟨_, hget, h.recount (contents_get hget).1 ?_ ((entryAt_leaveSlot ..).trans he') hword'⟩
  rw [slots_leaveSlot hslots, hleave]

/-- Any number of lookups is granted, and what each of them takes on holds after all of them. -/
theorem exists_gets (h : t.Crowded key id 0) (thread : ThreadId) (motive : Nat → Table → Prop)
    (hstart : motive 0 t)
    (hget : ∀ {count : Nat} {t₁ t₂ : Table}, motive count t₁ →
      t₁.get thread key .shared = some (.ok ⟨id, .shared⟩, t₂) → t₂.contents = t.contents →
      motive (count + 1) t₂)
    (count : Nat) :
    ∃ t', motive count t' ∧ t'.Crowded key id count ∧ t'.contents = t.contents := by
  induction count with
  | zero => exact ⟨t, hstart, h, rfl⟩
  | succ count ih =>
      obtain ⟨t₁, hmotive, hcrowded, hcontents⟩ := ih
      obtain ⟨t₂, hnext, hcrowded₂⟩ := hcrowded.exists_get thread
      have hsame := (contents_get hnext).1.trans hcontents
      exact ⟨t₂, hget hmotive hnext hsame, hcrowded₂, hsame⟩

/-- A release leaves as many holds counted as the word says. -/
theorem release (h : t.Crowded key id count) {left : Nat}
    (hrelease : (LockWord.counted count).release .shared thread = .ok (.counted left)) :
    (t.release thread ⟨id, .shared⟩).1 = .ok () ∧
      (t.release thread ⟨id, .shared⟩).2.Crowded key id left := by
  obtain ⟨e, he, hword⟩ := h.entry
  obtain ⟨t', e', heq, hslots, he', hword'⟩ := release_of_ok he (hword ▸ hrelease)
  have hcontents := t.contents_release thread ⟨id, .shared⟩
  rw [heq] at hcontents ⊢
  exact ⟨rfl, h.recount hcontents hslots he' hword'⟩

/-- Where the count has come back to zero no release is granted. -/
theorem release_of_overflow (h : t.Crowded key id fieldSize) (thread : ThreadId) :
    (t.release thread ⟨id, .shared⟩).1 = .error (.invalidState (.sharedRelease (2 ^ 29))) ∧
      (t.release thread ⟨id, .shared⟩).2.Crowded key id fieldSize := by
  obtain ⟨e, he, hword⟩ := h.entry
  obtain ⟨t', e', heq, hslots, he', hword'⟩ :=
    release_of_error he (hword ▸ LockWord.release_of_overflow thread)
  have hcontents := t.contents_release thread ⟨id, .shared⟩
  rw [heq] at hcontents ⊢
  exact ⟨rfl, h.recount hcontents hslots he' (hword'.trans hword)⟩

/-- With one hold more, the first release is taken for that of the last hold. -/
theorem release_beyond_overflow (h : t.Crowded key id (fieldSize + 1)) (thread : ThreadId) :
    (t.release thread ⟨id, .shared⟩).1 = .ok () ∧
      (t.release thread ⟨id, .shared⟩).2.Crowded key id 0 :=
  h.release rfl

/-- A call that stores a value finds the entry of its key before it takes the entry's lock. -/
theorem exists_fitting (h : t.Crowded key id count) (hfits : value.length ≤ t.capacityOf id)
    (thread : ThreadId) :
    ∃ entered, t.enterSlot thread .shared (t.placeOf key) = some entered ∧
      entered.findFitting? (t.placeOf key) key value.length = some id ∧
      entered.entryAt id = t.entryAt id := by
  obtain ⟨entered, henter, -, -⟩ :=
    exists_enterSlot_leaveSlot (h.sound.placeOf_lt key) h.slot thread
  have hcontents := contents_enterSlot henter
  refine ⟨entered, henter, ?_, entryAt_enterSlot henter id⟩
  rw [findFitting?, find?_eq hcontents, ← entryOf, h.found, Option.filter_some,
    capacityOf_eq hcontents, if_pos (by simpa using hfits)]

/-- While the word says that the lock is shared, a value that fits the entry cannot be stored. -/
theorem set_eq_none (h : t.Crowded key id count) (hpos : 0 < count)
    (hfits : value.length ≤ t.capacityOf id) (memory : Allocator) (thread : ThreadId)
    (mode : LockMode) : t.set memory thread key value mode = none := by
  obtain ⟨e, he, hword⟩ := h.entry
  obtain ⟨entered, henter, hfitting, hentry⟩ := h.exists_fitting hfits thread
  have hretained : (entered.retain id).entryAt id =
      some { e with references := e.references + 1 } := by
    rw [retain, entryAt_modifyEntry, if_pos rfl, hentry, he, Option.map_some]
  have hrefused : (entered.retain id).enterEntry thread .exclusive id = none := by
    rw [enterEntry, hretained, Option.bind_eq_bind, Option.bind_some, Lock.acquire?, hword]
    simp [LockWord.acquire?, LockWord.counted, hpos]
  simp only [set, henter, hfitting, overwrite, hrefused, Option.bind_eq_bind, Option.bind_some,
    Option.bind_none]

/-- Once the word says that the lock is free, the value is stored over the old one, whatever handles
there are on the entry. -/
theorem exists_set (h : t.Crowded key id 0) (hfits : value.length ≤ t.capacityOf id)
    (memory : Allocator) (thread : ThreadId) :
    ∃ t', t.set memory thread key value .exclusive = some (.ok ⟨id, .exclusive⟩, t') ∧
      ∀ mode, t'.valueOf ⟨id, mode⟩ = value := by
  obtain ⟨e, he, hword⟩ := h.entry
  obtain ⟨entered, henter, hfitting, hentry⟩ := h.exists_fitting hfits thread
  have hgranted : e.lock.word.acquire? .exclusive thread = some ⟨false, true, false, thread⟩ := by
    rw [hword]
    rfl
  obtain ⟨held, e', hheld, -, he', -⟩ := exists_enterEntry_retain (hentry.trans he) hgranted
  refine ⟨(held.overwritten id value).leaveSlot thread .shared (t.placeOf key), ?_, fun mode => ?_⟩
  · simp only [set, henter, hfitting, overwrite_exclusive, hheld, Option.bind_eq_bind,
      Option.bind_some, Option.map_some, Option.pure_def]
  · rw [valueOf, entryAt_leaveSlot, entryAt_overwritten, if_pos rfl, he']
    exact Entry.value_overwrite e' value

end Crowded

/-- A new table in which a value was stored and the handle released. -/
theorem exists_crowded_of_new {table : Table} {hash : Bytes → UInt64} {slotBits maxShards : Nat}
    (hnew : Table.new memory hash slotBits maxShards = .ok table) (thread : ThreadId)
    (key value : Bytes) :
    ∃ id t, table.set unlimited thread key value .exclusive = some (.ok ⟨id, .exclusive⟩, t) ∧
      (t.release thread ⟨id, .exclusive⟩).1 = .ok () ∧
      (t.release thread ⟨id, .exclusive⟩).2.Crowded key id 0 ∧
      (t.release thread ⟨id, .exclusive⟩).2.lookup = update (fun _ => none) key (some value) := by
  have hsound := sound_of_new hnew
  have hrest := atRest_of_new hnew
  obtain ⟨r, t, hset⟩ := hrest.exists_set hsound unlimited thread key value .exclusive
  rcases contents_set hset with ⟨rfl, hcontents⟩ | ⟨-, request, hrefused⟩
  · have hheld := hrest.set hsound hset (Session.sharedHolds_granted_lt thread (.ok _))
    generalize hhandle : (⟨(table.stored key value).1, .exclusive⟩ : Handle) = handle at hset hheld
    have hmem : ⟨thread, handle.mode⟩ ∈ granted (fun _ => []) thread (.ok handle) handle.id := by
      simp [granted]
    obtain ⟨hok, hleft⟩ := hheld.release hmem
    have hafter := t.contents_release thread handle
    subst hhandle
    refine ⟨_, t, hset, hok, .of_atRest ?_ (by simpa [granted] using hleft) ?_ ?_, ?_⟩
    · exact (hsound.of_stored hcontents).of_contents_eq hafter
    · exact ((unmarked_of_new hnew).set hset).release thread _
    · rw [entryOf_eq hafter, hsound.entryOf_of_stored hcontents, if_pos rfl]
    · rw [← lookup_of_new hnew, ← hsound.lookup_of_stored hcontents]
      exact funext (lookup_eq hafter)
  · contradiction

end Table

/-! ## Sessions in which too many handles are kept -/

namespace Session

variable {table t : Table} {thread : ThreadId} {key : Bytes} {id : EntryId}

/-- Any number of lookups is granted. -/
theorem Reachable.exists_gets (h : Reachable table (fun _ => True) (opened t))
    (hcrowded : t.Crowded key id 0) (thread : ThreadId) (count : Nat) :
    ∃ t', Reachable table (fun _ => True)
        ⟨t', update (fun _ => []) id (List.replicate count ⟨thread, .shared⟩)⟩ ∧
      t'.Crowded key id count ∧ t'.contents = t.contents := by
  refine hcrowded.exists_gets thread (fun count t' => Reachable table (fun _ => True)
    ⟨t', update (fun _ => []) id (List.replicate count ⟨thread, .shared⟩)⟩) ?_ ?_ count
  · rwa [List.replicate_zero, Function.update_eq_self]
  · intro count t₁ t₂ hreach hget _
    have hmove := hreach.move (.get thread key .shared)
      (Option.map_eq_some_iff.mpr ⟨_, hget, rfl⟩) trivial
    simpa [keep, granted, List.replicate_succ] using hmove

/-- Where the count has come back to zero the handles go without being released. -/
theorem Reachable.exists_failing_releases {count : Nat}
    (h : Reachable table (fun _ => True)
      ⟨t, update (fun _ => []) id (List.replicate count ⟨thread, .shared⟩)⟩)
    (hcrowded : t.Crowded key id fieldSize) :
    ∃ t', Reachable table (fun _ => True) (opened t') ∧ t'.Crowded key id fieldSize ∧
      t'.lookup = t.lookup := by
  induction count generalizing t with
  | zero => exact ⟨t, by rwa [List.replicate_zero, Function.update_eq_self] at h, hcrowded, rfl⟩
  | succ count ih =>
      have hmove := h.move (.release thread ⟨id, .shared⟩) (if_pos (by simp)) trivial
      have hcontents := t.contents_release thread ⟨id, .shared⟩
      obtain ⟨t', hreach, hcrowded', hlookup⟩ := ih (by simpa [List.replicate_succ] using hmove)
        (hcrowded.release_of_overflow thread).2
      exact ⟨t', hreach, hcrowded', hlookup.trans (funext (Table.lookup_eq hcontents))⟩

/-- A key with a value can come to have a lock that is shared by nobody for good, in a session in
which no handle is kept any more. -/
theorem exists_lost {hash : Bytes → UInt64} {slotBits maxShards : Nat} {memory : Allocator}
    (hnew : Table.new memory hash slotBits maxShards = .ok table) (key value : Bytes) :
    ∃ id t, Reachable table (fun _ => True) (opened t) ∧ t.Crowded key id fieldSize ∧
      t.lookup = update (fun _ => none) key (some value) := by
  obtain ⟨id, t, hset, -, hcrowded, hlookup⟩ := Table.exists_crowded_of_new hnew 1 key value
  have hstart : Reachable table (fun _ => True) (opened table) := .start
  have hstored := hstart.move (.set 1 key value .exclusive)
    (Option.map_eq_some_iff.mpr ⟨_, hset, rfl⟩) trivial
  have hreleased := hstored.move (.release 1 ⟨id, .exclusive⟩) (if_pos (by simp [keep, granted]))
    trivial
  have hquiet : Reachable table (fun _ => True) (opened (t.release 1 ⟨id, .exclusive⟩).2) := by
    simpa [keep, granted, opened] using hreleased
  obtain ⟨t₁, hheld, hcrowded₁, hcontents₁⟩ := hquiet.exists_gets hcrowded 1 fieldSize
  have hlookup₁ : t₁.lookup = (t.release 1 ⟨id, .exclusive⟩).2.lookup :=
    funext (Table.lookup_eq hcontents₁)
  obtain ⟨t₂, hreach, hcrowded₂, hlookup₂⟩ := hheld.exists_failing_releases hcrowded₁
  exact ⟨id, t₂, hreach, hcrowded₂, hlookup₂.trans (hlookup₁.trans hlookup)⟩

end Session

end KeyValueServer
