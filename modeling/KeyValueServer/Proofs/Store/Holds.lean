import KeyValueServer.Proofs.Store.Lookup
import KeyValueServer.Proofs.Sync.LockWord
import Mathlib.Logic.Function.Basic

/-!
# Holds on the locks of a table

A table at rest has no holds on its slots; what callers hold are entries, through their handles.
Each call adds the hold of the handle that it returns, each release takes one away, and all other
holds that a call takes are given up again before it returns. A call on a table without outstanding
handles never waits.
-/

namespace KeyValueServer

open Function (update)

theorem sharedHolds_singleton_lt (h : Hold) : sharedHolds [h] < fieldSize := by
  have hle : sharedHolds [h] ≤ 1 := List.countP_le_length
  exact hle.trans_lt (by decide)

namespace LockWord

theorem Shows.acquire_of_nil {w : LockWord} (h : w.Shows []) (mode : LockMode)
    (thread : ThreadId) : ∃ next, w.acquire? mode thread = some next := by
  cases h with
  | free =>
      cases mode
      · exact ⟨_, rfl⟩
      · exact ⟨_, rfl⟩
  | shared _ hne => contradiction

end LockWord

/-- The holds on entries after a call of a thread that returned this. -/
def granted (holds : EntryId → List Hold) (thread : ThreadId) :
    Except Error Handle → EntryId → List Hold
  | .ok handle => update holds handle.id (⟨thread, handle.mode⟩ :: holds handle.id)
  | .error _ => holds

namespace Table

/-- The locks of the slots and of the entries show these holds. -/
structure Shows (t : Table) (slots : Nat → List Hold) (entries : EntryId → List Hold) : Prop where
  slot : ∀ place, (t.slot place).lock.word.Shows (slots place)
  entry : ∀ id e, t.entryAt id = some e → e.lock.word.Shows (entries id)
  made : ∀ id, t.entries.size ≤ id → entries id = []

/-- Nobody holds a slot. -/
abbrev AtRest (t : Table) (holds : EntryId → List Hold) : Prop := t.Shows (fun _ => []) holds

namespace Shows

variable {t t' : Table} {slots : Nat → List Hold} {holds : EntryId → List Hold}
  {thread : ThreadId} {mode : LockMode} {place : Nat} {id : EntryId} {memory : Allocator}
  {key value : Bytes}

/-! ## Changes beside the locks -/

theorem modifySlot (h : t.Shows slots holds) (place : Nat) {f : Slot → Slot}
    (hf : ∀ s, (f s).lock = s.lock) : (t.modifySlot place f).Shows slots holds where
  slot other := by
    have hother := h.slot other
    rw [slot_modifySlot]
    split
    · rwa [hf]
    · exact hother
  entry := h.entry
  made := h.made

theorem modifyEntry (h : t.Shows slots holds) (id : EntryId) {f : Entry → Entry}
    (hf : ∀ e, (f e).lock = e.lock) : (t.modifyEntry id f).Shows slots holds where
  slot := h.slot
  entry other e he := by
    rw [entryAt_modifyEntry] at he
    split at he
    · obtain ⟨e', he', rfl⟩ := Option.map_eq_some_iff.mp he
      rw [hf]
      exact h.entry other e' he'
    · exact h.entry other e he
  made other hother := h.made other (by simpa [Table.modifyEntry] using hother)

theorem retain (h : t.Shows slots holds) (id : EntryId) : (t.retain id).Shows slots holds :=
  h.modifyEntry id fun _ => rfl

theorem forget (h : t.Shows slots holds) (id : EntryId) : (t.forget id).Shows slots holds :=
  h.modifyEntry id fun _ => rfl

theorem detach (h : t.Shows slots holds) (place : Nat) (id : EntryId) :
    (t.detach place id).Shows slots holds :=
  h.modifySlot place fun _ => rfl

theorem link (h : t.Shows slots holds) (place : Nat) (id : EntryId) :
    (t.link place id).Shows slots holds := by
  have hattached : (t.attach place id).Shows slots holds := h.modifySlot place fun _ => rfl
  exact ⟨hattached.slot, hattached.entry, hattached.made⟩

theorem unlink (h : t.Shows slots holds) (place : Nat) (id : EntryId) :
    (t.unlink place id).Shows slots holds :=
  have hdetached := h.detach place id
  ⟨hdetached.slot, hdetached.entry, hdetached.made⟩

theorem reclaim (h : t.Shows slots holds) : t.reclaim.2.Shows slots holds :=
  ⟨h.slot, h.entry, h.made⟩

/-! ## Holds on slots -/

theorem setSlot (h : t.Shows slots holds) {lock : Lock} {after : List Hold}
    (hplace : place < t.slots.size) (hlock : lock.word.Shows after) :
    (t.modifySlot place fun s => { s with lock }).Shows (update slots place after) holds where
  slot other := by
    rw [slot_modifySlot]
    by_cases hother : place = other
    · subst hother
      rw [if_pos ⟨rfl, hplace⟩, Function.update_self]
      exact hlock
    · rw [if_neg (not_and_of_not_left _ hother), Function.update_of_ne (Ne.symm hother)]
      exact h.slot other
  entry := h.entry
  made := h.made

theorem enterSlot (h : t.Shows slots holds) (hplace : place < t.slots.size)
    (hroom : sharedHolds (⟨thread, mode⟩ :: slots place) < fieldSize)
    (henter : t.enterSlot thread mode place = some t') :
    t'.Shows (update slots place (⟨thread, mode⟩ :: slots place)) holds := by
  obtain ⟨lock, hlock, rfl⟩ := Option.map_eq_some_iff.mp henter
  obtain ⟨word, hword, rfl⟩ := Option.map_eq_some_iff.mp hlock
  exact h.setSlot hplace ((h.slot place).acquire hword hroom)

theorem leaveSlot (h : t.Shows slots holds) (hplace : place < t.slots.size)
    (hmem : ⟨thread, mode⟩ ∈ slots place) :
    (t.leaveSlot thread mode place).Shows
      (update slots place ((slots place).erase ⟨thread, mode⟩)) holds := by
  obtain ⟨word, hword⟩ := (h.slot place).exists_release hmem
  have hlock : (t.slot place).lock.release mode thread =
      .ok { (t.slot place).lock with word } := by simp only [Lock.release, hword]
  rw [Table.leaveSlot, hlock]
  exact h.setSlot hplace ((h.slot place).release hmem hword)

/-- A hold that was taken on a slot at rest and is given up again leaves it at rest. -/
theorem leaveSlot_of_update (h : t.Shows (update (fun _ => []) place [⟨thread, mode⟩]) holds)
    (hplace : place < t.slots.size) : (t.leaveSlot thread mode place).AtRest holds := by
  have hmem : (⟨thread, mode⟩ : Hold) ∈
      update (fun _ : Nat => ([] : List Hold)) place [⟨thread, mode⟩] place := by simp
  simpa using h.leaveSlot hplace hmem

theorem exists_enterSlot (h : t.Shows slots holds) (place : Nat) (hfree : slots place = [])
    (thread : ThreadId) (mode : LockMode) : ∃ t', t.enterSlot thread mode place = some t' := by
  have hslot := h.slot place
  rw [hfree] at hslot
  obtain ⟨word, hword⟩ := hslot.acquire_of_nil mode thread
  simp [Table.enterSlot, Lock.acquire?, hword]

/-! ## Holds on entries -/

theorem setEntry (h : t.Shows slots holds) {lock : Lock} {after : List Hold}
    (hid : id < t.entries.size) (hlock : lock.word.Shows after) :
    (t.modifyEntry id fun e => { e with lock }).Shows slots (update holds id after) where
  slot := h.slot
  entry other e he := by
    rw [entryAt_modifyEntry] at he
    by_cases hother : id = other
    · subst hother
      rw [if_pos rfl] at he
      obtain ⟨e', -, rfl⟩ := Option.map_eq_some_iff.mp he
      rw [Function.update_self]
      exact hlock
    · rw [if_neg hother] at he
      rw [Function.update_of_ne (Ne.symm hother)]
      exact h.entry other e he
  made other hother := by
    have hsize : t.entries.size ≤ other := by simpa [Table.modifyEntry] using hother
    rw [Function.update_of_ne (hid.trans_le hsize).ne']
    exact h.made other hsize

theorem enterEntry (h : t.Shows slots holds)
    (hroom : sharedHolds (⟨thread, mode⟩ :: holds id) < fieldSize)
    (henter : t.enterEntry thread mode id = some t') :
    t'.Shows slots (update holds id (⟨thread, mode⟩ :: holds id)) := by
  simp only [Table.enterEntry, Option.bind_eq_bind, Option.bind_eq_some_iff, Option.pure_def,
    Option.some.injEq] at henter
  obtain ⟨e, he, lock, hlock, rfl⟩ := henter
  obtain ⟨word, hword, rfl⟩ := Option.map_eq_some_iff.mp hlock
  have hid := (Array.getElem?_eq_some_iff.mp he).1
  exact h.setEntry hid ((h.entry id e he).acquire hword hroom)

theorem leaveEntry (h : t.Shows slots holds) (hmem : ⟨thread, mode⟩ ∈ holds id) :
    (t.leaveEntry thread mode id).1 = .ok () ∧
      (t.leaveEntry thread mode id).2.Shows slots
        (update holds id ((holds id).erase ⟨thread, mode⟩)) := by
  have hid : id < t.entries.size := by
    by_contra hid
    rw [h.made id (not_lt.mp hid)] at hmem
    contradiction
  have he : t.entryAt id = some t.entries[id] := Array.getElem?_eq_getElem hid
  obtain ⟨word, hword⟩ := (h.entry id _ he).exists_release hmem
  have hlock : t.entries[id].lock.release mode thread =
      .ok { t.entries[id].lock with word } := by simp only [Lock.release, hword]
  rw [Table.leaveEntry, he]
  dsimp only
  rw [hlock]
  exact ⟨rfl, h.setEntry hid ((h.entry id _ he).release hmem hword)⟩

/-- A hold that was taken on an entry and is given up again. -/
theorem leaveEntry_of_update
    (h : t.Shows slots (update holds id (⟨thread, mode⟩ :: holds id))) :
    (t.leaveEntry thread mode id).1 = .ok () ∧
      (t.leaveEntry thread mode id).2.Shows slots holds := by
  have hmem : (⟨thread, mode⟩ : Hold) ∈ update holds id (⟨thread, mode⟩ :: holds id) id := by simp
  simpa using h.leaveEntry hmem

theorem exists_enterEntry (h : t.Shows slots holds) (hid : id < t.entries.size)
    (hfree : holds id = []) (thread : ThreadId) (mode : LockMode) :
    ∃ t', t.enterEntry thread mode id = some t' := by
  have he : t.entryAt id = some t.entries[id] := Array.getElem?_eq_getElem hid
  have hentry := h.entry id _ he
  rw [hfree] at hentry
  obtain ⟨word, hword⟩ := hentry.acquire_of_nil mode thread
  simp [Table.enterEntry, he, Lock.acquire?, hword]

/-- A new entry is held by the caller who has made it. -/
theorem adopt (h : t.Shows slots holds) (thread : ThreadId) (mode : LockMode) (e : Entry)
    (hfree : e.lock = .free) :
    (t.adopt thread mode e).Shows slots
      (update holds t.entries.size [⟨thread, mode⟩]) where
  slot := h.slot
  entry id e' he := by
    simp only [Table.adopt, entryAt, Array.getElem?_push] at he
    by_cases hid : id = t.entries.size
    · rw [if_pos hid] at he
      obtain rfl := Option.some.inj he
      have hnil : (LockWord.free).Shows [] := .free false
      obtain ⟨word, hword⟩ := hnil.acquire_of_nil mode thread
      rw [hid, Function.update_self]
      simp only [hfree, Lock.acquire?, Lock.free, hword, Option.map_some, Option.getD_some]
      exact hnil.acquire hword (sharedHolds_singleton_lt _)
    · rw [if_neg hid] at he
      rw [Function.update_of_ne hid]
      exact h.entry id e' he
  made id hid := by
    have hsize : t.entries.size + 1 ≤ id := by simpa [Table.adopt] using hid
    rw [Function.update_of_ne (Nat.lt_of_succ_le hsize).ne']
    exact h.made id (Nat.le_of_succ_le hsize)

/-! ## Calls -/

theorem overwritten (h : t.Shows slots holds) (id : EntryId) (value : Bytes) :
    (t.overwritten id value).Shows slots holds :=
  h.modifyEntry id fun _ => rfl

/-- A lookup leaves a hold on the entry that it has found. -/
theorem get (h : t.AtRest holds) (hs : t.Sound) {r : Except Error Handle}
    (hget : t.get thread key mode = some (r, t'))
    (hroom : ∀ id, sharedHolds (granted holds thread r id) < fieldSize) :
    t'.AtRest (granted holds thread r) := by
  obtain ⟨entered, henter, hget⟩ := get_cases hget
  have hplace := hs.placeOf_lt key
  have hentered := h.enterSlot hplace (sharedHolds_singleton_lt _) henter
  rw [← slots_size_eq (contents_enterSlot henter)] at hplace
  rcases hget with ⟨-, rfl, rfl⟩ | ⟨id, held, -, rfl, hentry, rfl⟩
  · exact hentered.leaveSlot_of_update hplace
  · have hheld := (hentered.retain id).enterEntry (by simpa [granted] using hroom id) hentry
    refine hheld.leaveSlot_of_update ?_
    rwa [slots_size_eq ((contents_enterEntry hentry).trans (contents_retain entered id))]

/-- Writing over an entry leaves a hold on it, in the mode that was asked for. -/
theorem overwrite (h : t.Shows slots holds) {r : Except Error Handle}
    (hover : t.overwrite thread id value mode = some (r, t'))
    (hroom : ∀ id, sharedHolds (granted holds thread r id) < fieldSize) :
    t'.Shows slots (granted holds thread r) := by
  obtain ⟨rfl, -⟩ := contents_overwrite hover
  have hroom' : sharedHolds (⟨thread, mode⟩ :: holds id) < fieldSize := by
    simpa [granted] using hroom id
  -- The exclusive hold in between takes no room among the shared ones.
  have hexclusive : sharedHolds (⟨thread, .exclusive⟩ :: holds id) < fieldSize := by
    refine lt_of_le_of_lt ?_ hroom'
    simp [sharedHolds, List.countP_cons]
  cases mode with
  | exclusive =>
      rw [overwrite_exclusive] at hover
      obtain ⟨entered, henter, hwritten⟩ := Option.map_eq_some_iff.mp hover
      obtain rfl := (Prod.mk.inj hwritten).2
      exact ((h.retain id).enterEntry hexclusive henter).overwritten id value
  | shared =>
      rw [overwrite_shared] at hover
      obtain ⟨entered, henter, hover⟩ := Option.bind_eq_some_iff.mp hover
      obtain ⟨held, hagain, hheld⟩ := Option.map_eq_some_iff.mp hover
      obtain rfl := (Prod.mk.inj hheld).2
      have hwritten := ((h.retain id).enterEntry hexclusive henter).overwritten id value
      exact (hwritten.leaveEntry_of_update).2.enterEntry hroom' hagain

/-- A slot that was held to put a new entry into it is at rest again, whether or not there was
memory for the entry. -/
theorem insert (h : t.Shows (update (fun _ => []) place [⟨thread, .exclusive⟩]) holds)
    (hplace : place < t.slots.size) {r : Except Error Handle}
    (hinsert : t.insert memory thread place key value mode = (r, t')) :
    t'.AtRest (granted holds thread r) := by
  rcases insert_cases hinsert with ⟨rfl, rfl, -⟩ | ⟨rfl, left, rfl, ht'⟩
  · exact h.leaveSlot_of_update hplace
  · have hlinked :=
      (h.adopt thread mode (.new (t.hash key) key value) rfl).link place t.entries.size
    have hleft := hlinked.leaveSlot_of_update (by simpa [Table.link, attach, countUp,
      Table.modifySlot, Table.adopt] using hplace)
    have hgranted : granted holds thread (.ok ⟨t.entries.size, mode⟩) =
        update holds t.entries.size [⟨thread, mode⟩] := by
      simp [granted, h.made]
    rw [hgranted]
    rcases ht' with rfl | rfl
    · exact hleft
    · exact hleft.reclaim

theorem replace (h : t.Shows (update (fun _ => []) place [⟨thread, .exclusive⟩]) holds)
    (hplace : place < t.slots.size) {r : Except Error Handle}
    (hreplace : t.replace memory thread place key value mode = some (r, t'))
    (hroom : ∀ id, sharedHolds (granted holds thread r id) < fieldSize) :
    t'.AtRest (granted holds thread r) := by
  rcases replace_cases hreplace with
    ⟨-, hinsert⟩ | ⟨id, -, ⟨-, written, hover, rfl⟩ | ⟨-, hinsert⟩⟩
  · exact h.insert hplace hinsert
  · refine (h.overwrite hover hroom).leaveSlot_of_update ?_
    rwa [slots_size_eq_of_overwrite hover]
  · refine (h.unlink place id).insert ?_ hinsert
    simpa [Table.unlink, Table.detach, countDown, retire, Table.modifySlot] using hplace

/-- Storing a value leaves a hold on the entry that has it. -/
theorem set (h : t.AtRest holds) (hs : t.Sound) {r : Except Error Handle}
    (hset : t.set memory thread key value mode = some (r, t'))
    (hroom : ∀ id, sharedHolds (granted holds thread r id) < fieldSize) :
    t'.AtRest (granted holds thread r) := by
  obtain ⟨entered, henter, hset⟩ := set_cases hset
  have hplace := hs.placeOf_lt key
  have hentered := h.enterSlot hplace (sharedHolds_singleton_lt _) henter
  rw [← slots_size_eq (contents_enterSlot henter)] at hplace
  rcases hset with ⟨id, written, -, -, hover, rfl⟩ | ⟨again, hagain, hreplace⟩
  · refine (hentered.overwrite hover hroom).leaveSlot_of_update ?_
    rwa [slots_size_eq_of_overwrite hover]
  · have hleft := hentered.leaveSlot_of_update hplace
    rw [← slots_size_eq (contents_leaveSlot entered thread .shared (t.placeOf key))] at hplace
    have hentered₂ := hleft.enterSlot hplace (sharedHolds_singleton_lt _) hagain
    refine hentered₂.replace ?_ hreplace hroom
    rwa [slots_size_eq (contents_enterSlot hagain)]

/-- A handle that is released takes its hold with it, and its release is not refused. -/
theorem release (h : t.AtRest holds) {handle : Handle}
    (hmem : ⟨thread, handle.mode⟩ ∈ holds handle.id) :
    (t.release thread handle).1 = .ok () ∧
      (t.release thread handle).2.AtRest
        (update holds handle.id ((holds handle.id).erase ⟨thread, handle.mode⟩)) := by
  obtain ⟨hok, hleft⟩ := h.leaveEntry hmem
  exact ⟨hok, hleft.forget handle.id⟩

/-! ## Calls that need not wait -/

theorem exists_get (h : t.AtRest fun _ => []) (hs : t.Sound) (thread : ThreadId) (key : Bytes)
    (mode : LockMode) : ∃ r t', t.get thread key mode = some (r, t') := by
  obtain ⟨t₁, henter⟩ := h.exists_enterSlot (t.placeOf key) rfl thread .shared
  have hcontents := contents_enterSlot henter
  have hentered := h.enterSlot (hs.placeOf_lt key) (sharedHolds_singleton_lt _) henter
  simp only [Table.get, henter, Option.bind_eq_bind, Option.bind_some]
  cases hfind : t₁.find? (t.placeOf key) key with
  | none => exact ⟨_, _, rfl⟩
  | some id =>
      rw [find?_eq hcontents] at hfind
      have hid := hs.lt_of_entryOf hfind
      rw [← entries_size_eq (hcontents ▸ contents_retain t₁ id)] at hid
      obtain ⟨t₂, hentry⟩ := (hentered.retain id).exists_enterEntry hid rfl thread mode
      simp [hentry]

theorem exists_overwrite (h : t.Shows slots fun _ => []) (hid : id < t.entries.size)
    (thread : ThreadId) (value : Bytes) (mode : LockMode) :
    ∃ r t', t.overwrite thread id value mode = some (r, t') := by
  have hretained := h.retain id
  have hid' : id < (t.retain id).entries.size := by rwa [entries_size_eq (contents_retain t id)]
  obtain ⟨entered, henter⟩ := hretained.exists_enterEntry hid' rfl thread .exclusive
  have hentered := hretained.enterEntry (sharedHolds_singleton_lt _) henter
  cases mode with
  | exclusive => exact ⟨_, _, by rw [overwrite_exclusive, henter, Option.map_some]⟩
  | shared =>
      have hleft := (hentered.overwritten id value).leaveEntry_of_update.2
      have hsize : id < ((entered.overwritten id value).leaveEntry thread .exclusive
          id).2.entries.size := by
        rw [entries_size_eq (contents_leaveEntry _ _ _ _)]
        simpa [Table.overwritten, Table.modifyEntry, entries_size_eq (contents_enterEntry henter)]
          using hid'
      obtain ⟨held, hagain⟩ := hleft.exists_enterEntry hsize rfl thread .shared
      exact ⟨_, _, by rw [overwrite_shared, henter, Option.bind_some, hagain, Option.map_some]⟩

theorem exists_replace (h : t.Shows slots fun _ => []) (hs : t.Sound) (memory : Allocator)
    (thread : ThreadId) (key value : Bytes) (mode : LockMode) :
    ∃ r t', t.replace memory thread (t.placeOf key) key value mode = some (r, t') := by
  rw [Table.replace]
  cases hfind : t.find? (t.placeOf key) key with
  | none => exact ⟨_, _, rfl⟩
  | some id =>
      by_cases hfits : value.length ≤ t.capacityOf id
      · obtain ⟨r, t₁, hover⟩ := h.exists_overwrite (hs.lt_of_entryOf hfind) thread value mode
        simp [hfits, hover]
      · exact ⟨_, _, if_neg hfits⟩

theorem exists_set (h : t.AtRest fun _ => []) (hs : t.Sound) (memory : Allocator)
    (thread : ThreadId) (key value : Bytes) (mode : LockMode) :
    ∃ r t', t.set memory thread key value mode = some (r, t') := by
  obtain ⟨t₁, henter⟩ := h.exists_enterSlot (t.placeOf key) rfl thread .shared
  have hcontents := contents_enterSlot henter
  have hplace := hs.placeOf_lt key
  have hentered := h.enterSlot hplace (sharedHolds_singleton_lt _) henter
  simp only [Table.set, henter, Option.bind_eq_bind, Option.bind_some]
  cases hfitting : t₁.findFitting? (t.placeOf key) key value.length with
  | some id =>
      have hfind := (Option.filter_eq_some_iff.mp hfitting).1
      rw [find?_eq hcontents] at hfind
      have hid := hs.lt_of_entryOf hfind
      rw [← entries_size_eq hcontents] at hid
      obtain ⟨r, t₂, hover⟩ := hentered.exists_overwrite hid thread value mode
      simp [hover]
  | none =>
      have hplace₁ : t.placeOf key < t₁.slots.size := by rwa [slots_size_eq hcontents]
      have hleft := hentered.leaveSlot_of_update hplace₁
      obtain ⟨t₂, hagain⟩ := hleft.exists_enterSlot (t.placeOf key) rfl thread .exclusive
      have hcontents₂ : t₂.contents = t.contents := by
        rw [contents_enterSlot hagain, contents_leaveSlot, hcontents]
      have hplace₂ : t.placeOf key <
          (t₁.leaveSlot thread .shared (t.placeOf key)).slots.size := by
        rwa [slots_size_eq (contents_leaveSlot _ _ _ _)]
      have hentered₂ := hleft.enterSlot hplace₂ (sharedHolds_singleton_lt _) hagain
      obtain ⟨r, t', hreplace⟩ := hentered₂.exists_replace (hs.of_contents_eq hcontents₂) memory
        thread key value mode
      rw [placeOf_eq hcontents₂] at hreplace
      exact ⟨r, t', by simp [hagain, hreplace]⟩

end Shows

theorem atRest_of_new {memory : Allocator} {hash : Bytes → UInt64} {slotBits maxShards : Nat}
    {t : Table} (h : new memory hash slotBits maxShards = .ok t) : t.AtRest fun _ => [] where
  slot place := by
    rw [slot_of_new h]
    exact .free false
  entry id e he := by simp [eq_of_new h, entryAt] at he
  made _ _ := rfl

end Table

end KeyValueServer
