import KeyValueServer.Proofs.Store.Holds
import KeyValueServer.Store.Dump

/-!
# Locks that nobody waits for

Only a thread that has to wait marks a lock. The calls here never wait, so they leave no marks, and
without a mark the word of a lock that was taken and given up again is the word it was before.
Reading all chains for the trace therefore leaves a table at rest as it was.
-/

namespace KeyValueServer

namespace LockWord

variable {w next : LockWord} {mode : LockMode} {thread : ThreadId}

theorem waiters_acquire (hw : w.waiters = false) (h : w.acquire? mode thread = some next) :
    next.waiters = false :=
  (marks_acquire h).2.trans hw

theorem waiters_release (hw : w.waiters = false) (h : w.release mode thread = .ok next) :
    next.waiters = false := by
  rcases marks_release h with rfl | ⟨-, hsame⟩
  · rfl
  · exact hsame.trans hw

theorem Shows.eq_free (h : w.Shows []) (hw : w.waiters = false) : w = .free := by
  cases h with
  | free =>
      obtain rfl : _ = false := hw
      rfl
  | shared _ hne => contradiction

end LockWord

theorem Lock.waiters_acquire {lock next : Lock} {mode : LockMode} {thread : ThreadId}
    (hlock : lock.word.waiters = false) (h : lock.acquire? mode thread = some next) :
    next.word.waiters = false := by
  obtain ⟨word, hword, rfl⟩ := Option.map_eq_some_iff.mp h
  exact LockWord.waiters_acquire hlock hword

theorem Lock.waiters_release {lock next : Lock} {mode : LockMode} {thread : ThreadId}
    (hlock : lock.word.waiters = false) (h : lock.release mode thread = .ok next) :
    next.word.waiters = false := by
  simp only [Lock.release] at h
  split at h
  next word hword =>
    obtain rfl := Except.ok.inj h
    exact LockWord.waiters_release hlock hword
  · contradiction

namespace Table

/-- No lock of the table has the mark of waiters. -/
structure Unmarked (t : Table) : Prop where
  slot : ∀ place, (t.slot place).lock.word.waiters = false
  entry : ∀ id e, t.entryAt id = some e → e.lock.word.waiters = false

namespace Unmarked

variable {t t' : Table} {thread : ThreadId} {mode : LockMode} {place : Nat} {id : EntryId}
  {memory : Allocator} {key value : Bytes} {r : Except Error Handle}

theorem modifySlot (h : t.Unmarked) (place : Nat) {f : Slot → Slot}
    (hf : (f (t.slot place)).lock.word.waiters = false) : (t.modifySlot place f).Unmarked where
  slot other := by
    rw [slot_modifySlot]
    split
    next hplace => exact hplace.1 ▸ hf
    · exact h.slot other
  entry := h.entry

theorem modifyEntry (h : t.Unmarked) (id : EntryId) {f : Entry → Entry}
    (hf : ∀ e, t.entryAt id = some e → (f e).lock.word.waiters = false) :
    (t.modifyEntry id f).Unmarked where
  slot := h.slot
  entry other e he := by
    rw [entryAt_modifyEntry] at he
    split at he
    next hid =>
      subst hid
      obtain ⟨e', he', rfl⟩ := Option.map_eq_some_iff.mp he
      exact hf e' he'
    · exact h.entry other e he

theorem enterSlot (h : t.Unmarked) (henter : t.enterSlot thread mode place = some t') :
    t'.Unmarked := by
  obtain ⟨lock, hlock, rfl⟩ := Option.map_eq_some_iff.mp henter
  exact h.modifySlot place (Lock.waiters_acquire (h.slot place) hlock)

theorem leaveSlot (h : t.Unmarked) (thread : ThreadId) (mode : LockMode) (place : Nat) :
    (t.leaveSlot thread mode place).Unmarked := by
  unfold Table.leaveSlot
  split
  next lock hlock => exact h.modifySlot place (Lock.waiters_release (h.slot place) hlock)
  · exact h

theorem enterEntry (h : t.Unmarked) (henter : t.enterEntry thread mode id = some t') :
    t'.Unmarked := by
  simp only [Table.enterEntry, Option.bind_eq_bind, Option.bind_eq_some_iff, Option.pure_def,
    Option.some.injEq] at henter
  obtain ⟨e, he, lock, hlock, rfl⟩ := henter
  exact h.modifyEntry id fun _ _ => Lock.waiters_acquire (h.entry id e he) hlock

theorem leaveEntry (h : t.Unmarked) (thread : ThreadId) (mode : LockMode) (id : EntryId) :
    (t.leaveEntry thread mode id).2.Unmarked := by
  unfold Table.leaveEntry
  split
  · exact h
  next e he =>
    split
    next lock hlock =>
      exact h.modifyEntry id fun _ _ => Lock.waiters_release (h.entry id e he) hlock
    · exact h

theorem retain (h : t.Unmarked) (id : EntryId) : (t.retain id).Unmarked :=
  h.modifyEntry id fun e he => h.entry id e he

theorem forget (h : t.Unmarked) (id : EntryId) : (t.forget id).Unmarked :=
  h.modifyEntry id fun e he => h.entry id e he

theorem overwritten (h : t.Unmarked) (id : EntryId) (value : Bytes) :
    (t.overwritten id value).Unmarked :=
  h.modifyEntry id fun e he => h.entry id e he

theorem link (h : t.Unmarked) (place : Nat) (id : EntryId) : (t.link place id).Unmarked :=
  have hattached : (t.attach place id).Unmarked := h.modifySlot place (h.slot place)
  ⟨hattached.slot, hattached.entry⟩

theorem unlink (h : t.Unmarked) (place : Nat) (id : EntryId) : (t.unlink place id).Unmarked :=
  have hdetached : (t.detach place id).Unmarked := h.modifySlot place (h.slot place)
  ⟨hdetached.slot, hdetached.entry⟩

theorem reclaim (h : t.Unmarked) : t.reclaim.2.Unmarked := ⟨h.slot, h.entry⟩

theorem adopt (h : t.Unmarked) (thread : ThreadId) (mode : LockMode) (e : Entry)
    (hfree : e.lock = .free) : (t.adopt thread mode e).Unmarked where
  slot := h.slot
  entry id e' he := by
    simp only [Table.adopt, entryAt, Array.getElem?_push] at he
    split at he
    · obtain rfl := Option.some.inj he
      cases hlock : e.lock.acquire? mode thread with
      | none => rw [Option.getD_none, hfree]; rfl
      | some lock => exact Lock.waiters_acquire (by rw [hfree]; rfl) hlock
    · exact h.entry id e' he

/-! ## Calls -/

theorem get (h : t.Unmarked) (hget : t.get thread key mode = some (r, t')) : t'.Unmarked := by
  obtain ⟨entered, henter, ⟨-, -, rfl⟩ | ⟨id, held, -, -, hentry, rfl⟩⟩ := get_cases hget
  · exact (h.enterSlot henter).leaveSlot thread .shared _
  · exact (((h.enterSlot henter).retain id).enterEntry hentry).leaveSlot thread .shared _

theorem overwrite (h : t.Unmarked) (hover : t.overwrite thread id value mode = some (r, t')) :
    t'.Unmarked := by
  cases mode with
  | exclusive =>
      rw [overwrite_exclusive, Option.map_eq_some_iff] at hover
      obtain ⟨entered, henter, hwritten⟩ := hover
      obtain rfl := (Prod.mk.inj hwritten).2
      exact ((h.retain id).enterEntry henter).overwritten id value
  | shared =>
      rw [overwrite_shared, Option.bind_eq_some_iff] at hover
      obtain ⟨entered, henter, hover⟩ := hover
      obtain ⟨held, hagain, hheld⟩ := Option.map_eq_some_iff.mp hover
      obtain rfl := (Prod.mk.inj hheld).2
      have hwritten := ((h.retain id).enterEntry henter).overwritten id value
      exact (hwritten.leaveEntry thread .exclusive id).enterEntry hagain

theorem insert (h : t.Unmarked)
    (hinsert : t.insert memory thread place key value mode = (r, t')) : t'.Unmarked := by
  rcases insert_cases hinsert with ⟨-, rfl, -⟩ | ⟨-, left, rfl, ht'⟩
  · exact h.leaveSlot thread .exclusive place
  · have hleft := ((h.adopt thread mode (.new (t.hash key) key value) rfl).link place
      t.entries.size).leaveSlot thread .exclusive place
    rcases ht' with rfl | rfl
    · exact hleft
    · exact hleft.reclaim

theorem replace (h : t.Unmarked)
    (hreplace : t.replace memory thread place key value mode = some (r, t')) : t'.Unmarked := by
  rcases replace_cases hreplace with
    ⟨-, hinsert⟩ | ⟨id, -, ⟨-, written, hover, rfl⟩ | ⟨-, hinsert⟩⟩
  · exact h.insert hinsert
  · exact (h.overwrite hover).leaveSlot thread .exclusive place
  · exact (h.unlink place id).insert hinsert

theorem set (h : t.Unmarked) (hset : t.set memory thread key value mode = some (r, t')) :
    t'.Unmarked := by
  obtain ⟨entered, henter, ⟨id, written, -, -, hover, rfl⟩ | ⟨again, hagain, hreplace⟩⟩ :=
    set_cases hset
  · exact ((h.enterSlot henter).overwrite hover).leaveSlot thread .shared _
  · exact (((h.enterSlot henter).leaveSlot thread .shared _).enterSlot hagain).replace hreplace

theorem release (h : t.Unmarked) (thread : ThreadId) (handle : Handle) :
    (t.release thread handle).2.Unmarked :=
  (h.leaveEntry thread handle.mode handle.id).forget handle.id

end Unmarked

theorem unmarked_of_new {memory : Allocator} {hash : Bytes → UInt64} {slotBits maxShards : Nat}
    {t : Table} (h : new memory hash slotBits maxShards = .ok t) : t.Unmarked where
  slot place := by
    rw [slot_of_new h]
    rfl
  entry id e he := by simp [eq_of_new h, entryAt] at he

/-! ## Reading all chains -/

variable {t : Table} {thread : ThreadId} {place : Nat}

theorem slot_of_lt (hplace : place < t.slots.size) : t.slot place = t.slots[place] := by
  rw [slot, Array.getElem?_eq_getElem hplace, Option.getD_some]

/-- Locking a slot twice, and with its own lock at last, changes nothing. -/
theorem modifySlot_modifySlot (hplace : place < t.slots.size) (lock : Lock) :
    ((t.modifySlot place fun s => { s with lock }).modifySlot place fun s =>
      { s with lock := (t.slot place).lock }) = t := by
  have hslots : ((t.slots.modify place fun s => { s with lock }).modify place fun s =>
      { s with lock := (t.slot place).lock }) = t.slots := by
    refine Array.ext (by simp) fun i _ hi => ?_
    simp only [Array.getElem_modify, slot_of_lt hplace]
    by_cases hsame : place = i
    · subst hsame
      simp
    · simp [hsame]
  simp only [modifySlot, hslots]

/-- A slot that is free is the same after a shared hold on it. -/
theorem exists_enterSlot_leaveSlot (hplace : place < t.slots.size)
    (hfree : (t.slot place).lock.word = .free) (thread : ThreadId) :
    ∃ entered, t.enterSlot thread .shared place = some entered ∧
      entered.linkedAt place = t.linkedAt place ∧ entered.leaveSlot thread .shared place = t := by
  obtain ⟨word, hword⟩ := LockWord.Shows.acquire_of_nil (.free false) .shared thread
  have hback : word.release .shared thread = .ok .free := by
    obtain rfl := Option.some.inj hword
    rfl
  have hlock : (t.slot place).lock.acquire? .shared thread =
      some { (t.slot place).lock with word } := by
    rw [Lock.acquire?, hfree, LockWord.free, hword]
    rfl
  have hentered := t.slot_modifySlot place place fun s =>
    { s with lock := { (t.slot place).lock with word } }
  rw [if_pos ⟨rfl, hplace⟩] at hentered
  refine ⟨_, by rw [enterSlot, hlock, Option.map_some], by rw [linkedAt, hentered]; rfl, ?_⟩
  have hleft : ({ (t.slot place).lock with word } : Lock).release .shared thread =
      .ok (t.slot place).lock := by
    simp only [Lock.release, hback, ← hfree]
  simp only [leaveSlot, hentered, hleft]
  exact modifySlot_modifySlot hplace _

/-- Reading chains under holds on free slots gives their entries and changes nothing. -/
theorem visit_of_free (hfree : ∀ place, (t.slot place).lock.word = .free) (thread : ThreadId)
    {places : List Nat} (hplaces : ∀ place ∈ places, place < t.slots.size) :
    t.visit thread places = some (places.flatMap t.linkedAt, t) := by
  induction places with
  | nil => rfl
  | cons place rest ih =>
      obtain ⟨entered, henter, hlinked, hleave⟩ :=
        exists_enterSlot_leaveSlot (hplaces place List.mem_cons_self) (hfree place) thread
      have hrest := ih fun other hother => hplaces other (List.mem_cons_of_mem place hother)
      simp only [visit, henter, hleave, hrest, hlinked, Option.bind_eq_bind, Option.bind_some,
        List.flatMap_cons, Option.pure_def]

theorem flatMap_linkedAt (t : Table) :
    (List.range t.slots.size).flatMap t.linkedAt = t.linked := by
  have hslots : (List.range t.slots.size).map t.slot = t.slots.toList := by
    refine List.ext_getElem (by simp) fun i hi hi' => ?_
    rw [List.getElem_map, List.getElem_range, slot_of_lt (by simpa using hi)]
    rfl
  rw [linked, ← hslots, List.flatMap_map]
  rfl

/-- A table at rest that nobody waits for is traced in full and left as it is. -/
theorem dump_of_free (hfree : ∀ place, (t.slot place).lock.word = .free) (thread : ThreadId)
    (tracing : Bool) :
    t.dump thread tracing =
      some (if tracing then t.describe :: t.linked.map Entry.describe else [], t) := by
  cases tracing with
  | false => rfl
  | true =>
      have hvisit := visit_of_free hfree thread fun place hplace => List.mem_range.mp hplace
      simp only [dump, hvisit, flatMap_linkedAt, Option.bind_eq_bind, Option.bind_some, if_true,
        Option.pure_def]

theorem resize_of_free (hfree : ∀ place, (t.slot place).lock.word = .free) (thread : ThreadId)
    (tracing : Bool) : t.resize thread tracing = some (.ok (), t) := by
  simp only [resize, grow, dump_of_free hfree, Option.map_some]

end Table

end KeyValueServer
