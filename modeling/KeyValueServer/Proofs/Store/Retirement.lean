import KeyValueServer.Proofs.Store.Pins
import KeyValueServer.Proofs.Store.Records

/-!
# The balance of retired entries

Every record retires one entry, and every retired entry is either still in the queue or was freed,
by a call to reclaim or by a set that has linked a new entry while 64 or more were retired. Entries
to which there are handles stay in the queue however often it is gone through.

A set does not say how many entries it has freed. The counted calls here do, and apart from the
count they are the calls of the table.
-/

namespace KeyValueServer

open Function (update)

namespace Table

/-! ## Counted calls -/

/-- Free what can be freed if enough entries are retired, and count it. -/
def trim (t : Table) : Nat × Table :=
  if reclaimThreshold ≤ t.retired.length then t.reclaim else (0, t)

/-- `Table.insert`, preceded by the number of entries that it frees. -/
def insertCounted (t : Table) (memory : Allocator) (thread : ThreadId) (place : Nat)
    (key value : Bytes) (mode : LockMode) : Nat × Except Error Handle × Table :=
  match Entry.allocate memory (t.hash key) key value with
  | .error e => (0, .error e, t.leaveSlot thread .exclusive place)
  | .ok entry =>
      let id := t.entries.size
      let trimmed := (((t.adopt thread mode entry).link place id).leaveSlot thread .exclusive
        place).trim
      (trimmed.1, .ok ⟨id, mode⟩, trimmed.2)

/-- `Table.replace`, preceded by the number of entries that it frees. -/
def replaceCounted (t : Table) (memory : Allocator) (thread : ThreadId) (place : Nat)
    (key value : Bytes) (mode : LockMode) : Option (Nat × Except Error Handle × Table) :=
  match t.find? place key with
  | none => some (t.insertCounted memory thread place key value mode)
  | some id =>
      if value.length ≤ t.capacityOf id then do
        let (result, t) ← t.overwrite thread id value mode
        pure (0, result, t.leaveSlot thread .exclusive place)
      else some ((t.unlink place id).insertCounted memory thread place key value mode)

/-- `Table.set`, preceded by the number of entries that it frees. -/
def setCounted (t : Table) (memory : Allocator) (thread : ThreadId) (key value : Bytes)
    (mode : LockMode) : Option (Nat × Except Error Handle × Table) := do
  let place := t.placeOf key
  let t ← t.enterSlot thread .shared place
  match t.findFitting? place key value.length with
  | some id =>
      let (result, t) ← t.overwrite thread id value mode
      pure (0, result, t.leaveSlot thread .shared place)
  | none =>
      let t ← (t.leaveSlot thread .shared place).enterSlot thread .exclusive place
      t.replaceCounted memory thread place key value mode

variable {t t' : Table} {memory : Allocator} {thread : ThreadId} {key value : Bytes}
  {mode : LockMode} {place : Nat} {id : EntryId} {freed : Nat} {r : Except Error Handle}

theorem insertCounted_snd (t : Table) (memory : Allocator) (thread : ThreadId) (place : Nat)
    (key value : Bytes) (mode : LockMode) :
    (t.insertCounted memory thread place key value mode).2 =
      t.insert memory thread place key value mode := by
  simp only [insertCounted, insert]
  cases Entry.allocate memory (t.hash key) key value with
  | error => rfl
  | ok entry =>
      simp only [trim, Prod.mk.injEq, true_and]
      split <;> rfl

theorem map_snd_replaceCounted (t : Table) (memory : Allocator) (thread : ThreadId) (place : Nat)
    (key value : Bytes) (mode : LockMode) :
    (t.replaceCounted memory thread place key value mode).map Prod.snd =
      t.replace memory thread place key value mode := by
  simp only [replaceCounted, replace]
  cases t.find? place key with
  | none => simp [insertCounted_snd]
  | some id =>
      dsimp only
      split
      · cases t.overwrite thread id value mode <;> rfl
      · simp [insertCounted_snd]

/-- Without the count a counted set is a set. -/
theorem map_snd_setCounted (t : Table) (memory : Allocator) (thread : ThreadId)
    (key value : Bytes) (mode : LockMode) :
    (t.setCounted memory thread key value mode).map Prod.snd =
      t.set memory thread key value mode := by
  simp only [setCounted, set, Option.bind_eq_bind, Option.map_bind]
  refine Option.bind_congr fun entered _ => ?_
  rw [Function.comp_apply]
  cases entered.findFitting? (t.placeOf key) key value.length with
  | some id =>
      dsimp only
      cases entered.overwrite thread id value mode <;> rfl
  | none =>
      dsimp only
      rw [Option.map_bind]
      exact Option.bind_congr fun again _ => again.map_snd_replaceCounted ..

theorem set_of_setCounted (h : t.setCounted memory thread key value mode = some (freed, r, t')) :
    t.set memory thread key value mode = some (r, t') := by
  rw [← map_snd_setCounted, h, Option.map_some]

/-! ## What a set does to the queue -/

/-- The queue of retired entries was this, and then what could be freed was freed if the queue was
long enough. -/
structure Trims (queue : List EntryId) (freed : Nat) (t : Table) : Prop where
  short : queue.length < reclaimThreshold → t.retired = queue ∧ freed = 0
  long : reclaimThreshold ≤ queue.length →
    t.retired = queue.filter t.isReferenced ∧
      freed = (queue.filter fun id => !t.isReferenced id).length

theorem trims_trim (t : Table) : Trims t.retired t.trim.1 t.trim.2 where
  short hshort := by
    rw [trim, if_neg (not_le.mpr hshort)]
    exact ⟨rfl, rfl⟩
  long hlong := by
    rw [trim, if_pos hlong]
    exact ⟨rfl, t.reclaim_fst⟩

/-- No entry is lost or counted twice. -/
theorem Trims.length_add {queue : List EntryId} (h : Trims queue freed t) :
    t.retired.length + freed = queue.length := by
  rcases lt_or_ge queue.length reclaimThreshold with hshort | hlong
  · obtain ⟨hretired, rfl⟩ := h.short hshort
    rw [hretired, Nat.add_zero]
  · obtain ⟨hretired, rfl⟩ := h.long hlong
    rw [hretired]
    exact (queue.length_eq_length_filter_add t.isReferenced).symm

/-- What is left is little or cannot be freed. -/
theorem Trims.bound {queue : List EntryId} (h : Trims queue freed t) :
    t.retired.length < reclaimThreshold ∨ ∀ id ∈ t.retired, t.isReferenced id = true := by
  rcases lt_or_ge queue.length reclaimThreshold with hshort | hlong
  · exact .inl ((h.short hshort).1 ▸ hshort)
  · refine .inr fun id hid => ?_
    rw [(h.long hlong).1] at hid
    exact (List.mem_filter.mp hid).2

@[simp] theorem retired_release (t : Table) (thread : ThreadId) (h : Handle) :
    (t.release thread h).2.retired = t.retired :=
  t.retired_leaveEntry thread h.mode h.id

theorem retired_get (h : t.get thread key mode = some (r, t')) : t'.retired = t.retired := by
  obtain ⟨entered, henter, ⟨-, -, rfl⟩ | ⟨id, held, -, -, hentry, rfl⟩⟩ := get_cases h
  · rw [retired_leaveSlot, retired_enterSlot henter]
  · rw [retired_leaveSlot, retired_enterEntry hentry, ← retired_enterSlot henter]
    rfl

theorem retired_overwrite (h : t.overwrite thread id value mode = some (r, t')) :
    t'.retired = t.retired := by
  cases mode with
  | exclusive =>
      rw [overwrite_exclusive, Option.map_eq_some_iff] at h
      obtain ⟨entered, henter, h⟩ := h
      obtain rfl := (Prod.mk.inj h).2
      exact (retired_enterEntry henter :)
  | shared =>
      rw [overwrite_shared, Option.bind_eq_some_iff] at h
      obtain ⟨entered, henter, h⟩ := h
      obtain ⟨held, hagain, h⟩ := Option.map_eq_some_iff.mp h
      obtain rfl := (Prod.mk.inj h).2
      rw [retired_enterEntry hagain, retired_leaveEntry]
      exact (retired_enterEntry henter :)

/-- Putting a new entry into its slot leaves the queue of retired entries trimmed. -/
theorem trims_insertCounted
    (h : t.insertCounted unlimited thread place key value mode = (freed, r, t')) :
    Trims t.retired freed t' := by
  have hallocate : Entry.allocate unlimited (t.hash key) key value =
      .ok (.new (t.hash key) key value) := rfl
  simp only [insertCounted, hallocate, Prod.mk.injEq] at h
  obtain ⟨rfl, -, rfl⟩ := h
  have htrims := trims_trim (((t.adopt thread mode (.new (t.hash key) key value)).link place
    t.entries.size).leaveSlot thread .exclusive place)
  rwa [retired_leaveSlot] at htrims

/-- A value that fits the entry of its key frees and retires nothing. -/
theorem setCounted_of_fits (hfind : t.entryOf key = some id)
    (hfits : value.length ≤ t.capacityOf id)
    (h : t.setCounted memory thread key value mode = some (freed, r, t')) :
    freed = 0 ∧ t'.retired = t.retired := by
  simp only [setCounted, Option.bind_eq_bind, Option.bind_eq_some_iff] at h
  obtain ⟨entered, henter, h⟩ := h
  have hcontents := contents_enterSlot henter
  have hfitting : entered.findFitting? (t.placeOf key) key value.length = some id := by
    rw [findFitting?, find?_eq hcontents, Option.filter_eq_some_iff, capacityOf_eq hcontents]
    exact ⟨hfind, by simpa using hfits⟩
  simp only [hfitting, Option.bind_eq_some_iff, Option.pure_def, Option.some.injEq,
    Prod.mk.injEq, Prod.exists] at h
  obtain ⟨result, written, hover, rfl, -, rfl⟩ := h
  exact ⟨rfl, by rw [retired_leaveSlot, retired_overwrite hover, retired_enterSlot henter]⟩

/-- A value that fits no entry of its key gets a new entry. The old one, if there is one, is
retired first, and then the queue is trimmed. -/
theorem setCounted_of_not_fits (hlarge : ∀ id, t.entryOf key = some id →
      t.capacityOf id < value.length)
    (h : t.setCounted unlimited thread key value mode = some (freed, r, t')) :
    Trims (t.retired ++ (t.entryOf key).toList) freed t' := by
  simp only [setCounted, Option.bind_eq_bind, Option.bind_eq_some_iff] at h
  obtain ⟨entered, henter, h⟩ := h
  have hcontents := contents_enterSlot henter
  have hfitting : entered.findFitting? (t.placeOf key) key value.length = none := by
    rw [findFitting?, find?_eq hcontents, Option.filter_eq_none_iff]
    intro id hid
    rw [capacityOf_eq hcontents]
    simpa using hlarge id hid
  simp only [hfitting, Option.bind_eq_some_iff] at h
  obtain ⟨again, hagain, h⟩ := h
  have hcontents₂ : again.contents = t.contents := by
    rw [contents_enterSlot hagain, contents_leaveSlot, hcontents]
  have hretired : again.retired = t.retired := by
    rw [retired_enterSlot hagain, retired_leaveSlot, retired_enterSlot henter]
  have hfind : again.find? (t.placeOf key) key = t.entryOf key := find?_eq hcontents₂ _ _
  rw [replaceCounted, hfind] at h
  cases hentry : t.entryOf key with
  | none =>
      simp only [hentry, Option.some.injEq] at h
      rw [Option.toList_none, List.append_nil, ← hretired]
      exact trims_insertCounted h
  | some id =>
      have hnot : ¬value.length ≤ again.capacityOf id := by
        rw [capacityOf_eq hcontents₂]
        exact not_le.mpr (hlarge id hentry)
      simp only [hentry, hnot, if_false, Option.some.injEq] at h
      rw [Option.toList_some, ← hretired]
      exact trims_insertCounted h

end Table

/-! ## Sessions with an account -/

/-- A session, and how many entries all its calls have freed. -/
structure Account where
  session : Session
  freed : Nat

namespace Account

/-- Nothing was freed yet. -/
def opened (table : Table) : Account := ⟨.opened table, 0⟩

/-- The account after a move of its session. -/
def perform (a : Account) : TableMove → Option Account
  | .set thread key value mode =>
      (a.session.table.setCounted unlimited thread key value mode).map fun returned =>
        ⟨a.session.keep thread returned.2, a.freed + returned.1⟩
  | .reclaim =>
      some ⟨{ a.session with table := a.session.table.reclaim.2 },
        a.freed + a.session.table.reclaim.1⟩
  | m => (a.session.perform m).map fun s => ⟨s, a.freed⟩

/-- The account after a list of moves. -/
def run (a : Account) (moves : List TableMove) : Option Account := moves.foldlM perform a

variable {a a' : Account} {m : TableMove} {moves earlier : List TableMove}

theorem map_session_perform (a : Account) (m : TableMove) :
    (a.perform m).map session = a.session.perform m := by
  cases m with
  | set thread key value mode =>
      rw [Session.perform, ← Table.map_snd_setCounted, Account.perform, Option.map_map,
        Option.map_map]
      rfl
  | reclaim => rfl
  | get thread key mode => simp [Account.perform, Function.comp_def]
  | release thread handle => simp [Account.perform, Function.comp_def]

/-- The account of a run goes with the run of its session. -/
theorem map_session_run (a : Account) (moves : List TableMove) :
    (a.run moves).map session = a.session.run moves := by
  induction moves generalizing a with
  | nil => rfl
  | cons m rest ih =>
      rw [run, List.foldlM_cons, Session.run, List.foldlM_cons, ← map_session_perform,
        Option.bind_eq_bind, Option.bind_eq_bind, Option.map_bind, Option.bind_map]
      exact Option.bind_congr fun next _ => ih next

/-- What holds of the account of a run. -/
structure Keeps (moves : List TableMove) (a : Account) : Prop where
  sound : a.session.table.Sound
  pins : a.session.table.Pins fun id => (a.session.holds id).length
  room : a.session.table.roomFor = longest moves
  balance : a.session.table.retired.length + a.freed = records moves

end Account

namespace Session

variable {s s' : Session} {m : TableMove}

/-- The references to entries are the handles that callers keep. -/
theorem pins_perform (h : s.perform m = some s') (hs : s.table.Sound)
    (hpins : s.table.Pins fun id => (s.holds id).length) :
    s'.table.Pins fun id => (s'.holds id).length := by
  cases m with
  | get thread key mode =>
      obtain ⟨⟨r, t'⟩, hget, rfl⟩ := Option.map_eq_some_iff.mp h
      simp only [keep, length_granted]
      exact hpins.get hs hget
  | set thread key value mode =>
      obtain ⟨⟨r, t'⟩, hset, rfl⟩ := Option.map_eq_some_iff.mp h
      simp only [keep, length_granted]
      exact hpins.set hs hset
  | release thread handle =>
      simp only [perform] at h
      split at h
      next hmem =>
        obtain rfl := Option.some.inj h
        have hlength : (fun id => (update s.holds handle.id
            ((s.holds handle.id).erase ⟨thread, handle.mode⟩) id).length) =
            update (fun id => (s.holds id).length) handle.id ((s.holds handle.id).length - 1) := by
          funext id
          by_cases hid : id = handle.id
          · rw [hid, Function.update_self, Function.update_self, List.length_erase_of_mem hmem]
          · rw [Function.update_of_ne hid, Function.update_of_ne hid]
        rw [hlength]
        exact hpins.release thread handle
      · contradiction
  | reclaim =>
      obtain rfl := Option.some.inj h
      exact hpins.of_entries_eq rfl

end Session

namespace Account

variable {a a' : Account} {m : TableMove} {moves earlier : List TableMove}

theorem session_of_perform (h : a.perform m = some a') :
    a.session.perform m = some a'.session := by
  rw [← map_session_perform, h, Option.map_some]

/-- A set is a record exactly if its value does not fit the entry of its key. -/
theorem Keeps.isRecord_iff (hk : a.Keeps earlier) (thread : ThreadId) (key value : Bytes)
    (mode : LockMode) :
    (TableMove.set thread key value mode).isRecord earlier = true ↔
      ∃ id, a.session.table.entryOf key = some id ∧
        a.session.table.capacityOf id < value.length := by
  rw [isRecord_set_iff, ← hk.room]
  simp [Table.roomFor]

theorem balance_perform (h : a.perform m = some a') (hk : a.Keeps earlier) :
    a'.session.table.retired.length + a'.freed = records (earlier ++ [m]) := by
  rw [records_concat, ← hk.balance]
  cases m with
  | get thread key mode =>
      simp only [perform, Session.perform, Option.map_map] at h
      obtain ⟨⟨r, t'⟩, hget, rfl⟩ := Option.map_eq_some_iff.mp h
      simp [Session.keep, Table.retired_get hget, TableMove.isRecord]
  | release thread handle =>
      simp only [perform, Session.perform] at h
      split at h
      · obtain rfl := Option.some.inj h
        simp [TableMove.isRecord]
      · contradiction
  | reclaim =>
      obtain rfl := Option.some.inj h
      have hsplit := a.session.table.retired.length_eq_length_filter_add
        a.session.table.isReferenced
      simp only [TableMove.isRecord, Bool.toNat_false, Table.reclaim]
      omega
  | set thread key value mode =>
      obtain ⟨⟨freed, r, t'⟩, hset, rfl⟩ := Option.map_eq_some_iff.mp h
      have hiff := hk.isRecord_iff thread key value mode
      dsimp only [Session.keep]
      cases hentry : a.session.table.entryOf key with
      | none =>
          have hrecord : (TableMove.set thread key value mode).isRecord earlier = false := by
            simpa [hentry] using hiff
          have htotal := (Table.setCounted_of_not_fits (by simp [hentry]) hset).length_add
          simp only [hentry, Option.toList_none, List.append_nil] at htotal
          rw [hrecord, Bool.toNat_false]
          omega
      | some id =>
          by_cases hfits : value.length ≤ a.session.table.capacityOf id
          · have hrecord : (TableMove.set thread key value mode).isRecord earlier = false := by
              rw [Bool.eq_false_iff, ne_eq, hiff]
              simpa [hentry] using hfits
            obtain ⟨rfl, hretired⟩ := Table.setCounted_of_fits hentry hfits hset
            rw [hrecord, hretired, Bool.toNat_false]
            omega
          · have hlarge := not_le.mp hfits
            have hrecord : (TableMove.set thread key value mode).isRecord earlier = true :=
              hiff.mpr ⟨id, hentry, hlarge⟩
            have htotal := (Table.setCounted_of_not_fits (by simpa [hentry] using hlarge)
              hset).length_add
            simp only [hentry, Option.toList_some, List.length_append, List.length_singleton]
              at htotal
            rw [hrecord, Bool.toNat_true]
            omega

theorem Keeps.perform (hk : a.Keeps earlier) (h : a.perform m = some a') :
    a'.Keeps (earlier ++ [m]) where
  sound := Session.sound_perform (session_of_perform h) hk.sound
  pins := Session.pins_perform (session_of_perform h) hk.sound hk.pins
  room := Session.roomFor_perform (session_of_perform h) hk.sound hk.room
  balance := balance_perform h hk

theorem Keeps.run (hk : a.Keeps earlier) (h : a.run moves = some a') :
    a'.Keeps (earlier ++ moves) := by
  induction moves generalizing a earlier with
  | nil =>
      obtain rfl := Option.some.inj h
      rwa [List.append_nil]
  | cons m rest ih =>
      rw [Account.run, List.foldlM_cons] at h
      obtain ⟨next, hmove, hrest⟩ := Option.bind_eq_some_iff.mp h
      rw [List.append_cons]
      exact ih (hk.perform hmove) hrest

theorem keeps_opened {hash : Bytes → UInt64} {slotBits maxShards : Nat} {table : Table}
    (hnew : Table.new unlimited hash slotBits maxShards = .ok table) :
    (opened table).Keeps [] where
  sound := Table.sound_of_new hnew
  pins := Table.pins_of_new hnew
  room := by
    funext key
    rw [opened, Session.opened, Table.roomFor, Table.entryOf_of_new hnew]
    rfl
  balance := by
    rw [opened, Session.opened, Table.eq_of_new hnew]
    rfl

end Account

namespace Session

/-- Whether there is an outstanding handle on an entry. -/
def isPinned (s : Session) (id : EntryId) : Bool := !(s.holds id).isEmpty

/-- The queue of retired entries was this, and then, if it was long enough, exactly the entries to
which there are no handles were freed. -/
structure Trimmed (queue : List EntryId) (freed : Nat) (s : Session) : Prop where
  short : queue.length < Table.reclaimThreshold → s.table.retired = queue ∧ freed = 0
  long : Table.reclaimThreshold ≤ queue.length →
    s.table.retired = queue.filter s.isPinned ∧
      freed = (queue.filter fun id => !s.isPinned id).length

/-- What holds after a run of moves, whose calls have freed a number of entries. -/
structure Balances (moves : List TableMove) (s : Session) (freed : Nat) : Prop where
  /-- Each entry in a chain has room for the longest value stored for its key, and no more. -/
  capacity : ∀ place id, id ∈ (s.table.slot place).chain → ∃ e, s.table.entryAt id = some e ∧
    ((valuesFor moves e.key).map List.length).max? = some e.capacity
  /-- The entries that are retired and those that were freed are as many as the records. -/
  balance : s.table.retired.length + freed = records moves
  /-- A call to reclaim keeps the retired entries to which there are handles, frees all others,
  and returns how many those are. -/
  reclaim : s.table.reclaim.2.retired = s.table.retired.filter s.isPinned ∧
    s.table.reclaim.1 = (s.table.retired.filter fun id => !s.isPinned id).length
  /-- A set that links a new entry retires the one that its key had, and trims the queue. -/
  set : ∀ thread key value mode count r t',
    s.table.setCounted unlimited thread key value mode = some (count, r, t') →
      t'.entryOf key ≠ s.table.entryOf key →
        Trimmed (s.table.retired ++ (s.table.entryOf key).toList) count (s.keep thread (r, t')) ∧
          (t'.retired.length < Table.reclaimThreshold ∨
            ∀ id ∈ t'.retired, (s.keep thread (r, t')).isPinned id = true)

/-- A table on which there are references for exactly the handles. -/
theorem isReferenced_eq {s : Session} (h : s.table.Pins fun id => (s.holds id).length) :
    s.table.isReferenced = s.isPinned := by
  funext id
  rw [Bool.eq_iff_iff, h.isReferenced_iff, isPinned]
  simp

theorem trimmed_of_trims {s : Session} {queue : List EntryId} {freed : Nat}
    (hpins : s.table.Pins fun id => (s.holds id).length) (h : Table.Trims queue freed s.table) :
    Trimmed queue freed s where
  short := h.short
  long hlong := isReferenced_eq hpins ▸ h.long hlong

end Session

namespace Account

variable {a : Account} {moves : List TableMove}

/-- A set that gives its key another entry has stored a value that fits none. -/
theorem Keeps.lt_of_entryOf_ne (hk : a.Keeps moves) {thread : ThreadId} {key value : Bytes}
    {mode : LockMode} {r : Except Error Handle} {t' : Table}
    (h : a.session.table.set unlimited thread key value mode = some (r, t'))
    (hne : t'.entryOf key ≠ a.session.table.entryOf key) :
    ∀ id, a.session.table.entryOf key = some id →
      a.session.table.capacityOf id < value.length := by
  intro id hentry
  by_contra hfits
  rcases Table.contents_set h with ⟨-, hcontents⟩ | ⟨-, request, hrefused⟩
  · have hfind : a.session.table.find? (a.session.table.placeOf key) key = some id := hentry
    have hsame : (a.session.table.stored key value).1 = id := by
      rw [Table.stored, hfind]
      exact congrArg Prod.fst (if_pos (not_lt.mp hfits))
    rw [hk.sound.entryOf_of_stored hcontents, if_pos rfl, hsame, hentry] at hne
    contradiction
  · contradiction

theorem Keeps.balances (hk : a.Keeps moves) : a.session.Balances moves a.freed where
  capacity place id hmem := by
    obtain ⟨e, he, -, hplace⟩ := hk.sound.linked place id hmem
    have hentry : a.session.table.entryOf e.key = some id :=
      hk.sound.entryOf_eq_some_iff.mpr ⟨hplace ▸ hmem, by rw [Table.keyAt, he, Option.map_some]⟩
    refine ⟨e, he, ?_⟩
    rw [← longest, ← hk.room, Table.roomFor, hentry, Option.map_some, Table.capacityOf, he]
    rfl
  balance := hk.balance
  reclaim := by
    rw [← Session.isReferenced_eq hk.pins]
    exact ⟨rfl, a.session.table.reclaim_fst⟩
  set thread key value mode count r t' hset hne := by
    have hwhole := Table.set_of_setCounted hset
    have hmove : a.session.perform (.set thread key value mode) =
        some (a.session.keep thread (r, t')) := by
      rw [Session.perform, hwhole, Option.map_some]
    have hpins := Session.pins_perform hmove hk.sound hk.pins
    have htrims := Table.setCounted_of_not_fits (hk.lt_of_entryOf_ne hwhole hne) hset
    refine ⟨Session.trimmed_of_trims hpins htrims, ?_⟩
    rw [← Session.isReferenced_eq hpins]
    exact htrims.bound

end Account

namespace Session

/-- However many sets, lookups, releases and reclaims there were on a new table, its retired
entries and those that were freed balance the records, and what is kept is what is pinned. -/
theorem run_balances (hash : Bytes → UInt64) (slotBits maxShards : Nat) (hlow : 1 ≤ slotBits)
    (hhigh : slotBits ≤ 28) (hshards : 0 < maxShards) :
    ∃ table, Table.new unlimited hash slotBits maxShards = .ok table ∧
      ∀ moves s, (opened table).run moves = some s →
        ∃ freed, (Account.opened table).run moves = some ⟨s, freed⟩ ∧ s.Balances moves freed := by
  obtain ⟨table, hnew⟩ := Table.new_unlimited hash slotBits maxShards hlow hhigh hshards
  refine ⟨table, hnew, fun moves s hrun => ?_⟩
  have hsession := (Account.opened table).map_session_run moves
  rw [Account.opened, hrun, Option.map_eq_some_iff] at hsession
  obtain ⟨⟨s, freed⟩, haccount, rfl⟩ := hsession
  exact ⟨freed, haccount, ((Account.keeps_opened hnew).run haccount).balances⟩

/-- An entry that is replaced while there is a handle on it survives a reclaim, and once the handle
is released the next reclaim will free it. -/
theorem run_balances_of_pinned :
    ∃ table s, Table.new unlimited (fun _ => 0) 1 1 = .ok table ∧
      (opened table).run
        [.set 1 [1] [7] .exclusive, .set 2 [1] [7, 8] .shared, .reclaim,
          .release 2 ⟨1, .shared⟩, .set 2 [1] [9] .shared, .release 1 ⟨0, .exclusive⟩] = some s ∧
      s.table.retired = [0] ∧ s.table.reclaim.1 = 1 ∧
      s.Balances
        [.set 1 [1] [7] .exclusive, .set 2 [1] [7, 8] .shared, .reclaim,
          .release 2 ⟨1, .shared⟩, .set 2 [1] [9] .shared, .release 1 ⟨0, .exclusive⟩] 0 := by
  obtain ⟨table, hnew, h⟩ := run_balances (fun _ => 0) 1 1 (by decide) (by decide) (by decide)
  have hafter : ((opened table).run
      [.set 1 [1] [7] .exclusive, .set 2 [1] [7, 8] .shared, .reclaim,
        .release 2 ⟨1, .shared⟩, .set 2 [1] [9] .shared, .release 1 ⟨0, .exclusive⟩]).map
        (fun s => (s.table.retired, s.table.reclaim.1)) = some ([0], 1) := by
    rw [Table.eq_of_new hnew]
    decide
  obtain ⟨s, hrun, hafter⟩ := Option.map_eq_some_iff.mp hafter
  obtain ⟨hretired, hreclaim⟩ := Prod.mk.inj hafter
  obtain ⟨freed, -, hbalances⟩ := h _ s hrun
  have hone : s.table.retired.length + freed = 1 := hbalances.balance.trans (by decide)
  obtain rfl : freed = 0 := by
    rw [hretired] at hone
    exact Nat.add_left_cancel hone
  exact ⟨table, s, hnew, hrun, hretired, hreclaim, hbalances⟩

end Session

end KeyValueServer
