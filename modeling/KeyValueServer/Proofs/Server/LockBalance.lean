import KeyValueServer.Proofs.Server.Asking
import KeyValueServer.Proofs.Store.Overflow
import KeyValueServer.Proofs.Store.Tracking

/-!
# Locks between the calls of a thread

A thread that uses a table alone makes calls one after the other, keeps the handles that they
return for as long as it likes, and answers requests in between. However its calls end, no slot is
held between two of them, and the lock of each entry says exactly which handles on the entry there
are. Answering a request changes no lock, whatever the request is and whatever becomes of the
answer.
-/

namespace KeyValueServer

open Function (update)

/-- What the word of an entry's lock says about the handles of a thread: that there are none, some
shared ones, or one exclusive one. -/
inductive LockWord.Describes (thread : ThreadId) : LockWord → Nat → Nat → Prop
  | free : Describes thread .free 0 0
  | shared (field : Fin fieldSize) (hpos : 0 < field.val) :
      Describes thread ⟨false, false, true, field⟩ field.val 0
  | exclusive : Describes thread ⟨false, true, false, thread⟩ 0 1

/-- What a thread can do with its table. -/
inductive Operation where
  | get (key : Bytes) (mode : LockMode)
  | set (memory : Allocator) (key value : Bytes) (mode : LockMode)
  | release (handle : Handle)
  | drop (handle : Handle)
  | reclaim
  | dump (tracing : Bool)
  | resize (tracing : Bool)
  | dispatch (memory : Allocator) (frame : Buffer) (sink : Sink)

/-- How many handles an operation takes that it does not return. -/
def Operation.passing : Operation → Nat
  | dispatch _ _ _ => 1
  | _ => 0

/-- A table, and the handles that the one thread that uses it keeps. -/
structure Caller where
  table : Table
  handles : List Handle

namespace Caller

/-- No handles yet. -/
def opened (table : Table) : Caller := ⟨table, []⟩

/-- A call returns, and its handle is kept. -/
def keep (s : Caller) : Except Error Handle × Table → Caller
  | (.ok handle, table) => ⟨table, handle :: s.handles⟩
  | (.error _, table) => ⟨table, s.handles⟩

/-- A handle that is kept is released or dropped. -/
def giveUp (s : Caller) (thread : ThreadId) (handle : Handle) : Option Caller :=
  if handle ∈ s.handles then
    some ⟨(s.table.release thread handle).2, s.handles.erase handle⟩
  else none

/-- The thread after an operation, unless it would wait for itself or gives up a handle that it
does not have. -/
def perform (s : Caller) (thread : ThreadId) : Operation → Option Caller
  | .get key mode => (s.table.get thread key mode).map s.keep
  | .set memory key value mode => (s.table.set memory thread key value mode).map s.keep
  | .release handle => s.giveUp thread handle
  | .drop handle => s.giveUp thread handle
  | .reclaim => some { s with table := s.table.reclaim.2 }
  | .dump tracing => (s.table.dump thread tracing).map fun (_, table) => { s with table }
  | .resize tracing => (s.table.resize thread tracing).map fun (_, table) => { s with table }
  | .dispatch memory frame sink =>
      (Server.dispatch ⟨thread, memory⟩ s.table frame sink).map fun d => { s with table := d.table }

/-- The thread after a list of operations. -/
def run (s : Caller) (thread : ThreadId) (ops : List Operation) : Option Caller :=
  ops.foldlM (fun s op => s.perform thread op) s

/-- With so many more shared holds on each, no entry has more than its lock can count. -/
def HasRoom (s : Caller) (more : Nat) : Prop :=
  ∀ id, s.handles.count ⟨id, .shared⟩ + more < fieldSize

/-- What a thread comes to on a table by operations that keep to a condition. -/
inductive Reachable (thread : ThreadId) (table : Table) (within : Operation → Caller → Prop) :
    Caller → Prop
  | start : Reachable thread table within (opened table)
  | step {s s' : Caller} (hs : Reachable thread table within s) (op : Operation)
      (hop : s.perform thread op = some s') (hwithin : within op s') :
      Reachable thread table within s'

/-- After the operation there is room for the handles of the thread and for the one that the
operation took and did not return. -/
def LeavesRoom (op : Operation) (s : Caller) : Prop := s.HasRoom op.passing

end Caller

/-! ## Handles and holds -/

/-- These holds on entries are those of the handles of a thread that is alone. -/
abbrev Tracks (thread : ThreadId) (handles : List Handle) (holds : EntryId → List Hold) : Prop :=
  Tracked holds (update (fun _ => []) thread handles)

namespace Tracks

variable {thread : ThreadId} {handles : List Handle} {holds : EntryId → List Hold} {id : EntryId}

theorem empty : Tracks thread [] fun _ => [] := by
  rw [Tracks, Function.update_eq_self]
  exact .empty

theorem own (h : Tracks thread handles holds) (id : EntryId) (x : Hold) (hx : x ∈ holds id) :
    x.thread = thread := by
  by_contra hother
  have hmem := h.mem_iff.mp hx
  rw [Function.update_of_ne hother] at hmem
  contradiction

theorem count (h : Tracks thread handles holds) (id : EntryId) (mode : LockMode) :
    (holds id).count ⟨thread, mode⟩ = handles.count ⟨id, mode⟩ := by
  rw [h, Function.update_self]

theorem mem (h : Tracks thread handles holds) {handle : Handle} (hmem : handle ∈ handles) :
    ⟨thread, handle.mode⟩ ∈ holds handle.id :=
  h.mem_iff.mpr (by rwa [Function.update_self])

theorem granted (h : Tracks thread handles holds) (handle : Handle) :
    Tracks thread (handle :: handles) (granted holds thread (.ok handle)) := by
  have hadd := h.add thread handle
  rwa [Function.update_self, Function.update_idem] at hadd

theorem erase (h : Tracks thread handles holds) (handle : Handle) :
    Tracks thread (handles.erase handle)
      (update holds handle.id ((holds handle.id).erase ⟨thread, handle.mode⟩)) := by
  have hremove := h.remove thread handle
  rwa [Function.update_self, Function.update_idem] at hremove

theorem sharedHolds_eq (h : Tracks thread handles holds) (id : EntryId) :
    sharedHolds (holds id) = handles.count ⟨id, .shared⟩ := by
  rw [← h.count, sharedHolds, List.count]
  refine List.countP_congr fun x hx => ?_
  obtain ⟨thread', mode⟩ := x
  obtain rfl : thread' = thread := h.own id _ hx
  simp

/-- The lock of an entry says which handles on it there are. -/
theorem describes (h : Tracks thread handles holds) {w : LockWord} (hw : w.Shows (holds id))
    (hmark : w.waiters = false) :
    w.Describes thread (handles.count ⟨id, .shared⟩) (handles.count ⟨id, .exclusive⟩) := by
  rw [← h.count, ← h.count]
  have hown := h.own id
  generalize holds id = held at hw hown ⊢
  cases hw with
  | free =>
      obtain rfl : _ = false := hmark
      exact .free
  | exclusive waiters other =>
      obtain rfl : waiters = false := hmark
      obtain rfl : other = thread := hown _ List.mem_cons_self
      simpa using LockWord.Describes.exclusive
  | @shared waiters field _ hne hshared hfield =>
      obtain rfl : waiters = false := hmark
      have heq : ∀ x ∈ held, x = ⟨thread, .shared⟩ := by
        rintro ⟨thread', mode⟩ hx
        obtain rfl : thread' = thread := hown _ hx
        obtain rfl : mode = .shared := hshared _ hx
        rfl
      have hcount : held.count ⟨thread, .shared⟩ = field.val := by
        rw [hfield, List.count_eq_length]
        exact fun x hx => (heq x hx).symm
      have hnone : held.count ⟨thread, .exclusive⟩ = 0 := by
        rw [List.count_eq_zero]
        intro hmem
        simpa using heq _ hmem
      rw [hcount, hnone]
      exact .shared field (hfield ▸ List.length_pos_iff.mpr hne)

end Tracks

/-! ## Answering a request -/

namespace LockWord

/-- The holds and the mark of waiters are all that a word consists of. -/
theorem Shows.unique {w w' : LockWord} {holds : List Hold} (h : w.Shows holds)
    (h' : w'.Shows holds) (hmark : w.waiters = w'.waiters) : w = w' := by
  cases h with
  | free waiters =>
      cases h' with
      | free waiters' =>
          obtain rfl : waiters = waiters' := hmark
          rfl
      | shared _ hne => contradiction
  | exclusive waiters thread =>
      cases h' with
      | exclusive waiters' =>
          obtain rfl : waiters = waiters' := hmark
          rfl
      | shared _ _ hshared => simpa using hshared _ List.mem_cons_self
  | @shared waiters field _ hne hshared hfield =>
      cases h' with
      | free => contradiction
      | exclusive => simpa using hshared _ List.mem_cons_self
      | @shared waiters' field' _ _ _ hfield' =>
          obtain rfl : waiters = waiters' := hmark
          obtain rfl : field = field' := Fin.ext (hfield.trans hfield'.symm)
          rfl

end LockWord

namespace Table

variable {t t' : Table} {thread : ThreadId} {holds : EntryId → List Hold} {r : Except Error Handle}

theorem sharedHolds_granted_le (holds : EntryId → List Hold) (thread : ThreadId)
    (r : Except Error Handle) (id : EntryId) :
    sharedHolds (granted holds thread r id) ≤ sharedHolds (holds id) + 1 := by
  cases r with
  | error e => exact Nat.le_succ _
  | ok handle =>
      by_cases hid : id = handle.id
      · subst hid
        rw [granted, Function.update_self, sharedHolds, List.countP_cons]
        split
        · exact le_rfl
        · exact Nat.le_succ _
      · rw [granted, Function.update_of_ne hid]
        exact Nat.le_succ _

/-- The handle that a call returns can be released, and then all holds are as before the call. -/
theorem Shows.settled (hrest : t.AtRest holds) (hs : t.Sound) (h : t.Returns thread r t')
    (hroom : ∀ id, sharedHolds (holds id) + 1 < fieldSize) :
    (∀ handle, r = .ok handle → (t'.release thread handle).1 = .ok ()) ∧
      (t'.settled thread r).AtRest holds := by
  have hafter := hrest.returns hs h fun id =>
    (sharedHolds_granted_le holds thread r id).trans_lt (hroom id)
  cases r with
  | error e => exact ⟨fun _ hok => (nomatch hok), hafter⟩
  | ok handle =>
      have hmem : ⟨thread, handle.mode⟩ ∈ granted holds thread (.ok handle) handle.id := by
        simp [granted]
      obtain ⟨hok, hreleased⟩ := hafter.release hmem
      refine ⟨fun other hother => ?_, ?_⟩
      · obtain rfl := Except.ok.inj hother
        exact hok
      · simpa [granted, Table.settled] using hreleased

theorem Sound.settled (hs : t.Sound) : (t.settled thread r).Sound := by
  cases r with
  | error e => exact hs
  | ok handle => exact hs.of_contents_eq (contents_release t thread handle)

theorem Unmarked.settled (hu : t.Unmarked) : (t.settled thread r).Unmarked := by
  cases r with
  | error e => exact hu
  | ok handle => exact hu.release thread handle

theorem size_entries_settled (t : Table) (thread : ThreadId) (r : Except Error Handle) :
    (t.settled thread r).entries.size = t.entries.size := by
  cases r with
  | error e => rfl
  | ok handle => exact entries_size_eq (contents_release t thread handle)

end Table

namespace Caller

variable {thread : ThreadId} {table : Table} {s s' : Caller} {op : Operation}
  {holds : EntryId → List Hold}

/-- What holds between the operations of a thread. -/
structure Keeps (thread : ThreadId) (s : Caller) (holds : EntryId → List Hold) : Prop where
  sound : s.table.Sound
  unmarked : s.table.Unmarked
  rest : s.table.AtRest holds
  tracks : Tracks thread s.handles holds

theorem Keeps.word_slot (hk : s.Keeps thread holds) (place : Nat) :
    (s.table.slot place).lock.word = .free :=
  (hk.rest.slot place).eq_free (hk.unmarked.slot place)

/-! ## One operation -/

theorem Keeps.keep (hk : s.Keeps thread holds) {r : Except Error Handle} {t' : Table}
    (h : s.table.Returns thread r t')
    (hroom : (s.keep (r, t')).HasRoom 0) :
    ∃ holds', (s.keep (r, t')).Keeps thread holds' := by
  have hgranted : Tracks thread (s.keep (r, t')).handles (granted holds thread r) := by
    cases r with
    | error e => exact hk.tracks
    | ok handle => exact hk.tracks.granted handle
  have htable : (s.keep (r, t')).table = t' := by cases r <;> rfl
  refine ⟨_, ?_, ?_, ?_, hgranted⟩
  · rw [htable]
    exact hk.sound.returns h
  · rw [htable]
    exact hk.unmarked.returns h
  · rw [htable]
    refine hk.rest.returns hk.sound h fun id => ?_
    rw [hgranted.sharedHolds_eq]
    exact hroom id

theorem Keeps.giveUp (hk : s.Keeps thread holds) {handle : Handle}
    (h : s.giveUp thread handle = some s') : ∃ holds', s'.Keeps thread holds' := by
  simp only [Caller.giveUp] at h
  split at h
  next hmem =>
    obtain rfl := Option.some.inj h
    exact ⟨_, hk.sound.of_contents_eq (Table.contents_release ..),
      hk.unmarked.release thread handle, (hk.rest.release (hk.tracks.mem hmem)).2,
      hk.tracks.erase handle⟩
  · contradiction

theorem Keeps.settled (hk : s.Keeps thread holds) {r : Except Error Handle} {t' : Table}
    (h : s.table.Returns thread r t')
    (hroom : s.HasRoom 1) :
    (∀ handle, r = .ok handle → (t'.release thread handle).1 = .ok ()) ∧
      Keeps thread { s with table := t'.settled thread r } holds := by
  obtain ⟨hok, hrest⟩ := hk.rest.settled hk.sound h fun id => by
    rw [hk.tracks.sharedHolds_eq]
    exact hroom id
  exact ⟨hok, (hk.sound.returns h).settled, (hk.unmarked.returns h).settled, hrest, hk.tracks⟩

theorem Keeps.dispatch (hk : s.Keeps thread holds) {memory : Allocator} {frame : Buffer}
    {sink : Sink} {d : Server.Dispatched}
    (h : Server.dispatch ⟨thread, memory⟩ s.table frame sink = some d)
    (hroom : s.HasRoom 1) :
    Keeps thread { s with table := d.table } holds := by
  rcases Server.dispatch_cases h with hsame | ⟨r, t', hreturns, hsettled⟩
  · exact hsame ▸ hk
  · exact hsettled ▸ (hk.settled hreturns hroom).2

theorem Keeps.perform (hk : s.Keeps thread holds) (hop : s.perform thread op = some s')
    (hroom : s'.HasRoom op.passing) :
    ∃ holds', s'.Keeps thread holds' := by
  cases op with
  | get key mode =>
      obtain ⟨⟨r, t'⟩, hget, rfl⟩ := Option.map_eq_some_iff.mp hop
      exact hk.keep (.get hget) hroom
  | set memory key value mode =>
      obtain ⟨⟨r, t'⟩, hset, rfl⟩ := Option.map_eq_some_iff.mp hop
      exact hk.keep (.set hset) hroom
  | release handle => exact hk.giveUp hop
  | drop handle => exact hk.giveUp hop
  | reclaim =>
      obtain rfl := Option.some.inj hop
      exact ⟨holds, hk.sound.of_contents_eq (Table.contents_reclaim _), hk.unmarked.reclaim,
        hk.rest.reclaim, hk.tracks⟩
  | dump tracing =>
      rw [Caller.perform, Table.dump_of_free hk.word_slot] at hop
      obtain rfl := Option.some.inj hop
      exact ⟨holds, hk⟩
  | resize tracing =>
      rw [Caller.perform, Table.resize_of_free hk.word_slot] at hop
      obtain rfl := Option.some.inj hop
      exact ⟨holds, hk⟩
  | dispatch memory frame sink =>
      obtain ⟨d, hd, rfl⟩ := Option.map_eq_some_iff.mp hop
      exact ⟨holds, hk.dispatch hd hroom⟩

theorem Reachable.keeps {hash : Bytes → UInt64} {slotBits maxShards : Nat} {memory : Allocator}
    (hnew : Table.new memory hash slotBits maxShards = .ok table)
    (h : Reachable thread table LeavesRoom s) :
    ∃ holds, s.Keeps thread holds := by
  induction h with
  | start =>
      exact ⟨_, Table.sound_of_new hnew, Table.unmarked_of_new hnew, Table.atRest_of_new hnew,
        .empty⟩
  | step _ op hop hroom ih =>
      obtain ⟨holds, hk⟩ := ih
      exact hk.perform hop hroom

/-! ## What a thread can rely on -/

/-- The locks of a table and the handles of the thread that uses it are in balance. -/
structure Balanced (thread : ThreadId) (s : Caller) : Prop where
  /-- Every slot is free. -/
  slots : ∀ place, (s.table.slot place).lock.word = .free
  /-- The lock of an entry says which handles on it there are. -/
  entries : ∀ id e, s.table.entryAt id = some e → e.lock.word.Describes thread
    (s.handles.count ⟨id, .shared⟩) (s.handles.count ⟨id, .exclusive⟩)
  /-- Each handle can be released. -/
  release : ∀ handle ∈ s.handles, (s.table.release thread handle).1 = .ok ()
  /-- So can the handle that the next call returns. -/
  returned : s.HasRoom 1 → ∀ handle t', s.table.Returns thread (.ok handle) t' →
    (t'.release thread handle).1 = .ok ()
  /-- Answering a request leaves the locks of all entries as they are, and those of new entries
  free. -/
  dispatch : s.HasRoom 1 → ∀ memory frame sink d,
    Server.dispatch ⟨thread, memory⟩ s.table frame sink = some d →
      (∀ id e, s.table.entryAt id = some e →
        ∃ e', d.table.entryAt id = some e' ∧ e'.lock.word = e.lock.word) ∧
      ∀ id e', s.table.entryAt id = none → d.table.entryAt id = some e' → e'.lock.word = .free

theorem Keeps.balanced (hk : s.Keeps thread holds) : s.Balanced thread where
  slots := hk.word_slot
  entries id e he := hk.tracks.describes (hk.rest.entry id e he) (hk.unmarked.entry id e he)
  release handle hmem := (hk.rest.release (hk.tracks.mem hmem)).1
  returned hroom handle t' h := (hk.settled h hroom).1 handle rfl
  dispatch hroom memory frame sink d h := by
    have hafter := hk.dispatch h hroom
    have hsize : s.table.entries.size ≤ d.table.entries.size := by
      rcases Server.dispatch_cases h with hsame | ⟨r, t', hreturns, hsettled⟩
      · rw [hsame]
      · rw [hsettled, Table.size_entries_settled]
        exact hreturns.size_entries_le
    refine ⟨fun id e he => ?_, fun id e' he he' => ?_⟩
    · have hid := (Array.getElem?_eq_some_iff.mp he).1.trans_le hsize
      have he' : d.table.entryAt id = some d.table.entries[id] := Array.getElem?_eq_getElem hid
      refine ⟨_, he', (hafter.rest.entry id _ he').unique (hk.rest.entry id e he) ?_⟩
      rw [hafter.unmarked.entry id _ he', hk.unmarked.entry id e he]
    · have hnone := hk.rest.made id (Array.getElem?_eq_none_iff.mp he)
      exact (hnone ▸ hafter.rest.entry id e' he').eq_free (hafter.unmarked.entry id e' he')

/-- Whatever a thread does with a new table, and however its calls end, locks and handles are in
balance between its operations, as long as no entry has more shared handles than its lock can
count. -/
theorem reachable_balanced {hash : Bytes → UInt64} {slotBits maxShards : Nat} {memory : Allocator}
    (hnew : Table.new memory hash slotBits maxShards = .ok table)
    (h : Reachable thread table LeavesRoom s) :
    s.Balanced thread :=
  (h.keeps hnew).elim fun _ hk => hk.balanced

/-! ## Short runs -/

/-- An operation returns at most one handle. -/
theorem length_handles_perform (h : s.perform thread op = some s') :
    s'.handles.length ≤ s.handles.length + 1 := by
  have hkeep : ∀ returned, (s.keep returned).handles.length ≤ s.handles.length + 1 := by
    rintro ⟨r, t'⟩
    cases r with
    | error e => exact Nat.le_succ _
    | ok handle => exact le_rfl
  have hgiveUp : ∀ handle, s.giveUp thread handle = some s' →
      s'.handles.length ≤ s.handles.length + 1 := by
    intro handle h
    simp only [giveUp] at h
    split at h
    · obtain rfl := Option.some.inj h
      exact (List.length_erase_le).trans (Nat.le_succ _)
    · contradiction
  cases op with
  | get => obtain ⟨returned, -, rfl⟩ := Option.map_eq_some_iff.mp h; exact hkeep returned
  | set => obtain ⟨returned, -, rfl⟩ := Option.map_eq_some_iff.mp h; exact hkeep returned
  | release handle => exact hgiveUp handle h
  | drop handle => exact hgiveUp handle h
  | reclaim => obtain rfl := Option.some.inj h; exact Nat.le_succ _
  | dump => obtain ⟨_, -, rfl⟩ := Option.map_eq_some_iff.mp h; exact Nat.le_succ _
  | resize => obtain ⟨_, -, rfl⟩ := Option.map_eq_some_iff.mp h; exact Nat.le_succ _
  | dispatch => obtain ⟨_, -, rfl⟩ := Option.map_eq_some_iff.mp h; exact Nat.le_succ _

/-- A run of fewer operations than a lock can count shared holds always leaves room. -/
theorem Reachable.of_run {s₀ : Caller} (h₀ : Reachable thread table LeavesRoom s₀)
    {ops : List Operation} (hrun : s₀.run thread ops = some s)
    (hshort : s₀.handles.length + ops.length + 1 < fieldSize) :
    Reachable thread table LeavesRoom s := by
  induction ops generalizing s₀ with
  | nil =>
      obtain rfl := Option.some.inj hrun
      exact h₀
  | cons op rest ih =>
      rw [run, List.foldlM_cons] at hrun
      obtain ⟨next, hop, hrest⟩ := Option.bind_eq_some_iff.mp hrun
      have hlength := length_handles_perform hop
      rw [List.length_cons] at hshort
      refine ih (h₀.step op hop fun id => ?_) hrest (by omega)
      have hcount : next.handles.count ⟨id, .shared⟩ ≤ next.handles.length := List.count_le_length
      have hpassing : op.passing ≤ 1 := by cases op <;> simp [Operation.passing]
      omega

/-- A handle is kept while the entry is replaced, a set fails for want of memory, tracing goes
through all slots, and the answer to a request cannot be sent. -/
theorem reachable_balanced_of_failures :
    ∃ table s, Table.new unlimited (fun _ => 0) 1 1 = .ok table ∧ Reachable 1 table LeavesRoom s ∧
      s.handles = [⟨1, .shared⟩, ⟨0, .exclusive⟩] ∧ s.Balanced 1 := by
  obtain ⟨table, hnew⟩ := Table.new_unlimited (fun _ => 0) 1 1 (by decide) (by decide) (by decide)
  have hafter : ((opened table).run 1
      [.set unlimited [1] [7] .exclusive, .set unlimited [1] [7, 8] .shared,
        .set (limitedTo 2) [1] [7, 8, 9] .shared, .reclaim, .resize true,
        .dispatch unlimited ⟨[], [], []⟩ (.ofSteps [.accepts 0])]).map Caller.handles =
      some [⟨1, .shared⟩, ⟨0, .exclusive⟩] := by
    rw [Table.eq_of_new hnew]
    decide
  obtain ⟨s, hrun, hhandles⟩ := Option.map_eq_some_iff.mp hafter
  have hreach : Reachable 1 table LeavesRoom s :=
    Reachable.of_run .start hrun (by change 7 < fieldSize; decide)
  exact ⟨table, s, hnew, hreach, hhandles, reachable_balanced hnew hreach⟩

/-! ## Too many handles -/

/-- Any number of lookups is granted. -/
theorem Reachable.exists_gets {t : Table} {key : Bytes} {id : EntryId}
    (h : Reachable thread table (fun _ _ => True) (opened t)) (hcrowded : t.Crowded key id 0)
    (count : Nat) :
    ∃ t', Reachable thread table (fun _ _ => True) ⟨t', List.replicate count ⟨id, .shared⟩⟩ ∧
      t'.Crowded key id count ∧ t'.contents = t.contents := by
  refine hcrowded.exists_gets thread (fun count t' => Reachable thread table (fun _ _ => True)
    ⟨t', List.replicate count ⟨id, .shared⟩⟩) h ?_ count
  intro count t₁ t₂ hreach hget _
  exact hreach.step (.get key .shared) (Option.map_eq_some_iff.mpr ⟨_, hget, rfl⟩) trivial

/-- A thread that keeps 2²⁹ shared handles on one entry cannot release any of them. The word of the
entry's lock says that there are none. -/
theorem not_balanced_of_overflow :
    ∃ table s id e, Table.new unlimited (fun _ => 0) 1 1 = .ok table ∧
      Reachable 1 table (fun _ _ => True) s ∧ s.handles = List.replicate fieldSize ⟨id, .shared⟩ ∧
      s.table.entryAt id = some e ∧ e.lock.word.holders = 0 ∧
      (s.table.release 1 ⟨id, .shared⟩).1 = .error (.invalidState (.sharedRelease (2 ^ 29))) ∧
      ¬s.Balanced 1 := by
  obtain ⟨table, hnew⟩ := Table.new_unlimited (fun _ => 0) 1 1 (by decide) (by decide) (by decide)
  obtain ⟨id, t, hset, -, hcrowded, -⟩ := Table.exists_crowded_of_new hnew 1 [1] [7]
  have hstart : Reachable 1 table (fun _ _ => True) (opened table) := .start
  have hstored := hstart.step (.set unlimited [1] [7] .exclusive)
    (Option.map_eq_some_iff.mpr ⟨_, hset, rfl⟩) trivial
  have hreleased := hstored.step (.release ⟨id, .exclusive⟩) (if_pos List.mem_cons_self) trivial
  have hquiet : Reachable 1 table (fun _ _ => True) (opened (t.release 1 ⟨id, .exclusive⟩).2) := by
    simpa [keep, opened] using hreleased
  obtain ⟨t', hreach, hcrowded', -⟩ := hquiet.exists_gets hcrowded fieldSize
  obtain ⟨e, he, hword⟩ := hcrowded'.entry
  have hrefused := (hcrowded'.release_of_overflow 1).1
  refine ⟨table, _, id, e, hnew, hreach, rfl, he, by rw [hword]; rfl, hrefused, fun hbalanced => ?_⟩
  have hmem : (⟨id, .shared⟩ : Handle) ∈ List.replicate fieldSize ⟨id, .shared⟩ :=
    List.mem_replicate.mpr ⟨(Nat.two_pow_pos 29).ne', rfl⟩
  have hok := hbalanced.release _ hmem
  rw [hrefused] at hok
  contradiction

end Caller

end KeyValueServer
