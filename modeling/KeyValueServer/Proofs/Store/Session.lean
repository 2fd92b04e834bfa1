import KeyValueServer.Proofs.Store.Holds
import KeyValueServer.Proofs.Store.Storing
import Mathlib.Data.Finset.Option

/-!
# Sessions on a table

A session is a table and the holds that callers have through the handles that they keep. Callers
look keys up and store values, in any mode, and give up handles whenever they like. A move that
would have to wait for a lock is no move of a session; otherwise there is memory for everything.

What a session has stored is a reference map: each key has the value that was last stored for it.
-/

namespace KeyValueServer

open Function (update)

/-- What a caller can do next. -/
inductive TableMove where
  | get (thread : ThreadId) (key : Bytes) (mode : LockMode)
  | set (thread : ThreadId) (key value : Bytes) (mode : LockMode)
  | release (thread : ThreadId) (handle : Handle)
  | reclaim

/-- The values that were last stored, after one more move. -/
def TableMove.record (reference : Bytes → Option Bytes) : TableMove → Bytes → Option Bytes
  | .set _ key value _ => update reference key (some value)
  | _ => reference

/-- The key for which a move stores a value. -/
def TableMove.storedKey : TableMove → Option Bytes
  | .set _ key _ _ => some key
  | _ => none

/-- What a move does to the contents of a table. -/
def TableMove.effect (t : Table) : TableMove → Table
  | .set _ key value _ => (t.stored key value).2
  | _ => t

/-- The values that were last stored by a list of moves. -/
def latest (moves : List TableMove) : Bytes → Option Bytes :=
  moves.foldl TableMove.record fun _ => none

/-- The distinct keys for which a list of moves has stored values. -/
def storedKeys (moves : List TableMove) : Finset Bytes :=
  (moves.filterMap TableMove.storedKey).toFinset

theorem storedKeys_cons (m : TableMove) (moves : List TableMove) :
    storedKeys (m :: moves) = m.storedKey.toFinset ∪ storedKeys moves := by
  rw [storedKeys, storedKeys, List.filterMap_cons]
  cases m.storedKey with
  | none => simp
  | some key => rw [List.toFinset_cons, Option.toFinset_some, Finset.insert_eq]

/-- A table, and for each entry the holds through the handles on it. -/
structure Session where
  table : Table
  holds : EntryId → List Hold

namespace Session

/-- No handles yet. -/
def opened (table : Table) : Session := ⟨table, fun _ => []⟩

/-- A call of a thread returns, and the thread keeps the handle. -/
def keep (s : Session) (thread : ThreadId) (returned : Except Error Handle × Table) : Session :=
  ⟨returned.2, granted s.holds thread returned.1⟩

/-- The session after a move, unless the move would have to wait or gives up a handle that nobody
has. -/
def perform (s : Session) : TableMove → Option Session
  | .get thread key mode => (s.table.get thread key mode).map (s.keep thread)
  | .set thread key value mode =>
      (s.table.set unlimited thread key value mode).map (s.keep thread)
  | .release thread handle =>
      if ⟨thread, handle.mode⟩ ∈ s.holds handle.id then
        some ⟨(s.table.release thread handle).2,
          update s.holds handle.id ((s.holds handle.id).erase ⟨thread, handle.mode⟩)⟩
      else none
  | .reclaim => some { s with table := s.table.reclaim.2 }

/-- The session after a list of moves. -/
def run (s : Session) (moves : List TableMove) : Option Session := moves.foldlM perform s

/-- No entry has more shared holds than its lock can count. -/
def HasRoom (s : Session) : Prop := ∀ id, sharedHolds (s.holds id) < fieldSize

/-- The sessions on a new table that keep to a condition after every move. -/
inductive Reachable (table : Table) (within : Session → Prop) : Session → Prop
  | start : Reachable table within (opened table)
  | move {s s' : Session} (hs : Reachable table within s) (m : TableMove)
      (hmove : s.perform m = some s') (hwithin : within s') : Reachable table within s'

variable {s s' : Session} {m : TableMove}

/-- Only a move that stores a value changes the contents of the table. -/
theorem contents_perform (h : s.perform m = some s') :
    s'.table.contents = m.effect s.table.contents := by
  cases m with
  | get thread key mode =>
      obtain ⟨⟨r, t'⟩, hget, rfl⟩ := Option.map_eq_some_iff.mp h
      exact (Table.contents_get hget).1
  | set thread key value mode =>
      obtain ⟨⟨r, t'⟩, hset, rfl⟩ := Option.map_eq_some_iff.mp h
      rcases Table.contents_set hset with ⟨-, hcontents⟩ | ⟨-, request, hrefused⟩
      · exact hcontents
      · contradiction
  | release thread handle =>
      simp only [perform] at h
      split at h
      · obtain rfl := Option.some.inj h
        exact Table.contents_release _ _ _
      · contradiction
  | reclaim =>
      obtain rfl := Option.some.inj h
      exact Table.contents_reclaim _

theorem sound_perform (h : s.perform m = some s') (hs : s.table.Sound) : s'.table.Sound := by
  have hcontents := contents_perform h
  cases m with
  | set thread key value mode => exact hs.of_stored hcontents
  | _ => exact hs.of_contents_eq hcontents

/-- Between two moves no slot is held, and the lock of each entry shows the holds on it. -/
theorem atRest_perform (h : s.perform m = some s') (hs : s.table.Sound)
    (hrest : s.table.AtRest s.holds) (hroom : s'.HasRoom) :
    s'.table.AtRest s'.holds := by
  cases m with
  | get thread key mode =>
      obtain ⟨⟨r, t'⟩, hget, rfl⟩ := Option.map_eq_some_iff.mp h
      exact hrest.get hs hget hroom
  | set thread key value mode =>
      obtain ⟨⟨r, t'⟩, hset, rfl⟩ := Option.map_eq_some_iff.mp h
      exact hrest.set hs hset hroom
  | release thread handle =>
      simp only [perform] at h
      split at h
      next hmem =>
        obtain rfl := Option.some.inj h
        exact (hrest.release hmem).2
      · contradiction
  | reclaim =>
      obtain rfl := Option.some.inj h
      exact hrest.reclaim

/-- The invariant of a session: its table is sound, and its locks show the holds. -/
theorem Reachable.sound_atRest {table : Table} (h : Reachable table HasRoom s) (hs : table.Sound)
    (hrest : table.AtRest fun _ => []) : s.table.Sound ∧ s.table.AtRest s.holds := by
  induction h with
  | start => exact ⟨hs, hrest⟩
  | move _ m hmove hroom ih =>
      exact ⟨sound_perform hmove ih.1, atRest_perform hmove ih.1 ih.2 hroom⟩

/-! ## What a run has stored -/

theorem lookup_perform (h : s.perform m = some s') (hs : s.table.Sound) :
    s'.table.lookup = m.record s.table.lookup := by
  have hcontents := contents_perform h
  cases m with
  | set thread key value mode => exact hs.lookup_of_stored hcontents
  | _ => exact funext (Table.lookup_eq hcontents)

theorem tallies_perform {keys : Finset Bytes} (h : s.perform m = some s') (hs : s.table.Sound)
    (ht : s.table.Tallies keys) : s'.table.Tallies (keys ∪ m.storedKey.toFinset) := by
  have hcontents := contents_perform h
  cases m with
  | set thread key value mode =>
      have hstored := ht.of_stored hs hcontents
      rwa [Finset.insert_eq, Finset.union_comm] at hstored
  | _ => simpa [TableMove.storedKey] using ht.of_contents_eq hcontents

theorem hash_layout_perform (h : s.perform m = some s') :
    s'.table.hash = s.table.hash ∧ s'.table.layout = s.table.layout := by
  have hcontents := contents_perform h
  cases m with
  | set thread key value mode =>
      exact ⟨Table.hash_of_stored hcontents, Table.layout_of_stored hcontents⟩
  | _ => exact ⟨Table.hash_eq hcontents, Table.layout_eq hcontents⟩

/-- After a run the table has the values that were last stored, and counts the keys. -/
theorem run_invariant {keys : Finset Bytes} {moves : List TableMove} (h : s.run moves = some s')
    (hs : s.table.Sound) (ht : s.table.Tallies keys) :
    s'.table.Sound ∧ s'.table.lookup = moves.foldl TableMove.record s.table.lookup ∧
      s'.table.Tallies (keys ∪ storedKeys moves) := by
  induction moves generalizing s keys with
  | nil =>
      obtain rfl := Option.some.inj h
      exact ⟨hs, rfl, by simpa [storedKeys] using ht⟩
  | cons m rest ih =>
      rw [run, List.foldlM_cons] at h
      obtain ⟨next, hmove, hrest⟩ := Option.bind_eq_some_iff.mp h
      obtain ⟨hsound, hlookup, htallies⟩ :=
        ih hrest (sound_perform hmove hs) (tallies_perform hmove hs ht)
      refine ⟨hsound, by rw [hlookup, lookup_perform hmove hs, List.foldl_cons], ?_⟩
      rwa [storedKeys_cons, ← Finset.union_assoc]

theorem run_hash_layout {moves : List TableMove} (h : s.run moves = some s') :
    s'.table.hash = s.table.hash ∧ s'.table.layout = s.table.layout := by
  induction moves generalizing s with
  | nil =>
      obtain rfl := Option.some.inj h
      exact ⟨rfl, rfl⟩
  | cons m rest ih =>
      rw [run, List.foldlM_cons] at h
      obtain ⟨next, hmove, hrest⟩ := Option.bind_eq_some_iff.mp h
      obtain ⟨hhash, hlayout⟩ := hash_layout_perform hmove
      obtain ⟨hhash', hlayout'⟩ := ih hrest
      exact ⟨hhash'.trans hhash, hlayout'.trans hlayout⟩

/-! ## Calls whose handle is released -/

variable {table t t' : Table} {thread : ThreadId} {handle : Handle}

theorem Reachable.quiet (h : Reachable table HasRoom (opened t)) (hs : table.Sound)
    (hrest : table.AtRest fun _ => []) : t.Sound ∧ t.AtRest fun _ => [] :=
  h.sound_atRest hs hrest

theorem sharedHolds_granted_lt (thread : ThreadId) (r : Except Error Handle) (id : EntryId) :
    sharedHolds (granted (fun _ => []) thread r id) < fieldSize := by
  cases r with
  | error => exact Nat.zero_lt_succ _
  | ok handle =>
      by_cases hid : id = handle.id
      · rw [granted, hid, Function.update_self]
        exact sharedHolds_singleton_lt _
      · rw [granted, Function.update_of_ne hid]
        exact Nat.zero_lt_succ _

/-- The only handle that is kept can be released, and no handle is kept then. -/
theorem Reachable.release
    (h : Reachable table HasRoom ⟨t, granted (fun _ => []) thread (.ok handle)⟩)
    (hs : table.Sound) (hrest : table.AtRest fun _ => []) :
    (t.release thread handle).1 = .ok () ∧
      Reachable table HasRoom (opened (t.release thread handle).2) := by
  have hmem : ⟨thread, handle.mode⟩ ∈ granted (fun _ => []) thread (.ok handle) handle.id := by
    simp [granted]
  have hafter : update (granted (fun _ => []) thread (.ok handle)) handle.id
      ((granted (fun _ => []) thread (.ok handle) handle.id).erase ⟨thread, handle.mode⟩) =
      fun _ => [] := by
    simp [granted]
  refine ⟨((h.sound_atRest hs hrest).2.release hmem).1, ?_⟩
  refine h.move (.release thread handle) ?_ fun id => Nat.zero_lt_succ _
  rw [perform, if_pos hmem, hafter]
  rfl

/-- Without outstanding handles a lookup does not wait, and after the release of its handle
everything is as it was. -/
theorem Reachable.exists_get (h : Reachable table HasRoom (opened t)) (hs : table.Sound)
    (hrest : table.AtRest fun _ => []) (thread : ThreadId) (key : Bytes) (mode : LockMode) :
    ∃ r t', t.get thread key mode = some (r, t') ∧
      match t.lookup key with
      | none => r = .error .notFound ∧ Reachable table HasRoom (opened t') ∧ t'.lookup = t.lookup
      | some value => ∃ handle, r = .ok handle ∧ t'.valueOf handle = value ∧
          (t'.release thread handle).1 = .ok () ∧
          Reachable table HasRoom (opened (t'.release thread handle).2) ∧
          (t'.release thread handle).2.lookup = t.lookup := by
  obtain ⟨hsound, hquiet⟩ := h.quiet hs hrest
  obtain ⟨r, t', hget⟩ := hquiet.exists_get hsound thread key mode
  obtain ⟨hcontents, hr⟩ := Table.contents_get hget
  have hlookup : t'.lookup = t.lookup := funext (Table.lookup_eq hcontents)
  have hnext : Reachable table HasRoom ⟨t', granted (fun _ => []) thread r⟩ := by
    have hmove : (opened t).perform (.get thread key mode) =
        some ⟨t', granted (fun _ => []) thread r⟩ := by
      rw [perform, opened, hget]
      rfl
    exact h.move _ hmove (sharedHolds_granted_lt thread r)
  refine ⟨r, t', hget, ?_⟩
  cases hfound : t.lookup key with
  | none =>
      have hnone : t.find? (t.placeOf key) key = none := hsound.lookup_eq_none_iff.mp hfound
      rw [hnone] at hr
      subst hr
      exact ⟨rfl, hnext, hlookup⟩
  | some value =>
      cases hentry : t.entryOf key with
      | none => simp [hsound.lookup_eq_none_iff.mpr hentry] at hfound
      | some id =>
          have hid : t.find? (t.placeOf key) key = some id := hentry
          rw [hid] at hr
          subst hr
          obtain ⟨hok, hreleased⟩ := hnext.release hs hrest
          refine ⟨⟨id, mode⟩, rfl, ?_, hok, hreleased, ?_⟩
          · rw [← Table.entryOf_eq hcontents] at hentry
            rw [← hlookup] at hfound
            exact Table.valueOf_of_entryOf hentry hfound mode
          · rw [← hlookup]
            exact funext (Table.lookup_eq (Table.contents_release t' thread ⟨id, mode⟩))

/-- Storing a value does not wait either, and the release of its handle leaves the value stored. -/
theorem Reachable.exists_set (h : Reachable table HasRoom (opened t)) (hs : table.Sound)
    (hrest : table.AtRest fun _ => []) (thread : ThreadId) (key value : Bytes) (mode : LockMode) :
    ∃ handle t', t.set unlimited thread key value mode = some (.ok handle, t') ∧
      (t'.release thread handle).1 = .ok () ∧
      Reachable table HasRoom (opened (t'.release thread handle).2) ∧
      (t'.release thread handle).2.lookup = update t.lookup key (some value) := by
  obtain ⟨hsound, hquiet⟩ := h.quiet hs hrest
  obtain ⟨r, t', hset⟩ := hquiet.exists_set hsound unlimited thread key value mode
  rcases Table.contents_set hset with ⟨rfl, hcontents⟩ | ⟨-, request, hrefused⟩
  · have hnext : Reachable table HasRoom
        ⟨t', granted (fun _ => []) thread (.ok ⟨(t.stored key value).1, mode⟩)⟩ := by
      have hmove : (opened t).perform (.set thread key value mode) =
          some ⟨t', granted (fun _ => []) thread (.ok ⟨(t.stored key value).1, mode⟩)⟩ := by
        rw [perform, opened, hset]
        rfl
      exact h.move _ hmove (sharedHolds_granted_lt thread (.ok ⟨_, mode⟩))
    obtain ⟨hok, hreleased⟩ := hnext.release hs hrest
    refine ⟨_, t', hset, hok, hreleased, ?_⟩
    rw [← hsound.lookup_of_stored hcontents]
    exact funext (Table.lookup_eq (Table.contents_release t' thread _))
  · contradiction

end Session

end KeyValueServer
