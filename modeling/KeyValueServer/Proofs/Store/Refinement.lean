import KeyValueServer.Proofs.Store.Session

/-!
# A table as a finite map

Whatever the hash, a table on which callers have made any moves stands for the map of the values
that were last stored. A lookup shows exactly this value, or reports that the key was never stored;
storing a value touches the entry of no other key; each key has one entry, in the slot where it
belongs; and the size of the table is the number of keys.
-/

namespace KeyValueServer

variable {t t' : Table} {key : Bytes} {id : EntryId} {mode : LockMode}

/-- A handle through which a caller sees a key and its value. -/
structure Table.Displays (t : Table) (handle : Handle) (mode : LockMode) (key value : Bytes) :
    Prop where
  mode : handle.mode = mode
  key : t.keyOf handle = key
  value : t.valueOf handle = value

/-- The table stands for a map with these keys. -/
structure Table.Refines (t : Table) (reference : Bytes → Option Bytes) (keys : Finset Bytes) :
    Prop where
  /-- A lookup reports a key that was never stored, and only such a key, as not found. -/
  notFound : ∀ {thread key mode r t'}, t.get thread key mode = some (r, t') →
    (r = .error .notFound ↔ key ∉ keys)
  /-- For every other key it returns a handle on the value in the map. -/
  found : ∀ {thread key mode r t'}, t.get thread key mode = some (r, t') → key ∈ keys →
    ∃ handle value, r = .ok handle ∧ reference key = some value ∧
      t'.Displays handle mode key value
  /-- A stored value is what its handle shows. -/
  stores : ∀ {thread key value mode r t'},
    t.set unlimited thread key value mode = some (r, t') →
    ∃ handle, r = .ok handle ∧ t'.Displays handle mode key value
  /-- Storing a value for a key leaves all other keys their entries, values and capacities. -/
  frame : ∀ {thread key value mode r t'},
    t.set unlimited thread key value mode = some (r, t') → ∀ other, other ≠ key →
    t'.entryOf other = t.entryOf other ∧
      ∀ id mode, t.entryOf other = some id →
        t'.valueOf ⟨id, mode⟩ = t.valueOf ⟨id, mode⟩ ∧ t'.capacityOf id = t.capacityOf id
  /-- Every hash has a place in the table. -/
  inBounds : ∀ hash, (t.layout.position hash).1 < t.layout.shards ∧
    (t.layout.position hash).2 < t.layout.slotCount ∧ t.layout.place hash < t.slots.size
  /-- An entry in a chain is in the place of its key's hash, and its key was stored. -/
  placed : ∀ {place id}, id ∈ (t.slot place).chain →
    ∃ e, t.entryAt id = some e ∧ place = t.layout.place (t.hash e.key) ∧ e.key ∈ keys
  /-- Nowhere in the table there is a second entry for a key, -/
  unique : ∀ {place place' id id'}, id ∈ (t.slot place).chain → id' ∈ (t.slot place').chain →
    t.keyAt id = t.keyAt id' → place = place' ∧ id = id'
  /-- nor the same entry twice. -/
  nodup : ∀ place, (t.slot place).chain.Nodup
  size : t.size = keys.card

namespace Table

theorem Sound.place_lt (hs : t.Sound) (hash : UInt64) :
    (t.layout.position hash).1 < t.layout.shards ∧
      (t.layout.position hash).2 < t.layout.slotCount ∧ t.layout.place hash < t.slots.size := by
  have hcount : 0 < t.layout.slotCount := Nat.two_pow_pos _
  have hslot : (t.layout.position hash).2 < t.layout.slotCount := Nat.mod_lt _ hcount
  have hshard : (t.layout.position hash).1 = 0 := by
    rw [Layout.position, hs.oneShard, Nat.mod_one]
  refine ⟨?_, hslot, ?_⟩
  · rw [hshard, hs.oneShard]
    exact Nat.one_pos
  · rw [Layout.place, hshard, Nat.zero_mul, Nat.zero_add, hs.slots_size]
    exact hslot

theorem Sound.eq_of_keyAt (hs : t.Sound) {place place' : Nat} {id id' : EntryId}
    (hmem : id ∈ (t.slot place).chain) (hmem' : id' ∈ (t.slot place').chain)
    (hkey : t.keyAt id = t.keyAt id') : place = place' ∧ id = id' := by
  obtain ⟨e, he, -, hplace⟩ := hs.linked place id hmem
  obtain ⟨e', he', -, hplace'⟩ := hs.linked place' id' hmem'
  have hsame : e.key = e'.key := by simpa [keyAt, he, he'] using hkey
  have hplaces : place = place' := by rw [← hplace, ← hplace', hsame]
  subst hplaces
  exact ⟨rfl, hs.single place id id' hmem hmem' hkey⟩

theorem Sound.displays (hs : t.Sound) {value : Bytes} (hentry : t.entryOf key = some id)
    (hlookup : t.lookup key = some value) (mode : LockMode) :
    t.Displays ⟨id, mode⟩ mode key value :=
  ⟨rfl, hs.keyOf_of_entryOf hentry mode, valueOf_of_entryOf hentry hlookup mode⟩

/-- A sound table stands for the map of what is found for each key. -/
theorem Sound.refines (hs : t.Sound) {keys : Finset Bytes} (ht : t.Tallies keys) :
    t.Refines t.lookup keys where
  notFound {thread key mode r t'} hget := by
    obtain ⟨-, rfl⟩ := contents_get hget
    rw [← ht.isSome_iff, ← entryOf]
    cases t.entryOf key with
    | none => simp
    | some id => simp
  found {thread key mode r t'} hget hkey := by
    obtain ⟨hcontents, rfl⟩ := contents_get hget
    obtain ⟨id, hentry⟩ := Option.isSome_iff_exists.mp ((ht.isSome_iff key).mpr hkey)
    have hfind : t.find? (t.placeOf key) key = some id := hentry
    obtain ⟨value, hlookup⟩ : ∃ value, t.lookup key = some value := by
      rw [← Option.ne_none_iff_exists', ne_eq, hs.lookup_eq_none_iff, hentry]
      simp
    refine ⟨⟨id, mode⟩, value, by rw [hfind], hlookup, ?_⟩
    rw [← entryOf_eq hcontents] at hentry
    rw [← lookup_eq hcontents] at hlookup
    exact (hs.of_contents_eq hcontents).displays hentry hlookup mode
  stores {thread key value mode r t'} hset := by
    rcases contents_set hset with ⟨rfl, hcontents⟩ | ⟨-, request, hrefused⟩
    · refine ⟨_, rfl, (hs.of_stored hcontents).displays ?_ ?_ mode⟩
      · rw [hs.entryOf_of_stored hcontents, if_pos rfl]
      · rw [hs.lookup_of_stored hcontents, Function.update_self]
    · contradiction
  frame {thread key value mode r t'} hset other hother := by
    rcases contents_set hset with ⟨rfl, hcontents⟩ | ⟨-, request, hrefused⟩
    · have hentry : t'.entryOf other = t.entryOf other := by
        rw [hs.entryOf_of_stored hcontents, if_neg hother]
      exact ⟨hentry, fun id mode hid => valueOf_capacityOf_of_recordOf hentry
        (hs.recordOf_of_stored hcontents hother) hid mode⟩
    · contradiction
  inBounds := hs.place_lt
  placed {place id} hmem := by
    obtain ⟨e, he, -, hplace⟩ := hs.linked place id hmem
    refine ⟨e, he, hplace.symm, (ht.isSome_iff e.key).mp ?_⟩
    have hentry : t.entryOf e.key = some id :=
      hs.entryOf_eq_some_iff.mpr ⟨hplace ▸ hmem, by rw [keyAt, he, Option.map_some]⟩
    rw [hentry, Option.isSome_some]
  unique := hs.eq_of_keyAt
  nodup := hs.nodup
  size := ht.size

end Table

namespace Session

/-- A table with any number of slots, any hash and any history refines the map of the values that
were last stored. -/
theorem run_refines_latest (hash : Bytes → UInt64) (slotBits maxShards : Nat)
    (hlow : 1 ≤ slotBits) (hhigh : slotBits ≤ 28) (hshards : 0 < maxShards) :
    ∃ table, Table.new unlimited hash slotBits maxShards = .ok table ∧
      ∀ moves s, (opened table).run moves = some s →
        s.table.hash = hash ∧ s.table.layout = ⟨slotBits, 1, maxShards⟩ ∧
          s.table.Refines (latest moves) (storedKeys moves) := by
  obtain ⟨table, hnew⟩ := Table.new_unlimited hash slotBits maxShards hlow hhigh hshards
  refine ⟨table, hnew, fun moves s hrun => ?_⟩
  obtain ⟨hsound, hlookup, htallies⟩ :=
    run_invariant hrun (Table.sound_of_new hnew) (Table.tallies_of_new hnew)
  obtain ⟨hhash, hlayout⟩ := run_hash_layout hrun
  have hreference : s.table.lookup = latest moves := by
    rw [hlookup, opened, Table.lookup_of_new hnew, latest]
  rw [Finset.empty_union] at htallies
  refine ⟨?_, ?_, hreference ▸ hsound.refines htallies⟩
  · rw [hhash, opened, Table.eq_of_new hnew]
  · rw [hlayout, opened, Table.eq_of_new hnew]

/-- Two keys with one hash, of which the first is written over with a shorter value and then moved
to a new entry by a longer one, while a handle on the second is kept. -/
theorem run_refines_latest_of_collision :
    ∃ table s, Table.new unlimited (fun _ => 0) 1 1 = .ok table ∧
      (opened table).run
        [.set 1 [1] [7, 8, 9] .exclusive, .release 1 ⟨0, .exclusive⟩, .set 1 [2] [5] .shared,
          .set 2 [1] [6] .shared, .release 2 ⟨0, .shared⟩, .set 2 [1] [4, 4, 4, 4] .shared] =
        some s ∧
      s.table.size = 2 ∧
      ∀ thread mode r t, s.table.get thread [1] mode = some (r, t) →
        ∃ handle, r = .ok handle ∧ t.valueOf handle = [4, 4, 4, 4] := by
  obtain ⟨table, hnew, h⟩ := run_refines_latest (fun _ => 0) 1 1 (by decide) (by decide) (by decide)
  have hsome : ((opened table).run
      [.set 1 [1] [7, 8, 9] .exclusive, .release 1 ⟨0, .exclusive⟩, .set 1 [2] [5] .shared,
        .set 2 [1] [6] .shared, .release 2 ⟨0, .shared⟩, .set 2 [1] [4, 4, 4, 4] .shared]).isSome =
      true := by
    rw [Table.eq_of_new hnew]
    decide
  obtain ⟨s, hrun⟩ := Option.isSome_iff_exists.mp hsome
  obtain ⟨-, -, hrefines⟩ := h _ s hrun
  refine ⟨table, s, hnew, hrun, hrefines.size, fun thread mode r t hget => ?_⟩
  obtain ⟨handle, value, hr, hlatest, hdisplays⟩ := hrefines.found hget (by decide)
  refine ⟨handle, hr, hdisplays.value.trans (Option.some.inj (hlatest.symm.trans ?_))⟩
  decide

end Session

end KeyValueServer
