import KeyValueServer.Proofs.Store.Calls
import Mathlib.Algebra.Group.Nat.Defs
import Mathlib.Data.Finset.Card

/-!
# Entries by key

In a sound table every entry in a chain belongs to its key's place, and no two entries in a chain
have the same key. Looking a key up then finds the one entry of the key that is linked anywhere.
-/

namespace KeyValueServer

namespace Table

/-- The key of an entry. -/
def keyAt (t : Table) (id : EntryId) : Option Bytes := (t.entryAt id).map Entry.key

/-- The entry of a key. -/
def entryOf (t : Table) (key : Bytes) : Option EntryId := t.find? (t.placeOf key) key

/-- What is stored under a key. -/
def recordOf (t : Table) (key : Bytes) : Option Entry :=
  (t.entryOf key).bind fun id => (t.entryAt id).map Entry.contents

/-- The value of a key. -/
def lookup (t : Table) (key : Bytes) : Option Bytes := (t.recordOf key).map Entry.value

/-- Each entry in a chain is whole and where the hash of its key belongs, and it is the only one of
its key there. -/
structure Sound (t : Table) : Prop where
  oneShard : t.layout.shards = 1
  slots_size : t.slots.size = t.layout.slotCount
  linked : ∀ place id, id ∈ (t.slot place).chain →
    ∃ e, t.entryAt id = some e ∧ e.hash = t.hash e.key ∧ t.placeOf e.key = place
  single : ∀ place id other, id ∈ (t.slot place).chain → other ∈ (t.slot place).chain →
    t.keyAt id = t.keyAt other → id = other
  nodup : ∀ place, (t.slot place).chain.Nodup
  fits : ∀ id e, t.entryAt id = some e → e.size ≤ e.capacity

/-! ## What depends on the contents only -/

section Contents

variable {t t' : Table}

theorem chain_eq (h : t'.contents = t.contents) (place : Nat) :
    (t'.slot place).chain = (t.slot place).chain := by
  have hslot := congrArg (fun c => (c.slot place).chain) h
  simpa [Slot.contents] using hslot

theorem entryAt_eq (h : t'.contents = t.contents) (id : EntryId) :
    (t'.entryAt id).map Entry.contents = (t.entryAt id).map Entry.contents := by
  rw [← entryAt_contents, h, entryAt_contents]

theorem map_entryAt_eq {α : Type} {f : Entry → α} (hf : ∀ e, f e.contents = f e)
    (h : t'.contents = t.contents) (id : EntryId) :
    (t'.entryAt id).map f = (t.entryAt id).map f := by
  have hentry := congrArg (Option.map f) (entryAt_eq h id)
  simpa only [Option.map_map, Function.comp_def, hf] using hentry

theorem keyAt_eq (h : t'.contents = t.contents) (id : EntryId) : t'.keyAt id = t.keyAt id :=
  map_entryAt_eq Entry.key_contents h id

theorem entryOf_eq (h : t'.contents = t.contents) (key : Bytes) :
    t'.entryOf key = t.entryOf key := by
  rw [entryOf, entryOf, find?_eq h, placeOf_eq h]

theorem recordOf_eq (h : t'.contents = t.contents) (key : Bytes) :
    t'.recordOf key = t.recordOf key := by
  simp only [recordOf, entryOf_eq h, entryAt_eq h]

theorem lookup_eq (h : t'.contents = t.contents) (key : Bytes) :
    t'.lookup key = t.lookup key := by
  rw [lookup, lookup, recordOf_eq h]

theorem Sound.of_contents_eq (hs : t.Sound) (h : t'.contents = t.contents) : t'.Sound where
  oneShard := by rw [layout_eq h, hs.oneShard]
  slots_size := by rw [slots_size_eq h, layout_eq h, hs.slots_size]
  linked place id hmem := by
    rw [chain_eq h] at hmem
    obtain ⟨e, he, hhash, hplace⟩ := hs.linked place id hmem
    have hentry := entryAt_eq h id
    rw [he, Option.map_some, Option.map_eq_some_iff] at hentry
    obtain ⟨e', he', hsame⟩ := hentry
    have hkey : e'.key = e.key := by simpa using congrArg Entry.key hsame
    have hhash' : e'.hash = e.hash := by simpa using congrArg Entry.hash hsame
    exact ⟨e', he', by rw [hhash', hkey, hash_eq h, hhash], by rw [hkey, placeOf_eq h, hplace]⟩
  single place id other hmem hother hkey := by
    rw [chain_eq h] at hmem hother
    rw [keyAt_eq h, keyAt_eq h] at hkey
    exact hs.single place id other hmem hother hkey
  nodup place := by
    rw [chain_eq h]
    exact hs.nodup place
  fits id e he := by
    have hentry := entryAt_eq h id
    rw [he, Option.map_some, eq_comm, Option.map_eq_some_iff] at hentry
    obtain ⟨e', he', hsame⟩ := hentry
    have hsize : e'.size = e.size := by simpa [Entry.contents] using congrArg Entry.size hsame
    have hcapacity : e'.capacity = e.capacity := by
      simpa using congrArg Entry.capacity hsame
    rw [← hsize, ← hcapacity]
    exact hs.fits id e' he'

end Contents

/-! ## Finding the entry of a key -/

variable {t : Table} {key other value : Bytes} {id : EntryId}

theorem Sound.placeOf_lt (hs : t.Sound) (key : Bytes) : t.placeOf key < t.slots.size := by
  have hpos : 0 < t.layout.slotCount := Nat.two_pow_pos _
  simp only [placeOf, Layout.place, Layout.position, hs.oneShard, Nat.mod_one, Nat.zero_mul,
    Nat.zero_add, hs.slots_size]
  exact Nat.mod_lt _ hpos

theorem Sound.isFor_iff (hs : t.Sound) {place : Nat} (hmem : id ∈ (t.slot place).chain) :
    ((t.entryAt id).map fun e => e.isFor (t.hash key) key).getD false = true ↔
      t.keyAt id = some key := by
  obtain ⟨e, he, hhash, -⟩ := hs.linked _ _ hmem
  simp only [keyAt, he, Option.map_some, Option.getD_some, Entry.isFor, Bool.and_eq_true,
    beq_iff_eq, Option.some.injEq, and_iff_right_iff_imp]
  rintro rfl
  exact hhash

theorem Sound.entryOf_eq_some_iff (hs : t.Sound) :
    t.entryOf key = some id ↔
      id ∈ (t.slot (t.placeOf key)).chain ∧ t.keyAt id = some key := by
  constructor
  · intro hentry
    simp only [entryOf, find?] at hentry
    have hmem := List.mem_of_find?_eq_some hentry
    have hfor := List.find?_some hentry
    exact ⟨hmem, (hs.isFor_iff hmem).mp hfor⟩
  · rintro ⟨hmem, hkey⟩
    cases hentry : t.entryOf key with
    | none =>
        have hnone := List.find?_eq_none.mp hentry id hmem
        exact absurd ((hs.isFor_iff hmem).mpr hkey) hnone
    | some found =>
        simp only [entryOf, find?] at hentry
        have hmem' := List.mem_of_find?_eq_some hentry
        have hfor := List.find?_some hentry
        have hkey' := (hs.isFor_iff hmem').mp hfor
        rw [hs.single _ found id hmem' hmem (hkey'.trans hkey.symm)]

theorem Sound.entryOf_eq_none_iff (hs : t.Sound) :
    t.entryOf key = none ↔
      ∀ id ∈ (t.slot (t.placeOf key)).chain, t.keyAt id ≠ some key := by
  rw [Option.eq_none_iff_forall_ne_some]
  refine forall_congr' fun id => ?_
  rw [ne_eq, hs.entryOf_eq_some_iff, not_and]

theorem Sound.mem_of_entryOf (hs : t.Sound) (h : t.entryOf key = some id) :
    ∃ e, t.entryAt id = some e ∧ e.key = key := by
  obtain ⟨hmem, hkey⟩ := hs.entryOf_eq_some_iff.mp h
  exact Option.map_eq_some_iff.mp hkey

theorem Sound.lt_of_mem (hs : t.Sound) {place : Nat} (hmem : id ∈ (t.slot place).chain) :
    id < t.entries.size := by
  obtain ⟨e, he, -⟩ := hs.linked place id hmem
  exact (Array.getElem?_eq_some_iff.mp he).1

theorem Sound.lt_of_entryOf (hs : t.Sound) (h : t.entryOf key = some id) : id < t.entries.size :=
  hs.lt_of_mem (hs.entryOf_eq_some_iff.mp h).1

/-! ## Handles on what is stored -/

theorem Sound.lookup_eq_none_iff (hs : t.Sound) : t.lookup key = none ↔ t.entryOf key = none := by
  constructor
  · intro hnone
    cases hentry : t.entryOf key with
    | none => rfl
    | some id =>
        obtain ⟨e, he, -⟩ := hs.mem_of_entryOf hentry
        simp [lookup, recordOf, hentry, he] at hnone
  · intro hentry
    simp [lookup, recordOf, hentry]

theorem Sound.keyOf_of_entryOf (hs : t.Sound) (h : t.entryOf key = some id) (mode : LockMode) :
    t.keyOf ⟨id, mode⟩ = key := by
  obtain ⟨e, he, hkey⟩ := hs.mem_of_entryOf h
  rw [keyOf, he, Option.map_some, Option.getD_some, hkey]

theorem valueOf_capacityOf_of_recordOf {t' : Table} (hentry : t'.entryOf key = t.entryOf key)
    (hrecord : t'.recordOf key = t.recordOf key) (h : t.entryOf key = some id) (mode : LockMode) :
    t'.valueOf ⟨id, mode⟩ = t.valueOf ⟨id, mode⟩ ∧ t'.capacityOf id = t.capacityOf id := by
  simp only [recordOf, hentry, h, Option.bind_some] at hrecord
  have hvalue := congrArg (Option.map Entry.value) hrecord
  have hcapacity := congrArg (Option.map Entry.capacity) hrecord
  simp only [Option.map_map, Function.comp_def, Entry.value_contents, Entry.capacity_contents]
    at hvalue hcapacity
  exact ⟨by rw [valueOf, valueOf, hvalue], by rw [capacityOf, capacityOf, hcapacity]⟩

theorem valueOf_of_entryOf (h : t.entryOf key = some id) (hlookup : t.lookup key = some value)
    (mode : LockMode) : t.valueOf ⟨id, mode⟩ = value := by
  simp only [lookup, recordOf, h, Option.bind_some, Option.map_map] at hlookup
  obtain ⟨e, he, rfl⟩ := Option.map_eq_some_iff.mp hlookup
  rw [valueOf, he]
  rfl

/-! ## Counting keys -/

/-- Which keys have an entry, and that the table counts them. -/
structure Tallies (t : Table) (keys : Finset Bytes) : Prop where
  isSome_iff : ∀ key, (t.entryOf key).isSome ↔ key ∈ keys
  size : t.size = keys.card

theorem Tallies.of_contents_eq {t' : Table} {keys : Finset Bytes} (ht : t.Tallies keys)
    (h : t'.contents = t.contents) : t'.Tallies keys where
  isSome_iff key := by rw [entryOf_eq h, ht.isSome_iff]
  size := by rw [size_eq h, ht.size]

/-! ## New tables -/

section New

variable {memory : Allocator} {hash : Bytes → UInt64} {slotBits maxShards : Nat}

theorem new_unlimited (hash : Bytes → UInt64) (slotBits maxShards : Nat) (hlow : 1 ≤ slotBits)
    (hhigh : slotBits ≤ 28) (hshards : 0 < maxShards) :
    ∃ t, new unlimited hash slotBits maxShards = .ok t := by
  have hbits : ¬(slotBits < 1 ∨ 28 < slotBits) := by omega
  rw [new, if_neg hbits, if_neg hshards.ne']
  exact ⟨_, rfl⟩

theorem eq_of_new (h : new memory hash slotBits maxShards = .ok t) :
    t = ⟨⟨slotBits, 1, maxShards⟩, hash, Array.replicate (2 ^ slotBits) .empty, #[], [], 0, 0,
      0⟩ := by
  simp only [new] at h
  split_ifs at h
  exact (Except.ok.inj h).symm

theorem slot_of_new (h : new memory hash slotBits maxShards = .ok t) (place : Nat) :
    t.slot place = .empty := by
  rw [eq_of_new h, slot, Array.getElem?_replicate]
  split <;> rfl

theorem entryOf_of_new (h : new memory hash slotBits maxShards = .ok t) (key : Bytes) :
    t.entryOf key = none := by
  rw [entryOf, find?, slot_of_new h]
  rfl

theorem lookup_of_new (h : new memory hash slotBits maxShards = .ok t) :
    t.lookup = fun _ => none := by
  funext key
  rw [lookup, recordOf, entryOf_of_new h]
  rfl

theorem sound_of_new (h : new memory hash slotBits maxShards = .ok t) : t.Sound where
  oneShard := by rw [eq_of_new h]
  slots_size := by simp [eq_of_new h, Layout.slotCount]
  linked place id hmem := by simp [slot_of_new h, Slot.empty] at hmem
  single place id other hmem := by simp [slot_of_new h, Slot.empty] at hmem
  nodup place := by simp [slot_of_new h, Slot.empty]
  fits id e he := by simp [eq_of_new h, entryAt] at he

theorem tallies_of_new (h : new memory hash slotBits maxShards = .ok t) : t.Tallies ∅ where
  isSome_iff key := by simp [entryOf_of_new h]
  size := by simp [eq_of_new h]

end New

end Table

end KeyValueServer
