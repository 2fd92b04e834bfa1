import KeyValueServer.Proofs.Store.Lookup

/-!
# Changes of chains

The changes that storing a value is made of: changing an entry, taking the entry of a key out of its
chain, making an entry, and putting it into the chain of its key if the key has none. Each keeps a
table sound, and what it changes for its key it changes for no other.
-/

namespace KeyValueServer

namespace Table

variable {t : Table} {key other value : Bytes} {id : EntryId}

/-- The value of an entry. -/
def valueAt (t : Table) (id : EntryId) : Option Bytes := (t.entryAt id).map Entry.value

theorem lookup_eq_bind (t : Table) (key : Bytes) :
    t.lookup key = (t.entryOf key).bind t.valueAt := by
  rw [lookup, recordOf, Option.map_bind]
  refine Option.bind_congr fun id _ => ?_
  rw [Function.comp_apply, Option.map_map]
  rfl

/-- A key leads to the same entry where its chain and the keys in it are the same. -/
theorem Sound.entryOf_congr {t' : Table} (hs : t.Sound) (hs' : t'.Sound)
    (hplace : t'.placeOf key = t.placeOf key)
    (hchain : (t'.slot (t.placeOf key)).chain = (t.slot (t.placeOf key)).chain)
    (hkeys : ∀ id ∈ (t.slot (t.placeOf key)).chain, t'.keyAt id = t.keyAt id) :
    t'.entryOf key = t.entryOf key := by
  refine Option.ext fun id => ?_
  rw [hs'.entryOf_eq_some_iff, hs.entryOf_eq_some_iff, hplace, hchain]
  exact and_congr_right fun hmem => by rw [hkeys id hmem]

/-! ## Changing an entry -/

section Change

variable {f : Entry → Entry}

theorem keyAt_modifyEntry (t : Table) (id other : EntryId) (hkey : ∀ e, (f e).key = e.key) :
    (t.modifyEntry id f).keyAt other = t.keyAt other := by
  rw [keyAt, keyAt, entryAt_modifyEntry]
  split
  · rw [Option.map_map]
    exact congrArg (Option.map · _) (funext hkey)
  · rfl

theorem Sound.modifyEntry (hs : t.Sound) (id : EntryId) (hkey : ∀ e, (f e).key = e.key)
    (hhash : ∀ e, (f e).hash = e.hash)
    (hfits : ∀ e, t.entryAt id = some e → (f e).size ≤ (f e).capacity) :
    (t.modifyEntry id f).Sound where
  oneShard := hs.oneShard
  slots_size := hs.slots_size
  linked place other hmem := by
    obtain ⟨e, he, hhash', hplace⟩ := hs.linked place other hmem
    rw [entryAt_modifyEntry, he]
    by_cases hid : id = other
    · exact ⟨f e, by simp [hid], by rw [hhash, hkey]; exact hhash', by rw [hkey]; exact hplace⟩
    · exact ⟨e, by simp [hid], hhash', hplace⟩
  single place other other' hmem hmem' hsame := by
    rw [keyAt_modifyEntry t id other hkey, keyAt_modifyEntry t id other' hkey] at hsame
    exact hs.single place other other' hmem hmem' hsame
  nodup place := hs.nodup place
  fits other e he := by
    rw [entryAt_modifyEntry] at he
    split at he
    next hid =>
      obtain ⟨e', he', rfl⟩ := Option.map_eq_some_iff.mp he
      exact hfits e' (hid ▸ he')
    · exact hs.fits other e he

theorem Sound.entryOf_modifyEntry (hs : t.Sound) (hs' : (t.modifyEntry id f).Sound)
    (hkey : ∀ e, (f e).key = e.key) (key : Bytes) :
    (t.modifyEntry id f).entryOf key = t.entryOf key :=
  hs.entryOf_congr hs' rfl rfl fun other _ => keyAt_modifyEntry t id other hkey

theorem valueAt_modifyEntry_of_ne (t : Table) {id other : EntryId} (h : id ≠ other) :
    (t.modifyEntry id f).valueAt other = t.valueAt other := by
  rw [valueAt, valueAt, entryAt_modifyEntry, if_neg h]

end Change

theorem Sound.overwritten (hs : t.Sound) (id : EntryId) (value : Bytes) :
    (t.overwritten id value).Sound :=
  hs.modifyEntry id (fun _ => rfl) (fun _ => rfl) fun e _ => by
    simp [Entry.overwrite, Entry.capacity]

/-- Writing over an entry leaves all entries where they are. -/
theorem Sound.entryOf_overwritten (hs : t.Sound) (id : EntryId) (value key : Bytes) :
    (t.overwritten id value).entryOf key = t.entryOf key :=
  hs.entryOf_modifyEntry (hs.overwritten id value) (fun _ => rfl) key

/-! ## Taking an entry out of its chain -/

theorem chain_detach (t : Table) (place place' : Nat) (id : EntryId) :
    ((t.detach place id).slot place').chain =
      if place = place' then (t.slot place').chain.erase id else (t.slot place').chain := by
  rw [detach, slot_modifySlot]
  by_cases hplace : place = place'
  · by_cases hsize : place' < t.slots.size
    · simp [hplace, hsize]
    · have hempty : t.slot place' = .empty := by simp [slot, hsize]
      simp [hsize, hempty, Slot.empty]
  · simp [hplace]

theorem Sound.detach (hs : t.Sound) (place : Nat) (id : EntryId) : (t.detach place id).Sound := by
  have hsub : ∀ place' other, other ∈ ((t.detach place id).slot place').chain →
      other ∈ (t.slot place').chain := by
    intro place' other hmem
    rw [chain_detach] at hmem
    split at hmem
    · exact List.mem_of_mem_erase hmem
    · exact hmem
  refine
    { oneShard := hs.oneShard
      slots_size := ?_
      linked := fun place' other hmem => hs.linked place' other (hsub place' other hmem)
      single := fun place' other other' hmem hmem' =>
        hs.single place' other other' (hsub place' other hmem) (hsub place' other' hmem')
      nodup := fun place' => ?_
      fits := hs.fits }
  · simpa [Table.detach, modifySlot] using hs.slots_size
  · rw [chain_detach]
    split
    · exact (hs.nodup place').erase id
    · exact hs.nodup place'

/-- Taking the entry of a key out of its chain leaves no entry for this key, and every other entry
where it was. -/
theorem Sound.entryOf_detach (hs : t.Sound) (h : t.entryOf key = some id) (other : Bytes) :
    (t.detach (t.placeOf key) id).entryOf other =
      if other = key then none else t.entryOf other := by
  obtain ⟨-, hkey⟩ := hs.entryOf_eq_some_iff.mp h
  have hplaces : (t.detach (t.placeOf key) id).placeOf other = t.placeOf other := rfl
  have hkeys : ∀ id', (t.detach (t.placeOf key) id).keyAt id' = t.keyAt id' := fun _ => rfl
  by_cases hother : other = key
  · subst hother
    rw [if_pos rfl, (hs.detach _ id).entryOf_eq_none_iff]
    intro id' hmem hkey'
    rw [hplaces, chain_detach, if_pos rfl] at hmem
    obtain ⟨hne, hmem⟩ := (hs.nodup _).mem_erase_iff.mp hmem
    obtain ⟨hmem', -⟩ := hs.entryOf_eq_some_iff.mp h
    exact hne (hs.single _ id' id hmem hmem' ((hkeys id').symm.trans (hkey'.trans hkey.symm)))
  · rw [if_neg hother]
    refine Option.ext fun id' => ?_
    rw [(hs.detach _ id).entryOf_eq_some_iff, hs.entryOf_eq_some_iff, hplaces, chain_detach, hkeys]
    by_cases hplace : t.placeOf key = t.placeOf other
    · rw [if_pos hplace]
      constructor
      · rintro ⟨hmem, hkey'⟩
        exact ⟨List.mem_of_mem_erase hmem, hkey'⟩
      · rintro ⟨hmem, hkey'⟩
        have hne : id' ≠ id := by
          rintro rfl
          exact hother (Option.some.inj (hkey'.symm.trans hkey))
        exact ⟨(List.mem_erase_of_ne hne).mpr hmem, hkey'⟩
    · rw [if_neg hplace]

/-! ## Making an entry -/

theorem keyAt_enlist_of_lt (e : Entry) (h : id < t.entries.size) :
    (t.enlist e).keyAt id = t.keyAt id := by
  rw [keyAt, keyAt, entryAt_enlist, if_neg h.ne]

theorem Sound.enlist (hs : t.Sound) {e : Entry} (hfits : e.size ≤ e.capacity) :
    (t.enlist e).Sound where
  oneShard := hs.oneShard
  slots_size := hs.slots_size
  linked place other hmem := by
    rw [entryAt_enlist, if_neg (hs.lt_of_mem hmem).ne]
    exact hs.linked place other hmem
  single place other other' hmem hmem' hsame := by
    rw [keyAt_enlist_of_lt e (hs.lt_of_mem hmem),
      keyAt_enlist_of_lt e (hs.lt_of_mem hmem')] at hsame
    exact hs.single place other other' hmem hmem' hsame
  nodup place := hs.nodup place
  fits other e' he := by
    rw [entryAt_enlist] at he
    split at he
    · obtain rfl := Option.some.inj he
      exact hfits
    · exact hs.fits other e' he

/-- An entry that is in no chain is the entry of no key. -/
theorem Sound.entryOf_enlist (hs : t.Sound) {e : Entry} (hfits : e.size ≤ e.capacity)
    (key : Bytes) : (t.enlist e).entryOf key = t.entryOf key :=
  hs.entryOf_congr (hs.enlist hfits) rfl rfl fun _ hmem => keyAt_enlist_of_lt e (hs.lt_of_mem hmem)

/-! ## Putting an entry into its chain -/

/-- An entry that was made for a key and is in no chain yet. -/
structure IsLoose (t : Table) (key : Bytes) (id : EntryId) : Prop where
  keyAt : t.keyAt id = some key
  hashAt : ∀ e, t.entryAt id = some e → e.hash = t.hash key
  unlinked : ∀ place, id ∉ (t.slot place).chain

theorem Sound.chain_attach (hs : t.Sound) (key : Bytes) (id : EntryId) (place : Nat) :
    ((t.attach (t.placeOf key) id).slot place).chain =
      if t.placeOf key = place then id :: (t.slot place).chain else (t.slot place).chain := by
  have hlt := hs.placeOf_lt key
  rw [attach, slot_modifySlot]
  by_cases hplace : t.placeOf key = place
  · rw [if_pos ⟨hplace, hplace ▸ hlt⟩, if_pos hplace]
  · rw [if_neg (not_and_of_not_left _ hplace), if_neg hplace]

theorem Sound.mem_attach (hs : t.Sound) {place : Nat} {other : EntryId}
    (hmem : other ∈ ((t.attach (t.placeOf key) id).slot place).chain) :
    (other = id ∧ t.placeOf key = place) ∨ other ∈ (t.slot place).chain := by
  rw [hs.chain_attach] at hmem
  split at hmem
  next hplace =>
    rcases List.mem_cons.mp hmem with hnew | hold
    · exact .inl ⟨hnew, hplace⟩
    · exact .inr hold
  · exact .inr hmem

theorem Sound.attach (hs : t.Sound) (hfresh : t.entryOf key = none) (hloose : t.IsLoose key id) :
    (t.attach (t.placeOf key) id).Sound where
  oneShard := hs.oneShard
  slots_size := by simpa [Table.attach, modifySlot] using hs.slots_size
  linked place other hmem := by
    rcases hs.mem_attach hmem with ⟨rfl, hplace⟩ | hold
    · obtain ⟨e, he, hkey⟩ := Option.map_eq_some_iff.mp hloose.keyAt
      exact ⟨e, he, by rw [hkey]; exact hloose.hashAt e he, by rw [hkey]; exact hplace⟩
    · exact hs.linked place other hold
  single place other other' hmem hmem' hsame := by
    have hnone := hs.entryOf_eq_none_iff.mp hfresh
    have hkeys : ∀ other, (t.attach (t.placeOf key) id).keyAt other = t.keyAt other := fun _ => rfl
    rw [hkeys, hkeys] at hsame
    -- Of two entries the new one can be both, one of them, or neither; its key is new in the chain.
    rcases hs.mem_attach hmem with ⟨rfl, hplace⟩ | hold <;>
      rcases hs.mem_attach hmem' with ⟨rfl, hplace'⟩ | hold'
    · rfl
    · exact absurd (hsame.symm.trans hloose.keyAt) (hnone other' (hplace ▸ hold'))
    · exact absurd (hsame.trans hloose.keyAt) (hnone other (hplace' ▸ hold))
    · exact hs.single place other other' hold hold' hsame
  nodup place := by
    rw [hs.chain_attach]
    split
    · exact List.nodup_cons.mpr ⟨hloose.unlinked place, hs.nodup place⟩
    · exact hs.nodup place
  fits := hs.fits

/-- The entry is what its key leads to, and other keys lead where they led before. -/
theorem Sound.entryOf_attach (hs : t.Sound) (hfresh : t.entryOf key = none)
    (hloose : t.IsLoose key id) (other : Bytes) :
    (t.attach (t.placeOf key) id).entryOf other =
      if other = key then some id else t.entryOf other := by
  have hsound := hs.attach hfresh hloose
  have hplaces : (t.attach (t.placeOf key) id).placeOf other = t.placeOf other := rfl
  have hkeys : ∀ id', (t.attach (t.placeOf key) id).keyAt id' = t.keyAt id' := fun _ => rfl
  by_cases hother : other = key
  · subst hother
    rw [if_pos rfl, hsound.entryOf_eq_some_iff, hplaces, hs.chain_attach, if_pos rfl]
    exact ⟨List.mem_cons_self, hloose.keyAt⟩
  · rw [if_neg hother]
    refine Option.ext fun id' => ?_
    rw [hsound.entryOf_eq_some_iff, hs.entryOf_eq_some_iff, hplaces, hkeys]
    constructor
    · rintro ⟨hmem, hkey⟩
      rcases hs.mem_attach hmem with ⟨rfl, -⟩ | hold
      · exact absurd (Option.some.inj (hkey.symm.trans hloose.keyAt)) hother
      · exact ⟨hold, hkey⟩
    · rintro ⟨hmem, hkey⟩
      rw [hs.chain_attach]
      refine ⟨?_, hkey⟩
      split
      · exact List.mem_cons_of_mem _ hmem
      · exact hmem

/-! ## A new entry for a key -/

/-- A table with a new entry for a key in the place of this key. -/
abbrev withNew (t : Table) (key value : Bytes) : Table :=
  (t.enlist (.new (t.hash key) key value)).link (t.placeOf key) t.entries.size

theorem entryAt_withNew (t : Table) (key value : Bytes) (id : EntryId) :
    (t.withNew key value).entryAt id =
      if id = t.entries.size then some (.new (t.hash key) key value) else t.entryAt id :=
  t.entryAt_enlist _ id

theorem Sound.isLoose_enlist (hs : t.Sound) (key value : Bytes) :
    (t.enlist (.new (t.hash key) key value)).IsLoose key t.entries.size where
  keyAt := by rw [Table.keyAt, entryAt_enlist, if_pos rfl]; rfl
  hashAt e he := by
    rw [entryAt_enlist, if_pos rfl] at he
    rw [← Option.some.inj he]
    rfl
  unlinked place hmem := (hs.lt_of_mem hmem).false

theorem Sound.withNew (hs : t.Sound) (hfresh : t.entryOf key = none) (value : Bytes) :
    (t.withNew key value).Sound := by
  have hnew : (t.enlist (.new (t.hash key) key value)).Sound := hs.enlist le_rfl
  have hattached := hnew.attach (by rwa [hs.entryOf_enlist le_rfl]) (hs.isLoose_enlist key value)
  exact { hattached with }

/-- A new entry is what its key leads to, and other keys lead where they led before. -/
theorem Sound.entryOf_withNew (hs : t.Sound) (hfresh : t.entryOf key = none)
    (value other : Bytes) :
    (t.withNew key value).entryOf other =
      if other = key then some t.entries.size else t.entryOf other := by
  have hnew : (t.enlist (.new (t.hash key) key value)).Sound := hs.enlist le_rfl
  have hattached := hnew.entryOf_attach (by rwa [hs.entryOf_enlist le_rfl])
    (hs.isLoose_enlist key value) other
  rw [hs.entryOf_enlist le_rfl] at hattached
  exact hattached

end Table

end KeyValueServer
