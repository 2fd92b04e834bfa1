import KeyValueServer.Proofs.Traffic.Ledger

/-!
# What stakes say about a table

A move changes a chain only under an exclusive hold on its slot, and the value of an entry only
under an exclusive hold on the entry. So it leaves true what the stakes of all other threads say
about the table.
-/

namespace KeyValueServer

/-- The key whose entry is being changed, if any. -/
def Role.revised : Role → Option Bytes
  | .writing key _ _ _ => some key
  | .cleared key _ => some key
  | .fresh key _ _ => some key
  | _ => none

/-- The tables differ only where a stake has exclusive holds, and no entry has lost its key. -/
structure Table.Spares (t t' : Table) (stake : Stake) : Prop where
  hash : t'.hash = t.hash
  layout : t'.layout = t.layout
  chain : ∀ place, stake.slot ≠ some (place, .exclusive) →
    (t'.slot place).chain = (t.slot place).chain
  linked : ∀ place id, id ∈ (t'.slot place).chain →
    id ∈ (t.slot place).chain ∨ stake.entry = some (id, .exclusive)
  record : ∀ id e, t.entryAt id = some e → ∃ e', t'.entryAt id = some e' ∧ e'.key = e.key ∧
    e'.hash = e.hash ∧ e'.capacity = e.capacity ∧
    (stake.entry ≠ some (id, .exclusive) → e'.storage = e.storage ∧ e'.size = e.size)

namespace Table.Spares

variable {t t' : Table} {stake : Stake} {key value : Bytes} {id : EntryId}

theorem of_contents_eq (h : t'.contents = t.contents) (stake : Stake) : t.Spares t' stake where
  hash := hash_eq h
  layout := layout_eq h
  chain place _ := chain_eq h place
  linked place id hmem := .inl (by rwa [chain_eq h] at hmem)
  record id e he := by
    have hentry := entryAt_eq h id
    rw [he, Option.map_some, Option.map_eq_some_iff] at hentry
    obtain ⟨e', he', hsame⟩ := hentry
    obtain ⟨hhash, hkey, hstorage, hsize⟩ :
        e'.hash = e.hash ∧ e'.key = e.key ∧ e'.storage = e.storage ∧ e'.size = e.size := by
      simpa [Entry.contents] using hsame
    exact ⟨e', he', hkey, hhash, congrArg List.length hstorage, fun _ => ⟨hstorage, hsize⟩⟩

theorem modifyEntry {f : Entry → Entry} (hkey : ∀ e, (f e).key = e.key)
    (hhash : ∀ e, (f e).hash = e.hash) (hcapacity : ∀ e, (f e).capacity = e.capacity)
    (hheld : stake.entry = some (id, .exclusive)) : t.Spares (t.modifyEntry id f) stake where
  hash := rfl
  layout := rfl
  chain _ _ := rfl
  linked _ _ hmem := .inl hmem
  record other e he := by
    rw [entryAt_modifyEntry, he]
    by_cases hid : id = other
    · refine ⟨f e, by rw [if_pos hid]; rfl, hkey e, hhash e, hcapacity e, fun hfree => ?_⟩
      exact absurd (hid ▸ hheld) hfree
    · exact ⟨e, if_neg hid, rfl, rfl, rfl, fun _ => ⟨rfl, rfl⟩⟩

theorem enlist (e : Entry) (stake : Stake) : t.Spares (t.enlist e) stake where
  hash := rfl
  layout := rfl
  chain _ _ := rfl
  linked _ _ hmem := .inl hmem
  record id e' he := by
    have hlt := (Array.getElem?_eq_some_iff.mp he).1
    exact ⟨e', by rw [entryAt_enlist, if_neg hlt.ne, he], rfl, rfl, rfl, fun _ => ⟨rfl, rfl⟩⟩

theorem recount (t : Table) (size : Nat) (stake : Stake) :
    t.Spares { t with size } stake where
  hash := rfl
  layout := rfl
  chain _ _ := rfl
  linked _ _ hmem := .inl hmem
  record _ e he := ⟨e, he, rfl, rfl, rfl, fun _ => ⟨rfl, rfl⟩⟩

theorem mem_of_detach {place place' : Nat} {id other : EntryId}
    (hmem : other ∈ ((t.detach place id).slot place').chain) : other ∈ (t.slot place').chain := by
  rw [Table.chain_detach] at hmem
  split at hmem
  · exact List.mem_of_mem_erase hmem
  · exact hmem

theorem detach {place : Nat} (hslot : stake.slot = some (place, .exclusive)) :
    t.Spares (t.detach place id) stake where
  hash := rfl
  layout := rfl
  chain place' hfree := by
    rw [Table.chain_detach, if_neg]
    rintro rfl
    exact hfree hslot
  linked place' other hmem := .inl (mem_of_detach hmem)
  record _ e he := ⟨e, he, rfl, rfl, rfl, fun _ => ⟨rfl, rfl⟩⟩

theorem attach (hs : t.Sound) (hslot : stake.slot = some (t.placeOf key, .exclusive))
    (hentry : stake.entry = some (id, .exclusive)) :
    t.Spares (t.attach (t.placeOf key) id) stake where
  hash := rfl
  layout := rfl
  chain place hfree := by
    rw [hs.chain_attach, if_neg]
    rintro rfl
    exact hfree hslot
  linked place other hmem := by
    rcases hs.mem_attach hmem with ⟨rfl, -⟩ | hold
    · exact .inr hentry
    · exact .inl hold
  record _ e he := ⟨e, he, rfl, rfl, rfl, fun _ => ⟨rfl, rfl⟩⟩

theorem trans {t'' : Table} (h : t.Spares t' stake) (h' : t'.Spares t'' stake) :
    t.Spares t'' stake where
  hash := h'.hash.trans h.hash
  layout := h'.layout.trans h.layout
  chain place hfree := (h'.chain place hfree).trans (h.chain place hfree)
  linked place id hmem := by
    rcases h'.linked place id hmem with hold | hheld
    · exact h.linked place id hold
    · exact .inr hheld
  record id e he := by
    obtain ⟨e₁, he₁, hkey₁, hhash₁, hcapacity₁, hsame₁⟩ := h.record id e he
    obtain ⟨e₂, he₂, hkey₂, hhash₂, hcapacity₂, hsame₂⟩ := h'.record id e₁ he₁
    refine ⟨e₂, he₂, hkey₂.trans hkey₁, hhash₂.trans hhash₁, hcapacity₂.trans hcapacity₁, ?_⟩
    intro hfree
    obtain ⟨hstorage₁, hsize₁⟩ := hsame₁ hfree
    obtain ⟨hstorage₂, hsize₂⟩ := hsame₂ hfree
    exact ⟨hstorage₂.trans hstorage₁, hsize₂.trans hsize₁⟩

theorem placeOf_eq (h : t.Spares t' stake) (key : Bytes) : t'.placeOf key = t.placeOf key := by
  rw [placeOf, placeOf, h.hash, h.layout]

theorem keyAt_eq (h : t.Spares t' stake) (hid : t.keyAt id = some key) :
    t'.keyAt id = some key := by
  obtain ⟨e, he, rfl⟩ := Option.map_eq_some_iff.mp hid
  obtain ⟨e', he', hkey, -⟩ := h.record id e he
  rw [keyAt, he', Option.map_some, hkey]

theorem le_capacityOf (h : t.Spares t' stake) {length : Nat} (hid : length ≤ t.capacityOf id) :
    length ≤ t'.capacityOf id := by
  cases he : t.entryAt id with
  | none =>
      rw [capacityOf, he] at hid
      exact hid.trans (Nat.zero_le _)
  | some e =>
      obtain ⟨e', he', -, -, hcapacity, -⟩ := h.record id e he
      rw [capacityOf, he'] at *
      rw [he] at hid
      exact hid.trans_eq hcapacity.symm

theorem valueAt_eq (h : t.Spares t' stake) (hfree : stake.entry ≠ some (id, .exclusive))
    (hid : t.valueAt id = some value) : t'.valueAt id = some value := by
  obtain ⟨e, he, rfl⟩ := Option.map_eq_some_iff.mp hid
  obtain ⟨e', he', -, -, -, hsame⟩ := h.record id e he
  obtain ⟨hstorage, hsize⟩ := hsame hfree
  rw [valueAt, he', Option.map_some, Entry.value, hstorage, hsize]
  rfl

theorem entryOf_eq (h : t.Spares t' stake) (hs : t.Sound) (hs' : t'.Sound)
    (hfree : stake.slot ≠ some (t.placeOf key, .exclusive)) : t'.entryOf key = t.entryOf key := by
  refine hs.entryOf_congr hs' (h.placeOf_eq key) (h.chain _ hfree) fun id hmem => ?_
  obtain ⟨e, he, -, -⟩ := hs.linked _ id hmem
  have hkey : t.keyAt id = some e.key := by rw [keyAt, he, Option.map_some]
  rw [hkey, h.keyAt_eq hkey]

theorem isLoose (h : t.Spares t' stake) (hfree : stake.entry ≠ some (id, .exclusive))
    (hloose : t.IsLoose key id) : t'.IsLoose key id where
  keyAt := h.keyAt_eq hloose.keyAt
  hashAt e' he' := by
    obtain ⟨e, he, -⟩ := Option.map_eq_some_iff.mp hloose.keyAt
    obtain ⟨found, hfound, -, hhash, -⟩ := h.record id e he
    obtain rfl := Option.some.inj (hfound.symm.trans he')
    rw [hhash, h.hash, hloose.hashAt e he]
  unlinked place hmem := by
    rcases h.linked place id hmem with hold | hheld
    · exact hloose.unlinked place hold
    · exact hfree hheld

end Table.Spares

theorem Entry.take_writeByte {e : Entry} {value : Bytes} {count : Nat} {byte : UInt8}
    (hcopied : e.storage.take count = value.take count) (hcount : count < e.capacity)
    (hbyte : value[count]? = some byte) :
    (e.writeByte count byte).storage.take (count + 1) = value.take (count + 1) := by
  rw [writeByte, List.take_add_one, List.take_add_one, List.take_set_of_le le_rfl, hcopied, hbyte,
    List.getElem?_set_self hcount]

namespace Stake

variable {t t' : Table} {stake mover before after : Stake} {thread : ThreadId} {key value : Bytes}
  {request : TableRequest} {result : Option (Except Error Bytes)}

/-! ## What others say stays true -/

theorem Stands.frame (h : stake.Stands t) (hs : t.Sound) (hs' : t'.Sound)
    (hspares : t.Spares t' mover)
    (hslot : ∀ place mode, stake.slot = some (place, mode) → mover.slot ≠ some (place, .exclusive))
    (hentry : ∀ id mode, stake.entry = some (id, mode) → mover.entry ≠ some (id, .exclusive)) :
    stake.Stands t' := by
  obtain ⟨slot, entry, role⟩ := stake
  cases role with
  | idle => exact h
  | found key id length =>
      obtain ⟨⟨mode, rfl⟩, rfl, hid, hfits⟩ := h
      refine ⟨⟨mode, by rw [hspares.placeOf_eq]⟩, rfl, ?_, hspares.le_capacityOf hfits⟩
      rw [hspares.entryOf_eq hs hs' (hslot _ _ rfl), hid]
  | writing key value id count =>
      obtain ⟨⟨mode, rfl⟩, rfl, hid, hfits, hcount, hcopied⟩ := h
      refine ⟨⟨mode, by rw [hspares.placeOf_eq]⟩, rfl, ?_, hspares.le_capacityOf hfits, hcount, ?_⟩
      · rw [hspares.entryOf_eq hs hs' (hslot _ _ rfl), hid]
      · intro e' he'
        obtain ⟨e, he, -⟩ := hs.mem_of_entryOf hid
        obtain ⟨found, hfound, -, -, -, hsame⟩ := hspares.record id e he
        obtain rfl := Option.some.inj (hfound.symm.trans he')
        rw [(hsame (hentry _ _ rfl)).1, hcopied e he]
  | cleared key counted =>
      obtain ⟨rfl, rfl, hnone⟩ := h
      refine ⟨by rw [hspares.placeOf_eq], rfl, ?_⟩
      rw [hspares.entryOf_eq hs hs' (hslot _ _ rfl), hnone]
  | fresh key value id =>
      obtain ⟨rfl, rfl, hnone, hloose, hvalue⟩ := h
      refine ⟨by rw [hspares.placeOf_eq], rfl, ?_, hspares.isLoose (hentry _ _ rfl) hloose,
        hspares.valueAt_eq (hentry _ _ rfl) hvalue⟩
      rw [hspares.entryOf_eq hs hs' (hslot _ _ rfl), hnone]
  | linked key value id =>
      obtain ⟨rfl, rfl, hid, hvalue⟩ := h
      refine ⟨by rw [hspares.placeOf_eq], rfl, ?_, hspares.valueAt_eq (hentry _ _ rfl) hvalue⟩
      rw [hspares.entryOf_eq hs hs' (hslot _ _ rfl), hid]
  | showing id value =>
      obtain ⟨⟨mode, rfl⟩, hvalue⟩ := h
      exact ⟨⟨mode, rfl⟩, hspares.valueAt_eq (hentry _ _ rfl) hvalue⟩

theorem Stands.of_contents_eq (h : stake.Stands t) (hs : t.Sound)
    (hcontents : t'.contents = t.contents) : stake.Stands t' :=
  h.frame hs (hs.of_contents_eq hcontents) (.of_contents_eq hcontents .idle) (by simp [idle])
    (by simp [idle])

/-! ## What a move does to the table -/

theorem Stands.le_capacity {entry : Option (EntryId × LockMode)} {slot : Option (Nat × LockMode)}
    {id : EntryId} {count : Nat} {e : Entry}
    (h : Stands t ⟨slot, entry, .writing key value id count⟩)
    (he : t.entryAt id = some e) : value.length ≤ e.capacity := by
  obtain ⟨-, -, -, hfits, -⟩ := h
  rwa [Table.capacityOf, he] at hfits

theorem Move.sound (hmove : Move thread request t before t' after result) (hs : t.Sound)
    (hstands : before.Stands t) : t'.Sound := by
  cases hmove with
  | stay halike | find halike => exact hs.of_contents_eq halike.contents
  | enterSlot henter => exact hs.of_contents_eq (Table.contents_enterSlot henter)
  | leaveSlot | partFromSlot => exact hs.of_contents_eq (Table.contents_leaveSlot _ _ _ _)
  | miss | clear => exact hs
  | take henter | grip henter => exact hs.of_contents_eq (Table.contents_enterEntry henter)
  | write =>
      refine hs.modifyEntry _ (fun _ => rfl) (fun _ => rfl) fun e he => ?_
      simpa [Entry.writeByte, Entry.capacity] using hs.fits _ e he
  | resize =>
      refine hs.modifyEntry _ (fun _ => rfl) (fun _ => rfl) fun e he => ?_
      have hfits : _ ≤ e.capacity := hstands.le_capacity he
      exact hfits
  | detach => exact hs.detach _ _
  | countDown | countUp => exact { hs with }
  | adopt => exact (hs.enlist le_rfl).of_contents_eq (Table.contents_adopt_eq _ _ _ _)
  | attach =>
      obtain ⟨-, -, hnone, hloose, -⟩ := hstands
      exact hs.attach hnone hloose
  | leaveEntry => exact hs.of_contents_eq (Table.contents_leaveEntry _ _ _ _)

theorem Move.spares (hmove : Move thread request t before t' after result) (hs : t.Sound)
    (hstands : before.Stands t) : t.Spares t' before := by
  cases hmove with
  | stay halike | find halike => exact .of_contents_eq halike.contents _
  | enterSlot henter => exact .of_contents_eq (Table.contents_enterSlot henter) _
  | leaveSlot | partFromSlot => exact .of_contents_eq (Table.contents_leaveSlot _ _ _ _) _
  | miss | clear => exact .of_contents_eq rfl _
  | take henter | grip henter => exact .of_contents_eq (Table.contents_enterEntry henter) _
  | write =>
      obtain ⟨-, hheld, -⟩ := hstands
      exact .modifyEntry (fun _ => rfl) (fun _ => rfl) (fun _ => List.length_set) hheld
  | resize =>
      obtain ⟨-, hheld, -⟩ := hstands
      exact .modifyEntry (fun _ => rfl) (fun _ => rfl) (fun _ => rfl) hheld
  | detach => exact .detach rfl
  | countDown | countUp => exact .recount _ _ _
  | adopt =>
      exact (Table.Spares.enlist _ _).trans (.of_contents_eq (Table.contents_adopt_eq _ _ _ _) _)
  -- The one entry that is new to a chain is the one that the mover made and holds.
  | attach =>
      obtain ⟨hslot, hheld, -⟩ := hstands
      exact .attach hs hslot hheld
  | leaveEntry => exact .of_contents_eq (Table.contents_leaveEntry _ _ _ _) _

/-- After its move the mover, too, says nothing but what is true. -/
theorem Move.stands (hmove : Move thread request t before t' after result) (hs : t.Sound)
    (hstands : before.Stands t) : after.Stands t' := by
  have hspares := hmove.spares hs hstands
  have hs' := hmove.sound hs hstands
  cases hmove with
  | stay halike => exact hstands.of_contents_eq hs halike.contents
  | enterSlot | leaveSlot | leaveEntry => rfl
  | miss => exact hstands
  -- What is known of the value rests on the entry alone, so the slot can go.
  | @partFromSlot _ _ _ _ entry id value =>
      have hshowing : Stands t ⟨none, entry, .showing id value⟩ := hstands
      exact hshowing.of_contents_eq hs (Table.contents_leaveSlot _ _ _ _)
  | @find _ _ _ key mode id length halike hentry hfits =>
      have hfound : Stands t ⟨some (t.placeOf key, mode), none, .found key id length⟩ :=
        ⟨⟨mode, rfl⟩, rfl, hentry, hfits⟩
      exact hfound.of_contents_eq hs halike.contents
  | @take _ _ key value mode id length henter hvalue =>
      have hshowing : Stands t
          ⟨some (t.placeOf key, mode), some (id, .shared), .showing id value⟩ :=
        ⟨⟨.shared, rfl⟩, hvalue⟩
      exact hshowing.of_contents_eq hs (Table.contents_enterEntry henter)
  | @grip _ _ _ key value mode id henter =>
      obtain ⟨hslot, -, hentry, hfits⟩ := hstands
      have hwriting : Stands t
          ⟨some (t.placeOf key, mode), some (id, .exclusive), .writing key value id 0⟩ :=
        ⟨hslot, rfl, hentry, hfits, Nat.zero_le _, fun _ _ => rfl⟩
      exact hwriting.of_contents_eq hs (Table.contents_enterEntry henter)
  | @write _ _ slot entry key value id count byte hbyte =>
      have hcapacity {e : Entry} (he : t.entryAt id = some e) : value.length ≤ e.capacity :=
        hstands.le_capacity he
      obtain ⟨hslot, hheld, hentry, hfits, -, hcopied⟩ := hstands
      have hlt : count < value.length := (List.getElem?_eq_some_iff.mp hbyte).1
      refine ⟨hslot, hheld, ?_, hspares.le_capacityOf hfits, hlt, fun e' he' => ?_⟩
      · rw [hs.entryOf_modifyEntry hs' fun _ => rfl, hentry]
      -- The byte goes just behind those copied so far, which leaves these as they are.
      · rw [Table.entryAt_modifyEntry, if_pos rfl] at he'
        obtain ⟨e, he, rfl⟩ := Option.map_eq_some_iff.mp he'
        exact Entry.take_writeByte (hcopied e he) (hlt.trans_le (hcapacity he)) hbyte
  | @resize _ slot entry key value id =>
      obtain ⟨-, hheld, hentry, -, -, hcopied⟩ := hstands
      obtain ⟨e, he, -⟩ := hs.mem_of_entryOf hentry
      have hvalue : (e.resize value.length).value = value := by
        rw [Entry.value, Entry.resize, hcopied e he, List.take_length]
      refine ⟨⟨_, hheld⟩, ?_⟩
      rw [Table.valueAt, Table.entryAt_modifyEntry, if_pos rfl, he, Option.map_some,
        Option.map_some, hvalue]
  | @clear _ _ key hentry => exact ⟨rfl, rfl, hentry⟩
  | @detach _ _ key id hentry =>
      refine ⟨rfl, rfl, ?_⟩
      rw [hs.entryOf_detach hentry, if_pos rfl]
  | countDown => exact hstands
  | @adopt _ _ slot key value =>
      obtain ⟨hslot, -, hnone⟩ := hstands
      have hvalue :
          (t.enlist (.new (t.hash key) key value)).valueAt t.entries.size = some value := by
        rw [Table.valueAt, Table.entryAt_enlist, if_pos rfl]
        exact congrArg some List.take_length
      have hfresh : Stands (t.enlist (.new (t.hash key) key value))
          ⟨slot, some (t.entries.size, .exclusive), .fresh key value t.entries.size⟩ :=
        ⟨hslot, rfl, by rw [hs.entryOf_enlist le_rfl, hnone], hs.isLoose_enlist key value, hvalue⟩
      exact hfresh.of_contents_eq (hs.enlist le_rfl) (Table.contents_adopt_eq _ _ _ _)
  | @attach _ slot entry key value id =>
      obtain ⟨hslot, hheld, hnone, hloose, hvalue⟩ := hstands
      refine ⟨hslot, hheld, ?_, hvalue⟩
      rw [hs.entryOf_attach hnone hloose, if_pos rfl]
  | countUp =>
      obtain ⟨-, hheld, -, hvalue⟩ := hstands
      exact ⟨⟨_, hheld⟩, hvalue⟩

end Stake

end KeyValueServer
