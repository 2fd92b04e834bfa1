import KeyValueServer.Proofs.Custody.Holdings
import KeyValueServer.Proofs.Traffic.Framing

/-!
# What calls rely on

A call relies on what it has found only while it holds the slot, and a chain changes only under an
exclusive hold on its slot. So what a call relies on stays true whatever other calls do, and a call
that puts an entry into a chain finds that its key has none. The key and the value of an entry
change for nobody but the call that holds it exclusively.
-/

namespace KeyValueServer

open Function (update)

namespace Footprint

/-- The entry that was made by the call and is not linked yet. -/
def made (foot : Footprint) : Option EntryId :=
  match foot.notice with
  | .made _ id => some id
  | _ => none

/-- The entry that the next step may change or link. -/
def touched (foot : Footprint) : Option EntryId :=
  match foot.notice with
  | .fits id _ => if foot.entry = some ⟨id, .exclusive⟩ then some id else none
  | .made _ id => some id
  | _ => none

/-- The stake of a call in what its next step may change, which it has to itself. -/
abbrev mover (foot : Footprint) : Stake :=
  ⟨foot.slot, foot.touched.map fun id => (id, .exclusive), .idle⟩

/-- What a call relies on is so. -/
def Stands (t : Table) (foot : Footprint) : Prop :=
  match foot.notice with
  | .nothing => True
  | .fits id length => length ≤ t.capacityOf id
  | .cleared key => foot.slot = some (t.placeOf key, .exclusive) ∧ t.entryOf key = none
  | .made key id =>
      foot.slot = some (t.placeOf key, .exclusive) ∧ t.entryOf key = none ∧ t.IsLoose key id ∧
        ∃ mode, foot.entry = some ⟨id, mode⟩

variable {t t' : Table} {foot before after : Footprint} {stake : Stake} {thread : ThreadId}
  {freed : Option EntryId} {id : EntryId}

/-! ## What others rely on stays true -/

theorem Stands.frame (h : foot.Stands t) (hs : t.Sound) (hs' : t'.Sound)
    (hspares : t.Spares t' stake)
    (hslot : ∀ place mode, foot.slot = some (place, mode) → stake.slot ≠ some (place, .exclusive))
    (hentry : ∀ id, foot.made = some id → stake.entry ≠ some (id, .exclusive)) :
    foot.Stands t' := by
  obtain ⟨slot, entry, refers, leaving, notice⟩ := foot
  cases notice with
  | nothing => trivial
  | fits id length => exact hspares.le_capacityOf h
  | cleared key =>
      obtain ⟨rfl, hnone⟩ := h
      refine ⟨by rw [hspares.placeOf_eq], ?_⟩
      rw [hspares.entryOf_eq hs hs' (hslot _ _ rfl), hnone]
  | made key id =>
      obtain ⟨rfl, hnone, hloose, hheld⟩ := h
      refine ⟨by rw [hspares.placeOf_eq], ?_, hspares.isLoose (hentry id rfl) hloose, hheld⟩
      rw [hspares.entryOf_eq hs hs' (hslot _ _ rfl), hnone]

theorem Stands.of_spares (h : foot.Stands t) (hs : t.Sound) (hs' : t'.Sound)
    (hspares : t.Spares t' .idle) : foot.Stands t' :=
  h.frame hs hs' hspares (by simp [Stake.idle]) (by simp [Stake.idle])

/-- An entry that was made and is not linked is one of the entries of the table. -/
theorem Stands.made_lt (h : foot.Stands t) (hmade : foot.made = some id) :
    id < t.entries.size := by
  obtain ⟨slot, entry, refers, leaving, notice⟩ := foot
  cases notice with
  | made key id' =>
      obtain rfl : id' = id := Option.some.inj hmade
      obtain ⟨-, -, hloose, -⟩ := h
      obtain ⟨e, he, -⟩ := Option.map_eq_some_iff.mp hloose.keyAt
      exact (Array.getElem?_eq_some_iff.mp he).1
  | _ => contradiction

/-! ## What a move does to the table -/

theorem Move.sound (hmove : Move thread t before t' after freed) (hs : t.Sound)
    (hstands : before.Stands t) : t'.Sound := by
  cases hmove with
  | recount | retire | pop => exact { hs with }
  | forgo | clear | free => exact hs
  | enterSlot henter => exact hs.of_contents_eq (Table.contents_enterSlot henter)
  | leaveSlot => exact hs.of_contents_eq (Table.contents_leaveSlot ..)
  | retain => exact hs.of_contents_eq (Table.contents_retain ..)
  | enterEntry _ _ henter => exact hs.of_contents_eq (Table.contents_enterEntry henter)
  | leaveEntry => exact hs.of_contents_eq (Table.contents_leaveEntry ..)
  | forget => exact hs.of_contents_eq (Table.contents_forget ..)
  | write =>
      refine hs.modifyEntry _ (fun _ => rfl) (fun _ => rfl) fun e he => ?_
      simpa [Entry.writeByte, Entry.capacity] using hs.fits _ e he
  | resize =>
      refine hs.modifyEntry _ (fun _ => rfl) (fun _ => rfl) fun e he => ?_
      have hfits : _ ≤ t.capacityOf _ := hstands
      rw [Table.capacityOf, he] at hfits
      exact hfits
  | detach => exact hs.detach _ _
  | adopt => exact (hs.enlist le_rfl).of_contents_eq (Table.contents_adopt_eq ..)
  | attach =>
      obtain ⟨-, hnone, hloose, -⟩ := hstands
      exact hs.attach hnone hloose

/-- A move changes a chain only under an exclusive hold on its slot, and an entry only for the call
that has it to itself. -/
theorem Move.spares (hmove : Move thread t before t' after freed) (hs : t.Sound)
    (hstands : before.Stands t) : t.Spares t' before.mover := by
  cases hmove with
  | recount => exact .recount _ _ _
  | forgo | clear | free | retire | pop => exact .of_contents_eq (by rfl) _
  | enterSlot henter => exact .of_contents_eq (Table.contents_enterSlot henter) _
  | leaveSlot => exact .of_contents_eq (Table.contents_leaveSlot ..) _
  | retain => exact .of_contents_eq (Table.contents_retain ..) _
  | enterEntry _ _ henter => exact .of_contents_eq (Table.contents_enterEntry henter) _
  | leaveEntry => exact .of_contents_eq (Table.contents_leaveEntry ..) _
  | forget => exact .of_contents_eq (Table.contents_forget ..) _
  | write =>
      exact .modifyEntry (fun _ => rfl) (fun _ => rfl) (fun _ => List.length_set) (by
        simp [touched])
  | resize =>
      exact .modifyEntry (fun _ => rfl) (fun _ => rfl) (fun _ => rfl) (by simp [touched])
  | detach => exact .detach rfl
  | adopt =>
      exact (Table.Spares.enlist _ _).trans (.of_contents_eq (Table.contents_adopt_eq ..) _)
  | attach =>
      obtain ⟨hslot, -⟩ := hstands
      exact .attach hs hslot rfl

/-- After its move a call relies on nothing but what is so. -/
theorem Move.stands (hmove : Move thread t before t' after freed) (hs : t.Sound)
    (hstands : before.Stands t) : after.Stands t' := by
  have hspares := hmove.spares hs hstands
  have hs' := hmove.sound hs hstands
  cases hmove with
  | recount => exact hstands.of_spares hs hs' (.recount _ _ _)
  | forgo | enterSlot | leaveSlot | leaveEntry | resize | forget | attach | pop | free => trivial
  | retain handle hentry hfits =>
      rw [← Table.capacityOf_eq (t.contents_retain handle.id)] at hfits
      exact hfits
  | @enterEntry _ slot handle mode notice after henter hafter =>
      rcases hafter with rfl | rfl
      · have hkept :=
          hstands.of_spares hs hs' (.of_contents_eq (Table.contents_enterEntry henter) _)
        cases after with
        | made =>
            obtain ⟨-, -, -, mode', hheld⟩ := hstands
            contradiction
        | _ => exact hkept
      · trivial
  | write => exact hspares.le_capacityOf hstands
  | clear hentry => exact ⟨rfl, hentry⟩
  | detach hentry => exact ⟨rfl, by rw [hs.entryOf_detach hentry, if_pos rfl]⟩
  | @adopt slot key value mode =>
      obtain ⟨hslot, hnone⟩ := hstands
      have hmade : Stands (t.enlist (.new (t.hash key) key value))
          ⟨slot, some ⟨t.entries.size, mode⟩, some ⟨t.entries.size, mode⟩, none,
            .made key t.entries.size⟩ :=
        ⟨hslot, by rw [hs.entryOf_enlist le_rfl, hnone], hs.isLoose_enlist key value, mode, rfl⟩
      exact hmade.of_spares (hs.enlist le_rfl) hs'
        (.of_contents_eq (Table.contents_adopt_eq ..) _)
  | retire => exact hstands.of_spares hs hs' (.of_contents_eq (by rfl) _)

/-- The key and the value of an entry stay what they are while the call is not about to write into
the entry. -/
theorem Move.record_eq_of_notice (hmove : Move thread t before t' after freed)
    (hid : id < t.entries.size)
    (hfree : ∀ length, before.notice = .fits id length → before.entry ≠ some ⟨id, .exclusive⟩) :
    t'.keyAt id = t.keyAt id ∧ t'.valueAt id = t.valueAt id := by
  have hsame {t t' : Table} (h : t'.contents = t.contents) :
      t'.keyAt id = t.keyAt id ∧ t'.valueAt id = t.valueAt id :=
    ⟨Table.keyAt_eq h id, Table.map_entryAt_eq Entry.value_contents h id⟩
  cases hmove with
  | recount | forgo | clear | free | retire | pop | detach | attach => exact ⟨rfl, rfl⟩
  | enterSlot henter => exact hsame (Table.contents_enterSlot henter)
  | leaveSlot => exact hsame (Table.contents_leaveSlot ..)
  | retain => exact hsame (Table.contents_retain ..)
  | enterEntry _ _ henter => exact hsame (Table.contents_enterEntry henter)
  | leaveEntry => exact hsame (Table.contents_leaveEntry ..)
  | forget => exact hsame (Table.contents_forget ..)
  | @write _ other | @resize _ other =>
      have hne : other ≠ id := by
        rintro rfl
        exact hfree _ rfl rfl
      exact ⟨by rw [Table.keyAt, Table.entryAt_modifyEntry, if_neg hne, Table.keyAt],
        Table.valueAt_modifyEntry_of_ne t hne⟩
  | adopt key value mode =>
      have hadopted := hsame (Table.contents_adopt_eq t thread mode (.new (t.hash key) key value))
      rw [Table.keyAt_enlist_of_lt _ hid, Table.valueAt, Table.valueAt, Table.entryAt_enlist,
        if_neg hid.ne, ← Table.valueAt, ← Table.valueAt] at hadopted
      exact hadopted

/-- The key and the value of an entry stay what they are while the call does not hold the entry
exclusively. -/
theorem Move.record_eq (hmove : Move thread t before t' after freed) (hid : id < t.entries.size)
    (hfree : before.entry ≠ some ⟨id, .exclusive⟩) :
    t'.keyAt id = t.keyAt id ∧ t'.valueAt id = t.valueAt id :=
  hmove.record_eq_of_notice hid fun _ _ => hfree

end Footprint

end KeyValueServer
