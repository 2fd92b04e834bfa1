import KeyValueServer.Proofs.Custody.Loans

/-!
# Writing over an entry

A call writes over the entry of its key, byte by byte and under an exclusive hold. What it has
written stays as it wrote it until it says how long the value is, since nobody else can get at the
entry. So in the end the entry has the value of the call whole.
-/

namespace KeyValueServer

open Function (update)

/-- The storage of an entry begins as a value does. -/
def Table.Copied (t : Table) (id : EntryId) (value : Bytes) (count : Nat) : Prop :=
  ∀ e, t.entryAt id = some e → e.storage.take count = value.take count

namespace TableCall

/-- The entry that a call is writing into. -/
def writes : TableCall → Option EntryId
  | .overwriting _ id _ (.copying _) => some id
  | .overwriting _ id _ .sizing => some id
  | _ => none

/-- An entry that a call writes over belongs to the key of the call, and has what the call has
written so far. -/
def HasWritten (t : Table) : TableCall → Prop
  | .overwriting _ id d (.copying count) => t.keyAt id = some d.key ∧ t.Copied id d.value count
  | .overwriting _ id d .sizing => t.keyAt id = some d.key ∧ t.Copied id d.value d.value.length
  | .overwriting _ id d _ => t.keyAt id = some d.key
  | _ => True

variable {call : TableCall} {t t' : Table} {id : EntryId} {stake : Stake}

theorem entry_of_writes (h : call.writes = some id) (place : Bytes → Nat) :
    (call.pending place).entry = some ⟨id, .exclusive⟩ := by
  unfold writes at h
  split at h
  · obtain rfl := Option.some.inj h
    rfl
  · obtain rfl := Option.some.inj h
    rfl
  · contradiction

theorem writes_of_notice {place : Bytes → Nat} {length : Nat}
    (hnotice : (call.footprint place).notice = .fits id length)
    (hentry : (call.footprint place).entry = some ⟨id, .exclusive⟩) : call.writes = some id := by
  cases call with
  | overwriting slotMode id' d progress =>
      cases progress with
      | locking => contradiction
      | copying | sizing =>
          obtain ⟨rfl, -⟩ := Notice.fits.inj hnotice
          rfl
      | loosening | relocking => contradiction
  | taking => contradiction
  | finished result =>
      rcases result with (_ | _) | _ | _ | _ <;> contradiction
  | _ => contradiction

/-- What others do leaves what was written as it is. -/
theorem HasWritten.frame (h : call.HasWritten t) (hspares : t.Spares t' stake)
    (hfree : ∀ id, call.writes = some id → stake.entry ≠ some (id, .exclusive)) :
    call.HasWritten t' := by
  have hcopied {id : EntryId} {value : Bytes} {count : Nat} {key : Bytes}
      (hwrites : call.writes = some id) (hkey : t.keyAt id = some key)
      (hcopied : t.Copied id value count) : t'.Copied id value count := by
    obtain ⟨e, he, -⟩ := Option.map_eq_some_iff.mp hkey
    obtain ⟨e', he', -, -, -, hsame⟩ := hspares.record id e he
    intro found hfound
    obtain rfl := Option.some.inj (he'.symm.trans hfound)
    rw [(hsame (hfree id hwrites)).1, hcopied e he]
  cases call with
  | overwriting slotMode id d progress =>
      cases progress with
      | copying count => exact ⟨hspares.keyAt_eq h.1, hcopied rfl h.1 h.2⟩
      | sizing => exact ⟨hspares.keyAt_eq h.1, hcopied rfl h.1 h.2⟩
      | locking | loosening | relocking => exact hspares.keyAt_eq h
  | _ => trivial

theorem HasWritten.of_contents_eq (h : call.HasWritten t) (hcontents : t'.contents = t.contents) :
    call.HasWritten t' :=
  h.frame (.of_contents_eq hcontents .idle) (by simp [Stake.idle])

end TableCall

namespace Traffic

variable {memory : Allocator} {s s' : Traffic} {thread : ThreadId}

theorem hasWritten_overwriteStep {slotMode : LockMode} {id : EntryId} {d : Deposit}
    {progress : Overwriting}
    (hw : (TableCall.overwriting slotMode id d progress).HasWritten s.table)
    (hstands : (progress.footprint (s.table.placeOf d.key) slotMode id d).Stands s.table)
    (hstep : s.overwriteStep thread slotMode id d progress = some s') :
    (s'.calls thread).HasWritten s'.table := by
  have hsame {t : Table} {progress : Overwriting} (h : t.contents = s.table.contents)
      (hw : (TableCall.overwriting slotMode id d progress).HasWritten s.table) :
      (TableCall.overwriting slotMode id d progress).HasWritten t := hw.of_contents_eq h
  cases progress with
  | locking =>
      obtain ⟨t, henter, rfl⟩ := Option.map_eq_some_iff.mp hstep
      rw [calls_advance_self]
      have hbegun : (TableCall.overwriting slotMode id d (.copying 0)).HasWritten s.table :=
        ⟨hw, fun _ _ => rfl⟩
      exact hsame (Table.contents_enterEntry henter) hbegun
  | copying count =>
      obtain ⟨hkey, hcopied⟩ := hw
      rw [overwriteStep] at hstep
      split at hstep
      next hend =>
        obtain rfl := Option.some.inj hstep
        rw [calls_start_self]
        refine ⟨hkey, fun e he => ?_⟩
        have hlong : d.value.length ≤ count := List.getElem?_eq_none_iff.mp hend
        have hwhole := congrArg (List.take d.value.length) (hcopied e he)
        rwa [List.take_take, List.take_take, min_eq_left hlong] at hwhole
      next byte hbyte =>
        obtain rfl := Option.some.inj hstep
        rw [calls_advance_self]
        have hkey' : (s.table.modifyEntry id fun e => e.writeByte count byte).keyAt id =
            some d.key := by
          rw [Table.keyAt_modifyEntry, hkey]
          exact fun _ => rfl
        refine ⟨hkey', fun e' he' => ?_⟩
        have hlt : count < d.value.length := (List.getElem?_eq_some_iff.mp hbyte).1
        obtain ⟨e, he, rfl⟩ : ∃ e, s.table.entryAt id = some e ∧ e.writeByte count byte = e' := by
          rwa [advance, start, Table.entryAt_modifyEntry, if_pos rfl, Option.map_eq_some_iff] at he'
        have hfits : d.value.length ≤ e.capacity := by
          have hnoted : d.value.length ≤ s.table.capacityOf id := hstands
          rwa [Table.capacityOf, he] at hnoted
        exact Entry.take_writeByte (hcopied e he) (hlt.trans_le hfits) hbyte
  | sizing =>
      obtain ⟨key, value, mode⟩ := d
      cases mode with
      | exclusive =>
          obtain rfl := Option.some.inj hstep
          rw [calls_advance_self]
          trivial
      | shared =>
          obtain rfl := Option.some.inj hstep
          rw [calls_advance_self]
          have hkey : (s.table.modifyEntry id fun e => e.resize value.length).keyAt id =
              some key := by
            rw [Table.keyAt_modifyEntry, hw.1]
            exact fun _ => rfl
          exact hkey
  | loosening =>
      rw [overwriteStep] at hstep
      split at hstep
      · obtain rfl := Option.some.inj hstep
        rw [calls_advance_self]
        trivial
      next t hleave =>
        obtain rfl := Option.some.inj hstep
        rw [calls_advance_self]
        have hcontents := s.table.contents_leaveEntry thread .exclusive id
        rw [hleave] at hcontents
        exact hsame hcontents hw
  | relocking =>
      obtain ⟨t, -, rfl⟩ := Option.map_eq_some_iff.mp hstep
      rw [calls_advance_self]
      trivial

/-- A call that goes a step on has written what it has to. -/
theorem hasWritten_step (hs : s.table.Sound) (hw : (s.calls thread).HasWritten s.table)
    (hstands : ((s.calls thread).footprint s.table.placeOf).Stands s.table)
    (hstep : s.step memory thread = some s') : (s'.calls thread).HasWritten s'.table := by
  -- Only a call that has found the entry of its key begins to write over one.
  have hfound {d : Deposit} {id : EntryId} {slotMode : LockMode}
      (hfind : s.table.find? (s.table.placeOf d.key) d.key = some id) :
      (TableCall.overwriting slotMode id d .locking).HasWritten (s.table.retain id) := by
    have hlocking : (TableCall.overwriting slotMode id d .locking).HasWritten s.table :=
      (hs.entryOf_eq_some_iff.mp hfind).2
    exact hlocking.of_contents_eq (s.table.contents_retain id)
  unfold Traffic.step at hstep
  generalize s.calls thread = call at hw hstands hstep
  cases call with
  | overwriting slotMode id d progress => exact hasWritten_overwriteStep hw hstands hstep
  | probing d =>
      dsimp only at hstep
      split at hstep
      · obtain rfl := Option.some.inj hstep
        rw [calls_start_self]
        trivial
      next id hfitting =>
        obtain rfl := Option.some.inj hstep
        rw [calls_advance_self]
        exact hfound (Option.filter_eq_some_iff.mp hfitting).1
  | inspecting d =>
      dsimp only at hstep
      split at hstep
      · obtain rfl := Option.some.inj hstep
        rw [calls_start_self]
        trivial
      next id hfind =>
        split at hstep
        · obtain rfl := Option.some.inj hstep
          rw [calls_advance_self]
          exact hfound hfind
        · obtain rfl := Option.some.inj hstep
          rw [calls_advance_self]
          trivial
  | finished => contradiction
  | seeking | taking | approaching | claiming =>
      obtain ⟨t, -, rfl⟩ := Option.map_eq_some_iff.mp hstep
      rw [calls_advance_self]
      trivial
  | searching | making | weighing | judging | reclaiming | reading =>
      dsimp only at hstep
      split at hstep <;> obtain rfl := Option.some.inj hstep <;>
        simp only [calls_advance_self, calls_start_self] <;> trivial
  | withdrawing | discounting | retiring | linking | counting | publishing | parting
  | measuring | releasing | forgetting =>
      obtain rfl := Option.some.inj hstep
      simp only [calls_advance_self, calls_start_self]
      trivial

end Traffic

namespace Custody

variable {c c' : Custody} {table : Table} {thread other : ThreadId} {memory : Allocator}
  {deed : Deed} {slots : Nat → List Hold} {holds refs : EntryId → List Hold} {id : EntryId}

/-- Nobody else can change an entry that a call is writing into. -/
theorem Keeps.mover_ne_of_writes (h : c.Keeps slots holds refs) (hother : other ≠ thread)
    (hwrites : (c.traffic.calls other).writes = some id) :
    (c.foots thread).mover.entry ≠ some (id, .exclusive) := by
  have hentry : (c.foots other).entry = some ⟨id, .exclusive⟩ := TableCall.entry_of_writes hwrites _
  have hwriter := Footprint.mem_holding hentry (handlesOf c.loans other)
  intro hmover
  obtain ⟨id', htouched, heq⟩ := Option.map_eq_some_iff.mp hmover
  obtain rfl := (Prod.mk.inj heq).1
  have hheld : ∃ mode, (c.foots thread).entry = some ⟨id', mode⟩ := by
    rcases Footprint.touched_cases htouched with hexclusive | hmade
    · exact ⟨_, hexclusive⟩
    · exact ((h.sited.stands thread).entry_of_made hmade).1
  obtain ⟨mode, hentry'⟩ := hheld
  have hmine := Footprint.mem_holding hentry' (handlesOf c.loans thread)
  exact hother (h.locked.eq_of_entry hwriter hmine).symm

/-- Every call has written what it has to. -/
def HaveWritten (c : Custody) : Prop :=
  ∀ thread, (c.traffic.calls thread).HasWritten c.traffic.table

theorem HaveWritten.call {call : TableCall} (hw : c.HaveWritten)
    (hcall : c.call thread call = some c') (hnew : call.HasWritten c.traffic.table) :
    c'.HaveWritten := by
  obtain ⟨-, rfl⟩ := exists_of_call hcall
  intro other
  by_cases hother : other = thread
  · subst hother
    rw [Traffic.calls_advance_self]
    exact hnew
  · rw [Traffic.calls_advance_of_ne _ _ _ hother]
    exact hw other

theorem HaveWritten.perform (hw : c.HaveWritten) (h : c.Keeps slots holds refs)
    (hperform : c.perform thread deed = some c') : c'.HaveWritten := by
  obtain ⟨-, ⟨call, hasks, hcall⟩ | ⟨loan, -, -, hcall⟩ | ⟨memory, s, -, hstep, rfl⟩⟩ :=
    perform_cases hperform
  · refine hw.call hcall ?_
    cases deed with
    | get | set | reclaim | read =>
        obtain rfl := Option.some.inj hasks
        trivial
    | giveBack | step => contradiction
  · have hloans : HaveWritten
        { c with loans := update c.loans thread ((c.loans thread).erase loan) } := hw
    exact hloans.call hcall trivial
  · intro other
    by_cases hother : other = thread
    · subst hother
      refine Traffic.hasWritten_step h.sited.sound (hw other) ?_ hstep
      rw [← TableCall.pending_of_step hstep]
      exact h.sited.stands other
    · obtain ⟨t, call, rfl, hmove⟩ := h.exists_move hstep
      have hspares := hmove.spares h.sited.sound (h.sited.stands thread)
      rw [advanced, Traffic.calls_advance_of_ne _ _ _ hother]
      exact (hw other).frame hspares fun id => h.mover_ne_of_writes hother

theorem Reachable.haveWritten {hash : Bytes → UInt64} {slotBits maxShards : Nat}
    (hnew : Table.new memory hash slotBits maxShards = .ok table)
    (hreach : Reachable table Table.Counts c) :
    c.HaveWritten := by
  induction hreach with
  | opened => exact fun _ => trivial
  | perform hc thread deed hperform _ ih =>
      obtain ⟨slots, holds, refs, h⟩ := hc.exists_keeps hnew
      exact ih.perform h hperform

end Custody

end KeyValueServer
