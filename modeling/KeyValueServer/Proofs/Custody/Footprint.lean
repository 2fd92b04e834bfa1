import KeyValueServer.Proofs.Store.Chains
import KeyValueServer.Store.Traffic

/-!
# What a call has its hands on

In whatever mode its caller wants the entry, of all that a call does on a table little matters for
the handles of others: which slot and which entry it holds, which entry it refers to, which entry it
has taken out of a chain or out of the queue of retired ones, and what it relies on. This is its
footprint. The many steps of the calls are a few moves of footprints, and one of the moves frees an
entry.
-/

namespace KeyValueServer

/-- What a call relies on for its next steps. -/
inductive Notice where
  | nothing
  /-- A value of this length fits the entry. -/
  | fits (id : EntryId) (length : Nat)
  /-- The key has no entry. -/
  | cleared (key : Bytes)
  /-- The key has no entry, and this one was made for it. -/
  | made (key : Bytes) (id : EntryId)

/-- The slot and the entry that a call holds, the entry that it refers to, the one that it has
taken out, and what it relies on. -/
structure Footprint where
  slot : Option (Nat × LockMode)
  entry : Option Handle
  refers : Option Handle
  leaving : Option EntryId
  notice : Notice

namespace Footprint

/-- The footprint of a thread without a call under way. -/
def idle : Footprint := ⟨none, none, none, none, .nothing⟩

/-- The footprint of a call that holds a slot and has found nothing in it yet. -/
abbrev browsing (place : Nat) (mode : LockMode) : Footprint :=
  ⟨some (place, mode), none, none, none, .nothing⟩

/-- The footprint of a call that has a handle. -/
abbrev having (handle : Handle) : Footprint :=
  ⟨none, some handle, some handle, none, .nothing⟩

/-- The footprint of a call that goes through the queue of retired entries, perhaps with a handle
to be returned. -/
abbrev sweeping (waiting : Option Handle) (leaving : Option EntryId) : Footprint :=
  ⟨none, waiting, waiting, leaving, .nothing⟩

end Footprint

/-- The footprint of writing a value over an entry. -/
def Overwriting.footprint (place : Nat) (slotMode : LockMode) (id : EntryId) (d : Deposit) :
    Overwriting → Footprint
  | locking => ⟨some (place, slotMode), none, some ⟨id, d.mode⟩, none, .fits id d.value.length⟩
  | copying _ | sizing =>
      ⟨some (place, slotMode), some ⟨id, .exclusive⟩, some ⟨id, d.mode⟩, none,
        .fits id d.value.length⟩
  | loosening =>
      ⟨some (place, slotMode), some ⟨id, .exclusive⟩, some ⟨id, .shared⟩, none, .nothing⟩
  | relocking => ⟨some (place, slotMode), none, some ⟨id, .shared⟩, none, .nothing⟩

/-- The footprint of a call, where keys belong to these places. The handle that a call has returned
is still in its footprint. -/
def TableCall.footprint (place : Bytes → Nat) : TableCall → Footprint
  | .finished (.handle (.ok handle)) => .having handle
  | .finished _ => .idle
  | .seeking _ _ => .idle
  | .searching key _ => .browsing (place key) .shared
  | .taking p id mode => ⟨some (p, .shared), none, some ⟨id, mode⟩, none, .fits id 0⟩
  | .approaching _ => .idle
  | .probing d => .browsing (place d.key) .shared
  | .withdrawing d => .browsing (place d.key) .shared
  | .claiming _ => .idle
  | .inspecting d => .browsing (place d.key) .exclusive
  | .discounting id d => ⟨some (place d.key, .exclusive), none, none, some id, .cleared d.key⟩
  | .retiring id d => ⟨some (place d.key, .exclusive), none, none, some id, .cleared d.key⟩
  | .making d => ⟨some (place d.key, .exclusive), none, none, none, .cleared d.key⟩
  | .linking id d =>
      ⟨some (place d.key, .exclusive), some ⟨id, d.mode⟩, some ⟨id, d.mode⟩, none,
        .made d.key id⟩
  | .counting id d =>
      ⟨some (place d.key, .exclusive), some ⟨id, d.mode⟩, some ⟨id, d.mode⟩, none, .nothing⟩
  | .publishing id d =>
      ⟨some (place d.key, .exclusive), some ⟨id, d.mode⟩, some ⟨id, d.mode⟩, none, .nothing⟩
  | .overwriting slotMode id d progress => progress.footprint (place d.key) slotMode id d
  | .parting p slotMode result =>
      ⟨some (p, slotMode), result.toOption, result.toOption, none, .nothing⟩
  | .weighing handle => .having handle
  | .reclaiming _ _ waiting => .sweeping waiting none
  | .judging id _ _ waiting => .sweeping waiting (some id)
  | .measuring _ => .idle
  | .reading _ _ _ => .idle
  | .releasing handle => .having handle
  | .forgetting handle _ => ⟨none, none, some handle, none, .nothing⟩

/-- A call goes on by one move, which may free an entry. -/
inductive Footprint.Move (thread : ThreadId) :
    Table → Footprint → Table → Footprint → Option EntryId → Prop
  /-- Linked entries are counted, or nothing changes. -/
  | recount {t : Table} {foot : Footprint} (size : Nat) :
      Move thread t foot { t with size } foot none
  /-- What was relied on does not matter any more. -/
  | forgo {t : Table} {foot : Footprint} :
      Move thread t foot t { foot with notice := .nothing } none
  | enterSlot {t t' : Table} {key : Bytes} {mode : LockMode}
      (h : t.enterSlot thread mode (t.placeOf key) = some t') :
      Move thread t .idle t' (.browsing (t.placeOf key) mode) none
  | leaveSlot {t : Table} {place : Nat} {mode : LockMode} {entry refers : Option Handle} :
      Move thread t ⟨some (place, mode), entry, refers, none, .nothing⟩
        (t.leaveSlot thread mode place) ⟨none, entry, refers, none, .nothing⟩ none
  | retain {t : Table} {key : Bytes} {mode : LockMode} (handle : Handle) {length : Nat}
      (hentry : t.entryOf key = some handle.id) (hfits : length ≤ t.capacityOf handle.id) :
      Move thread t (.browsing (t.placeOf key) mode) (t.retain handle.id)
        ⟨some (t.placeOf key, mode), none, some handle, none, .fits handle.id length⟩ none
  | enterEntry {t t' : Table} {slot : Option (Nat × LockMode)} (handle : Handle) (mode : LockMode)
      {notice after : Notice} (h : t.enterEntry thread mode handle.id = some t')
      (hafter : after = notice ∨ after = .nothing) :
      Move thread t ⟨slot, none, some handle, none, notice⟩ t'
        ⟨slot, some ⟨handle.id, mode⟩, some handle, none, after⟩ none
  | leaveEntry {t : Table} {slot : Option (Nat × LockMode)} (handle : Handle)
      {refers : Option Handle} :
      Move thread t ⟨slot, some handle, refers, none, .nothing⟩
        (t.leaveEntry thread handle.mode handle.id).2 ⟨slot, none, refers, none, .nothing⟩ none
  | write {t : Table} {slot : Option (Nat × LockMode)} {id : EntryId} {refers : Option Handle}
      {length place : Nat} {byte : UInt8} :
      Move thread t ⟨slot, some ⟨id, .exclusive⟩, refers, none, .fits id length⟩
        (t.modifyEntry id fun e => e.writeByte place byte)
        ⟨slot, some ⟨id, .exclusive⟩, refers, none, .fits id length⟩ none
  | resize {t : Table} {slot : Option (Nat × LockMode)} {id : EntryId} {refers : Option Handle}
      {length : Nat} :
      Move thread t ⟨slot, some ⟨id, .exclusive⟩, refers, none, .fits id length⟩
        (t.modifyEntry id fun e => e.resize length)
        ⟨slot, some ⟨id, .exclusive⟩, refers, none, .nothing⟩ none
  | forget {t : Table} (handle : Handle) :
      Move thread t ⟨none, none, some handle, none, .nothing⟩ (t.forget handle.id) .idle none
  | clear {t : Table} {key : Bytes} (hentry : t.entryOf key = none) :
      Move thread t (.browsing (t.placeOf key) .exclusive) t
        ⟨some (t.placeOf key, .exclusive), none, none, none, .cleared key⟩ none
  | detach {t : Table} {key : Bytes} {id : EntryId} (hentry : t.entryOf key = some id) :
      Move thread t (.browsing (t.placeOf key) .exclusive) (t.detach (t.placeOf key) id)
        ⟨some (t.placeOf key, .exclusive), none, none, some id, .cleared key⟩ none
  | adopt {t : Table} {slot : Option (Nat × LockMode)} (key value : Bytes) (mode : LockMode) :
      Move thread t ⟨slot, none, none, none, .cleared key⟩
        (t.adopt thread mode (.new (t.hash key) key value))
        ⟨slot, some ⟨t.entries.size, mode⟩, some ⟨t.entries.size, mode⟩, none,
          .made key t.entries.size⟩ none
  | attach {t : Table} {slot : Option (Nat × LockMode)} {entry refers : Option Handle}
      {key : Bytes} {id : EntryId} :
      Move thread t ⟨slot, entry, refers, none, .made key id⟩ (t.attach (t.placeOf key) id)
        ⟨slot, entry, refers, none, .nothing⟩ none
  | retire {t : Table} {slot : Option (Nat × LockMode)} {entry refers : Option Handle}
      {id : EntryId} {notice : Notice} :
      Move thread t ⟨slot, entry, refers, some id, notice⟩ (t.retire id)
        ⟨slot, entry, refers, none, notice⟩ none
  | pop {t : Table} {waiting : Option Handle} {id : EntryId} {retired : List EntryId}
      (h : t.retired = id :: retired) :
      Move thread t (.sweeping waiting none) { t with retired } (.sweeping waiting (some id)) none
  | free {t : Table} {waiting : Option Handle} {id : EntryId} (h : t.isReferenced id = false) :
      Move thread t (.sweeping waiting (some id)) t (.sweeping waiting none) (some id)

/-! ## Every step is a move -/

namespace TableCall

/-- The entry that a step counts as freed, if it does. -/
def freed : (before after : TableCall) → Option EntryId
  | .judging id _ count _, .reclaiming _ count' _ => if count < count' then some id else none
  | _, _ => none

end TableCall

namespace Traffic

variable {memory : Allocator} {s s' : Traffic} {thread : ThreadId}

/-- A step of writing a value over an entry moves the footprint. -/
theorem exists_footprint_move_of_overwriteStep {slotMode : LockMode} {id : EntryId} {d : Deposit}
    {progress : Overwriting}
    (hleave : ∀ handle,
      (progress.footprint (s.table.placeOf d.key) slotMode id d).entry = some handle →
      (s.table.leaveEntry thread handle.mode handle.id).1 = .ok ())
    (hstep : s.overwriteStep thread slotMode id d progress = some s') :
    ∃ t call, s' = s.advance thread t call ∧
      Footprint.Move thread s.table (progress.footprint (s.table.placeOf d.key) slotMode id d) t
        (call.footprint s.table.placeOf) none := by
  cases progress with
  | locking =>
      obtain ⟨t, henter, rfl⟩ := Option.map_eq_some_iff.mp hstep
      exact ⟨t, _, rfl, .enterEntry ⟨id, d.mode⟩ .exclusive henter (.inl rfl)⟩
  | copying place =>
      rw [overwriteStep] at hstep
      split at hstep
      · obtain rfl := Option.some.inj hstep
        exact ⟨_, _, rfl, .recount _⟩
      · obtain rfl := Option.some.inj hstep
        exact ⟨_, _, rfl, .write⟩
  | sizing =>
      rw [overwriteStep] at hstep
      obtain ⟨key, value, mode⟩ := d
      cases mode with
      | exclusive =>
          obtain rfl := Option.some.inj hstep
          exact ⟨_, _, rfl, .resize⟩
      | shared =>
          obtain rfl := Option.some.inj hstep
          exact ⟨_, _, rfl, .resize⟩
  | loosening =>
      have hok : (s.table.leaveEntry thread .exclusive id).1 = .ok () := hleave ⟨id, .exclusive⟩ rfl
      rw [overwriteStep] at hstep
      have hmove : Footprint.Move thread s.table
          ⟨some (s.table.placeOf d.key, slotMode), some ⟨id, .exclusive⟩, some ⟨id, .shared⟩, none,
            .nothing⟩
          (s.table.leaveEntry thread .exclusive id).2
          ⟨some (s.table.placeOf d.key, slotMode), none, some ⟨id, .shared⟩, none, .nothing⟩ none :=
        .leaveEntry ⟨id, .exclusive⟩
      split at hstep
      next hleft =>
        rw [hleft] at hok
        contradiction
      next t hleft =>
        obtain rfl := Option.some.inj hstep
        rw [hleft] at hmove
        exact ⟨t, _, rfl, hmove⟩
  | relocking =>
      obtain ⟨t, henter, rfl⟩ := Option.map_eq_some_iff.mp hstep
      have hplace := Table.placeOf_eq (Table.contents_enterEntry henter) d.key
      refine ⟨t, _, rfl, ?_⟩
      rw [hplace]
      exact .enterEntry ⟨id, .shared⟩ .shared henter (.inl rfl)

/-- A step of a thread moves the footprint of its call. -/
theorem exists_footprint_move
    (hleave : ∀ handle, ((s.calls thread).footprint s.table.placeOf).entry = some handle →
      (s.table.leaveEntry thread handle.mode handle.id).1 = .ok ())
    (hstep : s.step memory thread = some s') :
    ∃ t call, s' = s.advance thread t call ∧
      Footprint.Move thread s.table ((s.calls thread).footprint s.table.placeOf) t
        (call.footprint s.table.placeOf) ((s.calls thread).freed call) := by
  unfold Traffic.step at hstep
  generalize s.calls thread = call at hleave hstep ⊢
  cases call with
  | finished => contradiction
  | seeking key mode =>
      obtain ⟨t, henter, rfl⟩ := Option.map_eq_some_iff.mp hstep
      exact ⟨t, _, rfl, .enterSlot henter⟩
  | searching key mode =>
      dsimp only at hstep
      split at hstep
      · obtain rfl := Option.some.inj hstep
        exact ⟨_, _, rfl, .recount _⟩
      next id hfind =>
        obtain rfl := Option.some.inj hstep
        exact ⟨_, _, rfl, .retain ⟨id, mode⟩ hfind (Nat.zero_le _)⟩
  | taking place id mode =>
      obtain ⟨t, henter, rfl⟩ := Option.map_eq_some_iff.mp hstep
      exact ⟨t, _, rfl, .enterEntry ⟨id, mode⟩ mode henter (.inr rfl)⟩
  | approaching d =>
      obtain ⟨t, henter, rfl⟩ := Option.map_eq_some_iff.mp hstep
      exact ⟨t, _, rfl, .enterSlot henter⟩
  | probing d =>
      dsimp only at hstep
      split at hstep
      · obtain rfl := Option.some.inj hstep
        exact ⟨_, _, rfl, .recount _⟩
      next id hfind =>
        obtain rfl := Option.some.inj hstep
        obtain ⟨hentry, hfits⟩ := Option.filter_eq_some_iff.mp hfind
        exact ⟨_, _, rfl, .retain ⟨id, d.mode⟩ hentry (by simpa using hfits)⟩
  | withdrawing d =>
      obtain rfl := Option.some.inj hstep
      exact ⟨_, _, rfl, .leaveSlot⟩
  | claiming d =>
      obtain ⟨t, henter, rfl⟩ := Option.map_eq_some_iff.mp hstep
      exact ⟨t, _, rfl, .enterSlot henter⟩
  | inspecting d =>
      dsimp only at hstep
      split at hstep
      next hfind =>
        obtain rfl := Option.some.inj hstep
        exact ⟨_, _, rfl, .clear hfind⟩
      next id hfind =>
        split at hstep
        next hfits =>
          obtain rfl := Option.some.inj hstep
          exact ⟨_, _, rfl, .retain ⟨id, d.mode⟩ hfind hfits⟩
        · obtain rfl := Option.some.inj hstep
          exact ⟨_, _, rfl, .detach hfind⟩
  | discounting id d =>
      obtain rfl := Option.some.inj hstep
      exact ⟨_, _, rfl, .recount _⟩
  | retiring id d =>
      obtain rfl := Option.some.inj hstep
      exact ⟨_, _, rfl, .retire⟩
  | making d =>
      dsimp only at hstep
      split at hstep
      · obtain rfl := Option.some.inj hstep
        exact ⟨_, _, rfl, .forgo⟩
      next entry hallocate =>
        obtain rfl := Entry.eq_new_of_allocate hallocate
        obtain rfl := Option.some.inj hstep
        exact ⟨_, _, rfl, .adopt d.key d.value d.mode⟩
  | linking id d =>
      obtain rfl := Option.some.inj hstep
      exact ⟨_, _, rfl, .attach⟩
  | counting id d =>
      obtain rfl := Option.some.inj hstep
      exact ⟨_, _, rfl, .recount _⟩
  | publishing id d =>
      obtain rfl := Option.some.inj hstep
      exact ⟨_, _, rfl, .leaveSlot⟩
  | overwriting slotMode id d progress =>
      exact exists_footprint_move_of_overwriteStep hleave hstep
  | parting place slotMode result =>
      obtain rfl := Option.some.inj hstep
      cases result with
      | ok handle => exact ⟨_, _, rfl, .leaveSlot⟩
      | error e => exact ⟨_, _, rfl, .leaveSlot⟩
  | weighing handle =>
      dsimp only at hstep
      split at hstep
      · obtain rfl := Option.some.inj hstep
        exact ⟨_, _, rfl, .recount _⟩
      · obtain rfl := Option.some.inj hstep
        exact ⟨_, _, rfl, .recount _⟩
  | reclaiming rounds count waiting =>
      dsimp only at hstep
      split at hstep
      next hretired =>
        obtain rfl := Option.some.inj hstep
        exact ⟨_, _, rfl, .pop hretired⟩
      · obtain rfl := Option.some.inj hstep
        cases waiting with
        | none => exact ⟨_, _, rfl, .recount _⟩
        | some handle => exact ⟨_, _, rfl, .recount _⟩
  | judging id rounds count waiting =>
      dsimp only at hstep
      split at hstep
      · obtain rfl := Option.some.inj hstep
        have hnone : (TableCall.judging id rounds count waiting).freed
            (.reclaiming rounds count waiting) = none := if_neg (lt_irrefl count)
        exact ⟨_, _, rfl, hnone ▸ .retire⟩
      next hunreferenced =>
        obtain rfl := Option.some.inj hstep
        have hsome : (TableCall.judging id rounds count waiting).freed
            (.reclaiming rounds (count + 1) waiting) = some id := if_pos count.lt_succ_self
        exact ⟨_, _, rfl, hsome ▸ .free (Bool.eq_false_iff.mpr hunreferenced)⟩
  | measuring handle =>
      obtain rfl := Option.some.inj hstep
      exact ⟨_, _, rfl, .recount _⟩
  | reading handle size copied =>
      dsimp only at hstep
      split at hstep
      · obtain rfl := Option.some.inj hstep
        exact ⟨_, _, rfl, .recount _⟩
      · obtain rfl := Option.some.inj hstep
        exact ⟨_, _, rfl, .recount _⟩
  | releasing handle =>
      have hok : (s.table.leaveEntry thread handle.mode handle.id).1 = .ok () := hleave handle rfl
      obtain rfl := Option.some.inj hstep
      exact ⟨_, _, rfl, .leaveEntry handle⟩
  | forgetting handle result =>
      obtain rfl := Option.some.inj hstep
      exact ⟨_, _, rfl, .forget handle⟩

end Traffic

end KeyValueServer
