import KeyValueServer.Proofs.Custody.Writing

/-!
# What the handle of a store shows

A store that returns a handle holds the entry in the mode that was asked for, and the entry belongs
to the key of the store. It has the value that was stored, except that a store which writes over an
entry and wants a shared hold gives up its exclusive one first. Until it has the shared one
other threads can write over the same entry, and then the handle shows the value of the last of
them.
-/

namespace KeyValueServer

open Function (update)

namespace Table

/-- An entry has this key and this value. -/
structure Has (t : Table) (id : EntryId) (key value : Bytes) : Prop where
  key : t.keyAt id = some key
  value : t.valueAt id = some value

variable {t t' : Table} {id : EntryId} {key value : Bytes}

theorem Has.of_contents_eq (h : t.Has id key value) (hcontents : t'.contents = t.contents) :
    t'.Has id key value where
  key := (keyAt_eq hcontents id).trans h.key
  value := (map_entryAt_eq Entry.value_contents hcontents id).trans h.value

/-- An entry in which a value was written whole has it once its length is set. -/
theorem has_resize (hkey : t.keyAt id = some key) (hcopied : t.Copied id value value.length) :
    (t.modifyEntry id fun e => e.resize value.length).Has id key value where
  key := by
    rw [keyAt_modifyEntry, hkey]
    exact fun _ => rfl
  value := by
    obtain ⟨e, he, -⟩ := Option.map_eq_some_iff.mp hkey
    rw [valueAt, entryAt_modifyEntry, if_pos rfl, he, Option.map_some, Option.map_some,
      Entry.value, Entry.resize, hcopied e he, List.take_length]

theorem has_adopt (t : Table) (thread : ThreadId) (mode : LockMode) (key value : Bytes) :
    (t.adopt thread mode (.new (t.hash key) key value)).Has t.entries.size key value := by
  have henlisted : (t.enlist (.new (t.hash key) key value)).Has t.entries.size key value := by
    constructor
    · rw [keyAt, entryAt_enlist, if_pos rfl]
      rfl
    · rw [valueAt, entryAt_enlist, if_pos rfl]
      exact congrArg some List.take_length
  exact henlisted.of_contents_eq (contents_adopt_eq ..)

end Table

namespace TableCall

/-- The deposit of a call that has not put its value into an entry yet. -/
def intends : TableCall → Option Deposit
  | .approaching d | .probing d | .withdrawing d | .claiming d | .inspecting d => some d
  | .discounting _ d | .retiring _ d | .making d => some d
  | .overwriting _ _ d .locking | .overwriting _ _ d (.copying _) | .overwriting _ _ d .sizing =>
      some d
  | _ => none

/-- The handle that a call under way is going to return and holds its entry by. -/
def brings : TableCall → Option Handle
  | .linking id d | .counting id d | .publishing id d => some ⟨id, d.mode⟩
  | .parting _ _ result => result.toOption
  | .weighing handle => some handle
  | .reclaiming _ _ waiting | .judging _ _ _ waiting => waiting
  | _ => none

/-- Whether a call returns or has returned an error. -/
def fails : TableCall → Bool
  | .parting _ _ (.error _) | .finished (.handle (.error _)) => true
  | _ => false

theorem entry_of_brings {call : TableCall} {handle : Handle} (h : call.brings = some handle)
    (place : Bytes → Nat) : (call.pending place).entry = some handle := by
  cases call with
  | linking | counting | publishing | weighing => exact h
  | parting | reclaiming | judging => exact h
  | _ => contradiction

end TableCall

namespace Custody

/-- The deposit that the next step of another thread puts in the place of what a thread has stored,
while that thread has no hold on the entry. -/
def supersedes (c : Custody) (thread other : ThreadId) : Option Deposit :=
  match c.traffic.calls thread, c.traffic.calls other with
  | .overwriting _ id _ .relocking, .overwriting _ id' d .sizing =>
      if id' = id then some d else none
  | _, _ => none

/-- A thread has called a table, which always keeps to a condition, to store a value and is still
about it or has got its handle. The list has the deposits that have superseded the value, oldest
first. -/
inductive Storing (table : Table) (within : Table → Prop) (thread : ThreadId) (d : Deposit) :
    List Deposit → Custody → Prop
  | call {c c' : Custody} (hc : Reachable table within c)
      (h : c.perform thread (.set d.key d.value d.mode) = some c')
      (hwithin : within c'.traffic.table) : Storing table within thread d [] c'
  | own {later : List Deposit} {c c' : Custody} (hc : Storing table within thread d later c)
      (memory : Allocator) (h : c.perform thread (.step memory) = some c')
      (hwithin : within c'.traffic.table) : Storing table within thread d later c'
  | other {later : List Deposit} {c c' : Custody} (hc : Storing table within thread d later c)
      {other : ThreadId} (hother : other ≠ thread) (deed : Deed)
      (h : c.perform other deed = some c') (hwithin : within c'.traffic.table) :
      Storing table within thread d (later ++ (c.supersedes thread other).toList) c'

/-- An entry on which a thread has no hold belongs to this key and has this value, or another thread
is about to supersede the value. -/
structure Exposed (c : Custody) (thread : ThreadId) (id : EntryId) (key value : Bytes) : Prop where
  key : c.traffic.table.keyAt id = some key
  value : c.traffic.table.valueAt id = some value ∨
    ∃ other ≠ thread, (c.traffic.calls other).writes = some id

/-- How far a thread has come with storing a value, and what its entry has until it gets its
handle. -/
inductive Stage (c : Custody) (thread : ThreadId) (d : Deposit) :
    List Deposit → TableCall → Prop
  | intending {call : TableCall} (hintends : call.intends = some d) : Stage c thread d [] call
  | written {slotMode : LockMode} {id : EntryId} (hmode : d.mode = .shared)
      (hhas : c.traffic.table.Has id d.key d.value) :
      Stage c thread d [] (.overwriting slotMode id d .loosening)
  | exposed {later : List Deposit} {slotMode : LockMode} {id : EntryId} (hmode : d.mode = .shared)
      (hexposed : c.Exposed thread id d.key (later.getLastD d).value) :
      Stage c thread d later (.overwriting slotMode id d .relocking)
  | bringing {later : List Deposit} {call : TableCall} {handle : Handle}
      (hbrings : call.brings = some handle) (hmode : handle.mode = d.mode)
      (hhas : c.traffic.table.Has handle.id d.key (later.getLastD d).value)
      (hkept : d.mode = .exclusive → later = []) : Stage c thread d later call
  | returned {later : List Deposit} {handle : Handle}
      (hloan : ⟨handle, d.mode, d.key, (later.getLastD d).value⟩ ∈ c.loans thread)
      (hkept : d.mode = .exclusive → later = []) :
      Stage c thread d later (.finished (.handle (.ok handle)))
  | failed {later : List Deposit} {call : TableCall} (hfails : call.fails = true) :
      Stage c thread d later call

variable {c c' : Custody} {table : Table} {thread other : ThreadId} {memory : Allocator}
  {d : Deposit} {later : List Deposit} {slots : Nat → List Hold}
  {holds refs : EntryId → List Hold} {s : Traffic} {call : TableCall}

theorem Storing.reachable {within : Table → Prop} (h : Storing table within thread d later c) :
    Reachable table within c := by
  induction h with
  | call hc hperform hwithin => exact .perform hc _ _ hperform hwithin
  | own _ memory hperform hwithin ih => exact .perform ih _ _ hperform hwithin
  | other _ _ deed hperform hwithin ih => exact .perform ih _ _ hperform hwithin

/-! ## Steps of the call itself -/

theorem stage_of_overwriteStep {slotMode : LockMode} {id : EntryId} {progress : Overwriting}
    (hintends : (TableCall.overwriting slotMode id d progress).intends = some d)
    (hw : (TableCall.overwriting slotMode id d progress).HasWritten c.traffic.table)
    (hstep : c.traffic.overwriteStep thread slotMode id d progress = some s) :
    Stage (c.advanced thread s) thread d [] (s.calls thread) := by
  cases progress with
  | locking =>
      obtain ⟨t, -, rfl⟩ := Option.map_eq_some_iff.mp hstep
      rw [Traffic.calls_advance_self]
      exact .intending rfl
  | copying count =>
      rw [Traffic.overwriteStep] at hstep
      split at hstep
      · obtain rfl := Option.some.inj hstep
        rw [Traffic.calls_start_self]
        exact .intending rfl
      · obtain rfl := Option.some.inj hstep
        rw [Traffic.calls_advance_self]
        exact .intending rfl
  | sizing =>
      obtain ⟨key, value, mode⟩ := d
      have hhas := Table.has_resize hw.1 hw.2
      cases mode with
      | exclusive =>
          obtain rfl := Option.some.inj hstep
          rw [Traffic.calls_advance_self]
          exact .bringing rfl rfl hhas fun _ => rfl
      | shared =>
          obtain rfl := Option.some.inj hstep
          rw [Traffic.calls_advance_self]
          exact .written rfl hhas
  | loosening | relocking => contradiction

/-- A call that has not put its value into an entry yet does so, or goes on towards it. -/
theorem stage_of_intends (hintends : (c.traffic.calls thread).intends = some d)
    (hw : (c.traffic.calls thread).HasWritten c.traffic.table)
    (hstep : c.traffic.step memory thread = some s) :
    Stage (c.advanced thread s) thread d [] (s.calls thread) := by
  unfold Traffic.step at hstep
  generalize c.traffic.calls thread = call at hintends hw hstep
  cases call with
  | approaching d' | claiming d' =>
      obtain ⟨t, -, rfl⟩ := Option.map_eq_some_iff.mp hstep
      rw [Traffic.calls_advance_self]
      exact .intending hintends
  | withdrawing d' | discounting id d' | retiring id d' =>
      obtain rfl := Option.some.inj hstep
      rw [Traffic.calls_advance_self]
      exact .intending hintends
  | probing d' =>
      dsimp only at hstep
      split at hstep
      · obtain rfl := Option.some.inj hstep
        rw [Traffic.calls_start_self]
        exact .intending hintends
      · obtain rfl := Option.some.inj hstep
        rw [Traffic.calls_advance_self]
        exact .intending hintends
  | inspecting d' =>
      dsimp only at hstep
      split at hstep
      · obtain rfl := Option.some.inj hstep
        rw [Traffic.calls_start_self]
        exact .intending hintends
      · split at hstep
        · obtain rfl := Option.some.inj hstep
          rw [Traffic.calls_advance_self]
          exact .intending hintends
        · obtain rfl := Option.some.inj hstep
          rw [Traffic.calls_advance_self]
          exact .intending hintends
  | making d' =>
      obtain rfl := Option.some.inj hintends
      dsimp only at hstep
      split at hstep
      · obtain rfl := Option.some.inj hstep
        rw [Traffic.calls_start_self]
        exact .failed rfl
      next entry hallocate =>
        obtain rfl := Entry.eq_new_of_allocate hallocate
        obtain rfl := Option.some.inj hstep
        rw [Traffic.calls_advance_self]
        exact .bringing rfl rfl (Table.has_adopt ..) fun _ => rfl
  | overwriting slotMode id d' progress =>
      have hd : d' = d := by
        cases progress with
        | locking | copying | sizing => exact Option.some.inj hintends
        | loosening | relocking => contradiction
      subst hd
      exact stage_of_overwriteStep hintends hw hstep
  | _ => contradiction

/-- A handle that is returned is noted with what its entry has. -/
theorem loan_of_returned (c : Custody) {handle : Handle} {key value : Bytes}
    (hreturned : (s.calls thread).returned = some handle)
    (hhas : s.table.Has handle.id key value) :
    ⟨handle, handle.mode, key, value⟩ ∈ (c.advanced thread s).loans thread := by
  have hkey : s.table.keyOf handle = key := congrArg (·.getD []) hhas.key
  have hvalue : s.table.valueOf handle = value := congrArg (·.getD []) hhas.value
  rw [advanced, hreturned]
  dsimp only
  rw [Function.update_self, hkey, hvalue]
  exact List.mem_cons_self

/-- Once its value is in an entry, a call has nothing more to do with the entry. -/
theorem stage_of_brings {handle : Handle} (hbrings : (c.traffic.calls thread).brings = some handle)
    (hmode : handle.mode = d.mode)
    (hhas : c.traffic.table.Has handle.id d.key (later.getLastD d).value)
    (hkept : d.mode = .exclusive → later = []) (hstep : c.traffic.step memory thread = some s) :
    Stage (c.advanced thread s) thread d later (s.calls thread) := by
  have hreturn {t : Table} (ht : t.Has handle.id d.key (later.getLastD d).value) :
      let s := c.traffic.advance thread t (.finished (.handle (.ok handle)))
      Stage (c.advanced thread s) thread d later (s.calls thread) := by
    dsimp only
    have hreturned : ((c.traffic.advance thread t (.finished (.handle (.ok handle)))).calls
        thread).returned = some handle := by
      rw [Traffic.calls_advance_self]
      rfl
    have hloan := c.loan_of_returned hreturned ht
    rw [hmode] at hloan
    rw [Traffic.calls_advance_self]
    exact .returned hloan hkept
  unfold Traffic.step at hstep
  generalize c.traffic.calls thread = call at hbrings hstep
  cases call with
  | linking id d' | counting id d' =>
      obtain rfl := Option.some.inj hstep
      rw [Traffic.calls_advance_self]
      exact .bringing hbrings hmode ⟨hhas.key, hhas.value⟩ hkept
  | publishing id d' =>
      obtain rfl := Option.some.inj hstep
      rw [Traffic.calls_advance_self]
      exact .bringing hbrings hmode (hhas.of_contents_eq (Table.contents_leaveSlot ..)) hkept
  | parting place slotMode result =>
      obtain rfl := Option.some.inj hstep
      cases result with
      | error e => contradiction
      | ok found =>
          obtain rfl := Option.some.inj hbrings
          exact hreturn (hhas.of_contents_eq (Table.contents_leaveSlot ..))
  | weighing found =>
      obtain rfl := Option.some.inj hbrings
      dsimp only at hstep
      split at hstep
      · obtain rfl := Option.some.inj hstep
        rw [Traffic.calls_start_self]
        exact .bringing rfl hmode hhas hkept
      · obtain rfl := Option.some.inj hstep
        exact hreturn hhas
  | reclaiming rounds freed waiting =>
      obtain rfl : waiting = some handle := hbrings
      dsimp only at hstep
      split at hstep
      · obtain rfl := Option.some.inj hstep
        rw [Traffic.calls_advance_self]
        exact .bringing rfl hmode ⟨hhas.key, hhas.value⟩ hkept
      · obtain rfl := Option.some.inj hstep
        exact hreturn hhas
  | judging id rounds freed waiting =>
      obtain rfl : waiting = some handle := hbrings
      dsimp only at hstep
      split at hstep
      · obtain rfl := Option.some.inj hstep
        rw [Traffic.calls_advance_self]
        exact .bringing rfl hmode ⟨hhas.key, hhas.value⟩ hkept
      · obtain rfl := Option.some.inj hstep
        rw [Traffic.calls_start_self]
        exact .bringing rfl hmode hhas hkept
  | _ => contradiction

theorem stage_of_fails (hfails : (c.traffic.calls thread).fails = true)
    (hstep : c.traffic.step memory thread = some s) :
    Stage (c.advanced thread s) thread d later (s.calls thread) := by
  unfold Traffic.step at hstep
  generalize c.traffic.calls thread = call at hfails hstep
  cases call with
  | parting place slotMode result =>
      obtain rfl := Option.some.inj hstep
      rw [Traffic.calls_advance_self]
      cases result with
      | error e => exact .failed rfl
      | ok handle => contradiction
  | finished => contradiction
  | _ => contradiction

/-- A thread that takes the shared hold finds nobody writing into its entry. -/
theorem not_writes_of_relocking {slotMode : LockMode} {id : EntryId} {slots' : Nat → List Hold}
    {holds' refs' : EntryId → List Hold}
    (hcall : c.traffic.calls thread = .overwriting slotMode id d .relocking)
    (hstep : c.traffic.step memory thread = some s)
    (h' : (c.advanced thread s).Keeps slots' holds' refs') (hother : other ≠ thread) :
    (c.traffic.calls other).writes ≠ some id := by
  intro hwrites
  rw [Traffic.step, hcall] at hstep
  obtain ⟨t, -, hs⟩ := Option.map_eq_some_iff.mp hstep
  have hentry : ((c.advanced thread s).foots thread).entry = some ⟨id, .shared⟩ := by
    rw [foots, advanced, ← hs, Traffic.calls_advance_self]
    rfl
  have hwriter : ((c.advanced thread s).foots other).entry = some ⟨id, .exclusive⟩ := by
    rw [foots, advanced, ← hs, Traffic.calls_advance_of_ne _ _ _ hother]
    exact TableCall.entry_of_writes hwrites _
  have hsame := h'.locked.eq_of_entry (Footprint.mem_holding hwriter _)
    (Footprint.mem_holding hentry _)
  exact hother hsame.symm

/-- A step of the call itself takes it on to its next stage. -/
theorem Stage.own {slots' : Nat → List Hold} {holds' refs' : EntryId → List Hold}
    (hstage : Stage c thread d later (c.traffic.calls thread)) (hw : c.HaveWritten)
    (hstep : c.traffic.step memory thread = some s)
    (h' : (c.advanced thread s).Keeps slots' holds' refs') :
    Stage (c.advanced thread s) thread d later (s.calls thread) := by
  generalize hcall : c.traffic.calls thread = call at hstage
  cases hstage with
  | intending hintends =>
      rw [← hcall] at hintends
      exact stage_of_intends hintends (hw thread) hstep
  | @written slotMode id hmode hhas =>
      rw [Traffic.step, hcall] at hstep
      dsimp only at hstep
      rw [Traffic.overwriteStep] at hstep
      split at hstep
      · obtain rfl := Option.some.inj hstep
        rw [Traffic.calls_advance_self]
        exact .failed rfl
      next t hleave =>
        obtain rfl := Option.some.inj hstep
        have hcontents := c.traffic.table.contents_leaveEntry thread .exclusive id
        rw [hleave] at hcontents
        have hleft := hhas.of_contents_eq hcontents
        rw [Traffic.calls_advance_self]
        exact .exposed hmode ⟨hleft.key, .inl hleft.value⟩
  | @exposed _ slotMode id hmode hexposed =>
      have hvalue : c.traffic.table.valueAt id = some (later.getLastD d).value := by
        refine hexposed.value.resolve_right ?_
        rintro ⟨other, hother, hwrites⟩
        exact not_writes_of_relocking hcall hstep h' hother hwrites
      rw [Traffic.step, hcall] at hstep
      obtain ⟨t, henter, rfl⟩ := Option.map_eq_some_iff.mp hstep
      rw [Traffic.calls_advance_self]
      have hhas : c.traffic.table.Has id d.key (later.getLastD d).value := ⟨hexposed.key, hvalue⟩
      refine .bringing rfl hmode.symm (hhas.of_contents_eq (Table.contents_enterEntry henter)) ?_
      intro hexclusive
      rw [hmode] at hexclusive
      contradiction
  | bringing hbrings hmode hhas hkept =>
      rw [← hcall] at hbrings
      exact stage_of_brings hbrings hmode hhas hkept hstep
  | returned =>
      rw [Traffic.step, hcall] at hstep
      contradiction
  | failed hfails =>
      rw [← hcall] at hfails
      exact stage_of_fails hfails hstep

/-! ## Steps of others -/

/-- Only a thread that has no hold on its entry can be superseded, by one that writes into the
entry. -/
theorem writes_of_supersedes {d' : Deposit} (h : c.supersedes thread other = some d') :
    ∃ slotMode id dep, c.traffic.calls thread = .overwriting slotMode id dep .relocking ∧
      (c.traffic.calls other).writes = some id := by
  unfold supersedes at h
  split at h
  next slotMode id dep slotMode' id' d'' hthread hother =>
    rw [Option.ite_none_right_eq_some] at h
    obtain ⟨rfl, -⟩ := h
    exact ⟨_, _, _, hthread, by rw [hother]; rfl⟩
  · contradiction

theorem supersedes_eq_none (h : ∀ slotMode id dep,
    c.traffic.calls thread = .overwriting slotMode id dep .relocking →
      (c.traffic.calls other).writes ≠ some id) : c.supersedes thread other = none := by
  rw [Option.eq_none_iff_forall_ne_some]
  intro d' hsome
  obtain ⟨slotMode, id, dep, hcall, hwrites⟩ := writes_of_supersedes hsome
  exact h _ _ _ hcall hwrites

/-- What a thread holds keeps its key and its value while others go on. -/
theorem Keeps.has_of_held (h : c.Keeps slots holds refs) (hother : other ≠ thread) {handle : Handle}
    (hheld : (c.foots thread).entry = some handle) (hstep : c.traffic.step memory other = some s)
    {key value : Bytes} (hhas : c.traffic.table.Has handle.id key value) :
    s.table.Has handle.id key value := by
  obtain ⟨t, call, rfl, hmove⟩ := h.exists_move hstep
  have hmem := Footprint.mem_holding hheld (handlesOf c.loans thread)
  have hfree : (c.foots other).entry ≠ some ⟨handle.id, .exclusive⟩ := by
    intro hexclusive
    have hmem' := Footprint.mem_holding hexclusive (handlesOf c.loans other)
    exact hother (h.locked.eq_of_entry hmem' hmem).symm
  obtain ⟨hkey, hvalue⟩ := hmove.record_eq (h.locked.id_lt hmem) hfree
  exact ⟨hkey.trans hhas.key, hvalue.trans hhas.value⟩

theorem loans_advanced_of_ne (c : Custody) (hother : other ≠ thread) (s : Traffic) :
    (c.advanced other s).loans thread = c.loans thread := by
  cases hreturned : (s.calls other).returned with
  | none => rw [advanced, hreturned]
  | some handle =>
      rw [advanced, hreturned]
      exact Function.update_of_ne hother.symm ..

/-- A call that is writing into an entry goes on to do so until the entry has the value whole. -/
theorem writes_step {id : EntryId} (hw : (c.traffic.calls other).HasWritten c.traffic.table)
    (hwrites : (c.traffic.calls other).writes = some id)
    (hstep : c.traffic.step memory other = some s) :
    (s.calls other).writes = some id ∨ ∃ slotMode d',
      c.traffic.calls other = .overwriting slotMode id d' .sizing ∧
        s.table.Has id d'.key d'.value := by
  rw [Traffic.step] at hstep
  generalize c.traffic.calls other = call at hw hwrites hstep
  cases call with
  | overwriting slotMode id' d' progress =>
      cases progress with
      | copying count =>
          obtain rfl := Option.some.inj hwrites
          refine .inl ?_
          dsimp only [Traffic.overwriteStep] at hstep
          split at hstep
          · obtain rfl := Option.some.inj hstep
            rw [Traffic.calls_start_self]
            rfl
          · obtain rfl := Option.some.inj hstep
            rw [Traffic.calls_advance_self]
            rfl
      | sizing =>
          obtain rfl := Option.some.inj hwrites
          refine .inr ⟨slotMode, d', rfl, ?_⟩
          have hhas := Table.has_resize hw.1 hw.2
          obtain ⟨key, value, mode⟩ := d'
          cases mode with
          | exclusive | shared =>
              obtain rfl := Option.some.inj hstep
              exact hhas
      | locking | loosening | relocking => contradiction
  | _ => contradiction

/-- While a thread waits for its shared hold, its entry has the value of the last deposit, or
somebody is writing into it. -/
theorem Exposed.step {slotMode : LockMode} {id : EntryId}
    (hexposed : c.Exposed thread id d.key (later.getLastD d).value) (h : c.Keeps slots holds refs)
    (hw : c.HaveWritten) (hcall : c.traffic.calls thread = .overwriting slotMode id d .relocking)
    (hother : other ≠ thread) (hstep : c.traffic.step memory other = some s) :
    (c.advanced other s).Exposed thread id d.key
      ((later ++ (c.supersedes thread other).toList).getLastD d).value := by
  obtain ⟨t, call, rfl, hmove⟩ := h.exists_move hstep
  have hkey : t.keyAt id = some d.key :=
    (hmove.spares h.sited.sound (h.sited.stands other)).keyAt_eq hexposed.key
  refine ⟨hkey, ?_⟩
  by_cases hwriter : ∃ writer ≠ thread, (c.traffic.calls writer).writes = some id
  · obtain ⟨writer, hne, hwrites⟩ := hwriter
    by_cases hsame : writer = other
    · subst hsame
      rcases writes_step (hw writer) hwrites hstep with hstill | ⟨slotMode', d', hsizing, hhas⟩
      · exact .inr ⟨writer, hne, hstill⟩
      · have hover : c.supersedes thread writer = some d' := by
          rw [supersedes, hcall, hsizing]
          exact if_pos rfl
        rw [hover, Option.toList_some, List.getLastD_concat]
        exact .inl hhas.value
    · refine .inr ⟨writer, hne, ?_⟩
      rw [advanced, Traffic.calls_advance_of_ne _ _ _ hsame]
      exact hwrites
  · have hidle : (c.traffic.calls other).writes ≠ some id := fun hwrites =>
      hwriter ⟨other, hother, hwrites⟩
    have hnone : c.supersedes thread other = none := by
      refine supersedes_eq_none fun slotMode' id' dep hcall' => ?_
      obtain ⟨-, rfl, -, -⟩ := TableCall.overwriting.inj (hcall.symm.trans hcall')
      exact hidle
    have hid : id < c.traffic.table.entries.size := by
      obtain ⟨e, he, -⟩ := Option.map_eq_some_iff.mp hexposed.key
      exact (Array.getElem?_eq_some_iff.mp he).1
    have hsame := (hmove.record_eq_of_notice hid fun length hnotice hentry => by
      rw [foots, TableCall.pending_of_step hstep] at hnotice hentry
      exact hidle (TableCall.writes_of_notice hnotice hentry)).2
    rw [hnone, Option.toList_none, List.append_nil]
    exact .inl (hsame.trans (hexposed.value.resolve_right hwriter))

/-- What another thread does leaves a call at its stage, if it leaves alone what the call holds and
has got. -/
theorem Stage.frame (hstage : Stage c thread d later call)
    (hcall : c.traffic.calls thread = call) (hloans : c'.loans thread = c.loans thread)
    (hheld : ∀ handle key value, (c.foots thread).entry = some handle →
      c.traffic.table.Has handle.id key value → c'.traffic.table.Has handle.id key value)
    (hexposes : ∀ slotMode id, call = .overwriting slotMode id d .relocking →
      c.Exposed thread id d.key (later.getLastD d).value →
      c'.Exposed thread id d.key ((later ++ (c.supersedes thread other).toList).getLastD d).value) :
    Stage c' thread d (later ++ (c.supersedes thread other).toList) call := by
  have hkept (h : ∀ slotMode id dep, call ≠ .overwriting slotMode id dep .relocking) :
      later ++ (c.supersedes thread other).toList = later := by
    have hnone : c.supersedes thread other = none :=
      supersedes_eq_none fun _ _ _ hrelocking => absurd (hcall.symm.trans hrelocking) (h _ _ _)
    rw [hnone, Option.toList_none, List.append_nil]
  cases hstage with
  | intending hintends =>
      rw [hkept (by rintro _ _ _ rfl; contradiction)]
      exact .intending hintends
  | written hmode hhas =>
      rw [hkept (by simp)]
      exact .written hmode (hheld ⟨_, .exclusive⟩ _ _ (by rw [foots, hcall]; rfl) hhas)
  | exposed hmode hexposed => exact .exposed hmode (hexposes _ _ rfl hexposed)
  | bringing hbrings hmode hhas hfirst =>
      rw [hkept (by rintro _ _ _ rfl; contradiction)]
      refine .bringing hbrings hmode (hheld _ _ _ ?_ hhas) hfirst
      rw [foots, hcall]
      exact TableCall.entry_of_brings hbrings _
  | returned hloan hfirst =>
      rw [hkept (by simp)]
      exact .returned (hloans ▸ hloan) hfirst
  | failed hfails =>
      rw [hkept (by rintro _ _ _ rfl; contradiction)]
      exact .failed hfails

/-- A thread that makes a call puts nothing in the place of what others have stored. -/
theorem Stage.frame_call (hstage : Stage c thread d later (c.traffic.calls thread))
    {loans : ThreadId → List Loan} (hloans : loans thread = c.loans thread)
    (hcall : { c with loans }.call other call = some c') (hother : other ≠ thread) :
    Stage c' thread d (later ++ (c.supersedes thread other).toList) (c'.traffic.calls thread) := by
  obtain ⟨hidle, rfl⟩ := exists_of_call hcall
  have hsilent (id : EntryId) : (c.traffic.calls other).writes ≠ some id := by
    intro hwrites
    have hentry : (c.foots other).entry = some ⟨id, .exclusive⟩ :=
      TableCall.entry_of_writes hwrites _
    rw [show c.foots other = .idle from hidle] at hentry
    contradiction
  rw [Traffic.calls_advance_of_ne _ _ _ hother.symm]
  refine hstage.frame rfl hloans (fun _ _ _ _ hhas => hhas) fun slotMode id _ hexposed => ?_
  have hnone : c.supersedes thread other = none :=
    supersedes_eq_none fun _ id' _ _ => hsilent id'
  rw [hnone, Option.toList_none, List.append_nil]
  refine ⟨hexposed.key, hexposed.value.imp_right ?_⟩
  rintro ⟨writer, hne, hwrites⟩
  have hwriter : writer ≠ other := by
    rintro rfl
    exact hsilent id hwrites
  exact ⟨writer, hne, by rwa [Traffic.calls_advance_of_ne _ _ _ hwriter]⟩

/-- Whatever another thread does leaves a call at its stage. -/
theorem Stage.others (hstage : Stage c thread d later (c.traffic.calls thread)) (hw : c.HaveWritten)
    (h : c.Keeps slots holds refs) (hother : other ≠ thread) {deed : Deed}
    (hperform : c.perform other deed = some c') :
    Stage c' thread d (later ++ (c.supersedes thread other).toList) (c'.traffic.calls thread) := by
  obtain ⟨-, ⟨call, -, hcall⟩ | ⟨loan, -, -, hcall⟩ | ⟨memory, s, -, hstep, rfl⟩⟩ :=
    perform_cases hperform
  · exact hstage.frame_call rfl hcall hother
  · exact hstage.frame_call (Function.update_of_ne hother.symm ..) hcall hother
  · have hsame : s.calls thread = c.traffic.calls thread := by
      obtain ⟨t, call, rfl, -⟩ := h.exists_move hstep
      exact Traffic.calls_advance_of_ne _ _ _ hother.symm
    rw [advanced, hsame, ← advanced]
    exact hstage.frame rfl (c.loans_advanced_of_ne hother s)
      (fun _ _ _ hheld hhas => h.has_of_held hother hheld hstep hhas)
      fun _ _ hrelocking hexposed => hexposed.step h hw hrelocking hother hstep

/-! ## What a store comes to -/

/-- Only deposits for its own key can supersede what a thread has stored. -/
theorem Stage.key_of_supersedes (hstage : Stage c thread d later (c.traffic.calls thread))
    (hw : c.HaveWritten) {d' : Deposit} (h : c.supersedes thread other = some d') :
    d'.key = d.key := by
  unfold supersedes at h
  split at h
  next slotMode id dep slotMode' id' d'' hthread hother =>
    rw [Option.ite_none_right_eq_some] at h
    obtain ⟨rfl, hd⟩ := h
    obtain rfl := Option.some.inj hd
    have hwritten := hw other
    rw [hother] at hwritten
    rw [hthread] at hstage
    cases hstage with
    | exposed hmode hexposed => exact Option.some.inj (hwritten.1.symm.trans hexposed.key)
    | intending | bringing | failed => contradiction
  · contradiction

/-- A store under way has come to one of its stages, and is superseded by none but stores for its
key. -/
theorem Storing.stage {hash : Bytes → UInt64} {slotBits maxShards : Nat}
    (hnew : Table.new memory hash slotBits maxShards = .ok table)
    (hstoring : Storing table Table.Counts thread d later c) :
    Stage c thread d later (c.traffic.calls thread) ∧ ∀ d' ∈ later, d'.key = d.key := by
  induction hstoring with
  | call hc hperform _ =>
      obtain ⟨-, rfl⟩ := exists_of_call (call_of_perform rfl hperform)
      rw [Traffic.calls_advance_self]
      exact ⟨.intending rfl, fun _ hmem => absurd hmem List.not_mem_nil⟩
  | own hstoring memory hperform hcounts ih =>
      obtain ⟨slots', holds', refs', h'⟩ :=
        (Reachable.perform hstoring.reachable _ _ hperform hcounts).exists_keeps hnew
      obtain ⟨s, hstep, rfl⟩ := exists_step_of_perform hperform
      exact ⟨ih.1.own (hstoring.reachable.haveWritten hnew) hstep h', ih.2⟩
  | other hstoring hother deed hperform _ ih =>
      obtain ⟨slots, holds, refs, h⟩ := hstoring.reachable.exists_keeps hnew
      have hw := hstoring.reachable.haveWritten hnew
      refine ⟨ih.1.others hw h hother hperform, fun d' hd' => ?_⟩
      rcases List.mem_append.mp hd' with hold | hover
      · exact ih.2 d' hold
      · exact ih.1.key_of_supersedes hw (Option.mem_toList.mp hover)

/-- A run in which a thread stores a value and does nothing else from then on is one of a store. -/
theorem exists_storing_of_run {hash : Bytes → UInt64} {slotBits maxShards : Nat}
    (hnew : Table.new memory hash slotBits maxShards = .ok table)
    {before after : List (ThreadId × Deed)}
    (hrun : (opened table).run (before ++ (thread, .set d.key d.value d.mode) :: after) = some c)
    (hown : ∀ deed ∈ after, deed.1 = thread → ∃ memory, deed.2 = .step memory)
    (hshort : (before ++ (thread, .set d.key d.value d.mode) :: after).length < fieldSize) :
    ∃ later, Storing table Table.Counts thread d later c := by
  rw [List.length_append, List.length_cons] at hshort
  rw [run, List.foldlM_append] at hrun
  obtain ⟨c₀, hbefore, hrun⟩ := Option.bind_eq_some_iff.mp hrun
  rw [List.foldlM_cons] at hrun
  obtain ⟨c₁, hset, hafter⟩ := Option.bind_eq_some_iff.mp hrun
  obtain ⟨hreach, slots, holds, refs, h, hheld⟩ := exists_keeps_of_run hnew hbefore (by omega)
  have h₁ : c₁.Keeps slots holds refs := h.call rfl (call_of_perform rfl hset)
  refine (h₁.run_induction (fun c => ∃ later, Storing table Table.Counts thread d later c) hheld
    hafter (by omega) ⟨[], .call hreach hset h₁.locked.shows.counts⟩ ?_).1
  rintro c c' ⟨other, deed⟩ hdeed ⟨later, hstoring⟩ hperform hcounts
  by_cases hother : other = thread
  · obtain ⟨memory, hstep⟩ := hown _ hdeed hother
    dsimp only at hother hstep hperform
    subst hother hstep
    exact ⟨later, hstoring.own memory hperform hcounts⟩
  · exact ⟨_, hstoring.other hother deed hperform hcounts⟩

/-! ## Two stores for a key at once -/

/-- A thread goes some steps on. -/
def steps (thread : ThreadId) (count : Nat) : List (ThreadId × Deed) :=
  List.replicate count (thread, .step unlimited)

/-- A key gets its first value, and the handle is given back. -/
def beforeRace : List (ThreadId × Deed) :=
  (2, .set [1] [5] .exclusive) :: steps 2 10 ++
    (2, .giveBack ⟨⟨0, .exclusive⟩, .exclusive, [1], [5]⟩) :: steps 2 2

/-- Between the exclusive and the shared hold of the store of thread 1, thread 2 stores a value. -/
def race : List (ThreadId × Deed) :=
  steps 1 7 ++ (2, .set [1] [8] .exclusive) :: steps 2 7 ++
    (2, .giveBack ⟨⟨0, .exclusive⟩, .exclusive, [1], [8]⟩) :: steps 2 2 ++ steps 1 2

theorem isStep_of_mem_race {deed : ThreadId × Deed} (hdeed : deed ∈ race) (hthread : deed.1 = 1) :
    ∃ memory, deed.2 = .step memory := by
  have hsteps {thread : ThreadId} {count : Nat} (h : deed ∈ steps thread count) :
      ∃ memory, deed.2 = .step memory :=
    ⟨unlimited, by rw [List.eq_of_mem_replicate h]⟩
  simp only [race, List.mem_append, List.mem_cons] at hdeed
  rcases hdeed with ((hfirst | rfl | hsecond) | rfl | hback) | hlast
  · exact hsteps hfirst
  · contradiction
  · exact hsteps hsecond
  · contradiction
  · exact hsteps hback
  · exact hsteps hlast

theorem exists_race : ∃ table later c, Table.new unlimited (fun _ => 0) 1 1 = .ok table ∧
    Storing table Table.Counts 1 ⟨[1], [7], .shared⟩ later c ∧
      (c.traffic.calls 1).returned = some ⟨0, .shared⟩ ∧
      c.traffic.table.valueOf ⟨0, .shared⟩ = [8] := by
  obtain ⟨table, hnew⟩ := Table.new_unlimited (fun _ => 0) 1 1 (by decide) (by decide) (by decide)
  have hend : ((opened table).run (beforeRace ++ (1, .set [1] [7] .shared) :: race)).map (fun c =>
      ((c.traffic.calls 1).returned, c.traffic.table.valueOf ⟨0, .shared⟩)) =
      some (some ⟨0, .shared⟩, [8]) := by
    rw [Table.eq_of_new hnew]
    decide +kernel
  obtain ⟨c, hrun, hc⟩ := Option.map_eq_some_iff.mp hend
  obtain ⟨hreturned, hvalue⟩ := Prod.mk.inj hc
  obtain ⟨later, hstoring⟩ := exists_storing_of_run (d := ⟨[1], [7], .shared⟩) hnew hrun
    (fun _ => isStep_of_mem_race) (by decide)
  exact ⟨table, later, c, hnew, hstoring, hreturned, hvalue⟩

/-! ## What the handle shows -/

/-- Where a store returns a handle, the handle holds its entry in the mode that was asked for, and
the entry belongs to the key of the store. It has the value that was stored, unless the hold is
shared and other stores for the key came between: then it has what the last of those stored. -/
theorem Storing.handle_shows {hash : Bytes → UInt64} {slotBits maxShards : Nat}
    (hnew : Table.new memory hash slotBits maxShards = .ok table)
    (hstoring : Storing table Table.Counts thread d later c) {handle : Handle}
    (hreturned : (c.traffic.calls thread).returned = some handle) :
    c.Honours ⟨handle, d.mode, d.key, (later.getLastD d).value⟩ ∧
      (d.mode = .exclusive → later = []) ∧ ∀ d' ∈ later, d'.key = d.key := by
  obtain ⟨slots, holds, refs, h⟩ := hstoring.reachable.exists_keeps hnew
  obtain ⟨hstage, hkeys⟩ := hstoring.stage hnew
  generalize c.traffic.calls thread = call at hreturned hstage
  cases hstage with
  | returned hloan hkept =>
      obtain rfl := Option.some.inj hreturned
      exact ⟨h.honours hloan, hkept, hkeys⟩
  | intending | bringing => cases call <;> contradiction
  | failed hfails =>
      cases call with
      | finished result => rcases result with (_ | _) | _ | _ | _ <;> contradiction
      | _ => contradiction
  | written | exposed => contradiction

/-- The handle of the first store shows what the second one has stored. -/
theorem Storing.handle_shows_of_race :
    ∃ table later c, Table.new unlimited (fun _ => 0) 1 1 = .ok table ∧
      Storing table Table.Counts 1 ⟨[1], [7], .shared⟩ later c ∧
      c.Honours ⟨⟨0, .shared⟩, .shared, [1], [8]⟩ ∧
      (later.getLastD ⟨[1], [7], .shared⟩).value = [8] := by
  obtain ⟨table, later, c, hnew, hstoring, hreturned, hvalue⟩ := exists_race
  obtain ⟨hhonours, -, -⟩ := hstoring.handle_shows hnew hreturned
  have hlast : (later.getLastD ⟨[1], [7], .shared⟩).value = [8] :=
    hhonours.shows.value.symm.trans hvalue
  rw [hlast] at hhonours
  exact ⟨table, later, c, hnew, hstoring, hhonours, hlast⟩

/-- A store of one value may return a handle that shows another one. -/
theorem Storing.handle_shows_other :
    ∃ table later c handle, Table.new unlimited (fun _ => 0) 1 1 = .ok table ∧
      Storing table Table.Counts 1 ⟨[1], [7], .shared⟩ later c ∧
      (c.traffic.calls 1).returned = some handle ∧ c.traffic.table.valueOf handle ≠ [7] := by
  obtain ⟨table, later, c, hnew, hstoring, hreturned, hvalue⟩ := exists_race
  refine ⟨table, later, c, _, hnew, hstoring, hreturned, ?_⟩
  rw [hvalue]
  decide

end Custody

end KeyValueServer
