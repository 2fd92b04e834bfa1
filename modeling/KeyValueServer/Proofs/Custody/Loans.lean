import KeyValueServer.Proofs.Custody.Deeds
import KeyValueServer.Proofs.Custody.Departures
import KeyValueServer.Proofs.Store.Overflow
import KeyValueServer.Proofs.Store.Refinement

/-!
# Handles are stable

Whatever threads do with a table that they share, and however their steps interleave, what a handle
showed when it was returned it shows until its thread begins to give it back, and no call counts its
entry as freed.

A lock counts shared holds in a field of 29 bits. Where that many handles share one entry at once
the count is lost, and the runs here are those in which no lock has lost its count.
-/

namespace KeyValueServer

open Function (update)

/-! ## Locks that can count -/

/-- A word that has not lost count after a hold was taken can count that hold. -/
theorem LockWord.Shows.sharedHolds_lt {w next : LockWord} {holds : List Hold} {mode : LockMode}
    {thread : ThreadId} (h : w.Shows holds) (hnext : w.acquire? mode thread = some next)
    (hcounts : next.shared = true → next.field ≠ 0) :
    sharedHolds (⟨thread, mode⟩ :: holds) < fieldSize := by
  cases mode with
  | exclusive =>
      obtain ⟨hfree, -⟩ := acquire?_exclusive_eq_some_iff.mp hnext
      obtain rfl := h.eq_nil_iff.mpr hfree
      exact sharedHolds_singleton_lt _
  | shared =>
      obtain ⟨hexclusive, rfl⟩ := acquire?_shared_eq_some_iff.mp hnext
      have hfield := hcounts rfl
      cases h with
      | free => exact sharedHolds_singleton_lt _
      | exclusive => contradiction
      | @shared _ field _ _ hshared hlength =>
          have hlast : field ≠ Fin.last (fieldSize - 1) := by
            rintro rfl
            exact hfield (Fin.last_add_one _)
          have hlt := Fin.val_lt_last hlast
          rw [sharedHolds, List.countP_cons_of_pos (by simp), ← sharedHolds,
            sharedHolds_eq hshared, ← hlength]
          exact Nat.succ_lt_succ hlt

theorem LockWord.Shows.mode_of_mem {w : LockWord} {holds : List Hold} {mode : LockMode}
    {thread : ThreadId} (h : w.Shows holds) (hmem : ⟨thread, mode⟩ ∈ holds) :
    w.mode = some mode := by
  cases h with
  | free => contradiction
  | exclusive =>
      obtain ⟨-, rfl⟩ := Hold.mk.inj (List.mem_singleton.mp hmem)
      rfl
  | shared _ _ hshared =>
      obtain rfl : mode = .shared := hshared _ hmem
      rfl

namespace Table

variable {t t' : Table} {slots : Nat → List Hold} {holds : EntryId → List Hold}
  {thread : ThreadId} {mode : LockMode} {id : EntryId}

theorem Shows.counts (h : t.Shows slots holds) : t.Counts := by
  intro id e he hshared hzero
  have hnone := ((h.entry id e he).shared_iff 0).mp ⟨hshared, by rw [hzero]; rfl⟩
  exact absurd hnone.1 (lt_irrefl 0)

theorem Counts.sharedHolds_lt (hcounts : t'.Counts) (h : t.Shows slots holds)
    (henter : t.enterEntry thread mode id = some t') :
    sharedHolds (⟨thread, mode⟩ :: holds id) < fieldSize := by
  simp only [enterEntry, Option.bind_eq_bind, Option.bind_eq_some_iff, Option.pure_def,
    Option.some.injEq] at henter
  obtain ⟨e, he, lock, hlock, rfl⟩ := henter
  obtain ⟨word, hword, rfl⟩ := Option.map_eq_some_iff.mp hlock
  have hcounted := hcounts id
  rw [entryAt_modifyEntry, if_pos rfl, he, Option.map_some] at hcounted
  exact (h.entry id e he).sharedHolds_lt hword (hcounted _ rfl)

end Table

/-! ## What calls and handles hold -/

namespace TableCall

variable {call : TableCall} {handle : Handle}

/-- The footprint of the call that a thread has under way, if there is one. -/
def pending (place : Bytes → Nat) : TableCall → Footprint
  | .finished _ => .idle
  | call => call.footprint place

theorem pending_of_step {memory : Allocator} {s s' : Traffic} {thread : ThreadId}
    (hstep : s.step memory thread = some s') (place : Bytes → Nat) :
    (s.calls thread).pending place = (s.calls thread).footprint place := by
  unfold pending
  split
  next hcall =>
    rw [Traffic.step, hcall] at hstep
    contradiction
  · rfl

theorem pending_of_returned (h : call.returned = some handle) (place : Bytes → Nat) :
    call.pending place = .idle ∧ call.footprint place = .having handle := by
  unfold returned at h
  split at h
  · obtain rfl := Option.some.inj h
    exact ⟨rfl, rfl⟩
  · contradiction

theorem pending_of_not_returned (h : call.returned = none) (place : Bytes → Nat) :
    call.pending place = call.footprint place := by
  unfold pending
  split
  next result =>
    rcases result with (_ | _) | _ | _ | _
    · rfl
    · contradiction
    all_goals rfl
  · rfl

end TableCall

/-- The call with which a deed begins, where it is one for which nothing is held yet. -/
def Deed.asks (t : Table) : Deed → Option TableCall
  | get key mode => some (.get key mode)
  | set key value mode => some (.set key value mode)
  | reclaim => some (.reclaim t)
  | read loan => some (.read loan.handle)
  | giveBack _ | step _ => none

theorem Deed.pending_of_asks {deed : Deed} {t : Table} {call : TableCall}
    (h : deed.asks t = some call) (place : Bytes → Nat) : call.pending place = .idle := by
  cases deed with
  | get | set | reclaim | read =>
      obtain rfl := Option.some.inj h
      rfl
  | giveBack | step => contradiction

/-- The handles behind loans. -/
def handlesOf (loans : ThreadId → List Loan) (thread : ThreadId) : List Handle :=
  (loans thread).map Loan.handle

theorem handlesOf_update (loans : ThreadId → List Loan) (thread : ThreadId) (list : List Loan) :
    handlesOf (update loans thread list) =
      update (handlesOf loans) thread (list.map Loan.handle) :=
  Function.comp_update (List.map Loan.handle) loans thread list

/-- The calls under way and the handles account for all locks and references, and the handles show
what they showed when they were returned. -/
structure Secure (t : Table) (foots : ThreadId → Footprint) (loans : ThreadId → List Loan)
    (freed : List EntryId) (slots : Nat → List Hold) (holds refs : EntryId → List Hold) : Prop where
  locked : Locked t foots (handlesOf loans) slots holds
  referred : Referred t foots (handlesOf loans) refs
  sited : Sited t foots (handlesOf loans) freed
  shown : ∀ thread, ∀ loan ∈ loans thread, t.Displays loan.handle loan.mode loan.key loan.value

namespace Secure

variable {t t' : Table} {foots : ThreadId → Footprint} {loans : ThreadId → List Loan}
  {freed : List EntryId} {slots : Nat → List Hold} {holds refs : EntryId → List Hold}
  {thread : ThreadId} {before after : Footprint} {out : Option EntryId} {handle : Handle}
  {loan : Loan}

theorem quiet {memory : Allocator} {hash : Bytes → UInt64} {slotBits maxShards : Nat}
    (hnew : Table.new memory hash slotBits maxShards = .ok t) :
    Secure t (fun _ => .idle) (fun _ => []) [] (fun _ => []) (fun _ => []) fun _ => [] where
  locked := .quiet (Table.atRest_of_new hnew)
  referred := .quiet (Table.pins_of_new hnew)
  sited := .quiet (Table.sound_of_new hnew) (by rw [Table.eq_of_new hnew])
  shown _ _ hloan := absurd hloan List.not_mem_nil

/-- The handle that a call has returned is its caller's. -/
theorem handOver (h : Secure t foots loans freed slots holds refs) (hthread : thread ≠ 0)
    (hfoot : foots thread = .having handle) :
    Secure t (update foots thread .idle)
      (update loans thread
        (⟨handle, handle.mode, t.keyOf handle, t.valueOf handle⟩ :: loans thread))
      freed slots holds refs := by
  have hslot : Footprint.idle.slot = (foots thread).slot := by rw [hfoot]; rfl
  have hholding : (Footprint.idle.holding (handle :: handlesOf loans thread)).Perm
      ((foots thread).holding (handlesOf loans thread)) := by rw [hfoot]; rfl
  have hreferring : (Footprint.idle.referring (handle :: handlesOf loans thread)).Perm
      ((foots thread).referring (handlesOf loans thread)) := by rw [hfoot]; rfl
  refine ⟨?_, ?_, ?_, fun other loan hloan => ?_⟩
  · rw [handlesOf_update]
    exact h.locked.pass hthread hslot hholding
  · rw [handlesOf_update]
    exact h.referred.pass hreferring
  · rw [handlesOf_update]
    exact h.sited.pass rfl rfl hreferring
  · by_cases hother : other = thread
    · subst hother
      rw [Function.update_self] at hloan
      rcases List.mem_cons.mp hloan with rfl | hold
      · exact ⟨rfl, rfl, rfl⟩
      · exact h.shown other loan hold
    · rw [Function.update_of_ne hother] at hloan
      exact h.shown other loan hloan

/-- The handle that a thread gives back is again that of a call. -/
theorem handBack (h : Secure t foots loans freed slots holds refs) (hthread : thread ≠ 0)
    (hfoot : foots thread = .idle) (hloan : loan ∈ loans thread) :
    Secure t (update foots thread (.having loan.handle))
      (update loans thread ((loans thread).erase loan)) freed slots holds refs := by
  have hslot : (Footprint.having loan.handle).slot = (foots thread).slot := by rw [hfoot]; rfl
  have hperm : (loan.handle :: ((loans thread).erase loan).map Loan.handle).Perm
      (handlesOf loans thread) :=
    ((List.perm_cons_erase hloan).map Loan.handle).symm
  have hholding : ((Footprint.having loan.handle).holding
      (((loans thread).erase loan).map Loan.handle)).Perm
      ((foots thread).holding (handlesOf loans thread)) := by rw [hfoot]; exact hperm
  have hreferring : ((Footprint.having loan.handle).referring
      (((loans thread).erase loan).map Loan.handle)).Perm
      ((foots thread).referring (handlesOf loans thread)) := by rw [hfoot]; exact hperm
  refine ⟨?_, ?_, ?_, fun other loan' hloan' => h.shown other loan' ?_⟩
  · rw [handlesOf_update]
    exact h.locked.pass hthread hslot hholding
  · rw [handlesOf_update]
    exact h.referred.pass hreferring
  · rw [handlesOf_update]
    exact h.sited.pass rfl rfl hreferring
  · by_cases hother : other = thread
    · subst hother
      rw [Function.update_self] at hloan'
      exact List.mem_of_mem_erase hloan'
    · rwa [Function.update_of_ne hother] at hloan'

theorem displays_move (h : Secure t foots loans freed slots holds refs)
    (hbefore : foots thread = before) (hmove : Footprint.Move thread t before t' after out)
    (other : ThreadId) (loan : Loan) (hloan : loan ∈ loans other) :
    t'.Displays loan.handle loan.mode loan.key loan.value := by
  have hkept : loan.handle ∈ handlesOf loans other := List.mem_map_of_mem hloan
  have hid : loan.handle.id < t.entries.size := h.locked.id_lt (List.mem_append_right _ hkept)
  have hfree : before.entry ≠ some ⟨loan.handle.id, .exclusive⟩ := by
    intro hheld
    rw [← hbefore] at hheld
    exact h.locked.ne_of_kept hheld hkept rfl
  obtain ⟨hkey, hvalue⟩ := hmove.record_eq hid hfree
  obtain ⟨hmode, hkeyOf, hvalueOf⟩ := h.shown other loan hloan
  exact ⟨hmode, (congrArg (·.getD []) hkey).trans hkeyOf,
    (congrArg (·.getD []) hvalue).trans hvalueOf⟩

/-- A move of a call changes nothing that a handle shows, and frees no entry that one refers to. -/
theorem exists_move (h : Secure t foots loans freed slots holds refs) (hthread : thread ≠ 0)
    (hbefore : foots thread = before) (hmove : Footprint.Move thread t before t' after out)
    (hroom : ∀ mode handle, before.entry = none → before.refers = some handle →
      t.enterEntry thread mode handle.id = some t' →
      sharedHolds (⟨thread, mode⟩ :: holds handle.id) < fieldSize) :
    ∃ slots' holds' refs',
      Secure t' (update foots thread after) loans (out.toList ++ freed) slots' holds' refs' ∧
        ∀ id, (holds' id).length ≤ (holds id).length + 1 := by
  obtain ⟨slots', holds', hlocked, hlength⟩ :=
    h.locked.exists_move hthread h.sited.sound hbefore hmove hroom
  obtain ⟨refs', hreferred⟩ := h.referred.exists_move h.sited.sound hbefore hmove
  exact ⟨slots', holds', refs', ⟨hlocked, hreferred, h.sited.move h.locked h.referred hbefore hmove,
    h.displays_move hbefore hmove⟩, hlength⟩

end Secure

namespace Custody

variable {c c' : Custody} {table : Table} {thread : ThreadId} {memory : Allocator} {deed : Deed}
  {slots : Nat → List Hold} {holds refs : EntryId → List Hold} {s : Traffic}

/-- The footprints of the calls under way. -/
def foots (c : Custody) (thread : ThreadId) : Footprint :=
  (c.traffic.calls thread).pending c.traffic.table.placeOf

/-- What holds between the steps of threads. -/
abbrev Keeps (c : Custody) (slots : Nat → List Hold) (holds refs : EntryId → List Hold) : Prop :=
  Secure c.traffic.table c.foots c.loans c.freed slots holds refs

theorem foots_advance (c : Custody) (thread : ThreadId) (call : TableCall) {t : Table}
    (hplace : t.placeOf = c.traffic.table.placeOf) (loans : ThreadId → List Loan)
    (freed : List EntryId) :
    foots ⟨c.traffic.advance thread t call, loans, freed⟩ =
      update c.foots thread (call.pending c.traffic.table.placeOf) := by
  funext other
  by_cases hother : other = thread
  · subst hother
    rw [foots, Traffic.calls_advance_self, Function.update_self]
    exact congrArg call.pending hplace
  · rw [Function.update_of_ne hother, foots, foots]
    simp [Traffic.advance, Traffic.start, hother, hplace]

/-- What a thread can do: call the table, give a handle back, or go a step on. -/
theorem perform_cases (hperform : c.perform thread deed = some c') : thread ≠ 0 ∧
    ((∃ call, deed.asks c.traffic.table = some call ∧ c.call thread call = some c') ∨
      (∃ loan ∈ c.loans thread, deed = .giveBack loan ∧
        { c with loans := update c.loans thread ((c.loans thread).erase loan) }.call thread
          (.release loan.handle) = some c') ∨
      ∃ memory s, deed = .step memory ∧ c.traffic.step memory thread = some s ∧
        c' = c.advanced thread s) := by
  unfold perform at hperform
  split at hperform
  · contradiction
  next hthread =>
    refine ⟨hthread, ?_⟩
    cases deed with
    | get | set | reclaim => exact .inl ⟨_, rfl, hperform⟩
    | read loan =>
        dsimp only at hperform
        split at hperform
        · exact .inl ⟨_, rfl, hperform⟩
        · contradiction
    | giveBack loan =>
        dsimp only at hperform
        split at hperform
        next hloan => exact .inr (.inl ⟨loan, hloan, rfl, hperform⟩)
        · contradiction
    | step memory =>
        obtain ⟨s, hstep, rfl⟩ := Option.map_eq_some_iff.mp hperform
        exact .inr (.inr ⟨memory, s, rfl, hstep, rfl⟩)

theorem call_of_perform {call : TableCall} (hasks : deed.asks c.traffic.table = some call)
    (hperform : c.perform thread deed = some c') : c.call thread call = some c' := by
  obtain ⟨-, ⟨found, hfound, hcall⟩ | ⟨loan, -, rfl, -⟩ | ⟨memory, s, rfl, -⟩⟩ :=
    perform_cases hperform
  · obtain rfl := Option.some.inj (hasks.symm.trans hfound)
    exact hcall
  · contradiction
  · contradiction

theorem exists_step_of_perform (hperform : c.perform thread (.step memory) = some c') :
    ∃ s, c.traffic.step memory thread = some s ∧ c' = c.advanced thread s := by
  obtain ⟨-, hasks | ⟨_, -, hdeed, -⟩ | ⟨memory', s, hdeed, hstep, hs⟩⟩ := perform_cases hperform
  · obtain ⟨_, hasks, -⟩ := hasks
    contradiction
  · contradiction
  · obtain rfl := Deed.step.inj hdeed
    exact ⟨s, hstep, hs⟩

theorem exists_of_call {call : TableCall} (hcall : c.call thread call = some c') :
    c.foots thread = .idle ∧
      c' = ⟨c.traffic.advance thread c.traffic.table call, c.loans, c.freed⟩ := by
  unfold Custody.call at hcall
  split at hcall
  next hended =>
    obtain rfl := Option.some.inj hcall
    exact ⟨by rw [foots, hended, TableCall.pending], rfl⟩
  · contradiction

theorem Keeps.call (h : c.Keeps slots holds refs) {call : TableCall}
    (hidle : call.pending c.traffic.table.placeOf = .idle) (hcall : c.call thread call = some c') :
    c'.Keeps slots holds refs := by
  obtain ⟨hfoot, rfl⟩ := exists_of_call hcall
  rw [Keeps, foots_advance c thread call rfl, hidle, ← hfoot, Function.update_eq_self]
  exact h

theorem Keeps.giveBack (h : c.Keeps slots holds refs) (hthread : thread ≠ 0) {loan : Loan}
    (hloan : loan ∈ c.loans thread)
    (hcall : { c with loans := update c.loans thread ((c.loans thread).erase loan) }.call thread
      (.release loan.handle) = some c') :
    c'.Keeps slots holds refs := by
  obtain ⟨hfoot, rfl⟩ := exists_of_call hcall
  rw [Keeps, foots_advance c thread (.release loan.handle) rfl]
  exact h.handBack hthread hfoot hloan

/-- A step of a thread is a move of the call that it has under way. -/
theorem Keeps.exists_move (h : c.Keeps slots holds refs)
    (hstep : c.traffic.step memory thread = some s) :
    ∃ t call, s = c.traffic.advance thread t call ∧
      Footprint.Move thread c.traffic.table (c.foots thread) t
        (call.footprint c.traffic.table.placeOf) ((c.traffic.calls thread).freed call) := by
  have hfoot : c.foots thread = (c.traffic.calls thread).footprint c.traffic.table.placeOf :=
    TableCall.pending_of_step hstep _
  have hleave : ∀ handle,
      ((c.traffic.calls thread).footprint c.traffic.table.placeOf).entry = some handle →
      (c.traffic.table.leaveEntry thread handle.mode handle.id).1 = .ok () := by
    intro handle hheld
    rw [← hfoot] at hheld
    exact h.locked.leaveEntry_ok (Footprint.mem_holding hheld _)
  rw [hfoot]
  exact Traffic.exists_footprint_move hleave hstep

theorem Keeps.exists_step (h : c.Keeps slots holds refs) (hthread : thread ≠ 0)
    (hstep : c.traffic.step memory thread = some s)
    (hroom : ∀ mode handle, (c.foots thread).entry = none → (c.foots thread).refers = some handle →
      c.traffic.table.enterEntry thread mode handle.id = some s.table →
      sharedHolds (⟨thread, mode⟩ :: holds handle.id) < fieldSize) :
    ∃ slots' holds' refs', (c.advanced thread s).Keeps slots' holds' refs' ∧
      ∀ id, (holds' id).length ≤ (holds id).length + 1 := by
  obtain ⟨t, call, rfl, hmove⟩ := h.exists_move hstep
  have hplace : t.placeOf = c.traffic.table.placeOf := by
    funext key
    exact (hmove.spares h.sited.sound (h.sited.stands thread)).placeOf_eq key
  obtain ⟨slots', holds', refs', hsecure, hlength⟩ := Secure.exists_move h hthread rfl hmove hroom
  refine ⟨slots', holds', refs', ?_, hlength⟩
  rw [Keeps, advanced, foots_advance c thread call hplace, Traffic.calls_advance_self]
  cases hreturned : call.returned with
  | none =>
      rw [TableCall.pending_of_not_returned hreturned]
      exact hsecure
  | some handle =>
      obtain ⟨hidle, hhaving⟩ := TableCall.pending_of_returned hreturned c.traffic.table.placeOf
      rw [hhaving] at hsecure
      have hover := hsecure.handOver hthread (Function.update_self thread (.having handle) c.foots)
      rw [Function.update_idem] at hover
      rw [hidle]
      exact hover

/-- Whatever a thread does, locks, references and handles go on to agree, as long as a lock that is
taken can count its holds. -/
theorem Keeps.exists_perform (h : c.Keeps slots holds refs)
    (hperform : c.perform thread deed = some c')
    (hroom : ∀ mode handle, (c.foots thread).entry = none → (c.foots thread).refers = some handle →
      c.traffic.table.enterEntry thread mode handle.id = some c'.traffic.table →
      sharedHolds (⟨thread, mode⟩ :: holds handle.id) < fieldSize) :
    ∃ slots' holds' refs', c'.Keeps slots' holds' refs' ∧
      ∀ id, (holds' id).length ≤ (holds id).length + 1 := by
  have hsame : ∀ id, (holds id).length ≤ (holds id).length + 1 := fun _ => Nat.le_succ _
  obtain ⟨hthread, ⟨call, hasks, hcall⟩ | ⟨loan, hloan, -, hcall⟩ | ⟨memory, s, -, hstep, rfl⟩⟩ :=
    perform_cases hperform
  · exact ⟨_, _, _, h.call (Deed.pending_of_asks hasks _) hcall, hsame⟩
  · exact ⟨_, _, _, h.giveBack hthread hloan hcall, hsame⟩
  · exact h.exists_step hthread hstep hroom

theorem Reachable.exists_keeps {hash : Bytes → UInt64} {slotBits maxShards : Nat}
    (hnew : Table.new memory hash slotBits maxShards = .ok table)
    (hreach : Reachable table Table.Counts c) :
    ∃ slots holds refs, c.Keeps slots holds refs := by
  induction hreach with
  | opened => exact ⟨_, _, _, .quiet hnew⟩
  | perform _ thread deed hperform hcounts ih =>
      obtain ⟨slots, holds, refs, h⟩ := ih
      obtain ⟨slots', holds', refs', h', -⟩ := h.exists_perform hperform
        fun mode handle _ _ henter => hcounts.sharedHolds_lt h.locked.shows henter
      exact ⟨slots', holds', refs', h'⟩

/-- Every deed adds one hold at most. So in a run that is short enough no lock loses count, and what
each deed preserves where none does holds in the end. -/
theorem Keeps.run_induction (motive : Custody → Prop) {c₀ : Custody}
    (h : c₀.Keeps slots holds refs) {done : Nat} (hdone : ∀ id, (holds id).length ≤ done)
    {deeds : List (ThreadId × Deed)} (hrun : c₀.run deeds = some c)
    (hshort : done + deeds.length < fieldSize) (hstart : motive c₀)
    (hnext : ∀ {c c' : Custody} (deed : ThreadId × Deed), deed ∈ deeds → motive c →
      c.perform deed.1 deed.2 = some c' → c'.traffic.table.Counts → motive c') :
    motive c ∧ ∃ slots holds refs, c.Keeps slots holds refs ∧
      ∀ id, (holds id).length ≤ done + deeds.length := by
  induction deeds generalizing c₀ slots holds refs done with
  | nil =>
      obtain rfl := Option.some.inj hrun
      exact ⟨hstart, _, _, _, h, hdone⟩
  | cons deed rest ih =>
      rw [Custody.run, List.foldlM_cons] at hrun
      obtain ⟨next, hperform, hrest⟩ := Option.bind_eq_some_iff.mp hrun
      rw [List.length_cons] at hshort ⊢
      have hroom : ∀ mode id, sharedHolds (⟨deed.1, mode⟩ :: holds id) < fieldSize := by
        intro mode id
        have hle : sharedHolds (⟨deed.1, mode⟩ :: holds id) ≤ (holds id).length + 1 :=
          List.countP_le_length
        have hheld := hdone id
        omega
      obtain ⟨slots', holds', refs', h', hmore⟩ :=
        h.exists_perform hperform fun mode handle _ _ _ => hroom mode handle.id
      have hdone' : ∀ id, (holds' id).length ≤ done + 1 := fun id =>
        (hmore id).trans (Nat.succ_le_succ (hdone id))
      have hstart' : motive next :=
        hnext deed List.mem_cons_self hstart hperform h'.locked.shows.counts
      have hlength : done + (rest.length + 1) = done + 1 + rest.length := by omega
      rw [hlength] at hshort ⊢
      exact ih h' hdone' hrest hshort hstart' fun deed hdeed =>
        hnext deed (List.mem_cons_of_mem _ hdeed)

/-- In a run of fewer deeds than a lock can count holds no lock loses count, and an entry has at
most one hold for each deed. -/
theorem exists_keeps_of_run {hash : Bytes → UInt64} {slotBits maxShards : Nat}
    (hnew : Table.new memory hash slotBits maxShards = .ok table) {deeds : List (ThreadId × Deed)}
    (hrun : (opened table).run deeds = some c) (hshort : deeds.length < fieldSize) :
    Reachable table Table.Counts c ∧ ∃ slots holds refs, c.Keeps slots holds refs ∧
      ∀ id, (holds id).length ≤ deeds.length := by
  have hopened : (opened table).Keeps (fun _ => []) (fun _ => []) fun _ => [] := .quiet hnew
  have hend := hopened.run_induction (Reachable table Table.Counts) (fun _ => Nat.le_refl 0) hrun
    (by omega) .opened fun deed _ hc hperform hcounts => hc.perform deed.1 deed.2 hperform hcounts
  rwa [Nat.zero_add] at hend

theorem reachable_of_run {hash : Bytes → UInt64} {slotBits maxShards : Nat}
    (hnew : Table.new memory hash slotBits maxShards = .ok table) {deeds : List (ThreadId × Deed)}
    (hrun : (opened table).run deeds = some c) (hshort : deeds.length < fieldSize) :
    Reachable table Table.Counts c :=
  (exists_keeps_of_run hnew hrun hshort).1

/-! ## What a handle can be relied on for -/

/-- A handle shows what it showed when it was returned, its entry is locked in its mode, and the
entry was not counted as freed. -/
structure Honours (c : Custody) (loan : Loan) : Prop where
  shows : c.traffic.table.Displays loan.handle loan.mode loan.key loan.value
  locked : ∃ e, c.traffic.table.entryAt loan.handle.id = some e ∧
    e.lock.word.mode = some loan.mode
  unfreed : loan.handle.id ∉ c.freed

theorem Keeps.honours (h : c.Keeps slots holds refs) {loan : Loan} (hloan : loan ∈ c.loans thread) :
    c.Honours loan where
  shows := h.shown thread loan hloan
  locked := by
    have hheld : loan.handle ∈ (c.foots thread).holding (handlesOf c.loans thread) :=
      List.mem_append_right _ (List.mem_map_of_mem hloan)
    have he : c.traffic.table.entryAt loan.handle.id = some _ :=
      Array.getElem?_eq_getElem (h.locked.id_lt hheld)
    refine ⟨_, he, ?_⟩
    rw [← (h.shown thread loan hloan).mode]
    exact (h.locked.shows.entry _ _ he).mode_of_mem (h.locked.holds.mem_iff.mpr hheld)
  unfreed hfreed := by
    have hrefers : loan.handle ∈ (c.foots thread).referring (handlesOf c.loans thread) :=
      List.mem_append_right _ (List.mem_map_of_mem hloan)
    exact h.sited.unreferenced _ hfreed thread loan.handle hrefers rfl

/-- As long as no lock loses count, a handle goes on to show the same key, value and mode from the
moment at which it is returned until its thread gives it back, whatever other threads do, and no
call frees its entry. -/
theorem Reachable.handles_stable {hash : Bytes → UInt64} {slotBits maxShards : Nat}
    (hnew : Table.new memory hash slotBits maxShards = .ok table)
    (hreach : Reachable table Table.Counts c) (thread : ThreadId) (loan : Loan)
    (hloan : loan ∈ c.loans thread) : c.Honours loan := by
  obtain ⟨slots, holds, refs, h⟩ := hreach.exists_keeps hnew
  exact h.honours hloan

/-- The entry of a handle is replaced by one with a longer value, which is replaced in turn. Of the
two retired entries only the one without a handle is freed. -/
theorem handles_stable_of_replaced :
    ∃ table c, Table.new unlimited (fun _ => 0) 1 1 = .ok table ∧ Reachable table Table.Counts c ∧
      c.traffic.table.lookup [1] = some [8, 9, 9] ∧ c.traffic.table.retired = [0] ∧ c.freed = [1] ∧
      ⟨⟨0, .shared⟩, .shared, [1], [7]⟩ ∈ c.loans 1 ∧
      c.Honours ⟨⟨0, .shared⟩, .shared, [1], [7]⟩ := by
  obtain ⟨table, hnew⟩ := Table.new_unlimited (fun _ => 0) 1 1 (by decide) (by decide) (by decide)
  let steps (thread : ThreadId) (n : Nat) : List (ThreadId × Deed) :=
    List.replicate n (thread, .step unlimited)
  let deeds : List (ThreadId × Deed) :=
    (1, .set [1] [7] .shared) :: steps 1 10 ++
      (2, .set [1] [8, 9] .exclusive) :: steps 2 7 ++ (3, .reclaim) :: steps 3 3 ++ steps 2 5 ++
      (2, .giveBack ⟨⟨1, .exclusive⟩, .exclusive, [1], [8, 9]⟩) :: steps 2 2 ++
      (2, .set [1] [8, 9, 9] .shared) :: steps 2 12 ++ (3, .reclaim) :: steps 3 5
  have hafter : ((opened table).run deeds).map (fun c => (c.traffic.table.lookup [1],
      c.traffic.table.retired, c.freed, c.loans 1)) =
      some (some [8, 9, 9], [0], [1], [⟨⟨0, .shared⟩, .shared, [1], [7]⟩]) := by
    rw [Table.eq_of_new hnew]
    decide +kernel
  obtain ⟨c, hrun, hc⟩ := Option.map_eq_some_iff.mp hafter
  obtain ⟨hlookup, hretired, hfreed, hloans⟩ : _ ∧ _ ∧ _ ∧ _ := by simpa using hc
  have hreach : Reachable table Table.Counts c := reachable_of_run hnew hrun (by decide)
  have hloan : ⟨⟨0, .shared⟩, .shared, [1], [7]⟩ ∈ c.loans 1 := by
    rw [hloans]
    exact List.mem_singleton_self _
  exact ⟨table, c, hnew, hreach, hlookup, hretired, hfreed, hloan,
    hreach.handles_stable hnew 1 _ hloan⟩

/-! ## Locks that have lost count -/

/-- Any number of lookups is granted, and all handles show the same. -/
theorem Settles.exists_gets {t : Table} {key value : Bytes} {id : EntryId}
    (h : Settles table t fun _ => []) (hcrowded : t.Crowded key id 0)
    (hlookup : t.lookup key = some value) (hthread : thread ≠ 0) (count : Nat) :
    ∃ t', Settles table t' (update (fun _ => []) thread
        (List.replicate count ⟨⟨id, .shared⟩, .shared, key, value⟩)) ∧
      t'.Crowded key id count ∧ t'.contents = t.contents := by
  refine hcrowded.exists_gets thread (fun count t' => Settles table t' (update (fun _ => []) thread
    (List.replicate count ⟨⟨id, .shared⟩, .shared, key, value⟩))) ?_ ?_ count
  · rwa [List.replicate_zero, Function.update_eq_self]
  · intro count t₁ t₂ hheld hget hcontents
    obtain ⟨-, hkey, hvalue⟩ := (hcrowded.sound.of_contents_eq hcontents).displays
      ((Table.entryOf_eq hcontents key).trans hcrowded.found)
      ((Table.lookup_eq hcontents key).trans hlookup) .shared
    have hlent := hheld.get hthread hget
    rwa [lend, hkey, hvalue, Function.update_self, Function.update_idem,
      ← List.replicate_succ] at hlent

/-- A thread that has one shared handle more on an entry than its lock can count gives one back.
Then another thread stores a value over what the others show. -/
theorem not_honours_of_overflow :
    ∃ table c id, Table.new unlimited (fun _ => 0) 1 1 = .ok table ∧
      Reachable table (fun _ => True) c ∧ ⟨⟨id, .shared⟩, .shared, [1], [7]⟩ ∈ c.loans 1 ∧
      c.traffic.table.valueOf ⟨id, .shared⟩ = [8] ∧
      ¬c.Honours ⟨⟨id, .shared⟩, .shared, [1], [7]⟩ := by
  obtain ⟨table, hnew⟩ := Table.new_unlimited (fun _ => 0) 1 1 (by decide) (by decide) (by decide)
  obtain ⟨id, t, hset, -, hcrowded, hlookup⟩ := Table.exists_crowded_of_new hnew 1 [1] [7]
  have hone : (1 : ThreadId) ≠ 0 := by decide
  have hstored := (settles_opened table).set hone hset
  have hreturned := hstored.giveBack hone (by rw [lend, Function.update_self]; exact .head _)
  generalize hafter : (t.release 1 ⟨id, .exclusive⟩).2 = t₁ at hcrowded hlookup
  have hquiet : Settles table t₁ fun _ => [] := by
    rw [← hafter]
    simpa [lend] using hreturned
  have hfound : t₁.lookup [1] = some [7] := by rw [hlookup, Function.update_self]
  obtain ⟨t₂, hheld, hcrowded₂, hcontents₂⟩ :=
    hquiet.exists_gets hcrowded hfound hone (fieldSize + 1)
  have hmem : (⟨⟨id, .shared⟩, .shared, [1], [7]⟩ : Loan) ∈
      List.replicate (fieldSize + 1) ⟨⟨id, .shared⟩, .shared, [1], [7]⟩ :=
    List.mem_replicate.mpr ⟨Nat.succ_ne_zero _, rfl⟩
  have hgiven := hheld.giveBack hone (by rw [Function.update_self]; exact hmem)
  rw [Function.update_idem, Function.update_self, List.replicate_succ,
    List.erase_cons_head] at hgiven
  -- the release is taken for that of the last handle
  have hfree := (hcrowded₂.release_beyond_overflow 1).2
  have hcontents := (t₂.contents_release 1 ⟨id, .shared⟩).trans hcontents₂
  have hlength := hfree.length_le_capacityOf ((Table.lookup_eq hcontents [1]).trans hfound)
  have hfits : ([8] : Bytes).length ≤ (t₂.release 1 ⟨id, .shared⟩).2.capacityOf id := hlength
  obtain ⟨t₃, hset₃, hshown⟩ := hfree.exists_set hfits unlimited 2
  obtain ⟨c, hreach, rfl, hloans, -⟩ := hgiven.set (by decide) hset₃
  refine ⟨table, c, id, hnew, hreach, ?_, hshown .shared, fun hhonours => ?_⟩
  · rw [hloans, lend, Function.update_of_ne (by decide), Function.update_self]
    exact List.mem_replicate.mpr ⟨(Nat.two_pow_pos 29).ne', rfl⟩
  · have hkept : c.traffic.table.valueOf ⟨id, .shared⟩ = [7] := hhonours.shows.value
    rw [hshown .shared] at hkept
    contradiction

end Custody

end KeyValueServer
