import KeyValueServer.Proofs.Custody.Footprint
import KeyValueServer.Proofs.Traffic.Alone

/-!
# Deeds of threads that share a table

Threads store values, find them, free retired entries and give handles back, each one call at a
time, and their steps interleave in any order. A thread may keep as many handles as it likes for as
long as it likes. A call that nobody interrupts leaves the table as the call carried out whole does,
and its thread with one handle more or less.
-/

namespace KeyValueServer

open Function (update)

/-! ## Runs -/

/-- A handle that was returned to a thread, and what it showed then. -/
structure Loan where
  handle : Handle
  mode : LockMode
  key : Bytes
  value : Bytes
deriving DecidableEq

/-- The calls on a table, the handles that threads have got and not given back, and the entries that
were counted as freed. -/
structure Custody where
  traffic : Traffic
  loans : ThreadId → List Loan
  freed : List EntryId

/-- What a thread can do: make a call, on the table or with one of its handles, or go one step on
with the call that it has made, with the memory there is at that moment. Releasing a handle and
dropping it are the same for the table. -/
inductive Deed where
  | get (key : Bytes) (mode : LockMode)
  | set (key value : Bytes) (mode : LockMode)
  | reclaim
  | read (loan : Loan)
  | giveBack (loan : Loan)
  | step (memory : Allocator)

/-- The handle that a call has returned. -/
def TableCall.returned : TableCall → Option Handle
  | .finished (.handle (.ok handle)) => some handle
  | _ => none

namespace Custody

/-- Nothing has happened on a table yet. -/
def opened (table : Table) : Custody := ⟨.quiet table, fun _ => [], []⟩

/-- A thread makes a call, unless it still has one under way. -/
def call (c : Custody) (thread : ThreadId) (call : TableCall) : Option Custody :=
  match c.traffic.calls thread with
  | .finished _ => some { c with traffic := c.traffic.start thread call }
  | _ => none

/-- A thread has gone a step on. A handle that its call has returned is noted with what it shows. -/
def advanced (c : Custody) (thread : ThreadId) (s : Traffic) : Custody where
  traffic := s
  loans :=
    match (s.calls thread).returned with
    | some handle =>
        update c.loans thread
          (⟨handle, handle.mode, s.table.keyOf handle, s.table.valueOf handle⟩ :: c.loans thread)
    | none => c.loans
  freed := ((c.traffic.calls thread).freed (s.calls thread)).toList ++ c.freed

/-- What becomes of everything when a thread does something, where it can. Threads are named from
one on. -/
def perform (c : Custody) (thread : ThreadId) (deed : Deed) : Option Custody :=
  if thread = 0 then none
  else
    match deed with
    | .get key mode => c.call thread (.get key mode)
    | .set key value mode => c.call thread (.set key value mode)
    | .reclaim => c.call thread (.reclaim c.traffic.table)
    | .read loan => if loan ∈ c.loans thread then c.call thread (.read loan.handle) else none
    | .giveBack loan =>
        if loan ∈ c.loans thread then
          { c with loans := update c.loans thread ((c.loans thread).erase loan) }.call thread
            (.release loan.handle)
        else none
    | .step memory => (c.traffic.step memory thread).map (c.advanced thread)

/-- What becomes of everything after these deeds, in this order. -/
def run (c : Custody) (deeds : List (ThreadId × Deed)) : Option Custody :=
  deeds.foldlM (fun c deed => c.perform deed.1 deed.2) c

end Custody

/-- No lock of an entry has lost count of its shared holds. -/
def Table.Counts (t : Table) : Prop :=
  ∀ id e, t.entryAt id = some e → e.lock.word.shared = true → e.lock.word.field ≠ 0

/-- What can come about on a table that always keeps to a condition. -/
inductive Custody.Reachable (table : Table) (within : Table → Prop) : Custody → Prop
  | opened : Reachable table within (.opened table)
  | perform {c c' : Custody} (hc : Reachable table within c) (thread : ThreadId) (deed : Deed)
      (h : c.perform thread deed = some c') (hwithin : within c'.traffic.table) :
      Reachable table within c'

/-! ## Calls that nobody interrupts -/

/-- A call that goes on has returned nothing yet. -/
theorem Traffic.Strides.returned_eq_none {memory : Allocator} {thread : ThreadId}
    {before after : Table × TableCall} (h : Strides memory thread before after) :
    before.2.returned = none := by
  have hstep := h (fun _ => before.2) rfl
  cases hcall : before.2 with
  | finished result =>
      rw [Traffic.step, hcall] at hstep
      contradiction
  | _ => rfl

namespace Custody

variable {c : Custody} {table t t' : Table} {loans : ThreadId → List Loan} {thread : ThreadId}
  {memory : Allocator} {call : TableCall} {handle : Handle}

/-- A thread goes on with its call while no other does anything. Only with the last step can it get
a handle. -/
theorem Reachable.exists_alone {after : Table × TableCall}
    (h : Reachable table (fun _ => True) c) (hthread : thread ≠ 0)
    (hcall : (c.traffic.calls thread).returned = none)
    (halone : Traffic.Alone memory thread (c.traffic.table, c.traffic.calls thread) after) :
    ∃ c', Reachable table (fun _ => True) c' ∧
      c'.traffic = c.traffic.advance thread after.1 after.2 ∧
      c'.loans = (c.advanced thread c'.traffic).loans := by
  induction halone with
  | refl => exact ⟨c, h, (Traffic.advance_calls ..).symm, by rw [advanced, hcall]⟩
  | @tail middle last _ hstride ih =>
      obtain ⟨c', hreach, htraffic, hloans⟩ := ih
      rw [htraffic, advanced, Traffic.calls_advance_self, hstride.returned_eq_none] at hloans
      have hstep : c'.traffic.step memory thread =
          some (c.traffic.advance thread last.1 last.2) := by
        rw [htraffic]
        exact (hstride _ (Traffic.calls_advance_self ..)).trans
          (congrArg some (Traffic.advance_advance ..))
      have hperform : c'.perform thread (.step memory) =
          some (c'.advanced thread (c.traffic.advance thread last.1 last.2)) := by
        rw [Custody.perform, if_neg hthread]
        exact Option.map_eq_some_iff.mpr ⟨_, hstep, rfl⟩
      exact ⟨_, hreach.perform thread (.step memory) hperform trivial, rfl,
        by rw [advanced, advanced, hloans]⟩

/-- What a table has come to, and the handles that threads have, while no call is under way. -/
def Settles (table t : Table) (loans : ThreadId → List Loan) : Prop :=
  ∃ c, Reachable table (fun _ => True) c ∧ c.traffic.table = t ∧ c.loans = loans ∧
    ∀ thread, ∃ result, c.traffic.calls thread = .finished result

/-- The handles that threads have after one more was returned to a thread. -/
def lend (loans : ThreadId → List Loan) (thread : ThreadId) (t : Table) (handle : Handle) :
    ThreadId → List Loan :=
  update loans thread (⟨handle, handle.mode, t.keyOf handle, t.valueOf handle⟩ :: loans thread)

theorem settles_opened (table : Table) : Settles table table fun _ => [] :=
  ⟨_, .opened, rfl, rfl, fun _ => ⟨_, rfl⟩⟩

/-- A call is made, carried out and ended. -/
theorem Settles.perform (h : Settles table t loans) (hthread : thread ≠ 0) (deed : Deed)
    {rest : ThreadId → List Loan} {result : TableResult}
    (hdeed : ∀ c : Custody, c.traffic.table = t → c.loans = loans →
      c.perform thread deed = { c with loans := rest }.call thread call)
    (hcall : call.returned = none)
    (halone : Traffic.Alone memory thread (t, call) (t', .finished result)) :
    Settles table t'
      (match (TableCall.finished result).returned with
        | some handle => lend rest thread t' handle
        | none => rest) := by
  obtain ⟨c, hreach, rfl, hloans, hended⟩ := h
  obtain ⟨ended, hthreadEnded⟩ := hended thread
  have hstarted : { c with loans := rest }.call thread call =
      some ⟨c.traffic.start thread call, rest, c.freed⟩ := by
    simp only [Custody.call, hthreadEnded]
  have hbegun := hreach.perform thread deed ((hdeed c rfl hloans).trans hstarted) trivial
  rw [← c.traffic.calls_start_self thread call] at hcall halone
  obtain ⟨c', hdone, htraffic, hloans'⟩ := hbegun.exists_alone hthread hcall halone
  rw [htraffic, advanced, Traffic.calls_advance_self] at hloans'
  refine ⟨c', hdone, by rw [htraffic]; rfl, hloans', fun other => ?_⟩
  rw [htraffic]
  by_cases hother : other = thread
  · subst hother
    exact ⟨result, Traffic.calls_advance_self ..⟩
  · obtain ⟨kept, hkept⟩ := hended other
    rw [Traffic.calls_advance_of_ne _ _ _ hother]
    exact ⟨kept, (if_neg hother).trans hkept⟩

theorem Settles.get {key : Bytes} {mode : LockMode} (h : Settles table t loans)
    (hthread : thread ≠ 0) (hget : t.get thread key mode = some (.ok handle, t')) :
    Settles table t' (lend loans thread t' handle) := by
  have halone : Traffic.Alone unlimited thread (t, .get key mode) _ := Traffic.alone_get hget
  refine h.perform hthread (.get key mode) (fun c _ hloans => ?_) rfl halone
  rw [← hloans]
  exact if_neg hthread

theorem Settles.set {key value : Bytes} {mode : LockMode} (h : Settles table t loans)
    (hthread : thread ≠ 0) (hset : t.set memory thread key value mode = some (.ok handle, t')) :
    Settles table t' (lend loans thread t' handle) := by
  refine h.perform hthread (.set key value mode) (fun c _ hloans => ?_) rfl (Traffic.alone_set hset)
  rw [← hloans]
  exact if_neg hthread

theorem Settles.giveBack {loan : Loan} (h : Settles table t loans) (hthread : thread ≠ 0)
    (hloan : loan ∈ loans thread) :
    Settles table (t.release thread loan.handle).2
      (update loans thread ((loans thread).erase loan)) := by
  have halone : Traffic.Alone unlimited thread (t, .release loan.handle) _ :=
    Traffic.alone_release t loan.handle
  refine h.perform hthread (.giveBack loan) (fun c _ hloans => ?_) rfl halone
  rw [← hloans] at hloan ⊢
  exact (if_neg hthread).trans (if_pos hloan)

end Custody

end KeyValueServer
