import KeyValueServer.Proofs.Custody.Errands
import KeyValueServer.Proofs.Traffic.Progress
import Mathlib.Logic.Relation

/-!
# Threads do not wait in a circle

Threads take locks in one order, slots before entries: a thread waits for a slot only while it holds
nothing, and for an entry only while it holds nothing but a slot. So whoever holds the lock that a
thread waits for either can go on or waits for a lock that comes later in the order, and there are
only two sorts of locks. While there are errands left some thread can go on with its own.
-/

namespace KeyValueServer

open Relation (TransGen)

/-- A lock of a table. -/
inductive LockName where
  | slot (place : Nat)
  | entry (id : EntryId)
deriving DecidableEq

/-- Where a lock stands in the order in which threads take locks. -/
def LockName.rank : LockName → ℕ
  | slot _ => 0
  | entry _ => 1

theorem LockName.rank_le (lock : LockName) : lock.rank ≤ 1 := by
  cases lock with
  | slot => exact Nat.zero_le 1
  | entry => exact le_rfl

/-- Take a hold, if that is possible right now. -/
def Table.enter (t : Table) (thread : ThreadId) (mode : LockMode) : LockName → Option Table
  | .slot place => t.enterSlot thread mode place
  | .entry id => t.enterEntry thread mode id

namespace TableCall

variable {call : TableCall} {place : Bytes → Nat} {mode : LockMode} {lock : LockName}

/-- The lock that a call takes with its next step. -/
def wants (place : Bytes → Nat) : TableCall → Option (LockName × LockMode)
  | .seeking key _ => some (.slot (place key), .shared)
  | .approaching d => some (.slot (place d.key), .shared)
  | .claiming d => some (.slot (place d.key), .exclusive)
  | .taking _ id mode => some (.entry id, mode)
  | .overwriting _ id _ .locking => some (.entry id, .exclusive)
  | .overwriting _ id _ .relocking => some (.entry id, .shared)
  | _ => none

/-- Every call that takes a lock takes it with nothing in its hands that comes later in the order.
-/
theorem footprint_of_wants (h : call.wants place = some (lock, mode)) :
    match lock with
    | .slot _ => call.footprint place = .idle
    | .entry id => (call.footprint place).entry = none ∧
        ∃ handle, (call.footprint place).refers = some handle ∧ handle.id = id := by
  cases call with
  | seeking | approaching | claiming =>
      obtain ⟨rfl, -⟩ := Prod.mk.inj (Option.some.inj h)
      rfl
  | taking _ id mode' =>
      obtain ⟨rfl, -⟩ := Prod.mk.inj (Option.some.inj h)
      exact ⟨rfl, _, rfl, rfl⟩
  | overwriting _ id d progress =>
      cases progress with
      | locking | relocking =>
          obtain ⟨rfl, -⟩ := Prod.mk.inj (Option.some.inj h)
          exact ⟨rfl, _, rfl, rfl⟩
      | _ => contradiction
  | _ => contradiction

theorem not_isQuiet_of_wants (h : call.wants place = some (lock, mode)) : call.isQuiet = false := by
  cases call with
  | finished | measuring | reading => contradiction
  | _ => rfl

theorem pending_of_wants (h : call.wants place = some (lock, mode)) :
    call.pending place = call.footprint place := by
  cases call with
  | finished => contradiction
  | _ => rfl

end TableCall

namespace Traffic

variable {memory : Allocator} {s : Traffic} {thread : ThreadId}

theorem overwriteStep_eq_none_iff {slotMode : LockMode} {id : EntryId} {d : Deposit}
    {progress : Overwriting} :
    s.overwriteStep thread slotMode id d progress = none ↔
      ∃ lock mode, (TableCall.overwriting slotMode id d progress).wants s.table.placeOf =
        some (lock, mode) ∧ s.table.enter thread mode lock = none := by
  cases progress with
  | locking | relocking => simp [overwriteStep, TableCall.wants, Table.enter]
  | copying | sizing | loosening =>
      refine iff_of_false ?_ (by simp [TableCall.wants])
      rw [overwriteStep]
      split <;> exact Option.some_ne_none _

/-- A thread with a call under way has no step just when it is refused the lock that it wants. -/
theorem step_eq_none_iff :
    s.step memory thread = none ↔ (∃ result, s.calls thread = .finished result) ∨
      ∃ lock mode, (s.calls thread).wants s.table.placeOf = some (lock, mode) ∧
        s.table.enter thread mode lock = none := by
  unfold step
  generalize s.calls thread = call
  cases call with
  | finished result => simp
  | overwriting => simp [overwriteStep_eq_none_iff]
  | seeking | approaching | claiming | taking => simp [TableCall.wants, Table.enter]
  | withdrawing | discounting | retiring | linking | counting | publishing | parting | measuring
  | releasing | forgetting => exact iff_of_false (Option.some_ne_none _) (by simp [TableCall.wants])
  | searching | probing | making | weighing | reclaiming | judging | reading =>
      refine iff_of_false ?_ (by simp [TableCall.wants])
      dsimp only
      split <;> exact Option.some_ne_none _
  | inspecting =>
      refine iff_of_false ?_ (by simp [TableCall.wants])
      dsimp only
      split
      · exact Option.some_ne_none _
      · split <;> exact Option.some_ne_none _

end Traffic

/-! ## Who waits for whom -/

namespace Custody

variable {c : Custody} {thread other : ThreadId} {lock held : LockName} {mode : LockMode}
  {slots : Nat → List Hold} {holds refs : EntryId → List Hold}

/-- A thread holds a lock, by its call or by a handle. -/
def Has (c : Custody) (thread : ThreadId) : LockName → Prop
  | .slot place => ∃ mode, (c.foots thread).slot = some (place, mode)
  | .entry id => ∃ mode, ⟨id, mode⟩ ∈ (c.foots thread).holding (handlesOf c.loans thread)

/-- A thread wants a lock with its next step, and cannot have it right now. -/
def Refused (c : Custody) (thread : ThreadId) (lock : LockName) : Prop :=
  ∃ mode, (c.traffic.calls thread).wants c.traffic.table.placeOf = some (lock, mode) ∧
    c.traffic.table.enter thread mode lock = none

/-- There is no lock refused that nobody holds. -/
theorem Keeps.exists_has (h : c.Keeps slots holds refs) (hrefused : c.Refused thread lock) :
    ∃ other, c.Has other lock := by
  obtain ⟨mode, hwants, hnone⟩ := hrefused
  cases lock with
  | slot place =>
      have hheld : slots place ≠ [] := by
        intro hfree
        obtain ⟨t, henter⟩ := h.locked.shows.exists_enterSlot place hfree thread mode
        rw [Table.enter, henter] at hnone
        contradiction
      exact h.locked.slots.exists_of_ne_nil hheld
  | entry id =>
      obtain ⟨-, handle, hrefers, rfl⟩ := TableCall.footprint_of_wants hwants
      rw [← TableCall.pending_of_wants hwants] at hrefers
      have hid : handle.id < c.traffic.table.entries.size :=
        h.referred.id_lt (List.mem_append_left _ (Option.mem_toList.mpr hrefers))
      have hheld : holds handle.id ≠ [] := by
        intro hfree
        obtain ⟨t, henter⟩ := h.locked.shows.exists_enterEntry hid hfree thread mode
        rw [Table.enter, henter] at hnone
        contradiction
      obtain ⟨⟨other, mode'⟩, hmem⟩ := List.exists_mem_of_ne_nil _ hheld
      exact ⟨other, mode', h.locked.holds.mem_iff.mp hmem⟩

end Custody

namespace Errands

variable {e e' : Errands} {table : Table} {todo : ThreadId → List Errand} {thread other : ThreadId}
  {memory : Allocator} {lock held : LockName} {slots : Nat → List Hold}
  {holds refs : EntryId → List Hold}

/-- A thread is refused a lock that another one holds. -/
def Waits (e : Errands) (thread other : ThreadId) : Prop :=
  ∃ lock, e.custody.Refused thread lock ∧ e.custody.Has other lock

/-- The locks that a thread holds come before the one that it wants. -/
theorem Modest.rank_lt (hm : e.Modest) (hrefused : e.custody.Refused thread lock)
    (hhas : e.custody.Has thread held) : held.rank < lock.rank := by
  obtain ⟨mode, hwants, -⟩ := hrefused
  have hloans : e.custody.loans thread = [] := by
    rcases hm.single thread with hnone | ⟨-, hquiet⟩
    · exact hnone
    · rw [TableCall.not_isQuiet_of_wants hwants] at hquiet
      contradiction
  have hfoot := TableCall.footprint_of_wants hwants
  rw [← TableCall.pending_of_wants hwants] at hfoot
  have hfree : (e.custody.foots thread).entry = none := by
    cases lock with
    | slot => exact congrArg Footprint.entry hfoot
    | entry => exact hfoot.1
  cases held with
  | entry id =>
      obtain ⟨mode', hmem⟩ := hhas
      rw [Footprint.holding, hfree, handlesOf, hloans] at hmem
      contradiction
  | slot place =>
      cases lock with
      | entry => exact Nat.zero_lt_one
      | slot =>
          obtain ⟨mode', hslot⟩ := hhas
          rw [Custody.foots, hfoot] at hslot
          contradiction

/-- Along a chain of threads that wait for each other the locks come later and later in the order.
-/
theorem Modest.exists_has_of_chain (hm : e.Modest) (hchain : TransGen e.Waits thread other) :
    ∃ lock held, e.custody.Refused thread lock ∧ e.custody.Has other held ∧
      lock.rank ≤ held.rank := by
  induction hchain with
  | single hwaits =>
      obtain ⟨lock, hrefused, hhas⟩ := hwaits
      exact ⟨lock, lock, hrefused, hhas, le_rfl⟩
  | tail _ hwaits ih =>
      obtain ⟨lock, held, hrefused, hhas, hle⟩ := ih
      obtain ⟨next, hrefused', hhas'⟩ := hwaits
      exact ⟨lock, next, hrefused, hhas', hle.trans (hm.rank_lt hrefused' hhas).le⟩

theorem Modest.not_chain_self (hm : e.Modest) (thread : ThreadId) :
    ¬TransGen e.Waits thread thread := by
  intro hcircle
  obtain ⟨lock, held, hrefused, hhas, hle⟩ := hm.exists_has_of_chain hcircle
  exact (hm.rank_lt hrefused hhas).not_ge hle

end Errands

/-! ## Some thread can go on -/

theorem Custody.exists_call {c : Custody} {thread : ThreadId} {result : TableResult}
    (hended : c.traffic.calls thread = .finished result) (call : TableCall) :
    ∃ c', c.call thread call = some c' := by
  rw [Custody.call, hended]
  exact ⟨_, rfl⟩

theorem Errand.exists_perform {errand : Errand} {deed : Deed} {c : Custody} {thread : ThreadId}
    {result : TableResult} (hdeed : errand.deed = some deed) (hthread : thread ≠ 0)
    (hended : c.traffic.calls thread = .finished result) :
    ∃ c', c.perform thread deed = some c' := by
  unfold Custody.perform
  rw [if_neg hthread]
  cases errand with
  | get | set =>
      obtain rfl := Option.some.inj hdeed
      exact c.exists_call hended _
  | dispatch frame =>
      obtain ⟨request, -, rfl⟩ := Option.map_eq_some_iff.mp hdeed
      cases request with
      | get | set => exact c.exists_call hended _

namespace Errands

variable {e e' : Errands} {table : Table} {todo : ThreadId → List Errand} {thread other : ThreadId}
  {memory : Allocator} {lock held : LockName} {slots : Nat → List Hold}
  {holds refs : EntryId → List Hold} {result : TableResult}

theorem exists_next (hthread : thread ≠ 0)
    (hended : e.custody.traffic.calls thread = .finished result)
    (hloans : e.custody.loans thread = []) (htodo : e.todo thread ≠ []) :
    ∃ e', e.perform memory thread .next = some e' := by
  obtain ⟨errand, rest, hcons⟩ := List.exists_cons_of_ne_nil htodo
  rw [Errands.perform, begun, hended, hloans, hcons]
  dsimp only
  cases hdeed : errand.deed with
  | none => exact ⟨_, rfl⟩
  | some deed =>
      obtain ⟨c, hperform⟩ := errand.exists_perform hdeed hthread hended
      dsimp only
      rw [hperform]
      exact ⟨_, rfl⟩

theorem exists_giveBack (hthread : thread ≠ 0)
    (hended : e.custody.traffic.calls thread = .finished result)
    (hloans : e.custody.loans thread ≠ []) :
    ∃ e', e.perform memory thread .giveBack = some e' := by
  obtain ⟨loan, rest, hcons⟩ := List.exists_cons_of_ne_nil hloans
  have hloan : loan ∈ e.custody.loans thread := by
    rw [hcons]
    exact List.mem_cons_self
  obtain ⟨c, hcall⟩ := Custody.exists_call (c := { e.custody with
    loans := Function.update e.custody.loans thread ((e.custody.loans thread).erase loan) })
    hended (.release loan.handle)
  have hperform : e.custody.perform thread (.giveBack loan) = some c := by
    rw [Custody.perform, if_neg hthread, if_pos hloan, hcall]
  rw [Errands.perform, hcons, List.head?_cons]
  simp [hperform]

/-- A thread that is not done goes on, unless it is refused a lock. -/
theorem Modest.go_or_wait (hm : e.Modest) (hbusy : ¬e.Done thread) (memory : Allocator) :
    (∃ move e', e.perform memory thread move = some e') ∨
      ∃ lock, e.custody.Refused thread lock := by
  have hthread : thread ≠ 0 := by
    rintro rfl
    exact hbusy hm.zero
  cases hstep : e.custody.traffic.step memory thread with
  | some s =>
      refine .inl ⟨.step, { e with custody := e.custody.advanced thread s }, ?_⟩
      rw [Errands.perform, Custody.perform, if_neg hthread, hstep]
      rfl
  | none =>
      rcases Traffic.step_eq_none_iff.mp hstep with ⟨result, hended⟩ | ⟨lock, hrefused⟩
      · by_cases hloans : e.custody.loans thread = []
        · have htodo : e.todo thread ≠ [] := fun hnone => hbusy ⟨⟨result, hended⟩, hloans, hnone⟩
          exact .inl ⟨.next, exists_next hthread hended hloans htodo⟩
        · exact .inl ⟨.giveBack, exists_giveBack hthread hended hloans⟩
      · exact .inr ⟨lock, hrefused⟩

theorem not_done_of_has (hhas : e.custody.Has thread held) : ¬e.Done thread := by
  rintro ⟨⟨result, hended⟩, hloans, -⟩
  have hfoot : e.custody.foots thread = .idle := by
    rw [Custody.foots, hended, TableCall.pending]
  cases held with
  | slot place =>
      obtain ⟨mode, hslot⟩ := hhas
      rw [hfoot] at hslot
      contradiction
  | entry id =>
      obtain ⟨mode, hmem⟩ := hhas
      rw [hfoot, handlesOf, hloans] at hmem
      contradiction

/-- Behind a lock that is held there is a thread that can go on. -/
theorem Modest.exists_perform_of_has (hm : e.Modest) (h : e.custody.Keeps slots holds refs)
    (hhas : e.custody.Has thread held) (memory : Allocator) :
    ∃ other move e', e.perform memory other move = some e' := by
  -- By induction on how many locks come later in the order than the one that is held.
  induction hrank : 1 - held.rank using Nat.strong_induction_on generalizing thread held with
  | _ rank ih =>
      rcases hm.go_or_wait (not_done_of_has hhas) memory with hgoes | ⟨lock, hrefused⟩
      · exact ⟨thread, hgoes⟩
      · obtain ⟨other, hother⟩ := h.exists_has hrefused
        have hlt := hm.rank_lt hrefused hhas
        have hle := lock.rank_le
        exact ih (1 - lock.rank) (by omega) hother rfl

/-- While a thread is not done there is one that can go on. -/
theorem Modest.exists_perform (hm : e.Modest) (h : e.custody.Keeps slots holds refs)
    (hbusy : ¬e.Done thread) (memory : Allocator) :
    ∃ other move e', e.perform memory other move = some e' := by
  rcases hm.go_or_wait hbusy memory with hgoes | ⟨lock, hrefused⟩
  · exact ⟨thread, hgoes⟩
  · obtain ⟨other, hother⟩ := h.exists_has hrefused
    exact hm.exists_perform_of_has h hother memory

/-! ## No deadlock -/

/-- Threads never bring each other to a standstill. -/
structure IsFluent (e : Errands) : Prop where
  /-- While a thread is not done some thread can go on, whatever memory there is. -/
  goesOn : ∀ thread, ¬e.Done thread → ∀ memory,
    ∃ other move e', e.perform memory other move = some e'
  /-- A thread that is not done and cannot go on is refused a lock that another thread holds. -/
  waits : ∀ thread, ¬e.Done thread → ∀ memory, (∀ move, e.perform memory thread move = none) →
    ∃ other, other ≠ thread ∧ e.Waits thread other
  /-- Threads do not wait for each other in a circle. -/
  acyclic : ∀ thread, ¬TransGen e.Waits thread thread

theorem Modest.isFluent (hm : e.Modest) (h : e.custody.Keeps slots holds refs) : e.IsFluent where
  goesOn _ hbusy memory := hm.exists_perform h hbusy memory
  waits thread hbusy memory hstuck := by
    rcases hm.go_or_wait hbusy memory with ⟨move, e', hgoes⟩ | ⟨lock, hrefused⟩
    · rw [hstuck move] at hgoes
      contradiction
    · obtain ⟨other, hother⟩ := h.exists_has hrefused
      refine ⟨other, ?_, lock, hrefused, hother⟩
      rintro rfl
      exact (hm.rank_lt hrefused hother).ne rfl
  acyclic := hm.not_chain_self

/-- Whatever errands threads have on a table, and however their steps interleave, there is no
deadlock. An errand that answers a request comes to what answering the request comes to. -/
theorem Reachable.deadlock_free {hash : Bytes → UInt64} {slotBits maxShards : Nat}
    (hnew : Table.new memory hash slotBits maxShards = .ok table) (hzero : todo 0 = [])
    (hreach : Reachable table todo e) :
    e.IsFluent ∧ ∀ worker frame sink d,
      Server.dispatch worker e.custody.traffic.table frame sink = some d →
        (Errand.dispatch frame).ComesTo worker e.custody.traffic.table d.table := by
  obtain ⟨hm, slots, holds, refs, h⟩ := hreach.exists_keeps hnew hzero
  exact ⟨hm.isFluent h, fun _ _ _ _ => Errand.comesTo_dispatch⟩

theorem Reachable.run (he : Reachable table todo e) {moves : List (ThreadId × Move)}
    (hrun : e.run moves = some e') : Reachable table todo e' := by
  induction moves generalizing e with
  | nil =>
      obtain rfl := Option.some.inj hrun
      exact he
  | cons move rest ih =>
      rw [Errands.run, List.foldlM_cons] at hrun
      obtain ⟨next, hperform, hrest⟩ := Option.bind_eq_some_iff.mp hrun
      exact ih (he.perform unlimited move.1 move.2 hperform) hrest

/-- One thread writes over an entry, another one has come to it with a request and waits for it with
its hold on the slot, and a third one waits for the slot to put a new entry into it. -/
theorem deadlock_free_of_collision :
    ∃ table todo e, Table.new unlimited (fun _ => 0) 1 1 = .ok table ∧ todo 0 = [] ∧
      Reachable table todo e ∧ e.Waits 2 1 ∧ e.Waits 3 2 ∧ e.IsFluent := by
  obtain ⟨table, hnew⟩ := Table.new_unlimited (fun _ => 0) 1 1 (by decide) (by decide) (by decide)
  let todo (thread : ThreadId) : List Errand :=
    if thread = 1 then [.set [1] [7] .shared, .set [1] [8] .shared]
    else if thread = 2 then [.dispatch ⟨[], (Request.get [1]).frame, []⟩]
    else if thread = 3 then [.set [2] [9] .exclusive]
    else []
  let steps (thread : ThreadId) (n : Nat) : List (ThreadId × Move) :=
    List.replicate n (thread, .step)
  let moves : List (ThreadId × Move) :=
    (1, .next) :: steps 1 10 ++ (1, .giveBack) :: steps 1 2 ++ (1, .next) :: steps 1 3 ++
      (2, .next) :: steps 2 2 ++ (3, .next) :: steps 3 3
  have hafter : ((Errands.opened table todo).run moves).map (fun e =>
      ((e.custody.traffic.calls 2).wants e.custody.traffic.table.placeOf,
        (e.custody.traffic.table.enter 2 .shared (.entry 0)).isNone, (e.custody.foots 1).entry)) =
      some (some (.entry 0, .shared), true, some ⟨0, .exclusive⟩) := by
    rw [Table.eq_of_new hnew]
    decide +kernel
  have hafter' : ((Errands.opened table todo).run moves).map (fun e =>
      ((e.custody.traffic.calls 3).wants e.custody.traffic.table.placeOf,
        (e.custody.traffic.table.enter 3 .exclusive (.slot 0)).isNone, (e.custody.foots 2).slot)) =
      some (some (.slot 0, .exclusive), true, some (0, .shared)) := by
    rw [Table.eq_of_new hnew]
    decide +kernel
  obtain ⟨e, hrun, he⟩ := Option.map_eq_some_iff.mp hafter
  rw [hrun, Option.map_some, Option.some.injEq] at hafter'
  simp only [Prod.mk.injEq, Option.isNone_iff_eq_none] at he hafter'
  obtain ⟨hwants, hnone, hentry⟩ := he
  obtain ⟨hwants', hnone', hslot⟩ := hafter'
  have hreach : Reachable table todo e := Reachable.opened.run hrun
  have hheld : ⟨0, .exclusive⟩ ∈ (e.custody.foots 1).holding (handlesOf e.custody.loans 1) :=
    List.mem_append_left _ (Option.mem_toList.mpr hentry)
  exact ⟨table, todo, e, hnew, rfl, hreach, ⟨.entry 0, ⟨_, hwants, hnone⟩, _, hheld⟩,
    ⟨.slot 0, ⟨_, hwants', hnone'⟩, _, hslot⟩, (hreach.deadlock_free hnew rfl).1⟩

end Errands

end KeyValueServer
