import KeyValueServer.Proofs.Store.Refinement
import KeyValueServer.Proofs.Traffic.Progress

/-!
# Linearizability of a table

However the steps of the threads interleave, and whatever the hash, all results agree with one order
of the requests on a plain map. A value is never seen half written, and each key has at most one
entry. The size may lag behind the chains while a value is being stored, but not longer.
-/

namespace KeyValueServer

namespace Workload

/-- No thread is in the middle of a call that is to give it a handle. Threads may be reading what
their handles show, or releasing them. -/
def Calm (w : Workload) : Prop :=
  ∀ thread job, w.jobs thread = some job → job.stage = .calling →
    ∃ ended, w.traffic.calls thread = .finished ended

/-- What holds at every moment of a workload on a table. -/
structure Faithful (w : Workload) : Prop where
  /-- The requests can be put into one order that explains all results and keeps to real time. -/
  linearizable : ∃ order, Linearizes w.history order
  /-- The requests under way can all return, without any new ones being made. -/
  returns : ∃ (threads : List ThreadId) (w' : Workload),
    w.run (threads.map .step) = some w' ∧ ∀ thread, w'.jobs thread = none
  /-- A request for a value has shown that there is none, or the very bytes that one request stored.
  -/
  whole : ∀ {name thread key result}, w.history[name]? = some (.called thread (.get key)) →
    .returned name result ∈ w.history →
    result = .error .notFound ∨ ∃ value, result = .ok value ∧
      ∃ writer, .called writer (.set key value) ∈ w.history
  /-- Nowhere in the table there is a second entry for a key, -/
  unique : ∀ {place place' id id'}, id ∈ (w.traffic.table.slot place).chain →
    id' ∈ (w.traffic.table.slot place').chain →
    w.traffic.table.keyAt id = w.traffic.table.keyAt id' → place = place' ∧ id = id'
  /-- nor the same entry twice. -/
  nodup : ∀ place, (w.traffic.table.slot place).chain.Nodup
  /-- An entry that is being written over is in the chain of its key. -/
  linked : ∀ {thread slotMode id deposit progress},
    w.traffic.calls thread = .overwriting slotMode id deposit progress →
    id ∈ (w.traffic.table.slot (w.traffic.table.placeOf deposit.key)).chain
  /-- Between the calls the size is the number of the keys for which values were stored. -/
  size : w.Calm →
    w.traffic.table.size = (w.history.filterMap TableEvent.storedKey).toFinset.card

end Workload

/-- Between the calls a thread changes no entry, and its request has taken effect. -/
theorem HasStake.calm {place : Bytes → Nat} {request : TableRequest} {stage : JobStage}
    {call : TableCall} {stake : Stake} {settled : Option (Except Error Bytes)}
    (h : HasStake place request stage call stake settled)
    (hcalm : stage = .calling → ∃ ended, call = .finished ended) :
    stake.role.revised = none ∧ stake.role.pending = none ∧ ∃ result, settled = some result := by
  cases h with
  | missed | held | measuring | reading | read | releasing | forgetting | released =>
      exact ⟨rfl, rfl, _, rfl⟩
  | _ =>
      obtain ⟨ended, hended⟩ := hcalm rfl
      contradiction

namespace Workload

variable {w : Workload} {order : List Outcome} {stakes : ThreadId → Stake} {counted : Finset Bytes}
  {thread : ThreadId}

namespace Explained

theorem linked (h : w.Explained order stakes counted) {slotMode : LockMode} {id : EntryId}
    {deposit : Deposit} {progress : Overwriting}
    (hcall : w.traffic.calls thread = .overwriting slotMode id deposit progress) :
    id ∈ (w.traffic.table.slot (w.traffic.table.placeOf deposit.key)).chain := by
  cases hjob : w.jobs thread with
  | none =>
      obtain ⟨-, ended, hended⟩ := h.idle thread hjob
      rw [hcall] at hended
      contradiction
  | some job =>
      obtain ⟨settled, hstake, -⟩ := (h.busy thread job hjob).stake
      have hstands := h.coherent.stands thread
      rw [hcall] at hstake
      generalize stakes thread = stake at hstake hstands
      generalize job.request = request at hstake
      generalize job.stage = stage at hstake
      have hentry : w.traffic.table.entryOf deposit.key = some id := by
        cases hstake with
        | locking | copying | sizing =>
            obtain ⟨-, -, hentry, -⟩ := hstands
            exact hentry
      exact (h.coherent.sound.entryOf_eq_some_iff.mp hentry).1

theorem calm (h : w.Explained order stakes counted) (hcalm : w.Calm) (thread : ThreadId) :
    (stakes thread).role.revised = none ∧ (stakes thread).role.pending = none := by
  cases hjob : w.jobs thread with
  | none =>
      rw [(h.idle thread hjob).1]
      exact ⟨rfl, rfl⟩
  | some job =>
      obtain ⟨settled, hstake, -⟩ := (h.busy thread job hjob).stake
      obtain ⟨hrevised, hpending, -⟩ := hstake.calm (hcalm thread job hjob)
      exact ⟨hrevised, hpending⟩

/-- Between the calls every request that was made has taken effect. -/
theorem exists_outcome (h : w.Explained order stakes counted) (hcalm : w.Calm) {name : Nat}
    {request : TableRequest} (hcalled : w.history[name]? = some (.called thread request)) :
    ∃ result, ⟨name, request, result⟩ ∈ order := by
  rcases h.answered name thread request hcalled with ⟨result, hreturned⟩ | ⟨job, hjob, rfl⟩
  · obtain ⟨called, hmem⟩ := h.linearizes.complete name result hreturned
    obtain rfl := h.linearizes.request_eq hmem hcalled
    exact ⟨result, hmem⟩
  · obtain ⟨settled, hstake, htook⟩ := (h.busy thread job hjob).stake
    obtain ⟨-, -, result, rfl⟩ := hstake.calm (hcalm thread job hjob)
    obtain rfl := h.linearizes.request_eq htook hcalled
    exact ⟨result, htook⟩

theorem size (h : w.Explained order stakes counted) (hcalm : w.Calm) :
    w.traffic.table.size = (w.history.filterMap TableEvent.storedKey).toFinset.card := by
  have hkeys : counted = (w.history.filterMap TableEvent.storedKey).toFinset := by
    ext key
    have hlookup : w.traffic.table.lookup key = replay order key :=
      h.coherent.shows key fun thread => by simp [(h.calm hcalm thread).1]
    have hsome : (w.traffic.table.entryOf key).isSome = (replay order key).isSome := by
      rw [← hlookup, Bool.eq_iff_iff, Option.isSome_iff_ne_none, Option.isSome_iff_ne_none, ne_eq,
        ne_eq, h.coherent.sound.lookup_eq_none_iff]
    rw [h.coherent.counts.settled key fun thread due => by simp [(h.calm hcalm thread).2],
      hsome, isSome_replay_iff, List.mem_toFinset, List.mem_filterMap]
    constructor
    · rintro ⟨outcome, hmem, hkey⟩
      obtain ⟨thread, hcalled⟩ := h.linearizes.called outcome hmem
      exact ⟨_, List.mem_of_getElem? hcalled, hkey⟩
    · rintro ⟨event, hmem, hkey⟩
      cases event with
      | returned => contradiction
      | called thread request =>
          obtain ⟨name, hcalled⟩ := List.getElem?_of_mem hmem
          obtain ⟨result, houtcome⟩ := h.exists_outcome hcalm hcalled
          exact ⟨_, houtcome, hkey⟩
  rw [h.coherent.counts.size, hkeys]

theorem faithful (h : w.Explained order stakes counted) : w.Faithful where
  linearizable := ⟨order, h.linearizes⟩
  returns := h.exists_return
  whole := h.linearizes.get_cases
  unique := h.coherent.sound.eq_of_keyAt
  nodup := h.coherent.sound.nodup
  linked := h.linked
  size := h.size

end Explained

/-- Threads make any requests of a new table, with any hash, and their steps interleave in any way.
-/
theorem faithful_of_run {memory : Allocator} {hash : Bytes → UInt64} {slotBits maxShards : Nat}
    {table : Table} (htable : Table.new memory hash slotBits maxShards = .ok table)
    {moves : List WorkloadMove} (hrun : (opened table).run moves = some w) : w.Faithful := by
  obtain ⟨order, stakes, counted, hexplained⟩ := (explained_opened htable).exists_run hrun
  exact hexplained.faithful

/-- Two threads with one key, in a table where all keys collide. Thread 2 holds the entry when
thread 1 comes to write over it, reads the value that was stored first, and returns while thread 1
waits. -/
theorem faithful_of_run_of_race :
    ∃ table moves w, Table.new unlimited (fun _ => 0) 1 1 = .ok table ∧
      (opened table).run moves = some w ∧
      w.history = [.called 1 (.set [7] [1]), .returned 0 (.ok [1]), .called 2 (.get [7]),
        .called 1 (.set [7] [2]), .returned 2 (.ok [1])] ∧
      w.traffic.calls 1 = .overwriting .shared 0 ⟨[7], [2], .exclusive⟩ .locking ∧ w.Faithful := by
  obtain ⟨table, htable⟩ : ∃ table, Table.new unlimited (fun _ => 0) 1 1 = .ok table := ⟨_, rfl⟩
  let moves : List WorkloadMove :=
    .call 1 (.set [7] [1]) :: List.replicate 18 (.step 1) ++
      .call 2 (.get [7]) :: List.replicate 3 (.step 2) ++
      .call 1 (.set [7] [2]) :: List.replicate 2 (.step 1) ++ List.replicate 9 (.step 2)
  have hmap : ((opened table).run moves).map (fun w => (w.history, w.traffic.calls 1)) = some
      ([.called 1 (.set [7] [1]), .returned 0 (.ok [1]), .called 2 (.get [7]),
        .called 1 (.set [7] [2]), .returned 2 (.ok [1])],
        .overwriting .shared 0 ⟨[7], [2], .exclusive⟩ .locking) := by
    obtain rfl := Except.ok.inj htable
    rfl
  obtain ⟨w, hrun, hw⟩ := Option.map_eq_some_iff.mp hmap
  obtain ⟨hhistory, hcall⟩ := Prod.mk.inj hw
  exact ⟨table, moves, w, htable, hrun, hhistory, hcall, faithful_of_run htable hrun⟩

end Workload

end KeyValueServer
