import KeyValueServer.Store.Traffic
import Mathlib.Data.Finset.Card
import Mathlib.Logic.Function.Basic

/-!
# Workloads on a table

Threads make requests of one table, as many as they like and each one at a time. A thread that has
got a handle copies the value that the handle shows and then releases it; what it has copied is the
result of its request. The steps of all threads interleave in any order, and memory never runs out.

The history of a workload notes when each request was made and when it returned. It is linearizable
if its requests can be put into one order, in which a request that returned before another one was
made comes first, such that every result is what the request would yield on a plain map if the
requests were carried out in this order one by one.
-/

namespace KeyValueServer

open Function (update)

/-- What a thread asks a table for. A stored value is held exclusively, a found one is shared. -/
inductive TableRequest where
  | get (key : Bytes)
  | set (key value : Bytes)
deriving DecidableEq

namespace TableRequest

/-- The call on the table. -/
def call : TableRequest → TableCall
  | get key => .get key .shared
  | set key value => .set key value .exclusive

/-- The values stored after the request. -/
def apply (stored : Bytes → Option Bytes) : TableRequest → Bytes → Option Bytes
  | get _ => stored
  | set key value => update stored key (some value)

/-- The result of the request when these are the values stored. -/
def answer (stored : Bytes → Option Bytes) : TableRequest → Except Error Bytes
  | get key =>
      match stored key with
      | some value => .ok value
      | none => .error .notFound
  | set _ value => .ok value

/-- The key for which the request stores a value. -/
def storedKey : TableRequest → Option Bytes
  | get _ => none
  | set key _ => some key

end TableRequest

/-- An event in a history. A request is named by the place of its call in the history. -/
inductive TableEvent where
  | called (thread : ThreadId) (request : TableRequest)
  | returned (name : Nat) (result : Except Error Bytes)

namespace TableEvent

/-- The key for which a request stores a value, where the event is its call. -/
def storedKey : TableEvent → Option Bytes
  | called _ request => request.storedKey
  | returned _ _ => none

end TableEvent

/-- What a thread does about its request: it waits for a handle, copies the value, or releases the
handle after having copied a value. -/
inductive JobStage where
  | calling
  | reading (handle : Handle)
  | leaving (value : Bytes)

/-- A request under way. -/
structure Job where
  name : Nat
  request : TableRequest
  stage : JobStage

/-- The traffic on a table, the requests under way, and the history so far. -/
structure Workload where
  traffic : Traffic
  jobs : ThreadId → Option Job
  history : List TableEvent

/-- What can happen next: a thread makes a request or goes one step on. -/
inductive WorkloadMove where
  | call (thread : ThreadId) (request : TableRequest)
  | step (thread : ThreadId)

namespace Workload

/-- No thread has made a request yet. -/
def opened (table : Table) : Workload := ⟨.quiet table, fun _ => none, []⟩

/-- A thread makes a request. -/
def make (w : Workload) (thread : ThreadId) (request : TableRequest) : Workload :=
  ⟨w.traffic.start thread request.call,
    update w.jobs thread (some ⟨w.history.length, request, .calling⟩),
    w.history ++ [.called thread request]⟩

/-- A thread goes on to the next stage with the next call. -/
def resume (w : Workload) (thread : ThreadId) (job : Job) (stage : JobStage) (call : TableCall) :
    Workload :=
  { w with
    traffic := w.traffic.start thread call
    jobs := update w.jobs thread (some { job with stage }) }

/-- The request of a thread returns. -/
def conclude (w : Workload) (thread : ThreadId) (job : Job) (result : Except Error Bytes) :
    Workload :=
  { w with
    jobs := update w.jobs thread none
    history := w.history ++ [.returned job.name result] }

/-- What a thread does when a call has ended. -/
def proceed (w : Workload) (thread : ThreadId) (job : Job) :
    JobStage → TableResult → Option Workload
  | .calling, .handle (.ok handle) => some (w.resume thread job (.reading handle) (.read handle))
  | .calling, .handle (.error e) => some (w.conclude thread job (.error e))
  | .reading handle, .value bytes =>
      some (w.resume thread job (.leaving bytes) (.release handle))
  | .leaving value, .released result => some (w.conclude thread job (result.map fun _ => value))
  | _, _ => none

/-- The workload after a move, where the move is possible. Threads are named from one on. A thread
without a request under way has no step, and one that waits for a lock has none until it is free. -/
def perform (w : Workload) : WorkloadMove → Option Workload
  | .call thread request =>
      if thread ≠ 0 ∧ (w.jobs thread).isNone then some (w.make thread request) else none
  | .step thread => do
      let job ← w.jobs thread
      match w.traffic.calls thread with
      | .finished result => w.proceed thread job job.stage result
      | _ => (w.traffic.step unlimited thread).map fun traffic => { w with traffic }

/-- The workload after moves in this order. -/
def run (w : Workload) (moves : List WorkloadMove) : Option Workload := moves.foldlM perform w

end Workload

/-! ## Linearizability -/

/-- A request with its result, in the order of which the requests take effect. -/
structure Outcome where
  name : Nat
  request : TableRequest
  result : Except Error Bytes

/-- The values stored after requests in this order. -/
def replay (order : List Outcome) : Bytes → Option Bytes :=
  order.foldl (fun stored outcome => outcome.request.apply stored) fun _ => none

/-- Every result is what the request yields after those before it. -/
inductive IsSequential : List Outcome → Prop
  | nil : IsSequential []
  | snoc {order : List Outcome} (h : IsSequential order) (name : Nat) (request : TableRequest) :
      IsSequential (order ++ [⟨name, request, request.answer (replay order)⟩])

/-- A request returned before another one was made. -/
def Precedes (history : List TableEvent) (name later : Nat) : Prop :=
  ∃ result, .returned name result ∈ history.take later

/-- The requests take effect in this order. Some of them may not have returned yet. -/
structure Linearizes (history : List TableEvent) (order : List Outcome) : Prop where
  distinct : (order.map Outcome.name).Nodup
  called : ∀ outcome ∈ order, ∃ thread,
    history[outcome.name]? = some (.called thread outcome.request)
  complete : ∀ name result, .returned name result ∈ history →
    ∃ request, ⟨name, request, result⟩ ∈ order
  sequential : IsSequential order
  realTime : order.Pairwise fun earlier later => ¬Precedes history later.name earlier.name

end KeyValueServer
