import KeyValueServer.Connection.EventRing
import KeyValueServer.Error

/-!
# Waiting for events

Workers with nothing to do wait here. The first one in is elected to poll the operating system;
the others sleep until they are woken. The poller queues the batch it got in a ring that all
workers share, wakes as many sleepers as there are new events, and gives its office up when it
leaves. A worker that is woken before it sleeps finds its wake-up call when it does.
-/

namespace KeyValueServer

/-- The shared queue of events, the largest batch, the number of workers, the number of polls
completed, and who waits: the workers in the order in which they came, the one elected to poll,
and those with a wake-up call. -/
structure Waiter where
  queue : EventRing
  batchLimit : Nat
  workers : Nat
  rounds : Nat
  parked : List Nat
  elected : Option Nat
  called : List Nat

namespace Waiter

/-- A waiter without anyone waiting. A batch of events has to fit the queue. -/
def new (queueCapacity batchLimit workers : Nat) : Except Error Waiter :=
  if batchLimit = 0 ∨ queueCapacity ≤ batchLimit then
    .error (.invalidArgument .batchNotBelowQueue)
  else match EventRing.new? queueCapacity with
    | none => .error (.invalidArgument .batchNotBelowQueue)
    | some queue => .ok ⟨queue, batchLimit, workers, 0, [], none, []⟩

/-- The numbers of the workers. -/
def members (w : Waiter) : List Nat := List.range w.workers

/-- Let a worker in. It is elected if nobody else is. -/
def park (w : Waiter) (worker : Nat) : Waiter :=
  { w with parked := w.parked ++ [worker], elected := w.elected.or (some worker) }

/-- Let a worker out, of its office too if it was elected. -/
def leave (w : Waiter) (worker : Nat) : Waiter :=
  { w with
    parked := w.parked.filter (· != worker)
    elected := if w.elected = some worker then none else w.elected }

/-- Note that a poll was completed. -/
def countRound (w : Waiter) : Waiter := { w with rounds := w.rounds + 1 }

/-- Queue a whole batch of events, if there is room for it. -/
def enqueue? (w : Waiter) (batch : List Event) : Option Waiter :=
  (w.queue.extend? batch).map fun queue => { w with queue }

/-- Take the oldest event of the queue. -/
def dequeue? (w : Waiter) : Option (Event × Waiter) :=
  w.queue.pop?.map fun (event, queue) => (event, { w with queue })

/-- Call up to `count` waiting workers, those first that came first. A worker that was called
before keeps its one call, but counts. -/
def wake (w : Waiter) (poller count : Nat) : Waiter :=
  let others := (w.parked.filter (· != poller)).take count
  { w with called := others.foldl (fun called worker => called.insert worker) w.called }

/-- Take the wake-up call of a worker, if there is one. -/
def answerCall? (w : Waiter) (worker : Nat) : Option Waiter :=
  if worker ∈ w.called then some { w with called := w.called.filter (· != worker) } else none

end Waiter

end KeyValueServer
