import KeyValueServer.Server.Engine

/-!
# Workers taking turns

Several workers on one engine. Each of them claims and serves connections until the shared
queue is empty, and then waits: one polls, the others sleep. A step is what a worker does while
it holds one lock, or one read of a connection; the steps of other workers, and whatever happens
in the network, may come between any two of them.

Three kinds of locks last longer than a step and appear in the state. The shared queue is held
while its events are routed, and while a poller that has queued its batch wakes others. The
socket in a place is held while its stream is served.
-/

namespace KeyValueServer.Server

/-- What a worker does once it has given a place back. -/
inductive Resumption where
  | claiming
  | accepting (index : Nat)
deriving DecidableEq

/-- How far a worker has come. -/
inductive WorkerStage where
  -- claiming a connection, from the second stage on with the shared queue
  | claiming
  | routing
  | placing (event : Event)
  -- serving a connection
  | taking (index : Nat)
  | opening (index : Nat) (event : Event)
  | reading (index : Nat) (event : Event)
  -- taking in clients
  | accepting (index : Nat)
  | reserving (index : Nat) (stream : StreamId)
  | installing (index place : Nat) (stream : StreamId)
  | activating (index place : Nat)
  | registering (index place : Nat) (token : ConnectionToken)
  -- giving a place back
  | closing (index : Nat) (next : Resumption)
  | retiring (index : Nat) (next : Resumption)
  | recycling (index : Nat) (next : Resumption)
  -- waiting; from `waking` on with the shared queue
  | parking
  | polling
  | queueing (batch : List Event)
  | waking (count : Nat)
  | sleeping
  | leaving (continues : Bool)
  | exited

/-- How the operating system answers a poll. -/
inductive PollAnswer where
  | events (count : Nat)
  | interrupted
  | fails

/-- An engine and its workers: how far each has come, who holds the shared queue, and who holds
the socket of each place. -/
structure Workers where
  engine : Engine
  stages : Nat → WorkerStage
  queueHolder : Option Nat
  socketHolders : Nat → Option Nat

namespace Workers

/-- Workers that are about to begin. -/
def beginning (engine : Engine) : Workers := ⟨engine, fun _ => .claiming, none, fun _ => none⟩

/-- Take a worker on to another stage. -/
def goto (s : Workers) (worker : Nat) (stage : WorkerStage) : Workers :=
  { s with stages := fun w => if w = worker then stage else s.stages w }

/-- A step that changes the engine. -/
def advance (s : Workers) (worker : Nat) (engine : Engine) (stage : WorkerStage) : Workers :=
  { s with engine }.goto worker stage

/-- Say who holds the shared queue. -/
def holdQueue (s : Workers) (holder : Option Nat) : Workers := { s with queueHolder := holder }

/-- Say who holds the socket of a place. -/
def holdSocket (s : Workers) (index : Nat) (holder : Option Nat) : Workers :=
  { s with socketHolders := fun i => if i = index then holder else s.socketHolders i }

/-- Where a worker goes on after it has given a place back. -/
def resume : Resumption → WorkerStage
  | .claiming => .claiming
  | .accepting index => .accepting index

/-- Where a worker goes on with a connection that it has served one event of. -/
def afterServing (index : Nat) (event : Event) (isOpen : Bool) : WorkerStage :=
  if !isOpen || event.isHangup then .closing index .claiming else .taking index

/-- The step of a worker that takes the next event of its connection. -/
def takeStep (s : Workers) (worker index : Nat) : Workers :=
  match s.engine.takeEvent index with
  | (.drained, e) => s.advance worker e .claiming
  | (.misplaced phase, e) =>
      s.advance worker e (if phase = .free then .claiming else .closing index .claiming)
  | (.event _ .listener, e) => s.advance worker e (.accepting index)
  | (.event event .message, e) =>
      s.advance worker e
        (if event.readable then .opening index event else afterServing index event true)

/-- The step of a worker that reads the connection whose socket it holds. -/
def readStep (s : Workers) (worker index : Nat) (event : Event) : Option Workers :=
  (s.engine.readOnce (s.engine.workerOf worker) index).map fun (outcome, e) =>
    match outcome with
    | .more => s.advance worker e (.reading index event)
    | .drained => (s.advance worker e (afterServing index event true)).holdSocket index none
    | _ => (s.advance worker e (afterServing index event false)).holdSocket index none

/-- The step of a worker that calls the listening socket. -/
def acceptStep (s : Workers) (worker index : Nat) : Workers :=
  match s.engine.acceptOnce with
  | (.ok stream, e) => s.advance worker e (.reserving index stream)
  | (.error error, e) =>
      s.advance worker e (if Engine.isRepeated error then .accepting index else .taking index)

/-- The step of an elected worker, by the answer of the operating system. -/
def pollStep (s : Workers) (worker : Nat) : PollAnswer → Workers
  | .interrupted => s
  | .fails => s.goto worker (.leaving false)
  | .events count =>
      let (batch, network) := s.engine.network.poll (min count s.engine.waiter.batchLimit)
      let e := { s.engine with network, waiter := s.engine.waiter.countRound }
      s.advance worker e (if batch.isEmpty then .leaving true else .queueing batch)

/-- The next step of a worker, unless it has to wait or has exited. A worker that finds no room
for its batch tries again: its step changes nothing. -/
def step (s : Workers) (worker : Nat) (answer : PollAnswer) : Option Workers :=
  let e := s.engine
  match s.stages worker with
  | .claiming =>
      if s.queueHolder.isNone then some ((s.goto worker .routing).holdQueue (some worker)) else none
  | .routing =>
      match e.waiter.dequeue? with
      | none => some ((s.goto worker .parking).holdQueue none)
      | some (event, waiter) => some (s.advance worker { e with waiter } (.placing event))
  | .placing event =>
      match e.route event with
      | (none, e) => some (s.advance worker e .routing)
      | (some index, e) => some ((s.advance worker e (.taking index)).holdQueue none)
  | .taking index => some (s.takeStep worker index)
  | .opening index event =>
      if (s.socketHolders index).isNone then
        some ((s.goto worker (.reading index event)).holdSocket index (some worker))
      else none
  | .reading index event => s.readStep worker index event
  | .accepting index =>
      if (s.socketHolders Arena.listenerIndex).isNone then some (s.acceptStep worker index)
      else none
  | .reserving index stream =>
      match e.reserve stream with
      | (none, e) => some (s.advance worker e (.accepting index))
      | (some place, e) => some (s.advance worker e (.installing index place stream))
  | .installing index place stream =>
      if (s.socketHolders place).isNone then
        some (s.advance worker (e.place place stream) (.activating index place))
      else none
  | .activating index place =>
      match e.activate place with
      | (none, e) => some (s.advance worker e (.closing place (.accepting index)))
      | (some token, e) => some (s.advance worker e (.registering index place token))
  | .registering index place token =>
      if (s.socketHolders place).isNone then
        match e.register place token with
        | none => some (s.goto worker (.closing place (.accepting index)))
        | some e => some (s.advance worker e (.accepting index))
      else none
  | .closing index next =>
      if (s.socketHolders index).isNone then
        some (s.advance worker (e.closeSocket index) (.retiring index next))
      else none
  | .retiring index next => some (s.advance worker (e.retire index) (.recycling index next))
  | .recycling index next => some (s.advance worker (e.recycle index) (resume next))
  | .parking =>
      let waiter := e.waiter.park worker
      some (s.advance worker { e with waiter }
        (if e.waiter.elected.isNone then .polling else .sleeping))
  | .polling => some (s.pollStep worker answer)
  | .queueing batch =>
      if s.queueHolder.isNone then
        match e.waiter.enqueue? batch with
        | none => some s
        | some waiter =>
            some ((s.advance worker { e with waiter } (.waking batch.length)).holdQueue
              (some worker))
      else none
  | .waking count =>
      let waiter := e.waiter.wake worker count
      some ((s.advance worker { e with waiter } (.leaving true)).holdQueue none)
  | .sleeping =>
      (e.waiter.answerCall? worker).map fun waiter =>
        s.advance worker { e with waiter } (.leaving true)
  | .leaving continues =>
      let waiter := e.waiter.leave worker
      some (s.advance worker { e with waiter } (if continues then .claiming else .exited))
  | .exited => none

/-- Let something happen in the network. -/
def happen (s : Workers) (change : Network → Network) : Workers :=
  let network := change s.engine.network
  let engine := { s.engine with network }
  { s with engine }

end Workers

end KeyValueServer.Server
