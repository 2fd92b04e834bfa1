import KeyValueServer.Error

/-!
# Sending

The receiving end of a connection decides what becomes of each write: it accepts a part of the
bytes offered or it fails. Sending offers the bytes not yet accepted again and again until
none is left, repeating a write that was interrupted or that found no room, and gives up when
nothing is accepted or the connection fails.
-/

namespace KeyValueServer

/-- What becomes of one write call. -/
inductive WriteStep where
  | accepts (limit : Nat)
  | fails (fault : IoFault)
deriving DecidableEq

/-- The receiving end of a connection: what becomes of the next writes, the bytes accepted so
far, and what each write call offered, oldest first. After the listed steps every write is
accepted whole. -/
structure Sink where
  steps : List WriteStep
  accepted : Bytes
  offers : List Bytes

namespace Sink

/-- A receiving end with nothing received yet. -/
def ofSteps (steps : List WriteStep) : Sink := ⟨steps, [], []⟩

/-- A receiving end that accepts every write whole. -/
def accepting : Sink := ofSteps []

/-- Note a write call that offered `pending` and was accepted up to `count` bytes. -/
def record (sink : Sink) (pending : Bytes) (count : Nat) (steps : List WriteStep) : Sink :=
  ⟨steps, sink.accepted ++ pending.take count, sink.offers ++ [pending]⟩

/-- Send what is pending to a receiving end whose next writes go as `steps` says. -/
def sendSteps : List WriteStep → Bytes → Sink → Except Error Unit × Sink
  | steps, [], sink => (.ok (), { sink with steps })
  | [], pending, sink => (.ok (), sink.record pending pending.length [])
  | .accepts limit :: steps, pending, sink =>
      let sink := sink.record pending limit steps
      if limit = 0 then (.error .connectionClosed, sink)
      else sendSteps steps (pending.drop limit) sink
  | .fails fault :: steps, pending, sink =>
      let sink := sink.record pending 0 steps
      if fault.isInterrupted || fault.isWouldBlock then sendSteps steps pending sink
      else (.error (.io fault), sink)

/-- Send all of the bytes. -/
def send (sink : Sink) (bytes : Bytes) : Except Error Unit × Sink :=
  sendSteps sink.steps bytes sink

end Sink

end KeyValueServer
