import KeyValueServer.Stream.Sink
import KeyValueServer.Stream.Source
import KeyValueServer.Wire.Request

/-!
# Exchanges

The client's side of one request. The request is sent whole; then the answer is collected in
a buffer of the usual size and read anew after every arrival, until it is complete, the buffer
is full, or the connection ends.
-/

namespace KeyValueServer.Client

/-- What is known about an answer of which these bytes have arrived: its final reading, or
nothing yet while the rest of it may still come. -/
def judge (request : Request) (arrived : Buffer) : Option (Except Error (Option Bytes)) :=
  if arrived.peek 0 = some failureMarker then
    some (.error (.unknownCommand request.code.number))
  else match readAnswer request.wantsValue (Buffer.ofBytes arrived.readable) with
    | .error (.invalidArgument fault) =>
        if arrived.free = 0 then some (.error (.invalidArgument fault)) else none
    | result => some result

set_option linter.unusedVariables false in
/-- Collect an answer of which some bytes have arrived. -/
def await (request : Request) (arrived : Buffer) (source : Source) :
    Except Error (Option Bytes) × Source :=
  match h : source.read arrived.free with
  | (.error fault, rest) =>
      if hf : fault.isInterrupted then await request arrived rest
      else (.error (.io fault), rest)
  | (.ok bytes, rest) =>
      if hne : bytes = [] then (.error .connectionClosed, rest)
      else
        let arrived := arrived.fill bytes
        match judge request arrived with
        | some result => (result, rest)
        | none => await request arrived rest
termination_by source.weight
decreasing_by
  · exact Source.weight_read_of_interrupted h hf
  · exact Source.weight_read_of_ne_nil h hne

/-- How an exchange ended, and what it left of the connection. -/
structure Outcome where
  result : Except Error (Option Bytes)
  sink : Sink
  source : Source

/-- Carry out a request over a connection. One that does not fit a message is not sent. -/
def exchange (request : Request) (sink : Sink) (source : Source) : Outcome :=
  match request.encode with
  | .error e => ⟨.error e, sink, source⟩
  | .ok message =>
      match sink.send message.readable with
      | (.error e, sink) => ⟨.error e, sink, source⟩
      | (.ok (), sink) =>
          let (result, source) := await request (Buffer.ofCapacity maxMessage) source
          ⟨result, sink, source⟩

end KeyValueServer.Client
