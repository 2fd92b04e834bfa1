import KeyValueServer.Server.Answer
import KeyValueServer.Stream.Peer

/-!
# Serving what was read

The requests that arrived in one read are answered one after the other. What follows a request
that could not be carried out is dropped; a connection that fails is given up. A connection is
read until nothing more has arrived; a request never spans two reads.
-/

namespace KeyValueServer.Server

/-- A run of requests that was answered: the failure of the connection, if it failed, and what
is left of table and connection. -/
structure Served where
  failure : Option Error
  table : Table
  sink : Sink

set_option linter.unusedVariables false in
/-- Answer all requests in a buffer. -/
def serveBuffer (worker : Worker) (table : Table) (frame : Buffer) (sink : Sink) :
    Option Served :=
  if frame.isEmpty then some ⟨none, table, sink⟩
  else match hd : dispatch worker table frame sink with
    | none => none
    | some d =>
        match hr : d.result with
        | .ok () => serveBuffer worker d.table d.rest d.sink
        | .error e => some ⟨if e.isFatal then some e else none, d.table, d.sink⟩
termination_by frame.size
decreasing_by exact size_rest_dispatch_lt hd hr

/-- Answer the requests that arrived in one read. -/
def serveChunk (worker : Worker) (table : Table) (chunk : Bytes) (sink : Sink) : Option Served :=
  serveBuffer worker table (Buffer.ofBytes chunk) sink

/-- How one read of a connection went: there may be more to read, nothing more has arrived yet,
the client has ended its side, or the connection has failed. -/
inductive ReadOutcome where
  | more
  | drained
  | ended
  | failed (e : Error)

/-- A connection that was read, and the table after its requests were answered. -/
structure Turn where
  outcome : ReadOutcome
  table : Table
  peer : Peer

/-- Read a connection once and answer the requests that the read returned. -/
def serveOnce (worker : Worker) (table : Table) (peer : Peer) : Option Turn :=
  match peer.source.read maxMessage with
  | (.error fault, source) =>
      let outcome :=
        if fault.isInterrupted then .more
        else if fault.isWouldBlock then .drained
        else .failed (.io fault)
      some ⟨outcome, table, { peer with source }⟩
  | (.ok bytes, source) =>
      if bytes = [] then some ⟨.ended, table, { peer with source }⟩
      else (serveChunk worker table bytes peer.sink).map fun served =>
        ⟨match served.failure with
          | none => .more
          | some e => .failed e,
          served.table, { peer with source, sink := served.sink }⟩

/-- A read after which there may be more used some of the reading up. -/
theorem weight_serveOnce {worker : Worker} {table : Table} {peer : Peer} {turn : Turn}
    (h : serveOnce worker table peer = some turn) (hmore : turn.outcome = .more) :
    turn.peer.source.weight < peer.source.weight := by
  unfold serveOnce at h
  split at h
  · next fault source hread =>
      simp only [Option.some.injEq] at h
      subst h
      dsimp only at hmore ⊢
      split at hmore
      · next hf => exact Source.weight_read_of_interrupted hread hf
      · split at hmore <;> contradiction
  · next bytes source hread =>
      split at h
      · simp only [Option.some.injEq] at h; subst h; contradiction
      · next hne =>
          rw [Option.map_eq_some_iff] at h
          obtain ⟨served, -, rfl⟩ := h
          exact Source.weight_read_of_ne_nil hread hne

set_option linter.unusedVariables false in
/-- Read a connection and answer its requests until there is nothing more to read. -/
def serve (worker : Worker) (table : Table) (peer : Peer) : Option Turn :=
  match h : serveOnce worker table peer with
  | none => none
  | some turn =>
      match hmore : turn.outcome with
      | .more => serve worker turn.table turn.peer
      | _ => some turn
termination_by peer.source.weight
decreasing_by exact weight_serveOnce h hmore

end KeyValueServer.Server
