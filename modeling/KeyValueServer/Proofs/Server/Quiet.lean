import KeyValueServer.Proofs.Server.Peers
import KeyValueServer.Proofs.Workers.Rounds

/-!
# Serving always ends

While nobody holds an entry of the table, no request has to wait, and after it was answered nobody
does again. A worker on its own therefore serves whatever has arrived at a connection.
-/

namespace KeyValueServer

/-- A table of whose entries nobody has a handle. -/
structure Table.Quiet (t : Table) : Prop where
  sound : t.Sound
  rest : t.AtRest fun _ => []

namespace Table

open Server

variable {t : Table}

theorem quiet_of_new {memory : Allocator} {hash : Bytes → UInt64} {slotBits maxShards : Nat}
    (h : new memory hash slotBits maxShards = .ok t) : t.Quiet :=
  ⟨sound_of_new h, atRest_of_new h⟩

namespace Quiet

theorem exists_dispatch (ht : t.Quiet) (worker : Worker) (frame : Buffer) (sink : Sink) :
    ∃ d, dispatch worker t frame sink = some d ∧ d.table.Quiet := by
  obtain ⟨a, ha⟩ := exists_answer ht.sound ht.rest worker frame
  obtain ⟨d, hd, -⟩ := exists_dispatch_of_answer ha sink
  refine ⟨d, hd, ?_⟩
  rcases dispatch_cases hd with hsame | ⟨r, t', hreturns, hsettled⟩
  · exact hsame ▸ ht
  · rw [hsettled]
    exact ⟨(ht.sound.returns hreturns).settled,
      (ht.rest.settled ht.sound hreturns room_of_nil).2⟩

theorem exists_serveBuffer (ht : t.Quiet) (worker : Worker) (frame : Buffer) (sink : Sink) :
    ∃ served, serveBuffer worker t frame sink = some served ∧ served.table.Quiet := by
  fun_induction Server.serveBuffer worker t frame sink with
  | case1 t frame sink => exact ⟨_, rfl, ht⟩
  | case2 t frame sink _ hnone =>
      obtain ⟨d, hd, -⟩ := ht.exists_dispatch worker frame sink
      rw [hnone] at hd
      contradiction
  | case3 t frame sink _ d hd _ ih =>
      obtain ⟨d', hd', hquiet⟩ := ht.exists_dispatch worker frame sink
      obtain rfl := Option.some.inj (hd.symm.trans hd')
      exact ih hquiet
  | case4 t frame sink _ d hd =>
      obtain ⟨d', hd', hquiet⟩ := ht.exists_dispatch worker frame sink
      obtain rfl := Option.some.inj (hd.symm.trans hd')
      exact ⟨_, rfl, hquiet⟩

theorem exists_serveOnce (ht : t.Quiet) (worker : Worker) (peer : Peer) :
    ∃ turn, serveOnce worker t peer = some turn ∧ turn.table.Quiet := by
  unfold Server.serveOnce
  split
  · exact ⟨_, rfl, ht⟩
  next bytes source hread =>
    split
    · exact ⟨_, rfl, ht⟩
    · obtain ⟨served, hserved, hquiet⟩ := ht.exists_serveBuffer worker (.ofBytes bytes) peer.sink
      rw [serveChunk, hserved, Option.map_some]
      exact ⟨_, rfl, hquiet⟩

/-- A connection is read until nothing more has arrived, and each request is answered. -/
theorem exists_serve (ht : t.Quiet) (worker : Worker) (peer : Peer) :
    ∃ turn, serve worker t peer = some turn ∧ turn.table.Quiet := by
  fun_induction Server.serve worker t peer with
  | case1 t peer hnone =>
      obtain ⟨turn, hturn, -⟩ := ht.exists_serveOnce worker peer
      rw [hnone] at hturn
      contradiction
  | case2 t peer turn hturn _ ih =>
      obtain ⟨turn', hturn', hquiet⟩ := ht.exists_serveOnce worker peer
      obtain rfl := Option.some.inj (hturn.symm.trans hturn')
      exact ih hquiet
  | case3 t peer turn hturn _ =>
      obtain ⟨turn', hturn', hquiet⟩ := ht.exists_serveOnce worker peer
      obtain rfl := Option.some.inj (hturn.symm.trans hturn')
      exact ⟨turn, rfl, hquiet⟩

end Quiet

end Table

end KeyValueServer
