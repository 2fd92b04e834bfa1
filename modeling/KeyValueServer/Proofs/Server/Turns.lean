import KeyValueServer.Proofs.Connection.Reports
import KeyValueServer.Server.Serve

/-!
# Single reads of a connection

What one read leaves of what a client has sent. A worker that is told to wait has read everything,
provided that reads have to wait only then.
-/

namespace KeyValueServer

namespace Source

variable {source : Source} {room : Nat}

theorem IsPrompt.read (h : source.IsPrompt) (room : Nat) : (source.read room).2.IsPrompt := by
  intro fault hfault
  unfold Source.read at hfault
  split at hfault
  · contradiction
  · next bytes steps hsteps =>
      refine h fault ?_
      rw [hsteps]
      split at hfault
      · exact List.mem_cons_of_mem _ hfault
      · exact List.mem_cons_of_mem _ (by simpa using hfault)
  · next first steps hsteps =>
      refine h fault ?_
      rw [hsteps]
      exact List.mem_cons_of_mem _ hfault

/-- Reading makes nothing appear that is to be read. -/
theorem isOutstanding_of_read (h : (source.read room).2.isOutstanding = true) :
    source.isOutstanding = true := by
  unfold Source.read at h
  split at h
  · next hsteps => simpa [isOutstanding, hsteps] using h
  · next hsteps => simp [isOutstanding, hsteps]
  · next hsteps => simp [isOutstanding, hsteps]

/-- A read that has to wait has left nothing. -/
theorem IsPrompt.not_isOutstanding (h : source.IsPrompt) {fault : IoFault} {rest : Source}
    (hread : source.read room = (.error fault, rest)) (hfault : fault.isWouldBlock = true) :
    rest.isOutstanding = false := by
  unfold Source.read at hread
  split at hread
  · obtain ⟨hresult, rfl⟩ := Prod.mk.inj hread
    split at hresult
    · contradiction
    · next hended => simpa [isOutstanding] using hended
  · split at hread <;> exact absurd (Prod.mk.inj hread).1 (by simp)
  · next first steps hsteps =>
      obtain ⟨hresult, -⟩ := Prod.mk.inj hread
      obtain rfl := Except.error.inj hresult
      have hmem : ReadStep.fails first ∈ source.steps := hsteps ▸ List.mem_cons_self
      rw [h first hmem] at hfault
      contradiction

end Source

namespace Server

variable {worker : Worker} {table : Table} {peer : Peer} {turn : Turn}

theorem source_serveOnce (h : serveOnce worker table peer = some turn) :
    turn.peer.source = (peer.source.read maxMessage).2 := by
  unfold serveOnce at h
  split at h
  next fault source hread =>
    rw [hread, ← Option.some.inj h]
  next bytes source hread =>
    rw [hread]
    split at h
    · rw [← Option.some.inj h]
    · obtain ⟨served, -, rfl⟩ := Option.map_eq_some_iff.mp h
      rfl

theorem exists_fault_of_drained (h : serveOnce worker table peer = some turn)
    (hdrained : turn.outcome = .drained) :
    ∃ fault source, peer.source.read maxMessage = (.error fault, source) ∧
      fault.isWouldBlock = true := by
  unfold serveOnce at h
  split at h
  next fault source hread =>
    obtain rfl := Option.some.inj h
    refine ⟨fault, source, hread, ?_⟩
    dsimp only at hdrained
    split at hdrained
    · contradiction
    · split at hdrained
      · assumption
      · contradiction
  next bytes source hread =>
    split at h
    · obtain rfl := Option.some.inj h
      contradiction
    · obtain ⟨served, -, rfl⟩ := Option.map_eq_some_iff.mp h
      dsimp only at hdrained
      split at hdrained <;> contradiction

/-- A connection that was read until a read had to wait has nothing more to read. -/
theorem not_isOutstanding_of_drained (hprompt : peer.source.IsPrompt)
    (h : serveOnce worker table peer = some turn) (hdrained : turn.outcome = .drained) :
    turn.peer.source.isOutstanding = false := by
  obtain ⟨fault, source, hread, hfault⟩ := exists_fault_of_drained h hdrained
  rw [source_serveOnce h, hread]
  exact hprompt.not_isOutstanding hread hfault

end Server

end KeyValueServer
