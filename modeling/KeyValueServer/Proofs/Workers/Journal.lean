import KeyValueServer.Proofs.Workers.Dates

/-!
# The journal of a worker

Each read adds a piece to the journal at most, and nothing else does. The journal accounts for what
the table has, for what was read from each client, and for what was sent to each. A connection is
closed only when its client has ended what it sends and everything was read.
-/

namespace KeyValueServer

/-- What a client has sent and the server has not read yet. -/
def Network.unread (n : Network) (stream : StreamId) : Bytes :=
  ((n.peerAt stream).map fun p => p.source.unread).getD []

/-- What a client has received. -/
def Network.received (n : Network) (stream : StreamId) : Bytes :=
  ((n.peerAt stream).map Peer.received).getD []

namespace Server

/-- What is unread of a client grows by what the client sends. -/
theorem Occurrence.unread_change (o : Occurrence) {n : Network} {stream : StreamId}
    (hknown : o.sender? = some stream → (n.peerAt stream).isSome) :
    (o.change n).unread stream = n.unread stream ++ o.bytesOf stream := by
  rw [Network.unread, Network.unread]
  rcases o.peerAt_cases n stream with ⟨hother, hat⟩ | ⟨rfl, hnone, hat⟩ | ⟨bytes, rfl, hat⟩ |
    ⟨rfl, hat⟩
  · have hnothing : o.bytesOf stream = [] := by
      cases o with
      | send sender bytes =>
          refine if_neg fun heq => hother ?_
          rw [heq]
          rfl
      | _ => rfl
    rw [hat, hnothing, List.append_nil]
  · rw [hat, hnone]
    rfl
  · obtain ⟨peer, hpeer⟩ := Option.isSome_iff_exists.mp (hknown rfl)
    rw [hat, hpeer]
    simp [Occurrence.bytesOf, Source.unread_arrive]
  · rw [hat, Option.map_map]
    exact (List.append_nil _).symm

theorem Occurrence.received_change (o : Occurrence) (n : Network) (stream : StreamId) :
    (o.change n).received stream = n.received stream := by
  rcases o.peers (R := fun p p' => p'.received = p.received) (fun _ => rfl) (fun _ _ => rfl)
    (fun _ => rfl) n stream with hrel | ⟨hnone, hnew⟩
  · rw [Network.received, Network.received]
    generalize n.peerAt stream = earlier at hrel ⊢
    generalize (o.change n).peerAt stream = later at hrel ⊢
    cases hrel with
    | none => rfl
    | some hsame => simp [hsame]
  · rw [Network.received, Network.received, hnone, hnew]
    rfl

/-- What happens outside leaves a client alone that neither sends nor ends what it sends. -/
theorem Occurrence.peerAt_of_not_sender (o : Occurrence) {n : Network} {stream : StreamId}
    {peer : Peer} (hpeer : n.peerAt stream = some peer) (h : o.sender? ≠ some stream) :
    (o.change n).peerAt stream = some peer := by
  rcases o.peerAt_cases n stream with ⟨-, hat⟩ | ⟨-, hnone, -⟩ | ⟨bytes, rfl, -⟩ | ⟨rfl, -⟩
  · exact hat.trans hpeer
  · rw [hpeer] at hnone
    contradiction
  · exact absurd rfl h
  · exact absurd rfl h

/-- Everything that the client in a place sends was read. -/
def Engine.HasFinished (e : Engine) (slot : ConnectionSlot) : Prop :=
  ∃ stream peer, slot.socket = .stream stream ∧ e.network.peerAt stream = some peer ∧
    peer.source.ended = true ∧ peer.source.unread = []

/-- The journal accounts for the table, and for what was read from and sent to each client. -/
structure Shift.Recorded (s : Shift) (table : Table) (journal : List Piece) : Prop where
  represents : Represents table s.engine.table (applied (fun _ => none) (requestsOf journal))
  sent : ∀ stream, s.sent stream = readFrom stream journal ++ s.engine.network.unread stream
  received : ∀ stream, s.engine.network.received stream =
    repliesTo stream (fun _ => none) journal

namespace Shift

variable {s s' : Shift} {table : Table} {journal news : List Piece} {stream : StreamId}
  {index : Nat} {event : Event}

/-! ## Steps of the worker -/

/-- A step that is no read adds nothing to the journal. -/
theorem Recorded.keep (hr : s.Recorded table journal) (h : s.workers.Moved 0 s'.workers)
    (hsent : s'.sent = s.sent) (hread : ∀ index event, s.stage ≠ .reading index event) :
    s'.Recorded table journal := by
  obtain ⟨stage, heffect, -⟩ := h
  have hclient (stream : StreamId) :
      s'.engine.network.unread stream = s.engine.network.unread stream ∧
        s'.engine.network.received stream = s.engine.network.received stream := by
    have hrel := heffect.peers (R := fun p p' => p'.source = p.source ∧ p'.sink = p.sink)
      (fun _ => ⟨rfl, rfl⟩) (fun _ => ⟨rfl, rfl⟩)
      (fun index event _ _ hreading _ => absurd hreading (hread index event)) stream
    simp only [Network.unread, Network.received, Shift.engine]
    generalize s.workers.engine.network.peerAt stream = earlier at hrel ⊢
    generalize s'.workers.engine.network.peerAt stream = later at hrel ⊢
    cases hrel with
    | none => exact ⟨rfl, rfl⟩
    | some hsame => simp [Peer.received, hsame]
  refine ⟨?_, fun stream => ?_, fun stream => ?_⟩
  · rw [Shift.engine, heffect.table hread]
    exact hr.represents
  · rw [hsent, (hclient stream).1]
    exact hr.sent stream
  · rw [(hclient stream).2]
    exact hr.received stream

/-- A read adds what was read. -/
theorem Recorded.add (hr : s.Recorded table journal) {peer : Peer} {turn : Turn}
    (hpeer : s.engine.network.peerAt stream = some peer) (hsent : s'.sent = s.sent)
    (htable : s'.engine.table = turn.table)
    (hnetwork : s'.engine.network = s.engine.network.modifyPeer stream fun _ => turn.peer)
    (hadds : turn.Adds table peer (applied (fun _ => none) (requestsOf journal)) stream news) :
    s'.Recorded table (journal ++ news) where
  represents := by
    rw [htable, requestsOf_append, applied_append]
    exact hadds.represents
  sent other := by
    rw [hsent, hr.sent other, readFrom_append, List.append_assoc, hnetwork, Network.unread,
      Network.unread, Network.peerAt_modifyPeer]
    split
    next heq =>
      subst heq
      rw [hpeer]
      exact congrArg _ hadds.unread
    next hne =>
      have hothers : ∀ piece ∈ news, piece.stream ≠ other :=
        fun piece hpiece => hadds.own piece hpiece ▸ hne
      rw [readFrom_of_others hothers, List.nil_append]
  received other := by
    rw [repliesTo_append, ← hr.received other, hnetwork, Network.received, Network.received,
      Network.peerAt_modifyPeer]
    split
    next heq =>
      subst heq
      rw [hpeer]
      exact hadds.received
    next hne =>
      have hothers : ∀ piece ∈ news, piece.stream ≠ other :=
        fun piece hpiece => hadds.own piece hpiece ▸ hne
      rw [repliesTo_of_others hothers, List.append_nil]

/-- An event that says that the connection is over is served only when the client has ended what it
sends. -/
theorem Dated.hasEnded (hd : s.Dated) (hs : s.workers.Steady)
    (htaken : s.stage.taken? = some (index, event)) {slot : ConnectionSlot}
    (hslot : s.engine.arena.slotAt index = some slot) (hhangup : event.isHangup = true) :
    s.engine.HasEnded slot := by
  obtain ⟨rfl, hgeneration⟩ := hs.attentive.current index slot event hslot (.inr ⟨0, htaken⟩)
  have hdates := hd.dates event (.taken 0 _ htaken)
  have hretire : s.stage.retired? ≠ some event.token.index :=
    hs.tenanted.not_retired (WorkerStage.mem_holds_of_taken htaken) (by decide) (by decide) 0
  obtain ⟨other, hconnects⟩ := hdates.present (hgeneration ▸ hd.counted _ slot hslot) hretire
  obtain rfl := Option.some.inj (hslot.symm.trans hconnects.found)
  exact hconnects.ended hhangup

/-- A worker that reads a connection reads a client that behaves. -/
theorem exists_read (hs : s.workers.Steady) (hsound : table.Sound)
    (hrest : table.AtRest fun _ => []) (hmemory : s.engine.memory = unlimited)
    (hr : s.Recorded table journal) (hstage : s.stage = .reading index event)
    (h : s.workers.Moved 0 s'.workers) :
    ∃ slot stream peer turn news, s.engine.arena.slotAt index = some slot ∧
      slot.socket = .stream stream ∧ s.engine.network.peerAt stream = some peer ∧
      serveOnce (s.engine.workerOf 0) s.engine.table peer = some turn ∧
      turn.Adds table peer (applied (fun _ => none) (requestsOf journal)) stream news ∧
      s'.engine = { s.engine with
        table := turn.table
        network := s.engine.network.modifyPeer stream fun _ => turn.peer } ∧
      s'.stage = Workers.afterReading index event turn.outcome := by
  obtain ⟨stage, heffect, hstages⟩ := h
  have hafter : s'.stage = stage := by rw [Shift.stage, hstages, turn_self]
  have hbefore : s.workers.stages 0 = .reading index event := hstage
  rw [hbefore] at heffect
  have hengine : s'.engine = s'.workers.engine := rfl
  rw [hafter, hengine]
  generalize s'.workers.engine = e' at heffect ⊢
  cases heffect with
  | miss hslot hsocket hpeer =>
      have hknown := hs.civil.known _ (.placed index) ⟨_, hslot, hsocket⟩
      rw [hpeer] at hknown
      contradiction
  | @read _ _ slot stream peer turn hslot hsocket hpeer hserved =>
      have hworker : (s.engine.workerOf 0).memory = unlimited := hmemory
      obtain ⟨turn', news, hserved', hadds⟩ := hr.represents.exists_turn hsound hrest hworker
        (hs.civil.plain stream peer hpeer) stream
      obtain rfl := Option.some.inj (hserved.symm.trans hserved')
      exact ⟨slot, stream, peer, turn, news, hslot, hsocket, hpeer, hserved, hadds, rfl, rfl⟩

/-- Every step of the worker is accounted for. -/
theorem Recorded.moved (hr : s.Recorded table journal) (hs : s.workers.Steady)
    (hsound : table.Sound) (hrest : table.AtRest fun _ => [])
    (hmemory : s.engine.memory = unlimited) (h : s.workers.Moved 0 s'.workers)
    (hsent : s'.sent = s.sent) : ∃ news, s'.Recorded table (journal ++ news) := by
  by_cases hread : ∃ index event, s.stage = .reading index event
  · obtain ⟨index, event, hstage⟩ := hread
    obtain ⟨slot, stream, peer, turn, news, -, -, hpeer, -, hadds, hengine, -⟩ :=
      exists_read hs hsound hrest hmemory hr hstage h
    exact ⟨_, hr.add hpeer hsent (by rw [hengine]) (by rw [hengine]) hadds⟩
  · refine ⟨[], ?_⟩
    rw [List.append_nil]
    exact hr.keep h hsent fun index event hstage => hread ⟨index, event, hstage⟩

/-! ## What clients do -/

theorem peerAt_of_isSending (h : s.isSending stream = true) :
    ∃ peer, s.engine.network.peerAt stream = some peer ∧ peer.source.ended = false := by
  rw [isSending, Option.any_eq_true] at h
  obtain ⟨peer, hpeer, hopen⟩ := h
  exact ⟨peer, hpeer, by simpa using hopen⟩

theorem Recorded.occur (hr : s.Recorded table journal) {o : Occurrence}
    (hworkers : s'.workers = s.workers.happen o.change)
    (hsent : ∀ stream, s'.sent stream = s.sent stream ++ o.bytesOf stream)
    (hsender : ∀ stream, o.sender? = some stream → s.isSending stream = true) :
    s'.Recorded table journal := by
  have hnetwork : s'.engine.network = o.change s.engine.network := by
    rw [Shift.engine, hworkers]
    rfl
  refine ⟨?_, fun stream => ?_, fun stream => ?_⟩
  · rw [Shift.engine, hworkers]
    exact hr.represents
  · have hknown : o.sender? = some stream → (s.engine.network.peerAt stream).isSome := by
      intro hstream
      obtain ⟨peer, hpeer, -⟩ := peerAt_of_isSending (hsender stream hstream)
      exact hpeer ▸ rfl
    rw [hsent, hr.sent, hnetwork, o.unread_change hknown, List.append_assoc]
  · rw [hnetwork, o.received_change]
    exact hr.received stream

/-! ## Closing a connection -/

/-- A worker gives up only a connection whose client has ended what it sends, after it has read all
of it. -/
def Closes (s : Shift) : Prop :=
  ∀ index next, s.stage = .closing index next →
    ∃ slot, s.engine.arena.slotAt index = some slot ∧ s.engine.HasFinished slot

/-- What was read for the last time is given up only if nothing is left. -/
theorem closes_of_read (hd : s.Dated) (hs : s.workers.Steady) (hsound : table.Sound)
    (hrest : table.AtRest fun _ => []) (hmemory : s.engine.memory = unlimited)
    (hr : s.Recorded table journal) (hstage : s.stage = .reading index event)
    (h : s.workers.Moved 0 s'.workers) : s'.Closes := by
  obtain ⟨slot, stream, peer, turn, news, hslot, hsocket, hpeer, hserved, hadds, hengine, hafter⟩ :=
    exists_read hs hsound hrest hmemory hr hstage h
  have hended : turn.peer.source.ended = peer.source.ended := by
    rw [source_serveOnce hserved, Source.ended_read]
  have hfinished (hclosed : peer.source.ended = true) (hunread : turn.peer.source.unread = []) :
      ∃ slot, s'.engine.arena.slotAt index = some slot ∧ s'.engine.HasFinished slot := by
    rw [hengine]
    refine ⟨slot, hslot, stream, turn.peer, hsocket, ?_, hended.trans hclosed, hunread⟩
    rw [Network.peerAt_modifyPeer, if_pos rfl, hpeer]
    rfl
  intro place next hclosing
  rw [hafter] at hclosing
  cases houtcome : turn.outcome with
  | more =>
      rw [houtcome] at hclosing
      contradiction
  | failed fault => exact absurd houtcome (hadds.sound fault)
  | ended =>
      rw [houtcome] at hclosing
      obtain ⟨rfl, -⟩ := WorkerStage.closing.inj hclosing
      obtain ⟨hclosed, hunread⟩ := hadds.final houtcome
      exact hfinished hclosed hunread
  | drained =>
      -- An event that says that the connection is over would have the client ended, and the read
      -- would have found the end.
      have hopen := hadds.drained houtcome
      rw [houtcome] at hclosing
      cases hhangup : event.isHangup with
      | false => simp [Workers.afterReading, Workers.afterServing, hhangup] at hclosing
      | true =>
          have htaken : s.stage.taken? = some (index, event) := by rw [hstage]; rfl
          obtain ⟨other, client, hother, hclient, hclosed⟩ := hd.hasEnded hs htaken hslot hhangup
          obtain rfl := Socket.stream.inj (hsocket.symm.trans hother)
          obtain rfl := Option.some.inj (hpeer.symm.trans hclient)
          rw [hopen] at hclosed
          contradiction

/-- Nothing but a read leads to the closing of a connection. -/
theorem closes_of_not_read (hd : s.Dated) (hs : s.workers.Steady)
    (hread : ∀ index event, s.stage ≠ .reading index event) (h : s.workers.Moved 0 s'.workers) :
    s'.Closes := by
  intro index next hclosing
  obtain ⟨stage, heffect, hstages⟩ := h
  have hafter : stage = .closing index next := by
    rw [← hclosing, Shift.stage, hstages, turn_self]
  generalize hbefore : s.workers.stages 0 = before at heffect
  generalize s'.workers.engine = e' at heffect
  cases heffect with
  | takeMessages hslot _ _ hevents =>
      have hdates := hd.dates _ (.placed _ _ hslot (hevents ▸ List.mem_cons_self))
      rw [if_pos hdates.readable] at hafter
      contradiction
  | miss => exact absurd hbefore (hread _ _)
  | read => exact absurd hbefore (hread _ _)
  | refuse _ hrefused => exact absurd hrefused (hs.civil.watch_ne_error _ _ _)
  | acceptFails | park | poll | leave => split at hafter <;> contradiction
  | @recycle _ next => cases next <;> contradiction
  | _ => contradiction

theorem Closes.occur (hc : s.Closes) {o : Occurrence}
    (hworkers : s'.workers = s.workers.happen o.change)
    (hsender : ∀ stream, o.sender? = some stream → s.isSending stream = true) : s'.Closes := by
  intro index next hclosing
  rw [Shift.stage, hworkers] at hclosing
  obtain ⟨slot, hslot, stream, peer, hsocket, hpeer, hended, hunread⟩ := hc index next hclosing
  rw [Shift.engine, hworkers]
  refine ⟨slot, hslot, stream, peer, hsocket, ?_, hended, hunread⟩
  refine o.peerAt_of_not_sender hpeer fun hstream => ?_
  obtain ⟨other, hother, hopen⟩ := peerAt_of_isSending (hsender stream hstream)
  obtain rfl := Option.some.inj (hpeer.symm.trans hother)
  rw [hended] at hopen
  contradiction

end Shift

end Server

end KeyValueServer
