import KeyValueServer.Proofs.Server.Pieces
import KeyValueServer.Proofs.Workers.Attention

/-!
# What happens to clients

Workers read clients and drop them, clients connect, send, and end what they send. Nothing else
happens to a client, and none of it makes one misbehave.
-/

namespace KeyValueServer.Server

variable {e e' : Engine} {worker : Nat} {before after : WorkerStage} {stream : StreamId}

/-! ## What workers do -/

/-- A step makes no client come or go. -/
theorem Effect.isSome_peerAt (h : Effect e worker before e' after) (stream : StreamId) :
    (e'.network.peerAt stream).isSome = (e.network.peerAt stream).isSome := by
  have hrel := h.peers (R := fun _ _ => True) (fun _ => trivial) (fun _ => trivial)
    (fun _ _ _ _ _ _ => trivial) stream
  generalize e.network.peerAt stream = earlier at hrel ⊢
  generalize e'.network.peerAt stream = later at hrel ⊢
  cases hrel <;> rfl

/-- A step leaves every client as sending or ended as it is. -/
theorem Effect.exists_peer (h : Effect e worker before e' after) {peer : Peer}
    (hpeer : e.network.peerAt stream = some peer) :
    ∃ peer', e'.network.peerAt stream = some peer' ∧
      peer'.source.ended = peer.source.ended := by
  have hrel := h.peers (R := fun p p' => p'.source.ended = p.source.ended) (fun _ => rfl)
    (fun _ => rfl)
    (fun _ _ _ _ _ hserved => source_serveOnce hserved ▸ Source.ended_read _ _) stream
  rw [hpeer] at hrel
  exact exists_of_some_rel hrel

theorem Effect.isPlain (h : Effect e worker before e' after) {peer' : Peer}
    (he : ∀ stream peer, e.network.peerAt stream = some peer → peer.IsPlain)
    (hpeer' : e'.network.peerAt stream = some peer') : peer'.IsPlain := by
  have hrel := h.peers (R := fun p p' => p.IsPlain → p'.IsPlain) (fun _ => id)
    (fun _ hp => ⟨hp.pollable, hp.accepts, hp.source⟩)
    (fun _ _ _ _ _ hserved hp => isPlain_serveOnce hserved hp) stream
  rw [hpeer'] at hrel
  obtain ⟨peer, hpeer, hplain⟩ := exists_of_rel hrel
  exact hplain (he stream peer hpeer)

/-! ## What clients do -/

/-- The client that sends, or ends what it sends. -/
def Occurrence.sender? : Occurrence → Option StreamId
  | send stream _ => some stream
  | finish stream => some stream
  | _ => none

/-- What a client sends. -/
def Occurrence.bytesOf (stream : StreamId) : Occurrence → Bytes
  | send sender bytes => if sender = stream then bytes else []
  | _ => []

/-- What an occurrence makes of one client. -/
theorem Occurrence.peerAt_cases (o : Occurrence) (n : Network) (stream : StreamId) :
    (o.sender? ≠ some stream ∧ (o.change n).peerAt stream = n.peerAt stream) ∨
      (o = .connect ∧ n.peerAt stream = none ∧
        (o.change n).peerAt stream = some (.connected true)) ∨
      (∃ bytes, o = .send stream bytes ∧ (o.change n).peerAt stream =
        (n.peerAt stream).map fun p => { p with source := p.source.arrive bytes }) ∨
      (o = .finish stream ∧ (o.change n).peerAt stream =
        (n.peerAt stream).map fun p => { p with source := p.source.finish }) := by
  cases o with
  | work => exact .inl ⟨by simp [sender?], rfl⟩
  | connect =>
      rw [Occurrence.change]
      cases hconnect : n.connect with
      | error => exact .inl ⟨by simp [sender?], rfl⟩
      | ok connected =>
          have hat : connected.2.peerAt stream = _ := Network.peerAt_connect hconnect stream
          by_cases hnew : stream = n.peers.size
          · exact .inr (.inl ⟨rfl, hnew ▸ Array.getElem?_size, hat.trans (if_pos hnew)⟩)
          · exact .inl ⟨by simp [sender?], hat.trans (if_neg hnew)⟩
  | send sender bytes =>
      rw [Occurrence.change, Network.peerAt_send]
      split
      next heq => exact .inr (.inr (.inl ⟨bytes, by rw [heq], rfl⟩))
      next hne => exact .inl ⟨by simpa [sender?] using hne, rfl⟩
  | finish sender =>
      rw [Occurrence.change, Network.peerAt_finish]
      split
      next heq => exact .inr (.inr (.inr ⟨by rw [heq], rfl⟩))
      next hne => exact .inl ⟨by simpa [sender?] using hne, rfl⟩

/-- Clients change by sending and by ending what they send only, and come by connecting. -/
theorem Occurrence.peers {R : Peer → Peer → Prop} (o : Occurrence) (hkept : ∀ p, R p p)
    (harrive : ∀ (p : Peer) bytes, R p { p with source := p.source.arrive bytes })
    (hfinish : ∀ p : Peer, R p { p with source := p.source.finish }) (n : Network)
    (stream : StreamId) :
    Option.Rel R (n.peerAt stream) ((o.change n).peerAt stream) ∨
      n.peerAt stream = none ∧ (o.change n).peerAt stream = some (.connected true) := by
  have hmap (f : Peer → Peer) (hf : ∀ p, R p (f p)) :
      ∀ client : Option Peer, Option.Rel R client (client.map f)
    | none => .none
    | some p => .some (hf p)
  have hsame : ∀ client : Option Peer, Option.Rel R client client
    | none => .none
    | some p => .some (hkept p)
  rcases o.peerAt_cases n stream with ⟨-, hat⟩ | ⟨-, hnone, hat⟩ | ⟨bytes, -, hat⟩ | ⟨-, hat⟩
  · exact .inl (hat ▸ hsame _)
  · exact .inr ⟨hnone, hat⟩
  · exact .inl (hat ▸ hmap _ (fun p => harrive p bytes) _)
  · exact .inl (hat ▸ hmap _ hfinish _)

theorem Occurrence.isSome_peerAt (o : Occurrence) {n : Network}
    (h : (n.peerAt stream).isSome) : ((o.change n).peerAt stream).isSome := by
  obtain ⟨peer, hpeer⟩ := Option.isSome_iff_exists.mp h
  rcases o.peers (R := fun _ _ => True) (fun _ => trivial) (fun _ _ => trivial) (fun _ => trivial) n
    stream with hrel | ⟨-, hnew⟩
  · rw [hpeer] at hrel
    obtain ⟨peer', hpeer', -⟩ := exists_of_some_rel hrel
    exact hpeer' ▸ rfl
  · exact hnew ▸ rfl

/-- Those that wait to be accepted are as before, or a client has joined them. -/
theorem Occurrence.backlog_cases (o : Occurrence) (n : Network) :
    (o.change n).backlog = n.backlog ∨
      ∃ stream, (o.change n).backlog = n.backlog ++ [.client stream] ∧ n.peerAt stream = none ∧
        (o.change n).peerAt stream = some (.connected true) := by
  cases o with
  | work => exact .inl rfl
  | connect =>
      rw [Occurrence.change]
      cases hconnect : n.connect with
      | error => exact .inl rfl
      | ok connected =>
          have hat : connected.2.peerAt n.peers.size = _ := Network.peerAt_connect hconnect _
          exact .inr ⟨n.peers.size, Network.backlog_connect hconnect, Array.getElem?_size,
            hat.trans (if_pos rfl)⟩
  | send sender bytes => exact .inl (n.backlog_send sender bytes)
  | finish sender => exact .inl (n.backlog_finish sender)

/-- Clients that connect, send and end what they send do what the poller promises. -/
theorem Occurrence.delivers_change (o : Occurrence) (n : Network) : n.Delivers (o.change n) := by
  cases o with
  | work => exact .refl n
  | connect =>
      rw [Occurrence.change]
      cases hconnect : n.connect with
      | error => exact .refl n
      | ok connected => exact Network.delivers_connect hconnect
  | send stream bytes => exact n.delivers_send stream bytes
  | finish stream => exact n.delivers_finish stream

/-- What is made ready is reported of a socket that is watched; where it says that the connection is
over, the client has ended what it sends. -/
theorem Occurrence.forall_ready {P : Event → Prop} (o : Occurrence) {n : Network}
    (hmerge : ∀ e f : Event, e.token = f.token → P e → P f → P (Network.merge e f))
    (hready : ∀ event ∈ n.ready, P event)
    (hnews : ∀ event socket, (event.token, socket) ∈ n.watched → event.readable = true →
      (event.isHangup = true → ∃ stream peer, socket = .stream stream ∧
        (o.change n).peerAt stream = some peer ∧ peer.source.ended = true) → P event) :
    ∀ event ∈ (o.change n).ready, P event := by
  have hpeer (n' : Network) (hwatched : n'.watched = n.watched) (hold : n'.ready = n.ready)
      (stream : StreamId) (hlater : ∀ peer, n'.peerAt stream = some peer →
        (o.change n).peerAt stream = some peer) :
      ∀ event ∈ (n'.signalPeer stream).ready, P event := by
    refine Network.forall_ready_signalPeer hmerge (hold ▸ hready) fun token peer htoken hpeer => ?_
    refine hnews _ (.stream stream) (hwatched ▸ htoken) rfl fun hhangup => ?_
    exact ⟨stream, peer, rfl, hlater peer hpeer, by
      simpa [Network.outstanding, Event.blank, Event.isHangup] using hhangup⟩
  cases o with
  | work => exact hready
  | connect =>
      cases hconnect : n.connect with
      | error =>
          rw [Occurrence.change, hconnect]
          exact hready
      | ok connected =>
          have hchange : Occurrence.connect.change n = connected.2 := by
            rw [Occurrence.change, hconnect]
            rfl
          rw [hchange] at hnews ⊢
          unfold Network.connect at hconnect
          split at hconnect
          next =>
            rw [← Except.ok.inj hconnect]
            refine Network.forall_ready_signal hmerge hready fun token htoken => ?_
            exact hnews _ .listener htoken rfl fun hhangup => by contradiction
          next => contradiction
  | send stream bytes =>
      rw [Occurrence.change] at hpeer ⊢
      unfold Network.send
      split
      · exact hready
      next hne =>
        refine hpeer (n.modifyPeer stream fun p => { p with source := p.source.arrive bytes })
          rfl rfl stream fun peer hat => ?_
        rw [Network.send, if_neg hne, Network.peerAt_signalPeer]
        exact hat
  | finish stream =>
      refine hpeer (n.modifyPeer stream fun p => { p with source := p.source.finish })
        rfl rfl stream fun peer hat => ?_
      rw [Occurrence.change, Network.finish, Network.peerAt_signalPeer]
      exact hat

theorem isPlain_connected : (Peer.connected true).IsPlain where
  pollable := rfl
  accepts := by simp [Peer.connected, Sink.Accepts, Sink.accepting, Sink.ofSteps]
  source := by simp [Peer.connected, Source.IsPlain, Source.idle]

end KeyValueServer.Server
