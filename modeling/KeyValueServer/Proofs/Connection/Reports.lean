import KeyValueServer.Connection.Network
import KeyValueServer.Proofs.Connection.Naming
import Mathlib.Tactic.SplitIfs

/-!
# What the network reports

An event that is ready stays so until it is polled or its socket is no longer watched; others may be
merged into it, which leaves its token. Whatever arrives at a socket that is watched, or has arrived
at one that is about to be watched, is reported under the token of the socket.
-/

namespace KeyValueServer

theorem ReadStep.arrive_nil (steps : List ReadStep) : ReadStep.arrive [] steps = steps := by
  fun_induction ReadStep.arrive [] steps with
  | case1 => rfl
  | case2 => contradiction
  | case3 => rw [List.append_nil]
  | case4 _ _ _ ih => rw [ih]

/-- The event says that there is something to read or that the connection is over. -/
def Event.IsTelling (event : Event) : Prop := event.readable = true ∨ event.isHangup = true

/-- A read that would have to wait finds nothing: none of the reads that are to come fails so. -/
def Source.IsPrompt (source : Source) : Prop :=
  ∀ fault, .fails fault ∈ source.steps → fault.isWouldBlock = false

namespace Network

variable {n n' : Network} {socket : Socket} {token : ConnectionToken} {stream other : StreamId}
  {ready : List Event} {event new : Event} {peer : Peer}

/-! ## Ready events -/

theorem mem_announce (h : event ∈ announce ready new) :
    event ∈ ready ∨ event = new ∨
      ∃ earlier ∈ ready, earlier.token = new.token ∧ event = merge earlier new := by
  induction ready with
  | nil => exact .inr (.inl (List.mem_singleton.mp h))
  | cons first rest ih =>
      rw [announce] at h
      split_ifs at h with hsame
      · rcases List.mem_cons.mp h with rfl | hrest
        · exact .inr (.inr ⟨first, List.mem_cons_self, hsame, rfl⟩)
        · exact .inl (List.mem_cons_of_mem _ hrest)
      · rcases List.mem_cons.mp h with rfl | hrest
        · exact .inl List.mem_cons_self
        · rcases ih hrest with hmem | hnew | ⟨earlier, hmem, hmerged⟩
          · exact .inl (List.mem_cons_of_mem _ hmem)
          · exact .inr (.inl hnew)
          · exact .inr (.inr ⟨earlier, List.mem_cons_of_mem _ hmem, hmerged⟩)

theorem exists_mem_announce (h : event ∈ ready ∨ event = new) :
    ∃ later ∈ announce ready new, later.token = event.token := by
  induction ready with
  | nil =>
      rcases h with h | rfl
      · contradiction
      · exact ⟨event, List.mem_singleton_self _, rfl⟩
  | cons first rest ih =>
      rw [announce]
      split_ifs with hsame
      · rcases h with hmem | rfl
        · rcases List.mem_cons.mp hmem with rfl | hrest
          · exact ⟨_, List.mem_cons_self, rfl⟩
          · exact ⟨event, List.mem_cons_of_mem _ hrest, rfl⟩
        · exact ⟨_, List.mem_cons_self, hsame⟩
      · have hrest : event ∈ rest ∨ event = new → ∃ later ∈ first :: announce rest new,
            later.token = event.token := by
          intro hor
          obtain ⟨later, hlater, htoken⟩ := ih hor
          exact ⟨later, List.mem_cons_of_mem _ hlater, htoken⟩
        rcases h with hmem | hnew
        · rcases List.mem_cons.mp hmem with rfl | hmem
          · exact ⟨event, List.mem_cons_self, rfl⟩
          · exact hrest (.inl hmem)
        · exact hrest (.inr hnew)

theorem exists_mem_foldl_announce {news : List Event} (h : event ∈ ready ∨ event ∈ news) :
    ∃ later ∈ news.foldl announce ready, later.token = event.token := by
  induction news generalizing ready event with
  | nil => exact ⟨event, h.resolve_right (List.not_mem_nil), rfl⟩
  | cons first rest ih =>
      rw [List.foldl_cons]
      rw [List.mem_cons, ← or_assoc] at h
      rcases h with h | hrest
      · obtain ⟨later, hlater, htoken⟩ := exists_mem_announce h
        have hkept : later ∈ announce ready first ∨ later ∈ rest := .inl hlater
        obtain ⟨last, hlast, htoken'⟩ := ih hkept
        exact ⟨last, hlast, htoken'.trans htoken⟩
      · exact ih (.inr hrest)

/-- What is said of all events and outlasts merging is said of all events that are made ready. -/
theorem forall_mem_foldl_announce {P : Event → Prop} {news : List Event}
    (hmerge : ∀ e f : Event, e.token = f.token → P e → P f → P (merge e f))
    (hready : ∀ e ∈ ready, P e) (hnews : ∀ e ∈ news, P e) :
    ∀ e ∈ news.foldl announce ready, P e := by
  induction news generalizing ready with
  | nil => exact hready
  | cons first rest ih =>
      rw [List.forall_mem_cons] at hnews
      refine ih (fun e he => ?_) hnews.2
      rcases mem_announce he with hmem | rfl | ⟨earlier, hmem, htoken, rfl⟩
      · exact hready e hmem
      · exact hnews.1
      · exact hmerge _ _ htoken (hready _ hmem) hnews.1

theorem isTelling_merge {e f : Event} (h : e.IsTelling ∨ f.IsTelling) : (merge e f).IsTelling := by
  simp only [Event.IsTelling, Event.isHangup, merge, Bool.or_eq_true] at h ⊢
  tauto

theorem isTelling_outstanding (source : Source) (token : ConnectionToken) :
    (outstanding source token).IsTelling :=
  .inl rfl

/-! ## Watching -/

/-- The tokens under which a socket is watched. -/
def tokensOf (n : Network) (socket : Socket) : List ConnectionToken :=
  (n.watched.filter fun w => w.2 = socket).map Prod.fst

theorem mem_tokensOf : token ∈ n.tokensOf socket ↔ (token, socket) ∈ n.watched := by
  simp [tokensOf]

theorem ready_signal (n : Network) (socket : Socket) (report : ConnectionToken → Event) :
    (n.signal socket report).ready = ((n.tokensOf socket).map report).foldl announce n.ready := by
  rw [List.foldl_map]
  rfl

/-- A socket that is being watched, under its new token too. -/
theorem watch_eq_ok (h : n.watch token socket = .ok n') :
    n' = { n with
      watched := n.watched ++ [(token, socket)]
      ready := (n.pending socket token).foldl announce n.ready } := by
  unfold watch at h
  dsimp only at h
  split_ifs at h
  exact (Except.ok.inj h).symm

/-- Only a client whose connection can not be polled keeps its socket from being watched. -/
theorem watch_eq_error {fault : IoFault} (h : n.watch token socket = .error fault) :
    ∃ stream peer, socket = .stream stream ∧ n.peerAt stream = some peer ∧
      peer.pollable = false := by
  unfold watch at h
  dsimp only at h
  split_ifs at h with hrefused
  split at hrefused
  next stream =>
    cases hpeer : n.peerAt stream with
    | none => simp [hpeer] at hrefused
    | some peer => exact ⟨stream, peer, rfl, hpeer, by simpa [hpeer] using hrefused⟩
  next => contradiction

theorem mem_pending (h : event ∈ n.pending socket token) :
    event.token = token ∧ event.readable = true ∧ (event.isHangup = true →
      ∃ stream peer, socket = .stream stream ∧ n.peerAt stream = some peer ∧
        peer.source.ended = true) := by
  unfold pending at h
  split at h
  · contradiction
  · split_ifs at h
    · contradiction
    · obtain rfl := List.mem_singleton.mp h
      exact ⟨rfl, rfl, fun hhangup => by contradiction⟩
  · next stream =>
      split at h
      · contradiction
      · next peer hpeer =>
          split_ifs at h
          · obtain rfl := List.mem_singleton.mp h
            exact ⟨rfl, rfl, fun hhangup => ⟨stream, peer, rfl, hpeer, by
              simpa [outstanding, Event.blank, Event.isHangup] using hhangup⟩⟩
          · contradiction

theorem pending_of_isOutstanding (hpeer : n.peerAt stream = some peer)
    (h : peer.source.isOutstanding = true) :
    n.pending (.stream stream) token = [outstanding peer.source token] := by
  simp [pending, hpeer, h]

theorem ready_close_subset (h : event ∈ (n.close socket).ready) : event ∈ n.ready := by
  cases socket with
  | closed => exact h
  | listener => exact (List.mem_filter.mp h).1
  | stream id => exact (List.mem_filter.mp h).1

theorem mem_ready_close (h : event ∈ n.ready) (hother : (event.token, socket) ∉ n.watched) :
    event ∈ (n.close socket).ready := by
  rw [← mem_tokensOf] at hother
  cases socket with
  | closed => exact h
  | listener => exact List.mem_filter.mpr ⟨h, by simpa [tokensOf] using hother⟩
  | stream id => exact List.mem_filter.mpr ⟨h, by simpa [tokensOf] using hother⟩

theorem watched_close_subset {entry : ConnectionToken × Socket}
    (h : entry ∈ (n.close socket).watched) : entry ∈ n.watched := by
  cases socket with
  | closed => exact h
  | listener => exact (List.mem_filter.mp h).1
  | stream id => exact (List.mem_filter.mp h).1

theorem of_mem_watched {entry : ConnectionToken × Socket} (h : entry ∈ n.watched)
    (hother : entry.2 ≠ socket) : entry ∈ (n.close socket).watched := by
  cases socket with
  | closed => exact h
  | listener => exact List.mem_filter.mpr ⟨h, by simpa using hother⟩
  | stream id => exact List.mem_filter.mpr ⟨h, by simpa using hother⟩

theorem mem_watched_close {entry : ConnectionToken × Socket} (hsocket : socket ≠ .closed) :
    entry ∈ (n.close socket).watched ↔ entry ∈ n.watched ∧ entry.2 ≠ socket := by
  cases socket with
  | closed => contradiction
  | listener => simp [close, unwatch]
  | stream id => simp [close, unwatch, drop, modifyPeer]

/-! ## Clients -/

theorem peerAt_modifyPeer (n : Network) (stream other : StreamId) (f : Peer → Peer) :
    (n.modifyPeer stream f).peerAt other =
      if stream = other then (n.peerAt other).map f else n.peerAt other :=
  Array.getElem?_modify

theorem peerAt_drop (n : Network) (stream other : StreamId) :
    (n.drop stream).peerAt other =
      if stream = other then (n.peerAt other).map fun p => { p with dropped := true }
      else n.peerAt other :=
  peerAt_modifyPeer n stream other _

/-- Closing a socket changes nothing about clients, except that the one at the other end is dropped.
-/
theorem peerAt_close (n : Network) (socket : Socket) (stream : StreamId) :
    (n.close socket).peerAt stream =
      if socket = .stream stream then (n.peerAt stream).map fun p => { p with dropped := true }
      else n.peerAt stream := by
  cases socket with
  | closed => rfl
  | listener => rfl
  | stream id =>
      have hdrop : (n.close (.stream id)).peerAt stream = (n.drop id).peerAt stream := rfl
      rw [hdrop, peerAt_drop]
      simp only [Socket.stream.injEq]

theorem peerAt_signalPeer (n : Network) (stream other : StreamId) :
    (n.signalPeer stream).peerAt other = n.peerAt other := by
  unfold signalPeer
  split <;> rfl

theorem peerAt_send (n : Network) (stream other : StreamId) (bytes : Bytes) :
    (n.send stream bytes).peerAt other =
      if stream = other then
        (n.peerAt other).map fun p => { p with source := p.source.arrive bytes }
      else n.peerAt other := by
  unfold send
  split_ifs with hempty heq
  · obtain rfl := List.isEmpty_iff.mp hempty
    cases n.peerAt other with
    | none => rfl
    | some peer => simp [Source.arrive, ReadStep.arrive_nil]
  · rfl
  · rw [peerAt_signalPeer, peerAt_modifyPeer, if_pos ‹_›]
  · rw [peerAt_signalPeer, peerAt_modifyPeer, if_neg ‹_›]

theorem peerAt_finish (n : Network) (stream other : StreamId) :
    (n.finish stream).peerAt other =
      if stream = other then (n.peerAt other).map fun p => { p with source := p.source.finish }
      else n.peerAt other := by
  rw [finish, peerAt_signalPeer, peerAt_modifyPeer]

theorem peerAt_connect (h : n.connect = .ok (stream, n')) (other : StreamId) :
    n'.peerAt other = if other = n.peers.size then some (.connected true) else n.peerAt other := by
  unfold connect at h
  split_ifs at h
  obtain ⟨-, rfl⟩ := Prod.mk.inj (Except.ok.inj h)
  exact Array.getElem?_push

theorem backlog_signalPeer (n : Network) (stream : StreamId) :
    (n.signalPeer stream).backlog = n.backlog := by
  unfold signalPeer
  split <;> rfl

theorem backlog_send (n : Network) (stream : StreamId) (bytes : Bytes) :
    (n.send stream bytes).backlog = n.backlog := by
  unfold send
  split_ifs
  · rfl
  · exact backlog_signalPeer _ _

theorem backlog_finish (n : Network) (stream : StreamId) : (n.finish stream).backlog = n.backlog :=
  backlog_signalPeer _ _

theorem backlog_connect (h : n.connect = .ok (stream, n')) :
    n'.backlog = n.backlog ++ [.client n.peers.size] := by
  unfold connect at h
  split_ifs at h
  obtain ⟨-, rfl⟩ := Prod.mk.inj (Except.ok.inj h)
  rfl

/-! ## What the poller promises -/

def IsTelling (n : Network) : Prop := ∀ event ∈ n.ready, event.IsTelling

def IsPrompt (n : Network) : Prop :=
  ∀ stream peer, n.peerAt stream = some peer → peer.source.IsPrompt

/-- Something has happened outside of the server. -/
structure Delivers (n n' : Network) : Prop where
  /-- The server alone decides what is watched, -/
  watched : n'.watched = n.watched
  /-- and takes the events that are ready. -/
  kept : ∀ event ∈ n.ready, ∃ later ∈ n'.ready, later.token = event.token
  /-- Where there is something to read that was not there before, it is reported under every token
  of its socket. -/
  reported : ∀ stream peer, n'.peerAt stream = some peer → peer.source.isOutstanding = true →
    (∃ earlier, n.peerAt stream = some earlier ∧ earlier.source = peer.source) ∨
      ∀ token, (token, .stream stream) ∈ n.watched → ∃ event ∈ n'.ready, event.token = token
  /-- Every event says that there is something to read or that the connection is over. -/
  telling : n.IsTelling → n'.IsTelling
  /-- A read would have to wait only where there is nothing to read. -/
  prompt : n.IsPrompt → n'.IsPrompt

theorem Delivers.refl (n : Network) : n.Delivers n where
  watched := rfl
  kept event hevent := ⟨event, hevent, rfl⟩
  reported _ peer hpeer _ := .inl ⟨peer, hpeer, rfl⟩
  telling := id
  prompt := id

theorem mem_ready_signal {report : ConnectionToken → Event}
    (htoken : ∀ token, (report token).token = token) (h : (token, socket) ∈ n.watched) :
    ∃ event ∈ (n.signal socket report).ready, event.token = token := by
  have hnews : report token ∈ n.ready ∨ report token ∈ (n.tokensOf socket).map report :=
    .inr (List.mem_map_of_mem (mem_tokensOf.mpr h))
  obtain ⟨later, hlater, htoken'⟩ := exists_mem_foldl_announce hnews
  exact ⟨later, ready_signal n socket report ▸ hlater, htoken'.trans (htoken token)⟩

/-- What is said of all ready events and outlasts merging is said of them after a signal, if it is
true of what is signalled. -/
theorem forall_ready_signal {P : Event → Prop} {report : ConnectionToken → Event}
    (hmerge : ∀ e f : Event, e.token = f.token → P e → P f → P (merge e f))
    (hready : ∀ e ∈ n.ready, P e)
    (hnews : ∀ token, (token, socket) ∈ n.watched → P (report token)) :
    ∀ e ∈ (n.signal socket report).ready, P e := by
  rw [ready_signal]
  refine forall_mem_foldl_announce hmerge hready ?_
  simp only [List.forall_mem_map]
  exact fun token htoken => hnews token (mem_tokensOf.mp htoken)

theorem forall_ready_signalPeer {P : Event → Prop}
    (hmerge : ∀ e f : Event, e.token = f.token → P e → P f → P (merge e f))
    (hready : ∀ e ∈ n.ready, P e)
    (hnews : ∀ token peer, (token, .stream stream) ∈ n.watched → n.peerAt stream = some peer →
      P (outstanding peer.source token)) :
    ∀ e ∈ (n.signalPeer stream).ready, P e := by
  unfold signalPeer
  split
  · exact hready
  next peer hpeer =>
    exact forall_ready_signal hmerge hready fun token htoken => hnews token peer htoken hpeer

theorem delivers_signal (n : Network) (socket : Socket) (report : ConnectionToken → Event)
    (htelling : ∀ token, (report token).IsTelling) : n.Delivers (n.signal socket report) where
  watched := rfl
  kept event hevent := by
    rw [ready_signal]
    exact exists_mem_foldl_announce (.inl hevent)
  reported stream peer hpeer _ := .inl ⟨peer, hpeer, rfl⟩
  telling hn := forall_ready_signal (fun e f _ he _ => isTelling_merge (.inl he)) hn
    fun token _ => htelling token
  prompt hn := hn

theorem delivers_connect {stream : StreamId} (h : n.connect = .ok (stream, n')) :
    n.Delivers n' := by
  unfold connect at h
  split_ifs at h
  obtain ⟨rfl, rfl⟩ := Prod.mk.inj (Except.ok.inj h)
  have hpeerAt : ∀ other peer, peerAt { n with peers := n.peers.push (.connected true) } other =
      some peer → n.peerAt other = some peer ∨ peer.source = .idle := by
    intro other peer hpeer
    rw [peerAt, Array.getElem?_push] at hpeer
    split_ifs at hpeer
    · exact .inr (by rw [← Option.some.inj hpeer]; rfl)
    · exact .inl hpeer
  have hsignal := delivers_signal
    { n with
      peers := n.peers.push (.connected true)
      backlog := n.backlog ++ [.client n.peers.size] }
    .listener (fun token => { Event.blank token with readable := true }) fun _ => .inl rfl
  refine ⟨hsignal.watched, hsignal.kept, fun other peer hpeer houtstanding => ?_, hsignal.telling,
    fun hn other peer hpeer => ?_⟩
  · rcases hpeerAt other peer hpeer with hsame | hidle
    · exact .inl ⟨peer, hsame, rfl⟩
    · rw [hidle] at houtstanding
      contradiction
  · rcases hpeerAt other peer hpeer with hsame | hidle
    · exact hn other peer hsame
    · rw [hidle]
      exact fun fault hfault => absurd hfault List.not_mem_nil

/-- A change of what a client sends that is reported. -/
theorem delivers_arrival (n : Network) (stream : StreamId) {f : Source → Source}
    (hprompt : ∀ source, source.IsPrompt → (f source).IsPrompt) :
    n.Delivers
      ((n.modifyPeer stream fun p => { p with source := f p.source }).signalPeer stream) := by
  have hpeerAt := peerAt_modifyPeer n stream
  cases hpeer : n.peerAt stream with
  | none =>
      have hsame : ∀ other, (n.modifyPeer stream fun p => { p with source := f p.source }).peerAt
          other = n.peerAt other := by
        intro other
        rw [hpeerAt]
        split_ifs with hother
        · rw [← hother, hpeer]
          rfl
        · rfl
      rw [signalPeer, hsame, hpeer]
      exact ⟨rfl, fun event hevent => ⟨event, hevent, rfl⟩,
        fun other peer hother _ => .inl ⟨peer, (hsame other).symm.trans hother, rfl⟩, id,
        fun hn other peer hother => hn other peer ((hsame other).symm.trans hother)⟩
  | some peer =>
      rw [signalPeer, hpeerAt, if_pos rfl, hpeer]
      have hsignal := delivers_signal
        (n.modifyPeer stream fun p => { p with source := f p.source }) (.stream stream) _
        (isTelling_outstanding (f peer.source))
      refine ⟨hsignal.watched, hsignal.kept, fun other later hlater _ => ?_, hsignal.telling,
        fun hn other later hlater => ?_⟩
      · have hlater' := (hpeerAt other _).symm.trans hlater
        split_ifs at hlater' with hother
        · subst hother
          exact .inr fun token htoken => mem_ready_signal (fun _ => rfl) htoken
        · exact .inl ⟨later, hlater', rfl⟩
      · have hlater' := (hpeerAt other _).symm.trans hlater
        split_ifs at hlater' with hother
        · subst hother
          obtain ⟨earlier, hearlier, rfl⟩ := Option.map_eq_some_iff.mp hlater'
          exact hprompt _ (hn _ earlier hearlier)
        · exact hn other later hlater'

end Network

theorem ReadStep.mem_arrive {bytes : Bytes} {steps : List ReadStep} {fault : IoFault}
    (h : .fails fault ∈ ReadStep.arrive bytes steps) : .fails fault ∈ steps := by
  fun_induction ReadStep.arrive bytes steps with
  | case1 => contradiction
  | case2 => simp at h
  | case3 => simp at h
  | case4 step steps _ ih =>
      rcases List.mem_cons.mp h with rfl | hrest
      · exact List.mem_cons_self
      · exact List.mem_cons_of_mem _ (ih hrest)

namespace Network

theorem delivers_send (n : Network) (stream : StreamId) (bytes : Bytes) :
    n.Delivers (n.send stream bytes) := by
  unfold send
  split_ifs
  · exact .refl n
  · exact n.delivers_arrival stream (f := fun source => source.arrive bytes)
      fun source hsource fault hfault => hsource fault (ReadStep.mem_arrive hfault)

theorem delivers_finish (n : Network) (stream : StreamId) : n.Delivers (n.finish stream) :=
  n.delivers_arrival stream (f := Source.finish) fun _ hsource => hsource

end Network

end KeyValueServer
