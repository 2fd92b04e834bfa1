import KeyValueServer.Proofs.Workers.Unhindered

/-!
# Answers in order

With one worker, all requests of all clients are carried out one after the other, in the order in
which the pieces that have them were read. Every client is sent the answers to its own requests, in
the order in which it sent them, and nothing else, whatever other clients come and go and whichever
places they are given. What a client has sent before it ended is answered before its place is given
back.
-/

namespace KeyValueServer.Server

/-- All that holds of a worker on its own and of its journal. -/
structure Shift.Orderly (s : Shift) (table : Table) (journal : List Piece) : Prop where
  able : s.Able
  dated : s.Dated
  closes : s.Closes
  memory : s.engine.memory = unlimited
  recorded : s.Recorded table journal

/-- A journal tells all that clients have got and that the table has. The requests in it were
carried out on one map, in the order of the journal. -/
structure Shift.Answered (s : Shift) (journal : List Piece) : Prop where
  /-- What a client has sent was read, piece by piece, or is unread. -/
  read : ∀ stream, s.sent stream = readFrom stream journal ++ s.engine.network.unread stream
  /-- A client has received the answers to its own pieces. -/
  received : ∀ stream, s.engine.network.received stream = repliesTo stream (fun _ => none) journal
  /-- What is stored is what the requests have stored last. -/
  stored : ∀ key, s.engine.table.lookup key = applied (fun _ => none) (requestsOf journal) key
  /-- A client loses its place only when it has ended what it sends and all of it was read. -/
  frees : ∀ answer next index stream, s.workers.step 0 answer = some next →
    s.engine.socketAt index = .stream stream → next.engine.socketAt index ≠ .stream stream →
    s.isSending stream = false ∧ s.sent stream = readFrom stream journal
  /-- When there is nothing left to wait for, all was read of the clients that have places, and none
  of them has ended what it sends. -/
  rests : s.stage = .polling → s.engine.network.ready = [] →
    ∀ index stream, s.engine.socketAt index = .stream stream →
      s.isSending stream = true ∧ s.sent stream = readFrom stream journal
  /-- The worker can always go on. -/
  proceeds : s.stage ≠ .exited → ∀ answer, (s.workers.step 0 answer).isSome

namespace Shift

variable {s s' : Shift} {table : Table} {journal : List Piece} {o : Occurrence}
  {os : List Occurrence} {c : Config} {engine : Engine} {reachable : Bool}
  {hash : Bytes → UInt64} {slotBits maxShards index : Nat} {stream : StreamId}

/-! ## The beginning -/

theorem not_has_of_new (hnew : Engine.new c unlimited table (.idle reachable) = .ok engine)
    (event : Event) : ¬(Workers.beginning engine).Has event := by
  obtain ⟨-, -, -, hwaiter, hwatch, -, -⟩ := Engine.new_eq_ok hnew
  refine (tenanted_of_new hnew).not_has ?_ (queue_of_new hwaiter).2 (fun _ => ⟨rfl, rfl⟩) event
  exact congrArg Network.ready (Network.watch_eq_ok hwatch)

theorem not_at_of_new (hnew : Engine.new c unlimited table (.idle reachable) = .ok engine)
    (spot : Spot) : ¬(Workers.beginning engine).At stream spot := by
  obtain ⟨-, -, -, -, hwatch, -, -⟩ := Engine.new_eq_ok hnew
  intro hat
  cases spot with
  | waiting position =>
      rw [Workers.At, Workers.beginning, Network.watch_eq_ok hwatch] at hat
      contradiction
  | brought worker => contradiction
  | placed index =>
      obtain ⟨slot, hslot, hsocket⟩ := hat
      exact (Engine.slotAt_of_new hnew hslot).2 stream hsocket

theorem steady_of_new (hnew : Engine.new c unlimited table (.idle reachable) = .ok engine)
    (hplaces : c.maxConnections.toNat ≤ UInt32.size) : (Workers.beginning engine).Steady := by
  obtain ⟨-, -, -, -, hwatch, -, -⟩ := Engine.new_eq_ok hnew
  have hpeers : engine.network.peers = #[] := by rw [Network.watch_eq_ok hwatch]; rfl
  exact {
    alone := fun _ _ => rfl
    tenanted := tenanted_of_new hnew
    attentive := attentive_of_new hnew hplaces rfl rfl fun stream peer hpeer => by
      simp [Network.peerAt, Network.idle] at hpeer
    civil := {
      plain := fun stream peer hpeer => by
        simp [Workers.beginning, Network.peerAt, hpeers] at hpeer
      known := fun stream spot hat => absurd hat (not_at_of_new hnew spot)
      once := fun stream spot _ hat => absurd hat (not_at_of_new hnew spot) }
    watches := fun index slot stream hslot hsocket =>
      absurd ⟨slot, hslot, hsocket⟩ (not_at_of_new hnew (.placed index)) }

theorem orderly_of_new (htable : Table.new unlimited hash slotBits maxShards = .ok table)
    (hnew : Engine.new c unlimited table (.idle reachable) = .ok engine)
    (hplaces : c.maxConnections.toNat ≤ UInt32.size) : (beginning engine).Orderly table [] := by
  obtain ⟨-, -, -, hwaiter, hwatch, htableSame, hmemory⟩ := Engine.new_eq_ok hnew
  have hpeer (stream : StreamId) : engine.network.peerAt stream = none := by
    rw [Network.watch_eq_ok hwatch]
    simp [Network.peerAt, Network.idle]
  exact {
    able := {
      steady := steady_of_new hnew hplaces
      locks := ⟨rfl, fun index => rfl⟩
      polls := ⟨.inl ⟨rfl, elected_of_new hwaiter⟩, fun hawaits => by contradiction⟩ }
    dated := {
      counted := fun index slot hslot => by
        rw [(Engine.slotAt_of_new hnew hslot).1]
        rfl
      dates := fun event hhas => absurd hhas (not_has_of_new hnew event) }
    closes := fun index next hclosing => by contradiction
    memory := hmemory
    recorded := {
      represents := by
        have hlookup := Table.lookup_of_new htable
        refine ⟨?_, ?_, by simp [requestsOf, applied]⟩ <;>
          rw [Shift.engine, beginning, Workers.beginning, htableSame]
        · exact .start
        · exact hlookup
      sent := fun stream => by
        simp [beginning, Workers.beginning, readFrom, Network.unread, hpeer]
      received := fun stream => by
        simp [beginning, Workers.beginning, repliesTo, Network.received, hpeer] } }

/-! ## One occurrence -/

theorem Orderly.work (hs : s.Orderly table journal) (hsound : table.Sound)
    (hrest : table.AtRest fun _ => []) {answer : PollAnswer}
    (hstep : s.workers.step 0 answer = some s'.workers) (hsent : s'.sent = s.sent)
    (hreturns : s'.returns = s.returned) (hbound : ∀ index, s'.returns index < UInt32.size) :
    ∃ news, s'.Orderly table (journal ++ news) := by
  have hsteady := hs.able.steady
  have hmoved := hsteady.tenanted.moved_of_step hstep
  obtain ⟨news, hrecorded⟩ := hs.recorded.moved hsteady hsound hrest hs.memory hmoved hsent
  exact ⟨news, {
    able := hs.able.work hstep
    dated := hs.dated.moved hsteady hmoved hreturns hbound
    closes := by
      by_cases hread : ∃ index event, s.stage = .reading index event
      · obtain ⟨index, event, hstage⟩ := hread
        exact closes_of_read hs.dated hsteady hsound hrest hs.memory hs.recorded hstage hmoved
      · exact closes_of_not_read hs.dated hsteady
          (fun index event hstage => hread ⟨index, event, hstage⟩) hmoved
    memory := by
      obtain ⟨stage, heffect, -⟩ := hmoved
      exact heffect.memory.trans hs.memory
    recorded := hrecorded }⟩

theorem Orderly.perform (hs : s.Orderly table journal) (hsound : table.Sound)
    (hrest : table.AtRest fun _ => []) (h : s.perform o = some s')
    (hbound : ∀ index, s'.returns index < UInt32.size) :
    ∃ news, s'.Orderly table (journal ++ news) := by
  rcases perform_cases h with
    ⟨answer, hstep, hsent, hreturns⟩ | ⟨hworkers, hreturns, hsent, hsender⟩
  · exact hs.work hsound hrest hstep hsent hreturns hbound
  · obtain ⟨workers, sent, returns⟩ := s'
    obtain rfl : workers = s.workers.happen o.change := hworkers
    refine ⟨[], ?_⟩
    rw [List.append_nil]
    exact {
      able := hs.able.occur o rfl
      dated := hs.dated.occur hs.able.steady o rfl hreturns
      closes := hs.closes.occur rfl hsender
      memory := hs.memory
      recorded := hs.recorded.occur rfl hsent hsender }

/-! ## Runs -/

/-- An occurrence gives a place back once at most. -/
theorem returns_of_perform (h : s.perform o = some s') (index : Nat) :
    s.returns index ≤ s'.returns index ∧ s'.returns index ≤ s.returns index + 1 := by
  rcases perform_cases h with ⟨-, -, -, hreturns⟩ | ⟨-, hreturns, -⟩ <;> rw [hreturns]
  · rw [returned, Workers.returned]
    split <;> omega
  · omega

theorem returns_of_run (h : s.run os = some s') (index : Nat) :
    s.returns index ≤ s'.returns index ∧ s'.returns index ≤ s.returns index + os.length := by
  induction os generalizing s with
  | nil => exact Option.some.inj h ▸ ⟨le_rfl, le_rfl⟩
  | cons o os ih =>
      obtain ⟨next, hnext, hrun⟩ := Option.bind_eq_some_iff.mp h
      obtain ⟨hle, hbound⟩ := returns_of_perform hnext index
      obtain ⟨hle', hbound'⟩ := ih hrun
      rw [List.length_cons]
      omega

/-- The journal of a run grows at its end. -/
theorem Orderly.run (hs : s.Orderly table journal) (hsound : table.Sound)
    (hrest : table.AtRest fun _ => []) (h : s.run os = some s')
    (hbound : ∀ index, s'.returns index < UInt32.size) :
    ∃ news, s'.Orderly table (journal ++ news) ∧
      ∀ earlier t, earlier <+: os → s.run earlier = some t →
        ∃ part, part <+: news ∧ t.Orderly table (journal ++ part) := by
  induction os generalizing s journal with
  | nil =>
      obtain rfl := Option.some.inj h
      refine ⟨[], by rwa [List.append_nil], fun earlier t hprefix ht => ⟨[], List.prefix_rfl, ?_⟩⟩
      obtain rfl := List.prefix_nil.mp hprefix
      obtain rfl := Option.some.inj ht
      rwa [List.append_nil]
  | cons o os ih =>
      obtain ⟨next, hnext, hrun⟩ := Option.bind_eq_some_iff.mp h
      have hnextBound : ∀ index, next.returns index < UInt32.size :=
        fun index => (returns_of_run hrun index).1.trans_lt (hbound index)
      obtain ⟨news, hafter⟩ := hs.perform hsound hrest hnext hnextBound
      obtain ⟨more, hlast, hall⟩ := ih hafter hrun
      refine ⟨news ++ more, List.append_assoc .. ▸ hlast, fun earlier t hprefix ht => ?_⟩
      cases earlier with
      | nil =>
          obtain rfl := Option.some.inj ht
          exact ⟨[], List.nil_prefix, by rwa [List.append_nil]⟩
      | cons first earlier =>
          obtain ⟨rfl, htail⟩ := List.cons_prefix_cons.mp hprefix
          obtain ⟨next', hnext', ht⟩ := Option.bind_eq_some_iff.mp ht
          obtain rfl := Option.some.inj (hnext.symm.trans hnext')
          obtain ⟨part, hpart, ht⟩ := hall earlier t htail ht
          exact ⟨news ++ part, (List.prefix_append_right_inj news).mpr hpart,
            List.append_assoc .. ▸ ht⟩

/-! ## What is known of a run -/

theorem slotAt_of_socketAt {e : Engine} (h : e.socketAt index = .stream stream) :
    ∃ slot, e.arena.slotAt index = some slot ∧ slot.socket = .stream stream := by
  rw [Engine.socketAt] at h
  cases hslot : e.arena.slotAt index with
  | none =>
      rw [hslot] at h
      contradiction
  | some slot =>
      rw [hslot] at h
      exact ⟨slot, rfl, h⟩

/-- A client loses its place only when it has ended what it sends and all of it was read. -/
theorem Orderly.hasFinished (hs : s.Orderly table journal) {answer : PollAnswer} {next : Workers}
    (hstep : s.workers.step 0 answer = some next) {slot : ConnectionSlot}
    (hslot : s.engine.arena.slotAt index = some slot) (hsocket : slot.socket = .stream stream)
    (hgone : next.engine.socketAt index ≠ .stream stream) : s.engine.HasFinished slot := by
  obtain ⟨stage, heffect, -⟩ := hs.able.steady.tenanted.moved_of_step hstep
  by_cases hequip : s.stage.equipped? = some index
  · rcases WorkerStage.eq_of_equipped hequip with ⟨i, other, hinstalling⟩ | ⟨after, hclosing⟩
    · have hclosed := hs.able.steady.tenanted.socket_of_installing hinstalling hslot
      rw [hsocket] at hclosed
      contradiction
    · obtain ⟨slot', hslot', hfinished⟩ := hs.closes index after hclosing
      exact Option.some.inj (hslot'.symm.trans hslot) ▸ hfinished
  · have hsame := heffect.socket hequip
    refine absurd ?_ hgone
    rw [Engine.socketAt, hsame]
    simp [hslot, hsocket]

/-- A worker that waits, and that no event can wake, has left nothing unread. -/
theorem Orderly.not_isOutstanding (hs : s.Orderly table journal) (hstage : s.stage = .polling)
    (hready : s.engine.network.ready = []) {slot : ConnectionSlot}
    (hslot : s.engine.arena.slotAt index = some slot) (hsocket : slot.socket = .stream stream)
    {peer : Peer} (hpeer : s.engine.network.peerAt stream = some peer) :
    peer.source.isOutstanding = false := by
  have hidle (w : Nat) : s.workers.stages w = .polling ∨ s.workers.stages w = .claiming := by
    by_cases hw : w = 0
    · exact .inl (hw ▸ hstage)
    · exact .inr (hs.able.steady.alone w hw)
  have hwatched := hs.able.steady.watches index slot stream hslot hsocket fun w => by
    rcases hidle w with h | h <;> simp [h, WorkerStage.prepared?]
  rw [← Bool.not_eq_true]
  intro houtstanding
  rcases hs.able.steady.attentive.attended _ stream peer hwatched hpeer houtstanding with
    ⟨event, hhas, -⟩ | ⟨w, hcloses⟩
  · refine hs.able.steady.tenanted.not_has hready (hs.able.polls.idle ?_) (fun w => ?_) event hhas
    · rw [hstage]
      rfl
    · rcases hidle w with h | h <;> simp [h, WorkerStage.holds, WorkerStage.carries]
  · rcases hidle w with h | h <;> simp [h, WorkerStage.closes?] at hcloses

theorem Orderly.answered (hs : s.Orderly table journal) (hsound : table.Sound)
    (hrest : table.AtRest fun _ => []) : s.Answered journal where
  read := hs.recorded.sent
  received := hs.recorded.received
  stored := congrFun hs.recorded.represents.lookup
  frees answer next index stream hstep hhas hgone := by
    obtain ⟨slot, hslot, hsocket⟩ := slotAt_of_socketAt hhas
    obtain ⟨other, peer, hother, hpeer, hended, hunread⟩ :=
      hs.hasFinished hstep hslot hsocket hgone
    obtain rfl := Socket.stream.inj (hsocket.symm.trans hother)
    refine ⟨by simp [isSending, hpeer, hended], ?_⟩
    rw [hs.recorded.sent, Network.unread, hpeer]
    simp [hunread]
  rests hstage hready index stream hhas := by
    obtain ⟨slot, hslot, hsocket⟩ := slotAt_of_socketAt hhas
    obtain ⟨peer, hpeer⟩ := Option.isSome_iff_exists.mp
      (hs.able.steady.civil.known stream (.placed index) ⟨slot, hslot, hsocket⟩)
    have hnothing := hs.not_isOutstanding hstage hready hslot hsocket hpeer
    rw [Source.isOutstanding, Bool.or_eq_false_iff, Bool.not_eq_false',
      List.isEmpty_iff] at hnothing
    refine ⟨by simp [isSending, hpeer, hnothing.2], ?_⟩
    rw [hs.recorded.sent, Network.unread, hpeer]
    simp [Source.unread, hnothing.1]
  proceeds hexited answer := by
    obtain ⟨next, hnext⟩ := hs.able.exists_step hs.recorded hsound hrest hs.memory hexited answer
    exact hnext ▸ rfl

end Shift

end KeyValueServer.Server
