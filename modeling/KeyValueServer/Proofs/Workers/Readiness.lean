import KeyValueServer.Proofs.Store.Lookup
import KeyValueServer.Proofs.Workers.Punctual

/-!
# No readiness is lost

In whatever way the workers and the network take turns, a connection that has something to read is
looked after. An event that is dropped because a ring is full does no harm: the ring holds another
one under the same token.
-/

namespace KeyValueServer.Server

/-! ## What happens outside, and the beginning -/

/-- What the poller delivers is looked after. -/
theorem Attentive.of_delivers {s : Workers} {network : Network} (ha : Attentive s)
    (h : s.engine.network.Delivers network) : Attentive (s.happen fun _ => network) where
  small := ha.small
  queue := ha.queue
  prompt := h.prompt ha.prompt
  telling event hhas := by
    cases hhas with
    | ready hready => exact h.telling (fun e he => ha.telling e (.ready he)) event hready
    | queued hqueued => exact ha.telling event (.queued hqueued)
    | carried w hcarries => exact ha.telling event (.carried w hcarries)
    | placed index slot hslot hevent => exact ha.telling event (.placed index slot hslot hevent)
    | taken w index htaken => exact ha.telling event (.taken w index htaken)
  current := ha.current
  named := ha.named
  watched token socket hentry := ha.watched token socket (h.watched ▸ hentry)
  unwatched w place token socket hprepared hentry :=
    ha.unwatched w place token socket hprepared (h.watched ▸ hentry)
  attended token stream peer hentry hpeer houtstanding := by
    have hentry' : (token, .stream stream) ∈ s.engine.network.watched := h.watched ▸ hentry
    rcases h.reported stream peer hpeer houtstanding with ⟨earlier, hearlier, hsame⟩ | hreported
    · rcases ha.attended token stream earlier hentry' hearlier (hsame ▸ houtstanding) with
        ⟨event, hhas, htoken⟩ | hcloses
      · cases hhas with
        | ready hready =>
            obtain ⟨later, hlater, hsame⟩ := h.kept event hready
            exact .inl ⟨later, .ready hlater, hsame.trans htoken⟩
        | queued hqueued => exact .inl ⟨event, .queued hqueued, htoken⟩
        | carried w hcarries => exact .inl ⟨event, .carried w hcarries, htoken⟩
        | placed index slot hslot hevent =>
            exact .inl ⟨event, .placed index slot hslot hevent, htoken⟩
        | taken w index htaken => exact .inl ⟨event, .taken w index htaken, htoken⟩
      · exact .inr hcloses
    · obtain ⟨event, hevent, htoken⟩ := hreported token hentry'
      exact .inl ⟨event, .ready hevent, htoken⟩

variable {c : Config} {memory : Allocator} {table : Table} {network : Network} {engine : Engine}

/-- In the beginning there is only the listener to look after. -/
theorem attentive_of_new (hnew : Engine.new c memory table network = .ok engine)
    (hplaces : c.maxConnections.toNat ≤ UInt32.size) (hwatched : network.watched = [])
    (hready : network.ready = []) (hprompt : network.IsPrompt) :
    Attentive (Workers.beginning engine) := by
  obtain ⟨-, -, -, hwaiter, hwatch, -, -⟩ := Engine.new_eq_ok hnew
  have hentries := Engine.watched_of_new hnew hwatched
  have hpeers : engine.network.peers = network.peers := by rw [Network.watch_eq_ok hwatch]
  exact {
    small := (Engine.capacity_of_new hnew).trans_le hplaces
    queue := (queue_of_new hwaiter).1
    prompt := fun stream peer hpeer => hprompt stream peer (by
      rw [Network.peerAt, ← hpeers]
      exact hpeer)
    telling := fun event hhas => (Workers.has_of_new hnew hready hhas).2
    current := fun index slot event hslot hsome => by
      rcases hsome with hmem | ⟨w, htaken⟩
      · rw [(tenanted_of_new hnew).events_eq_nil (fun _ => rfl) hslot] at hmem
        contradiction
      · contradiction
    named := fun w index place token slot hstage => by contradiction
    watched := fun token socket hentry => by
      rw [Workers.beginning, hentries] at hentry
      obtain ⟨rfl, rfl⟩ := Prod.mk.inj (List.mem_singleton.mp hentry)
      obtain ⟨slot, hslot, -, hsocket⟩ := Engine.listener_of_new hnew
      exact ⟨by simp, slot, hslot, (Engine.slotAt_of_new hnew hslot).1, hsocket⟩
    unwatched := fun w place token socket hprepared => by contradiction
    attended := fun token stream peer hentry => by
      rw [Workers.beginning, hentries] at hentry
      exact absurd (Prod.mk.inj (List.mem_singleton.mp hentry)).2 (by simp) }

namespace Workers

variable {s : Workers}

theorem Reachable.attentive (hnew : Engine.new c memory table network = .ok engine)
    (hplaces : c.maxConnections.toNat ≤ UInt32.size) (hwatched : network.watched = [])
    (hready : network.ready = []) (hprompt : network.IsPrompt)
    (h : Reachable engine Network.Delivers Timely s) : Attentive s := by
  induction h with
  | beginning => exact attentive_of_new hnew hplaces hwatched hready hprompt
  | work hs hstep _ ih =>
      have htenanted := hs.tenanted hnew
      exact ih.of_moved (htenanted.moved_of_step hstep) htenanted
  | happen _ hbecomes _ ih => exact ih.of_delivers hbecomes

/-- A connection that is watched and has something to read is looked after: an event under its token
is ready, in a polled batch, in the shared queue, in the hands of the worker that places it, in the
ring of the connection, or in the hands of a worker that serves it, or a worker is about to close
the connection on account of one. Places are named by 32 bits. -/
theorem Reachable.readiness_kept (hnew : Engine.new c memory table network = .ok engine)
    (hplaces : c.maxConnections.toNat ≤ UInt32.size) (hwatched : network.watched = [])
    (hready : network.ready = []) (hprompt : network.IsPrompt)
    (h : Reachable engine Network.Delivers Timely s) {index : Nat} {slot : ConnectionSlot}
    {stream : StreamId} {peer : Peer} (hslot : s.engine.arena.slotAt index = some slot)
    (hwatches : (ConnectionToken.encode index slot.generation, .stream stream) ∈
      s.engine.network.watched)
    (hpeer : s.engine.network.peerAt stream = some peer)
    (hunread : peer.source.isOutstanding = true) :
    (∃ event, event.token = ConnectionToken.encode index slot.generation ∧
      (s.IsUnderway event ∨ event ∈ slot.events ∨
        ∃ worker, (s.stages worker).taken? = some (index, event))) ∨
      ∃ worker, s.stages worker = .closing index .claiming := by
  have ha := h.attentive hnew hplaces hwatched hready hprompt
  have hs := h.tenanted hnew
  have hindex : index < UInt32.size := Nat.lt_of_lt_of_le (Arena.slotAt_lt hslot) ha.small
  have htoken := ConnectionToken.index_encode hindex slot.generation
  rcases ha.attended _ stream peer hwatches hpeer hunread with ⟨event, hhas, hsame⟩ | ⟨w, hcloses⟩
  · rw [← hsame] at htoken
    refine .inl ⟨event, hsame, ?_⟩
    cases hhas with
    | ready hmem => exact .inl (.inl hmem)
    | queued hmem => exact .inl (.inr (.inl hmem))
    | carried w hmem => exact .inl (.inr (.inr ⟨w, hmem⟩))
    | placed other old hold hmem =>
        obtain rfl := htoken.symm.trans (ha.current other old event hold (.inl hmem)).1
        obtain rfl := Option.some.inj (hslot.symm.trans hold)
        exact .inr (.inl hmem)
    | taken w other htaken =>
        obtain ⟨-, old, hold, -⟩ := hs.of_mem_holds (WorkerStage.mem_holds_of_taken htaken)
        obtain rfl := htoken.symm.trans (ha.current other old event hold (.inr ⟨w, htaken⟩)).1
        exact .inr (.inr ⟨w, htaken⟩)
  · rw [htoken] at hcloses
    exact .inr ⟨w, WorkerStage.eq_of_closes hcloses⟩

/-- A pool of two places whose rings have room for one event. -/
def narrowConfig : Config :=
  { Config.default with
    threads := 2
    maxConnections := 2
    eventQueueCapacity := 4
    connectionQueueCapacity := 2
    pollBatch := 2 }

/-- A client is taken in by the first worker and claimed by the second when it first sends. What it
sends then is reported to the first worker, which queues one event and finds no room for another. -/
def threeReports : List Occurrence :=
  [.connect] ++ List.replicate 18 (.work 0 (.events 2)) ++
    [.send 0 [1]] ++ List.replicate 11 (.work 1 (.events 2)) ++
    [.send 0 [2]] ++ List.replicate 10 (.work 0 (.events 2)) ++
    [.send 0 [3]] ++ List.replicate 9 (.work 0 (.events 2))

set_option maxRecDepth 1000 in
/-- The last event was dropped, no event is ready or in the shared queue, and the client is looked
after. -/
theorem readiness_kept_of_threeReports :
    ∃ table engine s slot ring peer, Table.new unlimited (fun _ => 0) 1 1 = .ok table ∧
      Engine.new narrowConfig unlimited table (.idle true) = .ok engine ∧
      (beginning engine).run threeReports = some s ∧
      s.engine.network.ready = [] ∧ s.engine.waiter.queue.length = 0 ∧
      s.engine.arena.slotAt 1 = some slot ∧ slot.ring = some ring ∧ ring.free = 0 ∧
      s.engine.network.peerAt 0 = some peer ∧ peer.source.steps = [.data [1, 2, 3]] ∧
      ((∃ event, event.token = ConnectionToken.encode 1 slot.generation ∧
        (s.IsUnderway event ∨ event ∈ slot.events ∨
          ∃ worker, (s.stages worker).taken? = some (1, event))) ∨
        ∃ worker, s.stages worker = .closing 1 .claiming) := by
  obtain ⟨table, htable⟩ := Table.new_unlimited (fun _ => 0) 1 1 (by decide) (by decide) (by decide)
  have hrun : ((Engine.new narrowConfig unlimited table (.idle true)).toOption.bind fun engine =>
      ((beginning engine).run threeReports).bind fun s =>
        (s.engine.arena.slotAt 1).bind fun slot => slot.ring.bind fun ring =>
          (s.engine.network.peerAt 0).map fun peer =>
            (s.engine.network.ready, s.engine.waiter.queue.length, ring.free, peer.source.steps,
              decide ((ConnectionToken.encode 1 slot.generation, Socket.stream 0) ∈
                s.engine.network.watched))) = some ([], 0, 0, [.data [1, 2, 3]], true) := by
    rw [Table.eq_of_new htable]
    decide
  simp only [Option.bind_eq_some_iff, Option.map_eq_some_iff, Prod.mk.injEq, decide_eq_true_eq]
    at hrun
  obtain ⟨engine, hsome, s, hs, slot, hslot, ring, hring, peer, hpeer, hready, hqueue, hfull,
    hsteps, hwatches⟩ := hrun
  have hengine := Engine.new_of_toOption hsome
  have hreach : Reachable engine Network.Delivers Timely s :=
    Reachable.of_run hengine (by decide) rfl rfl Occurrence.delivers_change hs (by decide)
  have hunread : peer.source.isOutstanding = true := by simp [Source.isOutstanding, hsteps]
  exact ⟨table, engine, s, slot, ring, peer, htable, hengine, hs, hready, hqueue, hslot, hring,
    hfull, hpeer, hsteps, hreach.readiness_kept hengine (by decide) rfl rfl
      (fun stream peer hpeer => by simp [Network.peerAt, Network.idle] at hpeer)
      hslot hwatches hpeer hunread⟩

end Workers

end KeyValueServer.Server
