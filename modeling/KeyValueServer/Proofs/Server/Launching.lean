import KeyValueServer.Proofs.Config.Limits
import KeyValueServer.Proofs.Server.Admission
import KeyValueServer.Proofs.Workers.Polling
import KeyValueServer.Server.Launch

/-!
# Launching a server

A configuration is checked once, before anything is made of it. The parts that are then made keep
their sizes, whatever the workers do and whatever becomes of the network. So what was checked goes
on to hold: no step of a server finds a place without a ring, or an empty ring or queue too small
for what it is meant to take.
-/

namespace KeyValueServer.Server

/-! ## What a worker leaves as it is -/

namespace Engine

variable {e e' : Engine} {places cells index : Nat}

theorem fitted_route (he : e.arena.Fitted places cells) (event : Event) :
    (e.route event).2.arena.Fitted places cells := by
  unfold Engine.route
  split
  · exact he
  · split
    · exact he
    · split
      · exact he
      · split
        · exact he
        next hpush => exact he.push hpush
        next hpush =>
          have hpushed := he.push hpush
          split
          · exact hpushed.modify _ fun _ hslot => hslot
          · exact hpushed

theorem fitted_takeEvent (he : e.arena.Fitted places cells) (index : Nat) :
    (e.takeEvent index).2.arena.Fitted places cells := by
  unfold Engine.takeEvent
  split
  · exact he
  · split
    · exact he
    · split
      · exact he
      next hpop => exact he.pop hpop
      next hpop => exact (he.pop hpop).modify _ fun _ hslot => hslot

theorem fitted_of_readOnce (he : e.arena.Fitted places cells) {worker : Worker}
    {outcome : ReadOutcome} (h : e.readOnce worker index = some (outcome, e')) :
    e'.arena.Fitted places cells := by
  unfold Engine.readOnce at h
  split at h
  · split at h
    · obtain ⟨-, rfl⟩ := Prod.mk.inj (Option.some.inj h)
      exact he
    · obtain ⟨turn, -, heq⟩ := Option.map_eq_some_iff.mp h
      obtain ⟨-, rfl⟩ := Prod.mk.inj heq
      exact he
  · obtain ⟨-, rfl⟩ := Prod.mk.inj (Option.some.inj h)
    exact he

theorem fitted_acceptOnce (he : e.arena.Fitted places cells) :
    e.acceptOnce.2.arena.Fitted places cells := by
  unfold Engine.acceptOnce
  split
  · split <;> exact he
  · exact he

theorem fitted_reserve (he : e.arena.Fitted places cells) (stream : StreamId) :
    (e.reserve stream).2.arena.Fitted places cells := by
  unfold Engine.reserve
  split
  · exact he
  next hallocate => exact he.allocate hallocate

theorem fitted_activate (he : e.arena.Fitted places cells) (index : Nat) :
    (e.activate index).2.arena.Fitted places cells := by
  have hactivate := he.activate index .message
  unfold Engine.activate
  split
  next hresult =>
    rw [hresult] at hactivate
    exact hactivate
  next hresult =>
    rw [hresult] at hactivate
    exact hactivate

theorem fitted_of_register (he : e.arena.Fitted places cells) {token : ConnectionToken}
    (h : e.register index token = some e') : e'.arena.Fitted places cells := by
  obtain ⟨_, _, -, rfl⟩ := exists_watch_of_register h
  exact he

end Engine

namespace Workers

variable {s s' : Workers} {places cells worker : Nat} {answer : PollAnswer}

theorem fitted_of_step (hs : s.engine.arena.Fitted places cells)
    (h : s.step worker answer = some s') : s'.engine.arena.Fitted places cells := by
  rw [step] at h
  generalize s.stages worker = stage at h
  cases stage with
  | claiming =>
      dsimp only at h
      split at h
      · exact Option.some.inj h ▸ hs
      · contradiction
  | routing =>
      dsimp only at h
      split at h <;> exact Option.some.inj h ▸ hs
  | placing event =>
      dsimp only at h
      have hroute := Engine.fitted_route hs event
      split at h <;> next heq =>
        rw [heq] at hroute
        exact Option.some.inj h ▸ hroute
  | taking index =>
      obtain rfl := Option.some.inj h
      have htake := Engine.fitted_takeEvent hs index
      rw [takeStep]
      split <;> next heq =>
        rw [heq] at htake
        exact htake
  | opening index event =>
      dsimp only at h
      split at h
      · exact Option.some.inj h ▸ hs
      · contradiction
  | reading index event =>
      obtain ⟨⟨outcome, e⟩, hread, rfl⟩ := Option.map_eq_some_iff.mp h
      have he := Engine.fitted_of_readOnce hs hread
      cases outcome <;> exact he
  | accepting index =>
      dsimp only at h
      split at h
      · obtain rfl := Option.some.inj h
        have haccept := Engine.fitted_acceptOnce hs
        rw [acceptStep]
        split <;> next heq =>
          rw [heq] at haccept
          exact haccept
      · contradiction
  | reserving index stream =>
      dsimp only at h
      have hreserve := Engine.fitted_reserve hs stream
      split at h <;> next heq =>
        rw [heq] at hreserve
        exact Option.some.inj h ▸ hreserve
  | installing index place stream =>
      dsimp only at h
      split at h
      · exact Option.some.inj h ▸ hs.setSocket place (.stream stream)
      · contradiction
  | activating index place =>
      dsimp only at h
      have hactivate := Engine.fitted_activate hs place
      split at h <;> next heq =>
        rw [heq] at hactivate
        exact Option.some.inj h ▸ hactivate
  | registering index place token =>
      dsimp only at h
      split at h
      · split at h
        · exact Option.some.inj h ▸ hs
        next hregister => exact Option.some.inj h ▸ Engine.fitted_of_register hs hregister
      · contradiction
  | closing index next =>
      dsimp only at h
      split at h
      · exact Option.some.inj h ▸ hs.setSocket index .closed
      · contradiction
  | retiring index next => exact Option.some.inj h ▸ hs.retire index
  | recycling index next => exact Option.some.inj h ▸ hs.recycle index
  | parking => exact Option.some.inj h ▸ hs
  | polling =>
      obtain rfl := Option.some.inj h
      cases answer <;> exact hs
  | queueing batch =>
      dsimp only at h
      split at h
      · split at h <;> exact Option.some.inj h ▸ hs
      · contradiction
  | waking count => exact Option.some.inj h ▸ hs
  | sleeping =>
      obtain ⟨waiter, -, rfl⟩ := Option.map_eq_some_iff.mp h
      exact hs
  | leaving continues => exact Option.some.inj h ▸ hs
  | exited => contradiction

end Workers

/-! ## Servers at work -/

section Launch

variable {c : Config} {memory : Allocator} {table : Table} {network : Network} {e : Engine}

theorem Engine.fitted_of_new (h : Engine.new c memory table network = .ok e) :
    e.arena.Fitted c.maxConnections.toNat c.connectionQueueCapacity.toNat := by
  have hpool := (Arena.fitted_new c.maxConnections.toNat c.connectionQueueCapacity.toNat).install
    Arena.listenerIndex .listener .listener
  unfold Engine.new at h
  split at h
  · contradiction
  · dsimp only at h
    split at h
    · contradiction
    next hinstall =>
      split at h
      · contradiction
      · rw [hinstall] at hpool
        exact Except.ok.inj h ▸ hpool

theorem Engine.exists_new (hc : c.Suffices) (memory : Allocator) (table : Table)
    (network : Network) : ∃ e, Engine.new c memory table network = .ok e := by
  obtain ⟨w, hwaiter, -⟩ := hc.waiter
  obtain ⟨token, a, hinstall, -⟩ := hc.pool
  simp only [Engine.new, hwaiter, hinstall, Network.watch, Bool.false_eq_true, if_false]
  exact ⟨_, rfl⟩

theorem exists_launch (h : c.validate = .ok ()) (network : Network)
    (hmemory : memory.Grants c.slotBits.toNat c.maxShards.toNat) :
    ∃ e, launch c memory network = .ok e := by
  have hc := Config.suffices_of_validate h
  obtain ⟨-, table, htable⟩ | ⟨hshort, -⟩ := hc.table memory fingerprint
  · obtain ⟨e, hnew⟩ := Engine.exists_new hc memory table network
    exact ⟨e, by simp only [launch, h, htable, hnew]⟩
  · exact absurd hmemory hshort

theorem exists_new_of_launch (h : launch c memory network = .ok e) :
    ∃ table, Engine.new c memory table network = .ok e := by
  unfold launch at h
  split at h
  · contradiction
  · split at h
    · contradiction
    next table _ => exact ⟨table, h⟩

end Launch

theorem Duty.comesFrom {w w' : Waiter} {worker cells : Nat} {before after : WorkerStage}
    (h : Duty w worker before w' after) (hw : w.queue.ComesFrom cells) :
    w'.queue.ComesFrom cells := by
  cases h with
  | dequeue hqueue =>
      obtain ⟨⟨event, queue⟩, hpop, heq⟩ := Option.map_eq_some_iff.mp hqueue
      obtain ⟨rfl, rfl⟩ := Prod.mk.inj heq
      exact hw.pop hpop
  | answer hcall =>
      obtain ⟨called, rfl⟩ := exists_called_of_answerCall hcall
      exact hw
  | enqueue hroom =>
      obtain ⟨queue, hextend, rfl⟩ := Option.map_eq_some_iff.mp hroom
      exact hw.extend hextend
  | _ => exact hw

namespace Workers

variable {c : Config} {memory : Allocator} {table : Table} {network : Network} {e : Engine}
  {mayAnswer : PollAnswer → Prop} {mayBecome : Network → Network → Prop} {s s' : Workers}
  {workers worker : Nat} {answer : PollAnswer}

/-- What was made with the sizes of a configuration still has them, and no worker has polled more
than a batch. -/
structure Equipped (s : Workers) (c : Config) : Prop where
  pool : s.engine.arena.Fitted c.maxConnections.toNat c.connectionQueueCapacity.toNat
  queue : s.engine.waiter.queue.ComesFrom c.eventQueueCapacity.toNat
  limit : s.engine.waiter.batchLimit = c.pollBatch.toNat
  polled : ∀ w batch, s.stages w = .queueing batch → batch.length ≤ c.pollBatch.toNat

theorem equipped_of_new (hnew : Engine.new c memory table network = .ok e) :
    (beginning e).Equipped c := by
  obtain ⟨queue, hqueue, hwaiter⟩ := Waiter.eq_of_new (waiter_of_new hnew)
  exact {
    pool := Engine.fitted_of_new hnew
    queue := .of_new? (by simpa [beginning, hwaiter] using hqueue)
    limit := by simp [beginning, hwaiter]
    polled := fun _ _ hstage => by cases hstage }

theorem Equipped.step (hs : s.Equipped c) (h : s.step worker answer = some s') :
    s'.Equipped c := by
  obtain ⟨after, hduty, hstages, -⟩ := dutied_of_step h
  have hlimit := hduty.setup.1.trans hs.limit
  have hafter : s'.stages worker = after := by rw [hstages, turn_self]
  exact {
    pool := fitted_of_step hs.pool h
    queue := hduty.comesFrom hs.queue
    limit := hlimit
    polled := by
      intro w batch hstage
      by_cases hw : w = worker
      · subst hw
        -- a poll is limited by the waiter, whose limit is the one that was configured
        rw [← hlimit]
        refine hduty.length_batch_le (fun batch hbefore => ?_) (hafter.symm.trans hstage)
        rw [hs.limit]
        exact hs.polled w batch hbefore
      · rw [hstages, turn_of_ne _ hw] at hstage
        exact hs.polled w batch hstage }

theorem Equipped.next (hs : s.Equipped c) (h : s.Next workers mayAnswer s') : s'.Equipped c := by
  cases h with
  | work _ _ hstep => exact hs.step hstep
  | happen change => exact ⟨hs.pool, hs.queue, hs.limit, hs.polled⟩

theorem Staffed.equipped (hnew : Engine.new c memory table network = .ok e)
    (hs : Staffed e mayAnswer s) : s.Equipped c := by
  induction hs with
  | refl => exact equipped_of_new hnew
  | tail _ hnext ih => exact ih.next hnext

/-- What workers need of a server, whatever they have done before. -/
structure Accommodates (s : Workers) (c : Config) : Prop where
  /-- A socket can be installed in each place. -/
  installs : ∀ index < c.maxConnections.toNat, ∀ role socket,
    ∃ token, (s.engine.arena.install index role socket).1 = .ok token
  /-- Each place has a ring or gets one, and the ring takes an event if it is empty. -/
  rings : ∀ index < c.maxConnections.toNat,
    ∃ ring a, s.engine.arena.ringAt index = .ok (ring, a) ∧
      (ring.isEmpty = true → ∀ event, ∃ a', s.engine.arena.push index event = .ok (true, a'))
  /-- The shared queue takes a batch if it is empty. -/
  batch : s.engine.waiter.queue.isEmpty = true → ∀ events : List Event,
    events.length ≤ c.pollBatch.toNat → ∃ w, s.engine.waiter.enqueue? events = some w
  /-- What a worker has polled is no more than a batch. -/
  polled : ∀ w batch, s.stages w = .queueing batch → batch.length ≤ c.pollBatch.toNat

theorem Equipped.accommodates (hs : s.Equipped c) (hc : c.Suffices) : s.Accommodates c := by
  have hcells := EventRing.exists_new?_iff.mp hc.ring
  exact {
    installs := by
      intro index hindex role socket
      obtain ⟨token, next, hinstall⟩ := Arena.install_eq_ok (hs.pool.room ▸ hcells)
        (hs.pool.size ▸ hindex) role socket
      exact ⟨token, by rw [hinstall]⟩
    rings := by
      intro index hindex
      obtain ⟨ring, a, hring⟩ := hs.pool.exists_ringAt hcells hindex
      exact ⟨ring, a, hring, hs.pool.exists_push hring⟩
    batch := by
      intro hempty events hlength
      obtain ⟨queue, hextend⟩ := hc.batch hs.queue hempty events hlength
      exact ⟨_, by rw [Waiter.enqueue?, hextend]; rfl⟩
    polled := hs.polled }

/-- The places in use can be counted, and there are fewer of them than places. This takes more than
the sizes of a pool: each place is in the line once at most. -/
theorem Reachable.exists_connections (hnew : Engine.new c memory table network = .ok e)
    (h : Reachable e mayBecome Timely s) :
    ∃ taken < c.maxConnections.toNat, s.engine.connections? = some taken := by
  have hsize := (h.capacity hnew).trans (Engine.capacity_of_new hnew)
  obtain ⟨-, hplaces, -⟩ := Engine.new_eq_ok hnew
  have hlends := (h.tenanted hnew).lends (hsize ▸ hplaces)
  have hlength := hlends.length_eq
  exact ⟨_, by omega, hlends.inUse?_eq⟩

end Workers

end KeyValueServer.Server

namespace KeyValueServer.Config

open Server

/-- What is checked is what the parts of a server ask for. Of a configuration that is accepted a
server can be launched wherever there is memory for its table, and its workers never come to want
anything that was checked. A table or a batch beyond its limits is refused both when it is checked
and when it is to be made. -/
theorem validate_agrees_with_parts (c : Config) :
    (c.validate = .ok () ↔ c.Suffices) ∧
    (c.validate = .ok () → ∀ (memory : Allocator) (network : Network),
      memory.Grants c.slotBits.toNat c.maxShards.toNat →
        ∃ e, launch c memory network = .ok e ∧
          (∀ mayAnswer s, Workers.Staffed e mayAnswer s → s.Accommodates c) ∧
          ∀ mayBecome s, Workers.Reachable e mayBecome Workers.Timely s →
            ∃ taken < c.maxConnections.toNat, s.engine.connections? = some taken) ∧
    (¬(1 ≤ c.slotBits.toNat ∧ c.slotBits.toNat ≤ 28) ∨ c.maxShards.toNat = 0 →
      (∃ fault, c.validate = .error fault ∧ c.Breaks fault) ∧
      ∀ memory hash, Table.new memory hash c.slotBits.toNat c.maxShards.toNat =
        .error (.invalidArgument (if 1 ≤ c.slotBits.toNat ∧ c.slotBits.toNat ≤ 28 then .noShards
          else .slotBitsOutOfRange))) ∧
    (c.pollBatch.toNat = 0 ∨ c.eventQueueCapacity.toNat ≤ c.pollBatch.toNat →
      (∃ fault, c.validate = .error fault ∧ c.Breaks fault) ∧
      Waiter.new c.eventQueueCapacity.toNat c.pollBatch.toNat c.threads.toNat =
        .error (.invalidArgument .batchNotBelowQueue)) := by
  refine ⟨validate_eq_ok_iff, fun hvalid memory network hmemory => ?_, fun hlimits => ?_,
    fun hbatch => ?_⟩
  · obtain ⟨e, hlaunch⟩ := exists_launch hvalid network hmemory
    obtain ⟨table, hnew⟩ := exists_new_of_launch hlaunch
    have hc := suffices_of_validate hvalid
    exact ⟨e, hlaunch, fun mayAnswer s hs => (hs.equipped hnew).accommodates hc,
      fun mayBecome s hs => hs.exists_connections hnew⟩
  · refine ⟨?_, fun memory hash => Table.new_eq_invalidArgument hlimits⟩
    rcases hlimits with hbits | hshards
    · exact exists_validate_eq_error (show c.Breaks .slotBits from hbits)
    · exact exists_validate_eq_error (show c.Breaks .noShards from hshards)
  · exact ⟨exists_validate_eq_error (show c.Breaks .pollBatch from hbatch),
      Waiter.new_eq_error hbatch⟩

/-- Every number is the smallest that is accepted. -/
def tightest : Config :=
  { default with
    threads := 1
    slotBits := 1
    maxShards := 1
    maxConnections := 2
    eventQueueCapacity := 2
    connectionQueueCapacity := 2
    pollBatch := 1 }

/-- A client connects and is taken in. -/
def oneGuest : List Occurrence := .connect :: List.replicate 16 (.work 0 (.events 1))

/-- The server can be launched, and takes in the one client for whom it has a place. With one slot
bit less, or a batch of one event more, it is refused beforehand, and so are its table and its
waiter. -/
theorem validate_agrees_with_parts_of_tightest :
    tightest.validate = .ok () ∧ tightest.Suffices ∧
    (∃ e s, launch tightest unlimited (.idle true) = .ok e ∧
      (Workers.beginning e).run oneGuest = some s ∧ s.Accommodates tightest ∧
      s.engine.arena.allocate = none ∧ s.engine.connections? = some 1 ∧
      1 < tightest.maxConnections.toNat) ∧
    (∃ fault, validate { tightest with slotBits := 0 } = .error fault) ∧
    Table.new unlimited fingerprint 0 1 = .error (.invalidArgument .slotBitsOutOfRange) ∧
    (∃ fault, validate { tightest with pollBatch := 2 } = .error fault) ∧
    Waiter.new 2 2 1 = .error (.invalidArgument .batchNotBelowQueue) := by
  have hvalid : tightest.validate = .ok () := by decide
  obtain ⟨hsuffices, hlaunches, -, -⟩ := validate_agrees_with_parts tightest
  obtain ⟨e, hlaunch, hworks, hcounts⟩ := hlaunches hvalid unlimited (.idle true) ⟨rfl, rfl⟩
  obtain ⟨⟨fault, hbits, -⟩, htable⟩ :=
    (validate_agrees_with_parts { tightest with slotBits := 0 }).2.2.1 (.inl (by decide))
  obtain ⟨⟨fault', hbatch, -⟩, hwaiter⟩ :=
    (validate_agrees_with_parts { tightest with pollBatch := 2 }).2.2.2 (.inr (by decide))
  have hrun : ((launch tightest unlimited (.idle true)).toOption.bind fun e =>
      ((Workers.beginning e).run oneGuest).map fun s =>
        (s.engine.arena.free, s.engine.connections?)) = some ([], some 1) := rfl
  rw [hlaunch] at hrun
  obtain ⟨s, hs, hfound⟩ := Option.map_eq_some_iff.mp hrun
  obtain ⟨hfree, hcount⟩ := Prod.mk.inj hfound
  obtain ⟨table, hnew⟩ := exists_new_of_launch hlaunch
  have hcrew : e.waiter.workers = 1 := Workers.workers_of_new hnew
  have hstaffed : Workers.Staffed e (fun _ => True) s := by
    refine .run .refl (fun worker answer hmem => ⟨?_, trivial⟩) hs
    rw [hcrew]
    simp only [oneGuest, List.mem_cons, List.mem_replicate, reduceCtorEq, Occurrence.work.injEq,
      false_or] at hmem
    omega
  have hreach : Workers.Reachable e (fun _ _ => True) Workers.Timely s :=
    .of_run hnew (by decide) rfl rfl (fun _ _ => trivial) hs (by decide)
  obtain ⟨taken, hlt, htaken⟩ := hcounts _ s hreach
  obtain rfl : taken = 1 := Option.some.inj (htaken.symm.trans hcount)
  refine ⟨hvalid, hsuffices.mp hvalid, ⟨e, s, hlaunch, hs, hworks _ s hstaffed, ?_, htaken, hlt⟩,
    ⟨fault, hbits⟩, htable unlimited fingerprint, ⟨fault', hbatch⟩, hwaiter⟩
  rw [Arena.allocate, hfree]

end KeyValueServer.Config
