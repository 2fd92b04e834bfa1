import KeyValueServer.Proofs.Server.Handling

/-!
# A worker on its own comes to an end

Whatever is in the shared queue, and whatever the clients have sent, a worker on its own handles
each event that the queue holds and then stops. By then no connection is being served, no event
waits anywhere, and exactly those places are handed out whose clients may be heard again.
-/

namespace KeyValueServer

/-- The places of the clients that nobody serves. -/
def Arena.waitingClients (a : Arena) : List Nat :=
  (List.range a.capacity).filter fun index =>
    (a.slotAt index).any fun slot => slot.role = .message ∧ slot.phase = .waiting

theorem Arena.mem_waitingClients {a : Arena} {index : Nat} :
    index ∈ a.waitingClients ↔
      ∃ slot, a.slotAt index = some slot ∧ slot.role = .message ∧ slot.phase = .waiting := by
  rw [waitingClients, List.mem_filter, List.mem_range, Option.any_eq_true]
  simp only [decide_eq_true_eq]
  exact and_iff_right_of_imp fun ⟨slot, hslot, _⟩ => slotAt_lt hslot

namespace Server

/-- Where no worker has a place, the places that are handed out are those of the clients that nobody
serves. -/
theorem lends_waitingClients {a : Arena} (hs : Tenanted a fun _ => .claiming)
    (hnonempty : 1 ≤ a.capacity) : a.Lends a.waitingClients := by
  have hnodup : a.waitingClients.Nodup := List.nodup_range.filter _
  refine (hs.lends hnonempty).perm ((List.perm_ext_iff_of_nodup a.nodup_takenPlaces hnodup).mpr
    fun index => ?_)
  rw [hs.mem_takenPlaces, Arena.mem_waitingClients]
  constructor
  · rintro ⟨hindex, ⟨slot, hslot, hused⟩ | ⟨worker, tenure, hheld⟩⟩
    · obtain ⟨-, hfits⟩ | ⟨-, hfits⟩ := hs.line_or_nobody hslot
      · exact absurd hfits.phase hused
      · have hopen := hfits.suits
        rw [Keeper.Suits, ConnectionSlot.IsOpen, if_neg hindex] at hopen
        exact ⟨slot, hslot, hopen.1, hfits.phase⟩
    · simp [WorkerStage.holds] at hheld
  · rintro ⟨slot, hslot, hrole, hphase⟩
    refine ⟨?_, .inl ⟨slot, hslot, by simp [hphase]⟩⟩
    rintro rfl
    obtain ⟨-, hfits⟩ | ⟨-, hfits⟩ := hs.line_or_nobody hslot
    · exact hfits.suits.1 rfl
    · have hopen := hfits.suits
      simp only [Keeper.Suits, ConnectionSlot.IsOpen, if_true, hrole] at hopen
      exact ConnectionRole.noConfusion hopen.1

theorem dequeue_of_cons {event : Event} {w : Waiter} (hw : w.queue.Sound) {events : List Event}
    (h : w.queue.toList = event :: events) :
    ∃ w', w.dequeue? = some (event, w') ∧ w'.queue.Sound ∧ w'.queue.toList = events := by
  obtain ⟨-, hnil⟩ | ⟨oldest, queue, hpop, hsound, hcons⟩ := hw.pop?_cases
  · rw [h] at hnil
    contradiction
  · obtain ⟨rfl, rfl⟩ := List.cons.inj (h.symm.trans hcons)
    exact ⟨{ w with queue }, by rw [Waiter.dequeue?, hpop, Option.map_some], hsound, rfl⟩

namespace Engine

/-- What an engine has come to when its only worker is about to serve: the worker may have served
before, and meanwhile anything may have been queued and have happened in the network. -/
inductive Resting : Engine → Prop
  | opened {c : Config} {memory memory' : Allocator} {hash : Bytes → UInt64}
      {slotBits maxShards : Nat} {table : Table} {network : Network} {e : Engine}
      (htable : Table.new memory' hash slotBits maxShards = .ok table)
      (hnew : new c memory table network = .ok e) : Resting e
  | meanwhile {e : Engine} (he : Resting e) (waiter : Waiter) (network : Network)
      (hqueue : waiter.queue.Sound) : Resting { e with waiter, network }
  | served {e e' : Engine} {worker : Worker} (he : Resting e) (h : e.process worker = some e') :
      Resting e'

/-- An engine whose worker has nothing more to do. -/
structure IsDone (e : Engine) : Prop where
  /-- No event is queued, neither for all workers nor at a place. -/
  queue : e.waiter.queue.isEmpty = true
  rings : ∀ index slot ring, e.arena.slotAt index = some slot → slot.ring = some ring →
    ring.isEmpty = true
  /-- No place is being served. -/
  idle : ∀ index slot, e.arena.slotAt index = some slot → slot.phase ≠ .running
  /-- The places that are handed out are those of the clients that wait. -/
  count : e.connections? = some e.arena.waitingClients.length

variable {e : Engine}

theorem IsReady.withWaiter (he : e.IsReady) {waiter : Waiter} (hqueue : waiter.queue.Sound)
    (network : Network) : IsReady { e with waiter, network } :=
  ⟨he.tenanted, he.nonempty, he.quiet, hqueue⟩

theorem isReady_of_new {c : Config} {memory memory' : Allocator} {hash : Bytes → UInt64}
    {slotBits maxShards : Nat} {table : Table} {network : Network}
    (htable : Table.new memory' hash slotBits maxShards = .ok table)
    (hnew : new c memory table network = .ok e) : e.IsReady := by
  obtain ⟨-, -, -, hwaiter, -, hkept, -⟩ := new_eq_ok hnew
  refine ⟨tenanted_of_new hnew, ?_, ?_, (queue_of_new hwaiter).1⟩
  · exact (isBooked_of_new hnew).lends.nonempty
  · rw [hkept]
    exact Table.quiet_of_new htable

/-- Each event of the queue is handled in turn, and the limit is never reached. -/
theorem IsReady.exists_serves (he : e.IsReady) (worker : Worker) {events : List Event}
    (hevents : e.waiter.queue.toList = events) :
    ∃ e', (∀ limit, events.length < limit → processUpTo worker limit e = some e') ∧
      Serves worker e events e' ∧ e'.IsReady ∧ e'.waiter.queue.toList = [] := by
  have hlength : e.waiter.queue.length = events.length := by
    rw [← hevents, EventRing.length_toList]
  induction events generalizing e with
  | nil =>
      have hempty := dequeue_of_nil he.queue hevents
      refine ⟨e, fun limit hlimit => ?_, .done hempty, he, hevents⟩
      obtain ⟨limit, rfl⟩ := Nat.exists_eq_succ_of_ne_zero (Nat.ne_of_gt hlimit)
      rw [processUpTo, hlength]
      rfl
  | cons event events ih =>
      obtain ⟨waiter, hnext, hsound, hrest⟩ := dequeue_of_cons he.queue hevents
      have hready : IsReady { e with waiter } := he.withWaiter hsound e.network
      have hlength' : waiter.queue.length = events.length := by
        rw [← hrest, EventRing.length_toList]
      by_cases hadmits : ∃ slot, Admits { e with waiter } event slot
      · obtain ⟨slot, hadmits⟩ := hadmits
        obtain ⟨e₁, e₂, hroute, hdrain, htreats, hready'⟩ := hready.exists_treats hadmits worker
        have hkeeps := keeps_route { e with waiter } event
        rw [hroute] at hkeeps
        have hwaiter : e₂.waiter = waiter := (hkeeps.trans (keeps_drain hdrain)).waiter
        obtain ⟨e', hprocess, hserves, hlast, hempty⟩ :=
          ih hready' (hwaiter ▸ hrest) (hwaiter ▸ hlength')
        refine ⟨e', fun limit hlimit => ?_, .next hnext htreats hserves, hlast, hempty⟩
        cases limit with
        | zero => omega
        | succ limit =>
            rw [processUpTo, hlength, List.length_cons, claim, hnext]
            dsimp only
            rw [hroute]
            dsimp only
            rw [hdrain, Option.bind_eq_bind, Option.bind_some]
            exact hprocess limit (Nat.lt_of_succ_lt_succ hlimit)
      · have hstale : ∀ slot, ¬Admits { e with waiter } event slot :=
          fun slot hslot => hadmits ⟨slot, hslot⟩
        obtain ⟨e', hprocess, hserves, hlast, hempty⟩ := ih hready hrest hlength'
        refine ⟨e', fun limit hlimit => ?_, .next hnext (.discarded hstale) hserves, hlast, hempty⟩
        rw [← hprocess limit (Nat.lt_of_succ_lt hlimit)]
        cases limit with
        | zero => omega
        | succ limit =>
            rw [processUpTo, processUpTo, hlength, hlength', List.length_cons, claim, hnext]
            dsimp only
            rw [route_of_not_admits hstale]

theorem IsReady.isDone (he : e.IsReady) (hempty : e.waiter.queue.toList = []) : e.IsDone where
  queue := he.queue.isEmpty_iff.mpr hempty
  rings index slot ring hslot hring := by
    have hquiet : slot.events = [] := by
      obtain ⟨-, hfits⟩ | ⟨-, hfits⟩ := he.tenanted.line_or_nobody hslot <;>
        exact hfits.quiet (by simp [Keeper.phase])
    rw [ConnectionSlot.events, hring] at hquiet
    exact (he.tenanted.sound.rings hslot hring).isEmpty_iff.mpr hquiet
  idle index slot hslot := by
    obtain ⟨-, hfits⟩ | ⟨-, hfits⟩ := he.tenanted.line_or_nobody hslot <;>
      simp [hfits.phase, Keeper.phase]
  count := (lends_waitingClients he.tenanted he.nonempty).inUse?_eq

theorem Resting.isReady (he : e.Resting) : e.IsReady := by
  induction he with
  | opened htable hnew => exact isReady_of_new htable hnew
  | meanwhile _ waiter network hqueue ih => exact ih.withWaiter hqueue network
  | @served e e' worker _ h ih =>
      obtain ⟨last, hprocess, -, hlast, -⟩ := ih.exists_serves worker rfl
      have hsame := hprocess (e.waiter.queue.length + 1) (by rw [EventRing.length_toList]; omega)
      obtain rfl := Option.some.inj (h.symm.trans hsame)
      exact hlast

/-- Whenever the only worker of an engine begins to serve, it stops again, however much time it is
given beyond the events that are queued. It has then handled each event in its turn, as the event
found the connections, and has nothing more to do. -/
theorem Resting.process_handles_all (he : e.Resting) (worker : Worker) :
    ∃ e', e.process worker = some e' ∧
      (∀ limit, e.waiter.queue.length < limit → processUpTo worker limit e = some e') ∧
      Serves worker e e.waiter.queue.toList e' ∧ e'.IsDone := by
  obtain ⟨e', hprocess, hserves, hready, hempty⟩ := he.isReady.exists_serves worker rfl
  rw [EventRing.length_toList] at hprocess
  exact ⟨e', hprocess _ (Nat.lt_succ_self _), hprocess, hserves, hready.isDone hempty⟩

/-- A client waits to be taken in. -/
def oneCaller : Network :=
  { Network.idle true with peers := #[.connected true], backlog := [.client 0] }

/-- A client is reported to wait, then twice to have gone, and last a connection is named for which
there is no place. -/
def fourReports : EventRing :=
  let gone : Event := { Event.blank (.encode 1 0) with readClosed := true }
  let calls : Event := { Event.blank (.encode 0 0) with readable := true }
  ⟨#[calls, gone, gone, .blank (.encode 9 0), .blank 0], 0, 4⟩

/-- The client is taken in, and by that the second report becomes one about it. The third report
comes when it has gone. -/
theorem process_handles_all_of_fourReports :
    ∃ table e₀ e e', Table.new unlimited (fun _ => 0) 1 1 = .ok table ∧
      new Workers.smallConfig unlimited table (.idle true) = .ok e₀ ∧
      e = { e₀ with waiter := { e₀.waiter with queue := fourReports }, network := oneCaller } ∧
      e.process (e.workerOf 0) = some e' ∧ Serves (e.workerOf 0) e fourReports.toList e' ∧
      e'.IsDone ∧ e'.connections? = some 0 ∧
      (e'.arena.slotAt 1).map ConnectionSlot.generation = some 1 ∧
      (e'.network.peerAt 0).map Peer.dropped = some true := by
  obtain ⟨table, htable⟩ := Table.new_unlimited (fun _ => 0) 1 1 (by decide) (by decide) (by decide)
  have hrun : ((new Workers.smallConfig unlimited table (.idle true)).toOption.bind fun e₀ =>
      let e := { e₀ with waiter := { e₀.waiter with queue := fourReports }, network := oneCaller }
      (process e (workerOf e 0)).map fun e' =>
        (e'.connections?, (e'.arena.slotAt 1).map ConnectionSlot.generation,
          (e'.network.peerAt 0).map Peer.dropped)) = some (some 0, some 1, some true) := by
    rw [Table.eq_of_new htable]
    decide
  obtain ⟨e₀, hsome, hrun⟩ := Option.bind_eq_some_iff.mp hrun
  obtain ⟨e', hprocess, hfound⟩ := Option.map_eq_some_iff.mp hrun
  have hnew := new_of_toOption hsome
  have hqueue : fourReports.Sound := ⟨by decide, by decide, by decide⟩
  have hresting := (Resting.opened htable hnew).meanwhile
    { e₀.waiter with queue := fourReports } oneCaller hqueue
  obtain ⟨last, hlast, -, hserves, hdone⟩ := hresting.process_handles_all (workerOf e₀ 0)
  obtain rfl := Option.some.inj (hprocess.symm.trans hlast)
  simp only [Prod.mk.injEq] at hfound
  exact ⟨table, e₀, _, e', htable, hnew, rfl, hprocess, hserves, hdone, hfound⟩

end Engine

end Server

end KeyValueServer
