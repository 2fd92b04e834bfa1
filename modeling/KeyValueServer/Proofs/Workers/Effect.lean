import KeyValueServer.Proofs.Workers.Tenure

/-!
# What a step of a worker does

Each step of a worker has one of a few effects, which are listed here with what is known when they
happen. Where all places are tenanted, no worker comes to a place that does not exist or is in
another phase than its stage says, and no ring is missing; the effects do without these cases.
-/

namespace KeyValueServer.Server

/-- The event names a place in use, and the place's generation. -/
structure Engine.Admits (e : Engine) (event : Event) (slot : ConnectionSlot) : Prop where
  found : e.arena.slotAt event.token.index = some slot
  used : slot.phase ≠ .free
  current : slot.generation = event.token.generation

/-- Where a worker goes on after it has read its connection once. -/
def Workers.afterReading (index : Nat) (event : Event) : ReadOutcome → WorkerStage
  | .more => .reading index event
  | .drained => afterServing index event true
  | .ended => afterServing index event false
  | .failed _ => afterServing index event false

open Workers in
/-- What one step of a worker can do, by the stage at which the worker is. -/
inductive Effect (e : Engine) (worker : Nat) : WorkerStage → Engine → WorkerStage → Prop
  -- claiming a connection
  | enter : Effect e worker .claiming e .routing
  | giveUp (hqueue : e.waiter.dequeue? = none) : Effect e worker .routing e .parking
  | dequeue {event : Event} {waiter : Waiter} (hqueue : e.waiter.dequeue? = some (event, waiter)) :
      Effect e worker .routing { e with waiter } (.placing event)
  | discard {event : Event} (hstale : ∀ slot, ¬e.Admits event slot) :
      Effect e worker (.placing event) e .routing
  | overflow {event : Event} {slot : ConnectionSlot} {ring : EventRing}
      (hadmits : e.Admits event slot) (hfull : slot.events ≠ []) (hring : ring.Sound)
      (hevents : ring.toList = slot.events) :
      Effect e worker (.placing event)
        { e with arena := e.arena.put event.token.index { slot with ring := some ring } } .routing
  | add {event : Event} {slot : ConnectionSlot} {ring : EventRing} (hadmits : e.Admits event slot)
      (hbusy : slot.phase ≠ .waiting) (hring : ring.Sound)
      (hevents : ring.toList = slot.events ++ [event]) :
      Effect e worker (.placing event)
        { e with arena := e.arena.put event.token.index { slot with ring := some ring } } .routing
  | claim {event : Event} {slot : ConnectionSlot} {ring : EventRing}
      (hadmits : e.Admits event slot) (hidle : slot.phase = .waiting) (hring : ring.Sound)
      (hevents : ring.toList = slot.events ++ [event]) :
      Effect e worker (.placing event)
        { e with
          arena := e.arena.put event.token.index
            { slot with phase := .running, ring := some ring } }
        (.taking event.token.index)
  -- serving a connection
  | drain {index : Nat} {slot : ConnectionSlot} {ring : EventRing}
      (hslot : e.arena.slotAt index = some slot) (hempty : slot.events = []) (hring : ring.Sound)
      (hevents : ring.toList = []) :
      Effect e worker (.taking index)
        { e with arena := e.arena.put index { slot with phase := .waiting, ring := some ring } }
        .claiming
  | takeArrivals {index : Nat} {slot : ConnectionSlot} {event : Event} {ring : EventRing}
      (hslot : e.arena.slotAt index = some slot) (hrole : slot.role = .listener)
      (hring : ring.Sound) (hevents : slot.events = event :: ring.toList) :
      Effect e worker (.taking index)
        { e with arena := e.arena.put index { slot with ring := some ring } } (.accepting index)
  | takeMessages {index : Nat} {slot : ConnectionSlot} {event : Event} {ring : EventRing}
      (hslot : e.arena.slotAt index = some slot) (hrole : slot.role = .message)
      (hring : ring.Sound) (hevents : slot.events = event :: ring.toList) :
      Effect e worker (.taking index)
        { e with arena := e.arena.put index { slot with ring := some ring } }
        (if event.readable then .opening index event else afterServing index event true)
  | lock (index : Nat) (event : Event) :
      Effect e worker (.opening index event) e (.reading index event)
  | miss {index : Nat} {event : Event} {slot : ConnectionSlot} {stream : StreamId}
      (hslot : e.arena.slotAt index = some slot) (hsocket : slot.socket = .stream stream)
      (hpeer : e.network.peerAt stream = none) :
      Effect e worker (.reading index event) e (.closing index .claiming)
  | read {index : Nat} {event : Event} {slot : ConnectionSlot} {stream : StreamId} {peer : Peer}
      {served : Turn} (hslot : e.arena.slotAt index = some slot)
      (hsocket : slot.socket = .stream stream) (hpeer : e.network.peerAt stream = some peer)
      (hserved : serveOnce (e.workerOf worker) e.table peer = some served) :
      Effect e worker (.reading index event)
        { e with
          table := served.table
          network := e.network.modifyPeer stream fun _ => served.peer }
        (afterReading index event served.outcome)
  -- taking in clients
  | accept {index : Nat} {stream : StreamId} {network : Network}
      (haccept : e.network.accept = (.ok stream, network)) :
      Effect e worker (.accepting index) { e with network } (.reserving index stream)
  | acceptFails {index : Nat} {fault : IoFault} {network : Network}
      (haccept : e.network.accept = (.error fault, network)) :
      Effect e worker (.accepting index) { e with network }
        (if fault.isInterrupted then .accepting index else .taking index)
  | turnAway {index : Nat} {stream : StreamId} (hfree : e.arena.free = []) :
      Effect e worker (.reserving index stream) { e with network := e.network.drop stream }
        (.accepting index)
  | reserve {index place : Nat} {stream : StreamId} {free : List Nat}
      (hfree : e.arena.free = place :: free) :
      Effect e worker (.reserving index stream) { e with arena := { e.arena with free } }
        (.installing index place stream)
  | install {index place : Nat} {stream : StreamId} {slot : ConnectionSlot}
      (hslot : e.arena.slotAt place = some slot) :
      Effect e worker (.installing index place stream)
        { e with arena := e.arena.put place { slot with socket := .stream stream } }
        (.activating index place)
  | activate {index place : Nat} {slot : ConnectionSlot} {ring : EventRing}
      (hslot : e.arena.slotAt place = some slot) (hring : ring.Sound)
      (hevents : ring.toList = slot.events) :
      Effect e worker (.activating index place)
        { e with
          arena := e.arena.put place
            { slot with phase := .waiting, role := .message, ring := some ring } }
        (.registering index place (ConnectionToken.encode place slot.generation))
  | refuse {index place : Nat} {token : ConnectionToken} {slot : ConnectionSlot} {fault : IoFault}
      (hslot : e.arena.slotAt place = some slot)
      (hrefused : e.network.watch token slot.socket = .error fault) :
      Effect e worker (.registering index place token) e (.closing place (.accepting index))
  | register {index place : Nat} {token : ConnectionToken} {slot : ConnectionSlot}
      {network : Network} (hslot : e.arena.slotAt place = some slot)
      (hwatch : e.network.watch token slot.socket = .ok network) :
      Effect e worker (.registering index place token) { e with network } (.accepting index)
  -- giving a place back
  | close {index : Nat} {next : Resumption} {slot : ConnectionSlot}
      (hslot : e.arena.slotAt index = some slot) :
      Effect e worker (.closing index next)
        { e with
          network := e.network.close slot.socket
          arena := e.arena.put index { slot with socket := .closed } }
        (.retiring index next)
  | retire {index : Nat} {next : Resumption} {slot : ConnectionSlot}
      (hslot : e.arena.slotAt index = some slot) :
      Effect e worker (.retiring index next)
        { e with arena := e.arena.put index slot.retired } (.recycling index next)
  | recycle {index : Nat} {next : Resumption} :
      Effect e worker (.recycling index next)
        { e with arena := { e.arena with free := e.arena.free ++ [index] } } (resume next)
  -- waiting
  | park :
      Effect e worker .parking { e with waiter := e.waiter.park worker }
        (if e.waiter.elected.isNone then .polling else .sleeping)
  | pollAgain : Effect e worker .polling e .polling
  | pollFails : Effect e worker .polling e (.leaving false)
  | poll (count : Nat) :
      Effect e worker .polling
        { e with network := (e.network.poll count).2, waiter := e.waiter.countRound }
        (if (e.network.poll count).1.isEmpty then .leaving true
          else .queueing (e.network.poll count).1)
  | retry {batch : List Event} (hfull : e.waiter.enqueue? batch = none) :
      Effect e worker (.queueing batch) e (.queueing batch)
  | enqueue {batch : List Event} {waiter : Waiter} (hroom : e.waiter.enqueue? batch = some waiter) :
      Effect e worker (.queueing batch) { e with waiter } (.waking batch.length)
  | wake (count : Nat) :
      Effect e worker (.waking count) { e with waiter := e.waiter.wake worker count }
        (.leaving true)
  | answer {waiter : Waiter} (hcall : e.waiter.answerCall? worker = some waiter) :
      Effect e worker .sleeping { e with waiter } (.leaving true)
  | leave (continues : Bool) :
      Effect e worker (.leaving continues) { e with waiter := e.waiter.leave worker }
        (if continues then .claiming else .exited)

/-! ## The actions of an engine whose places are tenanted -/

section Actions

variable {e e' : Engine} {event : Event} {slot : ConnectionSlot} {index : Nat}

theorem Engine.route_of_not_admits (h : ∀ slot, ¬e.Admits event slot) :
    e.route event = (none, e) := by
  by_cases hplace : event.token.index < e.arena.capacity
  · cases hslot : e.arena.slotAt event.token.index with
    | none => simp [route, Arena.resolve, hplace, hslot]
    | some slot =>
        have hstale : slot.phase = .free ∨ slot.generation ≠ event.token.generation := by
          by_contra hnot
          rw [not_or, Decidable.not_not] at hnot
          exact h slot ⟨hslot, hnot.1, hnot.2⟩
        simp [route, Arena.resolve, hplace, hslot, hstale]
  · simp [route, Arena.resolve, hplace]

theorem Engine.route_of_admits (ha : e.arena.Sound) (h : e.Admits event slot) :
    ∃ ring : EventRing, ring.Sound ∧
      ((slot.events ≠ [] ∧ ring.toList = slot.events ∧
          e.route event = (none, { e with
            arena := e.arena.put event.token.index { slot with ring := some ring } })) ∨
        (ring.toList = slot.events ++ [event] ∧
          e.route event = if slot.phase = .waiting then
            (some event.token.index, { e with
              arena := e.arena.put event.token.index
                { slot with phase := .running, ring := some ring } })
            else (none, { e with
              arena := e.arena.put event.token.index { slot with ring := some ring } }))) := by
  have hplace : event.token.index < e.arena.capacity := Arena.slotAt_lt h.found
  obtain ⟨ring, hsound, ⟨hpush, hevents, hfull⟩ | ⟨hpush, hevents⟩⟩ :=
    ha.push_cases h.found event
  · refine ⟨ring, hsound, .inl ⟨hfull, hevents, ?_⟩⟩
    simp [route, Arena.resolve, hplace, h.found, h.used, h.current, hpush]
  · refine ⟨ring, hsound, .inr ⟨hevents, ?_⟩⟩
    simp only [route, Arena.resolve, hplace, h.found, h.used, h.current, hpush,
      Arena.modify_eq_put (Arena.slotAt_put_self h.found _), Arena.put_put, if_true, if_false,
      false_or, ne_eq, not_true_eq_false]

theorem Engine.takeEvent_cases (ha : e.arena.Sound) (hslot : e.arena.slotAt index = some slot)
    (hphase : slot.phase = .running) :
    ∃ ring : EventRing, ring.Sound ∧
      ((slot.events = [] ∧ ring.toList = [] ∧
          e.takeEvent index = (.drained, { e with
            arena := e.arena.put index { slot with phase := .waiting, ring := some ring } })) ∨
        ∃ event, slot.events = event :: ring.toList ∧
          e.takeEvent index = (.event event slot.role, { e with
            arena := e.arena.put index { slot with ring := some ring } })) := by
  obtain ⟨ring, hsound, ⟨hpop, hevents, hempty⟩ | ⟨event, hpop, hevents⟩⟩ := ha.pop_cases hslot
  · refine ⟨ring, hsound, .inl ⟨hempty, hevents, ?_⟩⟩
    simp only [takeEvent, hslot, hphase, hpop, ne_eq, not_true_eq_false, if_false,
      Arena.modify_eq_put (Arena.slotAt_put_self hslot _), Arena.put_put]
  · refine ⟨ring, hsound, .inr ⟨event, hevents, ?_⟩⟩
    simp only [takeEvent, hslot, hphase, hpop, ne_eq, not_true_eq_false, if_false]

theorem Engine.socketAt_of_slotAt (hslot : e.arena.slotAt index = some slot) :
    e.socketAt index = slot.socket := by
  rw [socketAt, hslot]
  rfl

theorem Engine.register_of_slotAt (hslot : e.arena.slotAt index = some slot)
    (hopen : slot.socket ≠ .closed) (token : ConnectionToken) :
    e.register index token =
      (e.network.watch token slot.socket).toOption.map fun network => { e with network } := by
  simp only [register, Arena.pollable, hslot, if_neg hopen]
  cases e.network.watch token slot.socket <;> rfl

/-- A registration changes nothing but what the network watches. -/
theorem Engine.exists_watch_of_register {token : ConnectionToken}
    (h : e.register index token = some e') :
    ∃ socket network, e.network.watch token socket = .ok network ∧ e' = { e with network } := by
  unfold register at h
  split at h
  next socket _ =>
    split at h
    next => contradiction
    next network hwatch => exact ⟨socket, network, hwatch, (Option.some.inj h).symm⟩
  next => contradiction

end Actions

/-! ## The effects of the steps -/

section Steps

variable {s s' : Workers} {worker : Nat}

/-- The worker has gone on from its stage by one of the effects, and nobody else has. -/
def Workers.Moved (s : Workers) (worker : Nat) (s' : Workers) : Prop :=
  ∃ stage, Effect s.engine worker (s.stages worker) s'.engine stage ∧
    s'.stages = turn s.stages worker stage

theorem moved_of_placing (hs : Tenanted s.engine.arena s.stages) {event : Event}
    (hstage : s.stages worker = .placing event) {answer : PollAnswer}
    (h : s.step worker answer = some s') : s.Moved worker s' := by
  rw [Workers.Moved, hstage]
  rw [Workers.step, hstage] at h
  dsimp only at h
  by_cases hadmits : ∃ slot, s.engine.Admits event slot
  · obtain ⟨slot, hadmits⟩ := hadmits
    obtain ⟨ring, hsound, ⟨hfull, hevents, hroute⟩ | ⟨hevents, hroute⟩⟩ :=
      Engine.route_of_admits hs.sound hadmits
    · rw [hroute] at h
      obtain rfl := Option.some.inj h
      exact ⟨_, .overflow hadmits hfull hsound hevents, rfl⟩
    · by_cases hidle : slot.phase = .waiting
      · rw [hroute, if_pos hidle] at h
        obtain rfl := Option.some.inj h
        exact ⟨_, .claim hadmits hidle hsound hevents, rfl⟩
      · rw [hroute, if_neg hidle] at h
        obtain rfl := Option.some.inj h
        exact ⟨_, .add hadmits hidle hsound hevents, rfl⟩
  · have hstale : ∀ slot, ¬s.engine.Admits event slot := fun slot hslot => hadmits ⟨slot, hslot⟩
    rw [Engine.route_of_not_admits hstale] at h
    obtain rfl := Option.some.inj h
    exact ⟨_, .discard hstale, rfl⟩

theorem moved_of_taking (hs : Tenanted s.engine.arena s.stages) {index : Nat}
    (hstage : s.stages worker = .taking index) {answer : PollAnswer}
    (h : s.step worker answer = some s') : s.Moved worker s' := by
  have hheld : (index, Tenure.serving) ∈ (s.stages worker).holds := by
    simp [hstage, WorkerStage.holds]
  obtain ⟨-, slot, hslot, hfits⟩ := hs.of_mem_holds hheld
  rw [Workers.Moved, hstage]
  rw [Workers.step, hstage] at h
  dsimp only [Workers.takeStep] at h
  obtain ⟨ring, hsound, ⟨hempty, hevents, htake⟩ | ⟨event, hevents, htake⟩⟩ :=
    Engine.takeEvent_cases hs.sound hslot hfits.phase
  · rw [htake] at h
    obtain rfl := Option.some.inj h
    exact ⟨_, .drain hslot hempty hsound hevents, rfl⟩
  · rw [htake] at h
    cases hrole : slot.role with
    | listener =>
        have heffect : Effect s.engine worker (.taking index) _ _ :=
          .takeArrivals hslot hrole hsound hevents
        rw [hrole] at h heffect
        obtain rfl := Option.some.inj h
        exact ⟨_, heffect, rfl⟩
    | message =>
        have heffect : Effect s.engine worker (.taking index) _ _ :=
          .takeMessages hslot hrole hsound hevents
        rw [hrole] at h heffect
        obtain rfl := Option.some.inj h
        exact ⟨_, heffect, rfl⟩

theorem moved_of_reading (hs : Tenanted s.engine.arena s.stages) {index : Nat} {event : Event}
    (hstage : s.stages worker = .reading index event) {answer : PollAnswer}
    (h : s.step worker answer = some s') : s.Moved worker s' := by
  have hheld : (index, Tenure.reading) ∈ (s.stages worker).holds := by
    simp [hstage, WorkerStage.holds]
  obtain ⟨-, slot, hslot, hfits⟩ := hs.of_mem_holds hheld
  obtain ⟨hindex, hopen⟩ := hfits.suits
  rw [ConnectionSlot.IsOpen, if_neg hindex] at hopen
  obtain ⟨-, stream, hsocket⟩ := hopen
  rw [Workers.Moved, hstage]
  rw [Workers.step, hstage] at h
  simp only [Workers.readStep, Engine.readOnce, Engine.socketAt_of_slotAt hslot, hsocket] at h
  cases hpeer : s.engine.network.peerAt stream with
  | none =>
      rw [hpeer] at h
      obtain rfl := Option.some.inj h
      exact ⟨_, .miss hslot hsocket hpeer, rfl⟩
  | some peer =>
      rw [hpeer] at h
      simp only [Option.map_map, Option.map_eq_some_iff, Function.comp_apply] at h
      obtain ⟨served, hserved, rfl⟩ := h
      have heffect : Effect s.engine worker (.reading index event) _ _ :=
        .read hslot hsocket hpeer hserved
      generalize served.outcome = outcome at heffect ⊢
      cases outcome <;> exact ⟨_, heffect, rfl⟩

theorem moved_of_accepting (hs : Tenanted s.engine.arena s.stages) {index : Nat}
    (hstage : s.stages worker = .accepting index) {answer : PollAnswer}
    (h : s.step worker answer = some s') : s.Moved worker s' := by
  have hheld : (index, Tenure.accepting) ∈ (s.stages worker).holds := by
    simp [hstage, WorkerStage.holds]
  obtain ⟨-, slot, hslot, hfits⟩ := hs.of_mem_holds hheld
  obtain ⟨rfl, hopen⟩ := hfits.suits
  rw [ConnectionSlot.IsOpen, if_pos rfl] at hopen
  rw [Workers.Moved, hstage]
  rw [Workers.step, hstage] at h
  dsimp only at h
  split at h
  next hunlocked =>
    obtain rfl := Option.some.inj h
    simp only [Workers.acceptStep, Engine.acceptOnce, Engine.socketAt_of_slotAt hslot, hopen.2]
    rcases haccept : s.engine.network.accept with ⟨fault | stream, network⟩
    · exact ⟨_, .acceptFails haccept, rfl⟩
    · exact ⟨_, .accept haccept, rfl⟩
  · contradiction

/-- Where all places are tenanted, every step of a worker has one of the effects. -/
theorem Tenanted.moved_of_step (hs : Tenanted s.engine.arena s.stages) {answer : PollAnswer}
    (h : s.step worker answer = some s') : s.Moved worker s' := by
  have hstep := h
  rw [Workers.step] at h
  rw [Workers.Moved]
  generalize hstage : s.stages worker = before at h ⊢
  cases before with
  | placing event => exact hstage ▸ moved_of_placing hs hstage hstep
  | taking index => exact hstage ▸ moved_of_taking hs hstage hstep
  | reading index event => exact hstage ▸ moved_of_reading hs hstage hstep
  | accepting index => exact hstage ▸ moved_of_accepting hs hstage hstep
  | claiming =>
      dsimp only at h
      split at h
      · obtain rfl := Option.some.inj h
        exact ⟨_, .enter, rfl⟩
      · contradiction
  | routing =>
      dsimp only at h
      split at h
      next hqueue =>
        obtain rfl := Option.some.inj h
        exact ⟨_, .giveUp hqueue, rfl⟩
      next event waiter hqueue =>
        obtain rfl := Option.some.inj h
        exact ⟨_, .dequeue hqueue, rfl⟩
  | opening index event =>
      dsimp only at h
      split at h
      · obtain rfl := Option.some.inj h
        exact ⟨_, .lock index event, rfl⟩
      · contradiction
  | reserving index stream =>
      cases hfree : s.engine.arena.free with
      | nil =>
          simp only [Engine.reserve, Arena.allocate, hfree] at h
          obtain rfl := Option.some.inj h
          exact ⟨_, .turnAway hfree, rfl⟩
      | cons place free =>
          simp only [Engine.reserve, Arena.allocate, hfree] at h
          obtain rfl := Option.some.inj h
          exact ⟨_, .reserve hfree, rfl⟩
  | installing index place stream =>
      have hheld : (place, Tenure.emptied) ∈ (s.stages worker).holds := by
        simp [hstage, WorkerStage.holds]
      obtain ⟨-, slot, hslot, -⟩ := hs.of_mem_holds hheld
      dsimp only at h
      split at h
      · obtain rfl := Option.some.inj h
        simp only [Engine.place, Arena.setSocket, Arena.modify_eq_put hslot]
        exact ⟨_, .install hslot, rfl⟩
      · contradiction
  | activating index place =>
      have hheld : (place, Tenure.filled) ∈ (s.stages worker).holds := by
        simp [hstage, WorkerStage.holds]
      obtain ⟨-, slot, hslot, -⟩ := hs.of_mem_holds hheld
      obtain ⟨ring, hsound, hevents, hactivate⟩ := hs.sound.activate hslot .message
      simp only [Engine.activate, hactivate] at h
      obtain rfl := Option.some.inj h
      exact ⟨_, .activate hslot hsound hevents, rfl⟩
  | registering index place token =>
      have hheld : (place, Tenure.presented) ∈ (s.stages worker).holds := by
        simp [hstage, WorkerStage.holds]
      obtain ⟨-, slot, hslot, hfits⟩ := hs.of_mem_holds hheld
      obtain ⟨hindex, hopen⟩ := hfits.suits
      rw [ConnectionSlot.IsOpen, if_neg hindex] at hopen
      obtain ⟨-, stream, hsocket⟩ := hopen
      simp only [Engine.register_of_slotAt hslot (by simp [hsocket])] at h
      split at h
      · cases hwatch : s.engine.network.watch token slot.socket with
        | error fault =>
            rw [hwatch] at h
            obtain rfl := Option.some.inj h
            exact ⟨_, .refuse hslot hwatch, rfl⟩
        | ok network =>
            rw [hwatch] at h
            obtain rfl := Option.some.inj h
            exact ⟨_, .register hslot hwatch, rfl⟩
      · contradiction
  | closing index next =>
      have hholds : ∃ tenure, (index, tenure) ∈ (s.stages worker).holds := by
        cases next <;> simp [hstage, WorkerStage.holds]
      obtain ⟨tenure, hholds⟩ := hholds
      obtain ⟨-, slot, hslot, -⟩ := hs.of_mem_holds hholds
      simp only [Engine.closeSocket, Engine.socketAt_of_slotAt hslot, Arena.setSocket,
        Arena.modify_eq_put hslot] at h
      split at h
      · obtain rfl := Option.some.inj h
        exact ⟨_, .close hslot, rfl⟩
      · contradiction
  | retiring index next =>
      have hholds : ∃ tenure, (index, tenure) ∈ (s.stages worker).holds := by
        cases next <;> simp [hstage, WorkerStage.holds]
      obtain ⟨tenure, hholds⟩ := hholds
      obtain ⟨-, slot, hslot, -⟩ := hs.of_mem_holds hholds
      simp only [Engine.retire, Arena.retire_eq_put hslot] at h
      obtain rfl := Option.some.inj h
      exact ⟨_, .retire hslot, rfl⟩
  | recycling index next =>
      have hholds : (index, Tenure.emptied) ∈ (s.stages worker).holds := by
        cases next <;> simp [hstage, WorkerStage.holds]
      obtain ⟨-, slot, -, hfits⟩ := hs.of_mem_holds hholds
      simp only [Engine.recycle, Arena.recycle, if_neg hfits.suits.1] at h
      obtain rfl := Option.some.inj h
      exact ⟨_, .recycle, rfl⟩
  | parking =>
      obtain rfl := Option.some.inj h
      exact ⟨_, .park, rfl⟩
  | polling =>
      cases answer with
      | interrupted =>
          obtain rfl := Option.some.inj h
          exact ⟨_, .pollAgain, (turn_eq_of_eq hstage).symm⟩
      | fails =>
          obtain rfl := Option.some.inj h
          exact ⟨_, .pollFails, rfl⟩
      | events count =>
          obtain rfl := Option.some.inj h
          exact ⟨_, .poll (min count s.engine.waiter.batchLimit), rfl⟩
  | queueing batch =>
      dsimp only at h
      split at h
      · split at h
        next hfull =>
          obtain rfl := Option.some.inj h
          exact ⟨_, .retry hfull, (turn_eq_of_eq hstage).symm⟩
        next waiter hroom =>
          obtain rfl := Option.some.inj h
          exact ⟨_, .enqueue hroom, rfl⟩
      · contradiction
  | waking count =>
      obtain rfl := Option.some.inj h
      exact ⟨_, .wake count, rfl⟩
  | sleeping =>
      obtain ⟨waiter, hcall, rfl⟩ := Option.map_eq_some_iff.mp h
      exact ⟨_, .answer hcall, rfl⟩
  | leaving continues =>
      obtain rfl := Option.some.inj h
      exact ⟨_, .leave continues, rfl⟩
  | exited =>
      contradiction

end Steps

end KeyValueServer.Server
