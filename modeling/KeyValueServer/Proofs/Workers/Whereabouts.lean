import KeyValueServer.Proofs.Connection.Fittings
import KeyValueServer.Proofs.Connection.Reports
import KeyValueServer.Proofs.Server.Turns
import KeyValueServer.Proofs.Workers.Reachable

/-!
# Where events are

An event that was polled is in a batch, in the shared queue, in the hands of the worker that places
it, in the ring of its connection, or in the hands of the worker that serves it. No step makes
events out of nothing, except that a socket which comes to be watched may have something to report.
-/

namespace KeyValueServer

namespace Server

/-- The event that a worker has taken from the ring of a connection and serves. -/
def WorkerStage.taken? : WorkerStage → Option (Nat × Event)
  | opening index event => some (index, event)
  | reading index event => some (index, event)
  | _ => none

/-- The connection that a worker is about to close. -/
def WorkerStage.closes? : WorkerStage → Option Nat
  | closing index .claiming => some index
  | _ => none

/-- The place that a worker gives another socket in its next step. -/
def WorkerStage.equipped? : WorkerStage → Option Nat
  | installing _ place _ => some place
  | closing place _ => some place
  | _ => none

/-- The place that a worker gives another generation in its next step. -/
def WorkerStage.retired? : WorkerStage → Option Nat
  | retiring place _ => some place
  | _ => none

/-- Where an event is. -/
inductive Workers.Has (s : Workers) (event : Event) : Prop
  | ready (h : event ∈ s.engine.network.ready)
  | queued (h : event ∈ s.engine.waiter.queue.toList)
  | carried (worker : Nat) (h : event ∈ (s.stages worker).carries)
  | placed (index : Nat) (slot : ConnectionSlot) (hslot : s.engine.arena.slotAt index = some slot)
      (h : event ∈ slot.events)
  | taken (worker index : Nat) (h : (s.stages worker).taken? = some (index, event))

variable {e e' : Engine} {worker index : Nat} {before after : WorkerStage} {event : Event}

/-! ## The queue -/

theorem queue_of_new {capacity batchLimit workers : Nat} {w : Waiter}
    (h : Waiter.new capacity batchLimit workers = .ok w) :
    w.queue.Sound ∧ w.queue.toList = [] := by
  obtain ⟨queue, hqueue, rfl⟩ := Waiter.eq_of_new h
  exact ⟨EventRing.sound_of_new? hqueue, EventRing.toList_of_new? hqueue⟩

theorem dequeue_of_nil {w : Waiter} (hw : w.queue.Sound) (hnil : w.queue.toList = []) :
    w.dequeue? = none := by
  rw [Waiter.dequeue?, EventRing.pop?, if_pos (hw.isEmpty_iff.mpr hnil)]
  rfl

theorem mem_queue_of_dequeue {w w' : Waiter} (hw : w.queue.Sound)
    (h : w.dequeue? = some (event, w')) :
    w'.queue.Sound ∧ w.queue.toList = event :: w'.queue.toList := by
  unfold Waiter.dequeue? at h
  obtain ⟨⟨popped, queue⟩, hpop, heq⟩ := Option.map_eq_some_iff.mp h
  obtain ⟨rfl, rfl⟩ := Prod.mk.inj heq
  exact hw.toList_of_pop? hpop

theorem mem_queue_of_enqueue {w w' : Waiter} {batch : List Event} (hw : w.queue.Sound)
    (h : w.enqueue? batch = some w') :
    w'.queue.Sound ∧ w'.queue.toList = w.queue.toList ++ batch := by
  unfold Waiter.enqueue? at h
  obtain ⟨queue, hextend, rfl⟩ := Option.map_eq_some_iff.mp h
  exact hw.extend? hextend

theorem queue_of_answerCall {w w' : Waiter} (h : w.answerCall? worker = some w') :
    w'.queue = w.queue := by
  unfold Waiter.answerCall? at h
  split at h
  · rw [← Option.some.inj h]
  · contradiction

/-- What a step makes of the shared queue. -/
theorem Effect.queue (h : Effect e worker before e' after) (he : e.waiter.queue.Sound) :
    e'.waiter.queue.Sound ∧
      ((∃ event, after = .placing event ∧
          e.waiter.queue.toList = event :: e'.waiter.queue.toList) ∨
        (∃ batch, before = .queueing batch ∧ after = .waking batch.length ∧
          e'.waiter.queue.toList = e.waiter.queue.toList ++ batch) ∨
        e'.waiter.queue = e.waiter.queue) := by
  cases h with
  | dequeue hqueue =>
      obtain ⟨hsound, hlist⟩ := mem_queue_of_dequeue he hqueue
      exact ⟨hsound, .inl ⟨_, rfl, hlist⟩⟩
  | enqueue hroom =>
      obtain ⟨hsound, hlist⟩ := mem_queue_of_enqueue he hroom
      exact ⟨hsound, .inr (.inl ⟨_, rfl, rfl, hlist⟩)⟩
  | answer hcall =>
      have hsame := queue_of_answerCall hcall
      exact ⟨hsame ▸ he, .inr (.inr hsame)⟩
  | _ => exact ⟨he, .inr (.inr rfl)⟩

/-! ## The network -/

theorem network_of_accept {n n' : Network} {result : Except IoFault StreamId}
    (h : n.accept = (result, n')) :
    n'.watched = n.watched ∧ n'.ready = n.ready ∧ n'.peers = n.peers := by
  unfold Network.accept at h
  split at h <;> obtain ⟨-, rfl⟩ := Prod.mk.inj h <;> exact ⟨rfl, rfl, rfl⟩

/-- Only registering makes events ready. -/
theorem Effect.mem_ready (h : Effect e worker before e' after) (hevent : event ∈ e'.network.ready) :
    event ∈ e.network.ready ∨ ∃ index place token, before = .registering index place token := by
  cases h with
  | register => exact .inr ⟨_, _, _, rfl⟩
  | close => exact .inl (Network.ready_close_subset hevent)
  | poll => exact .inl (List.mem_of_mem_drop hevent)
  | accept haccept => exact .inl ((network_of_accept haccept).2.1 ▸ hevent)
  | acceptFails haccept => exact .inl ((network_of_accept haccept).2.1 ▸ hevent)
  | _ => exact .inl hevent

theorem exists_of_rel {α β : Type} {R : α → β → Prop} {before : Option α} {b : β}
    (h : Option.Rel R before (some b)) : ∃ a, before = some a ∧ R a b := by
  cases h with
  | some hab => exact ⟨_, rfl, hab⟩

theorem exists_of_some_rel {α β : Type} {R : α → β → Prop} {after : Option β} {a : α}
    (h : Option.Rel R (some a) after) : ∃ b, after = some b ∧ R a b := by
  cases h with
  | some hab => exact ⟨_, rfl, hab⟩

/-- Clients change by being dropped and by being read only. -/
theorem Effect.peers {R : Peer → Peer → Prop} (h : Effect e worker before e' after)
    (hkept : ∀ p, R p p) (hdropped : ∀ p : Peer, R p { p with dropped := true })
    (hread : ∀ index event p turn, before = .reading index event →
      serveOnce (e.workerOf worker) e.table p = some turn → R p turn.peer)
    (stream : StreamId) : Option.Rel R (e.network.peerAt stream) (e'.network.peerAt stream) := by
  have hsame : ∀ client : Option Peer, Option.Rel R client client
    | none => .none
    | some p => .some (hkept p)
  have hdrop : ∀ client : Option Peer,
      Option.Rel R client (client.map fun p => { p with dropped := true })
    | none => .none
    | some p => .some (hdropped p)
  cases h with
  | read _ _ hpeer hserved =>
      rw [Network.peerAt_modifyPeer]
      split
      next heq =>
        rw [← heq, hpeer]
        exact .some (hread _ _ _ _ rfl hserved)
      next => exact hsame _
  | turnAway =>
      rw [Network.peerAt_drop]
      split
      · exact hdrop _
      · exact hsame _
  | close =>
      rw [Network.peerAt_close]
      split
      · exact hdrop _
      · exact hsame _
  | register _ hwatch =>
      rw [Network.watch_eq_ok hwatch]
      exact hsame _
  | accept haccept =>
      have hpeers := (network_of_accept haccept).2.2
      rw [Network.peerAt, Network.peerAt, hpeers]
      exact hsame _
  | acceptFails haccept =>
      have hpeers := (network_of_accept haccept).2.2
      rw [Network.peerAt, Network.peerAt, hpeers]
      exact hsame _
  | _ => exact hsame _

/-! ## The table -/

/-- Only reading changes the table. -/
theorem Effect.table (h : Effect e worker before e' after)
    (hread : ∀ index event, before ≠ .reading index event) : e'.table = e.table := by
  cases h with
  | read => exact absurd rfl (hread _ _)
  | _ => rfl

theorem Effect.memory (h : Effect e worker before e' after) : e'.memory = e.memory := by
  cases h <;> rfl

/-! ## Places -/

/-- What of a place has to do neither with its events nor with its phase or role changes only where
the place gets another socket or another generation. -/
theorem Effect.unaltered {α : Type} (f : ConnectionSlot → α) (h : Effect e worker before e' after)
    (hserve : ∀ (slot : ConnectionSlot) (phase : ConnectionPhase) (role : ConnectionRole)
      (ring : Option EventRing), f { slot with phase, role, ring } = f slot)
    (hsocket : (∀ (slot : ConnectionSlot) (socket : Socket), f { slot with socket } = f slot) ∨
      before.equipped? ≠ some index)
    (hretire : (∀ slot : ConnectionSlot, f slot.retired = f slot) ∨ before.retired? ≠ some index) :
    (e'.arena.slotAt index).map f = (e.arena.slotAt index).map f := by
  have hput {place : Nat} {slot next : ConnectionSlot} (hslot : e.arena.slotAt place = some slot)
      (hsame : place = index → f next = f slot) :
      ((e.arena.put place next).slotAt index).map f = (e.arena.slotAt index).map f := by
    by_cases hplace : place = index
    · subst hplace
      rw [Arena.slotAt_put_self hslot, hslot, Option.map_some, Option.map_some, hsame rfl]
    · rw [Arena.slotAt_put_of_ne _ (Ne.symm hplace)]
  cases h with
  | overflow hadmits => exact hput hadmits.found fun _ => hserve _ _ _ _
  | add hadmits => exact hput hadmits.found fun _ => hserve _ _ _ _
  | claim hadmits => exact hput hadmits.found fun _ => hserve _ _ _ _
  | drain hslot => exact hput hslot fun _ => hserve _ _ _ _
  | takeArrivals hslot => exact hput hslot fun _ => hserve _ _ _ _
  | takeMessages hslot => exact hput hslot fun _ => hserve _ _ _ _
  | activate hslot => exact hput hslot fun _ => hserve _ _ _ _
  | install hslot =>
      exact hput hslot fun heq =>
        hsocket.elim (fun h => h _ _) fun h => absurd (congrArg some heq) h
  | close hslot =>
      exact hput hslot fun heq =>
        hsocket.elim (fun h => h _ _) fun h => absurd (congrArg some heq) h
  | retire hslot =>
      exact hput hslot fun heq => hretire.elim (fun h => h _) fun h => absurd (congrArg some heq) h
  | _ => rfl

theorem Effect.generation (h : Effect e worker before e' after)
    (hretire : before.retired? ≠ some index) :
    (e'.arena.slotAt index).map ConnectionSlot.generation =
      (e.arena.slotAt index).map ConnectionSlot.generation :=
  h.unaltered _ (fun _ _ _ _ => rfl) (.inl fun _ _ => rfl) (.inr hretire)

theorem Effect.socket (h : Effect e worker before e' after)
    (hequip : before.equipped? ≠ some index) :
    (e'.arena.slotAt index).map ConnectionSlot.socket =
      (e.arena.slotAt index).map ConnectionSlot.socket :=
  h.unaltered _ (fun _ _ _ _ => rfl) (.inr hequip) (.inl fun _ => rfl)

theorem WorkerStage.eq_of_equipped {stage : WorkerStage} (h : stage.equipped? = some index) :
    (∃ i stream, stage = .installing i index stream) ∨ ∃ next, stage = .closing index next := by
  cases stage with
  | installing i place stream =>
      obtain rfl := Option.some.inj h
      exact .inl ⟨i, stream, rfl⟩
  | closing place next =>
      obtain rfl := Option.some.inj h
      exact .inr ⟨next, rfl⟩
  | _ => contradiction

theorem Effect.after_closing {next : Resumption}
    (h : Effect e worker (.closing index next) e' after) : after = .retiring index next := by
  cases h
  rfl

theorem Effect.of_installing {place : Nat} {stream : StreamId}
    (h : Effect e worker (.installing index place stream) e' after) :
    after = .activating index place ∧ e'.network = e.network := by
  cases h
  exact ⟨rfl, rfl⟩

theorem Effect.retired (h : Effect e worker before e' after)
    (hretire : before.retired? = some index) :
    ∃ slot, e.arena.slotAt index = some slot ∧ e'.arena.slotAt index = some slot.retired := by
  cases h with
  | @retire place next slot hslot =>
      obtain rfl := Option.some.inj hretire
      exact ⟨slot, hslot, Arena.slotAt_put_self hslot _⟩
  | _ => contradiction

/-! ## Where events come from -/

/-- A worker that has served an event goes on with its connection or closes it. -/
theorem apply_afterServing {α : Type} (f : WorkerStage → α) {x : α} {index : Nat} {event : Event}
    {isOpen : Bool} (hclosing : f (.closing index .claiming) = x)
    (htaking : f (.taking index) = x) :
    f (Workers.afterServing index event isOpen) = x := by
  rw [Workers.afterServing]
  split
  · exact hclosing
  · exact htaking

theorem apply_afterReading {α : Type} (f : WorkerStage → α) {x : α} {index : Nat} {event : Event}
    {outcome : ReadOutcome} (hreading : f (.reading index event) = x)
    (hclosing : f (.closing index .claiming) = x) (htaking : f (.taking index) = x) :
    f (Workers.afterReading index event outcome) = x := by
  cases outcome with
  | more => exact hreading
  | _ => exact apply_afterServing f hclosing htaking

/-- A worker gets an event at hand by polling it or by taking it from the shared queue. -/
theorem Effect.mem_carries (h : Effect e worker before e' after) (he : e.waiter.queue.Sound)
    (hevent : event ∈ after.carries) :
    event ∈ e.network.ready ∨ event ∈ e.waiter.queue.toList ∨ event ∈ before.carries := by
  cases h with
  | dequeue hqueue =>
      obtain rfl := List.mem_singleton.mp hevent
      exact .inr (.inl ((mem_queue_of_dequeue he hqueue).2 ▸ List.mem_cons_self))
  | poll count =>
      split at hevent
      · contradiction
      · exact .inl (List.mem_of_mem_take hevent)
  | retry => exact .inr (.inr hevent)
  | takeMessages =>
      split at hevent
      · contradiction
      · rw [apply_afterServing WorkerStage.carries rfl rfl] at hevent
        contradiction
  | read =>
      rw [apply_afterReading WorkerStage.carries rfl rfl rfl] at hevent
      contradiction
  | acceptFails | park | leave => split at hevent <;> contradiction
  | @recycle _ next => cases next <;> contradiction
  | _ => contradiction

/-- An event comes into a ring by being placed there, and then names the place. -/
theorem Effect.mem_events (h : Effect e worker before e' after) (he : e.arena.Sound)
    {slot' : ConnectionSlot} (hslot' : e'.arena.slotAt index = some slot')
    (hevent : event ∈ slot'.events) :
    (∃ slot, e.arena.slotAt index = some slot ∧ event ∈ slot.events) ∨
      (before = .placing event ∧ event.token.index = index ∧
        slot'.generation = event.token.generation) := by
  have hput {place : Nat} {slot next : ConnectionSlot} (hslot : e.arena.slotAt place = some slot)
      (hat : (e.arena.put place next).slotAt index = some slot')
      (hnext : place = index → event ∈ next.events → event ∈ slot.events ∨
        (before = .placing event ∧ event.token.index = index ∧
          next.generation = event.token.generation)) :
      (∃ slot, e.arena.slotAt index = some slot ∧ event ∈ slot.events) ∨
        (before = .placing event ∧ event.token.index = index ∧
          slot'.generation = event.token.generation) := by
    by_cases hplace : place = index
    · subst hplace
      rw [Arena.slotAt_put_self hslot] at hat
      obtain rfl := Option.some.inj hat
      exact (hnext rfl hevent).imp_left fun hmem => ⟨slot, hslot, hmem⟩
    · rw [Arena.slotAt_put_of_ne _ (Ne.symm hplace)] at hat
      exact .inl ⟨slot', hat, hevent⟩
  have hpush {placed : Event} {slot : ConnectionSlot} (hadmits : e.Admits placed slot)
      (hplace : placed.token.index = index) (hmem : event ∈ slot.events ++ [placed]) :
      event ∈ slot.events ∨ (WorkerStage.placing placed = .placing event ∧
        event.token.index = index ∧ slot.generation = event.token.generation) := by
    rcases List.mem_append.mp hmem with hold | hnew
    · exact .inl hold
    · obtain rfl := List.mem_singleton.mp hnew
      exact .inr ⟨rfl, hplace, hadmits.current⟩
  cases h with
  | overflow hadmits _ _ hevents =>
      exact hput hadmits.found hslot' fun _ hmem => .inl (hevents ▸ hmem)
  | @add placed slot ring hadmits _ _ hevents =>
      refine hput hadmits.found hslot' fun hplace hmem => hpush hadmits hplace ?_
      have hmem' : event ∈ ring.toList := hmem
      rwa [hevents] at hmem'
  | @claim placed slot ring hadmits _ _ hevents =>
      refine hput hadmits.found hslot' fun hplace hmem => hpush hadmits hplace ?_
      have hmem' : event ∈ ring.toList := hmem
      rwa [hevents] at hmem'
  | @drain _ _ ring hslot _ _ hevents =>
      refine hput hslot hslot' fun _ hmem => ?_
      have hmem' : event ∈ ring.toList := hmem
      rw [hevents] at hmem'
      contradiction
  | takeArrivals hslot _ _ hevents =>
      exact hput hslot hslot' fun _ hmem => .inl (hevents ▸ List.mem_cons_of_mem _ hmem)
  | takeMessages hslot _ _ hevents =>
      exact hput hslot hslot' fun _ hmem => .inl (hevents ▸ List.mem_cons_of_mem _ hmem)
  | activate hslot _ hevents => exact hput hslot hslot' fun _ hmem => .inl (hevents ▸ hmem)
  | install hslot => exact hput hslot hslot' fun _ hmem => .inl hmem
  | close hslot => exact hput hslot hslot' fun _ hmem => .inl hmem
  | retire hslot =>
      refine hput hslot hslot' fun _ hmem => ?_
      rw [he.events_retired hslot] at hmem
      contradiction
  | _ => exact .inl ⟨slot', hslot', hevent⟩

/-- A worker takes the events that it serves from the ring of their connection. -/
theorem Effect.taken (h : Effect e worker before e' after)
    (htaken : after.taken? = some (index, event)) :
    before.taken? = some (index, event) ∨
      ∃ slot, e.arena.slotAt index = some slot ∧ event ∈ slot.events := by
  cases h with
  | lock => exact .inl htaken
  | @takeMessages _ slot _ ring hslot _ _ hevents =>
      split at htaken
      · obtain ⟨rfl, rfl⟩ := Prod.mk.inj (Option.some.inj htaken)
        exact .inr ⟨slot, hslot, hevents ▸ List.mem_cons_self⟩
      · rw [apply_afterServing WorkerStage.taken? rfl rfl] at htaken
        contradiction
  | @read _ _ _ _ _ served =>
      generalize served.outcome = outcome at htaken
      cases outcome with
      | more => exact .inl htaken
      | _ =>
          rw [Workers.afterReading, apply_afterServing WorkerStage.taken? rfl rfl] at htaken
          contradiction
  | acceptFails | park | leave | poll => split at htaken <;> contradiction
  | @recycle _ next => cases next <;> contradiction
  | _ => contradiction

/-! ## Where events go -/

/-- An event that is ready stays so until it is polled or its socket is closed. -/
theorem Effect.of_mem_ready (h : Effect e worker before e' after)
    (hevent : event ∈ e.network.ready) :
    (∃ later ∈ e'.network.ready, later.token = event.token) ∨ event ∈ after.carries ∨
      ∃ index next slot, before = .closing index next ∧ e.arena.slotAt index = some slot ∧
        (event.token, slot.socket) ∈ e.network.watched := by
  cases h with
  | register hslot hwatch =>
      rw [Network.watch_eq_ok hwatch]
      exact .inl (Network.exists_mem_foldl_announce (.inl hevent))
  | @close index next slot hslot =>
      by_cases hwatched : (event.token, slot.socket) ∈ e.network.watched
      · exact .inr (.inr ⟨index, next, slot, rfl, hslot, hwatched⟩)
      · exact .inl ⟨event, Network.mem_ready_close hevent hwatched, rfl⟩
  | poll count =>
      rw [← List.take_append_drop count e.network.ready] at hevent
      rcases List.mem_append.mp hevent with htaken | hleft
      · refine .inr (.inl ?_)
        have hbatch : (e.network.poll count).1.isEmpty = false := by
          rw [List.isEmpty_eq_false_iff]
          exact List.ne_nil_of_mem htaken
        rw [hbatch]
        exact htaken
      · exact .inl ⟨event, hleft, rfl⟩
  | accept haccept => exact .inl ⟨event, (network_of_accept haccept).2.1 ▸ hevent, rfl⟩
  | acceptFails haccept => exact .inl ⟨event, (network_of_accept haccept).2.1 ▸ hevent, rfl⟩
  | _ => exact .inl ⟨event, hevent, rfl⟩

theorem Effect.of_mem_queue (h : Effect e worker before e' after) (he : e.waiter.queue.Sound)
    (hevent : event ∈ e.waiter.queue.toList) :
    event ∈ e'.waiter.queue.toList ∨ event ∈ after.carries := by
  obtain ⟨-, ⟨first, rfl, hlist⟩ | ⟨batch, -, -, hlist⟩ | hsame⟩ := h.queue he
  · rw [hlist] at hevent
    rcases List.mem_cons.mp hevent with rfl | hrest
    · exact .inr (List.mem_singleton_self _)
    · exact .inl hrest
  · exact .inl (hlist ▸ List.mem_append_left _ hevent)
  · exact .inl (hsame ▸ hevent)

/-- A worker that has an event at hand queues it or places it. It drops the event only if the event
names no place in use or if the ring of the place has others. -/
theorem Effect.of_mem_carries (h : Effect e worker before e' after) (he : e.waiter.queue.Sound)
    (hevent : event ∈ before.carries) :
    event ∈ after.carries ∨ event ∈ e'.waiter.queue.toList ∨
      (∃ slot, e'.arena.slotAt event.token.index = some slot ∧ slot.events ≠ []) ∨
      ∀ slot, ¬e.Admits event slot := by
  have hput {placed : Event} {slot next : ConnectionSlot} (hadmits : e.Admits placed slot)
      (hplaced : event ∈ WorkerStage.carries (.placing placed)) (hnext : next.events ≠ []) :
      ∃ later, (e.arena.put placed.token.index next).slotAt event.token.index = some later ∧
        later.events ≠ [] := by
    obtain rfl := List.mem_singleton.mp hplaced
    exact ⟨next, Arena.slotAt_put_self hadmits.found next, hnext⟩
  cases h with
  | discard hstale =>
      obtain rfl := List.mem_singleton.mp hevent
      exact .inr (.inr (.inr hstale))
  | @overflow placed slot ring hadmits hfull _ hevents =>
      have hne : ring.toList ≠ [] := hevents ▸ hfull
      exact .inr (.inr (.inl (hput hadmits hevent hne)))
  | @add placed slot ring hadmits _ _ hevents =>
      have hne : ring.toList ≠ [] := by simp [hevents]
      exact .inr (.inr (.inl (hput hadmits hevent hne)))
  | @claim placed slot ring hadmits _ _ hevents =>
      have hne : ring.toList ≠ [] := by simp [hevents]
      exact .inr (.inr (.inl (hput hadmits hevent hne)))
  | retry => exact .inl hevent
  | enqueue hroom =>
      exact .inr (.inl ((mem_queue_of_enqueue he hroom).2 ▸ List.mem_append_right _ hevent))
  | _ => contradiction

/-- An event stays in the ring of its connection until it is taken. One that says nothing about
bytes to read leads to the closing of the connection at once. -/
theorem Effect.of_mem_events (h : Effect e worker before e' after) {slot : ConnectionSlot}
    (hslot : e.arena.slotAt index = some slot) (hevent : event ∈ slot.events)
    (htelling : event.IsTelling) (hrole : slot.role = .message)
    (hretire : before.retired? ≠ some index) :
    (∃ slot', e'.arena.slotAt index = some slot' ∧ event ∈ slot'.events) ∨
      after.taken? = some (index, event) ∨ after.closes? = some index := by
  have hput {place : Nat} {old next : ConnectionSlot} (hold : e.arena.slotAt place = some old)
      (hnext : place = index → event ∈ old.events → event ∈ next.events) :
      ∃ slot', (e.arena.put place next).slotAt index = some slot' ∧ event ∈ slot'.events :=
    Arena.exists_slotAt_put hslot hevent hold hnext
  cases h with
  | @overflow _ _ ring hadmits _ _ hevents =>
      refine .inl (hput hadmits.found fun _ hmem => ?_)
      exact (show event ∈ ring.toList from hevents ▸ hmem)
  | @add _ _ ring hadmits _ _ hevents =>
      refine .inl (hput hadmits.found fun _ hmem => ?_)
      exact (show event ∈ ring.toList from hevents ▸ List.mem_append_left _ hmem)
  | @claim _ _ ring hadmits _ _ hevents =>
      refine .inl (hput hadmits.found fun _ hmem => ?_)
      exact (show event ∈ ring.toList from hevents ▸ List.mem_append_left _ hmem)
  | drain hold hempty =>
      refine .inl (hput hold fun _ hmem => ?_)
      rw [hempty] at hmem
      contradiction
  | @takeArrivals place old first ring hold hlistener _ hevents =>
      by_cases hplace : place = index
      · subst hplace
        obtain rfl := Option.some.inj (hslot.symm.trans hold)
        rw [hrole] at hlistener
        contradiction
      · exact .inl (hput hold fun heq => absurd heq hplace)
  | @takeMessages place old first ring hold _ _ hevents =>
      by_cases htaken : place = index ∧ event = first
      · obtain ⟨rfl, rfl⟩ := htaken
        refine .inr ?_
        cases hread : event.readable with
        | true => exact .inl rfl
        | false =>
            have hhangup : event.isHangup = true := htelling.resolve_left (by simp [hread])
            exact .inr (by simp [Workers.afterServing, hhangup, WorkerStage.closes?])
      · refine .inl (hput hold fun hplace hmem => ?_)
        rw [hevents] at hmem
        rcases List.mem_cons.mp hmem with rfl | hrest
        · exact absurd ⟨hplace, rfl⟩ htaken
        · exact hrest
  | @activate _ _ _ ring hold _ hevents =>
      refine .inl (hput hold fun _ hmem => ?_)
      exact (show event ∈ ring.toList from hevents ▸ hmem)
  | install hold => exact .inl (hput hold fun _ hmem => hmem)
  | close hold => exact .inl (hput hold fun _ hmem => hmem)
  | retire hold => exact .inl (hput hold fun hplace => absurd (congrArg some hplace) hretire)
  | _ => exact .inl ⟨slot, hslot, hevent⟩

/-- A worker that serves an event does so until nothing is left to read, or closes the connection.
-/
theorem Effect.of_taken (h : Effect e worker before e' after) (hprompt : e.network.IsPrompt)
    (htaken : before.taken? = some (index, event)) :
    after.taken? = some (index, event) ∨ after.closes? = some index ∨
      ∃ slot stream peer, e.arena.slotAt index = some slot ∧ slot.socket = .stream stream ∧
        e'.network.peerAt stream = some peer ∧ peer.source.isOutstanding = false := by
  cases h with
  | lock => exact .inl htaken
  | miss =>
      obtain ⟨rfl, rfl⟩ := Prod.mk.inj (Option.some.inj htaken)
      exact .inr (.inl rfl)
  | @read _ _ slot stream peer served hslot hsocket hpeer hserved =>
      obtain ⟨rfl, rfl⟩ := Prod.mk.inj (Option.some.inj htaken)
      cases houtcome : served.outcome with
      | more => exact .inl rfl
      | drained =>
          refine .inr (.inr ⟨slot, stream, served.peer, hslot, hsocket, ?_,
            not_isOutstanding_of_drained (hprompt stream peer hpeer) hserved houtcome⟩)
          rw [Network.peerAt_modifyPeer, if_pos rfl, hpeer]
          rfl
      | ended => exact .inr (.inl rfl)
      | failed => exact .inr (.inl rfl)
  | _ => contradiction

end Server

end KeyValueServer
