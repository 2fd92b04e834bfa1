import KeyValueServer.Proofs.Workers.Tenancy

/-!
# What can come about

Workers take their steps in any order, and between the steps the network becomes another one. What
comes about may have to keep to a condition. Where the work is to be divided between workers it is
that the network reports on a client only once the server has it watched. While a place is being
given to a client, there may be events of clients that had the place before, but none that names the
client.
-/

namespace KeyValueServer.Server

/-- The events that a worker has at hand. -/
def WorkerStage.carries : WorkerStage → List Event
  | queueing batch => batch
  | placing event => [event]
  | _ => []

namespace Workers

/-- The event was made ready and is not in the ring of a connection yet. -/
def IsUnderway (s : Workers) (event : Event) : Prop :=
  event ∈ s.engine.network.ready ∨ event ∈ s.engine.waiter.queue.toList ∨
    ∃ worker, event ∈ (s.stages worker).carries

/-- No event has come for a client that is not watched yet. -/
def Timely (s : Workers) : Prop :=
  ∀ event worker place slot, s.IsUnderway event → (s.stages worker).pending? = some place →
    s.engine.arena.slotAt place = some slot → event.token.index = place →
    slot.generation ≠ event.token.generation

/-- What can come about from an engine with any number of workers: they take their steps in any
order, and between the steps the network becomes another one. All of it keeps to a condition. -/
inductive Reachable (engine : Engine) (mayBecome : Network → Network → Prop)
    (within : Workers → Prop) : Workers → Prop
  | beginning : Reachable engine mayBecome within (beginning engine)
  | work {s s' : Workers} (hs : Reachable engine mayBecome within s) {worker : Nat}
      {answer : PollAnswer} (hstep : s.step worker answer = some s') (hwithin : within s') :
      Reachable engine mayBecome within s'
  | happen {s : Workers} (hs : Reachable engine mayBecome within s) {network : Network}
      (hbecomes : mayBecome s.engine.network network)
      (hwithin : within (s.happen fun _ => network)) :
      Reachable engine mayBecome within (s.happen fun _ => network)

theorem isUnderway_of_placing {s : Workers} {worker : Nat} {event : Event}
    (h : s.stages worker = .placing event) : s.IsUnderway event :=
  .inr (.inr ⟨worker, by simp [h, WorkerStage.carries]⟩)

/-- Where events come in time, the one that is about to be placed does not name a place that is
being given to a client. -/
theorem Timely.not_pending {s : Workers} (hs : s.Timely) {worker : Nat} {event : Event}
    {slot : ConnectionSlot} (hstage : s.stages worker = .placing event)
    (hadmits : s.engine.Admits event slot) (w : Nat) :
    (s.stages w).pending? ≠ some event.token.index :=
  fun hpending => hs event w _ slot (isUnderway_of_placing hstage) hpending hadmits.found rfl
    hadmits.current

variable {c : Config} {memory : Allocator} {table : Table} {network : Network} {engine : Engine}
  {mayBecome : Network → Network → Prop} {s : Workers}

theorem timely_beginning (engine : Engine) : (beginning engine).Timely := by
  intro event worker place slot _ hpending
  contradiction

theorem Reachable.timely (h : Reachable engine mayBecome Timely s) : s.Timely := by
  cases h with
  | beginning => exact timely_beginning engine
  | work _ _ htimely => exact htimely
  | happen _ _ htimely => exact htimely

theorem Reachable.tenanted (hnew : Engine.new c memory table network = .ok engine)
    (h : Reachable engine mayBecome Timely s) : Tenanted s.engine.arena s.stages := by
  induction h with
  | beginning => exact tenanted_of_new hnew
  | work hs hstep htimely ih =>
      refine (ih.moved_of_step hstep).tenanted ih fun event slot hstage hadmits =>
        hs.timely.not_pending hstage hadmits
  | happen _ _ _ ih => exact ih

end Workers

/-! ## Runs -/

/-- What can happen next: a worker takes a step, or a client connects, sends or ends what it sends.
-/
inductive Occurrence where
  | work (worker : Nat) (answer : PollAnswer)
  | connect
  | send (stream : StreamId) (bytes : Bytes)
  | finish (stream : StreamId)

/-- The network after an occurrence, as far as the clients bring it about. -/
def Occurrence.change (o : Occurrence) (n : Network) : Network :=
  match o with
  | work _ _ => n
  | connect => (n.connect.toOption.map Prod.snd).getD n
  | send stream bytes => n.send stream bytes
  | finish stream => n.finish stream

/-- The worker that takes a step, if one does. -/
def Occurrence.worker? : Occurrence → Option Nat
  | work worker _ => some worker
  | _ => none

namespace Workers

def perform (s : Workers) : Occurrence → Option Workers
  | .work worker answer => s.step worker answer
  | o => some (s.happen o.change)

/-- One occurrence after the other. -/
def run (s : Workers) (os : List Occurrence) : Option Workers := os.foldlM perform s

/-- Where nothing is asked of the network, every run is one that can come about. -/
theorem Reachable.run {engine : Engine} {s s' : Workers} {os : List Occurrence}
    (h : Reachable engine (fun _ _ => True) (fun _ => True) s) (hrun : s.run os = some s') :
    Reachable engine (fun _ _ => True) (fun _ => True) s' := by
  induction os generalizing s with
  | nil =>
      obtain rfl := Option.some.inj hrun
      exact h
  | cons o rest ih =>
      rw [Workers.run, List.foldlM_cons] at hrun
      obtain ⟨next, hperform, hrest⟩ := Option.bind_eq_some_iff.mp hrun
      refine ih ?_ hrest
      cases o with
      | work worker answer => exact h.work hperform trivial
      | connect | send | finish =>
          obtain rfl := Option.some.inj hperform
          exact h.happen trivial trivial

end Workers

end KeyValueServer.Server
