import KeyValueServer.Proofs.Store.Lookup
import KeyValueServer.Proofs.Workers.Punctual

/-!
# A connection has one owner

However many workers there are, however their steps interleave and whatever events come in, in any
order and as often as they like, a place is being served exactly while it is in the phase for it, by
one worker, and has events only then.

Events may not come too early. One that names a client before the client is watched can give its
place to a second worker, while the first still has to give it back.
-/

namespace KeyValueServer.Server

/-- The place that a worker has claimed and serves, from the step that makes it the worker's to the
one that makes it idle again or gives it back. -/
def WorkerStage.served? : WorkerStage → Option Nat
  | taking index => some index
  | opening index _ => some index
  | reading index _ => some index
  | accepting index => some index
  | reserving index _ => some index
  | installing index _ _ => some index
  | activating index _ => some index
  | registering index _ _ => some index
  | closing index .claiming => some index
  | closing _ (.accepting index) => some index
  | retiring index .claiming => some index
  | retiring _ (.accepting index) => some index
  | recycling _ (.accepting index) => some index
  | _ => none

theorem WorkerStage.served?_eq_some_iff {stage : WorkerStage} {place : Nat} :
    stage.served? = some place ↔
      ∃ tenure, (place, tenure) ∈ stage.holds ∧ tenure.phase = .running := by
  rcases stage with _ | _ | _ | _ | _ | _ | _ | _ | _ | _ | _ | ⟨_, _ | _⟩ | ⟨_, _ | _⟩ |
    ⟨_, _ | _⟩ | _ | _ | _ | _ | _ | _ | _ <;>
  · simp only [holds, served?, List.mem_cons, List.not_mem_nil, Prod.mk.injEq, or_false,
      or_and_right, exists_or, and_assoc, exists_and_left, exists_eq_left, false_and]
    simp [Tenure.phase, eq_comm]

/-- The place of which a worker is about to take an event. -/
def WorkerStage.taking? : WorkerStage → Option Nat
  | taking index => some index
  | _ => none

theorem WorkerStage.eq_taking {stage : WorkerStage} {place : Nat} (h : stage.taking? = some place) :
    stage = .taking place := by
  cases stage with
  | taking index =>
      obtain rfl := Option.some.inj h
      rfl
  | _ => contradiction

namespace Workers

variable {c : Config} {memory : Allocator} {table : Table} {network : Network} {engine : Engine}
  {mayBecome : Network → Network → Prop} {s : Workers}

/-- As long as no event names a client that is not watched yet, every place has one owner at most,
it has one exactly while it is in the phase for being served, it has events only then, and a worker
that goes to take one always finds the place in that phase. -/
theorem Reachable.single_owner (hnew : Engine.new c memory table network = .ok engine)
    (h : Reachable engine mayBecome Timely s) :
    (∀ index slot, s.engine.arena.slotAt index = some slot →
      (slot.phase = .running ↔ ∃! worker, (s.stages worker).served? = some index)) ∧
    (∀ index w w', (s.stages w).served? = some index → (s.stages w').served? = some index →
      w = w') ∧
    (∀ index slot ring, s.engine.arena.slotAt index = some slot → slot.ring = some ring →
      ring.isEmpty = false → slot.phase = .running) ∧
    (∀ worker index, s.stages worker = .taking index →
      ∃ slot, s.engine.arena.slotAt index = some slot ∧ slot.phase = .running ∧
        ∀ phase, (s.engine.takeEvent index).1 ≠ .misplaced phase) := by
  have hs := h.tenanted hnew
  have hone : ∀ index w w', (s.stages w).served? = some index →
      (s.stages w').served? = some index → w = w' := by
    intro index w w' hserved hserved'
    obtain ⟨tenure, hheld, -⟩ := WorkerStage.served?_eq_some_iff.mp hserved
    obtain ⟨tenure', hheld', -⟩ := WorkerStage.served?_eq_some_iff.mp hserved'
    exact (hs.holder_unique hheld hheld').1
  refine ⟨fun index slot hslot => ⟨fun hrunning => ?_, fun hserved => ?_⟩, hone,
    fun index slot ring hslot hring hnonempty => ?_, fun worker index hstage => ?_⟩
  · obtain ⟨keeper, hkeeps, hfits⟩ := hs.of_slotAt hslot
    have hphase := hfits.phase.symm.trans hrunning
    cases keeper with
    | line => contradiction
    | nobody => contradiction
    | worker w tenure =>
        have hserved := WorkerStage.served?_eq_some_iff.mpr
          ⟨tenure, (hkeeps.worker w tenure).mpr rfl, hphase⟩
        exact ⟨w, hserved, fun w' hserved' => hone index w' w hserved' hserved⟩
  · obtain ⟨w, hserved, -⟩ := hserved
    obtain ⟨tenure, hheld, hphase⟩ := WorkerStage.served?_eq_some_iff.mp hserved
    obtain ⟨-, slot', hslot', hfits⟩ := hs.of_mem_holds hheld
    obtain rfl := Option.some.inj (hslot.symm.trans hslot')
    exact hfits.phase.trans hphase
  · obtain ⟨keeper, -, hfits⟩ := hs.of_slotAt hslot
    refine hfits.phase.trans (hfits.busy fun hevents => ?_)
    have hempty : ring.toList = [] := by simpa [ConnectionSlot.events, hring] using hevents
    rw [← (hs.sound.rings hslot hring).isEmpty_iff, hnonempty] at hempty
    contradiction
  · have hheld : (index, Tenure.serving) ∈ (s.stages worker).holds := by
      simp [hstage, WorkerStage.holds]
    obtain ⟨-, slot, hslot, hfits⟩ := hs.of_mem_holds hheld
    refine ⟨slot, hslot, hfits.phase, fun phase htake => ?_⟩
    obtain ⟨ring, -, ⟨-, -, heq⟩ | ⟨event, -, heq⟩⟩ :=
      Engine.takeEvent_cases hs.sound hslot hfits.phase
    · rw [heq] at htake
      contradiction
    · rw [heq] at htake
      contradiction

/-- A pool of two places. -/
def smallConfig : Config :=
  { Config.default with
    threads := 2
    maxConnections := 2
    eventQueueCapacity := 4
    connectionQueueCapacity := 4
    pollBatch := 2 }

/-- The first worker takes the report on one client and is about to take the client in when a second
client comes, and the second worker takes the report on that one. -/
def twoArrivals : List Occurrence :=
  [.connect] ++ List.replicate 10 (.work 0 (.events 2)) ++ [.connect] ++
    List.replicate 10 (.work 1 (.events 2))

/-- Both reports are about the listener, whose place stays with the first worker: the second worker
leaves its report in the ring. -/
theorem single_owner_of_twoArrivals :
    ∃ table engine s slot ring, Table.new unlimited (fun _ => 0) 1 1 = .ok table ∧
      Engine.new smallConfig unlimited table (.idle true) = .ok engine ∧
      (beginning engine).run twoArrivals = some s ∧
      s.engine.arena.slotAt Arena.listenerIndex = some slot ∧ slot.ring = some ring ∧
      ring.length = 2 ∧ slot.phase = .running ∧
      (s.stages 0).served? = some Arena.listenerIndex ∧
      ∀ worker, (s.stages worker).served? = some Arena.listenerIndex → worker = 0 := by
  obtain ⟨table, htable⟩ := Table.new_unlimited (fun _ => 0) 1 1 (by decide) (by decide) (by decide)
  have hrun : ((Engine.new smallConfig unlimited table (.idle true)).toOption.bind fun engine =>
      ((beginning engine).run twoArrivals).bind fun s =>
        (s.engine.arena.slotAt Arena.listenerIndex).bind fun slot => slot.ring.map fun ring =>
          (ring.isEmpty, ring.length, (s.stages 0).served?)) = some (false, 2, some 0) := by
    rw [Table.eq_of_new htable]
    decide
  simp only [Option.bind_eq_some_iff, Option.map_eq_some_iff, Prod.mk.injEq] at hrun
  obtain ⟨engine, hsome, s, hs, slot, hslot, ring, hring, hnonempty, hlength, hserved⟩ := hrun
  have hengine := Engine.new_of_toOption hsome
  have hreach : Reachable engine (fun _ _ => True) Timely s :=
    Reachable.of_run hengine (by decide) rfl rfl (fun _ _ => trivial) hs (by decide)
  obtain ⟨-, hone, hbusy, -⟩ := hreach.single_owner hengine
  exact ⟨table, engine, s, slot, ring, htable, hengine, hs, hslot, hring, hlength,
    hbusy _ slot ring hslot hring hnonempty, hserved,
    fun worker hworker => hone _ worker 0 hworker hserved⟩

/-! ## Reports on clients that are not watched -/

/-- A network in which a client waits that cannot be watched. -/
def unwatchable : Network :=
  { Network.idle true with peers := #[.connected false], backlog := [.client 0] }

/-- A worker goes on from step to step, and its polls are answered with up to two events. -/
def steps (worker count : Nat) : List Occurrence := List.replicate count (.work worker (.events 2))

/-- An event of the first client place before the place was ever given back. -/
def earlyReport : Event := { Event.blank (ConnectionToken.encode 1 0) with readable := true }

/-- One worker has declared the place of a client idle when a report on it comes. Another claims the
place, the first cannot have it watched and gives it back, and the second finds it free. -/
theorem not_single_owner_of_earlyReport :
    ∃ table engine s, Table.new unlimited (fun _ => 0) 1 1 = .ok table ∧
      Engine.new smallConfig unlimited table unwatchable = .ok engine ∧
      Reachable engine (fun _ _ => True) (fun _ => True) s ∧ s.stages 1 = .taking 1 ∧
      (s.engine.takeEvent 1).1 = .misplaced .free := by
  obtain ⟨table, htable⟩ := Table.new_unlimited (fun _ => 0) 1 1 (by decide) (by decide) (by decide)
  have hrun : ((Engine.new smallConfig unlimited table unwatchable).toOption.bind fun engine =>
      ((beginning engine).run (steps 0 15)).bind fun s₁ =>
        ((s₁.happen fun _ => { s₁.engine.network with ready := [earlyReport] }).run
          (steps 1 10 ++ steps 0 3)).map fun s =>
            ((s.stages 1).taking?, (s.engine.arena.slotAt 1).map ConnectionSlot.phase)) =
      some (some 1, some .free) := by
    rw [Table.eq_of_new htable]
    decide
  simp only [Option.bind_eq_some_iff, Option.map_eq_some_iff, Prod.mk.injEq] at hrun
  obtain ⟨engine, hsome, s₁, hfirst, s, hsecond, htaking, slot, hslot, hfree⟩ := hrun
  have hreach : Reachable engine (fun _ _ => True) (fun _ => True) s₁ :=
    Reachable.beginning.run hfirst
  refine ⟨table, engine, s, htable, Engine.new_of_toOption hsome,
    (hreach.happen trivial trivial).run hsecond, WorkerStage.eq_taking htaking, ?_⟩
  simp only [Engine.takeEvent, hslot, hfree, ne_eq, reduceCtorEq, not_false_eq_true, if_true]

end Workers

end KeyValueServer.Server
