import KeyValueServer.Proofs.Workers.Effect

/-!
# All places stay tenanted

Every effect of a step keeps the invariant. One needs more than the invariant: an event may claim a
place only if nobody has it, which fails for a place that a worker has declared idle for a client
and not had watched yet.
-/

namespace KeyValueServer.Server

/-- The place that a worker has declared idle for a client and not had watched yet, or not given
back yet if it could not be watched. -/
def WorkerStage.pending? : WorkerStage → Option Nat
  | registering _ place _ => some place
  | closing place (.accepting _) => some place
  | retiring place (.accepting _) => some place
  | _ => none

theorem WorkerStage.pending?_eq_some_iff {stage : WorkerStage} {place : Nat} :
    stage.pending? = some place ↔
      ∃ tenure, (place, tenure) ∈ stage.holds ∧ tenure.phase = .waiting := by
  rcases stage with _ | _ | _ | _ | _ | _ | _ | _ | _ | _ | _ | ⟨_, _ | _⟩ | ⟨_, _ | _⟩ |
    ⟨_, _ | _⟩ | _ | _ | _ | _ | _ | _ | _ <;>
  · simp only [holds, pending?, List.mem_cons, List.not_mem_nil, Prod.mk.injEq, or_false,
      or_and_right, exists_or, and_assoc, exists_and_left, exists_eq_left, false_and]
    simp [Tenure.phase, eq_comm]

namespace Tenanted

variable {e : Engine} {stages : Nat → WorkerStage} {worker index place : Nat}
  {slot : ConnectionSlot} {ring : EventRing}

/-- A ring that changes at a place that is being served. -/
theorem setRing (hs : Tenanted e.arena stages) {stage : WorkerStage}
    (hslot : e.arena.slotAt place = some slot) (hrunning : slot.phase = .running)
    (hring : ring.Sound)
    (hholds : ∀ index tenure, (index, tenure) ∈ stage.holds ↔
      (index, tenure) ∈ (stages worker).holds) :
    Tenanted (e.arena.put place { slot with ring := some ring }) (turn stages worker stage) := by
  obtain ⟨keeper, hkeeps, hfits⟩ := hs.of_slotAt hslot
  exact hs.put keeper hslot (by simpa using hring) (fun index _ => hholds index)
    (hkeeps.congr Iff.rfl (hholds place))
    ⟨hfits.phase, fun _ => hfits.phase.symm.trans hrunning, hfits.suits.congr rfl rfl⟩

/-- An event that comes in time can claim only a place that is nobody's. -/
theorem claim (hs : Tenanted e.arena stages) {event : Event}
    (hstage : stages worker = .placing event) (hadmits : e.Admits event slot)
    (hidle : slot.phase = .waiting) (hring : ring.Sound)
    (htimely : ∀ w, (stages w).pending? ≠ some event.token.index) :
    Tenanted (e.arena.put event.token.index { slot with phase := .running, ring := some ring })
      (turn stages worker (.taking event.token.index)) := by
  obtain ⟨keeper, hkeeps, hfits⟩ := hs.of_slotAt hadmits.found
  have hnobody : keeper = .nobody := by
    have hphase := hfits.phase
    rw [hidle] at hphase
    cases keeper with
    | line => contradiction
    | nobody => rfl
    | worker w tenure =>
        refine absurd (WorkerStage.pending?_eq_some_iff.mpr ?_) (htimely w)
        exact ⟨tenure, (hkeeps.worker w tenure).mpr rfl, hphase.symm⟩
  subst hnobody
  refine hs.put (.worker worker .serving) hadmits.found (by simpa using hring)
    (fun index hindex tenure => by simp [hstage, WorkerStage.holds, hindex])
    (hkeeps.turn rfl (by simp [Keeper.isOthers])
      (fun tenure => by simp [WorkerStage.holds, eq_comm]) (by simp [hkeeps.line])) ?_
  exact ⟨rfl, fun _ => rfl, hfits.suits⟩

theorem drain (hs : Tenanted e.arena stages) (hstage : stages worker = .taking index)
    (hslot : e.arena.slotAt index = some slot) (hring : ring.Sound) (hevents : ring.toList = []) :
    Tenanted (e.arena.put index { slot with phase := .waiting, ring := some ring })
      (turn stages worker .claiming) := by
  have hholds : (index, Tenure.serving) ∈ (stages worker).holds := by
    simp [hstage, WorkerStage.holds]
  obtain ⟨hkeeps, slot', hslot', hfits⟩ := hs.of_mem_holds hholds
  obtain rfl := Option.some.inj (hslot.symm.trans hslot')
  refine hs.put .nobody hslot (by simpa using hring)
    (fun other hother tenure => by simp [hstage, WorkerStage.holds, hother])
    (hkeeps.turn (by simp [Keeper.isOthers]) rfl
      (fun tenure => by simp [WorkerStage.holds]) (by simp [hkeeps.line])) ?_
  exact ⟨rfl, fun h => absurd (by simp [ConnectionSlot.events, hevents]) h, hfits.suits⟩

theorem reserve (hs : Tenanted e.arena stages) {stream : StreamId} {free : List Nat}
    (hstage : stages worker = .reserving index stream) (hfree : e.arena.free = place :: free) :
    Tenanted { e.arena with free } (turn stages worker (.installing index place stream)) := by
  have hmem : place ∈ e.arena.free := by simp [hfree]
  obtain ⟨hkeeps, slot, hslot, hfits⟩ := hs.of_mem_free hmem
  have honce := hs.once
  rw [hfree, List.nodup_cons] at honce
  have hne : place ≠ index := by
    rintro rfl
    have hholds : (place, Tenure.accepting) ∈ (stages worker).holds := by
      simp [hstage, WorkerStage.holds]
    exact Keeper.noConfusion (hkeeps.unique (hs.of_mem_holds hholds).1)
  refine hs.move place (.worker worker .emptied) ⟨hs.sound.room, hs.sound.rings⟩ honce.2
    (fun _ _ => rfl) (fun other hother => by simp [hfree, hother])
    (fun other hother tenure => by simp [hstage, WorkerStage.holds, hother])
    (hkeeps.turn rfl (by simp [Keeper.isOthers])
      (fun tenure => by simp [WorkerStage.holds, hne.symm, eq_comm]) (by simp [honce.1])) ?_
  have hslot' : Arena.slotAt { e.arena with free } place = some slot := hslot
  rw [hslot']
  exact ⟨hfits.phase, hfits.busy, hfits.suits⟩

theorem register (hs : Tenanted e.arena stages) {token : ConnectionToken}
    (hstage : stages worker = .registering index place token) :
    Tenanted e.arena (turn stages worker (.accepting index)) := by
  have hheld : (place, Tenure.presented) ∈ (stages worker).holds := by
    simp [hstage, WorkerStage.holds]
  have haccepts : (index, Tenure.accepting) ∈ (stages worker).holds := by
    simp [hstage, WorkerStage.holds]
  have hne : place ≠ index := hs.ne_of_mem_holds haccepts hheld (by decide)
  obtain ⟨hkeeps, slot, hslot, hfits⟩ := hs.of_mem_holds hheld
  refine hs.move place .nobody hs.sound hs.once (fun _ _ => rfl) (fun _ _ => Iff.rfl)
    (fun other hother tenure => by simp [hstage, WorkerStage.holds, hother])
    (hkeeps.turn (by simp [Keeper.isOthers]) rfl
      (fun tenure => by simp [WorkerStage.holds, hne]) (by simp [hkeeps.line])) ?_
  rw [hslot]
  exact ⟨hfits.phase, hfits.busy, hfits.suits.2⟩

theorem recycle (hs : Tenanted e.arena stages) {next : Resumption}
    (hstage : stages worker = .recycling index next) :
    Tenanted { e.arena with free := e.arena.free ++ [index] }
      (turn stages worker (Workers.resume next)) := by
  have hheld : (index, Tenure.emptied) ∈ (stages worker).holds := by
    cases next <;> simp [hstage, WorkerStage.holds]
  obtain ⟨hkeeps, slot, hslot, hfits⟩ := hs.of_mem_holds hheld
  have hfree : index ∉ e.arena.free := by simp [hkeeps.line]
  refine hs.move index .line ⟨hs.sound.room, hs.sound.rings⟩
    (List.nodup_append.mpr ⟨hs.once, by simp, ?_⟩)
    (fun _ _ => rfl) (fun other hother => by simp [hother]) ?_
    (hkeeps.turn (by simp [Keeper.isOthers]) rfl ?_ (by simp)) ?_
  · rintro other hother _ hmem rfl
    exact hfree (List.mem_singleton.mp hmem ▸ hother)
  · intro other hother tenure
    cases next <;> simp [hstage, WorkerStage.holds, Workers.resume, hother]
  · intro tenure
    cases next with
    | claiming => simp [WorkerStage.holds, Workers.resume]
    | accepting place =>
        have haccepts : (place, Tenure.accepting) ∈ (stages worker).holds := by
          simp [hstage, WorkerStage.holds]
        have hne : index ≠ place := hs.ne_of_mem_holds haccepts hheld (by decide)
        simp [WorkerStage.holds, Workers.resume, hne]
  · have hslot' : Arena.slotAt { e.arena with free := e.arena.free ++ [index] } index = some slot :=
      hslot
    rw [hslot']
    exact ⟨hfits.phase, hfits.busy, hfits.suits⟩

/-- A worker that goes on with a place as it is. -/
theorem goOnWith (hs : Tenanted e.arena stages) {stage : WorkerStage} {tenure : Tenure}
    (hheld : (place, tenure) ∈ (stages worker).holds) (tenure' : Tenure)
    (hothers : ∀ index, index ≠ place → ∀ tenure,
      (index, tenure) ∈ stage.holds ↔ (index, tenure) ∈ (stages worker).holds)
    (hmine : ∀ other, (place, other) ∈ stage.holds ↔ other = tenure')
    (hfits : ∀ slot, (Keeper.worker worker tenure).Fits place slot →
      (Keeper.worker worker tenure').Fits place slot) :
    Tenanted e.arena (turn stages worker stage) := by
  obtain ⟨-, slot, hslot, -⟩ := hs.of_mem_holds hheld
  have hnext := hs.progress hheld tenure' hslot (fun _ h => hs.sound.rings hslot h) hothers hmine
    (hfits slot)
  rwa [Arena.put_eq_self hslot] at hnext

theorem afterServing (hs : Tenanted e.arena stages) {event : Event}
    (hstage : stages worker = .reading index event) (isOpen : Bool) :
    Tenanted e.arena (turn stages worker (Workers.afterServing index event isOpen)) := by
  rw [Workers.afterServing]
  split
  · exact hs.goOn fun other tenure => by simp [hstage, WorkerStage.holds]
  · have hheld : (index, Tenure.reading) ∈ (stages worker).holds := by
      simp [hstage, WorkerStage.holds]
    refine hs.goOnWith hheld .serving
      (fun other hother tenure => by simp [hstage, WorkerStage.holds, hother])
      (fun other => by simp [WorkerStage.holds]) fun slot hfits => ?_
    exact ⟨hfits.phase, hfits.busy, hfits.suits.2⟩

theorem takeMessages (hs : Tenanted e.arena stages) {event : Event}
    (hstage : stages worker = .taking index) (hslot : e.arena.slotAt index = some slot)
    (hrole : slot.role = .message) (hring : ring.Sound) :
    Tenanted (e.arena.put index { slot with ring := some ring })
      (turn stages worker (if event.readable then .opening index event
        else Workers.afterServing index event true)) := by
  have hread {stage : WorkerStage} (hholds : stage.holds = [(index, .reading)]) :
      Tenanted (e.arena.put index { slot with ring := some ring }) (turn stages worker stage) := by
    have hheld : (index, Tenure.serving) ∈ (stages worker).holds := by
      simp [hstage, WorkerStage.holds]
    refine hs.progress hheld .reading hslot (by simpa using hring)
      (fun other hother tenure => by rw [hholds, hstage]; simp [WorkerStage.holds, hother])
      (fun other => by simp [hholds]) fun hfits => ?_
    have hindex : index ≠ Arena.listenerIndex := by
      rintro rfl
      have hopen := hfits.suits
      simp only [Keeper.Suits, Tenure.Suits, ConnectionSlot.IsOpen, if_pos, hrole] at hopen
      exact ConnectionRole.noConfusion hopen.1
    exact ⟨hfits.phase, fun _ => rfl, hindex, hfits.suits⟩
  rw [Workers.afterServing]
  split
  · exact hread rfl
  · split
    · exact hread rfl
    · have hheld : (index, Tenure.serving) ∈ (stages worker).holds := by
        simp [hstage, WorkerStage.holds]
      obtain ⟨-, slot', hslot', hfits⟩ := hs.of_mem_holds hheld
      obtain rfl := Option.some.inj (hslot.symm.trans hslot')
      exact hs.setRing hslot hfits.phase hring fun other tenure => by simp [hstage]

theorem install (hs : Tenanted e.arena stages) {stream : StreamId}
    (hstage : stages worker = .installing index place stream)
    (hslot : e.arena.slotAt place = some slot) :
    Tenanted (e.arena.put place { slot with socket := .stream stream })
      (turn stages worker (.activating index place)) := by
  have hheld : (place, Tenure.emptied) ∈ (stages worker).holds := by
    simp [hstage, WorkerStage.holds]
  have haccepts : (index, Tenure.accepting) ∈ (stages worker).holds := by
    simp [hstage, WorkerStage.holds]
  have hne : place ≠ index := hs.ne_of_mem_holds haccepts hheld (by decide)
  refine hs.progress hheld .filled hslot (fun _ h => hs.sound.rings hslot h)
    (fun other hother tenure => by simp [hstage, WorkerStage.holds, hother])
    (fun other => by simp [WorkerStage.holds, hne]) fun hfits => ?_
  exact ⟨hfits.phase, hfits.busy, hfits.suits.1, stream, rfl⟩

theorem activate (hs : Tenanted e.arena stages) {token : ConnectionToken}
    (hstage : stages worker = .activating index place)
    (hslot : e.arena.slotAt place = some slot) (hring : ring.Sound)
    (hevents : ring.toList = slot.events) :
    Tenanted
      (e.arena.put place { slot with phase := .waiting, role := .message, ring := some ring })
      (turn stages worker (.registering index place token)) := by
  have hheld : (place, Tenure.filled) ∈ (stages worker).holds := by
    simp [hstage, WorkerStage.holds]
  have haccepts : (index, Tenure.accepting) ∈ (stages worker).holds := by
    simp [hstage, WorkerStage.holds]
  have hne : place ≠ index := hs.ne_of_mem_holds haccepts hheld (by decide)
  refine hs.progress hheld .presented hslot (by simpa using hring)
    (fun other hother tenure => by simp [hstage, WorkerStage.holds, hother])
    (fun other => by simp [WorkerStage.holds, hne]) fun hfits => ?_
  have hquiet : slot.events = [] := hfits.quiet (by simp [Keeper.phase, Tenure.phase])
  refine ⟨rfl, fun h => absurd (hevents.trans hquiet) h, hfits.suits.1, ?_⟩
  rw [ConnectionSlot.IsOpen, if_neg hfits.suits.1]
  exact ⟨rfl, hfits.suits.2⟩

theorem close (hs : Tenanted e.arena stages) {next : Resumption}
    (hstage : stages worker = .closing index next) (hslot : e.arena.slotAt index = some slot) :
    Tenanted (e.arena.put index { slot with socket := .closed })
      (turn stages worker (.retiring index next)) := by
  cases next with
  | claiming =>
      have hheld : (index, Tenure.reading) ∈ (stages worker).holds := by
        simp [hstage, WorkerStage.holds]
      refine hs.progress hheld .closed hslot (fun _ h => hs.sound.rings hslot h)
        (fun other hother tenure => by simp [hstage, WorkerStage.holds, hother])
        (fun other => by simp [WorkerStage.holds]) fun hfits => ?_
      exact ⟨hfits.phase, fun _ => rfl, hfits.suits.1, rfl⟩
  | accepting place =>
      have hheld : (index, Tenure.presented) ∈ (stages worker).holds := by
        simp [hstage, WorkerStage.holds]
      have haccepts : (place, Tenure.accepting) ∈ (stages worker).holds := by
        simp [hstage, WorkerStage.holds]
      have hne : index ≠ place := hs.ne_of_mem_holds haccepts hheld (by decide)
      refine hs.progress hheld .withdrawn hslot (fun _ h => hs.sound.rings hslot h)
        (fun other hother tenure => by simp [hstage, WorkerStage.holds, hother])
        (fun other => by simp [WorkerStage.holds, hne]) fun hfits => ?_
      exact ⟨hfits.phase, hfits.busy, hfits.suits.1, rfl⟩

theorem retire (hs : Tenanted e.arena stages) {next : Resumption}
    (hstage : stages worker = .retiring index next) (hslot : e.arena.slotAt index = some slot) :
    Tenanted (e.arena.put index slot.retired) (turn stages worker (.recycling index next)) := by
  have hrings : ∀ ring, slot.retired.ring = some ring → ring.Sound := by
    intro ring hring
    obtain ⟨old, hold, rfl⟩ := Option.map_eq_some_iff.mp hring
    exact (hs.sound.rings hslot hold).reset
  have hquiet := hs.sound.events_retired hslot
  cases next with
  | claiming =>
      have hheld : (index, Tenure.closed) ∈ (stages worker).holds := by
        simp [hstage, WorkerStage.holds]
      refine hs.progress hheld .emptied hslot hrings
        (fun other hother tenure => by simp [hstage, WorkerStage.holds, hother])
        (fun other => by simp [WorkerStage.holds]) fun hfits => ?_
      exact ⟨rfl, fun h => absurd hquiet h, hfits.suits⟩
  | accepting place =>
      have hheld : (index, Tenure.withdrawn) ∈ (stages worker).holds := by
        simp [hstage, WorkerStage.holds]
      have haccepts : (place, Tenure.accepting) ∈ (stages worker).holds := by
        simp [hstage, WorkerStage.holds]
      have hne : index ≠ place := hs.ne_of_mem_holds haccepts hheld (by decide)
      refine hs.progress hheld .emptied hslot hrings
        (fun other hother tenure => by simp [hstage, WorkerStage.holds, hother])
        (fun other => by simp [WorkerStage.holds, hne]) fun hfits => ?_
      exact ⟨rfl, fun h => absurd hquiet h, hfits.suits⟩

end Tenanted

/-- A step keeps all places tenanted, if the event that is about to be placed does not come too
early. -/
theorem Workers.Moved.tenanted {s s' : Workers} {worker : Nat} (h : s.Moved worker s')
    (hs : Tenanted s.engine.arena s.stages)
    (htimely : ∀ event slot, s.stages worker = .placing event → s.engine.Admits event slot →
      ∀ w, (s.stages w).pending? ≠ some event.token.index) :
    Tenanted s'.engine.arena s'.stages := by
  obtain ⟨stage, heffect, hstages⟩ := h
  rw [hstages]
  generalize hstage : s.stages worker = before at heffect
  generalize s'.engine = after at heffect ⊢
  cases heffect with
  | enter | giveUp | dequeue | discard | lock | refuse | pollAgain | pollFails | retry | enqueue
  | wake | answer | accept | turnAway =>
      exact hs.goOn fun index tenure => by simp [hstage, WorkerStage.holds]
  | park | poll | leave =>
      exact hs.goOn fun index tenure => by split <;> simp [hstage, WorkerStage.holds]
  | overflow hadmits hfull hring =>
      obtain ⟨keeper, -, hfits⟩ := hs.of_slotAt hadmits.found
      exact hs.setRing hadmits.found (hfits.phase.trans (hfits.busy hfull)) hring
        fun index tenure => by simp [hstage, WorkerStage.holds]
  | @add event slot ring hadmits hbusy hring =>
      have hrunning : slot.phase = .running := by
        have hused := hadmits.used
        cases hphase : slot.phase <;> simp_all
      exact hs.setRing hadmits.found hrunning hring
        fun index tenure => by simp [hstage, WorkerStage.holds]
  | claim hadmits hidle hring =>
      exact hs.claim hstage hadmits hidle hring (htimely _ _ hstage hadmits)
  | drain hslot _ hring hevents => exact hs.drain hstage hslot hring hevents
  | @takeArrivals index slot event ring hslot hrole hring hevents =>
      have hheld : (index, Tenure.serving) ∈ (s.stages worker).holds := by
        simp [hstage, WorkerStage.holds]
      refine hs.progress hheld .accepting hslot (by simpa using hring)
        (fun other hother tenure => by simp [hstage, WorkerStage.holds, hother])
        (fun other => by simp [WorkerStage.holds]) fun hfits => ?_
      have hindex : index = Arena.listenerIndex := by
        by_contra hindex
        have hopen := hfits.suits
        simp only [Keeper.Suits, Tenure.Suits, ConnectionSlot.IsOpen, if_neg hindex, hrole] at hopen
        exact ConnectionRole.noConfusion hopen.1
      exact ⟨hfits.phase, fun _ => rfl, hindex, hfits.suits⟩
  | takeMessages hslot hrole hring => exact hs.takeMessages hstage hslot hrole hring
  | miss => exact hs.afterServing hstage false
  | @read index event slot stream peer served =>
      cases served.outcome with
      | more =>
          exact hs.goOn fun index tenure => by
            simp [hstage, WorkerStage.holds, Workers.afterReading]
      | drained => exact hs.afterServing hstage true
      | ended => exact hs.afterServing hstage false
      | failed => exact hs.afterServing hstage false
  | @acceptFails index fault network =>
      split
      · exact hs.goOn fun index tenure => by simp [hstage, WorkerStage.holds]
      · have hheld : (index, Tenure.accepting) ∈ (s.stages worker).holds := by
          simp [hstage, WorkerStage.holds]
        refine hs.goOnWith hheld .serving
          (fun other hother tenure => by simp [hstage, WorkerStage.holds, hother])
          (fun other => by simp [WorkerStage.holds]) fun slot hfits => ?_
        exact ⟨hfits.phase, hfits.busy, hfits.suits.2⟩
  | reserve hfree => exact hs.reserve hstage hfree
  | install hslot => exact hs.install hstage hslot
  | activate hslot hring hevents => exact hs.activate hstage hslot hring hevents
  | register => exact hs.register hstage
  | close hslot => exact hs.close hstage hslot
  | retire hslot => exact hs.retire hstage hslot
  | recycle => exact hs.recycle hstage

/-! ## The beginning -/

/-- An engine that was set up: the first place listens, the others are in the line of free ones. -/
theorem Engine.new_eq_ok {c : Config} {memory : Allocator} {table : Table} {network : Network}
    {e : Engine} (h : Engine.new c memory table network = .ok e) :
    (∃ ring : EventRing, ring.Sound ∧ ring.toList = [] ∧
      e.arena = (Arena.new c.maxConnections.toNat c.connectionQueueCapacity.toNat).put
        Arena.listenerIndex ⟨0, .waiting, .listener, some ring, .listener⟩) ∧
    0 < c.maxConnections.toNat ∧ 2 ≤ c.connectionQueueCapacity.toNat ∧
    Waiter.new c.eventQueueCapacity.toNat c.pollBatch.toNat c.threads.toNat = .ok e.waiter ∧
    network.watch (ConnectionToken.encode Arena.listenerIndex 0) .listener = .ok e.network ∧
    e.table = table ∧ e.memory = memory := by
  unfold Engine.new at h
  split at h
  next => contradiction
  next waiter hwaiter =>
    dsimp only at h
    split at h
    next => contradiction
    next token arena hinstall =>
      obtain ⟨ring, hsound, hevents, hcapacity, hplace, rfl, rfl⟩ := Arena.install_new hinstall
      split at h
      next => contradiction
      next network hwatch =>
        obtain rfl := Except.ok.inj h
        exact ⟨⟨ring, hsound, hevents, rfl⟩, hplace, hcapacity, hwaiter, hwatch, rfl, rfl⟩

theorem Engine.new_of_toOption {c : Config} {memory : Allocator} {table : Table}
    {network : Network} {e : Engine} (h : (Engine.new c memory table network).toOption = some e) :
    Engine.new c memory table network = .ok e := by
  generalize Engine.new c memory table network = result at h ⊢
  cases result with
  | error fault => contradiction
  | ok engine => exact congrArg Except.ok (Option.some.inj h)

theorem tenanted_of_new {c : Config} {memory : Allocator} {table : Table} {network : Network}
    {e : Engine} (h : Engine.new c memory table network = .ok e) :
    Tenanted e.arena (Workers.beginning e).stages := by
  obtain ⟨⟨ring, hsound, hevents, harena⟩, hplace, hcapacity, -⟩ := Engine.new_eq_ok h
  have hnew := Arena.slotAt_new c.maxConnections.toNat c.connectionQueueCapacity.toNat
  have hunheld : ∀ w index tenure, (index, tenure) ∉ ((Workers.beginning e).stages w).holds := by
    simp [Workers.beginning, WorkerStage.holds]
  rw [harena]
  refine ⟨?_, List.nodup_range', fun index => ?_⟩
  · refine Arena.Sound.put ⟨hcapacity, ?_⟩ (by simpa using hsound)
    intro index slot ring hslot hring
    rw [hnew] at hslot
    split at hslot
    · obtain rfl := Option.some.inj hslot
      contradiction
    · contradiction
  · by_cases hindex : index = Arena.listenerIndex
    · subst hindex
      refine ⟨.nobody, ⟨by simp [Arena.put, Arena.modify, Arena.new, Arena.listenerIndex],
        fun w tenure => by simp [hunheld]⟩, ?_⟩
      have hlistener := (hnew Arena.listenerIndex).trans (if_pos hplace)
      rw [Arena.slotAt_put_self hlistener]
      refine ⟨rfl, fun hne => absurd (by simpa [ConnectionSlot.events] using hevents) hne, ?_⟩
      simp [Keeper.Suits, ConnectionSlot.IsOpen]
    · rw [Arena.slotAt_put_of_ne _ hindex, hnew]
      have hindex' : index ≠ 0 := hindex
      split
      next hlt =>
        refine ⟨.line, ⟨?_, fun w tenure => by simp [hunheld]⟩, rfl,
          fun hne => absurd rfl hne, hindex, rfl⟩
        simp [Arena.put, Arena.modify, Arena.new]
        omega
      next hge =>
        refine ⟨.nobody, ⟨?_, fun w tenure => by simp [hunheld]⟩, rfl⟩
        simp [Arena.put, Arena.modify, Arena.new]
        omega

end KeyValueServer.Server
