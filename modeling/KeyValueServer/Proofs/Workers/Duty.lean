import KeyValueServer.Proofs.Workers.Rounds

/-!
# The duties of a crew

However many workers there are and whatever they serve, only a few of their steps concern the
waiter: leaving the shared queue once it is empty, the steps of the poller, and those of a sleeper.
All other steps lead from one stage of serving to another and leave the waiter alone. These are the
moves from which it follows who polls, who sleeps and who takes care of the shared queue.
-/

namespace KeyValueServer.Server

/-- Whether a worker claims or serves a connection. -/
def WorkerStage.isServing : WorkerStage → Bool
  | parking => false
  | polling => false
  | queueing _ => false
  | waking _ => false
  | sleeping => false
  | leaving _ => false
  | exited => false
  | _ => true

/-- What one step of a worker does to the waiter, and to the stage of the worker. -/
inductive Duty (w : Waiter) (worker : Nat) : WorkerStage → Waiter → WorkerStage → Prop
  | serve {before after : WorkerStage} (hbefore : before.isServing = true)
      (hafter : after.isServing = true) : Duty w worker before w after
  | dequeue {event : Event} {w' : Waiter} (hqueue : w.dequeue? = some (event, w')) :
      Duty w worker .routing w' (.placing event)
  | giveUp (hqueue : w.dequeue? = none) : Duty w worker .routing w .parking
  -- waiting
  | park :
      Duty w worker .parking (w.park worker) (if w.elected.isNone then .polling else .sleeping)
  | answer {w' : Waiter} (hcall : w.answerCall? worker = some w') :
      Duty w worker .sleeping w' (.leaving true)
  | leave (continues : Bool) :
      Duty w worker (.leaving continues) (w.leave worker) (if continues then .claiming else .exited)
  -- polling
  | pollAgain : Duty w worker .polling w .polling
  | pollFails : Duty w worker .polling w (.leaving false)
  | poll {batch : List Event} (hlimit : batch.length ≤ w.batchLimit) :
      Duty w worker .polling w.countRound
        (if batch.isEmpty then .leaving true else .queueing batch)
  | retry {batch : List Event} (hfull : w.enqueue? batch = none) :
      Duty w worker (.queueing batch) w (.queueing batch)
  | enqueue {batch : List Event} {w' : Waiter} (hroom : w.enqueue? batch = some w') :
      Duty w worker (.queueing batch) w' (.waking batch.length)
  | wake (count : Nat) : Duty w worker (.waking count) (w.wake worker count) (.leaving true)

namespace Workers

variable {s s' : Workers} {worker : Nat} {answer : PollAnswer} {e : Engine}
  {before after : WorkerStage}

/-- The worker has gone on by one of its duties, and nobody else has. It holds the shared queue if
it took it, and else the queue is held as before or by nobody. -/
def Dutied (s : Workers) (worker : Nat) (s' : Workers) : Prop :=
  ∃ after, Duty s.engine.waiter worker (s.stages worker) s'.engine.waiter after ∧
    s'.stages = turn s.stages worker after ∧
    (s'.queueHolder = s.queueHolder ∧ after.holdsQueue = (s.stages worker).holdsQueue ∨
      s'.queueHolder = some worker ∧ after.holdsQueue = true ∨ s'.queueHolder = none)

theorem Dutied.intro (hstage : s.stages worker = before)
    (hduty : Duty s.engine.waiter worker before s'.engine.waiter after)
    (hstages : s'.stages = turn s.stages worker after)
    (hholder : s'.queueHolder = s.queueHolder ∧ after.holdsQueue = before.holdsQueue ∨
      s'.queueHolder = some worker ∧ after.holdsQueue = true ∨ s'.queueHolder = none) :
    s.Dutied worker s' := by
  subst hstage
  exact ⟨after, hduty, hstages, hholder⟩

/-- A step from one stage of serving to another. -/
theorem Dutied.serve (hstage : s.stages worker = before) (hbefore : before.isServing = true)
    (hafter : after.isServing = true) (hqueue : after.holdsQueue = before.holdsQueue)
    (hwaiter : e.waiter = s.engine.waiter) : s.Dutied worker (s.advance worker e after) := by
  have hduty : Duty s.engine.waiter worker before s.engine.waiter after := .serve hbefore hafter
  exact .intro hstage (hwaiter ▸ hduty) rfl (.inl ⟨rfl, hqueue⟩)

theorem dutied_takeStep {index : Nat} (hstage : s.stages worker = .taking index) :
    s.Dutied worker (s.takeStep worker index) := by
  have hkeeps := s.engine.keeps_takeEvent index
  rw [takeStep]
  split
  next e htake =>
    rw [htake] at hkeeps
    exact .serve hstage rfl rfl rfl hkeeps.waiter
  next phase e htake =>
    rw [htake] at hkeeps
    exact .serve hstage rfl (by split <;> rfl) (by split <;> rfl) hkeeps.waiter
  next e htake =>
    rw [htake] at hkeeps
    exact .serve hstage rfl rfl rfl hkeeps.waiter
  next event e htake =>
    rw [htake] at hkeeps
    refine .serve hstage rfl ?_ ?_ hkeeps.waiter <;> split
    · rfl
    · exact apply_afterServing WorkerStage.isServing rfl rfl
    · rfl
    · exact apply_afterServing WorkerStage.holdsQueue rfl rfl

theorem waiter_of_readOnce {who : Worker} {index : Nat} {outcome : ReadOutcome} {e' : Engine}
    (h : e.readOnce who index = some (outcome, e')) : e'.waiter = e.waiter := by
  unfold Engine.readOnce at h
  split at h
  · split at h
    · obtain ⟨-, rfl⟩ := Prod.mk.inj (Option.some.inj h)
      rfl
    · obtain ⟨turn, -, heq⟩ := Option.map_eq_some_iff.mp h
      obtain ⟨-, rfl⟩ := Prod.mk.inj heq
      rfl
  · obtain ⟨-, rfl⟩ := Prod.mk.inj (Option.some.inj h)
    rfl

theorem dutied_readStep {index : Nat} {event : Event}
    (hstage : s.stages worker = .reading index event)
    (h : s.readStep worker index event = some s') : s.Dutied worker s' := by
  rw [readStep] at h
  obtain ⟨⟨outcome, e⟩, hread, rfl⟩ := Option.map_eq_some_iff.mp h
  have hwaiter := waiter_of_readOnce hread
  have hafter (isOpen : Bool) :
      s.Dutied worker
        ((s.advance worker e (afterServing index event isOpen)).holdSocket index none) :=
    .serve (e := e) hstage rfl (apply_afterServing WorkerStage.isServing rfl rfl)
      (apply_afterServing WorkerStage.holdsQueue rfl rfl) hwaiter
  cases outcome with
  | more => exact .serve hstage rfl rfl rfl hwaiter
  | drained => exact hafter true
  | ended => exact hafter false
  | failed => exact hafter false

theorem dutied_acceptStep {index : Nat} (hstage : s.stages worker = .accepting index) :
    s.Dutied worker (s.acceptStep worker index) := by
  have hkeeps := (Engine.Spares.acceptOnce s.engine 0).toKeeps
  rw [acceptStep]
  split
  next stream e haccept =>
    rw [haccept] at hkeeps
    exact .serve hstage rfl rfl rfl hkeeps.waiter
  next error e haccept =>
    rw [haccept] at hkeeps
    exact .serve hstage rfl (by split <;> rfl) (by split <;> rfl) hkeeps.waiter

theorem dutied_pollStep (hstage : s.stages worker = .polling) (answer : PollAnswer) :
    s.Dutied worker (s.pollStep worker answer) := by
  cases answer with
  | interrupted => exact .intro hstage .pollAgain (turn_eq_of_eq hstage).symm (.inl ⟨rfl, rfl⟩)
  | fails => exact .intro hstage .pollFails rfl (.inl ⟨rfl, rfl⟩)
  | events count =>
      have hlimit : (s.engine.network.poll (min count s.engine.waiter.batchLimit)).1.length ≤
          s.engine.waiter.batchLimit :=
        (List.length_take_le _ _).trans (Nat.min_le_right _ _)
      refine .intro hstage (.poll hlimit) rfl (.inl ⟨rfl, ?_⟩)
      split <;> rfl

/-- Every step of a worker is one of its duties. -/
theorem dutied_of_step (h : s.step worker answer = some s') : s.Dutied worker s' := by
  rw [step] at h
  generalize hstage : s.stages worker = before at h
  cases before with
  | claiming =>
      dsimp only at h
      split at h
      · obtain rfl := Option.some.inj h
        exact .intro hstage (.serve rfl rfl) rfl (.inr (.inl ⟨rfl, rfl⟩))
      · contradiction
  | routing =>
      dsimp only at h
      split at h <;> obtain rfl := Option.some.inj h
      next hqueue => exact .intro hstage (.giveUp hqueue) rfl (.inr (.inr rfl))
      next event waiter hqueue =>
        exact .intro hstage (.dequeue hqueue) rfl (.inl ⟨rfl, rfl⟩)
  | placing event =>
      dsimp only at h
      have hkeeps := s.engine.keeps_route event
      split at h <;> obtain rfl := Option.some.inj h
      next e hroute =>
        rw [hroute] at hkeeps
        exact .serve hstage rfl rfl rfl hkeeps.waiter
      next index e hroute =>
        rw [hroute] at hkeeps
        have hduty : Duty s.engine.waiter worker (.placing event) s.engine.waiter (.taking index) :=
          .serve rfl rfl
        exact .intro hstage (hkeeps.waiter ▸ hduty) rfl (.inr (.inr rfl))
  | taking index =>
      obtain rfl := Option.some.inj h
      exact dutied_takeStep hstage
  | opening index event =>
      dsimp only at h
      split at h
      · obtain rfl := Option.some.inj h
        exact .serve (e := s.engine) hstage rfl rfl rfl rfl
      · contradiction
  | reading index event => exact dutied_readStep hstage h
  | accepting index =>
      dsimp only at h
      split at h
      · obtain rfl := Option.some.inj h
        exact dutied_acceptStep hstage
      · contradiction
  | reserving index stream =>
      dsimp only at h
      unfold Engine.reserve at h
      cases hallocate : s.engine.arena.allocate with
      | none =>
          rw [hallocate] at h
          obtain rfl := Option.some.inj h
          exact .serve hstage rfl rfl rfl rfl
      | some reserved =>
          rw [hallocate] at h
          obtain rfl := Option.some.inj h
          exact .serve hstage rfl rfl rfl rfl
  | installing index place stream =>
      dsimp only at h
      split at h
      · obtain rfl := Option.some.inj h
        exact .serve hstage rfl rfl rfl rfl
      · contradiction
  | activating index place =>
      dsimp only at h
      have hkeeps := (Engine.Spares.activate s.engine (Nat.lt_succ_self place).ne).toKeeps
      split at h <;> obtain rfl := Option.some.inj h
      next e hactivate =>
        rw [hactivate] at hkeeps
        exact .serve hstage rfl rfl rfl hkeeps.waiter
      next token e hactivate =>
        rw [hactivate] at hkeeps
        exact .serve hstage rfl rfl rfl hkeeps.waiter
  | registering index place token =>
      dsimp only at h
      split at h
      · split at h <;> obtain rfl := Option.some.inj h
        · exact .serve (e := s.engine) hstage rfl rfl rfl rfl
        next e hregister =>
          obtain ⟨_, _, -, rfl⟩ := Engine.exists_watch_of_register hregister
          exact .serve hstage rfl rfl rfl rfl
      · contradiction
  | closing index next =>
      dsimp only at h
      split at h
      · obtain rfl := Option.some.inj h
        exact .serve hstage rfl rfl rfl rfl
      · contradiction
  | retiring index next =>
      obtain rfl := Option.some.inj h
      exact .serve hstage rfl rfl rfl rfl
  | recycling index next =>
      obtain rfl := Option.some.inj h
      cases next <;> exact .serve hstage rfl rfl rfl rfl
  | parking =>
      obtain rfl := Option.some.inj h
      refine .intro hstage .park rfl (.inl ⟨rfl, ?_⟩)
      split <;> rfl
  | polling =>
      obtain rfl := Option.some.inj h
      exact dutied_pollStep hstage answer
  | queueing batch =>
      dsimp only at h
      split at h
      · split at h <;> obtain rfl := Option.some.inj h
        next hfull =>
          exact .intro hstage (.retry hfull) (turn_eq_of_eq hstage).symm (.inl ⟨rfl, rfl⟩)
        next waiter hroom =>
          exact .intro hstage (.enqueue hroom) rfl (.inr (.inl ⟨rfl, rfl⟩))
      · contradiction
  | waking count =>
      obtain rfl := Option.some.inj h
      exact .intro hstage (.wake count) rfl (.inr (.inr rfl))
  | sleeping =>
      obtain ⟨waiter, hcall, rfl⟩ := Option.map_eq_some_iff.mp h
      exact .intro hstage (.answer hcall) rfl (.inl ⟨rfl, rfl⟩)
  | leaving continues =>
      obtain rfl := Option.some.inj h
      refine .intro hstage (.leave continues) rfl (.inl ⟨rfl, ?_⟩)
      cases continues <;> rfl
  | exited => contradiction

end Workers

end KeyValueServer.Server
