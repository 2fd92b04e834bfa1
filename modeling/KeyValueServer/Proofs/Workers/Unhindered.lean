import KeyValueServer.Proofs.Workers.Journal

/-!
# A worker on its own never waits for another

A worker holds the shared queue and the socket of a place in certain stages only. Where there is no
other worker all locks are free whenever they are wanted, the worker is elected to poll whenever it
waits, and so it can always take its next step until it exits. While it waits the shared queue is
empty.
-/

namespace KeyValueServer.Server

/-- Whether a worker holds the shared queue. -/
def WorkerStage.holdsQueue : WorkerStage → Bool
  | routing => true
  | placing _ => true
  | waking _ => true
  | _ => false

/-- The place whose socket a worker holds. -/
def WorkerStage.holdsSocket? : WorkerStage → Option Nat
  | reading index _ => some index
  | _ => none

/-- Whether a worker that waits is the one that polls. -/
def WorkerStage.polls? : WorkerStage → Option Bool
  | polling => some true
  | queueing _ => some true
  | waking _ => some true
  | leaving _ => some true
  | sleeping => some false
  | _ => none

/-- Locks are held by the first worker only, in the stages in which it needs them. -/
structure Workers.Locks (s : Workers) : Prop where
  queue : s.queueHolder.isNone = !(s.stages 0).holdsQueue
  socket : ∀ index, (s.socketHolders index).isNone = decide ((s.stages 0).holdsSocket? ≠ some index)

namespace Workers

variable {s s' : Workers} {e : Engine} {stage : WorkerStage} {answer : PollAnswer} {index : Nat}

/-! ## Locks -/

theorem Locks.advance (hs : s.Locks) (hqueue : stage.holdsQueue = (s.stages 0).holdsQueue)
    (hsocket : stage.holdsSocket? = (s.stages 0).holdsSocket?) : (s.advance 0 e stage).Locks where
  queue := hs.queue.trans (by rw [← hqueue]; rfl)
  socket index := (hs.socket index).trans (by rw [← hsocket]; rfl)

theorem Locks.holdQueue (hs : s.Locks) {holder : Option Nat}
    (hqueue : holder.isNone = !stage.holdsQueue)
    (hsocket : stage.holdsSocket? = (s.stages 0).holdsSocket?) :
    ((s.advance 0 e stage).holdQueue holder).Locks where
  queue := hqueue
  socket index := (hs.socket index).trans (by rw [← hsocket]; rfl)

theorem Locks.holdSocket (hs : s.Locks) {holder : Option Nat}
    (hqueue : stage.holdsQueue = (s.stages 0).holdsQueue)
    (hbefore : ∀ place, place ≠ index → (s.stages 0).holdsSocket? ≠ some place)
    (hafter : ∀ place, stage.holdsSocket? = some place ↔ place = index ∧ holder.isSome) :
    ((s.advance 0 e stage).holdSocket index holder).Locks where
  queue := hs.queue.trans (by rw [← hqueue]; rfl)
  socket place := by
    have hstage : ((s.advance 0 e stage).holdSocket index holder).stages 0 = stage := rfl
    have hholder : ((s.advance 0 e stage).holdSocket index holder).socketHolders place =
        if place = index then holder else s.socketHolders place := rfl
    rw [hstage, hholder, Bool.eq_iff_iff, decide_eq_true_iff, Ne, hafter]
    split
    next heq => simp [heq]
    next hne => simp [hs.socket, hbefore place hne, hne]

/-- A step in which the worker neither gets nor gives up a lock. -/
theorem Locks.keep (hs : s.Locks) {before : WorkerStage} (hstage : s.stages 0 = before)
    (hqueue : stage.holdsQueue = before.holdsQueue)
    (hsocket : stage.holdsSocket? = before.holdsSocket?) : (s.advance 0 e stage).Locks := by
  subst hstage
  exact hs.advance hqueue hsocket

theorem Locks.takeStep (hs : s.Locks) (hstage : s.stages 0 = .taking index) :
    (s.takeStep 0 index).Locks := by
  rw [Workers.takeStep]
  split
  · exact hs.keep hstage rfl rfl
  · exact hs.keep hstage (by split <;> rfl) (by split <;> rfl)
  · exact hs.keep hstage rfl rfl
  · refine hs.keep hstage ?_ ?_ <;> split
    · rfl
    · exact apply_afterServing WorkerStage.holdsQueue rfl rfl
    · rfl
    · exact apply_afterServing WorkerStage.holdsSocket? rfl rfl

theorem Locks.readStep (hs : s.Locks) {event : Event} (hstage : s.stages 0 = .reading index event)
    (h : s.readStep 0 index event = some s') : s'.Locks := by
  rw [Workers.readStep] at h
  obtain ⟨⟨outcome, e⟩, -, rfl⟩ := Option.map_eq_some_iff.mp h
  have hrelease (isOpen : Bool) :
      ((s.advance 0 e (afterServing index event isOpen)).holdSocket index none).Locks := by
    refine hs.holdSocket ?_ (fun place hplace => ?_) fun place => ?_
    · rw [hstage]
      exact apply_afterServing WorkerStage.holdsQueue rfl rfl
    · simpa [hstage, WorkerStage.holdsSocket?] using hplace.symm
    · have hnone : (afterServing index event isOpen).holdsSocket? = none :=
        apply_afterServing _ rfl rfl
      simp [hnone]
  cases outcome with
  | more => exact hs.keep hstage rfl rfl
  | drained => exact hrelease true
  | ended => exact hrelease false
  | failed => exact hrelease false

theorem Locks.acceptStep (hs : s.Locks) (hstage : s.stages 0 = .accepting index) :
    (s.acceptStep 0 index).Locks := by
  rw [Workers.acceptStep]
  split
  · exact hs.keep hstage rfl rfl
  · exact hs.keep hstage (by split <;> rfl) (by split <;> rfl)

theorem Locks.pollStep (hs : s.Locks) (hstage : s.stages 0 = .polling) :
    (s.pollStep 0 answer).Locks := by
  cases answer with
  | interrupted => exact hs
  | fails => exact hs.keep hstage rfl rfl
  | events count => exact hs.keep hstage (by split <;> rfl) (by split <;> rfl)

theorem Locks.step (hs : s.Locks) (h : s.step 0 answer = some s') : s'.Locks := by
  rw [Workers.step] at h
  generalize hstage : s.stages 0 = before at h
  cases before with
  | claiming =>
      dsimp only at h
      split at h
      · obtain rfl := Option.some.inj h
        exact hs.holdQueue (e := s.engine) rfl (by rw [hstage]; rfl)
      · contradiction
  | routing =>
      dsimp only at h
      split at h <;> obtain rfl := Option.some.inj h
      · exact hs.holdQueue (e := s.engine) rfl (by rw [hstage]; rfl)
      · exact hs.keep hstage rfl rfl
  | placing event =>
      dsimp only at h
      split at h <;> obtain rfl := Option.some.inj h
      · exact hs.keep hstage rfl rfl
      · exact hs.holdQueue rfl (by rw [hstage]; rfl)
  | taking index =>
      obtain rfl := Option.some.inj h
      exact hs.takeStep hstage
  | opening index event =>
      dsimp only at h
      split at h
      · obtain rfl := Option.some.inj h
        refine hs.holdSocket (e := s.engine) (by rw [hstage]; rfl) (fun place _ => ?_)
          fun place => ?_
        · simp [hstage, WorkerStage.holdsSocket?]
        · simp [WorkerStage.holdsSocket?, eq_comm]
      · contradiction
  | reading index event =>
      exact hs.readStep hstage h
  | accepting index =>
      dsimp only at h
      split at h
      · obtain rfl := Option.some.inj h
        exact hs.acceptStep hstage
      · contradiction
  | reserving index stream =>
      dsimp only at h
      split at h <;> obtain rfl := Option.some.inj h <;> exact hs.keep hstage rfl rfl
  | installing index place stream =>
      dsimp only at h
      split at h
      · obtain rfl := Option.some.inj h
        exact hs.keep hstage rfl rfl
      · contradiction
  | activating index place =>
      dsimp only at h
      split at h <;> obtain rfl := Option.some.inj h <;> exact hs.keep hstage rfl rfl
  | registering index place token =>
      dsimp only at h
      split at h
      · split at h <;> obtain rfl := Option.some.inj h
        · exact hs.keep (e := s.engine) hstage rfl rfl
        · exact hs.keep hstage rfl rfl
      · contradiction
  | closing index next =>
      dsimp only at h
      split at h
      · obtain rfl := Option.some.inj h
        exact hs.keep hstage rfl rfl
      · contradiction
  | retiring index next =>
      obtain rfl := Option.some.inj h
      exact hs.keep hstage rfl rfl
  | recycling index next =>
      obtain rfl := Option.some.inj h
      cases next <;> exact hs.keep hstage rfl rfl
  | parking =>
      obtain rfl := Option.some.inj h
      exact hs.keep hstage (by split <;> rfl) (by split <;> rfl)
  | polling =>
      obtain rfl := Option.some.inj h
      exact hs.pollStep hstage
  | queueing batch =>
      dsimp only at h
      split at h
      · split at h <;> obtain rfl := Option.some.inj h
        · exact hs
        · exact hs.holdQueue rfl (by rw [hstage]; rfl)
      · contradiction
  | waking count =>
      obtain rfl := Option.some.inj h
      exact hs.holdQueue rfl (by rw [hstage]; rfl)
  | sleeping =>
      obtain ⟨waiter, -, rfl⟩ := Option.map_eq_some_iff.mp h
      exact hs.keep hstage rfl rfl
  | leaving continues =>
      obtain rfl := Option.some.inj h
      cases continues <;> exact hs.keep hstage rfl rfl
  | exited =>
      contradiction

end Workers

/-! ## The poller -/

/-- Whether a worker has found nothing to do and waits for events. -/
def WorkerStage.awaits : WorkerStage → Bool
  | parking => true
  | polling => true
  | _ => false

/-- A worker that waits is the one that is elected. -/
def WorkerStage.Suits (stage : WorkerStage) (elected : Option Nat) : Prop :=
  stage.polls? = none ∧ elected = none ∨ stage.polls? = some true ∧ elected = some 0

theorem elected_of_new {capacity batchLimit workers : Nat} {w : Waiter}
    (h : Waiter.new capacity batchLimit workers = .ok w) : w.elected = none := by
  obtain ⟨queue, -, rfl⟩ := Waiter.eq_of_new h
  rfl

theorem elected_of_dequeue {w w' : Waiter} {event : Event} (h : w.dequeue? = some (event, w')) :
    w'.elected = w.elected := by
  obtain ⟨popped, -, heq⟩ := Option.map_eq_some_iff.mp h
  exact (Prod.mk.inj heq).2 ▸ rfl

theorem elected_of_enqueue {w w' : Waiter} {batch : List Event} (h : w.enqueue? batch = some w') :
    w'.elected = w.elected := by
  obtain ⟨queue, -, rfl⟩ := Option.map_eq_some_iff.mp h
  rfl

theorem Effect.suits {e e' : Engine} {before after : WorkerStage} (h : Effect e 0 before e' after)
    (he : before.Suits e.waiter.elected) : after.Suits e'.waiter.elected := by
  have hkeep {stage : WorkerStage} {elected : Option Nat} (hpolls : stage.polls? = before.polls?)
      (helected : elected = e.waiter.elected) : stage.Suits elected := by
    rw [WorkerStage.Suits, hpolls, helected]
    exact he
  cases h with
  | park =>
      have hnone : e.waiter.elected = none := by
        rcases he with ⟨-, hnone⟩ | ⟨hpolls, -⟩
        · exact hnone
        · contradiction
      rw [hnone]
      exact .inr ⟨rfl, by simp [Waiter.park, hnone]⟩
  | leave continues =>
      have hsome : e.waiter.elected = some 0 := by
        rcases he with ⟨hpolls, -⟩ | ⟨-, hsome⟩
        · contradiction
        · exact hsome
      exact .inl ⟨by cases continues <;> rfl, by simp [Waiter.leave, hsome]⟩
  | answer => rcases he with ⟨hpolls, -⟩ | ⟨hpolls, -⟩ <;> contradiction
  | dequeue hqueue => exact hkeep rfl (elected_of_dequeue hqueue)
  | enqueue hroom => exact hkeep rfl (elected_of_enqueue hroom)
  | takeMessages =>
      refine hkeep ?_ rfl
      split
      · rfl
      · exact apply_afterServing WorkerStage.polls? rfl rfl
  | read => exact hkeep (apply_afterReading WorkerStage.polls? rfl rfl rfl) rfl
  | poll | acceptFails => exact hkeep (by split <;> rfl) rfl
  | @recycle _ next => exact hkeep (by cases next <;> rfl) rfl
  | _ => exact hkeep rfl rfl

/-- A worker that waits has found the shared queue empty. -/
theorem Effect.queue_eq_nil {e e' : Engine} {before after : WorkerStage}
    (h : Effect e 0 before e' after) (hsound : e.waiter.queue.Sound)
    (he : before.awaits = true → e.waiter.queue.toList = []) (hafter : after.awaits = true) :
    e'.waiter.queue.toList = [] := by
  cases h with
  | giveUp hqueue =>
      have hpop : e.waiter.queue.pop? = none := Option.map_eq_none_iff.mp hqueue
      refine hsound.isEmpty_iff.mp ?_
      unfold EventRing.pop? at hpop
      split at hpop
      · assumption
      · contradiction
  | park => exact he rfl
  | pollAgain => exact he rfl
  | takeMessages =>
      split at hafter
      · contradiction
      · rw [apply_afterServing WorkerStage.awaits rfl rfl] at hafter
        contradiction
  | read =>
      rw [apply_afterReading WorkerStage.awaits rfl rfl rfl] at hafter
      contradiction
  | poll | acceptFails | leave => split at hafter <;> contradiction
  | @recycle _ next => cases next <;> contradiction
  | _ => contradiction

/-- The first worker is elected while it waits, and has found the shared queue empty then. -/
structure Shift.Polls (s : Shift) : Prop where
  suits : s.stage.Suits s.engine.waiter.elected
  idle : s.stage.awaits = true → s.engine.waiter.queue.toList = []

namespace Shift

variable {s s' : Shift} {table : Table} {journal : List Piece}

theorem Polls.moved (hp : s.Polls) (hs : s.workers.Steady) (h : s.workers.Moved 0 s'.workers) :
    s'.Polls := by
  obtain ⟨stage, heffect, hstages⟩ := h
  have hstage : s'.stage = stage := by rw [Shift.stage, hstages, turn_self]
  constructor <;> rw [hstage]
  · exact heffect.suits hp.suits
  · exact heffect.queue_eq_nil hs.attentive.queue hp.idle

/-- A worker on its own that nothing hinders. -/
structure Able (s : Shift) : Prop where
  steady : s.workers.Steady
  locks : s.workers.Locks
  polls : s.Polls

theorem Able.work (hs : s.Able) {answer : PollAnswer}
    (hstep : s.workers.step 0 answer = some s'.workers) : s'.Able := by
  have hmoved := hs.steady.tenanted.moved_of_step hstep
  exact ⟨hs.steady.moved hmoved, hs.locks.step hstep, hs.polls.moved hs.steady hmoved⟩

theorem Able.occur (hs : s.Able) (o : Occurrence)
    (hworkers : s'.workers = s.workers.happen o.change) :
    s'.Able := by
  obtain ⟨workers, sent, returns⟩ := s'
  obtain rfl : workers = s.workers.happen o.change := hworkers
  exact ⟨hs.steady.occur o, ⟨hs.locks.queue, hs.locks.socket⟩, ⟨hs.polls.suits, hs.polls.idle⟩⟩

/-! ## The next step -/

/-- A worker on its own can always take its next step, until it exits. -/
theorem Able.exists_step (hs : s.Able) (hr : s.Recorded table journal) (hsound : table.Sound)
    (hrest : table.AtRest fun _ => []) (hmemory : s.engine.memory = unlimited)
    (hexited : s.stage ≠ .exited) (answer : PollAnswer) :
    ∃ workers, s.workers.step 0 answer = some workers := by
  have hqueue := hs.locks.queue
  have hsocket := hs.locks.socket
  rw [Workers.step]
  cases hstage : s.workers.stages 0 with
  | claiming =>
      refine ⟨_, if_pos ?_⟩
      rw [hqueue, hstage]
      rfl
  | routing =>
      dsimp only
      split <;> exact ⟨_, rfl⟩
  | placing event =>
      dsimp only
      split <;> exact ⟨_, rfl⟩
  | taking index => exact ⟨_, rfl⟩
  | opening index event =>
      refine ⟨_, if_pos ?_⟩
      rw [hsocket, hstage]
      rfl
  | reading index event =>
      have hheld : (index, Tenure.reading) ∈ (s.workers.stages 0).holds := by
        simp [hstage, WorkerStage.holds]
      obtain ⟨-, slot, hslot, hfits⟩ := hs.steady.tenanted.of_mem_holds hheld
      obtain ⟨hindex, hopen⟩ := hfits.suits
      obtain ⟨-, stream, hstream⟩ := ConnectionSlot.IsOpen.exists_stream hopen hindex
      obtain ⟨peer, hpeer⟩ :=
        Option.isSome_iff_exists.mp
          (hs.steady.civil.known stream (.placed index) ⟨slot, hslot, hstream⟩)
      have hworker : (s.engine.workerOf 0).memory = unlimited := hmemory
      obtain ⟨turn, -, hserved, -⟩ := hr.represents.exists_turn hsound hrest hworker
        (hs.steady.civil.plain stream peer hpeer) stream
      have hread : s.engine.readOnce (s.engine.workerOf 0) index =
          some (turn.outcome, { s.engine with
            table := turn.table
            network := s.engine.network.modifyPeer stream fun _ => turn.peer }) := by
        simp only [Engine.readOnce, Engine.socketAt_of_slotAt hslot, hstream, hpeer, hserved,
          Option.map_some]
      exact ⟨_, congrArg (Option.map _) hread⟩
  | accepting index =>
      refine ⟨_, if_pos ?_⟩
      rw [hsocket, hstage]
      rfl
  | reserving index stream =>
      dsimp only
      split <;> exact ⟨_, rfl⟩
  | installing index place stream =>
      refine ⟨_, if_pos ?_⟩
      rw [hsocket, hstage]
      rfl
  | activating index place =>
      dsimp only
      split <;> exact ⟨_, rfl⟩
  | registering index place token =>
      have hfree : (s.workers.socketHolders place).isNone = true := by
        rw [hsocket, hstage]
        rfl
      dsimp only
      rw [if_pos hfree]
      split <;> exact ⟨_, rfl⟩
  | closing index next =>
      refine ⟨_, if_pos ?_⟩
      rw [hsocket, hstage]
      rfl
  | retiring index next => exact ⟨_, rfl⟩
  | recycling index next => exact ⟨_, rfl⟩
  | parking => exact ⟨_, rfl⟩
  | polling => exact ⟨_, rfl⟩
  | queueing batch =>
      have hfree : s.workers.queueHolder.isNone = true := by rw [hqueue, hstage]; rfl
      dsimp only
      rw [if_pos hfree]
      split <;> exact ⟨_, rfl⟩
  | waking count => exact ⟨_, rfl⟩
  | sleeping =>
      have hsuits := hs.polls.suits
      rw [Shift.stage, hstage] at hsuits
      rcases hsuits with ⟨hpolls, -⟩ | ⟨hpolls, -⟩ <;> contradiction
  | leaving continues => exact ⟨_, rfl⟩
  | exited => exact absurd hstage hexited

end Shift

end KeyValueServer.Server
