import KeyValueServer.Proofs.Workers.Unhindered

/-!
# Where steps lead

A worker on its own that is at some stage, and whose engine is in some state, is taken to another
stage and state by each of its steps, and by as many of them as one likes. Here are the single
steps, by what the actions of the engine return.
-/

namespace KeyValueServer.Server

theorem Workers.Locks.isNone_queue {s : Workers} (hs : s.Locks)
    (h : (s.stages 0).holdsQueue = false) : s.queueHolder.isNone = true := by
  rw [hs.queue, h]
  rfl

theorem Workers.Locks.isNone_socket {s : Workers} (hs : s.Locks)
    (h : (s.stages 0).holdsSocket? = none) (index : Nat) :
    (s.socketHolders index).isNone = true := by
  rw [hs.socket, h]
  rfl

theorem Shift.run_append {s s' : Shift} {os more : List Occurrence} (h : s.run os = some s') :
    s.run (os ++ more) = s'.run more := by
  rw [Shift.run, List.foldlM_append]
  exact congrArg (Option.bind · _) h

/-- However a worker on its own has come to a stage with an engine in some state, steps of its own
take it to another stage and state. -/
def Leads (e : Engine) (stage : WorkerStage) (e' : Engine) (stage' : WorkerStage) : Prop :=
  ∀ s : Shift, s.Able → s.engine = e → s.stage = stage → ∃ answers s',
    s.run (List.map (Occurrence.work 0) answers) = some s' ∧ s'.Able ∧ s'.engine = e' ∧
      s'.stage = stage'

namespace Leads

variable {e e' e'' : Engine} {stage stage' stage'' : WorkerStage} {index place : Nat}
  {event : Event} {stream : StreamId} {next : Resumption}

theorem refl (e : Engine) (stage : WorkerStage) : Leads e stage e stage :=
  fun s hs he hstage => ⟨[], s, rfl, hs, he, hstage⟩

theorem trans (h : Leads e stage e' stage') (h' : Leads e' stage' e'' stage'') :
    Leads e stage e'' stage'' := by
  intro s hs he hstage
  obtain ⟨answers, middle, hrun, hmiddle, he', hstage'⟩ := h s hs he hstage
  obtain ⟨more, last, hrun', hlast⟩ := h' middle hmiddle he' hstage'
  refine ⟨answers ++ more, last, ?_, hlast⟩
  rw [List.map_append, Shift.run_append hrun]
  exact hrun'

/-- What holds of every worker on its own may be used. -/
theorem of_able (h : ∀ s : Shift, s.Able → s.engine = e → s.stage = stage →
    Leads e stage e' stage') : Leads e stage e' stage' :=
  fun s hs he hstage => h s hs he hstage s hs he hstage

theorem of_step (answer : PollAnswer) (h : ∀ s : Workers, s.Locks → s.engine = e →
    s.stages 0 = stage →
      (s.step 0 answer).map (fun next => (next.engine, next.stages 0)) = some (e', stage')) :
    Leads e stage e' stage' := by
  intro s hs he hstage
  obtain ⟨workers, hstep, hnext⟩ := Option.map_eq_some_iff.mp (h s.workers hs.locks he hstage)
  obtain ⟨he', hstage'⟩ := Prod.mk.inj hnext
  refine ⟨[answer], { s with workers, returns := s.returned }, ?_, hs.work hstep, he', hstage'⟩
  simp [Shift.run, Shift.perform, hstep]

/-! ## Claiming a connection -/

theorem enter (e : Engine) : Leads e .claiming e .routing :=
  of_step .fails fun s hs he hstage => by
    have hfree := hs.isNone_queue (by rw [hstage]; rfl)
    simp only [Workers.step, hstage, if_pos hfree, ← he]
    rfl

theorem giveUp (h : e.waiter.dequeue? = none) : Leads e .routing e .parking :=
  of_step .fails fun s hs he hstage => by
    subst he
    simp only [Workers.step, hstage, h]
    rfl

theorem dequeue {waiter : Waiter} (h : e.waiter.dequeue? = some (event, waiter)) :
    Leads e .routing { e with waiter } (.placing event) :=
  of_step .fails fun s hs he hstage => by
    simp only [Workers.step, hstage, he, h]
    rfl

theorem route {claimed : Option Nat} (h : e.route event = (claimed, e')) :
    Leads e (.placing event) e' (claimed.elim .routing .taking) :=
  of_step .fails fun s hs he hstage => by
    cases claimed <;> simp only [Workers.step, hstage, he, h] <;> rfl

/-! ## Serving a connection -/

theorem drained (h : e.takeEvent index = (.drained, e')) : Leads e (.taking index) e' .claiming :=
  of_step .fails fun s hs he hstage => by
    simp only [Workers.step, hstage, Workers.takeStep, he, h]
    rfl

theorem takeArrivals (h : e.takeEvent index = (.event event .listener, e')) :
    Leads e (.taking index) e' (.accepting index) :=
  of_step .fails fun s hs he hstage => by
    simp only [Workers.step, hstage, Workers.takeStep, he, h]
    rfl

theorem takeMessages (h : e.takeEvent index = (.event event .message, e')) :
    Leads e (.taking index) e' (if event.readable then .opening index event
      else Workers.afterServing index event true) :=
  of_step .fails fun s hs he hstage => by
    simp only [Workers.step, hstage, Workers.takeStep, he, h]
    rfl

theorem lock (e : Engine) (index : Nat) (event : Event) :
    Leads e (.opening index event) e (.reading index event) :=
  of_step .fails fun s hs he hstage => by
    have hfree := hs.isNone_socket (by rw [hstage]; rfl) index
    simp only [Workers.step, hstage, if_pos hfree, ← he]
    rfl

theorem read {outcome : ReadOutcome} (h : e.readOnce (e.workerOf 0) index = some (outcome, e')) :
    Leads e (.reading index event) e' (Workers.afterReading index event outcome) :=
  of_step .fails fun s hs he hstage => by
    simp only [Workers.step, hstage, Workers.readStep, he, h]
    cases outcome <;> rfl

/-! ## Taking in clients -/

theorem accept (h : e.acceptOnce = (.ok stream, e')) :
    Leads e (.accepting index) e' (.reserving index stream) :=
  of_step .fails fun s hs he hstage => by
    have hfree := hs.isNone_socket (by rw [hstage]; rfl) Arena.listenerIndex
    simp only [Workers.step, hstage, if_pos hfree, Workers.acceptStep, he, h]
    rfl

theorem acceptFails {error : Error} (h : e.acceptOnce = (.error error, e')) :
    Leads e (.accepting index) e'
      (if Engine.isRepeated error then .accepting index else .taking index) :=
  of_step .fails fun s hs he hstage => by
    have hfree := hs.isNone_socket (by rw [hstage]; rfl) Arena.listenerIndex
    simp only [Workers.step, hstage, if_pos hfree, Workers.acceptStep, he, h]
    rfl

theorem turnAway (h : e.reserve stream = (none, e')) :
    Leads e (.reserving index stream) e' (.accepting index) :=
  of_step .fails fun s hs he hstage => by
    simp only [Workers.step, hstage, he, h]
    rfl

theorem reserve (h : e.reserve stream = (some place, e')) :
    Leads e (.reserving index stream) e' (.installing index place stream) :=
  of_step .fails fun s hs he hstage => by
    simp only [Workers.step, hstage, he, h]
    rfl

theorem install (e : Engine) (index place : Nat) (stream : StreamId) :
    Leads e (.installing index place stream) (e.place place stream) (.activating index place) :=
  of_step .fails fun s hs he hstage => by
    have hfree := hs.isNone_socket (by rw [hstage]; rfl) place
    simp only [Workers.step, hstage, if_pos hfree, he]
    rfl

theorem activate {token : Option ConnectionToken} (h : e.activate place = (token, e')) :
    Leads e (.activating index place) e'
      (token.elim (.closing place (.accepting index)) (.registering index place)) :=
  of_step .fails fun s hs he hstage => by
    cases token <;> simp only [Workers.step, hstage, he, h] <;> rfl

theorem refuse {token : ConnectionToken} (h : e.register place token = none) :
    Leads e (.registering index place token) e (.closing place (.accepting index)) :=
  of_step .fails fun s hs he hstage => by
    have hfree := hs.isNone_socket (by rw [hstage]; rfl) place
    subst he
    simp only [Workers.step, hstage, if_pos hfree, h]
    rfl

theorem register {token : ConnectionToken} (h : e.register place token = some e') :
    Leads e (.registering index place token) e' (.accepting index) :=
  of_step .fails fun s hs he hstage => by
    have hfree := hs.isNone_socket (by rw [hstage]; rfl) place
    simp only [Workers.step, hstage, if_pos hfree, he, h]
    rfl

/-! ## Giving a place back -/

theorem close (e : Engine) (index : Nat) (next : Resumption) :
    Leads e (.closing index next) (e.close index) (Workers.resume next) := by
  have hclose : Leads e (.closing index next) (e.closeSocket index) (.retiring index next) :=
    of_step .fails fun s hs he hstage => by
      have hfree := hs.isNone_socket (by rw [hstage]; rfl) index
      simp only [Workers.step, hstage, if_pos hfree, he]
      rfl
  have hretire (e : Engine) :
      Leads e (.retiring index next) (e.retire index) (.recycling index next) :=
    of_step .fails fun s hs he hstage => by
      simp only [Workers.step, hstage, he]
      rfl
  have hrecycle (e : Engine) :
      Leads e (.recycling index next) (e.recycle index) (Workers.resume next) :=
    of_step .fails fun s hs he hstage => by
      simp only [Workers.step, hstage, he]
      rfl
  exact (hclose.trans (hretire _)).trans (hrecycle _)

/-! ## Waiting -/

theorem park (h : e.waiter.elected = none) :
    Leads e .parking { e with waiter := e.waiter.park 0 } .polling :=
  of_step .fails fun s hs he hstage => by
    simp only [Workers.step, hstage, he, h]
    rfl

theorem poll {count : Nat} {batch : List Event} {network : Network}
    (h : e.network.poll (min count e.waiter.batchLimit) = (batch, network))
    (hsome : ¬batch.isEmpty = true) :
    Leads e .polling { e with network, waiter := e.waiter.countRound } (.queueing batch) :=
  of_step (.events count) fun s hs he hstage => by
    simp only [Workers.step, hstage, Workers.pollStep, he, h, if_neg hsome]
    rfl

theorem enqueue {batch : List Event} {waiter : Waiter}
    (h : e.waiter.enqueue? batch = some waiter) :
    Leads e (.queueing batch) { e with waiter } (.waking batch.length) :=
  of_step .fails fun s hs he hstage => by
    have hfree := hs.isNone_queue (by rw [hstage]; rfl)
    simp only [Workers.step, hstage, if_pos hfree, he, h]
    rfl

theorem wake (e : Engine) (count : Nat) :
    Leads e (.waking count) { e with waiter := e.waiter.wake 0 count } (.leaving true) :=
  of_step .fails fun s hs he hstage => by
    simp only [Workers.step, hstage, he]
    rfl

theorem leave (e : Engine) :
    Leads e (.leaving true) { e with waiter := e.waiter.leave 0 } .claiming :=
  of_step .fails fun s hs he hstage => by
    simp only [Workers.step, hstage, he]
    rfl

/-- A worker that waits polls, queues what the poll returned, and goes on. -/
theorem await (h : e.await 0 = some e') : Leads e .parking e' .claiming := by
  unfold Engine.await at h
  dsimp only at h
  split at h
  next => contradiction
  next hsome =>
    obtain ⟨waiter, henqueue, rfl⟩ := Option.map_eq_some_iff.mp h
    refine of_able fun s hs he hstage => ?_
    have helected : e.waiter.elected = none := by
      have hsuits := hs.polls.suits
      rw [hstage, he] at hsuits
      rcases hsuits with ⟨-, hnone⟩ | ⟨hpolls, -⟩
      · exact hnone
      · contradiction
    have hlimit : min e.waiter.batchLimit (e.waiter.park 0).batchLimit = e.waiter.batchLimit :=
      Nat.min_self _
    have hpoll := congrArg e.network.poll hlimit
    exact ((((park helected).trans (poll hpoll hsome)).trans (enqueue henqueue)).trans
      (wake _ _)).trans (leave _)

end Leads

end KeyValueServer.Server
