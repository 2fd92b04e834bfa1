import KeyValueServer.Proofs.Workers.Duty
import KeyValueServer.Proofs.Workers.Ownership

/-!
# Who polls, and who empties the shared queue

In a crew of any number of workers the one that polls is the one that is elected. A worker that has
queued a batch goes back to the shared queue before it waits again, and a worker comes to wait only
once it has found the queue empty. So queued events always have a worker that will come to them, and
that worker is not kept by the operating system, by its sleep, or by a full queue.
-/

namespace KeyValueServer.Server

/-- Whether a worker is polling, or queues what it polled and calls others to it. -/
def WorkerStage.isAtPoll : WorkerStage → Bool
  | polling => true
  | queueing _ => true
  | waking _ => true
  | _ => false

/-- Whether a worker can be elected. -/
def WorkerStage.canHoldOffice : WorkerStage → Bool
  | leaving _ => true
  | stage => stage.isAtPoll

/-- Whether a worker comes to the shared queue before it waits again. -/
def WorkerStage.isDraining : WorkerStage → Bool
  | waking _ => true
  | leaving continues => continues
  | stage => stage.isServing

theorem WorkerStage.canHoldOffice_of_isServing {stage : WorkerStage}
    (h : stage.isServing = true) : stage.canHoldOffice = false := by
  cases stage <;> first | rfl | contradiction

/-- Only a sleeping worker waits without polling. -/
theorem WorkerStage.eq_sleeping {stage : WorkerStage} (h : stage.polls? = some false) :
    stage = .sleeping := by
  cases stage <;> first | rfl | simp [polls?] at h

/-- Answering a call changes nothing but who is called. -/
theorem exists_called_of_answerCall {w w' : Waiter} {worker : Nat}
    (h : w.answerCall? worker = some w') : ∃ called, w' = { w with called } := by
  unfold Waiter.answerCall? at h
  split at h
  · exact ⟨_, (Option.some.inj h).symm⟩
  · contradiction

/-! ## What the duties keep -/

namespace Duty

variable {w w' : Waiter} {worker other : Nat} {before after : WorkerStage}

/-- What a waiter was set up with stays as it is. -/
theorem setup (h : Duty w worker before w' after) :
    w'.batchLimit = w.batchLimit ∧ w'.queue.capacity = w.queue.capacity := by
  cases h with
  | dequeue hqueue =>
      obtain ⟨⟨popped, queue⟩, hpop, heq⟩ := Option.map_eq_some_iff.mp hqueue
      obtain ⟨rfl, rfl⟩ := Prod.mk.inj heq
      unfold EventRing.pop? at hpop
      split at hpop
      · contradiction
      · obtain ⟨-, rfl⟩ := Prod.mk.inj (Option.some.inj hpop)
        exact ⟨rfl, rfl⟩
  | answer hcall =>
      obtain ⟨called, rfl⟩ := exists_called_of_answerCall hcall
      exact ⟨rfl, rfl⟩
  | enqueue hroom =>
      obtain ⟨queue, hextend, rfl⟩ := Option.map_eq_some_iff.mp hroom
      exact ⟨rfl, EventRing.capacity_of_extend? hextend⟩
  | _ => exact ⟨rfl, rfl⟩

/-- Nobody takes the office from another worker, and nobody gives it to one. -/
theorem elected_other_iff (h : Duty w worker before w' after) (hother : other ≠ worker) :
    w'.elected = some other ↔ w.elected = some other := by
  cases h with
  | park =>
      cases helected : w.elected with
      | none => simp [Waiter.park, helected, hother.symm]
      | some officer => simp [Waiter.park, helected]
  | leave continues =>
      simp only [Waiter.leave]
      split
      next helected => simp [helected, hother.symm]
      · rfl
  | dequeue hqueue => rw [elected_of_dequeue hqueue]
  | enqueue hroom => rw [elected_of_enqueue hroom]
  | answer hcall =>
      obtain ⟨called, rfl⟩ := exists_called_of_answerCall hcall
      rfl
  | _ => rfl

/-- Whoever comes to poll is elected. -/
theorem elected_of_isAtPoll (h : Duty w worker before w' after)
    (hbefore : before.isAtPoll = true → w.elected = some worker) (hafter : after.isAtPoll = true) :
    w'.elected = some worker := by
  cases h with
  | serve hserves hserving => cases after <;> contradiction
  | park =>
      split at hafter
      next hnone => simp [Waiter.park, Option.isNone_iff_eq_none.mp hnone]
      · contradiction
  | leave continues => cases continues <;> contradiction
  | enqueue hroom => exact (elected_of_enqueue hroom).trans (hbefore rfl)
  | pollAgain | poll | retry => exact hbefore rfl
  | _ => contradiction

/-- Whoever is elected polls, or is about to give the office up. -/
theorem canHoldOffice_of_elected (h : Duty w worker before w' after)
    (hbefore : w.elected = some worker → before.canHoldOffice = true)
    (hafter : w'.elected = some worker) : after.canHoldOffice = true := by
  have hnew (hsame : w'.elected = w.elected) : before.canHoldOffice = true :=
    hbefore (hsame ▸ hafter)
  cases h with
  | serve hserves hserving =>
      rw [WorkerStage.canHoldOffice_of_isServing hserves] at hnew
      exact nomatch hnew rfl
  | dequeue hqueue => exact nomatch hnew (elected_of_dequeue hqueue)
  | giveUp => exact nomatch hnew rfl
  | park =>
      cases helected : w.elected with
      | none => rfl
      | some officer => exact nomatch hnew (by simp [Waiter.park, helected])
  | leave continues =>
      simp only [Waiter.leave] at hafter
      split at hafter <;> contradiction
  | poll => split <;> rfl
  | _ => rfl

/-- A worker that stops draining has found the shared queue empty, and a worker that does not drain
queues events only to drain next. -/
theorem isDraining_cases (h : Duty w worker before w' after) (hsound : w.queue.Sound) :
    after.isDraining = true ∨ w'.queue.toList = [] ∨
      before.isDraining = false ∧ w'.queue = w.queue := by
  cases h with
  | serve hserves hserving => exact .inl (by cases after <;> first | exact hserving | contradiction)
  | giveUp hqueue =>
      rcases hsound.pop?_cases with ⟨-, hnil⟩ | ⟨event, queue, hpop, -⟩
      · exact .inr (.inl hnil)
      · simp [Waiter.dequeue?, hpop] at hqueue
  | leave continues =>
      cases continues with
      | true => exact .inl rfl
      | false => exact .inr (.inr ⟨rfl, rfl⟩)
  | dequeue | enqueue | wake | answer => exact .inl rfl
  | _ => exact .inr (.inr ⟨rfl, rfl⟩)

theorem sound_queue (h : Duty w worker before w' after) (hsound : w.queue.Sound) :
    w'.queue.Sound := by
  cases h with
  | dequeue hqueue => exact (mem_queue_of_dequeue hsound hqueue).1
  | enqueue hroom => exact (mem_queue_of_enqueue hsound hroom).1
  | answer hcall => exact queue_of_answerCall hcall ▸ hsound
  | _ => exact hsound

/-- A batch is never longer than the limit. -/
theorem length_batch_le (h : Duty w worker before w' after)
    (hbefore : ∀ batch, before = .queueing batch → batch.length ≤ w.batchLimit)
    {batch : List Event} (hafter : after = .queueing batch) : batch.length ≤ w'.batchLimit := by
  cases h with
  | serve hserves hserving =>
      subst hafter
      contradiction
  | park => split at hafter <;> contradiction
  | leave continues => cases continues <;> contradiction
  | poll hlimit =>
      split at hafter
      · contradiction
      · obtain rfl := WorkerStage.queueing.inj hafter
        exact hlimit
  | retry => exact hbefore batch hafter
  | _ => contradiction

end Duty

/-! ## A crew at work -/

namespace Workers

/-- What can come next where there are so many workers: one of them takes a step, or anything
happens in the network. The operating system answers polls as it may. -/
inductive Next (workers : Nat) (mayAnswer : PollAnswer → Prop) (s : Workers) : Workers → Prop
  | work {s' : Workers} {worker : Nat} {answer : PollAnswer} (hworker : worker < workers)
      (hanswer : mayAnswer answer) (hstep : s.step worker answer = some s') :
      Next workers mayAnswer s s'
  | happen (change : Network → Network) : Next workers mayAnswer s (s.happen change)

/-- What can come about from an engine with the workers that it was set up for. -/
def Staffed (engine : Engine) (mayAnswer : PollAnswer → Prop) (s : Workers) : Prop :=
  Relation.ReflTransGen (Next engine.waiter.workers mayAnswer) (beginning engine) s

/-- The workers keep to their duties, and those that nobody employs do nothing. -/
structure Manned (workers : Nat) (s : Workers) : Prop where
  unemployed : ∀ w, workers ≤ w → s.stages w = .claiming
  poller : ∀ w, (s.stages w).isAtPoll = true → s.engine.waiter.elected = some w
  office : ∀ w, s.engine.waiter.elected = some w → (s.stages w).canHoldOffice = true
  queue : s.engine.waiter.queue.Sound
  room : s.engine.waiter.batchLimit < s.engine.waiter.queue.capacity
  batch : ∀ w batch, s.stages w = .queueing batch → batch.length ≤ s.engine.waiter.batchLimit
  attended : s.engine.waiter.queue.toList ≠ [] → ∃ w < workers, (s.stages w).isDraining = true
  holder : ∀ w, s.queueHolder = some w → (s.stages w).holdsQueue = true

variable {c : Config} {memory : Allocator} {table : Table} {network : Network} {engine : Engine}
  {mayAnswer : PollAnswer → Prop} {s s' : Workers} {workers worker : Nat} {answer : PollAnswer}
  {batch : List Event}

theorem Manned.dutied (hs : s.Manned workers) (hworker : worker < workers)
    (h : s.Dutied worker s') : s'.Manned workers := by
  obtain ⟨after, hduty, hstages, hholder⟩ := h
  have hself : s'.stages worker = after := by rw [hstages, turn_self]
  have hother {w : Nat} (hw : w ≠ worker) : s'.stages w = s.stages w := by
    rw [hstages, turn_of_ne _ hw]
  obtain ⟨hlimit, hcapacity⟩ := hduty.setup
  exact {
    unemployed := by
      intro w hw
      rw [hother (by omega)]
      exact hs.unemployed w hw
    poller := by
      intro w hpoll
      by_cases hw : w = worker
      · subst hw
        exact hduty.elected_of_isAtPoll (hs.poller w) (hself ▸ hpoll)
      · rw [hother hw] at hpoll
        exact (hduty.elected_other_iff hw).mpr (hs.poller w hpoll)
    office := by
      intro w helected
      by_cases hw : w = worker
      · subst hw
        rw [hself]
        exact hduty.canHoldOffice_of_elected (hs.office w) helected
      · rw [hother hw]
        exact hs.office w ((hduty.elected_other_iff hw).mp helected)
    queue := hduty.sound_queue hs.queue
    room := by
      rw [hlimit, hcapacity]
      exact hs.room
    batch := by
      intro w batch hstage
      by_cases hw : w = worker
      · subst hw
        exact hduty.length_batch_le (hs.batch w) (hself.symm.trans hstage)
      · rw [hother hw] at hstage
        rw [hlimit]
        exact hs.batch w batch hstage
    attended := by
      intro hne
      rcases hduty.isDraining_cases hs.queue with hdrains | hnil | ⟨hidle, hsame⟩
      · exact ⟨worker, hworker, hself ▸ hdrains⟩
      · exact absurd hnil hne
      · -- the worker did not drain before, so it is another one that does
        obtain ⟨w, hw, hdrains⟩ := hs.attended (hsame ▸ hne)
        have hne : w ≠ worker := by
          rintro rfl
          rw [hidle] at hdrains
          contradiction
        exact ⟨w, hw, (hother hne).symm ▸ hdrains⟩
    holder := by
      intro w hholds
      rcases hholder with ⟨hsame, hkept⟩ | ⟨hsome, hholder⟩ | hnone
      · rw [hsame] at hholds
        by_cases hw : w = worker
        · subst hw
          rw [hself, hkept]
          exact hs.holder w hholds
        · rw [hother hw]
          exact hs.holder w hholds
      · obtain rfl := Option.some.inj (hsome.symm.trans hholds)
        rw [hself]
        exact hholder
      · rw [hnone] at hholds
        contradiction }

theorem waiter_of_new (hnew : Engine.new c memory table network = .ok engine) :
    Waiter.new c.eventQueueCapacity.toNat c.pollBatch.toNat c.threads.toNat =
      .ok engine.waiter := by
  unfold Engine.new at hnew
  split at hnew
  · contradiction
  next waiter hwaiter =>
    dsimp only at hnew
    split at hnew
    · contradiction
    · split at hnew
      · contradiction
      · exact Except.ok.inj hnew ▸ hwaiter

theorem workers_of_new (hnew : Engine.new c memory table network = .ok engine) :
    engine.waiter.workers = c.threads.toNat := by
  obtain ⟨queue, -, hwaiter⟩ := Waiter.eq_of_new (waiter_of_new hnew)
  rw [hwaiter]

theorem manned_of_new (hnew : Engine.new c memory table network = .ok engine) :
    (beginning engine).Manned workers := by
  have hwaiter := waiter_of_new hnew
  have helected := elected_of_new hwaiter
  obtain ⟨hsound, hnil⟩ := queue_of_new hwaiter
  have hroom : engine.waiter.batchLimit < engine.waiter.queue.capacity := by
    obtain ⟨-, hbatch⟩ := Waiter.exists_new_iff.mp ⟨_, hwaiter⟩
    obtain ⟨queue, hqueue, heq⟩ := Waiter.eq_of_new hwaiter
    rw [heq, EventRing.capacity_of_new? hqueue]
    exact hbatch
  exact {
    unemployed := fun _ _ => rfl
    poller := fun _ hpoll => by cases hpoll
    office := fun w hw => absurd (helected.symm.trans hw) (by simp)
    queue := hsound
    room := hroom
    batch := fun _ _ hstage => by cases hstage
    attended := fun hne => absurd hnil hne
    holder := fun _ hholds => by cases hholds }

theorem Manned.next (hs : s.Manned workers) (h : s.Next workers mayAnswer s') :
    s'.Manned workers := by
  cases h with
  | work hworker _ hstep => exact hs.dutied hworker (dutied_of_step hstep)
  | happen change =>
      obtain ⟨hunemployed, hpoller, hoffice, hqueue, hroom, hbatch, hattended, hholder⟩ := hs
      exact ⟨hunemployed, hpoller, hoffice, hqueue, hroom, hbatch, hattended, hholder⟩

theorem Staffed.manned (hnew : Engine.new c memory table network = .ok engine)
    (hs : Staffed engine mayAnswer s) : s.Manned engine.waiter.workers := by
  induction hs with
  | refl => exact manned_of_new hnew
  | tail _ hnext ih => exact ih.next hnext

/-- A worker is kept waiting: by the operating system, by its own sleep, or by a queue that has no
room for its batch. -/
def IsHeldUp (s : Workers) (w : Nat) : Prop :=
  s.stages w = .polling ∨ s.stages w = .sleeping ∧ w ∉ s.engine.waiter.called ∨
    ∃ batch, s.stages w = .queueing batch

theorem not_isHeldUp_of_isDraining {w : Nat} (h : (s.stages w).isDraining = true) :
    ¬s.IsHeldUp w := by
  rintro (hstage | ⟨hstage, -⟩ | ⟨batch, hstage⟩)
  all_goals
    rw [hstage] at h
    contradiction

/-- A poller that finds no room has company. -/
theorem Manned.exists_other (hs : s.Manned workers) (hstage : s.stages worker = .queueing batch)
    (hfull : s.engine.waiter.enqueue? batch = none) :
    ∃ w < workers, w ≠ worker ∧ (s.stages w).isDraining = true := by
  have hne : s.engine.waiter.queue.toList ≠ [] := by
    intro hnil
    have hroom : batch.length < s.engine.waiter.queue.capacity :=
      Nat.lt_of_le_of_lt (hs.batch worker batch hstage) hs.room
    obtain ⟨queue, hextend⟩ := EventRing.exists_extend?_of_nil hnil hroom
    simp [Waiter.enqueue?, hextend] at hfull
  obtain ⟨w, hw, hdrains⟩ := hs.attended hne
  refine ⟨w, hw, ?_, hdrains⟩
  rintro rfl
  rw [hstage] at hdrains
  contradiction

/-- A poller on its own finds room at once. -/
theorem Manned.enqueues (hs : s.Manned 1) (hstage : s.stages worker = .queueing batch)
    (answer : PollAnswer) : ∃ s', s.step worker answer = some s' ∧
      s'.stages worker = .waking batch.length ∧ s'.engine.waiter.queue.toList = batch := by
  have hemployed (w : Nat) (h : s.stages w ≠ .claiming) : w = 0 := by
    by_contra hne
    exact h (hs.unemployed w (by omega))
  obtain rfl := hemployed worker (by simp [hstage])
  have hfree : s.queueHolder = none := by
    by_contra hheld
    obtain ⟨w, hholder⟩ := Option.ne_none_iff_exists'.mp hheld
    have hholds := hs.holder w hholder
    obtain rfl := hemployed w fun hclaiming => by
      rw [hclaiming] at hholds
      contradiction
    rw [hstage] at hholds
    contradiction
  have hnil : s.engine.waiter.queue.toList = [] := by
    by_contra hne
    obtain ⟨w, hw, hdrains⟩ := hs.attended hne
    obtain rfl : w = 0 := by omega
    rw [hstage] at hdrains
    contradiction
  cases hroom : s.engine.waiter.enqueue? batch with
  | none =>
      obtain ⟨w, hw, hne, -⟩ := hs.exists_other hstage hroom
      omega
  | some waiter =>
      have hlist := (mem_queue_of_enqueue hs.queue hroom).2
      rw [hnil, List.nil_append] at hlist
      refine ⟨(s.advance 0 { s.engine with waiter } (.waking batch.length)).holdQueue (some 0), ?_,
        turn_self s.stages 0 _, hlist⟩
      simp [step, hstage, hfree, hroom]

/-- A worker that drains the shared queue does so until it has found it empty. -/
theorem Manned.isDraining_of_step (hs : s.Manned workers)
    (hdrains : (s.stages worker).isDraining = true) (hstep : s.step worker answer = some s') :
    (s'.stages worker).isDraining = true ∨ s'.engine.waiter.queue.toList = [] := by
  obtain ⟨after, hduty, hstages, -⟩ := dutied_of_step hstep
  rw [hstages, turn_self]
  rcases hduty.isDraining_cases hs.queue with hafter | hnil | ⟨hidle, -⟩
  · exact .inl hafter
  · exact .inr hnil
  · rw [hdrains] at hidle
    contradiction

/-- At most one worker polls, and it is the one that is elected. Whenever events are queued, a
worker that is not held up drains the queue, and it goes on until it has found the queue empty. So a
poller that finds no room has another worker that drains the queue, and a worker on its own always
finds room. -/
theorem Staffed.queue_attended (hnew : Engine.new c memory table network = .ok engine)
    (hs : Staffed engine mayAnswer s) :
    (∀ w, (s.stages w).isAtPoll = true →
        s.engine.waiter.elected = some w ∧ ∀ other, (s.stages other).isAtPoll = true → other = w) ∧
      (s.engine.waiter.queue.toList ≠ [] →
        ∃ w < engine.waiter.workers, ¬s.IsHeldUp w ∧ (s.stages w).isDraining = true) ∧
      (∀ w s' answer, (s.stages w).isDraining = true → s.step w answer = some s' →
        (s'.stages w).isDraining = true ∨ s'.engine.waiter.queue.toList = []) ∧
      (∀ w batch, s.stages w = .queueing batch → s.engine.waiter.enqueue? batch = none →
        ∃ other < engine.waiter.workers, other ≠ w ∧ (s.stages other).isDraining = true) ∧
      (engine.waiter.workers = 1 → ∀ w batch answer, s.stages w = .queueing batch →
        ∃ s', s.step w answer = some s' ∧ s'.stages w = .waking batch.length ∧
          s'.engine.waiter.queue.toList = batch) := by
  have hmanned := hs.manned hnew
  refine ⟨?_, ?_, ?_, ?_, ?_⟩
  · intro w hpoll
    refine ⟨hmanned.poller w hpoll, ?_⟩
    intro other hother
    exact Option.some.inj ((hmanned.poller other hother).symm.trans (hmanned.poller w hpoll))
  · intro hne
    obtain ⟨w, hw, hdrains⟩ := hmanned.attended hne
    exact ⟨w, hw, not_isHeldUp_of_isDraining hdrains, hdrains⟩
  · intro w s' answer hdrains hstep
    exact hmanned.isDraining_of_step hdrains hstep
  · intro w batch hstage hfull
    exact hmanned.exists_other hstage hfull
  · intro halone w batch answer hstage
    rw [halone] at hmanned
    exact hmanned.enqueues hstage answer

/-! ## Runs of a crew -/

theorem Staffed.run (hs : Staffed engine mayAnswer s) {os : List Occurrence}
    (hworks : ∀ worker answer, .work worker answer ∈ os →
      worker < engine.waiter.workers ∧ mayAnswer answer)
    (h : s.run os = some s') : Staffed engine mayAnswer s' := by
  induction os generalizing s with
  | nil => exact Option.some.inj h ▸ hs
  | cons o os ih =>
      rw [Workers.run, List.foldlM_cons] at h
      obtain ⟨next, hnext, hrest⟩ := Option.bind_eq_some_iff.mp h
      have hstaffed : Staffed engine mayAnswer next := by
        refine hs.tail ?_
        cases o with
        | work worker answer =>
            obtain ⟨hworker, hanswer⟩ := hworks worker answer List.mem_cons_self
            exact .work hworker hanswer hnext
        | connect => exact Option.some.inj hnext ▸ .happen _
        | send stream bytes => exact Option.some.inj hnext ▸ .happen _
        | finish stream => exact Option.some.inj hnext ▸ .happen _
      refine ih hstaffed ?_ hrest
      intro worker answer hmem
      exact hworks worker answer (List.mem_cons_of_mem o hmem)

/-- The first worker polls, the second one sleeps, and a client connects. -/
def oneArrival : List Occurrence :=
  List.replicate 3 (.work 0 .interrupted) ++ List.replicate 3 (.work 1 .interrupted) ++
    [.connect, .work 0 (.events 2), .work 0 .interrupted]

/-- The report on the client is queued while the second worker sleeps. The first one comes to it. -/
theorem queue_attended_of_oneArrival :
    ∃ table engine s, Table.new unlimited (fun _ => 0) 1 1 = .ok table ∧
      Engine.new smallConfig unlimited table (.idle true) = .ok engine ∧
      (beginning engine).run oneArrival = some s ∧ s.engine.waiter.queue.toList.length = 1 ∧
      s.IsHeldUp 1 ∧ ¬s.IsHeldUp 0 ∧ (s.stages 0).isDraining = true := by
  obtain ⟨table, htable⟩ := Table.new_unlimited (fun _ => 0) 1 1 (by decide) (by decide) (by decide)
  have hrun : ((Engine.new smallConfig unlimited table (.idle true)).toOption.bind fun engine =>
      ((beginning engine).run oneArrival).map fun s =>
        (s.engine.waiter.queue.toList.length, (s.stages 1).polls?, s.engine.waiter.called)) =
          some (1, some false, []) := by
    rw [Table.eq_of_new htable]
    decide
  simp only [Option.bind_eq_some_iff, Option.map_eq_some_iff, Prod.mk.injEq] at hrun
  obtain ⟨engine, hsome, s, hs, hlength, hsleeps, hcalled⟩ := hrun
  have hengine := Engine.new_of_toOption hsome
  have hcrew : engine.waiter.workers = 2 := workers_of_new hengine
  have hstaffed : Staffed engine (fun _ => True) s := by
    refine Staffed.run .refl ?_ hs
    simp only [oneArrival, List.replicate, List.cons_append, List.nil_append, List.mem_cons,
      Occurrence.work.injEq, hcrew]
    grind
  have hheld : s.IsHeldUp 1 := .inr (.inl ⟨WorkerStage.eq_sleeping hsleeps, by simp [hcalled]⟩)
  have hne : s.engine.waiter.queue.toList ≠ [] := by
    rw [← List.length_pos_iff, hlength]
    exact Nat.one_pos
  obtain ⟨w, hw, hgoesOn, hdrains⟩ := (hstaffed.queue_attended hengine).2.1 hne
  obtain rfl : w = 0 := by
    have hother : w ≠ 1 := by
      rintro rfl
      exact hgoesOn hheld
    omega
  exact ⟨table, engine, s, htable, hengine, hs, hlength, hheld, hgoesOn, hdrains⟩

end Workers

end KeyValueServer.Server
