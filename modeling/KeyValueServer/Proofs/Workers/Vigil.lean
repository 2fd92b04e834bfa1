import KeyValueServer.Proofs.Workers.Polling

/-!
# Who is awake

A sleeping worker is called by the poller only. As long as no poll fails for good, some worker is
awake: if none is elected, one is on its way to be. A worker whose poll fails gives up its office
and exits without calling anyone. If all others sleep by then, they sleep for ever, and a server
that waits for all of its workers to exit waits for ever too.
-/

namespace KeyValueServer.Server

/-- Whether a worker is about to exit or has exited. -/
def WorkerStage.isDeparted : WorkerStage → Bool
  | leaving continues => !continues
  | exited => true
  | _ => false

/-- Whether a worker has exited. -/
def WorkerStage.hasExited : WorkerStage → Bool
  | exited => true
  | _ => false

theorem WorkerStage.eq_exited {stage : WorkerStage} (h : stage.hasExited = true) :
    stage = .exited := by
  cases stage <;> first | rfl | contradiction

theorem WorkerStage.isDeparted_of_isServing {stage : WorkerStage} (h : stage.isServing = true) :
    stage.isDeparted = false := by
  cases stage <;> first | rfl | contradiction

namespace Duty

variable {w w' : Waiter} {worker : Nat} {before after : WorkerStage}

/-- A worker goes to sleep only if another one is elected. -/
theorem elected_ne_none (h : Duty w worker before w' after) (hafter : after = .sleeping) :
    w'.elected ≠ none := by
  cases h with
  | serve hserves hserving =>
      subst hafter
      contradiction
  | park =>
      cases helected : w.elected with
      | none => simp [helected] at hafter
      | some officer => simp [Waiter.park, helected]
  | leave continues => cases continues <;> contradiction
  | poll => split at hafter <;> contradiction
  | _ => contradiction

theorem isDeparted_of_ne (h : Duty w worker before w' after) (hpolls : before ≠ .polling)
    (hafter : after.isDeparted = true) : before.isDeparted = true := by
  cases h with
  | serve hserves hserving =>
      rw [WorkerStage.isDeparted_of_isServing hserving] at hafter
      contradiction
  | park => split at hafter <;> contradiction
  | leave continues =>
      cases continues with
      | true => contradiction
      | false => rfl
  | pollAgain | pollFails | poll => exact absurd rfl hpolls
  | _ => contradiction

end Duty

namespace Workers

variable {c : Config} {memory : Allocator} {table : Table} {network : Network} {engine : Engine}
  {mayAnswer : PollAnswer → Prop} {s s' : Workers} {workers worker : Nat} {answer : PollAnswer}

/-- A worker sleeps, and nobody has called it. -/
def IsAsleep (s : Workers) (w : Nat) : Prop :=
  s.stages w = .sleeping ∧ w ∉ s.engine.waiter.called

/-- A worker neither sleeps nor has exited. -/
def IsAwake (s : Workers) (w : Nat) : Prop := ¬s.IsAsleep w ∧ s.stages w ≠ .exited

/-- Some worker has not exited, all that have not are asleep, and none is elected. -/
structure IsStranded (workers : Nat) (s : Workers) : Prop where
  vacant : s.engine.waiter.elected = none
  remains : ∃ w < workers, s.stages w ≠ .exited
  asleep : ∀ w < workers, s.stages w ≠ .exited → s.IsAsleep w

/-! ## As long as no poll fails -/

theorem isAwake_of_canHoldOffice (h : (s.stages worker).canHoldOffice = true) :
    s.IsAwake worker := by
  constructor
  · rintro ⟨hstage, -⟩
    rw [hstage] at h
    contradiction
  · intro hstage
    rw [hstage] at h
    contradiction

/-- The elected worker is one of the crew, and is awake. -/
theorem Manned.isAwake_of_elected (hs : s.Manned workers)
    (helected : s.engine.waiter.elected = some worker) : worker < workers ∧ s.IsAwake worker := by
  have hoffice := hs.office worker helected
  refine ⟨?_, isAwake_of_canHoldOffice hoffice⟩
  by_contra hbeyond
  rw [hs.unemployed worker (by omega)] at hoffice
  contradiction

/-- After a step, either the worker that took it or the one that is elected is awake, unless the
worker has exited. -/
theorem Manned.exists_isAwake (hs : s.Manned workers) (hworker : worker < workers)
    (hstep : s.step worker answer = some s') (hstays : s'.stages worker ≠ .exited) :
    ∃ w < workers, s'.IsAwake w := by
  have hafter := hs.dutied hworker (dutied_of_step hstep)
  obtain ⟨after, hduty, hstages, -⟩ := dutied_of_step hstep
  have hself : s'.stages worker = after := by rw [hstages, turn_self]
  by_cases hsleeps : after = .sleeping
  · obtain ⟨officer, helected⟩ := Option.ne_none_iff_exists'.mp (hduty.elected_ne_none hsleeps)
    exact ⟨officer, hafter.isAwake_of_elected helected⟩
  · exact ⟨worker, hworker, fun hasleep => hsleeps (hself.symm.trans hasleep.1), hstays⟩

/-- A worker departs only because its poll fails. -/
theorem isDeparted_of_step (hstep : s.step worker answer = some s')
    (hafter : (s'.stages worker).isDeparted = true) :
    (s.stages worker).isDeparted = true ∨ answer = .fails := by
  by_cases hpolls : s.stages worker = .polling
  · cases answer with
    | fails => exact .inr rfl
    | interrupted =>
        simp only [step, hpolls, Option.some.injEq] at hstep
        subst hstep
        exact .inl hafter
    | events count =>
        simp only [step, hpolls, Option.some.injEq] at hstep
        subst hstep
        have hstage : (s.pollStep worker (.events count)).stages worker =
            if (s.engine.network.poll (min count s.engine.waiter.batchLimit)).1.isEmpty then
              .leaving true
            else .queueing (s.engine.network.poll (min count s.engine.waiter.batchLimit)).1 :=
          if_pos rfl
        rw [hstage] at hafter
        split at hafter <;> contradiction
  · obtain ⟨after, hduty, hstages, -⟩ := dutied_of_step hstep
    rw [hstages, turn_self] at hafter
    exact .inl (hduty.isDeparted_of_ne hpolls hafter)

theorem Staffed.not_isDeparted (hs : Staffed engine mayAnswer s) (hnever : ¬mayAnswer .fails)
    (w : Nat) : (s.stages w).isDeparted = false := by
  induction hs with
  | refl => rfl
  | tail _ hnext ih =>
      cases hnext with
      | happen change => exact ih
      | @work _ worker answer hworker hanswer hstep =>
          rw [Bool.eq_false_iff]
          intro hafter
          by_cases hw : w = worker
          · subst hw
            rcases isDeparted_of_step hstep hafter with hbefore | rfl
            · rw [ih] at hbefore
              contradiction
            · exact hnever hanswer
          · obtain ⟨after, -, hstages, -⟩ := dutied_of_step hstep
            rw [hstages, turn_of_ne _ hw, ih] at hafter
            contradiction

/-- Some worker is awake or has exited. -/
theorem Staffed.exists_isAwake (hnew : Engine.new c memory table network = .ok engine)
    (hs : Staffed engine mayAnswer s) (hcrew : 0 < engine.waiter.workers) :
    (∃ w < engine.waiter.workers, s.IsAwake w) ∨
      ∃ w < engine.waiter.workers, s.stages w = .exited := by
  induction hs with
  | refl => exact .inl ⟨0, hcrew, nofun, nofun⟩
  | @tail before _ hbefore hnext ih =>
      cases hnext with
      | happen change => exact ih
      | @work _ worker answer hworker hanswer hstep =>
          rename Workers => after
          by_cases hexits : after.stages worker = .exited
          · exact .inr ⟨worker, hworker, hexits⟩
          · exact .inl ((Staffed.manned hnew hbefore).exists_isAwake hworker hstep hexits)

/-! ## Once a poll has failed -/

theorem IsStranded.step_eq_none (hs : s.IsStranded workers) (hworker : worker < workers)
    (answer : PollAnswer) : s.step worker answer = none := by
  by_cases hexited : s.stages worker = .exited
  · simp [step, hexited]
  · obtain ⟨hstage, hcalled⟩ := hs.asleep worker hworker hexited
    simp [step, hstage, Waiter.answerCall?, hcalled]

/-- Stranded workers stay where they are, whatever happens. -/
theorem IsStranded.forever (hs : s.IsStranded workers)
    (h : Relation.ReflTransGen (Next workers mayAnswer) s s') :
    s'.IsStranded workers ∧ s'.stages = s.stages := by
  induction h with
  | refl => exact ⟨hs, rfl⟩
  | tail _ hnext ih =>
      obtain ⟨hstranded, hstages⟩ := ih
      cases hnext with
      | work hworker _ hstep =>
          rw [hstranded.step_eq_none hworker] at hstep
          contradiction
      | happen change =>
          exact ⟨⟨hstranded.vacant, hstranded.remains, hstranded.asleep⟩, hstages⟩

/-- Whoever is elected is awake, and if none is, then some worker is awake or one has exited. No
worker exits unless its poll fails, so until then some worker is awake; but once those that remain
are asleep and none is elected, one has exited, and the others sleep for ever. -/
theorem Staffed.awake_until_failure (hnew : Engine.new c memory table network = .ok engine)
    (hs : Staffed engine mayAnswer s) (hcrew : 0 < engine.waiter.workers) :
    (∀ w, s.engine.waiter.elected = some w → w < engine.waiter.workers ∧ s.IsAwake w) ∧
      (¬mayAnswer .fails → (∀ w, s.stages w ≠ .exited) ∧
        ∃ w < engine.waiter.workers, s.IsAwake w) ∧
      (s.IsStranded engine.waiter.workers →
        (∃ w < engine.waiter.workers, s.stages w = .exited) ∧
          ∀ s', Relation.ReflTransGen (Next engine.waiter.workers mayAnswer) s s' →
            s'.stages = s.stages) := by
  refine ⟨?_, ?_, ?_⟩
  · intro w helected
    exact (hs.manned hnew).isAwake_of_elected helected
  · intro hnever
    have hstays (w : Nat) : s.stages w ≠ .exited := by
      intro hexited
      have hdeparted := hs.not_isDeparted hnever w
      rw [hexited] at hdeparted
      contradiction
    refine ⟨hstays, ?_⟩
    rcases hs.exists_isAwake hnew hcrew with hawake | ⟨w, -, hexited⟩
    · exact hawake
    · exact absurd hexited (hstays w)
  · intro hstranded
    constructor
    · rcases hs.exists_isAwake hnew hcrew with ⟨w, hw, hasleep, hstays⟩ | hexited
      · exact absurd (hstranded.asleep w hw hstays) hasleep
      · exact hexited
    · intro s' hafter
      exact (hstranded.forever hafter).2

/-- The first worker polls, and the second one sleeps. -/
def settledCrew : List Occurrence :=
  List.replicate 3 (.work 0 .interrupted) ++ List.replicate 3 (.work 1 .interrupted)

/-- The first worker may be interrupted, but is awake. -/
theorem awake_until_failure_of_settledCrew :
    ∃ table engine s, Table.new unlimited (fun _ => 0) 1 1 = .ok table ∧
      Engine.new smallConfig unlimited table (.idle true) = .ok engine ∧
      (beginning engine).run settledCrew = some s ∧ s.engine.waiter.elected = some 0 ∧
      s.IsAwake 0 ∧ s.IsAsleep 1 := by
  obtain ⟨table, htable⟩ := Table.new_unlimited (fun _ => 0) 1 1 (by decide) (by decide) (by decide)
  have hrun : ((Engine.new smallConfig unlimited table (.idle true)).toOption.bind fun engine =>
      ((beginning engine).run settledCrew).map fun s =>
        (s.engine.waiter.elected, (s.stages 1).polls?, s.engine.waiter.called)) =
          some (some 0, some false, []) := by
    rw [Table.eq_of_new htable]
    decide
  simp only [Option.bind_eq_some_iff, Option.map_eq_some_iff, Prod.mk.injEq] at hrun
  obtain ⟨engine, hsome, s, hs, helected, hsleeps, hcalled⟩ := hrun
  have hengine := Engine.new_of_toOption hsome
  have hcrew : engine.waiter.workers = 2 := workers_of_new hengine
  have hstaffed : Staffed engine (· ≠ .fails) s := by
    refine Staffed.run .refl ?_ hs
    simp only [settledCrew, List.replicate, List.cons_append, List.nil_append, List.mem_cons,
      Occurrence.work.injEq, hcrew]
    grind
  have hawake := (hstaffed.awake_until_failure hengine (by omega)).1 0 helected
  exact ⟨table, engine, s, htable, hengine, hs, helected, hawake.2, WorkerStage.eq_sleeping hsleeps,
    by simp [hcalled]⟩

/-- The first worker polls while the second one sleeps. The poll fails, and the first worker exits.
-/
def failedPoll : List Occurrence := settledCrew ++ [.work 0 .fails, .work 0 .interrupted]

/-- The second worker is left asleep. Nobody is elected, and nothing that can happen will wake it,
so that not all workers ever exit. -/
theorem stranded_of_failedPoll :
    ∃ table engine s, Table.new unlimited (fun _ => 0) 1 1 = .ok table ∧
      Engine.new smallConfig unlimited table (.idle true) = .ok engine ∧
      (beginning engine).run failedPoll = some s ∧ Staffed engine (fun _ => True) s ∧
      s.engine.waiter.elected = none ∧ s.stages 0 = .exited ∧
      (∀ w < engine.waiter.workers, s.stages w ≠ .exited → s.IsAsleep w) ∧
      ∀ s', Relation.ReflTransGen (Next engine.waiter.workers fun _ => True) s s' →
        s'.stages 1 = .sleeping := by
  obtain ⟨table, htable⟩ := Table.new_unlimited (fun _ => 0) 1 1 (by decide) (by decide) (by decide)
  have hrun : ((Engine.new smallConfig unlimited table (.idle true)).toOption.bind fun engine =>
      ((beginning engine).run failedPoll).map fun s =>
        (s.engine.waiter.elected, (s.stages 0).hasExited, (s.stages 1).polls?,
          s.engine.waiter.called)) = some (none, true, some false, []) := by
    rw [Table.eq_of_new htable]
    decide
  simp only [Option.bind_eq_some_iff, Option.map_eq_some_iff, Prod.mk.injEq] at hrun
  obtain ⟨engine, hsome, s, hs, helected, hexits, hsleeps, hcalled⟩ := hrun
  have hengine := Engine.new_of_toOption hsome
  have hcrew : engine.waiter.workers = 2 := workers_of_new hengine
  have hstaffed : Staffed engine (fun _ => True) s := by
    refine Staffed.run .refl ?_ hs
    simp only [failedPoll, settledCrew, List.replicate, List.cons_append, List.nil_append,
      List.mem_cons, Occurrence.work.injEq, hcrew]
    grind
  have hexited : s.stages 0 = .exited := WorkerStage.eq_exited hexits
  have hasleep : s.IsAsleep 1 := ⟨WorkerStage.eq_sleeping hsleeps, by simp [hcalled]⟩
  have hstranded : s.IsStranded engine.waiter.workers := by
    rw [hcrew]
    refine ⟨helected, ⟨1, by decide, by simp [hasleep.1]⟩, ?_⟩
    intro w hw hstays
    obtain rfl : w = 1 := by
      have hother : w ≠ 0 := by
        rintro rfl
        exact hstays hexited
      omega
    exact hasleep
  refine ⟨table, engine, s, htable, hengine, hs, hstaffed, helected, hexited, hstranded.asleep, ?_⟩
  intro s' hafter
  rw [(hstranded.forever hafter).2]
  exact hasleep.1

end Workers

end KeyValueServer.Server
