import KeyValueServer.Proofs.Traffic.Explanation
import Mathlib.Data.DFinsupp.WellFounded
import Mathlib.Data.Prod.Lex

/-!
# Every request can return

A thread waits for a slot only while it holds nothing, and for an entry only while it holds nothing
but a slot. So a thread that holds an entry is never stopped, and of the threads with requests under
way there is always one that can go on. Each step takes its thread nearer to the end of its request:
the requests under way can all return.
-/

namespace KeyValueServer

open Function (update)

/-! ## Waiting -/

/-- A call that cannot go on has ended, or its thread waits for a slot and holds nothing, or it
waits for the entry that it has found. -/
theorem HasStake.waits_cases {s : Traffic} {thread : ThreadId} {request : TableRequest}
    {stage : JobStage} {stake : Stake} {settled : Option (Except Error Bytes)}
    (h : HasStake s.table.placeOf request stage (s.calls thread) stake settled)
    (hwaits : s.step unlimited thread = none) :
    (∃ ended, s.calls thread = .finished ended) ∨
      (stake = .idle ∧ ∃ place mode, s.table.enterSlot thread mode place = none) ∨
      ∃ key id length mode, stake.role = .found key id length ∧
        s.table.enterEntry thread mode id = none := by
  unfold Traffic.step at hwaits
  generalize s.calls thread = call at h hwaits
  cases h with
  | missed | held | read | released => exact .inl ⟨_, rfl⟩
  | seeking | approaching | claiming =>
      exact .inr (.inl ⟨rfl, _, _, Option.map_eq_none_iff.mp hwaits⟩)
  | taking | locking =>
      exact .inr (.inr ⟨_, _, _, _, rfl, Option.map_eq_none_iff.mp hwaits⟩)
  | copying =>
      simp only [Traffic.overwriteStep] at hwaits
      split at hwaits <;> contradiction
  | inspecting =>
      dsimp only at hwaits
      split at hwaits
      · contradiction
      · split at hwaits <;> contradiction
  | searching | probing | making | weighing | reclaiming | judging | reading =>
      dsimp only at hwaits
      split at hwaits <;> contradiction
  | _ => contradiction

theorem Enrolled.exists_of_ne_nil {lists : Nat → List Hold}
    {held : ThreadId → Option (Nat × LockMode)} (h : Enrolled lists held) {place : Nat}
    (hlist : lists place ≠ []) : ∃ thread mode, held thread = some (place, mode) := by
  obtain ⟨⟨thread, mode⟩, hmem⟩ := List.exists_mem_of_ne_nil _ hlist
  exact ⟨thread, mode, ((h place).mem_iff thread mode).mp hmem⟩

namespace Ledger

variable {t : Table} {stakes : ThreadId → Stake} {slots : Nat → List Hold}
  {holds : EntryId → List Hold} {thread : ThreadId} {mode : LockMode} {place : Nat} {id : EntryId}

theorem exists_slot_of_refused (h : Ledger t stakes slots holds)
    (hrefused : t.enterSlot thread mode place = none) :
    ∃ other mode', (stakes other).slot = some (place, mode') := by
  refine h.slots.exists_of_ne_nil fun hfree => ?_
  obtain ⟨t', henter⟩ := h.shows.exists_enterSlot place hfree thread mode
  rw [hrefused] at henter
  contradiction

theorem exists_entry_of_refused (h : Ledger t stakes slots holds) (hid : id < t.entries.size)
    (hrefused : t.enterEntry thread mode id = none) :
    ∃ other mode', (stakes other).entry = some (id, mode') := by
  refine h.holds.exists_of_ne_nil fun hfree => ?_
  obtain ⟨t', henter⟩ := h.shows.exists_enterEntry hid hfree thread mode
  rw [hrefused] at henter
  contradiction

end Ledger

namespace Workload

variable {w w' : Workload} {order : List Outcome} {stakes : ThreadId → Stake}
  {counted : Finset Bytes} {thread : ThreadId} {job : Job} {id : EntryId} {mode : LockMode}
  {place : Nat}

theorem perform_step_of_finished (hjob : w.jobs thread = some job) {ended : TableResult}
    (hcall : w.traffic.calls thread = .finished ended) :
    w.perform (.step thread) = w.proceed thread job job.stage ended := by
  rw [perform, hjob, Option.bind_eq_bind, Option.bind_some, hcall]

theorem perform_step_of_step (hjob : w.jobs thread = some job) {s : Traffic}
    (hstep : w.traffic.step unlimited thread = some s) :
    w.perform (.step thread) = some { w with traffic := s } := by
  rw [perform, hjob, Option.bind_eq_bind, Option.bind_some]
  split
  next ended hcall =>
    rw [Traffic.step, hcall] at hstep
    contradiction
  · rw [hstep, Option.map_some]

namespace Explained

theorem exists_proceed (h : w.Explained order stakes counted) (hjob : w.jobs thread = some job)
    {ended : TableResult} (hcall : w.traffic.calls thread = .finished ended) :
    ∃ w', w.proceed thread job job.stage ended = some w' := by
  obtain ⟨settled, hstake, -⟩ := (h.busy thread job hjob).stake
  obtain ⟨name, request, stage⟩ := job
  rw [hcall] at hstake
  generalize stakes thread = stake at hstake
  cases hstake with
  | missed | held | read | released => exact ⟨_, rfl⟩

/-- A thread with a request under way that cannot go on waits for a slot or for an entry. -/
theorem step_cases (h : w.Explained order stakes counted) (hjob : w.jobs thread = some job) :
    (∃ w', w.perform (.step thread) = some w') ∨
      (stakes thread = .idle ∧ ∃ place mode, w.traffic.table.enterSlot thread mode place = none) ∨
      ((stakes thread).entry = none ∧ ∃ id mode, id < w.traffic.table.entries.size ∧
        w.traffic.table.enterEntry thread mode id = none) := by
  obtain ⟨settled, hstake, -⟩ := (h.busy thread job hjob).stake
  have hstands := h.coherent.stands thread
  cases hstep : w.traffic.step unlimited thread with
  | some s => exact .inl ⟨_, perform_step_of_step hjob hstep⟩
  | none =>
      rcases hstake.waits_cases hstep with ⟨ended, hcall⟩ | hslot | hentry
      · obtain ⟨w', hproceed⟩ := h.exists_proceed hjob hcall
        exact .inl ⟨w', (perform_step_of_finished hjob hcall).trans hproceed⟩
      · exact .inr (.inl hslot)
      · obtain ⟨key, id, length, mode, hrole, hrefused⟩ := hentry
        rw [Stake.Stands, hrole] at hstands
        obtain ⟨-, hfree, hfound, -⟩ := hstands
        exact .inr (.inr ⟨hfree, id, mode, h.coherent.sound.lt_of_entryOf hfound, hrefused⟩)

theorem exists_job (h : w.Explained order stakes counted) (hbusy : stakes thread ≠ .idle) :
    ∃ job, w.jobs thread = some job := by
  rw [← Option.ne_none_iff_exists']
  exact fun hnone => hbusy (h.idle thread hnone).1

/-- A thread that holds an entry can go on. -/
theorem exists_step_of_entry (h : w.Explained order stakes counted)
    (hheld : (stakes thread).entry = some (id, mode)) :
    ∃ w', w.perform (.step thread) = some w' := by
  have hbusy : stakes thread ≠ .idle := by
    intro hidle
    rw [hidle] at hheld
    contradiction
  obtain ⟨job, hjob⟩ := h.exists_job hbusy
  rcases h.step_cases hjob with hstep | ⟨hidle, -⟩ | ⟨hfree, -⟩
  · exact hstep
  · exact absurd hidle hbusy
  · rw [hheld] at hfree
    contradiction

/-- Where a thread holds a slot some thread can go on: this one, or one that holds an entry. -/
theorem exists_step_of_slot (h : w.Explained order stakes counted)
    (hheld : (stakes thread).slot = some (place, mode)) :
    ∃ other w', w.perform (.step other) = some w' := by
  have hbusy : stakes thread ≠ .idle := by
    intro hidle
    rw [hidle] at hheld
    contradiction
  obtain ⟨job, hjob⟩ := h.exists_job hbusy
  obtain ⟨slots, holds, hledger⟩ := h.coherent.ledger
  rcases h.step_cases hjob with hstep | ⟨hidle, -⟩ | ⟨-, id, mode', hid, hrefused⟩
  · exact ⟨thread, hstep⟩
  -- No thread that waits for a slot holds one.
  · exact absurd hidle hbusy
  · obtain ⟨other, mode'', hother⟩ := hledger.exists_entry_of_refused hid hrefused
    exact ⟨other, h.exists_step_of_entry hother⟩

/-- The threads with requests under way never all wait for each other. -/
theorem exists_step (h : w.Explained order stakes counted) (hjob : w.jobs thread = some job) :
    ∃ other w', w.perform (.step other) = some w' := by
  obtain ⟨slots, holds, hledger⟩ := h.coherent.ledger
  rcases h.step_cases hjob with hstep | ⟨-, place, mode, hrefused⟩ | ⟨-, id, mode, hid, hrefused⟩
  · exact ⟨thread, hstep⟩
  · obtain ⟨other, mode', hother⟩ := hledger.exists_slot_of_refused hrefused
    exact h.exists_step_of_slot hother
  · obtain ⟨other, mode', hother⟩ := hledger.exists_entry_of_refused hid hrefused
    exact ⟨other, h.exists_step_of_entry hother⟩

end Explained

end Workload

/-! ## What is left to do -/

/-- What is left of a call: the phases still to come, and the rounds of the present one. -/
def TableCall.left : TableCall → ℕ ×ₗ ℕ
  | .approaching _ => toLex (22, 0)
  | .probing _ => toLex (21, 0)
  | .withdrawing _ => toLex (20, 0)
  | .claiming _ => toLex (19, 0)
  | .inspecting _ => toLex (18, 0)
  | .discounting _ _ => toLex (17, 0)
  | .retiring _ _ => toLex (16, 0)
  | .making _ => toLex (15, 0)
  | .linking _ _ => toLex (14, 0)
  | .counting _ _ => toLex (13, 0)
  | .publishing _ _ => toLex (12, 0)
  | .overwriting _ _ _ .locking => toLex (11, 0)
  | .overwriting _ _ d (.copying place) => toLex (10, d.value.length - place)
  | .overwriting _ _ _ .sizing => toLex (9, 0)
  | .overwriting _ _ _ .loosening => toLex (8, 0)
  | .overwriting _ _ _ .relocking => toLex (7, 0)
  | .seeking _ _ => toLex (9, 0)
  | .searching _ _ => toLex (8, 0)
  | .taking _ _ _ => toLex (7, 0)
  | .parting _ _ _ => toLex (6, 0)
  | .weighing _ => toLex (5, 0)
  | .reclaiming rounds _ _ => toLex (4, 2 * rounds)
  | .judging _ rounds _ _ => toLex (4, 2 * rounds + 1)
  | .measuring _ => toLex (3, 0)
  | .reading _ size copied => toLex (2, size - copied.length)
  | .releasing _ => toLex (3, 0)
  | .forgetting _ _ => toLex (2, 0)
  | .finished _ => toLex (1, 0)

namespace Traffic

variable {memory : Allocator} {s s' : Traffic} {thread other : ThreadId}

theorem left_overwriteStep {slotMode : LockMode} {id : EntryId} {d : Deposit}
    {progress : Overwriting} (hstep : s.overwriteStep thread slotMode id d progress = some s') :
    (s'.calls thread).left < (TableCall.overwriting slotMode id d progress).left := by
  cases progress with
  | locking | relocking =>
      obtain ⟨t, -, rfl⟩ := Option.map_eq_some_iff.mp hstep
      simp [TableCall.left, Prod.Lex.toLex_lt_toLex]
  | copying place =>
      rw [overwriteStep] at hstep
      split at hstep
      · obtain rfl := Option.some.inj hstep
        simp [TableCall.left, Prod.Lex.toLex_lt_toLex]
      next byte hbyte =>
        obtain rfl := Option.some.inj hstep
        have hlt : place < d.value.length := (List.getElem?_eq_some_iff.mp hbyte).1
        rw [calls_advance_self]
        exact Prod.Lex.toLex_lt_toLex.mpr (.inr ⟨rfl, Nat.sub_succ_lt_self _ _ hlt⟩)
  | sizing =>
      rw [overwriteStep] at hstep
      cases hmode : d.mode with
      | shared | exclusive =>
          simp only [hmode] at hstep
          obtain rfl := Option.some.inj hstep
          simp [TableCall.left, Prod.Lex.toLex_lt_toLex]
  | loosening =>
      rw [overwriteStep] at hstep
      split at hstep
      all_goals
        obtain rfl := Option.some.inj hstep
        simp [TableCall.left, Prod.Lex.toLex_lt_toLex]

/-- A step of a thread brings its call nearer to its end. -/
theorem left_step (hstep : s.step memory thread = some s') :
    (s'.calls thread).left < (s.calls thread).left := by
  unfold step at hstep
  generalize s.calls thread = call at hstep
  cases call with
  | finished => contradiction
  | overwriting slotMode id d progress => exact left_overwriteStep hstep
  | seeking | taking | approaching | claiming =>
      obtain ⟨t, -, rfl⟩ := Option.map_eq_some_iff.mp hstep
      simp [TableCall.left, Prod.Lex.toLex_lt_toLex]
  | withdrawing | discounting | retiring | linking | counting | publishing | parting | measuring
  | releasing | forgetting =>
      obtain rfl := Option.some.inj hstep
      simp [TableCall.left, Prod.Lex.toLex_lt_toLex]
  | searching | probing | making | weighing | judging =>
      dsimp only at hstep
      split at hstep
      all_goals
        obtain rfl := Option.some.inj hstep
        simp [TableCall.left, Prod.Lex.toLex_lt_toLex]
  | inspecting =>
      dsimp only at hstep
      split at hstep
      · obtain rfl := Option.some.inj hstep
        simp [TableCall.left, Prod.Lex.toLex_lt_toLex]
      · split at hstep
        all_goals
          obtain rfl := Option.some.inj hstep
          simp [TableCall.left, Prod.Lex.toLex_lt_toLex]
  | reclaiming rounds freed waiting =>
      dsimp only at hstep
      split at hstep
      · obtain rfl := Option.some.inj hstep
        rw [calls_advance_self]
        exact Prod.Lex.toLex_lt_toLex.mpr (.inr ⟨rfl, by dsimp only; omega⟩)
      · obtain rfl := Option.some.inj hstep
        simp [TableCall.left, Prod.Lex.toLex_lt_toLex]
  | reading handle size copied =>
      dsimp only at hstep
      by_cases hroom : copied.length < size
      · rw [if_pos hroom] at hstep
        split at hstep
        · obtain rfl := Option.some.inj hstep
          simp [TableCall.left, Prod.Lex.toLex_lt_toLex]
        · obtain rfl := Option.some.inj hstep
          rw [calls_start_self, TableCall.left, List.length_append]
          exact Prod.Lex.toLex_lt_toLex.mpr (.inr ⟨rfl, Nat.sub_succ_lt_self _ _ hroom⟩)
      · rw [if_neg hroom] at hstep
        obtain rfl := Option.some.inj hstep
        simp [TableCall.left, Prod.Lex.toLex_lt_toLex]

end Traffic

/-- What is left of a stage: the calls still to come. -/
def JobStage.left : JobStage → ℕ
  | calling => 3
  | reading _ => 2
  | leaving _ => 1

theorem JobStage.left_pos (stage : JobStage) : 0 < stage.left := by
  cases stage <;> exact Nat.succ_pos _

namespace Workload

variable {w w' : Workload} {order : List Outcome} {stakes : ThreadId → Stake}
  {counted : Finset Bytes} {thread : ThreadId} {job : Job} {id : EntryId} {mode : LockMode}
  {place : Nat}

/-- What is left of the request of a thread. -/
def left (w : Workload) (thread : ThreadId) : ℕ ×ₗ ℕ ×ₗ ℕ :=
  match w.jobs thread with
  | none => toLex (0, toLex (0, 0))
  | some job => toLex (job.stage.left, (w.traffic.calls thread).left)

theorem left_of_job (hjob : w.jobs thread = some job) :
    w.left thread = toLex (job.stage.left, (w.traffic.calls thread).left) := by
  rw [left, hjob]

/-- What is left of the other requests does not matter when a thread goes on with its own. -/
theorem Turn.left_lt {events : List TableEvent} (hturn : Turn thread w w' events)
    (hself : w'.left thread < w.left thread) : w'.left < w.left := by
  refine Pi.lt_def.mpr ⟨fun other => ?_, thread, hself⟩
  by_cases hother : other = thread
  · rw [hother]
    exact hself.le
  · rw [left, left, hturn.jobs other hother, hturn.calls other hother]

theorem left_resume_lt (hjob : w.jobs thread = some job) {stage : JobStage} (call : TableCall)
    (hstage : stage.left < job.stage.left) : (w.resume thread job stage call).left < w.left := by
  refine (Turn.resume w thread job stage call).left_lt ?_
  rw [left_of_job hjob, left_of_job (Function.update_self thread _ w.jobs)]
  exact Prod.Lex.toLex_lt_toLex.mpr (.inl hstage)

theorem left_conclude_lt (hjob : w.jobs thread = some job) (result : Except Error Bytes) :
    (w.conclude thread job result).left < w.left := by
  refine (Turn.conclude hjob result).left_lt ?_
  have hnone : (w.conclude thread job result).jobs thread = none := Function.update_self _ _ _
  rw [left_of_job hjob, left, hnone]
  exact Prod.Lex.toLex_lt_toLex.mpr (.inl job.stage.left_pos)

theorem left_proceed_lt (hjob : w.jobs thread = some job) {ended : TableResult}
    (hproceed : w.proceed thread job job.stage ended = some w') : w'.left < w.left := by
  unfold proceed at hproceed
  split at hproceed
  next handle hstage =>
    obtain rfl := Option.some.inj hproceed
    exact left_resume_lt hjob _ (by rw [hstage]; exact Nat.lt_succ_self 2)
  · obtain rfl := Option.some.inj hproceed
    exact left_conclude_lt hjob _
  next handle bytes hstage =>
    obtain rfl := Option.some.inj hproceed
    exact left_resume_lt hjob _ (by rw [hstage]; exact Nat.lt_succ_self 1)
  · obtain rfl := Option.some.inj hproceed
    exact left_conclude_lt hjob _
  · contradiction

namespace Explained

theorem left_lt (h : w.Explained order stakes counted)
    (hstep : w.perform (.step thread) = some w') : w'.left < w.left := by
  simp only [perform, Option.bind_eq_bind, Option.bind_eq_some_iff] at hstep
  obtain ⟨job, hjob, hstep⟩ := hstep
  split at hstep
  · exact left_proceed_lt hjob hstep
  · obtain ⟨s, hmoved, rfl⟩ := Option.map_eq_some_iff.mp hstep
    have hless := Traffic.left_step hmoved
    obtain ⟨-, t, call, -, -, -, rfl, -⟩ := h.exists_move hjob hmoved
    refine (Turn.advance w thread t call).left_lt ?_
    have hafter : left { w with traffic := w.traffic.advance thread t call } thread =
        toLex (job.stage.left, ((w.traffic.advance thread t call).calls thread).left) :=
      left_of_job hjob
    rw [left_of_job hjob, hafter]
    exact Prod.Lex.toLex_lt_toLex.mpr (.inr ⟨rfl, hless⟩)

/-- The requests under way can all return, without any new ones being made. -/
theorem exists_return (h : w.Explained order stakes counted) :
    ∃ (threads : List ThreadId) (w' : Workload),
      w.run (threads.map .step) = some w' ∧ ∀ thread, w'.jobs thread = none := by
  -- By induction on what is left: some thread can go on, and its step leaves less.
  generalize hleft : w.left = left
  induction left using WellFoundedLT.induction generalizing w order stakes counted with
  | ind left ih =>
      by_cases hdone : ∀ thread, w.jobs thread = none
      · exact ⟨[], w, rfl, hdone⟩
      obtain ⟨thread, hbusy⟩ := not_forall.mp hdone
      obtain ⟨job, hjob⟩ := Option.ne_none_iff_exists'.mp hbusy
      obtain ⟨other, next, hstep⟩ := h.exists_step hjob
      obtain ⟨_, _, _, hnext⟩ := h.exists_perform hstep
      obtain ⟨threads, last, hrun, hlast⟩ := ih next.left (hleft ▸ h.left_lt hstep) hnext rfl
      refine ⟨other :: threads, last, ?_, hlast⟩
      rw [List.map_cons, run, List.foldlM_cons, hstep]
      exact hrun

end Explained

end Workload

end KeyValueServer
