import KeyValueServer.Proofs.Store.Refinement
import KeyValueServer.Proofs.Traffic.Coherence
import KeyValueServer.Proofs.Traffic.History

/-!
# Linearizability of a table

However the steps of the threads interleave, the history of a workload is linearized by the order in
which the results of the requests are settled. A request takes effect at one moment while it is
under way: when the bytes of a value have all been written over an older one, when a new entry is
put into its chain, when a found entry is taken hold of, or when a chain is seen not to have the
key.
-/

namespace KeyValueServer

open Function (update)

/-! ## Requests under way -/

/-- A request has taken effect, with its result, just if the result is settled. -/
def Job.Took (job : Job) (order : List Outcome) : Option (Except Error Bytes) → Prop
  | none => job.name ∉ order.map Outcome.name
  | some result => ⟨job.name, job.request, result⟩ ∈ order

/-- What a request adds to the order when its result is settled. -/
def Job.outcomes (job : Job) : Option (Except Error Bytes) → List Outcome
  | none => []
  | some result => [⟨job.name, job.request, result⟩]

/-- A thread is at a request that was made and has not returned. -/
structure Job.Pursued (job : Job) (history : List TableEvent) (order : List Outcome)
    (place : Bytes → Nat) (thread : ThreadId) (call : TableCall) (stake : Stake) : Prop where
  called : history[job.name]? = some (.called thread job.request)
  unreturned : ∀ result, .returned job.name result ∉ history
  stake : ∃ settled, HasStake place job.request job.stage call stake settled ∧
    job.Took order settled

namespace Job

variable {job : Job} {history : List TableEvent} {order : List Outcome} {place : Bytes → Nat}
  {thread : ThreadId} {call : TableCall} {stake : Stake}
  {result settled : Option (Except Error Bytes)}

theorem replay_outcomes (job : Job) (order : List Outcome)
    (result : Option (Except Error Bytes)) :
    replay (order ++ job.outcomes result) = job.request.settle (replay order) result := by
  cases result with
  | none => exact congrArg replay (List.append_nil order)
  | some r => exact replay_snoc order _

theorem Took.settle (h : job.Took order settled) (hfirst : result = none ∨ settled = none) :
    job.Took (order ++ job.outcomes result) (result.or settled) := by
  cases result with
  | none =>
      rw [outcomes, List.append_nil, Option.none_or]
      exact h
  | some r => exact List.mem_append_right order (List.mem_singleton_self _)

/-- The order still linearizes the history when the result of a request under way is settled. -/
theorem Pursued.linearizes (h : job.Pursued history order place thread call stake)
    (hlinearizes : Linearizes history order) (htook : job.Took order settled)
    (hfirst : result = none ∨ settled = none)
    (hanswer : ∀ r, result = some r → r = job.request.answer (replay order)) :
    Linearizes history (order ++ job.outcomes result) := by
  cases result with
  | none => rwa [outcomes, List.append_nil]
  | some r =>
      obtain rfl := hfirst.resolve_left (Option.some_ne_none r)
      obtain rfl := hanswer r rfl
      exact hlinearizes.snoc_outcome h.called h.unreturned htook

theorem Took.append (h : job.Took order settled) {outcomes : List Outcome}
    (hnames : ∀ outcome ∈ outcomes, job.name ≠ outcome.name) :
    job.Took (order ++ outcomes) settled := by
  cases settled with
  | none =>
      intro hmem
      rw [List.map_append, List.mem_append] at hmem
      rcases hmem with hold | hnew
      · exact h hold
      · obtain ⟨outcome, houtcome, hname⟩ := List.mem_map.mp hnew
        exact hnames outcome houtcome hname.symm
  | some result => exact List.mem_append_left _ h

/-- Neither events nor outcomes of other requests matter to a request. -/
theorem Pursued.append (h : job.Pursued history order place thread call stake)
    {events : List TableEvent} {outcomes : List Outcome}
    (hevents : ∀ result, .returned job.name result ∉ events)
    (hnames : ∀ outcome ∈ outcomes, job.name ≠ outcome.name) :
    job.Pursued (history ++ events) (order ++ outcomes) place thread call stake := by
  obtain ⟨settled, hstake, htook⟩ := h.stake
  refine ⟨?_, fun result hmem => ?_, settled, hstake, htook.append hnames⟩
  · rw [List.getElem?_append_left (List.getElem?_eq_some_iff.mp h.called).1, h.called]
  · rcases List.mem_append.mp hmem with hold | hnew
    · exact h.unreturned result hold
    · exact hevents result hnew

end Job

/-! ## The invariant -/

namespace Workload

/-- The order explains the history, and the stakes tell how far each thread has come. -/
structure Explained (w : Workload) (order : List Outcome) (stakes : ThreadId → Stake)
    (counted : Finset Bytes) : Prop where
  linearizes : Linearizes w.history order
  coherent : Coherent w.traffic.table stakes (replay order) counted
  busy : ∀ thread job, w.jobs thread = some job → job.Pursued w.history order
    w.traffic.table.placeOf thread (w.traffic.calls thread) (stakes thread)
  idle : ∀ thread, w.jobs thread = none →
    stakes thread = .idle ∧ ∃ result, w.traffic.calls thread = .finished result
  zero : w.jobs 0 = none
  answered : ∀ name thread request, w.history[name]? = some (.called thread request) →
    (∃ result, .returned name result ∈ w.history) ∨
      ∃ job, w.jobs thread = some job ∧ job.name = name

/-- Only this thread has done something, and these events have happened. -/
structure Turn (thread : ThreadId) (w w' : Workload) (events : List TableEvent) : Prop where
  calls : ∀ other ≠ thread, w'.traffic.calls other = w.traffic.calls other
  jobs : ∀ other ≠ thread, w'.jobs other = w.jobs other
  history : w'.history = w.history ++ events
  called : ∀ other request, .called other request ∈ events → other = thread
  returned : ∀ name result, .returned name result ∈ events →
    ∃ job, w.jobs thread = some job ∧ job.name = name

variable {w w' : Workload} {order order' outcomes : List Outcome} {events : List TableEvent}
  {stakes stakes' : ThreadId → Stake} {counted counted' : Finset Bytes} {thread other : ThreadId}
  {job job' : Job} {result : Except Error Bytes}

namespace Turn

theorem make (w : Workload) (thread : ThreadId) (request : TableRequest) :
    Turn thread w (w.make thread request) [.called thread request] where
  calls _ hother := if_neg hother
  jobs _ hother := Function.update_of_ne hother _ _
  history := rfl
  called _ _ hmem := by injection List.mem_singleton.mp hmem
  returned _ _ hmem := by injection List.mem_singleton.mp hmem

theorem advance (w : Workload) (thread : ThreadId) (t : Table) (call : TableCall) :
    Turn thread w { w with traffic := w.traffic.advance thread t call } [] where
  calls _ hother := if_neg hother
  jobs _ _ := rfl
  history := (List.append_nil _).symm
  called _ _ hmem := absurd hmem List.not_mem_nil
  returned _ _ hmem := absurd hmem List.not_mem_nil

theorem resume (w : Workload) (thread : ThreadId) (job : Job) (stage : JobStage)
    (call : TableCall) : Turn thread w (w.resume thread job stage call) [] where
  calls _ hother := if_neg hother
  jobs _ hother := Function.update_of_ne hother _ _
  history := (List.append_nil _).symm
  called _ _ hmem := absurd hmem List.not_mem_nil
  returned _ _ hmem := absurd hmem List.not_mem_nil

theorem conclude (hjob : w.jobs thread = some job) (result : Except Error Bytes) :
    Turn thread w (w.conclude thread job result) [.returned job.name result] where
  calls _ _ := rfl
  jobs _ hother := Function.update_of_ne hother _ _
  history := rfl
  called _ _ hmem := by injection List.mem_singleton.mp hmem
  returned _ _ hmem := by
    injection List.mem_singleton.mp hmem with hname
    exact ⟨job, hjob, hname.symm⟩

end Turn

namespace Explained

theorem ne_zero (h : w.Explained order stakes counted) (hjob : w.jobs thread = some job) :
    thread ≠ 0 := by
  rintro rfl
  rw [h.zero] at hjob
  contradiction

theorem name_ne (h : w.Explained order stakes counted) (hjob : w.jobs thread = some job)
    (hjob' : w.jobs other = some job') (hother : other ≠ thread) : job'.name ≠ job.name := by
  intro hname
  have hcalled := (h.busy thread job hjob).called
  have hcalled' := (h.busy other job' hjob').called
  rw [hname, hcalled] at hcalled'
  injection hcalled' with hevent
  injection hevent with hthread
  exact hother hthread.symm

/-- What one thread does need only be explained for this thread. -/
theorem of_turn (h : w.Explained order stakes counted) (hturn : Turn thread w w' events)
    (hthread : thread ≠ 0) (hplace : w'.traffic.table.placeOf = w.traffic.table.placeOf)
    (hstakes : ∀ other ≠ thread, stakes' other = stakes other)
    (horder : order' = order ++ outcomes)
    (houtcomes : ∀ outcome ∈ outcomes, ∃ job, w.jobs thread = some job ∧ job.name = outcome.name)
    (hlinearizes : Linearizes w'.history order')
    (hcoherent : Coherent w'.traffic.table stakes' (replay order') counted')
    (hbusy : ∀ job, w'.jobs thread = some job → job.Pursued w'.history order'
      w'.traffic.table.placeOf thread (w'.traffic.calls thread) (stakes' thread))
    (hidle : w'.jobs thread = none →
      stakes' thread = .idle ∧ ∃ result, w'.traffic.calls thread = .finished result)
    (hanswered : ∀ name request, w'.history[name]? = some (.called thread request) →
      (∃ result, .returned name result ∈ w'.history) ∨
        ∃ job, w'.jobs thread = some job ∧ job.name = name) :
    w'.Explained order' stakes' counted' where
  linearizes := hlinearizes
  coherent := hcoherent
  busy other job hjob := by
    by_cases hother : other = thread
    · subst hother
      exact hbusy job hjob
    · rw [hturn.jobs other hother] at hjob
      rw [hturn.history, horder, hplace, hturn.calls other hother, hstakes other hother]
      refine (h.busy other job hjob).append (fun result hmem => ?_) fun outcome hmem => ?_
      · obtain ⟨own, hown, hname⟩ := hturn.returned _ _ hmem
        exact h.name_ne hown hjob hother hname.symm
      · obtain ⟨own, hown, hname⟩ := houtcomes outcome hmem
        rw [← hname]
        exact h.name_ne hown hjob hother
  idle other hnone := by
    by_cases hother : other = thread
    · subst hother
      exact hidle hnone
    · rw [hturn.jobs other hother] at hnone
      rw [hturn.calls other hother, hstakes other hother]
      exact h.idle other hnone
  zero := by rw [hturn.jobs 0 hthread.symm, h.zero]
  answered name other request hcalled := by
    by_cases hother : other = thread
    · subst hother
      exact hanswered name request hcalled
    · rw [hturn.jobs other hother]
      rw [hturn.history] at hcalled ⊢
      have hold : w.history[name]? = some (.called other request) := by
        by_cases hlt : name < w.history.length
        · rwa [List.getElem?_append_left hlt] at hcalled
        -- Only this thread has called anything since.
        · rw [List.getElem?_append_right (not_lt.mp hlt)] at hcalled
          exact absurd (hturn.called _ _ (List.mem_of_getElem? hcalled)) hother
      rcases h.answered name other request hold with ⟨result, hreturned⟩ | hjob
      · exact .inl ⟨result, List.mem_append_left _ hreturned⟩
      · exact .inr hjob

/-! ## Single moves -/

theorem make (h : w.Explained order stakes counted) (hthread : thread ≠ 0)
    (hfree : w.jobs thread = none) (request : TableRequest) :
    (w.make thread request).Explained order stakes counted := by
  have hlinearizes := h.linearizes.snoc_event (.called thread request) (by rintro _ _ ⟨⟩)
  refine h.of_turn (.make w thread request) hthread rfl (fun _ _ => rfl)
    (List.append_nil order).symm (fun _ hmem => absurd hmem List.not_mem_nil) hlinearizes
    h.coherent (fun job hjob => ?_) (fun hnone => ?_) fun name request' hcalled => ?_
  · obtain rfl := Option.some.inj ((Function.update_self thread _ w.jobs).symm.trans hjob)
    have hlast : (w.make thread request).history[w.history.length]? =
        some (.called thread request) := List.getElem?_concat_length
    have hcall : (w.make thread request).traffic.calls thread = request.call := if_pos rfl
    have hidle : stakes thread = .idle := (h.idle thread hfree).1
    refine ⟨hlast, fun result hmem => ?_, none, ?_, fun hmem => ?_⟩
    · rcases List.mem_append.mp hmem with hold | hnew
      · obtain ⟨made, hmade⟩ := h.linearizes.complete _ result hold
        exact (h.linearizes.name_lt hmade).false
      · injection List.mem_singleton.mp hnew
    · rw [hcall, hidle]
      cases request with
      | get => exact .seeking
      | set => exact .approaching
    · obtain ⟨outcome, houtcome, hname⟩ := List.mem_map.mp hmem
      exact (h.linearizes.name_lt houtcome).ne hname
  · have hsome := (Function.update_self thread _ w.jobs).symm.trans hnone
    contradiction
  · rcases getElem?_snoc_cases hcalled with hold | ⟨rfl, -⟩
    · rcases h.answered name thread request' hold with ⟨result, hreturned⟩ | ⟨job, hjob, -⟩
      · exact .inl ⟨result, List.mem_append_left _ hreturned⟩
      · rw [hfree] at hjob
        contradiction
    · exact .inr ⟨_, Function.update_self _ _ _, rfl⟩

/-- A step of a call is a move of the stake of its thread. -/
theorem exists_move (h : w.Explained order stakes counted) (hjob : w.jobs thread = some job)
    {s : Traffic} (hstep : w.traffic.step unlimited thread = some s) :
    ∃ settled t call stake result, job.Took order settled ∧ s = w.traffic.advance thread t call ∧
      Stake.Move thread job.request w.traffic.table (stakes thread) t stake result ∧
      HasStake w.traffic.table.placeOf job.request job.stage call stake (result.or settled) ∧
      (result = none ∨ settled = none) := by
  obtain ⟨slots, holds, hledger⟩ := h.coherent.ledger
  obtain ⟨settled, hstake, htook⟩ := (h.busy thread job hjob).stake
  obtain ⟨t, call, stake, result, hmoved⟩ := hstake.exists_move h.coherent.sound
    (h.coherent.stands thread) (fun id mode => hledger.leaveEntry_ok) hstep
  exact ⟨settled, t, call, stake, result, htook, hmoved⟩

/-- A step of a call may settle the result of its request. -/
theorem advance (h : w.Explained order stakes counted) (hjob : w.jobs thread = some job)
    {s : Traffic} (hstep : w.traffic.step unlimited thread = some s) :
    ∃ order' stakes' counted', Explained { w with traffic := s } order' stakes' counted' := by
  have hthread := h.ne_zero hjob
  have hpursued := h.busy thread job hjob
  obtain ⟨settled, t, call, stake, result, htook, rfl, hmove, hstake, hfirst⟩ :=
    h.exists_move hjob hstep
  obtain ⟨counted', hcoherent⟩ := h.coherent.exists_move hthread rfl hmove
  have hplace : (w.traffic.advance thread t call).table.placeOf = w.traffic.table.placeOf :=
    funext (hmove.spares h.coherent.sound (h.coherent.stands thread)).placeOf_eq
  have hcall : (w.traffic.advance thread t call).calls thread = call := if_pos rfl
  have hanswer : ∀ r, result = some r → r = job.request.answer (replay order) := by
    rintro r rfl
    exact h.coherent.answer_of_move hthread rfl hmove
  -- The request is put last in the order just when its result is settled.
  rw [← job.replay_outcomes] at hcoherent
  refine ⟨_, _, counted', h.of_turn (.advance w thread t call) hthread hplace
    (fun other hother => Function.update_of_ne hother _ _) rfl ?_
    (hpursued.linearizes h.linearizes htook hfirst hanswer) hcoherent ?_ ?_ ?_⟩
  · intro outcome hmem
    cases result with
    | none => contradiction
    | some r => exact ⟨job, hjob, by rw [List.mem_singleton.mp hmem]⟩
  · intro job' hjob'
    obtain rfl := Option.some.inj (hjob.symm.trans hjob')
    dsimp only
    rw [hcall, hplace, Function.update_self]
    exact ⟨hpursued.called, hpursued.unreturned, _, hstake, htook.settle hfirst⟩
  · intro hnone
    rw [hjob] at hnone
    contradiction
  · exact fun name request hcalled => h.answered name thread request hcalled

/-- A thread that has got a handle or a value goes on with its request. -/
theorem resume (h : w.Explained order stakes counted) (hjob : w.jobs thread = some job)
    {stage : JobStage} {call : TableCall} {settled : Option (Except Error Bytes)}
    (hstake : HasStake w.traffic.table.placeOf job.request stage call (stakes thread) settled)
    (htook : job.Took order settled) :
    Explained (w.resume thread job stage call) order stakes counted := by
  have hpursued := h.busy thread job hjob
  have hcall : (w.resume thread job stage call).traffic.calls thread = call := if_pos rfl
  have hself : (w.resume thread job stage call).jobs thread = some { job with stage } :=
    Function.update_self _ _ _
  refine h.of_turn (.resume w thread job stage call) (h.ne_zero hjob) rfl (fun _ _ => rfl)
    (List.append_nil order).symm (fun _ hmem => absurd hmem List.not_mem_nil) h.linearizes
    h.coherent ?_ ?_ ?_
  · intro job' hjob'
    obtain rfl := Option.some.inj (hself.symm.trans hjob')
    rw [hcall]
    exact ⟨hpursued.called, hpursued.unreturned, settled, hstake, htook⟩
  · intro hnone
    rw [hself] at hnone
    contradiction
  · intro name request hcalled
    rcases h.answered name thread request hcalled with hreturned | ⟨job', hjob', rfl⟩
    · exact .inl hreturned
    · obtain rfl := Option.some.inj (hjob.symm.trans hjob')
      exact .inr ⟨_, hself, rfl⟩

/-- A request returns that has taken effect with this result. -/
theorem conclude (h : w.Explained order stakes counted) (hjob : w.jobs thread = some job)
    (hidle : stakes thread = .idle)
    (hfinished : ∃ result, w.traffic.calls thread = .finished result)
    (hmem : ⟨job.name, job.request, result⟩ ∈ order) :
    Explained (w.conclude thread job result) order stakes counted := by
  have hself : (w.conclude thread job result).jobs thread = none := Function.update_self _ _ _
  have hlast : .returned job.name result ∈ (w.conclude thread job result).history :=
    List.mem_append_right _ (List.mem_singleton_self _)
  have hlinearizes : Linearizes (w.conclude thread job result).history order := by
    refine h.linearizes.snoc_event _ fun name result' hnext => ?_
    injection hnext with hname hresult
    exact ⟨job.request, by rwa [← hname, ← hresult]⟩
  refine h.of_turn (.conclude hjob result) (h.ne_zero hjob) rfl (fun _ _ => rfl)
    (List.append_nil order).symm (fun _ hmem => absurd hmem List.not_mem_nil) hlinearizes
    h.coherent ?_
    (fun _ => ⟨hidle, hfinished⟩) ?_
  · intro job' hjob'
    rw [hself] at hjob'
    contradiction
  · intro name request hcalled
    have hold := (getElem?_snoc_cases hcalled).resolve_right fun hnew => by injection hnew.2
    rcases h.answered name thread request hold with ⟨result', hreturned⟩ | ⟨job', hjob', rfl⟩
    · exact .inl ⟨result', List.mem_append_left _ hreturned⟩
    · obtain rfl := Option.some.inj (hjob.symm.trans hjob')
      exact .inl ⟨result, hlast⟩

/-- A thread whose call has ended goes on with its request, which may return. -/
theorem proceed (h : w.Explained order stakes counted) (hjob : w.jobs thread = some job)
    {ended : TableResult} (hcall : w.traffic.calls thread = .finished ended)
    (hproceed : w.proceed thread job job.stage ended = some w') :
    w'.Explained order stakes counted := by
  obtain ⟨settled, hstake, htook⟩ := (h.busy thread job hjob).stake
  obtain ⟨name, request, stage⟩ := job
  rw [hcall] at hstake
  generalize hown : stakes thread = stake at hstake
  cases hstake with
  | missed =>
      obtain rfl := Option.some.inj hproceed
      exact h.conclude hjob hown ⟨_, hcall⟩ htook
  | held =>
      obtain rfl := Option.some.inj hproceed
      exact h.resume hjob (by rw [hown]; exact .measuring) htook
  | read =>
      obtain rfl := Option.some.inj hproceed
      exact h.resume hjob (by rw [hown]; exact .releasing) htook
  | released =>
      obtain rfl := Option.some.inj hproceed
      exact h.conclude hjob hown ⟨_, hcall⟩ htook

/-- Whatever a thread does, the history can be explained after it. -/
theorem exists_perform (h : w.Explained order stakes counted) {move : WorkloadMove}
    (hmove : w.perform move = some w') :
    ∃ order' stakes' counted', w'.Explained order' stakes' counted' := by
  cases move with
  | call thread request =>
      rw [perform] at hmove
      split at hmove
      next hguard =>
        obtain rfl := Option.some.inj hmove
        exact ⟨_, _, _, h.make hguard.1 (Option.isNone_iff_eq_none.mp hguard.2) request⟩
      · contradiction
  | step thread =>
      simp only [perform, Option.bind_eq_bind, Option.bind_eq_some_iff] at hmove
      obtain ⟨job, hjob, hmove⟩ := hmove
      split at hmove
      next ended hcall => exact ⟨_, _, _, h.proceed hjob hcall hmove⟩
      · obtain ⟨s, hstep, rfl⟩ := Option.map_eq_some_iff.mp hmove
        exact h.advance hjob hstep

theorem exists_run (h : w.Explained order stakes counted) {moves : List WorkloadMove}
    (hrun : w.run moves = some w') :
    ∃ order' stakes' counted', w'.Explained order' stakes' counted' := by
  induction moves generalizing w order stakes counted with
  | nil =>
      obtain rfl := Option.some.inj hrun
      exact ⟨_, _, _, h⟩
  | cons move moves ih =>
      rw [run, List.foldlM_cons] at hrun
      obtain ⟨between, hmove, hrest⟩ := Option.bind_eq_some_iff.mp hrun
      obtain ⟨_, _, _, hbetween⟩ := h.exists_perform hmove
      exact ih hbetween hrest

end Explained

/-! ## New tables -/

theorem coherent_of_new {memory : Allocator} {hash : Bytes → UInt64} {slotBits maxShards : Nat}
    {table : Table} (h : Table.new memory hash slotBits maxShards = .ok table) :
    Coherent table (fun _ => .idle) (fun _ => none) ∅ where
  ledger := ⟨_, _, Table.atRest_of_new h, fun _ => .nil (by simp [Stake.idle]),
    fun _ => .nil (by simp [Stake.idle]), rfl⟩
  sound := Table.sound_of_new h
  stands _ := rfl
  shows key _ := congrFun (Table.lookup_of_new h) key
  counts :=
    { size := (Table.tallies_of_new h).size
      pending := by simp [Stake.idle, Role.pending]
      settled := fun key _ => ((Table.tallies_of_new h).isSome_iff key).symm }

theorem explained_opened {memory : Allocator} {hash : Bytes → UInt64} {slotBits maxShards : Nat}
    {table : Table} (h : Table.new memory hash slotBits maxShards = .ok table) :
    (opened table).Explained [] (fun _ => .idle) ∅ where
  linearizes := ⟨List.nodup_nil, by simp, by simp [opened], .nil, .nil⟩
  coherent := coherent_of_new h
  busy _ _ hjob := by contradiction
  idle _ _ := ⟨rfl, _, rfl⟩
  zero := rfl
  answered _ _ _ hcalled := by simp [opened] at hcalled

end Workload

end KeyValueServer
