import KeyValueServer.Proofs.Sync.Exclusion

/-!
# Calls that nobody disturbs

A thread that takes all steps of its call before another takes one does what the whole call does. A
hold that is to be had is taken at once, also by a thread that would wait for it. A call that is
refused leaves everything else as it was.
-/

namespace KeyValueServer

namespace Contention

variable {s : Contention} {thread other : ThreadId} {mode : LockMode} {request : HoldRequest}
  {seen next : LockWord} {lock : Lock}

/-- A thread makes a call, and takes all of its steps before any other thread takes one. -/
def alone (s : Contention) (thread : ThreadId) (call : LockCall) : Contention :=
  (s.setCall thread call).settle 3 [thread]

@[simp] theorem setCall_setCall (s : Contention) (thread : ThreadId) (first second : LockCall) :
    (s.setCall thread first).setCall thread second = s.setCall thread second := by
  simp only [setCall, mk.injEq, true_and]
  funext t
  split_ifs <;> rfl

theorem setCall_comm (s : Contention) (hne : other ≠ thread) (first second : LockCall) :
    (s.setCall thread first).setCall other second =
      (s.setCall other second).setCall thread first := by
  simp only [setCall, mk.injEq, true_and]
  funext t
  by_cases hother : t = other
  · subst hother
    simp [hne]
  · simp [hother]

@[simp] theorem setWord_setCall (s : Contention) (thread : ThreadId) (call : LockCall)
    (word : LockWord) :
    (s.setCall thread call).setWord word = (s.setWord word).setCall thread call := rfl

/-- A wake-up makes no difference to a thread that is not parked. -/
theorem wakeAll_setCall (s : Contention) (thread : ThreadId) {call : LockCall}
    (hcall : call.awaken = call) :
    (s.setCall thread call).wakeAll = s.wakeAll.setCall thread call := by
  simp only [wakeAll, setCall, mk.injEq, true_and]
  funext t
  split_ifs
  · exact hcall
  · rfl

/-! ## The steps of a call -/

theorem step_loading (s : Contention) (thread : ThreadId) (glitch : Bool) (request : HoldRequest) :
    (s.setCall thread (.loading request)).step thread glitch =
      s.setCall thread (.deciding request s.lock.word) := by
  simp [step]

theorem step_deciding (s : Contention) (thread : ThreadId) (glitch : Bool) (request : HoldRequest)
    (seen : LockWord) : (s.setCall thread (.deciding request seen)).step thread glitch =
      (s.setCall thread (.deciding request seen)).attempt thread glitch request seen := by
  simp [step]

theorem step_releasing (s : Contention) (thread : ThreadId) (glitch : Bool) (mode : LockMode) :
    (s.setCall thread (.releasing mode)).step thread glitch =
      s.setCall thread (.replacing mode s.lock.word) := by
  simp [step]

theorem step_replacing (s : Contention) (thread : ThreadId) (glitch : Bool) (mode : LockMode)
    (seen : LockWord) : (s.setCall thread (.replacing mode seen)).step thread glitch =
      (s.setCall thread (.replacing mode seen)).giveUp thread glitch mode seen := by
  simp [step]

theorem step_recording (s : Contention) (thread : ThreadId) (glitch : Bool) :
    (s.setCall thread .recording).step thread glitch =
      { s with lock := { s.lock with owner := thread } }.setCall thread (.finished (.ok ())) := by
  simp only [step, setCall_calls_self]
  exact setCall_setCall { s with lock := { s.lock with owner := thread } } _ _ _

theorem step_waking (s : Contention) (thread : ThreadId) (glitch : Bool) :
    (s.setCall thread .waking).step thread glitch =
      s.wakeAll.setCall thread (.finished (.ok ())) := by
  simp [step, @wakeAll_setCall s thread .waking rfl]

theorem attempt_of_some (h : seen.acquire? request.mode thread = some next)
    (hsame : s.lock.word = seen) (before : LockCall) :
    (s.setCall thread before).attempt thread false request seen =
      (s.setWord next).setCall thread
        (if request.mode = .exclusive then .recording else .finished (.ok ())) := by
  simp [attempt, h, hsame]

theorem attempt_of_none (h : seen.acquire? request.mode thread = none)
    (hwaits : request.waits = false) (before : LockCall) (glitch : Bool) :
    (s.setCall thread before).attempt thread glitch request seen =
      s.setCall thread (.finished (.error .busy)) := by
  simp [attempt, h, hwaits]

theorem giveUp_of_ok (h : seen.release mode thread = .ok next) (hsame : s.lock.word = seen)
    (before : LockCall) : (s.setCall thread before).giveUp thread false mode seen =
      (s.setWord next).setCall thread
        (if seen.waiters ∧ next = .free then .waking else .finished (.ok ())) := by
  simp [giveUp, h, hsame]

theorem giveUp_of_error {fault : StateFault} (h : seen.release mode thread = .error fault)
    (before : LockCall) (glitch : Bool) :
    (s.setCall thread before).giveUp thread glitch mode seen =
      s.setCall thread (.finished (.error (.invalidState fault))) := by
  simp [giveUp, h]

/-! ## The steps of others -/

theorem setCall_ite {c : Prop} [Decidable c] (s s' : Contention) (thread : ThreadId)
    (call : LockCall) : (if c then s else s').setCall thread call =
      if c then s.setCall thread call else s'.setCall thread call :=
  apply_ite (setCall · thread call) c s s'

/-- A step of another thread does the same wherever a thread that is not parked is in its call. -/
theorem step_setCall_of_ne (s : Contention) (hne : other ≠ thread) {call : LockCall}
    (hcall : call.awaken = call) (glitch : Bool) :
    (s.setCall thread call).step other glitch = (s.step other glitch).setCall thread call := by
  unfold step
  rw [setCall_calls_of_ne _ _ hne]
  cases s.calls other with
  | finished result => rfl
  | loading request => exact setCall_comm s hne _ _
  | deciding request seen =>
      simp only [attempt]
      split <;>
      · simp only [setWord_setCall, setCall_comm _ hne, setCall_ite]
        rfl
  | parking request expected =>
      simp only [setCall_comm _ hne, setCall_ite]
      rfl
  | parked request =>
      simp only [setCall_comm _ hne, setCall_ite]
  | recording => exact setCall_comm { s with lock := { s.lock with owner := other } } hne _ _
  | releasing mode => exact setCall_comm s hne _ _
  | replacing mode seen =>
      simp only [giveUp]
      split
      · exact setCall_comm s hne _ _
      · simp only [setWord_setCall, setCall_comm _ hne, setCall_ite]
        rfl
  | waking =>
      simp only [wakeAll_setCall s thread hcall]
      exact setCall_comm s.wakeAll hne _ _

/-! ## Whole calls -/

theorem settle_succ_setCall {call : LockCall} (hcall : call.isRunnable = true) (n : Nat) :
    (s.setCall thread call).settle (n + 1) [thread] =
      ((s.setCall thread call).step thread false).settle n [thread] :=
  Roster.settle_succ _ _ _ (by rwa [setCall_calls_self])

theorem settle_setCall_finished (s : Contention) (thread : ThreadId) (result : Except Error Unit)
    (n : Nat) : (s.setCall thread (.finished result)).settle n [thread] =
      s.setCall thread (.finished result) :=
  Roster.settle_of_finished (setCall_calls_self _ _ _) n

/-- A hold that is to be had right now is taken, whether the thread would wait for it or not. -/
theorem alone_acquire (h : s.lock.acquire? mode thread = some lock) (waits : Bool) :
    s.alone thread (.acquire mode waits) = { s with lock }.setCall thread (.finished (.ok ())) := by
  obtain ⟨word, hword, rfl⟩ := Option.map_eq_some_iff.mp h
  rw [alone, LockCall.acquire, settle_succ_setCall rfl, step_loading, settle_succ_setCall rfl,
    step_deciding, attempt_of_some hword rfl]
  cases mode with
  | shared => exact settle_setCall_finished _ _ _ _
  | exclusive =>
      rw [if_pos rfl, settle_succ_setCall rfl, step_recording, settle_setCall_finished]
      rfl

/-- A thread that does not wait for its hold is refused at once. -/
theorem alone_acquire_of_none (h : s.lock.acquire? mode thread = none) :
    s.alone thread (.acquire mode false) = s.setCall thread (.finished (.error .busy)) := by
  rw [Lock.acquire?, Option.map_eq_none_iff] at h
  rw [alone, LockCall.acquire, settle_succ_setCall rfl, step_loading, settle_succ_setCall rfl,
    step_deciding, attempt_of_none h rfl, settle_setCall_finished]

/-- The last hold that is given up wakes the threads that are parked. -/
theorem alone_releasing (h : s.lock.release mode thread = .ok lock) :
    s.alone thread (.releasing mode) =
      (if s.lock.word.waiters ∧ lock.word = LockWord.free then { s with lock }.wakeAll
        else { s with lock }).setCall thread (.finished (.ok ())) := by
  unfold Lock.release at h
  split at h
  next word hword =>
    obtain rfl := Except.ok.inj h
    rw [alone, settle_succ_setCall rfl, step_releasing, settle_succ_setCall rfl, step_replacing,
      giveUp_of_ok hword rfl]
    by_cases hwakes : s.lock.word.waiters = true ∧ word = LockWord.free
    · rw [if_pos hwakes, if_pos hwakes, settle_succ_setCall rfl, step_waking,
        settle_setCall_finished]
      rfl
    · rw [if_neg hwakes, if_neg hwakes, settle_setCall_finished]
      rfl
  · contradiction

theorem alone_releasing_of_error {e : Error} (h : s.lock.release mode thread = .error e) :
    s.alone thread (.releasing mode) = s.setCall thread (.finished (.error e)) := by
  unfold Lock.release at h
  split at h
  · contradiction
  next fault hfault =>
    obtain rfl := Except.error.inj h
    rw [alone, settle_succ_setCall rfl, step_releasing, settle_succ_setCall rfl, step_replacing,
      giveUp_of_error hfault, settle_setCall_finished]

end Contention

end KeyValueServer
