import KeyValueServer.Proofs.Sync.LockWord
import KeyValueServer.Sync.Contention

/-!
# What a step of a contending thread does

Each step of a thread in a call on a lock has one of a few effects. Most of them move the thread
within its call and touch nothing else. The word changes in three: a hold is taken, waiters are
announced, a hold is given up; each of these needs that the word is still the one the thread has
read. The last effect on others is the wake-up, which sends every parked thread back to the start.
-/

namespace KeyValueServer

namespace LockCall

/-- The hold that the call is about to give up. -/
def givesUp : LockCall → Option LockMode
  | releasing mode => some mode
  | replacing mode _ => some mode
  | _ => none

/-- Whether the call gives up a hold and has not returned. -/
def isRelease : LockCall → Bool
  | releasing _ => true
  | replacing _ _ => true
  | waking => true
  | _ => false

/-- Whether the thread is parked in the kernel. -/
def isParked : LockCall → Bool
  | parked _ => true
  | _ => false

/-- Whether the word was replaced as the call asked. -/
def hasSucceeded : LockCall → Bool
  | finished (.ok ()) => true
  | recording => true
  | waking => true
  | _ => false

@[simp] theorem isParked_awaken (call : LockCall) : call.awaken.isParked = false := by
  cases call <;> rfl

@[simp] theorem givesUp_awaken (call : LockCall) : call.awaken.givesUp = call.givesUp := by
  cases call <;> rfl

theorem awaken_eq_replacing_iff {call : LockCall} {mode : LockMode} {seen : LockWord} :
    call.awaken = .replacing mode seen ↔ call = .replacing mode seen := by
  cases call <;> simp [awaken]

theorem awaken_eq_parking_iff {call : LockCall} {request : HoldRequest} {expected : LockWord} :
    call.awaken = .parking request expected ↔ call = .parking request expected := by
  cases call <;> simp [awaken]

end LockCall

namespace Contention

@[simp] theorem setCall_lock (s : Contention) (thread : ThreadId) (call : LockCall) :
    (s.setCall thread call).lock = s.lock := rfl

@[simp] theorem setCall_calls_self (s : Contention) (thread : ThreadId) (call : LockCall) :
    (s.setCall thread call).calls thread = call := by
  simp [setCall]

theorem setCall_calls_of_ne (s : Contention) {thread other : ThreadId} (call : LockCall)
    (h : other ≠ thread) : (s.setCall thread call).calls other = s.calls other := by
  simp [setCall, h]

@[simp] theorem setWord_word (s : Contention) (word : LockWord) :
    (s.setWord word).lock.word = word := rfl

@[simp] theorem setWord_calls (s : Contention) (word : LockWord) :
    (s.setWord word).calls = s.calls := rfl

@[simp] theorem wakeAll_lock (s : Contention) : s.wakeAll.lock = s.lock := rfl

@[simp] theorem wakeAll_calls (s : Contention) (thread : ThreadId) :
    s.wakeAll.calls thread = (s.calls thread).awaken := rfl

/-- What one step of a thread can do, by the place in its call at which the thread is. -/
inductive Effect (s : Contention) (thread : ThreadId) : LockCall → Contention → Prop
  -- no call under way, or parked
  | rest {call : LockCall} (h : call.isRunnable = false) : Effect s thread call s
  -- only the place in the call changes
  | load (request : HoldRequest) :
      Effect s thread (.loading request) (s.setCall thread (.deciding request s.lock.word))
  | retry (request : HoldRequest) (seen : LockWord) (budget : Nat) :
      Effect s thread (.deciding request seen)
        (s.setCall thread (.loading { request with budget }))
  | refuse {request : HoldRequest} {seen : LockWord}
      (h : seen.acquire? request.mode thread = none) (hwaits : request.waits = false) :
      Effect s thread (.deciding request seen) (s.setCall thread (.finished (.error .busy)))
  | await {request : HoldRequest} {seen : LockWord} (h : seen.waiters = true) :
      Effect s thread (.deciding request seen) (s.setCall thread (.parking request seen))
  | park {request : HoldRequest} {expected : LockWord} (h : s.lock.word = expected) :
      Effect s thread (.parking request expected) (s.setCall thread (.parked request))
  | turnBack (request : HoldRequest) (expected : LockWord) :
      Effect s thread (.parking request expected) (s.setCall thread (.loading request))
  | comeBack (request : HoldRequest) :
      Effect s thread (.parked request) (s.setCall thread (.loading request))
  | reload (mode : LockMode) :
      Effect s thread (.releasing mode) (s.setCall thread (.replacing mode s.lock.word))
  | restart (mode : LockMode) (seen : LockWord) :
      Effect s thread (.replacing mode seen) (s.setCall thread (.releasing mode))
  | fail {mode : LockMode} {seen : LockWord} {fault : StateFault}
      (h : seen.release mode thread = .error fault) :
      Effect s thread (.replacing mode seen)
        (s.setCall thread (.finished (.error (.invalidState fault))))
  -- the word changes
  | acquire {request : HoldRequest} {next : LockWord}
      (h : s.lock.word.acquire? request.mode thread = some next) :
      Effect s thread (.deciding request s.lock.word)
        ((s.setWord next).setCall thread
          (if request.mode = .exclusive then .recording else .finished (.ok ())))
  | announce {request : HoldRequest} (h : s.lock.word.acquire? request.mode thread = none) :
      Effect s thread (.deciding request s.lock.word)
        ((s.setWord s.lock.word.announce).setCall thread (.parking request s.lock.word.announce))
  | giveUp {mode : LockMode} {next : LockWord} (h : s.lock.word.release mode thread = .ok next) :
      Effect s thread (.replacing mode s.lock.word)
        ((s.setWord next).setCall thread
          (if s.lock.word.waiters ∧ next = .free then .waking else .finished (.ok ())))
  -- after the word has changed
  | record :
      Effect s thread .recording
        ({ s with lock := { s.lock with owner := thread } }.setCall thread (.finished (.ok ())))
  | wake : Effect s thread .waking (s.wakeAll.setCall thread (.finished (.ok ())))

theorem attempt_effect (s : Contention) (thread : ThreadId) (glitch : Bool)
    (request : HoldRequest) (seen : LockWord) :
    s.Effect thread (.deciding request seen) (s.attempt thread glitch request seen) := by
  unfold attempt
  split
  next next hacquire =>
    split
    next hgoes => obtain ⟨rfl, -⟩ := hgoes; exact .acquire hacquire
    · exact .retry request seen request.budget
  next hrefused =>
    split
    next hwaits => exact .refuse hrefused (by simpa using hwaits)
    · split
      · exact .retry request seen (request.budget * 4)
      · split
        next hmarked => exact .await hmarked
        · split
          next hgoes => subst hgoes; exact .announce hrefused
          · exact .retry request seen request.budget

theorem giveUp_effect (s : Contention) (thread : ThreadId) (glitch : Bool) (mode : LockMode)
    (seen : LockWord) :
    s.Effect thread (.replacing mode seen) (s.giveUp thread glitch mode seen) := by
  unfold giveUp
  split
  next fault hfault => exact .fail hfault
  next next hrelease =>
    split
    next hgoes => obtain ⟨rfl, -⟩ := hgoes; exact .giveUp hrelease
    · exact .restart mode seen

/-- Every step of a thread has one of the effects. -/
theorem step_effect (s : Contention) (thread : ThreadId) (glitch : Bool) :
    s.Effect thread (s.calls thread) (s.step thread glitch) := by
  unfold step
  cases hcall : s.calls thread with
  | finished result => exact .rest rfl
  | loading request => exact .load request
  | deciding request seen => exact s.attempt_effect thread glitch request seen
  | parking request expected =>
      dsimp only
      split
      next hsame => exact .park hsame
      · exact .turnBack request expected
  | parked request =>
      dsimp only
      split
      · exact .comeBack request
      · exact .rest rfl
  | recording => exact .record
  | releasing mode => exact .reload mode
  | replacing mode seen => exact s.giveUp_effect thread glitch mode seen
  | waking => exact .wake

/-- A step of one thread leaves every other where it is or wakes it. -/
theorem step_calls_of_ne (s : Contention) {thread other : ThreadId} (glitch : Bool)
    (h : other ≠ thread) : (s.step thread glitch).calls other = s.calls other ∨
      (s.step thread glitch).calls other = (s.calls other).awaken := by
  have heffect := s.step_effect thread glitch
  generalize s.step thread glitch = next at heffect ⊢
  generalize s.calls thread = call at heffect
  cases heffect with
  | rest => exact .inl rfl
  | wake => exact .inr (setCall_calls_of_ne _ _ h)
  | _ => exact .inl (setCall_calls_of_ne _ _ h)

end Contention

end KeyValueServer
