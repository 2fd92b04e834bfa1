import KeyValueServer.Proofs.Sync.Undisturbed

/-!
# Calls that do not wait

Threads may ask for a hold that is not to be had, and they may give up what they do not hold. Which
of these calls a word grants depends on the holds that it shows alone, and never on a number in its
field that happens to be that of a thread. A call that is refused changes nothing.
-/

namespace KeyValueServer

/-- A call on a lock that does not wait: for a hold if it is to be had right now, or to give one up.
-/
inductive Demand where
  | tryAcquire (mode : LockMode)
  | release (mode : LockMode)

namespace Demand

/-- Where a thread begins the call. -/
def call : Demand → LockCall
  | tryAcquire mode => .acquire mode false
  | release mode => .releasing mode

/-- The move by which a thread begins the call. -/
def opening (thread : ThreadId) : Demand → LockMove
  | tryAcquire mode => .acquire thread mode false
  | release mode => .release thread mode

/-- Whether the call of a thread is to be granted, by the holds on the lock. -/
def IsDue (d : Demand) (thread : ThreadId) (holds : List Hold) : Prop :=
  match d with
  | tryAcquire .shared => ¬∃ h ∈ holds, h.mode = .exclusive
  | tryAcquire .exclusive => holds = []
  | release .shared => ∃ h ∈ holds, h.mode = .shared
  | release .exclusive => ⟨thread, .exclusive⟩ ∈ holds

/-- Why the call is refused where it is not to be granted. -/
def refusal (thread : ThreadId) (word : Nat) : Demand → Error
  | tryAcquire _ => .busy
  | release .shared => .invalidState (.sharedRelease word)
  | release .exclusive => .invalidState (.exclusiveRelease word thread.val)

/-- The word after the call. -/
def onWord (d : Demand) (w : LockWord) (thread : ThreadId) : Except Error LockWord :=
  match d with
  | tryAcquire mode => (w.acquire? mode thread).elim (.error .busy) .ok
  | release mode => (w.release mode thread).mapError .invalidState

/-- The lock after the whole call. -/
def onLock (d : Demand) (lock : Lock) (thread : ThreadId) : Except Error Lock :=
  match d with
  | tryAcquire mode => lock.tryAcquire mode thread
  | release mode => lock.release mode thread

end Demand

/-! ## What a word grants -/

namespace LockWord

variable {w : LockWord} {holds : List Hold} {thread : ThreadId}

namespace Shows

theorem acquire?_shared (h : w.Shows holds) :
    w.acquire? .shared thread = none ↔ ∃ h ∈ holds, h.mode = .exclusive := by
  cases h with
  | free => simp [acquire?]
  | exclusive => simp [acquire?]
  | shared _ _ hshared =>
      simp only [acquire?, Bool.false_eq_true, if_false, reduceCtorEq, false_iff]
      rintro ⟨h, hmem, hmode⟩
      rw [hshared h hmem] at hmode
      contradiction

theorem acquire?_exclusive (h : w.Shows holds) :
    w.acquire? .exclusive thread = none ↔ holds ≠ [] := by
  cases h with
  | free => simp [acquire?]
  | exclusive => simp [acquire?]
  | shared _ hne => simp [acquire?, hne]

/-- In a word with an exclusive hold the field is a name and no count. -/
theorem release_shared (h : w.Shows holds) :
    (∃ next, w.release .shared thread = .ok next) ↔ ∃ h ∈ holds, h.mode = .shared := by
  constructor
  · rintro ⟨next, hnext⟩
    cases h with
    | free => simp [LockWord.release] at hnext
    | exclusive => simp [LockWord.release] at hnext
    | shared _ hne hshared =>
        obtain ⟨h, hmem⟩ := List.exists_mem_of_ne_nil _ hne
        exact ⟨h, hmem, hshared h hmem⟩
  · rintro ⟨⟨owner, _⟩, hmem, rfl⟩
    obtain ⟨next, hnext⟩ := h.exists_release hmem
    exact ⟨next, hnext⟩

/-- In a word with shared holds the field is a count and no name. -/
theorem release_exclusive (h : w.Shows holds) :
    (∃ next, w.release .exclusive thread = .ok next) ↔ ⟨thread, .exclusive⟩ ∈ holds := by
  refine ⟨?_, h.exists_release⟩
  rintro ⟨next, hnext⟩
  cases h with
  | free => simp [LockWord.release] at hnext
  | exclusive _ owner =>
      by_cases howner : owner = thread
      · simp [howner]
      · simp [LockWord.release, howner] at hnext
  | shared => simp [LockWord.release] at hnext

end Shows

theorem eq_refusal_of_release {mode : LockMode} {fault : StateFault}
    (h : w.release mode thread = .error fault) :
    .invalidState fault = (Demand.release mode).refusal thread w.toNat := by
  cases mode with
  | shared =>
      simp only [release] at h
      split_ifs at h
      exact congrArg Error.invalidState (Except.error.inj h).symm
  | exclusive =>
      simp only [release] at h
      split_ifs at h
      exact congrArg Error.invalidState (Except.error.inj h).symm

/-- A word grants a call exactly if the holds that it shows do. -/
theorem Shows.demand (h : w.Shows holds) (d : Demand) (thread : ThreadId) :
    (d.IsDue thread holds ∧ ∃ next, d.onWord w thread = .ok next) ∨
      (¬d.IsDue thread holds ∧ d.onWord w thread = .error (d.refusal thread w.toNat)) := by
  cases d with
  | tryAcquire mode =>
      have hnone : w.acquire? mode thread = none ↔
          ¬(Demand.tryAcquire mode).IsDue thread holds := by
        cases mode with
        | shared => rw [h.acquire?_shared, Demand.IsDue, not_not]
        | exclusive => rw [h.acquire?_exclusive, Demand.IsDue]
      rw [Demand.onWord, Demand.refusal]
      cases hword : w.acquire? mode thread with
      | none => exact .inr ⟨hnone.mp hword, rfl⟩
      | some next =>
          refine .inl ⟨not_not.mp fun hnot => ?_, next, rfl⟩
          rw [hnone.mpr hnot] at hword
          contradiction
  | release mode =>
      have hok : (∃ next, w.release mode thread = .ok next) ↔
          (Demand.release mode).IsDue thread holds := by
        cases mode with
        | shared => exact h.release_shared
        | exclusive => exact h.release_exclusive
      rw [Demand.onWord]
      cases hword : w.release mode thread with
      | ok next => exact .inl ⟨hok.mp ⟨next, hword⟩, next, rfl⟩
      | error fault =>
          refine .inr ⟨fun hdue => ?_, congrArg Except.error (eq_refusal_of_release hword)⟩
          obtain ⟨next, hnext⟩ := hok.mpr hdue
          rw [hword] at hnext
          contradiction

end LockWord

namespace Demand

variable {d : Demand} {lock : Lock} {w next : LockWord} {thread : ThreadId} {mode : LockMode}
  {e : Error}

theorem onWord_tryAcquire_eq_ok :
    (tryAcquire mode).onWord w thread = .ok next ↔ w.acquire? mode thread = some next := by
  rw [onWord]
  cases w.acquire? mode thread <;> simp

theorem onWord_tryAcquire_eq_error :
    (tryAcquire mode).onWord w thread = .error e ↔
      w.acquire? mode thread = none ∧ e = .busy := by
  rw [onWord]
  cases w.acquire? mode thread <;> simp [eq_comm]

theorem onWord_release_eq_ok :
    (release mode).onWord w thread = .ok next ↔ w.release mode thread = .ok next := by
  rw [onWord]
  cases w.release mode thread <;> simp [Except.mapError]

theorem onWord_release_eq_error :
    (release mode).onWord w thread = .error e ↔
      ∃ fault, w.release mode thread = .error fault ∧ e = .invalidState fault := by
  rw [onWord]
  cases w.release mode thread <;> simp [Except.mapError, eq_comm]

/-- Whether a call is granted depends on the word alone. -/
theorem map_onLock (d : Demand) (lock : Lock) (thread : ThreadId) :
    (d.onLock lock thread).map Lock.word = d.onWord lock.word thread := by
  cases d with
  | tryAcquire mode =>
      rw [onLock, onWord, Lock.tryAcquire, Lock.acquire?]
      cases lock.word.acquire? mode thread <;> rfl
  | release mode =>
      rw [onLock, onWord, Lock.release]
      cases lock.word.release mode thread <;> rfl

theorem exists_onLock_iff :
    (∃ next, d.onLock lock thread = .ok next) ↔ ∃ next, d.onWord lock.word thread = .ok next := by
  rw [← map_onLock]
  cases d.onLock lock thread <;> simp [Except.map]

theorem onLock_eq_error_iff :
    d.onLock lock thread = .error e ↔ d.onWord lock.word thread = .error e := by
  rw [← map_onLock]
  cases d.onLock lock thread <;> simp [Except.map]

/-- A call that nobody disturbs does what the whole call does. -/
theorem alone_of_ok {s : Contention} (h : d.onLock s.lock thread = .ok lock) :
    (s.alone thread d.call).calls thread = .finished (.ok ()) ∧
      (s.alone thread d.call).lock = lock := by
  cases d with
  | tryAcquire mode =>
      rw [onLock, Lock.tryAcquire] at h
      split at h
      next hlock =>
        obtain rfl := Except.ok.inj h
        rw [call, Contention.alone_acquire hlock]
        exact ⟨Contention.setCall_calls_self _ _ _, rfl⟩
      · contradiction
  | release mode =>
      rw [call, Contention.alone_releasing h]
      refine ⟨Contention.setCall_calls_self _ _ _, ?_⟩
      rw [Contention.setCall_lock]
      split_ifs <;> rfl

theorem alone_of_error {s : Contention} (h : d.onLock s.lock thread = .error e) :
    s.alone thread d.call = s.setCall thread (.finished (.error e)) := by
  cases d with
  | tryAcquire mode =>
      rw [onLock, Lock.tryAcquire] at h
      split at h
      · contradiction
      next hnone =>
        obtain rfl := Except.error.inj h
        exact Contention.alone_acquire_of_none hnone
  | release mode => exact Contention.alone_releasing_of_error h

end Demand

end KeyValueServer
