import KeyValueServer.Sync.Lock

/-!
# Threads contending for a lock

The atomic steps of the calls that threads make on one lock. Reading the word and replacing it
are separate steps, and other threads may come between them: a replacement goes through only
if the word is still the one read. A thread that may not have the lock spins for a while, with
a budget that grows after each round, then marks the word and parks on it. The thread that
gives up the last hold wakes all parked threads; each of them starts over.
-/

namespace KeyValueServer

/-- The spin budget of a call that begins. -/
def spinStart : Nat := 16

/-- The spin budget from which on a thread parks. -/
def spinLimit : Nat := 2048

/-- A call for a hold. One that does not wait is refused where it would have to. -/
structure HoldRequest where
  mode : LockMode
  waits : Bool
  budget : Nat
deriving DecidableEq

/-- How far a thread has come with its call on a lock. -/
inductive LockCall where
  | finished (result : Except Error Unit)
  | loading (request : HoldRequest)
  | deciding (request : HoldRequest) (seen : LockWord)
  | parking (request : HoldRequest) (expected : LockWord)
  | parked (request : HoldRequest)
  | recording
  | releasing (mode : LockMode)
  | replacing (mode : LockMode) (seen : LockWord)
  | waking

namespace LockCall

/-- A call for a hold that begins. -/
def acquire (mode : LockMode) (waits : Bool) : LockCall := loading ⟨mode, waits, spinStart⟩

/-- Whether the thread can take a step of its own. -/
def isRunnable : LockCall → Bool
  | finished _ => false
  | parked _ => false
  | _ => true

/-- A parked thread starts over when it is woken; to any other a wake-up makes no difference. -/
def awaken : LockCall → LockCall
  | parked request => loading request
  | call => call

end LockCall

/-- A lock and the calls of all threads on it. -/
structure Contention where
  lock : Lock
  calls : ThreadId → LockCall

namespace Contention

/-- A lock on which no thread has made a call yet. -/
def fresh : Contention := ⟨.free, fun _ => .finished (.ok ())⟩

/-- Put a thread at a place in a call. -/
def setCall (s : Contention) (thread : ThreadId) (call : LockCall) : Contention :=
  { s with calls := fun t => if t = thread then call else s.calls t }

/-- Replace the word of the lock. -/
def setWord (s : Contention) (word : LockWord) : Contention :=
  { s with lock := { s.lock with word } }

/-- Wake every parked thread. -/
def wakeAll (s : Contention) : Contention :=
  { s with calls := fun t => (s.calls t).awaken }

/-- The step of a thread that has read the word and decides about its hold. -/
def attempt (s : Contention) (thread : ThreadId) (glitch : Bool) (request : HoldRequest)
    (seen : LockWord) : Contention :=
  match seen.acquire? request.mode thread with
  | some next =>
      if s.lock.word = seen ∧ !glitch then
        (s.setWord next).setCall thread
          (if request.mode = .exclusive then .recording else .finished (.ok ()))
      else s.setCall thread (.loading request)
  | none =>
      if !request.waits then s.setCall thread (.finished (.error .busy))
      else if request.budget < spinLimit then
        s.setCall thread (.loading { request with budget := request.budget * 4 })
      else if seen.waiters then s.setCall thread (.parking request seen)
      else if s.lock.word = seen then
        (s.setWord seen.announce).setCall thread (.parking request seen.announce)
      else s.setCall thread (.loading request)

/-- The step of a thread that has read the word and gives up its hold. -/
def giveUp (s : Contention) (thread : ThreadId) (glitch : Bool) (mode : LockMode)
    (seen : LockWord) : Contention :=
  match seen.release mode thread with
  | .error fault => s.setCall thread (.finished (.error (.invalidState fault)))
  | .ok next =>
      if s.lock.word = seen ∧ !glitch then
        (s.setWord next).setCall thread
          (if seen.waiters ∧ next = .free then .waking else .finished (.ok ()))
      else s.setCall thread (.releasing mode)

/-- The next atomic step of a thread. With a glitch, a compare-exchange fails although the
word has not changed, and a parked thread returns although it was not woken. -/
def step (s : Contention) (thread : ThreadId) (glitch : Bool) : Contention :=
  match s.calls thread with
  | .finished _ => s
  | .loading request => s.setCall thread (.deciding request s.lock.word)
  | .deciding request seen => s.attempt thread glitch request seen
  | .parking request expected =>
      if s.lock.word = expected then s.setCall thread (.parked request)
      else s.setCall thread (.loading request)
  | .parked request => if glitch then s.setCall thread (.loading request) else s
  | .recording =>
      { s with lock := { s.lock with owner := thread } }.setCall thread (.finished (.ok ()))
  | .releasing mode => s.setCall thread (.replacing mode s.lock.word)
  | .replacing mode seen => s.giveUp thread glitch mode seen
  | .waking => s.wakeAll.setCall thread (.finished (.ok ()))

/-- Take up to `steps` steps without glitches, always of the first of these threads that can
take one. -/
def settle : (steps : Nat) → List ThreadId → Contention → Contention
  | 0, _, s => s
  | steps + 1, threads, s =>
      match threads.find? fun t => (s.calls t).isRunnable with
      | none => s
      | some thread => settle steps threads (s.step thread false)

end Contention

end KeyValueServer
