import KeyValueServer.Sync.LockWord

/-!
# Locks

A lock is its word and the name of the last thread that held it exclusively. The calls here
are whole: they go through at once or leave the lock as it was. What threads do between the
single steps of a call that has to wait is in `KeyValueServer.Sync.Contention`.
-/

namespace KeyValueServer

/-- A lock that is held by any number of threads in shared mode or by one in exclusive mode. -/
structure Lock where
  word : LockWord
  owner : ThreadId
deriving DecidableEq

namespace Lock

/-- A lock that was never held. -/
def free : Lock := ⟨.free, 0⟩

/-- Take a hold if that is possible right now. -/
def acquire? (lock : Lock) (mode : LockMode) (thread : ThreadId) : Option Lock :=
  (lock.word.acquire? mode thread).map fun word =>
    ⟨word, if mode = .exclusive then thread else lock.owner⟩

/-- Take a hold if that is possible right now, or report that it is not. -/
def tryAcquire (lock : Lock) (mode : LockMode) (thread : ThreadId) : Except Error Lock :=
  match lock.acquire? mode thread with
  | some lock => .ok lock
  | none => .error .busy

/-- Give up a hold. -/
def release (lock : Lock) (mode : LockMode) (thread : ThreadId) : Except Error Lock :=
  match lock.word.release mode thread with
  | .ok word => .ok { lock with word }
  | .error fault => .error (.invalidState fault)

/-- The line that describes a lock in traces. -/
def describe (lock : Lock) : String :=
  "owner (or last) = " ++ toString lock.owner.val ++ " : val = " ++ toString lock.word.field.val
    ++ " : " ++ (if lock.word.waiters then "[waiting]" else "")
    ++ (if lock.word.shared then "[shared]" else "")
    ++ (if lock.word.exclusive then "[excl]" else "")

end Lock

end KeyValueServer
