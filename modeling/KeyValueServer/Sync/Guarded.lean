import KeyValueServer.Sync.Lock

/-!
# Guarded data

A value that is reached only through guards on its lock: any number of read guards, or one
write guard.
-/

namespace KeyValueServer

/-- A value and the lock that protects it. -/
structure Guarded (α : Type) where
  lock : Lock
  value : α

namespace Guarded

variable {α : Type}

/-- A value that nobody has a guard on. -/
def new (value : α) : Guarded α := ⟨.free, value⟩

/-- Take a guard: for reading in shared mode, for writing in exclusive mode. There is no result
where the thread would have to wait. -/
def enter? (g : Guarded α) (mode : LockMode) (thread : ThreadId) : Option (Guarded α) :=
  (g.lock.acquire? mode thread).map fun lock => { g with lock }

/-- Take a guard if that is possible right now, or report that it is not. -/
def tryEnter (g : Guarded α) (mode : LockMode) (thread : ThreadId) : Except Error (Guarded α) :=
  (g.lock.tryAcquire mode thread).map fun lock => { g with lock }

/-- Drop a guard. One that is no longer held is dropped without effect. -/
def leave (g : Guarded α) (mode : LockMode) (thread : ThreadId) : Guarded α :=
  match g.lock.release mode thread with
  | .ok lock => { g with lock }
  | .error _ => g

/-- Store a value through a guard; a read guard stores nothing. -/
def put (g : Guarded α) (mode : LockMode) (value : α) : Guarded α :=
  match mode with
  | .shared => g
  | .exclusive => { g with value }

end Guarded

end KeyValueServer
