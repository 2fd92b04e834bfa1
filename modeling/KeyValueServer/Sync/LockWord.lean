import KeyValueServer.Error

/-!
# Lock words

All of a lock's state is one 32-bit word: from the top a bit for parked threads, a bit for an
exclusive hold, a bit for shared holds, and a field of 29 bits that counts the shared holds or
names the thread with the exclusive one. A thread changes the word only as a whole, by a
compare-exchange against the word it has read.
-/

namespace KeyValueServer

/-- The ways in which a lock can be held. -/
inductive LockMode where
  | shared
  | exclusive
deriving DecidableEq

/-- The number of values of a lock word's field. -/
abbrev fieldSize : Nat := 536870912

instance : @NeZero Nat Zero.ofOfNat0 fieldSize := ⟨by decide⟩

/-- Names a thread in the field of a lock word. -/
abbrev ThreadId := Fin fieldSize

/-- The state of a lock. -/
structure LockWord where
  waiters : Bool
  exclusive : Bool
  shared : Bool
  field : Fin fieldSize
deriving DecidableEq

namespace LockWord

/-- The word of a lock that nobody holds or waits for. -/
def free : LockWord := ⟨false, false, false, 0⟩

/-- The word as an unsigned 32-bit number: bit 31 for waiters, bit 30 for an exclusive hold,
bit 29 for shared holds, and the field below. -/
def toNat (w : LockWord) : Nat :=
  w.waiters.toNat <<< 31 + w.exclusive.toNat <<< 30 + w.shared.toNat <<< 29 + w.field.val

/-- The word after `thread` has taken a hold, where the present holds allow it. A shared hold
needs that there is no exclusive one, an exclusive hold that there is none. The mark of
waiters stays. -/
def acquire? (w : LockWord) (mode : LockMode) (thread : ThreadId) : Option LockWord :=
  match mode with
  | .shared =>
      if w.exclusive then none
      else some { w with shared := true, field := w.field + 1 }
  | .exclusive =>
      if w.exclusive || w.shared || w.field ≠ 0 then none
      else some { w with exclusive := true, field := thread }

/-- The word after `thread` has given up a hold. The last hold takes the mark of waiters with
it. -/
def release (w : LockWord) (mode : LockMode) (thread : ThreadId) : Except StateFault LockWord :=
  match mode with
  | .shared =>
      if w.field = 0 || !w.shared then .error (.sharedRelease w.toNat)
      else if w.field = 1 then .ok free
      else .ok { w with exclusive := false, field := w.field - 1 }
  | .exclusive =>
      if !w.exclusive || w.field ≠ thread then .error (.exclusiveRelease w.toNat thread.val)
      else .ok free

/-- The word with the mark of waiters. -/
def announce (w : LockWord) : LockWord := { w with waiters := true }

/-- The mode in which the lock is held. -/
def mode (w : LockWord) : Option LockMode :=
  if w.exclusive then some .exclusive else if w.shared then some .shared else none

/-- The number of shared holds. -/
def holders (w : LockWord) : Nat := if w.shared then w.field.val else 0

end LockWord

end KeyValueServer
