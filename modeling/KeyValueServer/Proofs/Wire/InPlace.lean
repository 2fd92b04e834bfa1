import KeyValueServer.Proofs.Wire.Acceptance
import KeyValueServer.Proofs.Wire.Room

/-!
# Buffers in their place

All that can be done to a buffer, once on its three parts and once on the storage and the two
positions in it, where bytes are copied over others and positions are moved and held within their
bounds. Both give the same replies and stay in step.
-/

namespace KeyValueServer

/-- Something that is done to a buffer. -/
inductive BufferAction where
  | put (bytes : Bytes)
  | putByte (byte : UInt8)
  | fill (bytes : Bytes)
  | advance (count : Nat)
  | discard
  | clear
  | encodeNat (n : Nat)
  | encodeBytes (bytes : Bytes)
  | decodeNat
  | decodeBytes
deriving DecidableEq

/-- What the caller gets back. -/
inductive BufferReply where
  | done
  | refused (e : Error)
  | nat (n : Nat)
  | span (span : Span)

namespace BufferReply

/-- The reply of a reader. -/
def ofReading {α : Type} (reply : α → BufferReply) : Except Error α → BufferReply
  | .ok value => reply value
  | .error e => refused e

end BufferReply

namespace Buffer

/-- The reply of a writer, and the buffer that it leaves. -/
def afterWriter (b : Buffer) : Except Error Buffer → BufferReply × Buffer
  | .ok next => (.done, next)
  | .error e => (.refused e, b)

def perform (b : Buffer) : BufferAction → BufferReply × Buffer
  | .put bytes => b.afterWriter (b.put bytes)
  | .putByte byte => b.afterWriter (b.put [byte])
  | .fill bytes => (.done, b.fill bytes)
  | .advance count => (.done, b.advance count)
  | .discard => (.done, b.discard)
  | .clear => (.done, b.clear)
  | .encodeNat n => b.afterWriter (b.encodeNat n)
  | .encodeBytes bytes => b.afterWriter (b.encodeBytes bytes)
  | .decodeNat => (.ofReading .nat b.decodeNat.1, b.decodeNat.2)
  | .decodeBytes => (.ofReading .span b.decodeBytes.1, b.decodeBytes.2)

/-- One action after the other, with the replies in order. -/
def performAll (b : Buffer) : List BufferAction → List BufferReply × Buffer
  | [] => ([], b)
  | a :: rest =>
      ((b.perform a).1 :: ((b.perform a).2.performAll rest).1, ((b.perform a).2.performAll rest).2)

end Buffer

namespace Placement

open Token

/-- How many bytes can be read. -/
def size (p : Placement) : Nat := p.writing - p.reading

/-- The bytes that can be read. -/
def readable (p : Placement) : Bytes := (p.storage.take p.writing).drop p.reading

/-- The bytes of a span that lies within the storage. -/
def slice? (p : Placement) (span : Span) : Option Bytes :=
  if span.stop ≤ p.storage.length then some ((p.storage.drop span.start).take span.length)
  else none

/-- Copy bytes over the spare ones, as many as there are at most, and count them as written. -/
def fill (p : Placement) (bytes : Bytes) : Placement :=
  let fitting := bytes.take p.free
  { p.write fitting with writing := min (p.writing + fitting.length) p.storage.length }

def advance (p : Placement) (count : Nat) : Placement :=
  { p with reading := min (p.reading + count) p.writing }

def discard (p : Placement) : Placement := { p with reading := p.writing }

def clear (p : Placement) : Placement := { p with reading := 0, writing := 0 }

def decodeNat (p : Placement) : Except Error Nat × Placement :=
  match readNat p.readable with
  | .error fault => (.error (.invalidArgument fault), p)
  | .ok (value, width) => (.ok value, p.advance width)

def decodeBytes (p : Placement) : Except Error Span × Placement :=
  match p.decodeNat with
  | (.error e, p) => (.error e, p)
  | (.ok length, p) =>
      match checkPayload length p.readable with
      | .error fault => (.error (.invalidArgument fault), p)
      | .ok () => (.ok ⟨p.reading + 2, length⟩, p.advance (length + framing))

/-- The reply of a writer, and what it leaves. -/
def afterWriter (outcome : Except Error Unit × Placement) : BufferReply × Placement :=
  (.ofReading (fun _ => .done) outcome.1, outcome.2)

def perform (p : Placement) : BufferAction → BufferReply × Placement
  | .put bytes => afterWriter ((put bytes).outcome p)
  | .putByte byte => afterWriter ((put [byte]).outcome p)
  | .fill bytes => (.done, p.fill bytes)
  | .advance count => (.done, p.advance count)
  | .discard => (.done, p.discard)
  | .clear => (.done, p.clear)
  | .encodeNat n => afterWriter ((encodeNat n).outcome p)
  | .encodeBytes bytes => afterWriter ((encodeBytes bytes).outcome p)
  | .decodeNat => (.ofReading .nat p.decodeNat.1, p.decodeNat.2)
  | .decodeBytes => (.ofReading .span p.decodeBytes.1, p.decodeBytes.2)

def performAll (p : Placement) : List BufferAction → List BufferReply × Placement
  | [] => ([], p)
  | a :: rest =>
      ((p.perform a).1 :: ((p.perform a).2.performAll rest).1, ((p.perform a).2.performAll rest).2)

theorem performAll_append (p : Placement) (first second : List BufferAction) :
    (p.performAll (first ++ second)).2 = ((p.performAll first).2.performAll second).2 := by
  induction first generalizing p with
  | nil => rfl
  | cons a rest ih => exact ih (p.perform a).2

end Placement

namespace Buffer

open Token

variable (b : Buffer)

/-! ## Positions and parts -/

theorem readable_placement : b.placement.readable = b.readable := by
  have hwritten : b.position + b.size = (b.consumed ++ b.readable).length :=
    List.length_append.symm
  rw [Placement.readable, placement, hwritten, storage, List.take_left]
  exact List.drop_left

theorem size_placement : b.placement.size = b.size :=
  Nat.add_sub_cancel_left b.position b.size

theorem length_storage_placement : b.placement.storage.length = b.capacity := b.length_storage

theorem slice?_placement (span : Span) : b.placement.slice? span = b.slice? span := by
  rw [Placement.slice?, slice?, length_storage_placement]
  rfl

theorem placement_advance (count : Nat) :
    (b.advance count).placement = b.placement.advance count := by
  rw [placement, storage_advance, position_add_size_advance]
  simp only [Placement.advance, placement, advance, position, size, List.length_append,
    List.length_take, Placement.mk.injEq, true_and, and_true]
  omega

theorem placement_discard : b.discard.placement = b.placement.discard := by
  simp [placement, Placement.discard, discard, storage, position, size]

theorem placement_clear : b.clear.placement = b.placement.clear := by
  simp [placement, Placement.clear, clear, storage, position, size]

theorem placement_fill (bytes : Bytes) : (b.fill bytes).placement = b.placement.fill bytes := by
  rw [fill, placement_append, Placement.fill, free_placement]
  have hbound : b.placement.writing + (bytes.take b.free).length ≤ b.placement.storage.length := by
    rw [length_storage_placement, List.length_take]
    simp only [placement, capacity, position, size, free]
    omega
  simp only [Nat.min_eq_left hbound]
  rfl

/-! ## Readers and writers -/

theorem outcome_put_placement (bytes : Bytes) :
    Placement.afterWriter ((Placement.put bytes).outcome b.placement) =
      ((b.afterWriter (b.put bytes)).1, (b.afterWriter (b.put bytes)).2.placement) := by
  by_cases hroom : bytes.length ≤ b.free
  · rw [outcome_put hroom, put_of_le hroom]
    rfl
  · rw [put, if_pos (Nat.not_le.mp hroom), Placement.put, Placement.outcome_get,
      Placement.outcome_ite, free_placement, if_pos (Nat.not_le.mp hroom),
      Placement.outcome_refuse]
    rfl

theorem outcome_encodeNat_placement (n : Nat) :
    Placement.afterWriter ((Placement.encodeNat n).outcome b.placement) =
      ((b.afterWriter (b.encodeNat n)).1, (b.afterWriter (b.encodeNat n)).2.placement) := by
  rw [outcome_encodeNat, encodeNat_eq]
  split_ifs <;> rfl

theorem outcome_encodeBytes_placement (bytes : Bytes) :
    Placement.afterWriter ((Placement.encodeBytes bytes).outcome b.placement) =
      ((b.afterWriter (b.encodeBytes bytes)).1,
        (b.afterWriter (b.encodeBytes bytes)).2.placement) := by
  rw [outcome_encodeBytes, encodeBytes_eq]
  split_ifs <;> rfl

theorem decodeNat_placement : b.placement.decodeNat = (b.decodeNat.1, b.decodeNat.2.placement) := by
  rw [Placement.decodeNat, decodeNat, readable_placement]
  cases readNat b.readable with
  | error fault => rfl
  | ok read => exact congrArg (Prod.mk _) (b.placement_advance read.2).symm

theorem decodeBytes_placement :
    b.placement.decodeBytes = (b.decodeBytes.1, b.decodeBytes.2.placement) := by
  rw [Placement.decodeBytes, decodeBytes, decodeNat_placement]
  rcases b.decodeNat with ⟨e | length, next⟩
  · rfl
  · simp only [readable_placement]
    cases checkPayload length next.readable with
    | error fault => rfl
    | ok _ => exact congrArg (Prod.mk _) (next.placement_advance (length + framing)).symm

/-- In its place a buffer does what its three parts do. -/
theorem perform_placement (a : BufferAction) :
    b.placement.perform a = ((b.perform a).1, (b.perform a).2.placement) := by
  cases a with
  | put bytes => exact b.outcome_put_placement bytes
  | putByte byte => exact b.outcome_put_placement [byte]
  | fill bytes => exact congrArg (Prod.mk _) (b.placement_fill bytes).symm
  | advance count => exact congrArg (Prod.mk _) (b.placement_advance count).symm
  | discard => exact congrArg (Prod.mk _) b.placement_discard.symm
  | clear => exact congrArg (Prod.mk _) b.placement_clear.symm
  | encodeNat n => exact b.outcome_encodeNat_placement n
  | encodeBytes bytes => exact b.outcome_encodeBytes_placement bytes
  | decodeNat => rw [Placement.perform, decodeNat_placement, perform]
  | decodeBytes => rw [Placement.perform, decodeBytes_placement, perform]

theorem performAll_placement (actions : List BufferAction) :
    b.placement.performAll actions =
      ((b.performAll actions).1, (b.performAll actions).2.placement) := by
  induction actions generalizing b with
  | nil => rfl
  | cons a rest ih =>
      rw [Placement.performAll, perform_placement, ih]
      rfl

end Buffer

end KeyValueServer
