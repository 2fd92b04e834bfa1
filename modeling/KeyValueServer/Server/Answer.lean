import KeyValueServer.Store.Access
import KeyValueServer.Stream.Sink
import KeyValueServer.Wire.Request

/-!
# Answering requests

What a server does with the request at the read position of a buffer: it reads the request,
carries it out on the table and sends one answer. What the answer is, and what becomes of the
table, does not hang on the connection that the answer is sent over.
-/

namespace KeyValueServer.Server

/-- What the answering thread brings along: its name and the memory it can draw on. -/
structure Worker where
  thread : ThreadId
  memory : Allocator

/-- A request that was carried out: the bytes to send, what to report to the caller once they
are sent, the rest of the buffer, and the table. -/
structure Answer where
  reply : Bytes
  outcome : Except Error Unit
  rest : Buffer
  table : Table

/-- The room that an answer needs besides its value. -/
def headroom : Nat := 64

/-- The answer that consists of a status. Where it cannot be written, nothing is sent. -/
def statusReply (status : Nat) : Bytes × Except Error Unit :=
  match (Buffer.ofCapacity maxMessage).encodeNat status with
  | .ok b => (b.readable, .ok ())
  | .error e => ([], .error e)

/-- The answer that consists of a status, after which `outcome` is reported. -/
def report (status : Nat) (outcome : Except Error Unit) (rest : Buffer) (table : Table) :
    Answer :=
  match statusReply status with
  | (reply, .ok ()) => ⟨reply, outcome, rest, table⟩
  | (reply, .error e) => ⟨reply, .error e, rest, table⟩

/-- The answer that carries a value. -/
def valueReply (value : Bytes) : Except Error Bytes := do
  let b ← (Buffer.ofCapacity (max maxMessage (value.length + headroom))).encodeNat 0
  let b ← b.encodeBytes value
  pure b.readable

/-- Answer a request for a value whose key follows in the buffer. -/
def answerGet (worker : Worker) (table : Table) (frame : Buffer) : Option Answer :=
  match frame.decodeBytes with
  | (.error e, rest) => some (report e.code (.error e) rest table)
  | (.ok key, rest) => do
      match ← table.get worker.thread (rest.bytesAt key) .shared with
      | (.error e, table) => pure (report e.code (.ok ()) rest table)
      | (.ok handle, table) =>
          let reply := valueReply (table.valueOf handle)
          match table.release worker.thread handle with
          | (.error e, table) => pure ⟨[], .error e, rest, table⟩
          | (.ok (), table) =>
              match reply with
              | .ok reply => pure ⟨reply, .ok (), rest, table⟩
              | .error e => pure (report e.code (.ok ()) rest table)

/-- Answer a request to store a value; its key and the value follow in the buffer. -/
def answerSet (worker : Worker) (table : Table) (frame : Buffer) : Option Answer :=
  match frame.decodeBytes with
  | (.error e, rest) => some (report e.code (.error e) rest table)
  | (.ok key, rest) =>
      match rest.decodeBytes with
      | (.error e, rest) => some (report e.code (.error e) rest table)
      | (.ok value, rest) => do
          match ← table.set worker.memory worker.thread (rest.bytesAt key) (rest.bytesAt value)
              .exclusive with
          | (.error e, table) => pure (report e.code (.ok ()) rest table)
          | (.ok handle, table) =>
              match table.release worker.thread handle with
              | (.error e, table) => pure (report e.code (.ok ()) rest table)
              | (.ok (), table) => pure (report 0 (.ok ()) rest table)

/-- Answer the request at the read position of a buffer. There is no result where the table
would make the thread wait. -/
def answer (worker : Worker) (table : Table) (frame : Buffer) : Option Answer :=
  match frame.decodeNat with
  | (.error e, rest) => some ⟨[failureMarker], .error e, rest, table⟩
  | (.ok code, rest) =>
      match CommandCode.ofNumber code with
      | .get => answerGet worker table rest
      | .set => answerSet worker table rest
      | _ => some ⟨[failureMarker], .error (.unknownCommand code), rest, table⟩

/-- A request that was answered over a connection. -/
structure Dispatched where
  result : Except Error Unit
  rest : Buffer
  table : Table
  sink : Sink

/-- Answer the request at the read position of a buffer over a connection. A connection that
fails is reported before anything that is wrong with the request. -/
def dispatch (worker : Worker) (table : Table) (frame : Buffer) (sink : Sink) :
    Option Dispatched := do
  let answered ← answer worker table frame
  match sink.send answered.reply with
  | (.error e, sink) => pure ⟨.error e, answered.rest, answered.table, sink⟩
  | (.ok (), sink) => pure ⟨answered.outcome, answered.rest, answered.table, sink⟩

/-! ## Answering uses the request up -/

@[simp] theorem rest_report (status : Nat) (outcome : Except Error Unit) (rest : Buffer)
    (table : Table) : (report status outcome rest table).rest = rest := by
  unfold report
  split <;> rfl

theorem rest_answerGet {worker : Worker} {table : Table} {frame : Buffer} {a : Answer}
    (h : answerGet worker table frame = some a) : a.rest = frame.decodeBytes.2 := by
  unfold answerGet at h
  split at h
  · next hd => simp only [Option.some.injEq] at h; subst h; simp [hd]
  · next hd =>
      rw [Option.bind_eq_bind, Option.bind_eq_some_iff] at h
      obtain ⟨⟨result, table'⟩, -, h⟩ := h
      dsimp only at h
      split at h
      · simp only [Option.pure_def, Option.some.injEq] at h; subst h; simp [hd]
      · split at h
        · simp only [Option.pure_def, Option.some.injEq] at h; subst h; simp [hd]
        · split at h <;> simp only [Option.pure_def, Option.some.injEq] at h <;> subst h <;>
            simp [hd]

theorem size_rest_answerSet_le {worker : Worker} {table : Table} {frame : Buffer} {a : Answer}
    (h : answerSet worker table frame = some a) : a.rest.size ≤ frame.size := by
  have hkey := Buffer.size_decodeBytes_le frame
  unfold answerSet at h
  split at h
  · next hd => rw [hd] at hkey; simp only [Option.some.injEq] at h; subst h; simpa using hkey
  · next key rest hd =>
      rw [hd] at hkey
      have hvalue := Buffer.size_decodeBytes_le rest
      split at h
      · next hd' =>
          rw [hd'] at hvalue
          simp only [Option.some.injEq] at h
          subst h
          simpa using Nat.le_trans hvalue hkey
      · next hd' =>
          rw [hd'] at hvalue
          rw [Option.bind_eq_bind, Option.bind_eq_some_iff] at h
          obtain ⟨⟨result, table'⟩, -, h⟩ := h
          split at h
          · simp only [Option.pure_def, Option.some.injEq] at h
            subst h
            simpa using Nat.le_trans hvalue hkey
          · split at h <;> simp only [Option.pure_def, Option.some.injEq] at h <;> subst h <;>
              simpa using Nat.le_trans hvalue hkey

/-- A request that was answered without error takes up some of the readable bytes. -/
theorem size_rest_answer_lt {worker : Worker} {table : Table} {frame : Buffer} {a : Answer}
    (h : answer worker table frame = some a) (hok : a.outcome = .ok ()) :
    a.rest.size < frame.size := by
  unfold answer at h
  split at h
  · simp only [Option.some.injEq] at h; subst h; simp at hok
  · next code rest hd =>
      have hcode := Buffer.size_decodeNat_lt hd
      split at h
      · have hle := Buffer.size_decodeBytes_le rest
        rw [← rest_answerGet h] at hle
        omega
      · have hle := size_rest_answerSet_le h
        omega
      · simp only [Option.some.injEq] at h; subst h; simp at hok

/-- Likewise over a connection. -/
theorem size_rest_dispatch_lt {worker : Worker} {table : Table} {frame : Buffer} {sink : Sink}
    {d : Dispatched} (h : dispatch worker table frame sink = some d) (hok : d.result = .ok ()) :
    d.rest.size < frame.size := by
  unfold dispatch at h
  rw [Option.bind_eq_bind, Option.bind_eq_some_iff] at h
  obtain ⟨a, ha, h⟩ := h
  split at h <;> simp only [Option.pure_def, Option.some.injEq] at h <;> subst h
  · simp at hok
  · exact size_rest_answer_lt ha hok

end KeyValueServer.Server
