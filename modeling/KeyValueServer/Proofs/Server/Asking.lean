import KeyValueServer.Proofs.Store.Returns
import KeyValueServer.Server.Answer

/-!
# What answering a request asks of the table

The request at the read position of a buffer makes one call on the table, and bytes that are no
request make none. Whatever the answer is and whatever becomes of it, the handle that the call
returns is released before anything is sent.
-/

namespace KeyValueServer

/-- The call on the table that carries out a request, with the handle that it returns. -/
def Request.ask (worker : Server.Worker) (table : Table) :
    Request → Option (Except Error Handle × Table)
  | .get key => table.get worker.thread key .shared
  | .set key value => table.set worker.memory worker.thread key value .exclusive

theorem Request.returns {worker : Server.Worker} {table t : Table} {r : Except Error Handle}
    (request : Request) (h : request.ask worker table = some (r, t)) :
    table.Returns worker.thread r t := by
  cases request with
  | get key => exact .get h
  | set key value => exact .set h

/-- The table once the handle that a call has returned, if any, is released. -/
def Table.settled (t : Table) (thread : ThreadId) : Except Error Handle → Table
  | .ok handle => (t.release thread handle).2
  | .error _ => t

namespace Server

/-- The request for the value of the key at the read position. -/
def getAt (frame : Buffer) : Option Request :=
  match frame.decodeBytes with
  | (.error _, _) => none
  | (.ok key, rest) => some (.get (rest.bytesAt key))

/-- The request to store the value that follows the key at the read position. -/
def setAt (frame : Buffer) : Option Request :=
  match frame.decodeBytes with
  | (.error _, _) => none
  | (.ok key, rest) =>
      match rest.decodeBytes with
      | (.error _, _) => none
      | (.ok value, rest) => some (.set (rest.bytesAt key) (rest.bytesAt value))

/-- The request at the read position of a buffer, if there is one. -/
def requestAt (frame : Buffer) : Option Request :=
  match frame.decodeNat with
  | (.error _, _) => none
  | (.ok code, rest) =>
      match CommandCode.ofNumber code with
      | .get => getAt rest
      | .set => setAt rest
      | _ => none

/-- A table after no request, or after one that was carried out. -/
inductive Settles (worker : Worker) (table : Table) : Option Request → Table → Prop
  | none : Settles worker table none table
  | some (request : Request) {r : Except Error Handle} {t : Table}
      (h : request.ask worker table = some (r, t)) :
      Settles worker table (some request) (t.settled worker.thread r)

variable {worker : Worker} {table : Table} {frame : Buffer} {sink : Sink}

@[simp] theorem table_report (status : Nat) (outcome : Except Error Unit) (rest : Buffer)
    (table : Table) : (report status outcome rest table).table = table := by
  unfold report
  split <;> rfl

theorem settles_answerGet {a : Answer} (h : answerGet worker table frame = some a) :
    Settles worker table (getAt frame) a.table := by
  unfold answerGet at h
  split at h
  next e rest hkey =>
    obtain rfl := Option.some.inj h
    rw [getAt, hkey, table_report]
    exact .none
  next key rest hkey =>
    rw [getAt, hkey]
    rw [Option.bind_eq_bind, Option.bind_eq_some_iff] at h
    obtain ⟨⟨r, t⟩, hget, h⟩ := h
    have hsettles : Settles worker table (some (.get (rest.bytesAt key)))
        (t.settled worker.thread r) :=
      .some (.get (rest.bytesAt key)) hget
    suffices htable : a.table = t.settled worker.thread r by rwa [htable]
    cases r with
    | error e =>
        obtain rfl := Option.some.inj h
        exact table_report ..
    | ok handle =>
        rw [Table.settled]
        dsimp only at h
        split at h
        next hrelease =>
          obtain rfl := Option.some.inj h
          rw [hrelease]
        next hrelease =>
          rw [hrelease]
          split at h
          · obtain rfl := Option.some.inj h
            rfl
          · obtain rfl := Option.some.inj h
            exact table_report ..

theorem settles_answerSet {a : Answer} (h : answerSet worker table frame = some a) :
    Settles worker table (setAt frame) a.table := by
  unfold answerSet at h
  split at h
  next e rest hkey =>
    obtain rfl := Option.some.inj h
    rw [setAt, hkey, table_report]
    exact .none
  next key after hkey =>
    rw [setAt, hkey]
    dsimp only at h ⊢
    generalize after.decodeBytes = decoded at h ⊢
    obtain ⟨value, rest⟩ := decoded
    cases value with
    | error e =>
        obtain rfl := Option.some.inj h
        rw [table_report]
        exact .none
    | ok value =>
        dsimp only at h ⊢
        rw [Option.bind_eq_bind, Option.bind_eq_some_iff] at h
        obtain ⟨⟨r, t⟩, hset, h⟩ := h
        have hsettles : Settles worker table (some (.set (rest.bytesAt key) (rest.bytesAt value)))
            (t.settled worker.thread r) :=
          .some (.set (rest.bytesAt key) (rest.bytesAt value)) hset
        suffices htable : a.table = t.settled worker.thread r by rwa [htable]
        cases r with
        | error e =>
            obtain rfl := Option.some.inj h
            exact table_report ..
        | ok handle =>
            rw [Table.settled]
            dsimp only at h
            split at h
            next hrelease =>
              obtain rfl := Option.some.inj h
              rw [hrelease, table_report]
            next hrelease =>
              obtain rfl := Option.some.inj h
              rw [hrelease, table_report]

theorem settles_answer {a : Answer} (h : answer worker table frame = some a) :
    Settles worker table (requestAt frame) a.table := by
  unfold answer at h
  split at h
  next e rest hcode =>
    obtain rfl := Option.some.inj h
    rw [requestAt, hcode]
    exact .none
  next code rest hcode =>
    rw [requestAt, hcode]
    dsimp only
    generalize CommandCode.ofNumber code = command at h
    cases command with
    | get => exact settles_answerGet h
    | set => exact settles_answerSet h
    | _ =>
        obtain rfl := Option.some.inj h
        exact .none

theorem table_dispatch {d : Dispatched} (h : dispatch worker table frame sink = some d) :
    ∃ a, answer worker table frame = some a ∧ d.table = a.table := by
  unfold dispatch at h
  rw [Option.bind_eq_bind, Option.bind_eq_some_iff] at h
  obtain ⟨a, ha, h⟩ := h
  refine ⟨a, ha, ?_⟩
  split at h
  · obtain rfl := Option.some.inj h
    rfl
  · obtain rfl := Option.some.inj h
    rfl

/-- The table after a request was answered over a connection is that after the call that the request
makes, and after the release of its handle. -/
theorem settles_dispatch {d : Dispatched} (h : dispatch worker table frame sink = some d) :
    Settles worker table (requestAt frame) d.table := by
  obtain ⟨a, ha, htable⟩ := table_dispatch h
  rw [htable]
  exact settles_answer ha

/-- Answering a request makes at most one call on the table, whose handle is released. -/
theorem dispatch_cases {d : Dispatched} (h : dispatch worker table frame sink = some d) :
    d.table = table ∨
      ∃ r t, table.Returns worker.thread r t ∧ d.table = t.settled worker.thread r := by
  have hsettles := settles_dispatch h
  generalize requestAt frame = asked, d.table = settled at hsettles
  cases hsettles with
  | none => exact .inl rfl
  | some request hask => exact .inr ⟨_, _, request.returns hask, rfl⟩

end Server

end KeyValueServer
