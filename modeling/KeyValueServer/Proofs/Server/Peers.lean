import KeyValueServer.Proofs.Server.LockBalance
import KeyValueServer.Proofs.Stream.Delivery
import KeyValueServer.Proofs.Wire.RoundTrip

/-!
# Requests do not depend on their peers

What a request does to the table, how far it reads and what its answer is, is settled before the
first byte is sent. A peer decides how much of the answer it takes and whether the connection
breaks, and nothing else. An error other than that of a broken connection is reported only
of a request that has not touched the table.
-/

namespace KeyValueServer

/-! ## Writers -/

/-- If this is an error, it is a refused argument. -/
def Refuses {α : Type} (result : Except Error α) : Prop :=
  ∀ e, result = .error e → ∃ fault, e = .invalidArgument fault

theorem Refuses.bind {α β : Type} {result : Except Error α} {f : α → Except Error β}
    (h : Refuses result) (hf : ∀ a, Refuses (f a)) : Refuses (result >>= f) := by
  intro e he
  cases result with
  | error found =>
      have hfound : (.error found : Except Error β) = .error e := he
      obtain rfl := Except.error.inj hfound
      exact h found rfl
  | ok a => exact hf a e he

theorem refuses_ok {α : Type} (a : α) : Refuses (.ok a) := fun _ he => nomatch he

namespace Buffer

theorem refuses_refused {α : Type} (fault : ArgumentFault) :
    Refuses (refused fault : Except Error α) :=
  fun _ he => ⟨fault, (Except.error.inj he).symm⟩

theorem refuses_put (b : Buffer) (bytes : Bytes) : Refuses (b.put bytes) := by
  rw [put]
  split
  · exact refuses_refused .bufferFull
  · exact refuses_ok _

theorem refuses_putToken (b : Buffer) (payload : Bytes) : Refuses (b.putToken payload) := by
  rw [putToken]
  split
  · exact refuses_refused .noRoomForToken
  · exact (refuses_put _ _).bind fun b => (refuses_put b _).bind fun b => refuses_put b _

theorem refuses_encodeNat (b : Buffer) (n : Nat) : Refuses (b.encodeNat n) := by
  rw [encodeNat]
  split
  · exact refuses_refused .integerTooWide
  · exact refuses_putToken b _

theorem refuses_encodeBytes (b : Buffer) (bytes : Bytes) : Refuses (b.encodeBytes bytes) := by
  rw [encodeBytes]
  split
  · exact refuses_refused .noRoomForString
  · exact (refuses_encodeNat b _).bind fun b => refuses_putToken b bytes

end Buffer

namespace Server

theorem refuses_valueReply (value : Bytes) : Refuses (valueReply value) :=
  (Buffer.refuses_encodeNat _ 0).bind fun b =>
    (Buffer.refuses_encodeBytes b value).bind fun _ => refuses_ok _

/-! ## What is reported -/

theorem room_of_nil (id : EntryId) :
    sharedHolds ((fun _ : EntryId => ([] : List Hold)) id) + 1 < fieldSize := by
  have hnone : sharedHolds [] = 0 := rfl
  rw [hnone]
  decide

variable {worker : Worker} {t t' : Table} {frame rest : Buffer} {sink : Sink}

/-- What the answer reports as an error left the table alone, and it is not about the
connection. -/
def Answer.Harmless (a : Answer) (t : Table) : Prop :=
  ∀ e, a.outcome = .error e → e.isFatal = false ∧ a.table = t

theorem harmless_of_ok {a : Answer} (h : a.outcome = .ok ()) : a.Harmless t := by
  intro e he
  rw [h] at he
  contradiction

/-- Reporting a status that can be written. -/
theorem outcome_report {status : Nat} (h : status < 10 ^ Token.maxDigits)
    (outcome : Except Error Unit) (rest : Buffer) (t : Table) :
    (report status outcome rest t).outcome = outcome := by
  rw [report, statusReply_of_lt h]

theorem code_invalidArgument_lt (fault : ArgumentFault) :
    (Error.invalidArgument fault).code < 10 ^ Token.maxDigits := by
  rw [Error.code]
  decide

theorem harmless_report_refused (fault : ArgumentFault) (rest : Buffer) (t : Table) :
    (report (Error.invalidArgument fault).code (.error (.invalidArgument fault)) rest
      t).Harmless t := by
  intro e he
  rw [outcome_report (code_invalidArgument_lt fault)] at he
  obtain rfl := Except.error.inj he
  exact ⟨rfl, table_report ..⟩

theorem harmless_answerGet (hs : t.Sound) (hrest : t.AtRest fun _ => []) {a : Answer}
    (h : answerGet worker t frame = some a) : a.Harmless t := by
  unfold answerGet at h
  split at h
  next e rest hkey =>
    obtain rfl := Option.some.inj h
    obtain ⟨fault, rfl⟩ := Buffer.eq_invalidArgument_of_decodeBytes hkey
    exact harmless_report_refused fault _ t
  next key rest hkey =>
    rw [Option.bind_eq_bind, Option.bind_eq_some_iff] at h
    obtain ⟨⟨r, t'⟩, hget, h⟩ := h
    cases r with
    | error e =>
        obtain rfl := Option.some.inj h
        have hfound := (Table.contents_get hget).2
        split at hfound
        · obtain rfl := Except.error.inj hfound
          exact harmless_of_ok (outcome_report (by decide) ..)
        · contradiction
    | ok handle =>
        have hreleased := (hrest.settled hs (.get hget) room_of_nil).1 handle rfl
        dsimp only at h
        split at h
        next hrelease =>
          rw [hrelease] at hreleased
          contradiction
        next =>
          split at h
          next =>
            obtain rfl := Option.some.inj h
            exact harmless_of_ok rfl
          next hreply =>
            obtain rfl := Option.some.inj h
            obtain ⟨fault, rfl⟩ := refuses_valueReply _ _ hreply
            exact harmless_of_ok (outcome_report (code_invalidArgument_lt fault) ..)

theorem harmless_answerSet (hs : t.Sound) (hrest : t.AtRest fun _ => []) {a : Answer}
    (h : answerSet worker t frame = some a) : a.Harmless t := by
  unfold answerSet at h
  split at h
  next e rest hkey =>
    obtain rfl := Option.some.inj h
    obtain ⟨fault, rfl⟩ := Buffer.eq_invalidArgument_of_decodeBytes hkey
    exact harmless_report_refused fault _ t
  next key after hkey =>
    split at h
    next e rest hvalue =>
      obtain rfl := Option.some.inj h
      obtain ⟨fault, rfl⟩ := Buffer.eq_invalidArgument_of_decodeBytes hvalue
      exact harmless_report_refused fault _ t
    next value rest hvalue =>
      rw [Option.bind_eq_bind, Option.bind_eq_some_iff] at h
      obtain ⟨⟨r, t'⟩, hset, h⟩ := h
      cases r with
      | error e =>
          obtain rfl := Option.some.inj h
          rcases Table.contents_set hset with ⟨hok, -⟩ | ⟨hfailed, -⟩
          · contradiction
          · obtain rfl := Except.error.inj hfailed
            exact harmless_of_ok (outcome_report (by decide) ..)
      | ok handle =>
          have hreleased := (hrest.settled hs (.set hset) room_of_nil).1 handle rfl
          dsimp only at h
          split at h
          next hrelease =>
            rw [hrelease] at hreleased
            contradiction
          next =>
            obtain rfl := Option.some.inj h
            exact harmless_of_ok (outcome_report (by decide) ..)

theorem harmless_answer (hs : t.Sound) (hrest : t.AtRest fun _ => []) {a : Answer}
    (h : answer worker t frame = some a) : a.Harmless t := by
  unfold answer at h
  split at h
  next e rest hcode =>
    obtain rfl := Option.some.inj h
    obtain ⟨fault, rfl⟩ := Buffer.eq_invalidArgument_of_decodeNat hcode
    intro e he
    obtain rfl := Except.error.inj he
    exact ⟨rfl, rfl⟩
  next code rest hcode =>
    split at h
    · exact harmless_answerGet hs hrest h
    · exact harmless_answerSet hs hrest h
    · obtain rfl := Option.some.inj h
      intro e he
      obtain rfl := Except.error.inj he
      exact ⟨rfl, rfl⟩

/-! ## Every request is answered -/

theorem exists_answerGet (hs : t.Sound) (hrest : t.AtRest fun _ => []) (worker : Worker)
    (frame : Buffer) : ∃ a, answerGet worker t frame = some a := by
  unfold answerGet
  split
  · exact ⟨_, rfl⟩
  next key rest hkey =>
    obtain ⟨r, t', hget⟩ := hrest.exists_get hs worker.thread (rest.bytesAt key) .shared
    rw [hget, Option.bind_eq_bind, Option.bind_some]
    cases r with
    | error e => exact ⟨_, rfl⟩
    | ok handle =>
        dsimp only
        split
        · exact ⟨_, rfl⟩
        · split
          · exact ⟨_, rfl⟩
          · exact ⟨_, rfl⟩

theorem exists_answerSet (hs : t.Sound) (hrest : t.AtRest fun _ => []) (worker : Worker)
    (frame : Buffer) : ∃ a, answerSet worker t frame = some a := by
  unfold answerSet
  split
  · exact ⟨_, rfl⟩
  next key after hkey =>
    split
    · exact ⟨_, rfl⟩
    next value rest hvalue =>
      obtain ⟨r, t', hset⟩ := hrest.exists_set hs worker.memory worker.thread
        (rest.bytesAt key) (rest.bytesAt value) .exclusive
      rw [hset, Option.bind_eq_bind, Option.bind_some]
      cases r with
      | error e => exact ⟨_, rfl⟩
      | ok handle =>
          dsimp only
          split
          · exact ⟨_, rfl⟩
          · exact ⟨_, rfl⟩

/-- Without outstanding handles no request has to wait. -/
theorem exists_answer (hs : t.Sound) (hrest : t.AtRest fun _ => []) (worker : Worker)
    (frame : Buffer) : ∃ a, answer worker t frame = some a := by
  unfold answer
  split
  · exact ⟨_, rfl⟩
  · split
    · exact exists_answerGet hs hrest worker _
    · exact exists_answerSet hs hrest worker _
    · exact ⟨_, rfl⟩

/-! ## Over a connection -/

/-- The peer decides between the error with which sending ends and what the answer reports. -/
theorem exists_dispatch_of_answer {a : Answer} (h : answer worker t frame = some a) (sink : Sink) :
    ∃ d, dispatch worker t frame sink = some d ∧ d.table = a.table ∧ d.rest = a.rest ∧
      d.sink = (sink.send a.reply).2 ∧
      d.result = (sink.send a.reply).1.bind fun _ => a.outcome := by
  rw [dispatch, h, Option.bind_eq_bind, Option.bind_some]
  rcases sink.send a.reply with ⟨result, after⟩
  cases result with
  | error e => exact ⟨_, rfl, rfl, rfl, rfl, rfl⟩
  | ok _ => exact ⟨_, rfl, rfl, rfl, rfl, rfl⟩

/-- Whatever a peer does, the table and the rest of the buffer are left as for a peer that takes
everything, and what it takes is a prefix of what that one does. The request is reported to
have failed for the connection exactly if a write failed for good before all of the answer was
taken. Otherwise the peer has all of the answer and the same is reported. A refused request
leaves the table alone. -/
theorem dispatch_ignores_peer {t : Table} (hs : t.Sound) (hrest : t.AtRest fun _ => [])
    (worker : Worker) (frame : Buffer) (sink : Sink) :
    ∃ whole d, dispatch worker t frame .accepting = some whole ∧
      dispatch worker t frame sink = some d ∧
      d.table = whole.table ∧ d.rest = whole.rest ∧
      (∃ part, part <+: whole.sink.accepted ∧ d.sink.accepted = sink.accepted ++ part) ∧
      (∀ e, e.isFatal = true → (d.result = .error e ↔
        ∃ step, Sink.Reaches sink.steps whole.sink.accepted.length step ∧
          step.failure = some e)) ∧
      ((∀ e, d.result = .error e → e.isFatal = false) →
        d.result = whole.result ∧ d.sink.accepted = sink.accepted ++ whole.sink.accepted) ∧
      (∀ fault, d.result = .error (.invalidArgument fault) → d.table = t) ∧
      ∀ code, d.result = .error (.unknownCommand code) → d.table = t := by
  obtain ⟨a, ha⟩ := exists_answer hs hrest worker frame
  have hharmless := harmless_answer hs hrest ha
  obtain ⟨whole, hwhole, htable, hread, hsink, hresult⟩ := exists_dispatch_of_answer ha .accepting
  obtain ⟨d, hd, htable', hread', hsink', hresult'⟩ := exists_dispatch_of_answer ha sink
  obtain ⟨hsent, haccepted⟩ := Sink.send_accepting a.reply
  obtain ⟨part, hpart, htaken, hall⟩ := Sink.exists_prefix_send sink a.reply
  have hwholeResult : whole.result = a.outcome := by
    rw [hresult, hsent]
    rfl
  have hwholeReply : whole.sink.accepted = a.reply := by rw [hsink, haccepted]
  -- An error that does not stand for a broken connection is the answer's own.
  have hrefused : ∀ e, d.result = .error e → e.isFatal = false → d.table = t := by
    intro e he hlocal
    rw [hresult'] at he
    cases hsent' : (sink.send a.reply).1 with
    | error found =>
        rw [hsent'] at he
        obtain rfl := Except.error.inj he
        rw [Sink.isFatal_of_send_eq_error hsent'] at hlocal
        contradiction
    | ok _ =>
        rw [hsent'] at he
        rw [htable', (hharmless e he).2]
  refine ⟨whole, d, hwhole, hd, htable'.trans htable.symm, hread'.trans hread.symm, ?_, ?_, ?_,
    fun fault hd => hrefused _ hd rfl, fun code hd => hrefused _ hd rfl⟩
  · exact ⟨part, by rwa [hwholeReply], by rw [hsink', htaken]⟩
  · intro e hfatal
    rw [hwholeReply, ← Sink.send_eq_error_iff, hresult']
    cases hsent' : (sink.send a.reply).1 with
    | error found => rfl
    | ok _ =>
        refine ⟨fun he => ?_, fun he => absurd he (by simp)⟩
        have hlocal := (hharmless e he).1
        rw [hfatal] at hlocal
        contradiction
  · intro hlocal
    cases hsent' : (sink.send a.reply).1 with
    | error found =>
        have hnot := hlocal found (by rw [hresult', hsent']; rfl)
        rw [Sink.isFatal_of_send_eq_error hsent'] at hnot
        contradiction
    | ok _ =>
        refine ⟨?_, by rw [hsink', htaken, hall hsent', hwholeReply]⟩
        rw [hresult', hsent', hwholeResult]
        rfl

/-- A request that stores `v` for `k`. -/
def storeOne : Buffer :=
  .ofBytes (asciiBytes ['#', ':', '2', '~', '#', ':', '1', '~', '#', ':', 'k', '~', '#', ':', '1',
    '~', '#', ':', 'v', '~'])

/-- A peer that has no room at first, takes three of four bytes and closes the connection. The value
is stored all the same. -/
theorem dispatch_ignores_peer_of_closed :
    ∃ table whole d, Table.new unlimited (fun _ => 0) 1 1 = .ok table ∧
      dispatch ⟨1, unlimited⟩ table storeOne .accepting = some whole ∧
      dispatch ⟨1, unlimited⟩ table storeOne
        (.ofSteps [.fails .wouldBlock, .accepts 3, .accepts 0]) = some d ∧
      d.result = .error .connectionClosed ∧ whole.result = .ok () ∧ d.table = whole.table ∧
      d.table.size = 1 ∧ d.sink.accepted <+: whole.sink.accepted := by
  obtain ⟨table, hnew⟩ := Table.new_unlimited (fun _ => 0) 1 1 (by decide) (by decide) (by decide)
  obtain ⟨whole, d, hwhole, hd, htable, -, ⟨part, hpart, htaken⟩, hfatal, -⟩ :=
    dispatch_ignores_peer (Table.sound_of_new hnew) (Table.atRest_of_new hnew) ⟨1, unlimited⟩
      storeOne (.ofSteps [.fails .wouldBlock, .accepts 3, .accepts 0])
  have hevaluated : (dispatch ⟨1, unlimited⟩ table storeOne .accepting).map
      (fun d => (d.result, d.table.size, d.sink.accepted.length)) = some (.ok (), 1, 4) := by
    rw [Table.eq_of_new hnew]
    decide +kernel
  rw [hwhole] at hevaluated
  obtain ⟨hresult, hrest⟩ := Prod.mk.inj (Option.some.inj hevaluated)
  obtain ⟨hsize, hlength⟩ := Prod.mk.inj hrest
  refine ⟨table, whole, d, hnew, hwhole, hd, ?_, hresult, htable, by rw [htable, hsize], ?_⟩
  · refine (hfatal .connectionClosed rfl).mpr ⟨.accepts 0, ?_, rfl⟩
    rw [hlength]
    exact ⟨[.fails .wouldBlock, .accepts 3], [], rfl, by decide, by decide⟩
  · rw [htaken]
    exact hpart

end Server

end KeyValueServer
