import KeyValueServer.Proofs.Server.Frames
import KeyValueServer.Proofs.Store.Overflow
import KeyValueServer.Proofs.Wire.Encoding
import KeyValueServer.Server.Serve
import KeyValueServer.Store.Fingerprint

/-!
# What a server makes of a run of bytes

A server that reads a run of bytes answers the requests in it one after the other, each against the
values as the requests before it have left them. What follows the last request is answered by one
failure, if there is anything, and has no other effect. Values are assumed to be short enough for
their lengths to be written, there is memory for everything, and the receiving end takes all bytes.

No entry may ever have had more shared handles than its lock can count. The lock of one that had
them can be lost for good, and then a server that is asked to store a value there waits for ever.
-/

namespace KeyValueServer

open Function (update)
open Token Session

/-- The status token of success. -/
def successReply : Bytes := asciiBytes ['#', ':', '0', '~']

/-- The status token that answers a request for a missing key, and a request that is cut short. -/
def refusalReply : Bytes := asciiBytes ['#', ':', '2', '2', '~']

/-- The answer to a request when these are the stored values. -/
def Request.reply (stored : Bytes → Option Bytes) : Request → Bytes
  | .get key =>
      match stored key with
      | some value => successReply ++ Token.ofBytes value
      | none => refusalReply
  | .set _ _ => successReply

/-- The stored values after a request. -/
def Request.apply (stored : Bytes → Option Bytes) : Request → Bytes → Option Bytes
  | .get _ => stored
  | .set key value => update stored key (some value)

/-- The stored values after requests one after the other. -/
def applied (stored : Bytes → Option Bytes) (requests : List Request) : Bytes → Option Bytes :=
  requests.foldl Request.apply stored

/-- The answers to requests one after the other. -/
def answers : (Bytes → Option Bytes) → List Request → Bytes
  | _, [] => []
  | stored, request :: rest => request.reply stored ++ answers (request.apply stored) rest

/-- Whether bytes begin with the number of a command that a server carries out. -/
def BeginsWithCommand (bytes : Bytes) : Prop :=
  ∃ n token rest, (n = 1 ∨ n = 2) ∧ IsNat n token ∧ bytes = token ++ rest

/-- The answer to what follows the last request. -/
inductive IsFailureReply : Bytes → Bytes → Prop
  | nothing : IsFailureReply [] []
  | unreadable {rest : Bytes} (hne : rest ≠ []) (hcommand : ¬BeginsWithCommand rest) :
      IsFailureReply rest [0xFF]
  | refused {rest : Bytes} (hcommand : BeginsWithCommand rest) : IsFailureReply rest refusalReply

theorem beginsWithCommand_of_frame {bytes : Bytes} (h : BeginsWithFrame bytes) :
    BeginsWithCommand bytes := by
  obtain ⟨request, frame, rest, hframe, rfl⟩ := h
  cases hframe with
  | get hcode => exact ⟨1, _, _, .inl rfl, hcode, List.append_assoc _ _ _⟩
  | set hcode => exact ⟨2, _, _, .inr rfl, hcode, List.append_assoc _ _ _⟩

theorem ofNat_zero : Token.ofNat 0 = successReply := by
  rw [Token.ofNat, Numeral.decimal]
  decide

theorem ofNat_twentyTwo : Token.ofNat 22 = refusalReply := by
  rw [Token.ofNat, Numeral.decimal, Numeral.decimal]
  decide

/-- A byte string in a buffer of bearable size is found whole. -/
theorem length_lt_of_isString {payload token : Bytes} (h : IsString payload token) (rest : Bytes)
    (hsize : (token ++ rest).length ≤ 10 ^ 16) : payload.length < 10 ^ 16 := by
  obtain ⟨hlength⟩ := h
  simp only [List.length_append, length_enclose, framing] at hsize
  omega

/-- Values that requests of bearable size store are short enough as well. -/
theorem IsFrame.apply_short {request : Request} {frame rest : Bytes} {stored : Bytes → Option Bytes}
    (h : IsFrame request frame) (hsize : (frame ++ rest).length ≤ 10 ^ 16)
    (hshort : ∀ key value, stored key = some value → value.length < 10 ^ 16) :
    ∀ key value, request.apply stored key = some value → value.length < 10 ^ 16 := by
  cases h with
  | get => exact hshort
  | @set key value _ _ _ _ _ hvalue =>
      intro other found hfound
      rw [Request.apply, Function.update_apply] at hfound
      split at hfound
      · obtain rfl := Option.some.inj hfound
        refine length_lt_of_isString hvalue rest ?_
        simp only [List.length_append] at hsize ⊢
        omega
      · exact hshort other found hfound

/-! ## The receiving end -/

/-- A receiving end that takes some of the bytes of every write. -/
def Sink.Accepts (sink : Sink) : Prop := ∀ step ∈ sink.steps, ∃ limit > 0, step = .accepts limit

theorem Sink.sendSteps_of_accepts (steps : List WriteStep)
    (h : ∀ step ∈ steps, ∃ limit > 0, step = .accepts limit) (pending : Bytes) (sink : Sink) :
    ∃ sink', sendSteps steps pending sink = (.ok (), sink') ∧ sink'.Accepts ∧
      sink'.accepted = sink.accepted ++ pending := by
  induction steps generalizing pending sink with
  | nil =>
      cases pending with
      | nil => exact ⟨_, rfl, by simp [Accepts], by simp⟩
      | cons b rest => exact ⟨_, rfl, by simp [Accepts, record], by simp [record]⟩
  | cons step steps ih =>
      cases pending with
      | nil => exact ⟨{ sink with steps := step :: steps }, by rw [sendSteps], h, by simp⟩
      | cons b rest =>
          obtain ⟨limit, hpos, rfl⟩ := h step List.mem_cons_self
          obtain ⟨sink', hsend, haccepts, haccepted⟩ :=
            ih (fun step hstep => h step (List.mem_cons_of_mem _ hstep)) ((b :: rest).drop limit)
              (sink.record (b :: rest) limit steps)
          refine ⟨sink', ?_, haccepts, ?_⟩
          · rw [sendSteps, if_neg hpos.ne', hsend]
            exact List.cons_ne_nil b rest
          · rw [haccepted, record, List.append_assoc, List.take_append_drop]

theorem Sink.Accepts.send {sink : Sink} (h : sink.Accepts) (bytes : Bytes) :
    ∃ sink', sink.send bytes = (.ok (), sink') ∧ sink'.Accepts ∧
      sink'.accepted = sink.accepted ++ bytes :=
  Sink.sendSteps_of_accepts sink.steps h bytes sink

namespace Server

variable {worker : Worker} {table t : Table} {b : Buffer}

theorem report_zero (outcome : Except Error Unit) (rest : Buffer) (t : Table) :
    report 0 outcome rest t = ⟨successReply, outcome, rest, t⟩ := by
  rw [report, statusReply_of_lt (by decide), ofNat_zero]

theorem report_twentyTwo (outcome : Except Error Unit) (rest : Buffer) (t : Table) :
    report 22 outcome rest t = ⟨refusalReply, outcome, rest, t⟩ := by
  rw [report, statusReply_of_lt (by decide), ofNat_twentyTwo]

/-! ## One request -/

theorem answer_of_code_one {code rest : Bytes} (hcode : IsNat 1 code)
    (hb : b.readable = code ++ rest) :
    answer worker t b = answerGet worker t (b.advance code.length) := by
  rw [answer, Buffer.decodeNat_of_isNat hb hcode]
  rfl

theorem answer_of_code_two {code rest : Bytes} (hcode : IsNat 2 code)
    (hb : b.readable = code ++ rest) :
    answer worker t b = answerSet worker t (b.advance code.length) := by
  rw [answer, Buffer.decodeNat_of_isNat hb hcode]
  rfl

theorem decodeBytes_of_size_le {payload token rest : Bytes} (hb : b.readable = token ++ rest)
    (hs : IsString payload token) (hsize : b.size ≤ 10 ^ 16) :
    ∃ span, b.decodeBytes = (.ok span, b.advance token.length) ∧ b.bytesAt span = payload := by
  apply Buffer.decodeBytes_of_isString hb hs
  rw [Buffer.size, hb] at hsize
  have hlength := length_lt_of_isString hs rest hsize
  simp only [framing, wordLimit, UInt64.size]
  omega

theorem answer_of_get {key frame rest : Bytes} (hframe : IsFrame (.get key) frame)
    (hb : b.readable = frame ++ rest) (hsize : b.size ≤ 10 ^ 16)
    (ht : Reachable table HasRoom (opened t)) (hs : table.Sound) (hrest : table.AtRest fun _ => [])
    (hshort : ∀ key value, t.lookup key = some value → value.length < 10 ^ 16) :
    ∃ t', answer worker t b =
        some ⟨(Request.get key).reply t.lookup, .ok (), b.advance frame.length, t'⟩ ∧
      Reachable table HasRoom (opened t') ∧ t'.lookup = t.lookup := by
  cases hframe with
  | @get _ code keyToken hcode hkey =>
      rw [List.append_assoc] at hb
      have hafter := Buffer.readable_advance hb
      obtain ⟨span, hspan, hbytes⟩ :=
        decodeBytes_of_size_le hafter hkey ((b.size_advance_le _).trans hsize)
      rw [Buffer.advance_advance, ← List.length_append] at hspan
      rw [Buffer.bytesAt_advance] at hbytes
      obtain ⟨r, t', hget, hresult⟩ := ht.exists_get hs hrest worker.thread key .shared
      rw [answer_of_code_one hcode hb, answerGet, hspan]
      simp only [Buffer.bytesAt_advance, hbytes, hget, Option.bind_eq_bind, Option.bind_some]
      cases hlookup : t.lookup key with
      | none =>
          rw [hlookup] at hresult
          obtain ⟨rfl, hnext, hkept⟩ := hresult
          refine ⟨t', ?_, hnext, hkept⟩
          simp only [Error.code, report_twentyTwo, Request.reply, hlookup, Option.pure_def]
      | some value =>
          rw [hlookup] at hresult
          obtain ⟨handle, rfl, hvalue, hok, hnext, hkept⟩ := hresult
          refine ⟨_, ?_, hnext, hkept⟩
          rcases hrelease : t'.release worker.thread handle with ⟨result, t''⟩
          rw [hrelease] at hok
          obtain rfl : result = .ok () := hok
          simp only [hrelease, hvalue, valueReply_of_lt (hshort key value hlookup), ofNat_zero,
            Request.reply, hlookup, Option.pure_def]

/-- A request to store a value is answered by what comes of storing it. -/
theorem exists_answer_of_set {key value frame rest : Bytes}
    (hframe : IsFrame (.set key value) frame) (hb : b.readable = frame ++ rest)
    (hsize : b.size ≤ 10 ^ 16) :
    ∃ conclude : Except Error Handle × Table → Option Answer,
      answer worker t b =
        (t.set worker.memory worker.thread key value .exclusive).bind conclude ∧
      ∀ handle t', (t'.release worker.thread handle).1 = .ok () → conclude (.ok handle, t') =
        some ⟨successReply, .ok (), b.advance frame.length,
          (t'.release worker.thread handle).2⟩ := by
  cases hframe with
  | @set _ _ code keyToken valueToken hcode hkey hvalue =>
      simp only [List.append_assoc] at hb
      have hafter := Buffer.readable_advance hb
      have hlast := Buffer.readable_advance hafter
      have hsize' := (b.size_advance_le code.length).trans hsize
      obtain ⟨keySpan, hkeySpan, hkeyBytes⟩ := decodeBytes_of_size_le hafter hkey hsize'
      obtain ⟨valueSpan, hvalueSpan, hvalueBytes⟩ :=
        decodeBytes_of_size_le hlast hvalue ((Buffer.size_advance_le _ _).trans hsize')
      have hend : ((b.advance code.length).advance keyToken.length).advance valueToken.length =
          b.advance (code ++ (keyToken ++ valueToken)).length := by
        simp only [Buffer.advance_advance, List.length_append, Nat.add_assoc]
      simp only [Buffer.bytesAt_advance] at hkeyBytes hvalueBytes
      rw [answer_of_code_two hcode hb, answerSet, hkeySpan]
      simp only [hvalueSpan, hend, Buffer.bytesAt_advance, hkeyBytes, hvalueBytes,
        Option.bind_eq_bind]
      refine ⟨_, rfl, fun handle t' hok => ?_⟩
      rcases hrelease : t'.release worker.thread handle with ⟨result, t''⟩
      rw [hrelease] at hok
      obtain rfl : result = .ok () := hok
      simp only [hrelease, report_zero, Option.pure_def]

theorem answer_of_set {key value frame rest : Bytes} (hframe : IsFrame (.set key value) frame)
    (hb : b.readable = frame ++ rest) (hsize : b.size ≤ 10 ^ 16)
    (ht : Reachable table HasRoom (opened t)) (hs : table.Sound) (hrest : table.AtRest fun _ => [])
    (hmemory : worker.memory = unlimited) :
    ∃ t', answer worker t b = some ⟨successReply, .ok (), b.advance frame.length, t'⟩ ∧
      Reachable table HasRoom (opened t') ∧ t'.lookup = update t.lookup key (some value) := by
  obtain ⟨conclude, hanswer, hconclude⟩ := exists_answer_of_set hframe hb hsize
  obtain ⟨handle, t', hset, hok, hnext, hstored⟩ :=
    ht.exists_set hs hrest worker.thread key value .exclusive
  refine ⟨_, ?_, hnext, hstored⟩
  rw [hanswer, hmemory, hset, Option.bind_some, hconclude handle t' hok]

/-- A request is answered against the stored values, and the read position goes past it. -/
theorem answer_of_frame {request : Request} {frame rest : Bytes} (hframe : IsFrame request frame)
    (hb : b.readable = frame ++ rest) (hsize : b.size ≤ 10 ^ 16)
    (ht : Reachable table HasRoom (opened t)) (hs : table.Sound) (hrest : table.AtRest fun _ => [])
    (hshort : ∀ key value, t.lookup key = some value → value.length < 10 ^ 16)
    (hmemory : worker.memory = unlimited) :
    ∃ t', answer worker t b =
        some ⟨request.reply t.lookup, .ok (), b.advance frame.length, t'⟩ ∧
      Reachable table HasRoom (opened t') ∧ t'.lookup = request.apply t.lookup := by
  cases request with
  | get key => exact answer_of_get hframe hb hsize ht hs hrest hshort
  | set key value => exact answer_of_set hframe hb hsize ht hs hrest hmemory

/-! ## What is no request -/

theorem answer_of_not_command (worker : Worker) (t : Table)
    (hcommand : ¬BeginsWithCommand b.readable) :
    ∃ e rest, answer worker t b = some ⟨[failureMarker], .error e, rest, t⟩ ∧
      e.isFatal = false := by
  by_cases hcode : ∃ n token rest, IsNat n token ∧ b.readable = token ++ rest
  · obtain ⟨n, token, rest, hn, hb⟩ := hcode
    have hget : n ≠ 1 := fun heq => hcommand ⟨n, token, rest, .inl heq, hn, hb⟩
    have hset : n ≠ 2 := fun heq => hcommand ⟨n, token, rest, .inr heq, hn, hb⟩
    refine ⟨.unknownCommand n, b.advance token.length, ?_, rfl⟩
    rw [answer, Buffer.decodeNat_of_isNat hb hn]
    dsimp only
    rw [CommandCode.ofNumber, if_neg hget, if_neg hset]
    split_ifs <;> rfl
  · obtain ⟨fault, hfault⟩ := Buffer.decodeNat_of_not fun n token rest hn hb =>
      hcode ⟨n, token, rest, hn, hb⟩
    refine ⟨.invalidArgument fault, b, ?_, rfl⟩
    rw [answer, hfault]

/-- A command of which a byte string is missing or cut short is refused. -/
theorem answer_of_command_of_not_frame (worker : Worker) (t : Table)
    (hcommand : BeginsWithCommand b.readable) (hframe : ¬BeginsWithFrame b.readable)
    (hsize : b.size ≤ 10 ^ 16) :
    ∃ e rest, answer worker t b = some ⟨refusalReply, .error e, rest, t⟩ ∧ e.isFatal = false := by
  obtain ⟨n, code, rest, hn, hcode, hb⟩ := hcommand
  have hafter := Buffer.readable_advance hb
  rcases hn with rfl | rfl
  · obtain ⟨fault, next, hkey⟩ := Buffer.decodeBytes_of_not fun key keyToken tail hkey htail =>
      hframe ⟨.get key, code ++ keyToken, tail, .get hcode hkey, by
        rw [hb, ← hafter, htail, List.append_assoc]⟩
    refine ⟨.invalidArgument fault, next, ?_, rfl⟩
    rw [answer_of_code_one hcode hb, answerGet, hkey]
    simp only [Error.code, report_twentyTwo]
  · rw [answer_of_code_two hcode hb, answerSet]
    by_cases hkey : ∃ key keyToken tail, IsString key keyToken ∧ rest = keyToken ++ tail
    · obtain ⟨key, keyToken, tail, hkey, rfl⟩ := hkey
      obtain ⟨span, hspan, -⟩ :=
        decodeBytes_of_size_le hafter hkey ((b.size_advance_le _).trans hsize)
      have hlast := Buffer.readable_advance hafter
      obtain ⟨fault, next, hvalue⟩ :=
        Buffer.decodeBytes_of_not fun value valueToken last hvalue htail =>
          hframe ⟨.set key value, code ++ (keyToken ++ valueToken), last,
            .set hcode hkey hvalue, by
              rw [hb, ← hlast, htail, List.append_assoc, List.append_assoc]⟩
      refine ⟨.invalidArgument fault, next, ?_, rfl⟩
      rw [hspan]
      simp only [hvalue, Error.code, report_twentyTwo]
    · obtain ⟨fault, next, hrefused⟩ :=
        Buffer.decodeBytes_of_not fun key keyToken tail hstring htail =>
          hkey ⟨key, keyToken, tail, hstring, by rw [← hafter, htail]⟩
      refine ⟨.invalidArgument fault, next, ?_, rfl⟩
      rw [hrefused]
      simp only [Error.code, report_twentyTwo]

/-- What does not begin with a request is answered by one failure and changes nothing. -/
theorem answer_of_not_frame (worker : Worker) (t : Table) (hne : b.readable ≠ [])
    (hframe : ¬BeginsWithFrame b.readable) (hsize : b.size ≤ 10 ^ 16) :
    ∃ reply e rest, answer worker t b = some ⟨reply, .error e, rest, t⟩ ∧ e.isFatal = false ∧
      IsFailureReply b.readable reply := by
  by_cases hcommand : BeginsWithCommand b.readable
  · obtain ⟨e, rest, hanswer, he⟩ :=
      answer_of_command_of_not_frame worker t hcommand hframe hsize
    exact ⟨_, e, rest, hanswer, he, .refused hcommand⟩
  · obtain ⟨e, rest, hanswer, he⟩ := answer_of_not_command worker t hcommand
    exact ⟨_, e, rest, hanswer, he, .unreadable hne hcommand⟩

/-! ## All requests -/

/-- Where a request was answered without error the rest of the buffer is served. -/
theorem serveBuffer_of_ok {sink : Sink} {d : Dispatched} (hne : b.readable ≠ [])
    (hd : dispatch worker t b sink = some d) (hresult : d.result = .ok ()) :
    serveBuffer worker t b sink = serveBuffer worker d.table d.rest d.sink := by
  have hnonempty : ¬b.isEmpty = true := by simpa [Buffer.isEmpty] using hne
  rw [serveBuffer, if_neg hnonempty]
  split
  next hnone => rw [hd] at hnone; contradiction
  next d' hd' =>
    obtain rfl := Option.some.inj (hd.symm.trans hd')
    split
    · rfl
    next e herror => rw [hresult] at herror; contradiction

/-- An error that the connection survives ends the service of the buffer. -/
theorem serveBuffer_of_error {sink : Sink} {d : Dispatched} {e : Error} (hne : b.readable ≠ [])
    (hd : dispatch worker t b sink = some d) (hresult : d.result = .error e)
    (he : e.isFatal = false) : serveBuffer worker t b sink = some ⟨none, d.table, d.sink⟩ := by
  have hnonempty : ¬b.isEmpty = true := by simpa [Buffer.isEmpty] using hne
  rw [serveBuffer, if_neg hnonempty]
  split
  next hnone => rw [hd] at hnone; contradiction
  next d' hd' =>
    obtain rfl := Option.some.inj (hd.symm.trans hd')
    split
    next hok => rw [hresult] at hok; contradiction
    next e' herror =>
      obtain rfl := Except.error.inj (hresult.symm.trans herror)
      simp [he]

theorem dispatch_of_answer {a : Answer} {sink sink' : Sink} (ha : answer worker t b = some a)
    (hsend : sink.send a.reply = (.ok (), sink')) :
    dispatch worker t b sink = some ⟨a.outcome, a.rest, a.table, sink'⟩ := by
  rw [dispatch, ha]
  simp only [Option.bind_eq_bind, Option.bind_some, hsend, Option.pure_def]

/-- Serving a buffer answers the requests in it and then the rest. -/
theorem serveBuffer_of_isCut {bytes rest : Bytes} {requests : List Request}
    (hcut : IsCut bytes requests rest) (hb : b.readable = bytes) (hsize : b.size ≤ 10 ^ 16)
    (ht : Reachable table HasRoom (opened t)) (hs : table.Sound) (hrest : table.AtRest fun _ => [])
    (hshort : ∀ key value, t.lookup key = some value → value.length < 10 ^ 16)
    (hmemory : worker.memory = unlimited) {sink : Sink} (hsink : sink.Accepts) :
    ∃ served reply, serveBuffer worker t b sink = some served ∧ served.failure = none ∧
      IsFailureReply rest reply ∧
      served.sink.accepted = sink.accepted ++ answers t.lookup requests ++ reply ∧
      Reachable table HasRoom (opened served.table) ∧
      served.table.lookup = applied t.lookup requests := by
  -- On the requests of the cut. What is carried along is that the table is that of a session in
  -- which no handle is kept, and that its values are short.
  induction hcut generalizing b t sink with
  | @rest rest hframe =>
      by_cases hempty : rest = []
      · subst hempty
        refine ⟨⟨none, t, sink⟩, [], ?_, rfl, .nothing, by simp [answers], ht, rfl⟩
        rw [serveBuffer, if_pos (by simp [Buffer.isEmpty, hb])]
      · subst hb
        obtain ⟨reply, e, next, hanswer, he, hreply⟩ :=
          answer_of_not_frame worker t hempty hframe hsize
        obtain ⟨sink', hsend, -, haccepted⟩ := hsink.send reply
        have hserved := serveBuffer_of_error hempty (dispatch_of_answer hanswer hsend) rfl he
        exact ⟨_, reply, hserved, rfl, hreply, by simpa [answers] using haccepted, ht, rfl⟩
  | @frame request frame bytes rest requests hframe hcut ih =>
      have hpos := hframe.length_pos
      have hne : b.readable ≠ [] := by
        rw [hb]
        exact List.ne_nil_of_length_pos (by rw [List.length_append]; omega)
      obtain ⟨t', hanswer, ht', hlookup⟩ :=
        answer_of_frame hframe hb hsize ht hs hrest hshort hmemory
      obtain ⟨sink', hsend, hsink', haccepted⟩ := hsink.send (request.reply t.lookup)
      have hserved := serveBuffer_of_ok hne (dispatch_of_answer hanswer hsend) rfl
      have hafter := Buffer.readable_advance hb
      have hsize' : (b.advance frame.length).size ≤ 10 ^ 16 := by
        rw [Buffer.size, hb, List.length_append] at hsize
        rw [Buffer.size, hafter]
        omega
      have hshort' : ∀ key value, t'.lookup key = some value → value.length < 10 ^ 16 := by
        rw [hlookup]
        rw [Buffer.size, hb] at hsize
        exact hframe.apply_short hsize hshort
      obtain ⟨served, reply, hrun, hfailure, hreply, hall, hreach, hfinal⟩ :=
        ih hafter hsize' ht' hshort' hsink'
      refine ⟨served, reply, by rw [hserved, hrun], hfailure, hreply, ?_, hreach, ?_⟩
      · rw [hall, haccepted, hlookup, answers]
        simp only [List.append_assoc]
      · rw [hfinal, hlookup]
        rfl

theorem not_beginsWithCommand_of_head {d : UInt8} {rest : Bytes} (h : d ≠ ascii '#') :
    ¬BeginsWithCommand (d :: rest) := by
  rintro ⟨n, token, tail, -, ⟨-, -, -, -⟩, heq⟩
  rw [enclose_append] at heq
  exact h (List.cons.inj heq).1

/-! ## The main statement -/

/-- On a table that represents a map, on which no handle is outstanding and no lock ever lost count,
serving a run of bytes answers exactly the requests into which the bytes can be cut, and the rest by
one failure. The table then represents the map with the values of these requests. A read returns no
more than `maxMessage` bytes, which is far below the bound on the run. -/
theorem serveChunk_answers {hash : Bytes → UInt64} {slotBits maxShards : Nat} {table t : Table}
    (hnew : Table.new unlimited hash slotBits maxShards = .ok table)
    (ht : Reachable table HasRoom (opened t)) (reference : Bytes → Option Bytes)
    (hreference : ∀ key, t.lookup key = reference key)
    (hshort : ∀ key value, reference key = some value → value.length < 10 ^ 16) (worker : Worker)
    (hmemory : ∀ request, worker.memory request = true) (chunk : Bytes)
    (hchunk : chunk.length ≤ 10 ^ 16) (sink : Sink) (hsink : sink.Accepts) :
    ∃ requests rest reply served,
      IsCut chunk requests rest ∧
      (∀ requests' rest', IsCut chunk requests' rest' → requests' = requests ∧ rest' = rest) ∧
      IsFailureReply rest reply ∧
      serveChunk worker t chunk sink = some served ∧ served.failure = none ∧
      served.sink.accepted = sink.accepted ++ answers reference requests ++ reply ∧
      Reachable table HasRoom (opened served.table) ∧
      ∀ key, served.table.lookup key = applied reference requests key := by
  obtain rfl : t.lookup = reference := funext hreference
  have hunlimited : worker.memory = unlimited := funext hmemory
  obtain ⟨requests, rest, hcut⟩ := exists_isCut chunk
  obtain ⟨served, reply, hserved, hfailure, hreply, haccepted, hreach, hlookup⟩ :=
    serveBuffer_of_isCut (b := Buffer.ofBytes chunk) hcut rfl hchunk ht (Table.sound_of_new hnew)
      (Table.atRest_of_new hnew) hshort hunlimited hsink
  exact ⟨requests, rest, reply, served, hcut, fun _ _ => hcut.unique, hreply, hserved, hfailure,
    haccepted, hreach, congrFun hlookup⟩

/-- A request that stores `v` for `k`, a request for `k` whose number has a leading zero, and a byte
that begins no request. -/
def storeThenFetch : Bytes :=
  asciiBytes ['#', ':', '2', '~', '#', ':', '1', '~', '#', ':', 'k', '~', '#', ':', '1', '~', '#',
    ':', 'v', '~', '#', ':', '0', '1', '~', '#', ':', '1', '~', '#', ':', 'k', '~', '!']

theorem isString_singleton (d : UInt8) : IsString [d] (enclose [ascii '1'] ++ enclose [d]) := by
  have hlimit : 1 < wordLimit := by decide
  exact .intro (.intro (by decide) (List.all_eq_true.mp (by decide)) rfl hlimit)

theorem isFrame_set_singletons (k v : UInt8) : IsFrame (.set [k] [v]) (enclose [ascii '2'] ++
    (enclose [ascii '1'] ++ enclose [k] ++ (enclose [ascii '1'] ++ enclose [v]))) :=
  .set (.intro (by decide) (List.all_eq_true.mp (by decide)) rfl (by decide)) (isString_singleton k)
    (isString_singleton v)

theorem isCut_storeThenFetch :
    IsCut storeThenFetch [.set [ascii 'k'] [ascii 'v'], .get [ascii 'k']] [ascii '!'] := by
  have hget : IsFrame (.get [ascii 'k'])
      (enclose [ascii '0', ascii '1'] ++ (enclose [ascii '1'] ++ enclose [ascii 'k'])) :=
    .get (.intro (by decide) (List.all_eq_true.mp (by decide)) rfl (by decide))
      (isString_singleton _)
  have hend : ¬BeginsWithFrame [ascii '!'] :=
    mt beginsWithCommand_of_frame (not_beginsWithCommand_of_head (by decide))
  exact .frame (isFrame_set_singletons _ _) (.frame hget (.rest hend))

/-- On a new table the value is stored, found again and sent, and the last byte is refused. -/
theorem serveChunk_answers_of_storeThenFetch :
    ∃ table served, Table.new unlimited fingerprint 4 1 = .ok table ∧
      serveChunk ⟨1, unlimited⟩ table storeThenFetch .accepting = some served ∧
      served.sink.accepted =
        successReply ++ (successReply ++ Token.ofBytes [ascii 'v']) ++ [0xFF] ∧
      served.table.lookup [ascii 'k'] = some [ascii 'v'] := by
  obtain ⟨table, hnew⟩ := Table.new_unlimited fingerprint 4 1 (by decide) (by decide) (by decide)
  obtain ⟨requests, rest, reply, served, -, hunique, hreply, hserved, -, haccepted, -, hlookup⟩ :=
    serveChunk_answers hnew .start (fun _ => none) (congrFun (Table.lookup_of_new hnew)) (by simp)
      ⟨1, unlimited⟩ (fun _ => rfl) storeThenFetch (by decide) .accepting
      (by simp [Sink.Accepts, Sink.accepting, Sink.ofSteps])
  obtain ⟨rfl, rfl⟩ := hunique _ _ isCut_storeThenFetch
  have hmarker : reply = [0xFF] := by
    cases hreply with
    | unreadable => rfl
    | refused hcommand => exact absurd hcommand (not_beginsWithCommand_of_head (by decide))
  refine ⟨table, served, hnew, hserved, ?_, ?_⟩
  · rw [haccepted, hmarker]
    simp [answers, Request.reply, Request.apply, Sink.accepting, Sink.ofSteps]
  · rw [hlookup]
    simp [applied, Request.apply]

/-- A request for whose lock the worker has to wait ends the service of the buffer. -/
theorem serveBuffer_of_waits {sink : Sink} (hne : b.readable ≠ [])
    (hd : dispatch worker t b sink = none) : serveBuffer worker t b sink = none := by
  have hnonempty : ¬b.isEmpty = true := by simpa [Buffer.isEmpty] using hne
  rw [serveBuffer, if_neg hnonempty]
  split
  next => rfl
  next d hd' => rw [hd] at hd'; contradiction

theorem serveChunk_of_waits {key value frame : Bytes} (hframe : IsFrame (.set key value) frame)
    (hsize : frame.length ≤ 10 ^ 16)
    (hwaits : t.set worker.memory worker.thread key value .exclusive = none) (sink : Sink) :
    serveChunk worker t frame sink = none := by
  have hwhole : (Buffer.ofBytes frame).readable = frame ++ [] := (List.append_nil frame).symm
  obtain ⟨conclude, hanswer, -⟩ := exists_answer_of_set hframe hwhole hsize
  refine serveBuffer_of_waits (List.ne_nil_of_length_pos hframe.length_pos) ?_
  rw [dispatch, hanswer, hwaits]
  rfl

/-- A request that stores `w` for `k`. -/
def storeOver : Bytes :=
  asciiBytes ['#', ':', '2', '~', '#', ':', '1', '~', '#', ':', 'k', '~', '#', ':', '1', '~', '#',
    ':', 'w', '~']

/-- After 2²⁹ handles on the entry of `k` were kept at once and none of them could be released, the
table still represents a map, and no handle is outstanding. A worker that is to store another value
for `k` waits for ever. -/
theorem serveChunk_waits_of_overflow :
    ∃ table t, Table.new unlimited (fun _ => 0) 1 1 = .ok table ∧
      Reachable table (fun _ => True) (opened t) ∧
      t.lookup = update (fun _ => none) [ascii 'k'] (some [ascii 'v']) ∧
      IsFrame (.set [ascii 'k'] [ascii 'w']) storeOver ∧
      serveChunk ⟨1, unlimited⟩ t storeOver .accepting = none := by
  obtain ⟨table, hnew⟩ := Table.new_unlimited (fun _ => 0) 1 1 (by decide) (by decide) (by decide)
  obtain ⟨id, t, hreach, hcrowded, hlookup⟩ := exists_lost hnew [ascii 'k'] [ascii 'v']
  have hframe : IsFrame (.set [ascii 'k'] [ascii 'w']) storeOver := isFrame_set_singletons _ _
  have hstored : t.lookup [ascii 'k'] = some [ascii 'v'] := by rw [hlookup, Function.update_self]
  have hroom := hcrowded.length_le_capacityOf hstored
  have hfits : [ascii 'w'].length ≤ t.capacityOf id := hroom
  have hwaits : t.set unlimited 1 [ascii 'k'] [ascii 'w'] .exclusive = none :=
    hcrowded.set_eq_none (Nat.two_pow_pos 29) hfits unlimited 1 .exclusive
  refine ⟨table, t, hnew, hreach, hlookup, hframe, serveChunk_of_waits hframe (by decide) ?_ _⟩
  exact hwaits

end Server

end KeyValueServer
