import KeyValueServer.Proofs.Client.Reception
import KeyValueServer.Proofs.Server.Serving

/-!
# Clients and servers agree

Any clients make requests one at a time. What a client writes is handed whole to a server, and what
the server writes comes back to the client in pieces of any sizes. Each server carries its requests
out on the one table that they all share, which is new at the beginning. Then the client of every
request learns what the requests before it make true: a request that fits no message is refused and
has no effect, a value that is fetched is the one that was last stored successfully, and its answer
fits the client's buffer because the request that stored it fitted a message.
-/

namespace KeyValueServer

open Token

/-- How the requests so far ended, oldest first. -/
abbrev Transcript := List (Request × Except Error (Option Bytes))

/-- The values that were last stored successfully. -/
def Transcript.latest (history : Transcript) : Bytes → Option Bytes :=
  history.foldl (fun stored (request, result) =>
    if result.isOk then request.apply stored else stored) fun _ => none

/-- How a request has to end when these are the stored values. -/
def Request.outcome (stored : Bytes → Option Bytes) (request : Request) :
    Except Error (Option Bytes) :=
  if maxMessage < request.frame.length then .error (.invalidArgument .noRoomForString)
  else match request with
    | .set _ _ => .ok none
    | .get key =>
        match stored key with
        | some value => .ok (some value)
        | none => .error (.status 22)

/-- One more request, which ends as what is stored requires. -/
def Transcript.extend (history : Transcript) (request : Request) : Transcript :=
  history ++ [(request, request.outcome history.latest)]

/-- Requests of which each ends as those before it require. -/
def Transcript.of (requests : List Request) : Transcript := requests.foldl extend []

namespace Client

/-- A client's connection. -/
structure Link where
  sink : Sink
  source : Source

namespace Link

/-- The other end takes what is written, and nothing is on its way back. -/
structure IsQuiet (link : Link) : Prop where
  accepts : link.sink.Accepts
  drained : ReadStep.Deliver link.source.steps []

/-- What a client writes in order to make a request. -/
def written (link : Link) (request : Request) : Bytes :=
  (exchange request link.sink link.source).sink.accepted.drop link.sink.accepted.length

/-- Later reads return more. -/
def receive (link : Link) (steps : List ReadStep) : Link :=
  { link with source := { link.source with steps := link.source.steps ++ steps } }

end Link

/-- A request, who makes it, the server's thread and its end of the connection, and the reads in
which an answer comes back. -/
structure Call where
  client : Nat
  request : Request
  worker : Server.Worker
  sink : Sink
  arrival : Bytes → List ReadStep

/-- There is memory for everything, the server's end takes what is written, and the whole of it
comes back. -/
structure Call.IsFair (call : Call) : Prop where
  memory : ∀ request, call.worker.memory request = true
  accepts : call.sink.Accepts
  delivers : ∀ reply, ReadStep.Deliver (call.arrival reply) reply

/-- The table that the servers share, the connections of the clients, and how their requests ended.
-/
structure Conversation where
  table : Table
  links : Nat → Link
  history : Transcript

namespace Conversation

/-- No request was made yet. -/
def opened (table : Table) (links : Nat → Link) : Conversation := ⟨table, links, []⟩

/-- A request was made over a connection, and the table is now this one. -/
def conclude (c : Conversation) (call : Call) (link : Link) (table : Table) : Conversation :=
  let ended := exchange call.request link.sink link.source
  ⟨table, Function.update c.links call.client ⟨ended.sink, ended.source⟩,
    c.history ++ [(call.request, ended.result)]⟩

/-- Make a request. What the client writes, if anything, is a server's to answer. -/
def perform (c : Conversation) (call : Call) : Option Conversation :=
  let link := c.links call.client
  let frame := link.written call.request
  if frame = [] then some (c.conclude call link c.table)
  else do
    let served ← Server.dispatch call.worker c.table (.ofBytes frame) call.sink
    let reply := served.sink.accepted.drop call.sink.accepted.length
    pure (c.conclude call (link.receive (call.arrival reply)) served.table)

/-- Make requests one after the other. -/
def run (c : Conversation) (calls : List Call) : Option Conversation := calls.foldlM perform c

end Conversation

/-! ## Answers that fit -/

theorem isNat_successReply : IsNat 0 successReply := by
  rw [← ofNat_zero]
  exact isNat_ofNat (by decide)

theorem isNat_refusalReply : IsNat 22 refusalReply := by
  rw [← ofNat_twentyTwo]
  exact isNat_ofNat (by decide)

variable {stored : Bytes → Option Bytes}

/-- The request that stored a value takes up at least the bytes of the answer that returns it. -/
theorem length_answer_le_length_frame (key value : Bytes) :
    (successReply ++ Token.ofBytes value).length ≤ (Request.set key value).frame.length := by
  have hstatus : successReply.length = 4 := rfl
  rw [Request.length_frame_set, List.length_append, hstatus]
  omega

theorem isAnswer_reply {request : Request} (hrequest : request.frame.length ≤ maxMessage)
    (hstored : ∀ key value, stored key = some value →
      (successReply ++ Token.ofBytes value).length ≤ maxMessage) :
    IsAnswer request.wantsValue (request.outcome stored) (request.reply stored) ∧
      (request.reply stored).length ≤ maxMessage := by
  unfold Request.outcome
  rw [if_neg (not_lt.mpr hrequest)]
  cases request with
  | set key value =>
      refine ⟨.done isNat_successReply, ?_⟩
      rw [Request.reply]
      decide
  | get key =>
      cases hfound : stored key with
      | none =>
          simp only [Request.reply, hfound]
          exact ⟨.status (by decide) isNat_refusalReply, by decide⟩
      | some value =>
          have hfits := hstored key value hfound
          have hlimit : maxMessage + framing < wordLimit := by decide
          have hshort := Request.length_le_length_ofBytes value
          rw [List.length_append] at hfits
          simp only [Request.reply, hfound]
          refine ⟨.value isNat_successReply (isString_ofBytes (by omega)) (by omega), ?_⟩
          rwa [List.length_append]

theorem exchange_of_isAnswer {request : Request} {result : Except Error (Option Bytes)}
    {answer : Bytes} {sink : Sink} {source : Source}
    (hfits : request.frame.length ≤ maxMessage)
    (hsink : sink.Accepts) (hsteps : ReadStep.Deliver source.steps answer)
    (hanswer : IsAnswer request.wantsValue result answer) (hlength : answer.length ≤ maxMessage) :
    ∃ sink' rest, exchange request sink source = ⟨result, sink', rest⟩ ∧ sink'.Accepts ∧
      ReadStep.Deliver rest.steps [] := by
  obtain ⟨sink', hsend, haccepts, -⟩ := hsink.send request.frame
  have hne : answer ≠ [] := by
    rintro rfl
    exact absurd hanswer.head? (by simp)
  have hroom : answer.length ≤ (Buffer.ofCapacity maxMessage).free := by
    rwa [Request.free_ofCapacity]
  obtain ⟨rest, hawait, hdrained⟩ :=
    await_of_isAnswer hsteps hanswer hne hroom source.ended source.calls
  refine ⟨sink', rest, ?_, haccepts, hdrained⟩
  rw [exchange_of_send hfits hsend, hawait]

/-! ## One request -/

variable {table : Table} {c : Conversation} {call : Call}

namespace Link

variable {link : Link} {request : Request}

theorem written_of_lt (link : Link) (h : maxMessage < request.frame.length) :
    link.written request = [] := by
  rw [written, exchange_of_lt h, List.drop_length]

theorem written_of_le (hlink : link.sink.Accepts) (h : request.frame.length ≤ maxMessage) :
    link.written request = request.frame := by
  obtain ⟨sink', hsend, -, haccepted⟩ := hlink.send request.frame
  rw [written, exchange_of_send h hsend, haccepted, List.drop_left]

end Link

namespace Conversation

/-- What holds between two requests. -/
structure Settled (table : Table) (c : Conversation) : Prop where
  /-- The servers keep no handle. -/
  reachable : Session.Reachable table Session.HasRoom (Session.opened c.table)
  stored : c.table.lookup = c.history.latest
  /-- What is stored came in a request that fitted. -/
  fits : ∀ key value, c.table.lookup key = some value →
    (Request.set key value).frame.length ≤ maxMessage
  quiet : ∀ client, (c.links client).IsQuiet

/-- A request that does not fit has no effect at all: nothing is written and nothing changes. -/
theorem perform_of_lt (c : Conversation) (h : maxMessage < call.request.frame.length) :
    c.perform call = some { c with
      history := c.history ++ [(call.request, .error (.invalidArgument .noRoomForString))] } := by
  rw [perform, if_pos (Link.written_of_lt _ h), conclude, exchange_of_lt h]
  simp only [Function.update_eq_self]

theorem conclude_of_exchange {link : Link} {result : Except Error (Option Bytes)} {sink : Sink}
    {source : Source} (h : exchange call.request link.sink link.source = ⟨result, sink, source⟩)
    (t : Table) :
    c.conclude call link t = ⟨t, Function.update c.links call.client ⟨sink, source⟩,
      c.history ++ [(call.request, result)]⟩ := by
  rw [conclude, h]

/-- A server answers a request that fits as what is stored requires. -/
theorem Settled.exists_dispatch (hc : Settled table c) (hs : table.Sound)
    (hrest : table.AtRest fun _ => []) (hcall : call.IsFair)
    (h : call.request.frame.length ≤ maxMessage) :
    ∃ served, Server.dispatch call.worker c.table (.ofBytes call.request.frame) call.sink =
        some served ∧
      served.sink.accepted = call.sink.accepted ++ call.request.reply c.table.lookup ∧
      Session.Reachable table Session.HasRoom (Session.opened served.table) ∧
      served.table.lookup = call.request.apply c.table.lookup := by
  have hlimit : maxMessage < 10 ^ 16 := by decide
  have hshort : ∀ key value, c.table.lookup key = some value → value.length < 10 ^ 16 := by
    intro key value hfound
    have hframe := hc.fits key value hfound
    have hvalue := Request.length_le_length_ofBytes value
    rw [Request.length_frame_set] at hframe
    omega
  have hreadable : (Buffer.ofBytes call.request.frame).readable = call.request.frame ++ [] :=
    (List.append_nil _).symm
  obtain ⟨t, hanswer, hreach, hlookup⟩ := Server.answer_of_frame (Request.isFrame_frame h) hreadable
    (h.trans hlimit.le) hc.reachable hs hrest hshort (funext hcall.memory)
  obtain ⟨sink, hsend, -, haccepted⟩ := hcall.accepts.send (call.request.reply c.table.lookup)
  exact ⟨_, Server.dispatch_of_answer hanswer hsend, haccepted, hreach, hlookup⟩

/-- A request that fits ends as what is stored requires, and leaves the connection quiet. -/
theorem Settled.perform_of_le (hc : Settled table c) (hs : table.Sound)
    (hrest : table.AtRest fun _ => []) (hcall : call.IsFair)
    (h : call.request.frame.length ≤ maxMessage) :
    ∃ t links, c.perform call = some ⟨t, links,
        c.history ++ [(call.request, call.request.outcome c.table.lookup)]⟩ ∧
      Session.Reachable table Session.HasRoom (Session.opened t) ∧
      t.lookup = call.request.apply c.table.lookup ∧ ∀ client, (links client).IsQuiet := by
  have hquiet := hc.quiet call.client
  have hwritten := Link.written_of_le hquiet.accepts h
  have hne : call.request.frame ≠ [] :=
    List.ne_nil_of_length_pos (Request.isFrame_frame h).length_pos
  obtain ⟨served, hserved, haccepted, hreach, hlookup⟩ := hc.exists_dispatch hs hrest hcall h
  obtain ⟨hanswer, hlength⟩ := isAnswer_reply h fun key value hfound =>
    (length_answer_le_length_frame key value).trans (hc.fits key value hfound)
  let link := (c.links call.client).receive (call.arrival (call.request.reply c.table.lookup))
  have hsteps : ReadStep.Deliver link.source.steps (call.request.reply c.table.lookup) :=
    hquiet.drained.append (hcall.delivers _)
  have haccepting : link.sink.Accepts := hquiet.accepts
  obtain ⟨sink, rest, hended, haccepts, hdrained⟩ :=
    exchange_of_isAnswer h haccepting hsteps hanswer hlength
  refine ⟨served.table, Function.update c.links call.client ⟨sink, rest⟩, ?_, hreach, hlookup, ?_⟩
  · simp only [perform, hwritten, if_neg hne, hserved, haccepted, List.drop_left,
      Option.bind_eq_bind, Option.bind_some, Option.pure_def]
    rw [conclude_of_exchange hended]
  · intro client
    by_cases hclient : client = call.client
    · rw [hclient, Function.update_self]
      exact ⟨haccepts, hdrained⟩
    · rw [Function.update_of_ne hclient]
      exact hc.quiet client

/-! ## All requests -/

theorem latest_concat (history : Transcript) (request : Request)
    (result : Except Error (Option Bytes)) :
    Transcript.latest (history ++ [(request, result)]) =
      if result.isOk then request.apply history.latest else history.latest := by
  rw [Transcript.latest, List.foldl_append]
  rfl

theorem Settled.perform (hc : Settled table c) (hs : table.Sound)
    (hrest : table.AtRest fun _ => []) (hcall : call.IsFair) :
    ∃ c', c.perform call = some c' ∧ Settled table c' ∧
      c'.history = c.history.extend call.request := by
  by_cases h : call.request.frame.length ≤ maxMessage
  · obtain ⟨t, links, hperform, hreach, hlookup, hquiet⟩ := hc.perform_of_le hs hrest hcall h
    refine ⟨_, hperform, ⟨hreach, ?_, ?_, hquiet⟩, by rw [hc.stored]; rfl⟩
    · rw [hlookup, latest_concat, hc.stored]
      unfold Request.outcome
      rw [if_neg (not_lt.mpr h)]
      cases call.request with
      | set key value => rfl
      | get key => exact (ite_self _).symm
    · rw [hlookup]
      intro key value hfound
      cases hrequest : call.request with
      | get => exact hc.fits key value (by rwa [hrequest] at hfound)
      | set stored newValue =>
          rw [hrequest, Request.apply, Function.update_apply] at hfound
          split at hfound
          next heq =>
            obtain rfl := Option.some.inj hfound
            rw [heq, ← hrequest]
            exact h
          · exact hc.fits key value hfound
  · rw [not_le] at h
    have houtcome : call.request.outcome c.history.latest =
        .error (.invalidArgument .noRoomForString) := if_pos h
    refine ⟨_, perform_of_lt c h, ⟨hc.reachable, ?_, hc.fits, hc.quiet⟩, ?_⟩
    · rw [latest_concat]
      exact hc.stored
    · rw [Transcript.extend, houtcome]

theorem Settled.run (hs : table.Sound) (hrest : table.AtRest fun _ => []) {calls : List Call}
    (hcalls : ∀ call ∈ calls, call.IsFair) (hc : Settled table c) :
    ∃ c', c.run calls = some c' ∧ Settled table c' ∧
      c'.history = (calls.map Call.request).foldl Transcript.extend c.history := by
  induction calls generalizing c with
  | nil => exact ⟨c, rfl, hc, rfl⟩
  | cons call calls ih =>
      obtain ⟨hcall, hothers⟩ := List.forall_mem_cons.mp hcalls
      obtain ⟨next, hperform, hnext, hhistory⟩ := hc.perform hs hrest hcall
      obtain ⟨c', hrun, hc', hhistory'⟩ := ih hothers hnext
      refine ⟨c', ?_, hc', by rw [hhistory', hhistory]; rfl⟩
      rw [Conversation.run, List.foldlM_cons, hperform]
      exact hrun

/-- Requests that any clients make one at a time, through any servers on one new table, all return,
and each ends as the requests before it require. A request that does not fit writes nothing and
leaves everything but the record of its failure as it was, and the answer that carries a stored
value is never longer than the buffer in which a client receives it. -/
theorem history_of_run {hash : Bytes → UInt64} {slotBits maxShards : Nat} {table : Table}
    (hnew : Table.new unlimited hash slotBits maxShards = .ok table) (links : Nat → Link)
    (hlinks : ∀ client, (links client).IsQuiet) (calls : List Call)
    (hcalls : ∀ call ∈ calls, call.IsFair) :
    ∃ c, (opened table links).run calls = some c ∧
      c.history = Transcript.of (calls.map Call.request) ∧
      (∀ call : Call, maxMessage < call.request.frame.length → c.perform call = some { c with
        history := c.history ++ [(call.request, .error (.invalidArgument .noRoomForString))] }) ∧
      ∀ key value, c.table.lookup key = some value →
        ∃ reply, Server.valueReply value = .ok reply ∧ reply.length ≤ maxMessage := by
  have hstart : Settled table (opened table links) :=
    ⟨.start, Table.lookup_of_new hnew, by simp [opened, Table.lookup_of_new hnew], hlinks⟩
  obtain ⟨c, hrun, hc, hhistory⟩ :=
    hstart.run (Table.sound_of_new hnew) (Table.atRest_of_new hnew) hcalls
  refine ⟨c, hrun, hhistory, fun _ => perform_of_lt c, fun key value hfound => ?_⟩
  have hframe := hc.fits key value hfound
  have hanswer := length_answer_le_length_frame key value
  have hshort : value.length < 10 ^ maxDigits := by
    have hlimit : maxMessage < 10 ^ maxDigits := by decide
    have hvalue := Request.length_le_length_ofBytes value
    rw [List.length_append] at hanswer
    omega
  rw [Server.valueReply_of_lt hshort, ofNat_zero]
  exact ⟨_, rfl, hanswer.trans hframe⟩

/-- A call whose answer comes back byte by byte. -/
def bytewise (client : Nat) (request : Request) : Call :=
  ⟨client, request, ⟨1, unlimited⟩, .accepting, List.map fun b => .data [b]⟩

theorem isFair_bytewise (client : Nat) (request : Request) : (bytewise client request).IsFair where
  memory _ := rfl
  accepts := by simp [bytewise, Sink.Accepts, Sink.accepting, Sink.ofSteps]
  delivers reply := by
    induction reply with
    | nil => exact .nothing
    | cons b rest ih => exact .data (List.cons_ne_nil b []) ih

/-- A value that fits no request, one that does, and two clients that ask for keys. -/
theorem history_of_run_of_two_clients :
    ∃ table c, Table.new unlimited fingerprint 4 1 = .ok table ∧
      (opened table fun _ => ⟨.accepting, .idle⟩).run
        [bytewise 0 (.set [1] (List.replicate 4096 0)), bytewise 0 (.set [1] [7]),
          bytewise 1 (.get [1]), bytewise 0 (.get [2])] = some c ∧
      c.history.map Prod.snd = [.error (.invalidArgument .noRoomForString), .ok none,
        .ok (some [7]), .error (.status 22)] := by
  obtain ⟨table, hnew⟩ := Table.new_unlimited fingerprint 4 1 (by decide) (by decide) (by decide)
  obtain ⟨c, hrun, hhistory, -⟩ := history_of_run hnew (fun _ => ⟨.accepting, .idle⟩)
    (fun _ => ⟨by simp [Sink.Accepts, Sink.accepting, Sink.ofSteps], .nothing⟩)
    [bytewise 0 (.set [1] (List.replicate 4096 0)), bytewise 0 (.set [1] [7]),
      bytewise 1 (.get [1]), bytewise 0 (.get [2])]
    (by simp only [List.forall_mem_cons, isFair_bytewise, List.not_mem_nil, false_implies,
      implies_true, and_true])
  have hlarge : maxMessage < (Request.set [1] (List.replicate 4096 0)).frame.length := by
    have hvalue := Request.length_le_length_ofBytes (List.replicate 4096 0)
    rw [List.length_replicate] at hvalue
    rw [Request.length_frame_set, maxMessage]
    omega
  have hbyte : ∀ d : UInt8, (Token.ofBytes [d]).length ≤ 8 := by
    intro d
    have hdigits : (Numeral.decimal 1).length ≤ 1 := Numeral.length_decimal_le le_rfl (by decide)
    rw [length_ofBytes, List.length_singleton, framing]
    omega
  have hset : ¬maxMessage < (Request.set [1] [7]).frame.length := by
    have hkey := hbyte 1
    have hvalue := hbyte 7
    rw [Request.length_frame_set, maxMessage]
    omega
  have hget : ∀ d : UInt8, ¬maxMessage < (Request.get [d]).frame.length := by
    intro d
    have hkey := hbyte d
    rw [Request.length_frame_get, maxMessage]
    omega
  refine ⟨table, c, hnew, hrun, ?_⟩
  rw [hhistory]
  simp only [bytewise, Transcript.of, Transcript.extend, List.map_cons, List.map_nil,
    List.foldl_cons, List.foldl_nil, Request.outcome, hlarge, hset, hget, if_true, if_false]
  rfl

end Conversation

end Client

end KeyValueServer
