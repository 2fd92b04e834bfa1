import KeyValueServer.Proofs.Server.Serving
import KeyValueServer.Proofs.Server.Turns

/-!
# What was read, piece by piece

A read returns a piece of what a client has sent, and the requests in a piece are answered on their
own: none spans two pieces. The pieces of all clients, in the order in which they were read, are a
journal. It says what the server has stored, what it has read from each client, and what it has sent
to each.
-/

namespace KeyValueServer

/-! ## What a client has sent -/

/-- The bytes that a read is to return. -/
def ReadStep.bytes : ReadStep → Bytes
  | data bytes => bytes
  | fails _ => []

namespace Source

variable {source : Source} {room : Nat}

/-- What has arrived and was not read yet. -/
def unread (source : Source) : Bytes := source.steps.flatMap ReadStep.bytes

/-- Reads return bytes as long as there are any, and never fail otherwise than by having to wait. -/
def IsPlain (source : Source) : Prop :=
  ∀ step ∈ source.steps, ∃ bytes, bytes ≠ [] ∧ step = .data bytes

theorem IsPlain.arrive (h : source.IsPlain) (bytes : Bytes) : (source.arrive bytes).IsPlain := by
  suffices hall : ∀ steps : List ReadStep, (∀ step ∈ steps, ∃ b, b ≠ [] ∧ step = .data b) →
      ∀ step ∈ ReadStep.arrive bytes steps, ∃ b, b ≠ [] ∧ step = .data b from hall _ h
  intro steps
  fun_induction ReadStep.arrive bytes steps with
  | case1 => exact fun hsteps => hsteps
  | case2 hne => simpa using hne
  | case3 earlier =>
      intro hsteps
      obtain ⟨b, hb, heq⟩ := hsteps _ List.mem_cons_self
      obtain rfl := ReadStep.data.inj heq
      simpa using fun h : earlier = [] => absurd h hb
  | case4 step steps hlast ih =>
      rw [List.forall_mem_cons, List.forall_mem_cons]
      exact fun hsteps => ⟨hsteps.1, ih hsteps.2⟩

theorem unread_arrive (source : Source) (bytes : Bytes) :
    (source.arrive bytes).unread = source.unread ++ bytes := by
  suffices hall : ∀ steps : List ReadStep, (ReadStep.arrive bytes steps).flatMap ReadStep.bytes =
      steps.flatMap ReadStep.bytes ++ bytes from hall _
  intro steps
  fun_induction ReadStep.arrive bytes steps with
  | case1 hempty => simpa using hempty
  | case2 => simp [ReadStep.bytes]
  | case3 => simp [ReadStep.bytes]
  | case4 step steps _ ih => rw [List.flatMap_cons, ih, List.flatMap_cons, List.append_assoc]

/-- A read has to wait, finds the end, or returns the first of the bytes. -/
theorem IsPlain.read_cases (h : source.IsPlain) (hroom : 0 < room) :
    ∃ rest : Source, rest.IsPlain ∧ rest.ended = source.ended ∧
      ((source.read room = (.error .wouldBlock, rest) ∧ source.ended = false ∧
          rest.unread = source.unread) ∨
        (source.read room = (.ok [], rest) ∧ source.ended = true ∧ source.unread = [] ∧
          rest.unread = []) ∨
        ∃ bytes, source.read room = (.ok bytes, rest) ∧ bytes ≠ [] ∧ bytes.length ≤ room ∧
          source.unread = bytes ++ rest.unread) := by
  obtain ⟨steps, ended, calls⟩ := source
  cases steps with
  | nil =>
      refine ⟨⟨[], ended, calls + 1⟩, h, rfl, ?_⟩
      cases ended with
      | false => exact .inl ⟨rfl, rfl, rfl⟩
      | true => exact .inr (.inl ⟨rfl, rfl, rfl, rfl⟩)
  | cons step steps =>
      obtain ⟨⟨bytes, hbytes, rfl⟩, hsteps⟩ := List.forall_mem_cons.mp h
      by_cases hfits : bytes.length ≤ room
      · refine ⟨⟨steps, ended, calls + 1⟩, hsteps, rfl, .inr (.inr ⟨bytes, ?_, hbytes, hfits, rfl⟩)⟩
        rw [Source.read]
        exact if_pos hfits
      · refine ⟨⟨.data (bytes.drop room) :: steps, ended, calls + 1⟩, ?_, rfl,
          .inr (.inr ⟨bytes.take room, ?_, ?_, List.length_take_le _ _, ?_⟩)⟩
        · refine List.forall_mem_cons.mpr ⟨⟨_, ?_, rfl⟩, hsteps⟩
          rw [Ne, List.drop_eq_nil_iff]
          exact hfits
        · rw [Source.read]
          exact if_neg hfits
        · rw [Ne, List.take_eq_nil_iff]
          exact not_or.mpr ⟨hroom.ne', hbytes⟩
        · simp only [unread, List.flatMap_cons, ReadStep.bytes]
          rw [← List.append_assoc, List.take_append_drop]

/-- Reading does not end what a client sends. -/
theorem ended_read (source : Source) (room : Nat) : (source.read room).2.ended = source.ended := by
  unfold Source.read
  split
  · rfl
  · split <;> rfl
  · rfl

theorem IsPlain.read (h : source.IsPlain) (hroom : 0 < room) : (source.read room).2.IsPlain := by
  obtain ⟨rest, hrest, -, ⟨hread, -⟩ | ⟨hread, -⟩ | ⟨bytes, hread, -⟩⟩ := h.read_cases hroom
  all_goals
    rw [hread]
    exact hrest

end Source

/-- A client whose connection is watched when it is asked for, who takes every answer, and whose
bytes can be read. -/
structure Peer.IsPlain (peer : Peer) : Prop where
  pollable : peer.pollable = true
  accepts : peer.sink.Accepts
  source : peer.source.IsPlain

namespace Server

/-! ## The journal -/

/-- A piece of what a client has sent, as one read returned it: the requests into which it is cut,
and the rest, which is refused if it is not empty. -/
structure Piece where
  stream : StreamId
  bytes : Bytes
  requests : List Request
  rest : Bytes
  refusal : Bytes
  nonempty : bytes ≠ []
  bounded : bytes.length ≤ maxMessage
  cut : IsCut bytes requests rest
  refused : IsFailureReply rest refusal

/-- What is sent in answer to a piece when these are the stored values. -/
def Piece.reply (stored : Bytes → Option Bytes) (piece : Piece) : Bytes :=
  answers stored piece.requests ++ piece.refusal

/-- All requests in pieces, one after the other. -/
def requestsOf (journal : List Piece) : List Request := journal.flatMap Piece.requests

/-- What was read from a client. -/
def readFrom (stream : StreamId) (journal : List Piece) : Bytes :=
  (journal.filter fun piece => piece.stream = stream).flatMap Piece.bytes

/-- What is sent to a client when the pieces of all clients are answered one after the other. -/
def repliesTo (stream : StreamId) : (Bytes → Option Bytes) → List Piece → Bytes
  | _, [] => []
  | stored, piece :: rest =>
      (if piece.stream = stream then piece.reply stored else []) ++
        repliesTo stream (applied stored piece.requests) rest

variable {stream : StreamId} {stored : Bytes → Option Bytes} {journal news : List Piece}

theorem applied_append (stored : Bytes → Option Bytes) (requests more : List Request) :
    applied stored (requests ++ more) = applied (applied stored requests) more :=
  List.foldl_append

theorem requestsOf_append (journal news : List Piece) :
    requestsOf (journal ++ news) = requestsOf journal ++ requestsOf news :=
  List.flatMap_append

theorem readFrom_append (stream : StreamId) (journal news : List Piece) :
    readFrom stream (journal ++ news) = readFrom stream journal ++ readFrom stream news := by
  rw [readFrom, List.filter_append, List.flatMap_append]
  rfl

theorem repliesTo_append (stream : StreamId) (stored : Bytes → Option Bytes)
    (journal news : List Piece) :
    repliesTo stream stored (journal ++ news) =
      repliesTo stream stored journal ++
        repliesTo stream (applied stored (requestsOf journal)) news := by
  induction journal generalizing stored with
  | nil => rfl
  | cons piece journal ih =>
      have hstored : applied stored (requestsOf (piece :: journal)) =
          applied (applied stored piece.requests) (requestsOf journal) :=
        applied_append stored piece.requests (requestsOf journal)
      rw [List.cons_append, repliesTo, repliesTo, ih, hstored, List.append_assoc]

theorem readFrom_of_others (h : ∀ piece ∈ journal, piece.stream ≠ stream) :
    readFrom stream journal = [] := by
  rw [readFrom, List.filter_eq_nil_iff.mpr (by simpa using h), List.flatMap_nil]

theorem repliesTo_of_others (h : ∀ piece ∈ journal, piece.stream ≠ stream) :
    repliesTo stream stored journal = [] := by
  induction journal generalizing stored with
  | nil => rfl
  | cons piece journal ih =>
      rw [List.forall_mem_cons] at h
      rw [repliesTo, if_neg h.1, ih h.2, List.nil_append]

/-! ## Reading a piece -/

/-- A table at rest that has these values, all of them short enough to be sent. -/
structure Represents (table t : Table) (stored : Bytes → Option Bytes) : Prop where
  reachable : Session.Reachable table Session.HasRoom (Session.opened t)
  lookup : t.lookup = stored
  short : ∀ key value, stored key = some value → value.length < 10 ^ 16

theorem short_applied {bytes rest : Bytes} {requests : List Request}
    (h : IsCut bytes requests rest) (hsize : bytes.length ≤ 10 ^ 16)
    (hshort : ∀ key value, stored key = some value → value.length < 10 ^ 16) :
    ∀ key value, applied stored requests key = some value → value.length < 10 ^ 16 := by
  induction h generalizing stored with
  | rest => exact hshort
  | frame hframe _ ih =>
      refine ih ?_ (hframe.apply_short hsize hshort)
      rw [List.length_append] at hsize
      omega

/-- However a buffer is served, the receiving end goes on accepting. -/
theorem accepts_serveBuffer {worker : Worker} {t : Table} {b : Buffer} {sink : Sink}
    {served : Served} (h : serveBuffer worker t b sink = some served) (hsink : sink.Accepts) :
    served.sink.Accepts := by
  have hdispatch {t : Table} {b : Buffer} {sink : Sink} {d : Dispatched} (hsink : sink.Accepts)
      (hd : dispatch worker t b sink = some d) : d.sink.Accepts := by
    obtain ⟨answered, -, hd⟩ := Option.bind_eq_some_iff.mp hd
    obtain ⟨sink', hsend, haccepts, -⟩ := hsink.send answered.reply
    rw [hsend] at hd
    exact Option.some.inj hd ▸ haccepts
  fun_induction serveBuffer worker t b sink with
  | case1 => exact Option.some.inj h ▸ hsink
  | case2 => contradiction
  | case3 t b sink _ d hd _ ih => exact ih h (hdispatch hsink hd)
  | case4 t b sink _ d hd => exact Option.some.inj h ▸ hdispatch hsink hd

variable {table t : Table} {worker : Worker} {peer : Peer} {turn : Turn}

/-- A client goes on behaving. -/
theorem isPlain_serveOnce (h : serveOnce worker t peer = some turn) (hpeer : peer.IsPlain) :
    turn.peer.IsPlain := by
  have hsource : turn.peer.source.IsPlain := by
    rw [source_serveOnce h]
    exact hpeer.source.read (by decide)
  unfold serveOnce at h
  split at h
  next =>
    obtain rfl := Option.some.inj h
    exact ⟨hpeer.pollable, hpeer.accepts, hsource⟩
  next =>
    split at h
    · obtain rfl := Option.some.inj h
      exact ⟨hpeer.pollable, hpeer.accepts, hsource⟩
    · obtain ⟨served, hserved, rfl⟩ := Option.map_eq_some_iff.mp h
      exact ⟨hpeer.pollable, accepts_serveBuffer hserved hpeer.accepts, hsource⟩

/-- A piece that was read is answered. -/
theorem Represents.exists_piece (h : Represents table t stored) (hs : table.Sound)
    (hrest : table.AtRest fun _ => []) (hmemory : worker.memory = unlimited) {sink : Sink}
    (hsink : sink.Accepts) (stream : StreamId) {bytes : Bytes} (hbytes : bytes ≠ [])
    (hbounded : bytes.length ≤ maxMessage) :
    ∃ (piece : Piece) (served : Served), piece.stream = stream ∧ piece.bytes = bytes ∧
      serveChunk worker t bytes sink = some served ∧ served.failure = none ∧
      served.sink.accepted = sink.accepted ++ piece.reply stored ∧
      Represents table served.table (applied stored piece.requests) := by
  obtain ⟨hreachable, rfl, hshort⟩ := h
  have hsize : bytes.length ≤ 10 ^ 16 := hbounded.trans (by decide)
  obtain ⟨requests, rest, hcut⟩ := exists_isCut bytes
  obtain ⟨served, refusal, hserved, hfailure, hrefused, haccepted, hreachable', hlookup⟩ :=
    serveBuffer_of_isCut (b := Buffer.ofBytes bytes) hcut rfl hsize hreachable hs hrest hshort
      hmemory hsink
  refine ⟨⟨stream, bytes, requests, rest, refusal, hbytes, hbounded, hcut, hrefused⟩, served, rfl,
    rfl, hserved, hfailure, ?_, hreachable', hlookup, short_applied hcut hsize hshort⟩
  rw [haccepted, Piece.reply, List.append_assoc]

/-- What comes of one read of a client: the pieces that it adds to the journal, no more than one,
and whether the read was the last. -/
structure Turn.Adds (turn : Turn) (table : Table) (peer : Peer) (stored : Bytes → Option Bytes)
    (stream : StreamId) (news : List Piece) : Prop where
  own : ∀ piece ∈ news, piece.stream = stream
  unread : peer.source.unread = readFrom stream news ++ turn.peer.source.unread
  received : turn.peer.received = peer.received ++ repliesTo stream stored news
  represents : Represents table turn.table (applied stored (requestsOf news))
  /-- The connection does not fail. -/
  sound : ∀ fault, turn.outcome ≠ .failed fault
  /-- The worker is told to wait only while the client may send more, -/
  drained : turn.outcome = .drained → peer.source.ended = false
  /-- and that the client has ended only when everything was read. -/
  final : turn.outcome = .ended → peer.source.ended = true ∧ turn.peer.source.unread = []

/-- A client that behaves can always be read, and what was read is answered. -/
theorem Represents.exists_turn (h : Represents table t stored) (hs : table.Sound)
    (hrest : table.AtRest fun _ => []) (hmemory : worker.memory = unlimited)
    (hpeer : peer.IsPlain) (stream : StreamId) :
    ∃ turn news, serveOnce worker t peer = some turn ∧ turn.Adds table peer stored stream news := by
  have hroom : 0 < maxMessage := by decide
  obtain ⟨source, -, -, ⟨hread, hopen, hunread⟩ | ⟨hread, hclosed, hall, hunread⟩ |
    ⟨bytes, hread, hbytes, hbounded, hunread⟩⟩ := hpeer.source.read_cases hroom
  · refine ⟨⟨.drained, t, { peer with source }⟩, [], ?_, by simp, hunread.symm,
      by simp [repliesTo, Peer.received], h, by simp, fun _ => hopen, by simp⟩
    rw [serveOnce, hread]
    rfl
  · refine ⟨⟨.ended, t, { peer with source }⟩, [], ?_, by simp, hall.trans hunread.symm,
      by simp [repliesTo, Peer.received], h, by simp, by simp, fun _ => ⟨hclosed, hunread⟩⟩
    rw [serveOnce, hread]
    rfl
  · obtain ⟨piece, served, hstream, rfl, hserved, hfailure, haccepted, hrepresents⟩ :=
      h.exists_piece hs hrest hmemory hpeer.accepts stream hbytes hbounded
    refine ⟨⟨.more, served.table, { peer with source, sink := served.sink }⟩, [piece], ?_,
      by simpa using hstream, ?_, ?_, ?_, by simp, by simp, by simp⟩
    · rw [serveOnce, hread]
      simp only [if_neg hbytes, hserved, Option.map_some, hfailure]
    · simpa [readFrom, hstream] using hunread
    · simpa [repliesTo, hstream, Peer.received] using haccepted
    · simpa [requestsOf] using hrepresents

end Server

end KeyValueServer
