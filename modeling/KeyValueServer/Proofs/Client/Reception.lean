import KeyValueServer.Proofs.Client.Answers
import KeyValueServer.Proofs.Client.Requests

/-!
# Answers that arrive in pieces

A client reads its answer anew after every arrival and takes bytes that it cannot read for an answer
of which the rest is still to come. This is sound because bytes that can be read are read in the
same way when more bytes follow them. The result of a request is therefore a function of the stream
that comes back, whatever the sizes of the reads and however often they are interrupted.
-/

namespace KeyValueServer

open Token

/-- These reads return a stream in non-empty pieces, and between the pieces some are interrupted. -/
inductive ReadStep.Deliver : List ReadStep → Bytes → Prop
  | nothing : Deliver [] []
  | data {bytes rest : Bytes} {steps : List ReadStep} (hne : bytes ≠ []) (h : Deliver steps rest) :
      Deliver (.data bytes :: steps) (bytes ++ rest)
  | interrupted {fault : IoFault} {rest : Bytes} {steps : List ReadStep}
      (hf : fault.isInterrupted = true) (h : Deliver steps rest) :
      Deliver (.fails fault :: steps) rest

theorem ReadStep.Deliver.append {first second : List ReadStep} {bytes more : Bytes}
    (h : Deliver first bytes) (h' : Deliver second more) :
    Deliver (first ++ second) (bytes ++ more) := by
  induction h with
  | nothing => exact h'
  | data hne _ ih =>
      rw [List.append_assoc]
      exact .data hne ih
  | interrupted hf _ ih => exact .interrupted hf ih

/-- What the client makes of a stream that ends after these bytes. It looks at no more of them than
fill its buffer. -/
def Request.verdict (request : Request) (stream : Bytes) : Except Error (Option Bytes) :=
  let seen := stream.take maxMessage
  if seen.head? = some failureMarker then .error (.unknownCommand request.code.number)
  else match readAnswer request.wantsValue (.ofBytes seen) with
    | .error (.invalidArgument fault) =>
        if maxMessage ≤ stream.length then .error (.invalidArgument fault)
        else .error .connectionClosed
    | result => result

/-- These bytes do not decide the answer yet. -/
structure Request.Awaits (request : Request) (arrived : Bytes) : Prop where
  unmarked : arrived.head? ≠ some failureMarker
  unread : ∃ fault, readAnswer request.wantsValue (.ofBytes arrived) =
    .error (.invalidArgument fault)

/-! ## What the client knows after a read -/

namespace Client

variable {request : Request} {arrived : Buffer} {source rest : Source} {stream : Bytes}

theorem judge_eq_none (h : judge request arrived = none) :
    request.Awaits arrived.readable ∧ 0 < arrived.free := by
  unfold judge at h
  split at h
  · contradiction
  next hmarker =>
    split at h
    next fault hread =>
      split at h
      · contradiction
      next hfree =>
        refine ⟨⟨?_, fault, hread⟩, Nat.pos_of_ne_zero hfree⟩
        rwa [Buffer.peek, ← List.head?_eq_getElem?] at hmarker
    · contradiction

/-- A judgement is final: it is the verdict on every stream that begins with what has arrived. -/
theorem judge_eq_some {result : Except Error (Option Bytes)}
    (h : judge request arrived = some result) (hne : arrived.readable ≠ [])
    (hsize : arrived.readable.length + arrived.free = maxMessage) (stream : Bytes) :
    request.verdict (arrived.readable ++ stream) = result := by
  have hseen : (arrived.readable ++ stream).take maxMessage =
      arrived.readable ++ stream.take (maxMessage - arrived.readable.length) := by
    rw [List.take_append, List.take_of_length_le (by omega)]
  have hhead : ((arrived.readable ++ stream).take maxMessage).head? = arrived.peek 0 := by
    obtain ⟨d, tail, hcons⟩ := List.exists_cons_of_ne_nil hne
    rw [hseen, Buffer.peek, hcons]
    rfl
  unfold judge at h
  rw [Request.verdict, hhead]
  split at h
  next hmarker =>
    rw [if_pos hmarker]
    exact Option.some.inj h
  next hmarker =>
    rw [if_neg hmarker]
    split at h
    next fault hread =>
      split at h
      · have hfull : maxMessage - arrived.readable.length = 0 := by omega
        rw [hseen, hfull, List.take_zero, List.append_nil, hread]
        dsimp only
        rw [if_pos (by rw [List.length_append]; omega)]
        exact Option.some.inj h
      · contradiction
    next hread =>
      rw [hseen, readAnswer_append hread]
      split
      next fault hfault => exact absurd hfault (hread fault)
      · exact Option.some.inj h

theorem verdict_of_awaits (h : request.Awaits stream) (hshort : stream.length < maxMessage) :
    request.verdict stream = .error .connectionClosed := by
  obtain ⟨hmarker, fault, hread⟩ := h
  have hseen : stream.take maxMessage = stream := List.take_of_length_le hshort.le
  rw [Request.verdict, hseen, if_neg hmarker, hread]
  exact if_neg (not_le.mpr hshort)

/-! ## One read -/

theorem await_of_end (h : source.read arrived.free = (.ok [], rest)) :
    await request arrived source = (.error .connectionClosed, rest) := by
  rw [await]
  split
  next hread => rw [h] at hread; simp at hread
  next bytes rest' hread =>
    obtain ⟨hbytes, rfl⟩ := Prod.mk.inj (h.symm.trans hread)
    obtain rfl := Except.ok.inj hbytes
    rfl

theorem await_of_interrupted {fault : IoFault}
    (h : source.read arrived.free = (.error fault, rest)) (hf : fault.isInterrupted = true) :
    await request arrived source = await request arrived rest := by
  rw [await]
  split
  next fault' rest' hread =>
    obtain ⟨hfault, rfl⟩ := Prod.mk.inj (h.symm.trans hread)
    obtain rfl := Except.error.inj hfault
    rw [dif_pos hf]
  next hread => rw [h] at hread; simp at hread

theorem await_of_bytes {bytes : Bytes} (h : source.read arrived.free = (.ok bytes, rest))
    (hne : bytes ≠ []) :
    await request arrived source =
      match judge request (arrived.fill bytes) with
      | some result => (result, rest)
      | none => await request (arrived.fill bytes) rest := by
  rw [await]
  split
  next hread => rw [h] at hread; simp at hread
  next bytes' rest' hread =>
    obtain ⟨hbytes, rfl⟩ := Prod.mk.inj (h.symm.trans hread)
    obtain rfl := Except.ok.inj hbytes
    exact dif_neg hne

theorem read_data {bytes : Bytes} {room : Nat} (h : bytes.length ≤ room) (steps : List ReadStep)
    (ended : Bool) (calls : Nat) :
    (⟨.data bytes :: steps, ended, calls⟩ : Source).read room =
      (.ok bytes, ⟨steps, ended, calls + 1⟩) :=
  if_pos h

theorem readable_fill (b : Buffer) {bytes : Bytes} (h : bytes.length ≤ b.free) :
    (b.fill bytes).readable = b.readable ++ bytes := by
  rw [Buffer.fill, Buffer.append, List.take_of_length_le h]

theorem length_fill (b : Buffer) {bytes : Bytes} (h : bytes.length ≤ b.free) :
    (b.fill bytes).readable.length + (b.fill bytes).free = b.readable.length + b.free := by
  rw [readable_fill b h, Buffer.fill, Buffer.free_append, List.take_of_length_le h,
    List.length_append]
  omega

/-! ## All reads -/

/-- Of a stream that ends the client makes its verdict. -/
theorem await_eq_verdict {steps : List ReadStep} (hsteps : ReadStep.Deliver steps stream)
    (hsize : arrived.readable.length + arrived.free = maxMessage) (hfree : 0 < arrived.free)
    (hawaits : request.Awaits arrived.readable) (calls : Nat) :
    (await request arrived ⟨steps, true, calls⟩).1 =
      request.verdict (arrived.readable ++ stream) := by
  -- On the reads. What has arrived has room left and does not decide the answer; a read that fills
  -- the buffer decides it, so the rest of a piece that does not fit is never read.
  induction hsteps generalizing arrived calls with
  | nothing =>
      have hread : (⟨[], true, calls⟩ : Source).read arrived.free =
          (.ok [], ⟨[], true, calls + 1⟩) := by simp [Source.read]
      rw [List.append_nil, await_of_end hread]
      exact (verdict_of_awaits hawaits (by omega)).symm
  | interrupted hf _ ih =>
      rw [await_of_interrupted rfl hf]
      exact ih hsize hfree hawaits _
  | @data bytes stream steps hne _ ih =>
      by_cases hfits : bytes.length ≤ arrived.free
      · have hreadable := readable_fill arrived hfits
        have hsize' := (length_fill arrived hfits).trans hsize
        rw [await_of_bytes (read_data hfits steps true calls) hne, ← List.append_assoc, ← hreadable]
        cases hjudge : judge request (arrived.fill bytes) with
        | some result =>
            refine (judge_eq_some hjudge ?_ hsize' stream).symm
            rw [hreadable]
            exact List.append_ne_nil_of_right_ne_nil _ hne
        | none =>
            obtain ⟨hawaits', hfree'⟩ := judge_eq_none hjudge
            exact ih hsize' hfree' hawaits' _
      · have hread : (⟨.data bytes :: steps, true, calls⟩ : Source).read arrived.free =
            (.ok (bytes.take arrived.free),
              ⟨.data (bytes.drop arrived.free) :: steps, true, calls + 1⟩) := by
          simp [Source.read, hfits]
        have hlength : (bytes.take arrived.free).length = arrived.free := by
          rw [List.length_take]
          omega
        have hpiece : bytes.take arrived.free ≠ [] :=
          List.ne_nil_of_length_pos (by rw [hlength]; exact hfree)
        have hreadable := readable_fill arrived hlength.le
        have hsize' := (length_fill arrived hlength.le).trans hsize
        rw [await_of_bytes hread hpiece]
        cases hjudge : judge request (arrived.fill (bytes.take arrived.free)) with
        | some result =>
            have hverdict := judge_eq_some hjudge
              (by rw [hreadable]; exact List.append_ne_nil_of_right_ne_nil _ hpiece) hsize'
              (bytes.drop arrived.free ++ stream)
            rw [hreadable, List.append_assoc, ← List.append_assoc (bytes.take arrived.free),
              List.take_append_drop] at hverdict
            exact hverdict.symm
        | none =>
            obtain ⟨-, hfree'⟩ := judge_eq_none hjudge
            rw [hreadable, List.length_append, hlength] at hsize'
            omega

theorem awaits_nil (request : Request) : request.Awaits [] where
  unmarked := by simp
  unread := ⟨.truncatedInteger, by cases request <;> rfl⟩

/-- The result of a request that fits a message and was sent is the verdict on the stream that comes
back before the connection ends: the marker of failure comes first, then an answer that can be read,
and otherwise it matters only whether the stream would have filled the buffer. -/
theorem exchange_eq_verdict (request : Request) (hfits : request.frame.length ≤ maxMessage)
    (sink : Sink) (hsent : (sink.send request.frame).1 = .ok ()) (source : Source)
    (stream : Bytes) (hsteps : ReadStep.Deliver source.steps stream) (hend : source.ended = true) :
    (exchange request sink source).result = request.verdict stream := by
  rcases hsend : sink.send request.frame with ⟨result, sink'⟩
  rw [hsend] at hsent
  obtain rfl : result = .ok () := hsent
  obtain ⟨steps, ended, calls⟩ := source
  obtain rfl : ended = true := hend
  have hfree : 0 < (Buffer.ofCapacity maxMessage).free := by
    rw [Request.free_ofCapacity]
    decide
  rw [exchange_of_send hfits hsend]
  exact await_eq_verdict hsteps (Request.length_ofCapacity maxMessage) hfree (awaits_nil request)
    calls

/-- A value whose answer is cut within both of its tokens, with an interruption between the pieces.
-/
theorem exchange_eq_verdict_of_short_reads :
    (exchange (.get [ascii 'k']) .accepting (.ofSteps
      [.data (asciiBytes ['#', ':', '0']), .fails .interrupted,
        .data (asciiBytes ['~', '#', ':', '1']),
       .data (asciiBytes ['~', '#', ':', 'v', '~'])])).result =
      .ok (some [ascii 'v']) := by
  have hfits : (Request.get [ascii 'k']).frame.length ≤ maxMessage := by
    have hdigits : (Numeral.decimal 1).length ≤ 1 := Numeral.length_decimal_le le_rfl (by decide)
    simp only [Request.length_frame_get, length_ofBytes, framing, maxMessage, List.length_cons,
      List.length_nil, zero_add]
    omega
  have hsent : ∀ bytes, (Sink.accepting.send bytes).1 = .ok () := by
    intro bytes
    cases bytes <;> rfl
  rw [exchange_eq_verdict _ hfits _ (hsent _) _ _ (.data (by decide) (.interrupted rfl
    (.data (by decide) (.data (by decide) .nothing)))) rfl]
  decide

/-! ## A stream that is one answer -/

variable {answer : Bytes} {result : Except Error (Option Bytes)}

/-- A part of an answer does not decide it. -/
theorem awaits_of_isAnswer {part rest : Bytes}
    (h : IsAnswer request.wantsValue result (part ++ rest)) (hne : rest ≠ []) :
    request.Awaits part where
  unmarked hmarker := by
    have hhead := h.head?
    rw [List.head?_append, hmarker] at hhead
    exact absurd (Option.some.inj hhead) (by decide)
  unread := by
    by_contra hread
    push Not at hread
    obtain ⟨answer, tail, rfl, hanswer⟩ := isAnswer_of_readAnswer hread
    have hwhole : (answer ++ tail ++ rest) ++ [] = answer ++ (tail ++ rest) := by
      rw [List.append_nil, List.append_assoc]
    obtain ⟨-, hnothing⟩ := h.unique hanswer hwhole
    exact hne (List.append_eq_nil_iff.mp hnothing.symm).2

theorem judge_of_awaits (h : request.Awaits arrived.readable) (hfree : 0 < arrived.free) :
    judge request arrived = none := by
  obtain ⟨hmarker, fault, hread⟩ := h
  rw [judge, Buffer.peek, ← List.head?_eq_getElem?, if_neg hmarker, hread]
  exact if_neg hfree.ne'

theorem judge_of_isAnswer (h : IsAnswer request.wantsValue result arrived.readable) :
    judge request arrived = some result := by
  have hread := readAnswer_of_isAnswer h []
  rw [List.append_nil] at hread
  have hmarker : arrived.peek 0 ≠ some failureMarker := by
    rw [Buffer.peek, ← List.head?_eq_getElem?, h.head?]
    decide
  rw [judge, if_neg hmarker, hread]
  split
  next fault => exact absurd rfl (h.ne_invalidArgument fault)
  · rfl

/-- The client reads an answer to its end and no further. -/
theorem await_of_isAnswer {steps : List ReadStep} (hsteps : ReadStep.Deliver steps stream)
    (hanswer : IsAnswer request.wantsValue result (arrived.readable ++ stream)) (hne : stream ≠ [])
    (hroom : stream.length ≤ arrived.free) (ended : Bool) (calls : Nat) :
    ∃ rest, await request arrived ⟨steps, ended, calls⟩ = (result, rest) ∧
      ReadStep.Deliver rest.steps [] := by
  -- On the reads. As long as something is still to come, what has arrived is a part of the answer.
  induction hsteps generalizing arrived calls with
  | nothing => contradiction
  | interrupted hf _ ih =>
      rw [await_of_interrupted rfl hf]
      exact ih hanswer hne hroom _
  | @data bytes stream steps hbytes hsteps ih =>
      rw [List.length_append] at hroom
      have hfits : bytes.length ≤ arrived.free := by omega
      have hreadable := readable_fill arrived hfits
      have hfree := length_fill arrived hfits
      rw [hreadable, List.length_append] at hfree
      rw [← List.append_assoc, ← hreadable] at hanswer
      rw [await_of_bytes (read_data hfits steps ended calls) hbytes]
      by_cases hlast : stream = []
      · subst hlast
        rw [List.append_nil] at hanswer
        rw [judge_of_isAnswer hanswer]
        exact ⟨_, rfl, hsteps⟩
      · have hpos := List.length_pos_iff.mpr hlast
        rw [judge_of_awaits (awaits_of_isAnswer hanswer hlast) (by omega)]
        exact ih hanswer hlast (by omega) _

end Client

end KeyValueServer
