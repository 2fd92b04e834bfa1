import KeyValueServer.Proofs.Server.Quiet
import KeyValueServer.Proofs.Wire.InPlace

/-!
# Working a buffer off

A call that answers a request takes at least as many bytes as the shortest request has and never
more than were written, and no call writes to the buffer. So the loop that answers the requests of
a buffer one after the other and drops the rest after an error comes to an end, whatever becomes of
table and connection between the calls.
-/

namespace KeyValueServer

namespace Token

theorem IsNat.le_length {n : Nat} {token : Bytes} (h : IsNat n token) :
    1 + framing ≤ token.length := by
  obtain ⟨hne, -, -, -⟩ := h
  rw [length_enclose]
  exact Nat.add_le_add_right (List.length_pos_iff.mpr hne) _

/-- The shortest request asks for the value of the empty key. -/
def shortestRequest : Bytes := ofNat 1 ++ ofBytes []

theorem length_shortestRequest : shortestRequest.length = 11 := by
  simp [shortestRequest, ofBytes, length_ofNat, length_enclose, Numeral.decimal, framing]

end Token

/-! ## How far a reader goes -/

namespace Buffer

open Token

/-- What is left of a buffer from which at least `least` of the readable bytes were taken and
nothing else was done to it. -/
def Leaves (b : Buffer) (least : Nat) (rest : Buffer) : Prop :=
  ∃ taken, least ≤ taken ∧ taken ≤ b.size ∧ rest = b.advance taken

namespace Leaves

variable {b after rest : Buffer} {least more : Nat}

theorem refl (b : Buffer) : b.Leaves 0 b :=
  ⟨0, Nat.le_refl 0, Nat.zero_le _, by simp [advance]⟩

theorem mono (h : b.Leaves least rest) (hle : more ≤ least) : b.Leaves more rest :=
  let ⟨taken, hleast, hsize, heq⟩ := h
  ⟨taken, hle.trans hleast, hsize, heq⟩

theorem trans (h : b.Leaves least after) (h' : after.Leaves more rest) :
    b.Leaves (least + more) rest := by
  obtain ⟨first, hleast, hsize, rfl⟩ := h
  obtain ⟨second, hmore, hsize', rfl⟩ := h'
  refine ⟨first + second, Nat.add_le_add hleast hmore, ?_, advance_advance b first second⟩
  rw [size, advance, List.length_drop] at hsize'
  rw [size] at hsize ⊢
  omega

theorem of_append {token tail : Bytes} (h : b.readable = token ++ tail)
    (hleast : least ≤ token.length) : b.Leaves least (b.advance token.length) :=
  ⟨token.length, hleast, by simp [size, h], rfl⟩

/-- In its place the buffer differs in the position for reading only, which has not gone past the
one for writing. -/
theorem exists_placement (h : b.Leaves least rest) : ∃ taken, least ≤ taken ∧ taken ≤ b.size ∧
    rest.placement = { b.placement with reading := b.position + taken } := by
  obtain ⟨taken, hleast, hsize, rfl⟩ := h
  refine ⟨taken, hleast, hsize, ?_⟩
  rw [placement_advance, Placement.advance]
  simp only [placement, Placement.mk.injEq, true_and, and_true]
  omega

theorem size_le (h : b.Leaves least rest) : least + rest.size ≤ b.size := by
  obtain ⟨taken, hleast, hsize, rfl⟩ := h
  rw [size] at hsize
  rw [size, size, advance, List.length_drop]
  omega

end Leaves

variable {b rest : Buffer}

theorem leaves_of_decodeNat {n : Nat} (h : b.decodeNat = (.ok n, rest)) : b.Leaves 4 rest := by
  obtain ⟨token, tail, hn, hreadable, rfl⟩ := isNat_of_decodeNat h
  exact .of_append hreadable hn.le_length

/-- The two tokens of the empty byte string have seven bytes. -/
theorem leaves_of_decodeBytes {span : Span} (h : b.decodeBytes = (.ok span, rest)) :
    b.Leaves 7 rest := by
  obtain ⟨payload, size, tail, hsize, -, hreadable, -, rfl⟩ := decodeBytes_eq_ok_iff.mp h
  rw [← List.append_assoc] at hreadable
  refine .of_append hreadable ?_
  have hlength := hsize.le_length
  rw [List.length_append, length_enclose]
  simp only [framing] at hlength ⊢
  omega

theorem leaves_decodeBytes (b : Buffer) : b.Leaves 0 b.decodeBytes.2 := by
  rcases h : b.decodeBytes with ⟨e | span, rest⟩
  · obtain rfl | ⟨n, size, tail, -, hreadable, rfl⟩ := eq_or_eq_advance_of_decodeBytes_eq_error h
    · exact .refl _
    · exact .of_append hreadable (Nat.zero_le _)
  · exact (leaves_of_decodeBytes h).mono (Nat.zero_le _)

end Buffer

namespace Server

open Buffer

variable {worker : Worker} {t : Table} {frame : Buffer} {sink : Sink}

/-! ## How far an answer goes -/

theorem outcome_report_ne_ok (status : Nat) (e : Error) (rest : Buffer) (t : Table) :
    (report status (.error e) rest t).outcome ≠ .ok () := by
  unfold report
  split <;> simp

theorem leaves_answerGet {a : Answer} (h : answerGet worker t frame = some a) :
    frame.Leaves 0 a.rest ∧ (a.outcome = .ok () → frame.Leaves 7 a.rest) := by
  have hrest := rest_answerGet h
  refine ⟨hrest ▸ leaves_decodeBytes frame, fun hok => ?_⟩
  rcases hkey : frame.decodeBytes with ⟨e | key, rest⟩
  · rw [answerGet, hkey] at h
    obtain rfl := Option.some.inj h
    exact absurd hok (outcome_report_ne_ok _ _ _ _)
  · rw [hrest, hkey]
    exact leaves_of_decodeBytes hkey

theorem leaves_answerSet {a : Answer} (h : answerSet worker t frame = some a) :
    frame.Leaves 0 a.rest ∧ (a.outcome = .ok () → frame.Leaves 14 a.rest) := by
  unfold answerSet at h
  have hleaves := leaves_decodeBytes frame
  split at h
  next e rest hkey =>
    obtain rfl := Option.some.inj h
    rw [hkey] at hleaves
    exact ⟨by rwa [rest_report], fun hok => absurd hok (outcome_report_ne_ok _ _ _ _)⟩
  next key after hkey =>
    have hfirst := leaves_of_decodeBytes hkey
    have hsecond := leaves_decodeBytes after
    split at h
    next e rest hvalue =>
      obtain rfl := Option.some.inj h
      rw [hvalue] at hsecond
      rw [rest_report]
      exact ⟨(hfirst.trans hsecond).mono (Nat.zero_le _),
        fun hok => absurd hok (outcome_report_ne_ok _ _ _ _)⟩
    next value rest hvalue =>
      have hboth := hfirst.trans (leaves_of_decodeBytes hvalue)
      suffices hrest : a.rest = rest by
        rw [hrest]
        exact ⟨hboth.mono (Nat.zero_le _), fun _ => hboth⟩
      rw [Option.bind_eq_bind, Option.bind_eq_some_iff] at h
      obtain ⟨⟨result, t'⟩, -, h⟩ := h
      split at h
      · exact (Option.some.inj h) ▸ rest_report _ _ _ _
      · split at h <;> exact (Option.some.inj h) ▸ rest_report _ _ _ _

/-- What is answered without an error took the bytes of the shortest request at least. -/
theorem leaves_answer {a : Answer} (h : answer worker t frame = some a) :
    frame.Leaves 0 a.rest ∧ (a.outcome = .ok () → frame.Leaves 11 a.rest) := by
  unfold answer at h
  split at h
  next e rest hcode =>
    obtain rfl := Option.some.inj h
    rw [eq_of_decodeNat_eq_error hcode]
    exact ⟨.refl frame, by simp⟩
  next code rest hcode =>
    have hfirst := leaves_of_decodeNat hcode
    split at h
    · obtain ⟨hsome, hok⟩ := leaves_answerGet h
      exact ⟨(hfirst.trans hsome).mono (Nat.zero_le _), fun h => hfirst.trans (hok h)⟩
    · obtain ⟨hsome, hok⟩ := leaves_answerSet h
      exact ⟨(hfirst.trans hsome).mono (Nat.zero_le _),
        fun h => (hfirst.trans (hok h)).mono (by decide)⟩
    · obtain rfl := Option.some.inj h
      exact ⟨hfirst.mono (Nat.zero_le _), by simp⟩

theorem leaves_dispatch {d : Dispatched} (h : dispatch worker t frame sink = some d) :
    frame.Leaves 0 d.rest ∧ (d.result = .ok () → frame.Leaves 11 d.rest) := by
  obtain ⟨a, ha, -⟩ := Option.bind_eq_some_iff.mp h
  obtain ⟨d', hd', -, hrest, -, hresult⟩ := exists_dispatch_of_answer ha sink
  obtain rfl := Option.some.inj (h.symm.trans hd')
  obtain ⟨hsome, hok⟩ := leaves_answer ha
  rw [hrest]
  refine ⟨hsome, fun hd => hok ?_⟩
  rw [hresult] at hd
  cases hsent : (sink.send a.reply).1 with
  | error e => rw [hsent] at hd; contradiction
  | ok _ => rw [hsent] at hd; exact hd

/-! ## The loop -/

/-- What is left of the buffer after a call: after an error, nothing. -/
def Dispatched.remaining (d : Dispatched) : Buffer :=
  match d.result with
  | .ok () => d.rest
  | .error _ => d.rest.discard

/-- A call takes eleven bytes or all there are. -/
theorem leaves_remaining {d : Dispatched} (h : dispatch worker t frame sink = some d) :
    frame.Leaves (min 11 frame.size) d.remaining := by
  obtain ⟨⟨taken, -, hsize, hrest⟩, hok⟩ := leaves_dispatch h
  unfold Dispatched.remaining
  split
  next hresult => exact (hok hresult).mono (Nat.min_le_left _ _)
  next e hresult =>
    refine ⟨frame.size, Nat.min_le_right _ _, Nat.le_refl _, ?_⟩
    simp [hrest, Buffer.discard, advance, size]

theorem size_remaining_lt {d : Dispatched} (h : dispatch worker t frame sink = some d)
    (hne : ¬frame.isEmpty = true) : d.remaining.size < frame.size := by
  have hpos : 0 < frame.size := List.length_pos_iff.mpr fun hnil => hne (by simp [isEmpty, hnil])
  have hle := (leaves_remaining h).size_le
  omega

/-- A buffer that was worked off, the number of calls that it took, and what the last one left of
table and connection. -/
structure Drained where
  calls : Nat
  table : Table
  sink : Sink
  frame : Buffer

set_option linter.unusedVariables false in
/-- While there is something to read, answer the next request, and drop the rest after an error.
What happens to table and connection before a call is up to `others`. `calls` counts the calls
already made. -/
def drain (worker : Worker) (others : Nat → Table × Sink → Table × Sink) (calls : Nat)
    (table : Table) (sink : Sink) (frame : Buffer) : Option Drained :=
  if hempty : frame.isEmpty then some ⟨calls, table, sink, frame⟩
  else
    match hd : dispatch worker (others calls (table, sink)).1 frame
        (others calls (table, sink)).2 with
    | none => none
    | some d => drain worker others (calls + 1) d.table d.sink d.remaining
termination_by frame.size
decreasing_by exact size_remaining_lt hd hempty

variable {others : Nat → Table × Sink → Table × Sink} {calls : Nat} {done : Drained}

/-- All was read, and nothing was written. -/
theorem leaves_of_drain (h : drain worker others calls t sink frame = some done) :
    frame.Leaves frame.size done.frame := by
  fun_induction drain worker others calls t sink frame with
  | case1 calls t sink frame hempty =>
      obtain rfl := Option.some.inj h
      have hnil : frame.size = 0 := by simpa [isEmpty, size] using hempty
      rw [hnil]
      exact .refl frame
  | case2 => contradiction
  | case3 calls t sink frame _ d hd ih =>
      obtain ⟨taken, -, hsize, hremaining⟩ := leaves_remaining hd
      have htaken : frame.Leaves taken d.remaining := ⟨taken, Nat.le_refl _, hsize, hremaining⟩
      refine (htaken.trans (ih h)).mono ?_
      rw [hremaining, size, size, advance, List.length_drop]
      omega

/-- Every call but the last takes eleven bytes. -/
theorem calls_drain_le (h : drain worker others calls t sink frame = some done) :
    done.calls ≤ calls + (frame.size + 10) / 11 := by
  fun_induction drain worker others calls t sink frame with
  | case1 calls t sink frame _ =>
      obtain rfl := Option.some.inj h
      exact Nat.le_add_right _ _
  | case2 => contradiction
  | case3 calls t sink frame hne d hd ih =>
      have hcalls := ih h
      have htaken := (leaves_remaining hd).size_le
      have hless := size_remaining_lt hd hne
      omega

theorem drain_of_dispatch {d : Dispatched} (hne : ¬frame.isEmpty = true)
    (hd : dispatch worker (others calls (t, sink)).1 frame (others calls (t, sink)).2 = some d) :
    drain worker others calls t sink frame =
      drain worker others (calls + 1) d.table d.sink d.remaining := by
  rw [drain, dif_neg hne]
  split
  next hnone => rw [hd] at hnone; contradiction
  next d' hd' => obtain rfl := Option.some.inj (hd.symm.trans hd'); rfl

/-- The loop comes to its end as long as no call has to wait. -/
theorem exists_drain {ready : Table → Prop} (hothers : ∀ i s, ready s.1 → ready (others i s).1)
    (hdispatch : ∀ t rest sink, ready t →
      ∃ d, dispatch worker t rest sink = some d ∧ ready d.table) (ht : ready t) :
    ∃ done, drain worker others calls t sink frame = some done := by
  fun_induction drain worker others calls t sink frame with
  | case1 => exact ⟨_, rfl⟩
  | case2 calls t sink frame _ hnone =>
      obtain ⟨d, hd, -⟩ := hdispatch _ frame _ (hothers calls (t, sink) ht)
      rw [hnone] at hd
      contradiction
  | case3 calls t sink frame _ d hd ih =>
      obtain ⟨d', hd', hready⟩ := hdispatch _ frame _ (hothers calls (t, sink) ht)
      obtain rfl := Option.some.inj (hd.symm.trans hd')
      exact ih hready

/-- A worker that nobody comes between serves a buffer by this loop, as long as the connection does
not fail. -/
theorem exists_drain_of_serveBuffer {served : Served} (calls : Nat)
    (h : serveBuffer worker t frame sink = some served) (hserved : served.failure = none) :
    ∃ done, drain worker (fun _ s => s) calls t sink frame = some done ∧
      done.table = served.table ∧ done.sink = served.sink := by
  fun_induction serveBuffer worker t frame sink generalizing calls with
  | case1 t frame sink hempty =>
      obtain rfl := Option.some.inj h
      rw [drain, dif_pos hempty]
      exact ⟨_, rfl, rfl, rfl⟩
  | case2 => contradiction
  | case3 t frame sink hne d hd hok ih =>
      rw [drain_of_dispatch hne hd, Dispatched.remaining, hok]
      exact ih (calls + 1) h
  | case4 t frame sink hne d hd e he =>
      obtain rfl := Option.some.inj h
      have hempty : d.remaining.isEmpty = true := by rw [Dispatched.remaining, he]; rfl
      rw [drain_of_dispatch hne hd, drain, dif_pos hempty]
      exact ⟨_, rfl, rfl, rfl⟩

/-- Whatever is in the buffer and however table and connection behave, a call leaves the storage
and the position for writing as they are and does not move the position for reading past the one for
writing; a call that ends well moves it by the length of the shortest request at least. So the loop
can only end with an empty buffer, after one call for every eleven bytes and one more at most, and
it does end as long as no call has to wait. A worker that nobody comes between serves by this loop
unless the connection fails. -/
theorem dispatch_uses_buffer_up (worker : Worker) (frame : Buffer) :
    (∀ t sink d, dispatch worker t frame sink = some d →
      ∃ taken ≤ frame.size, (d.result = .ok () → Token.shortestRequest.length ≤ taken) ∧
        d.rest.placement =
          { frame.placement with reading := frame.placement.reading + taken }) ∧
    (∀ others t sink done, drain worker others 0 t sink frame = some done →
      done.frame.isEmpty = true ∧
        done.frame.placement = { frame.placement with reading := frame.placement.writing } ∧
        done.calls ≤ frame.size / Token.shortestRequest.length + 1) ∧
    (∀ (ready : Table → Prop) others, (∀ i s, ready s.1 → ready (others i s).1) →
      (∀ t rest sink, ready t → ∃ d, dispatch worker t rest sink = some d ∧ ready d.table) →
      ∀ t sink, ready t → ∃ done, drain worker others 0 t sink frame = some done) ∧
    ∀ t sink served, serveBuffer worker t frame sink = some served → served.failure = none →
      ∃ done, drain worker (fun _ s => s) 0 t sink frame = some done ∧
        done.table = served.table ∧ done.sink = served.sink := by
  refine ⟨fun t sink d hd => ?_, fun others t sink done hdone => ?_,
    fun ready others hothers hdispatch t sink ht => exists_drain hothers hdispatch ht,
    fun t sink served hserve hserved => exists_drain_of_serveBuffer 0 hserve hserved⟩
  · rw [Token.length_shortestRequest]
    obtain ⟨hsome, hok⟩ := leaves_dispatch hd
    cases hresult : d.result with
    | error e =>
        obtain ⟨taken, -, hsize, hplacement⟩ := hsome.exists_placement
        exact ⟨taken, hsize, by simp, hplacement⟩
    | ok _ =>
        obtain ⟨taken, hleast, hsize, hplacement⟩ := (hok hresult).exists_placement
        exact ⟨taken, hsize, fun _ => hleast, hplacement⟩
  · have hleaves := leaves_of_drain hdone
    have hempty : done.frame.size = 0 := by
      have := hleaves.size_le
      omega
    obtain ⟨taken, hleast, hsize, hplacement⟩ := hleaves.exists_placement
    obtain rfl := Nat.le_antisymm hsize hleast
    have hcalls := calls_drain_le hdone
    rw [Token.length_shortestRequest]
    exact ⟨by simpa [isEmpty, size] using hempty, hplacement, by omega⟩

/-- Two of the shortest requests and a byte that begins no request. -/
def briefest : Buffer :=
  .ofBytes (Token.shortestRequest ++ Token.shortestRequest ++ [ascii '!'])

/-- On a new table the first call takes no more than eleven bytes. The loop ends after three calls
at most. -/
theorem dispatch_uses_buffer_up_of_briefest :
    ∃ table d done, Table.new unlimited (fun _ => 0) 1 1 = .ok table ∧
      dispatch ⟨1, unlimited⟩ table briefest .accepting = some d ∧ d.result = .ok () ∧
      d.rest.position = 11 ∧
      drain ⟨1, unlimited⟩ (fun _ s => s) 0 table .accepting briefest = some done ∧
      done.frame.isEmpty = true ∧ done.calls ≤ 3 := by
  obtain ⟨table, hnew⟩ := Table.new_unlimited (fun _ => 0) 1 1 (by decide) (by decide) (by decide)
  have hquiet := Table.quiet_of_new hnew
  obtain ⟨-, hends, hexists, -⟩ := dispatch_uses_buffer_up ⟨1, unlimited⟩ briefest
  obtain ⟨d, hd, -⟩ := hquiet.exists_dispatch ⟨1, unlimited⟩ briefest .accepting
  have hevaluated : (dispatch ⟨1, unlimited⟩ table briefest .accepting).map
      (fun d => (d.result, d.rest.position)) = some (.ok (), 11) := by
    rw [Table.eq_of_new hnew]
    decide +kernel
  rw [hd] at hevaluated
  obtain ⟨hresult, hposition⟩ := Prod.mk.inj (Option.some.inj hevaluated)
  obtain ⟨done, hdone⟩ := hexists Table.Quiet (fun _ s => s) (fun _ _ h => h)
    (fun t rest sink h => h.exists_dispatch _ rest sink) table .accepting hquiet
  obtain ⟨hempty, -, hcalls⟩ := hends _ _ _ _ hdone
  have hsize : briefest.size = 23 := by
    simp [briefest, Buffer.ofBytes, size, Token.length_shortestRequest]
  rw [hsize, Token.length_shortestRequest] at hcalls
  exact ⟨table, d, done, hnew, hd, hresult, hposition, hdone, hempty, hcalls⟩

end Server

end KeyValueServer
