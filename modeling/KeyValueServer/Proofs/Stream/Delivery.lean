import KeyValueServer.Stream.Patience
import Mathlib.Data.List.Infix
import Mathlib.Data.List.TakeDrop

/-!
# Sending delivers exactly once

Sending makes one write call after the other. Each offers what earlier calls have not taken, and
the calls end with the one that takes the last byte or the first that fails for good. So
the receiving end has a prefix of the bytes, each once and in order, whatever it did with
the single writes.
-/

namespace KeyValueServer

namespace WriteStep

/-- How many of the bytes offered a write takes, if that many were offered. -/
def taken : WriteStep → Nat
  | accepts limit => limit
  | fails _ => 0

/-- The error with which sending ends at a write. -/
def failure : WriteStep → Option Error
  | accepts limit => if limit = 0 then some .connectionClosed else none
  | fails fault =>
      if fault.isInterrupted || fault.isWouldBlock then none else some (.io fault)

/-- Whether a write found no room at all for now. -/
def findsNoRoom : WriteStep → Bool
  | accepts _ => false
  | fails fault => fault.isWouldBlock

theorem taken_of_failure {step : WriteStep} {e : Error} (h : step.failure = some e) :
    step.taken = 0 := by
  cases step with
  | accepts limit =>
      rw [failure] at h
      split at h
      · assumption
      · cases h
  | fails fault => rfl

theorem failure_eq_connectionClosed {step : WriteStep} :
    step.failure = some .connectionClosed ↔ step = .accepts 0 := by
  cases step <;> simp [failure]

theorem failure_eq_io {step : WriteStep} {fault : IoFault} :
    step.failure = some (.io fault) ↔
      step = .fails fault ∧ fault.isInterrupted = false ∧ fault.isWouldBlock = false := by
  cases step with
  | accepts limit => simp [failure]
  | fails found =>
      rw [failure, WriteStep.fails.injEq]
      constructor
      · intro h
        split at h
        · cases h
        · next hlasting =>
            obtain rfl : found = fault := by simpa using h
            simpa using hlasting
      · rintro ⟨rfl, hnot, hnot'⟩
        simp [hnot, hnot']

theorem isFatal_of_failure {step : WriteStep} {e : Error} (h : step.failure = some e) :
    e.isFatal = true := by
  cases step with
  | accepts limit =>
      rw [failure] at h
      split at h
      · obtain rfl : Error.connectionClosed = e := by simpa using h
        rfl
      · cases h
  | fails fault =>
      rw [failure] at h
      split at h
      · cases h
      · obtain rfl : Error.io fault = e := by simpa using h
        rfl

end WriteStep

namespace Patience

theorem backoffStart_le_backoffMax : backoffStart ≤ backoffMax := by decide

/-- The pauses lie between the first and the longest. -/
def Bounded (patience : Patience) : Prop :=
  (backoffStart ≤ patience.backoff ∧ patience.backoff ≤ backoffMax) ∧
    ∀ pause ∈ patience.pauses, backoffStart ≤ pause ∧ pause ≤ backoffMax

theorem Bounded.relieved {patience : Patience} (h : patience.Bounded) :
    patience.relieved.Bounded :=
  ⟨⟨Nat.le_refl _, backoffStart_le_backoffMax⟩, h.2⟩

theorem bounded_fresh : fresh.Bounded :=
  ⟨⟨Nat.le_refl _, backoffStart_le_backoffMax⟩, by simp [fresh]⟩

theorem Bounded.pause {patience : Patience} (h : patience.Bounded) (since : Nat) :
    (patience.pause since).Bounded := by
  obtain ⟨⟨hlow, hhigh⟩, hpauses⟩ := h
  refine ⟨⟨?_, Nat.min_le_right _ _⟩, ?_⟩
  · exact Nat.le_min.mpr ⟨by omega, backoffStart_le_backoffMax⟩
  · intro pause hpause
    rcases List.mem_append.mp hpause with hold | hnew
    · exact hpauses pause hold
    · rw [List.mem_singleton.mp hnew]
      exact ⟨hlow, hhigh⟩

end Patience

namespace Sink

/-- How many bytes the writes take together. -/
def taken : List WriteStep → Nat
  | [] => 0
  | step :: steps => step.taken + taken steps

@[simp] theorem taken_nil : taken [] = 0 := rfl

@[simp] theorem taken_cons (step : WriteStep) (steps : List WriteStep) :
    taken (step :: steps) = step.taken + taken steps := rfl

/-- Sending `length` bytes gets as far as one of the writes: none before it failed for good, and
they did not take all of the bytes. -/
def Reaches (steps : List WriteStep) (length : Nat) (step : WriteStep) : Prop :=
  ∃ before after, steps = before ++ step :: after ∧
    (∀ earlier ∈ before, earlier.failure = none) ∧ taken before < length

/-- What the write calls have to do with the bytes sent. -/
structure Course (sink : Sink) (bytes : Bytes) (calls : List WriteStep) (after : Sink) : Prop where
  /-- The writes go as the receiving end has it: as it lists them, then whole. -/
  made : calls <+: sink.steps ++ [.accepts (bytes.length - taken sink.steps)]
  left : after.steps = sink.steps.drop calls.length
  /-- Each call offers what those before it have not taken. -/
  offered : after.offers = sink.offers ++
    (List.range calls.length).map fun i => bytes.drop (taken (calls.take i))
  accepted : after.accepted = sink.accepted ++ bytes.take (taken calls)
  /-- No call is made when nothing is left or after a failure. -/
  needed : ∀ i < calls.length, taken (calls.take i) < bytes.length ∧
    ∀ earlier ∈ calls.take i, earlier.failure = none

variable {sink after : Sink} {bytes : Bytes} {calls steps : List WriteStep} {step : WriteStep}

/-! ## The course of sending -/

theorem Course.nil (sink : Sink) (bytes : Bytes) : Course sink bytes [] sink where
  made := List.nil_prefix
  left := rfl
  offered := by simp
  accepted := by simp
  needed := by simp

/-- After the listed writes one call is enough. -/
theorem Course.last (hsteps : sink.steps = []) (hbytes : bytes ≠ []) :
    Course sink bytes [.accepts bytes.length] (sink.record bytes bytes.length []) where
  made := by simp [hsteps]
  left := by simp [hsteps, record]
  offered := by simp [record]
  accepted := by simp [record, WriteStep.taken]
  needed := by simpa using List.length_pos_iff.mpr hbytes

/-- A first call, and those that follow it unless it failed. -/
theorem Course.cons (hsteps : sink.steps = step :: steps) (hbytes : bytes ≠ [])
    (hnext : calls = [] ∨ step.failure = none)
    (h : Course (sink.record bytes step.taken steps) (bytes.drop step.taken) calls after) :
    Course sink bytes (step :: calls) after where
  made := by
    have hmade := h.made
    rw [List.length_drop, Nat.sub_sub] at hmade
    rw [hsteps, List.cons_append, List.prefix_cons_inj]
    exact hmade
  left := by rw [h.left, hsteps, record, List.length_cons, List.drop_succ_cons]
  offered := by
    rw [h.offered, List.length_cons, List.range_succ_eq_map, List.map_cons, List.map_map,
      List.append_cons, record]
    simp only [List.take_zero, taken_nil, List.drop_zero, List.drop_drop]
    rfl
  accepted := by
    rw [h.accepted, record, List.append_assoc, taken_cons, List.take_add]
  needed := by
    intro i hi
    cases i with
    | zero => simpa using List.length_pos_iff.mpr hbytes
    | succ i =>
        rw [List.length_cons, Nat.add_lt_add_iff_right] at hi
        obtain ⟨hleft, hearlier⟩ := h.needed i hi
        rw [List.length_drop] at hleft
        rw [List.take_succ_cons, taken_cons]
        refine ⟨by omega, List.forall_mem_cons.mpr ⟨?_, hearlier⟩⟩
        refine hnext.resolve_left ?_
        rintro rfl
        exact absurd hi (Nat.not_lt_zero i)

/-- A write call: it ends sending or leaves the rest to the calls that follow. -/
theorem sendSteps_cons (hbytes : bytes ≠ []) :
    sendSteps (step :: steps) bytes sink =
      match step.failure with
      | some e => (.error e, sink.record bytes step.taken steps)
      | none => sendSteps steps (bytes.drop step.taken) (sink.record bytes step.taken steps) := by
  cases step with
  | accepts limit =>
      rw [sendSteps, WriteStep.failure, WriteStep.taken]
      · split <;> rfl
      · exact hbytes
  | fails fault =>
      rw [sendSteps, WriteStep.failure, WriteStep.taken, List.drop_zero]
      · split <;> rfl
      · exact hbytes

/-- Sending takes its course, and it ends well exactly when the calls took all of the bytes. -/
theorem exists_course (steps : List WriteStep) (sink : Sink) (hsteps : sink.steps = steps)
    (bytes : Bytes) :
    ∃ calls, Course sink bytes calls (sendSteps steps bytes sink).2 ∧
      ((sendSteps steps bytes sink).1 = .ok () ↔ bytes.length ≤ taken calls) := by
  -- On the writes that are still listed. A write that does not fail for good leaves a shorter
  -- list and what is left of the bytes.
  induction steps generalizing sink bytes with
  | nil =>
      cases bytes with
      | nil =>
          refine ⟨[], ?_, by simp [sendSteps]⟩
          have hsame : { sink with steps := [] } = sink := by rw [← hsteps]
          rw [sendSteps, hsame]
          exact .nil sink []
      | cons b rest =>
          exact ⟨_, .last hsteps (List.cons_ne_nil b rest), by simp [sendSteps, WriteStep.taken]⟩
  | cons step steps ih =>
      by_cases hbytes : bytes = []
      · subst hbytes
        refine ⟨[], ?_, by simp [sendSteps]⟩
        have hsame : { sink with steps := step :: steps } = sink := by rw [← hsteps]
        rw [sendSteps, hsame]
        exact .nil sink []
      · rw [sendSteps_cons hbytes]
        cases hfailure : step.failure with
        | some e =>
            refine ⟨[step], .cons hsteps hbytes (.inl rfl) (.nil _ _), ?_⟩
            have hpos := List.length_pos_iff.mpr hbytes
            simp [WriteStep.taken_of_failure hfailure, hbytes]
        | none =>
            obtain ⟨calls, hcourse, hok⟩ :=
              ih (sink.record bytes step.taken steps) rfl (bytes.drop step.taken)
            refine ⟨step :: calls, hcourse.cons hsteps hbytes (.inr hfailure), hok.trans ?_⟩
            rw [List.length_drop, taken_cons, Nat.sub_le_iff_le_add']

/-! ## How sending ends -/

theorem not_reaches_nil (length : Nat) : ¬Reaches [] length step := by
  rintro ⟨before, after, hsteps, -⟩
  simp at hsteps

theorem not_reaches_zero : ¬Reaches steps 0 step := by
  rintro ⟨before, after, -, -, htaken⟩
  exact Nat.not_lt_zero _ htaken

theorem reaches_cons {next : WriteStep} {length : Nat} (hlength : 0 < length) :
    Reaches (next :: steps) length step ↔
      step = next ∨ next.failure = none ∧ Reaches steps (length - next.taken) step := by
  constructor
  · rintro ⟨before, after, hsteps, hearlier, htaken⟩
    cases before with
    | nil => exact .inl (List.cons.inj hsteps).1.symm
    | cons first before =>
        obtain ⟨rfl, hlater⟩ := List.cons.inj hsteps
        obtain ⟨hfirst, hearlier⟩ := List.forall_mem_cons.mp hearlier
        rw [taken_cons] at htaken
        exact .inr ⟨hfirst, before, after, hlater, hearlier, by omega⟩
  · rintro (rfl | ⟨hnext, before, after, rfl, hearlier, htaken⟩)
    · exact ⟨[], steps, rfl, by simp, hlength⟩
    · refine ⟨next :: before, after, rfl, List.forall_mem_cons.mpr ⟨hnext, hearlier⟩, ?_⟩
      rw [taken_cons]
      omega

/-- Sending fails exactly as the first write does that fails for good while bytes are left. -/
theorem sendSteps_eq_error_iff {e : Error} :
    (sendSteps steps bytes sink).1 = .error e ↔
      ∃ step, Reaches steps bytes.length step ∧ step.failure = some e := by
  induction steps generalizing sink bytes with
  | nil => cases bytes <;> simp [sendSteps, not_reaches_nil]
  | cons next steps ih =>
      by_cases hbytes : bytes = []
      · subst hbytes
        simp [sendSteps, not_reaches_zero]
      · rw [sendSteps_cons hbytes]
        simp only [reaches_cons (List.length_pos_iff.mpr hbytes)]
        cases hfailure : next.failure with
        | some found => simp [hfailure]
        | none => simp [ih, hfailure]

theorem send_eq_error_iff {e : Error} :
    (sink.send bytes).1 = .error e ↔
      ∃ step, Reaches sink.steps bytes.length step ∧ step.failure = some e :=
  sendSteps_eq_error_iff

theorem isFatal_of_send_eq_error {e : Error} (h : (sink.send bytes).1 = .error e) :
    e.isFatal = true := by
  obtain ⟨step, -, hfailure⟩ := send_eq_error_iff.mp h
  exact WriteStep.isFatal_of_failure hfailure

/-- What is taken is a prefix of the bytes, and all of them if sending ends well. -/
theorem exists_prefix_send (sink : Sink) (bytes : Bytes) :
    ∃ part, part <+: bytes ∧ (sink.send bytes).2.accepted = sink.accepted ++ part ∧
      ((sink.send bytes).1 = .ok () → part = bytes) := by
  obtain ⟨calls, hcourse, hok⟩ := exists_course sink.steps sink rfl bytes
  refine ⟨bytes.take (taken calls), List.take_prefix _ _, hcourse.accepted, fun hsent => ?_⟩
  exact List.take_of_length_le (hok.mp hsent)

/-- A receiving end that accepts every write whole gets all of the bytes. -/
theorem send_accepting (bytes : Bytes) :
    (accepting.send bytes).1 = .ok () ∧ (accepting.send bytes).2.accepted = bytes := by
  obtain ⟨part, -, haccepted, hall⟩ := exists_prefix_send accepting bytes
  cases hsent : (accepting.send bytes).1 with
  | error e =>
      obtain ⟨step, hreaches, -⟩ := send_eq_error_iff.mp hsent
      exact absurd hreaches (not_reaches_nil _)
  | ok _ =>
      rw [haccepted, hall hsent]
      exact ⟨rfl, rfl⟩

/-! ## Against the clock -/

/-- Writes in which nothing is taken and none of which fails for good. -/
def IsStall (stall : List Attempt) : Prop :=
  ∀ attempt ∈ stall, attempt.step.taken = 0 ∧ attempt.step.failure = none

/-- No stall lasts for `limit`, from its first write that finds no room to its last. -/
def Brief (limit : Nat) (attempts : List Attempt) : Prop :=
  ∀ stall, stall <:+: attempts → IsStall stall → ∀ first ∈ stall, ∀ last ∈ stall,
    first.step.findsNoRoom → last.step.findsNoRoom → last.judged - first.noted < limit

instance (stall : List Attempt) : Decidable (IsStall stall) :=
  inferInstanceAs (Decidable (∀ attempt ∈ stall, _ ∧ _))

instance (limit : Nat) (attempts : List Attempt) : Decidable (Brief limit attempts) :=
  decidable_of_iff
    (∀ tail ∈ attempts.tails, ∀ stall ∈ tail.inits, IsStall stall → ∀ first ∈ stall,
      ∀ last ∈ stall, first.step.findsNoRoom → last.step.findsNoRoom →
        last.judged - first.noted < limit) <| by
    simp only [List.mem_tails, List.mem_inits]
    constructor
    · intro h stall hstall
      obtain ⟨tail, hbegins, hends⟩ := List.infix_iff_prefix_suffix.mp hstall
      exact h tail hends stall hbegins
    · intro h tail hends stall hbegins
      exact h stall (hbegins.isInfix.trans hends.isInfix)

/-- A stall that began at `since` ends in time. -/
def EndsWithin (limit since : Nat) (attempts : List Attempt) : Prop :=
  ∀ stall, stall <+: attempts → IsStall stall → ∀ last ∈ stall, last.step.findsNoRoom →
    last.judged - since < limit

variable {limit since : Nat} {attempt : Attempt} {attempts : List Attempt}

theorem Brief.tail (h : Brief limit (attempt :: attempts)) : Brief limit attempts :=
  fun stall hstall => h stall (hstall.trans (List.suffix_cons _ _).isInfix)

theorem Brief.endsWithin (h : Brief limit (attempt :: attempts))
    (hroom : attempt.step.findsNoRoom) : EndsWithin limit attempt.noted (attempt :: attempts) := by
  intro stall hstall hstalls last hlast hnone
  cases stall with
  | nil => cases hlast
  | cons first stall =>
      obtain ⟨rfl, -⟩ := List.cons_prefix_cons.mp hstall
      exact h _ hstall.isInfix hstalls first List.mem_cons_self last hlast hroom hnone

theorem EndsWithin.head (h : EndsWithin limit since (attempt :: attempts))
    (hroom : attempt.step.findsNoRoom) (hstall : IsStall [attempt]) :
    attempt.judged - since < limit :=
  h [attempt] (by simp) hstall attempt List.mem_cons_self hroom

theorem EndsWithin.tail (h : EndsWithin limit since (attempt :: attempts))
    (hattempt : IsStall [attempt]) : EndsWithin limit since attempts := by
  intro stall hstall hstalls last hlast hnone
  refine h (attempt :: stall) ?_ ?_ last (List.mem_cons_of_mem _ hlast) hnone
  · exact List.cons_prefix_cons.mpr ⟨rfl, hstall⟩
  · exact List.forall_mem_cons.mpr ⟨hattempt attempt List.mem_cons_self, hstalls⟩

/-- The stall that a write without room belongs to ends in time, also if it begins with it. -/
theorem Brief.endsWithin_getD {stalledSince : Option Nat} (h : Brief limit (attempt :: attempts))
    (hsince : ∀ since ∈ stalledSince, EndsWithin limit since (attempt :: attempts))
    (hroom : attempt.step.findsNoRoom) :
    EndsWithin limit (stalledSince.getD attempt.noted) (attempt :: attempts) := by
  cases stalledSince with
  | none => exact h.endsWithin hroom
  | some since => exact hsince since rfl

/-- In a stall that ends in time, a write is repeated unless it failed for good. -/
theorem exists_sendWithin_cons {patience : Patience} {bytes : Bytes} (hbytes : bytes ≠ [])
    (hbrief : Brief limit (attempt :: attempts))
    (hsince : ∀ since ∈ patience.stalledSince, EndsWithin limit since (attempt :: attempts))
    (sink : Sink) :
    ∃ later, (attempt.step.failure = none →
        ∀ since ∈ later.stalledSince, EndsWithin limit since attempts) ∧
      sendWithin limit (attempt :: attempts) patience bytes sink =
        let after := sink.record bytes attempt.step.taken (attempts.map Attempt.step)
        match attempt.step.failure with
        | some e => (.error e, after, later)
        | none => sendWithin limit attempts later (bytes.drop attempt.step.taken) after := by
  have hstalls : attempt.step.taken = 0 → attempt.step.failure = none → IsStall [attempt] := by
    intro htaken hfailure
    exact List.forall_mem_singleton.mpr ⟨htaken, hfailure⟩
  cases hstep : attempt.step with
  | accepts count =>
      by_cases hcount : count = 0
      · refine ⟨patience, by simp [WriteStep.failure, hcount], ?_⟩
        rw [sendWithin, hstep]
        · simp [WriteStep.failure, WriteStep.taken, hcount]
        · exact hbytes
      · refine ⟨patience.relieved, by simp [Patience.relieved], ?_⟩
        rw [sendWithin, hstep]
        · simp [WriteStep.failure, WriteStep.taken, hcount]
        · exact hbytes
  | fails fault =>
      by_cases hinterrupted : fault.isInterrupted
      · have hstall : IsStall [attempt] := by
          refine hstalls ?_ ?_ <;> simp [hstep, WriteStep.taken, WriteStep.failure, hinterrupted]
        refine ⟨patience, fun _ since hmem => (hsince since hmem).tail hstall, ?_⟩
        rw [sendWithin, hstep]
        · simp [WriteStep.failure, WriteStep.taken, hinterrupted]
        · exact hbytes
      · by_cases hblocked : fault.isWouldBlock
        · have hstall : IsStall [attempt] := by
            refine hstalls ?_ ?_ <;> simp [hstep, WriteStep.taken, WriteStep.failure, hblocked]
          have hroom : attempt.step.findsNoRoom := by
            rw [hstep]
            exact hblocked
          have hends := hbrief.endsWithin_getD hsince hroom
          have hshort := Nat.not_le_of_lt (hends.head hroom hstall)
          refine ⟨patience.pause (patience.stalledSince.getD attempt.noted), ?_, ?_⟩
          · intro _ since hmem
            obtain rfl := Option.some.inj hmem
            exact hends.tail hstall
          · rw [sendWithin, hstep]
            · simp [WriteStep.failure, WriteStep.taken, hinterrupted, hblocked, hshort]
            · exact hbytes
        · refine ⟨patience, by simp [WriteStep.failure, hinterrupted, hblocked], ?_⟩
          rw [sendWithin, hstep]
          · simp [WriteStep.failure, WriteStep.taken, hinterrupted, hblocked]
          · exact hbytes

/-- As long as stalls end in time, the clock makes no difference. -/
theorem sendWithin_eq_sendSteps (limit : Nat) (attempts : List Attempt) (patience : Patience)
    (bytes : Bytes) (sink : Sink) (hbrief : Brief limit attempts)
    (hsince : ∀ since ∈ patience.stalledSince, EndsWithin limit since attempts) :
    ∃ later, sendWithin limit attempts patience bytes sink =
      ((sendSteps (attempts.map Attempt.step) bytes sink).1,
        (sendSteps (attempts.map Attempt.step) bytes sink).2, later) := by
  induction attempts generalizing patience bytes sink with
  | nil => cases bytes <;> exact ⟨_, rfl⟩
  | cons attempt attempts ih =>
      by_cases hbytes : bytes = []
      · subst hbytes
        rw [sendWithin, List.map_cons, sendSteps]
        exact ⟨_, rfl⟩
      · obtain ⟨later, hlater, hnext⟩ := exists_sendWithin_cons hbytes hbrief hsince sink
        rw [hnext, List.map_cons, sendSteps_cons hbytes]
        cases hfailure : attempt.step.failure with
        | some e => exact ⟨_, rfl⟩
        | none => exact ih later _ _ hbrief.tail (hlater hfailure)

theorem bounded_sendWithin (limit : Nat) (attempts : List Attempt) (patience : Patience)
    (pending : Bytes) (sink : Sink) (h : patience.Bounded) :
    (sendWithin limit attempts patience pending sink).2.2.Bounded := by
  fun_induction sendWithin limit attempts patience pending sink with
  | case1 => exact h
  | case2 => exact h.relieved
  | case3 => exact h
  | case4 _ _ _ _ _ _ _ _ _ _ _ ih => exact ih h.relieved
  | case5 _ _ _ _ _ _ _ _ _ _ _ ih => exact ih h
  | case6 => exact h
  | case7 _ _ _ _ _ _ _ _ _ _ _ _ _ _ ih => exact ih (h.pause _)
  | case8 => exact h

/-- No pause is shorter than the first or longer than the longest. -/
theorem bounded_sendTimed (sink : Sink) (attempts : List Attempt) (bytes : Bytes) :
    (sink.sendTimed attempts bytes).2.2.Bounded :=
  bounded_sendWithin _ _ _ _ _ Patience.bounded_fresh

/-! ## Exactly once -/

/-- However the receiving end cuts up, interrupts or puts off the writes, as long as no stall
lasts: each write call offers exactly the bytes that were not taken yet, and no call is made
once there are none or a call failed for good. What was taken is a prefix of the bytes, in
order and each byte once. Sending ends well exactly when that is all of them, with a closed
connection exactly when a write that took nothing came first, and with a fault exactly when a
write came first that failed with it, and not just for now. -/
theorem sendTimed_delivers_once {sink : Sink} {attempts : List Attempt}
    (hsteps : sink.steps = attempts.map Attempt.step) (hbrief : Brief stallLimit attempts)
    (bytes : Bytes) :
    ∃ result after patience, sink.sendTimed attempts bytes = (result, after, patience) ∧
      sink.send bytes = (result, after) ∧
      (∃ calls, Course sink bytes calls after) ∧
      (result = .ok () ↔ after.accepted = sink.accepted ++ bytes) ∧
      (result = .error .connectionClosed ↔ Reaches sink.steps bytes.length (.accepts 0)) ∧
      (∀ fault, result = .error (.io fault) ↔ Reaches sink.steps bytes.length (.fails fault) ∧
        fault.isInterrupted = false ∧ fault.isWouldBlock = false) ∧
      ∀ e, result = .error e → e.isFatal = true := by
  obtain ⟨patience, htimed⟩ := sendWithin_eq_sendSteps stallLimit attempts .fresh bytes sink
    hbrief (by simp [Patience.fresh])
  rw [← hsteps] at htimed
  obtain ⟨calls, hcourse, hok⟩ := exists_course sink.steps sink rfl bytes
  refine ⟨_, _, patience, htimed, rfl, ⟨calls, hcourse⟩, ?_, ?_, fun fault => ?_, fun e he => ?_⟩
  · rw [hok, hcourse.accepted, List.append_cancel_left_eq, List.take_eq_self_iff]
  · rw [← send, send_eq_error_iff]
    simp only [WriteStep.failure_eq_connectionClosed, exists_eq_right]
  · rw [← send, send_eq_error_iff]
    simp only [WriteStep.failure_eq_io]
    constructor
    · rintro ⟨_, hreaches, rfl, hlasting⟩
      exact ⟨hreaches, hlasting⟩
    · rintro ⟨hreaches, hlasting⟩
      exact ⟨_, hreaches, rfl, hlasting⟩
  · exact isFatal_of_send_eq_error he

/-- A receiving end that stalls twice, for almost as long as it may, and takes two bytes after
each stall. -/
def throttled : List Attempt :=
  [⟨.fails .wouldBlock, 0, 1⟩, ⟨.fails .interrupted, 2, 2⟩, ⟨.fails .wouldBlock, 3, 4999999⟩,
    ⟨.accepts 2, 5000100, 5000100⟩, ⟨.fails .wouldBlock, 5000200, 5000200⟩,
    ⟨.fails .wouldBlock, 6000000, 10000199⟩, ⟨.accepts 2, 10000300, 10000300⟩]

/-- Seven calls take four of the five bytes, and an eighth the last one. -/
theorem sendTimed_delivers_once_of_throttled :
    Brief stallLimit throttled ∧
      ∃ result after patience,
        (ofSteps (throttled.map Attempt.step)).sendTimed throttled [1, 2, 3, 4, 5] =
          (result, after, patience) ∧
        result = .ok () ∧ after.accepted = [1, 2, 3, 4, 5] ∧ after.offers.length = 8 ∧
        ¬Reaches (throttled.map Attempt.step) 5 (.accepts 0) := by
  have hbrief : Brief stallLimit throttled := by decide +kernel
  have hsteps : (ofSteps (throttled.map Attempt.step)).steps = throttled.map Attempt.step := rfl
  obtain ⟨result, after, patience, htimed, hsend, -, hok, hclosed, -⟩ :=
    sendTimed_delivers_once hsteps hbrief [1, 2, 3, 4, 5]
  have hgone : result = .ok () ∧ after.offers.length = 8 := by
    obtain ⟨rfl, rfl⟩ := Prod.mk.inj hsend.symm
    decide +kernel
  refine ⟨hbrief, result, after, patience, htimed, hgone.1, hok.mp hgone.1, hgone.2, ?_⟩
  intro hreaches
  rw [hgone.1] at hclosed
  cases hclosed.mpr hreaches

end Sink

end KeyValueServer
