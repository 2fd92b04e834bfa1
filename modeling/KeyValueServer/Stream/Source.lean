import KeyValueServer.Error

/-!
# Receiving

The sending end of a connection decides what each read returns: a run of bytes, handed out
over as many reads as the reader's room makes necessary, or a failure. A read of no bytes is
the end of the stream. While the sender has not ended it, a read that finds nothing would have
to wait, and fails.
-/

namespace KeyValueServer

/-- What the next reads return. -/
inductive ReadStep where
  | data (bytes : Bytes)
  | fails (fault : IoFault)
deriving DecidableEq

/-- How much reading a step can still give: one call and its bytes. -/
def ReadStep.weight : ReadStep → Nat
  | data bytes => 1 + bytes.length
  | fails _ => 1

/-- What the next reads return once more bytes have arrived. They join those that arrived last;
the arrival of no bytes is none. -/
def ReadStep.arrive (bytes : Bytes) : List ReadStep → List ReadStep
  | [] => if bytes.isEmpty then [] else [.data bytes]
  | [.data earlier] => [.data (earlier ++ bytes)]
  | step :: steps => step :: arrive bytes steps

/-- The sending end of a connection: what the next reads return, whether the stream ends after
that, and how many reads were made. -/
structure Source where
  steps : List ReadStep
  ended : Bool
  calls : Nat

namespace Source

/-- A sending end that sends no more, and was not read yet. -/
def ofSteps (steps : List ReadStep) : Source := ⟨steps, true, 0⟩

/-- A sending end from which nothing has arrived yet. -/
def idle : Source := ⟨[], false, 0⟩

/-- Whether a read would find something: bytes, a failure, or the end. -/
def isOutstanding (source : Source) : Bool := !source.steps.isEmpty || source.ended

/-- Let bytes arrive. -/
def arrive (source : Source) (bytes : Bytes) : Source :=
  { source with steps := ReadStep.arrive bytes source.steps }

/-- Let the end of the stream arrive. -/
def finish (source : Source) : Source := { source with ended := true }

/-- How much reading is left. -/
def weight (source : Source) : Nat := source.steps.foldr (fun step left => step.weight + left) 0

/-- Read at most `room` bytes. -/
def read (source : Source) (room : Nat) : Except IoFault Bytes × Source :=
  let left (steps : List ReadStep) : Source := ⟨steps, source.ended, source.calls + 1⟩
  match source.steps with
  | [] => (if source.ended then .ok [] else .error .wouldBlock, left [])
  | .data bytes :: steps =>
      if bytes.length ≤ room then (.ok bytes, left steps)
      else (.ok (bytes.take room), left (.data (bytes.drop room) :: steps))
  | .fails fault :: steps => (.error fault, left steps)

/-- A read that returned bytes used some of the reading up. -/
theorem weight_read_of_ne_nil {source rest : Source} {room : Nat} {bytes : Bytes}
    (h : source.read room = (.ok bytes, rest)) (hne : bytes ≠ []) :
    rest.weight < source.weight := by
  obtain ⟨steps, ended, calls⟩ := source
  unfold read at h
  split at h
  · cases ended <;> simp only [Prod.mk.injEq] at h <;> simp at h
    exact absurd h.1 hne
  · next all steps' hs =>
      simp only at hs
      subst hs
      split at h <;> simp only [Prod.mk.injEq, Except.ok.injEq] at h <;> obtain ⟨rfl, rfl⟩ := h
      · simp only [weight, List.foldr_cons, ReadStep.weight]
        omega
      · have hroom : room ≠ 0 := by rintro rfl; simp at hne
        simp only [weight, List.foldr_cons, ReadStep.weight, List.length_drop]
        omega
  · simp at h

/-- A read that was interrupted used some of the reading up. -/
theorem weight_read_of_interrupted {source rest : Source} {room : Nat} {fault : IoFault}
    (h : source.read room = (.error fault, rest)) (hf : fault.isInterrupted = true) :
    rest.weight < source.weight := by
  obtain ⟨steps, ended, calls⟩ := source
  unfold read at h
  split at h
  · cases ended <;> simp only [Prod.mk.injEq] at h <;> simp at h
    obtain ⟨rfl, -⟩ := h
    simp [IoFault.isInterrupted] at hf
  · split at h <;> simp at h
  · next f steps' hs =>
      simp only at hs
      subst hs
      simp only [Prod.mk.injEq] at h
      obtain ⟨-, rfl⟩ := h
      simp only [weight, List.foldr_cons, ReadStep.weight]
      omega

end Source

end KeyValueServer
