import KeyValueServer.Proofs.Workers.Punctual
import KeyValueServer.Proofs.Workers.Spots

/-!
# A worker on its own

One worker at an engine, whose clients connect, send and end what they send. What goes beyond the
engine is remembered along the way: what each client has sent, and how often each place was given
back. Generations are counted modulo 2³². As long as no place is given back that often, an event
that is found current was made for the connection that is in the place now.
-/

namespace KeyValueServer.Server

/-- An engine with one worker, what each client has sent so far, and how often each place was given
back. -/
structure Shift where
  workers : Workers
  sent : StreamId → Bytes
  returns : Nat → Nat

namespace Shift

def beginning (engine : Engine) : Shift := ⟨.beginning engine, fun _ => [], fun _ => 0⟩

abbrev engine (s : Shift) : Engine := s.workers.engine

/-- How far the worker has come. -/
abbrev stage (s : Shift) : WorkerStage := s.workers.stages 0

/-- Whether a client has connected and has not ended what it sends. -/
def isSending (s : Shift) (stream : StreamId) : Bool :=
  (s.engine.network.peerAt stream).any fun peer => !peer.source.ended

/-- How often a place was given back once the worker has taken its next step. -/
def returned (s : Shift) : Nat → Nat := s.workers.returned 0 s.returns

/-- Let the worker take its next step, or let something happen outside. Only the one worker takes
steps, and a client sends nothing before it has connected or after it has ended what it sends. -/
def perform (s : Shift) : Occurrence → Option Shift
  | .work worker answer =>
      if worker = 0 then
        (s.workers.step 0 answer).map fun workers => { s with workers, returns := s.returned }
      else none
  | o =>
      if o.sender?.all s.isSending then
        some { s with
          workers := s.workers.happen o.change
          sent := fun stream => s.sent stream ++ o.bytesOf stream }
      else none

/-- One occurrence after the other. -/
def run (s : Shift) (os : List Occurrence) : Option Shift := os.foldlM perform s

variable {s s' : Shift} {o : Occurrence}

theorem perform_cases (h : s.perform o = some s') :
    (∃ answer, s.workers.step 0 answer = some s'.workers ∧ s'.sent = s.sent ∧
        s'.returns = s.returned) ∨
      s'.workers = s.workers.happen o.change ∧ s'.returns = s.returns ∧
        (∀ stream, s'.sent stream = s.sent stream ++ o.bytesOf stream) ∧
        ∀ stream, o.sender? = some stream → s.isSending stream = true := by
  cases o with
  | work worker answer =>
      rw [perform] at h
      split at h
      · obtain ⟨workers, hstep, rfl⟩ := Option.map_eq_some_iff.mp h
        exact .inl ⟨answer, hstep, rfl, rfl⟩
      · contradiction
  | connect | send | finish =>
      dsimp only [perform] at h
      split at h
      next hsending =>
        obtain rfl := Option.some.inj h
        refine .inr ⟨rfl, rfl, fun _ => rfl, fun stream hsender => ?_⟩
        rw [hsender] at hsending
        exact hsending
      next => contradiction

end Shift

/-! ## The worker is alone -/

/-- Only the first worker has begun, all places are tenanted, whatever there is to read is looked
after, all clients behave, and those that have places are watched. -/
structure Workers.Steady (s : Workers) : Prop where
  alone : ∀ worker, worker ≠ 0 → s.stages worker = .claiming
  tenanted : Tenanted s.engine.arena s.stages
  attentive : Attentive s
  civil : s.Civil
  watches : s.Watches

namespace Workers

variable {s s' : Workers}

theorem Steady.moved (hs : s.Steady) (h : s.Moved 0 s') : s'.Steady where
  alone worker hworker := by
    obtain ⟨stage, -, hstages⟩ := h
    rw [hstages, turn_of_ne _ hworker]
    exact hs.alone worker hworker
  tenanted := by
    refine h.tenanted hs.tenanted fun event slot hstage _ worker => ?_
    by_cases hworker : worker = 0
    · subst hworker
      simp [hstage, WorkerStage.pending?]
    · simp [hs.alone worker hworker, WorkerStage.pending?]
  attentive := hs.attentive.of_moved h hs.tenanted
  civil := hs.civil.moved h
  watches := hs.watches.moved hs.civil hs.attentive hs.tenanted h

theorem Steady.occur (hs : s.Steady) (o : Occurrence) : (s.happen o.change).Steady where
  alone := hs.alone
  tenanted := hs.tenanted
  attentive := hs.attentive.of_delivers (o.delivers_change s.engine.network)
  civil := hs.civil.occur o
  watches := hs.watches.occur o

end Workers

end KeyValueServer.Server
