import KeyValueServer.Stream.Sink

/-!
# Sending against the clock

A write that finds no room is repeated after a pause. The pauses grow while nothing is taken, and
sending gives up on a receiving end that has taken nothing for too long. Times are in
microseconds.
-/

namespace KeyValueServer

/-- The first pause of a stall. -/
def backoffStart : Nat := 50

/-- The longest pause. -/
def backoffMax : Nat := 10 * 1000

/-- How long the receiving end may take nothing. -/
def stallLimit : Nat := 5 * 1000 * 1000

/-- A write call, with what the clock shows when a stall that begins with it is noted and when the
length of the stall is judged. -/
structure Attempt where
  step : WriteStep
  noted : Nat
  judged : Nat

/-- What sending keeps in mind from one write call to the next: the pause that comes next, since
when nothing was taken, and the pauses made so far. -/
structure Patience where
  backoff : Nat
  stalledSince : Option Nat
  pauses : List Nat

namespace Patience

def fresh : Patience := ⟨backoffStart, none, []⟩

/-- Something was taken. -/
def relieved (patience : Patience) : Patience :=
  { patience with backoff := backoffStart, stalledSince := none }

/-- Pause in a stall that began at `since`. -/
def pause (patience : Patience) (since : Nat) : Patience :=
  ⟨min (patience.backoff * 2) backoffMax, some since, patience.pauses ++ [patience.backoff]⟩

end Patience

namespace Sink

/-- Send what is pending to a receiving end whose next writes go as the attempts say, unless it
takes nothing for `limit`. -/
def sendWithin (limit : Nat) :
    List Attempt → Patience → Bytes → Sink → Except Error Unit × Sink × Patience
  | attempts, patience, [], sink =>
      (.ok (), { sink with steps := attempts.map Attempt.step }, patience)
  | [], patience, pending, sink =>
      (.ok (), sink.record pending pending.length [], patience.relieved)
  | attempt :: attempts, patience, pending, sink =>
      let steps := attempts.map Attempt.step
      match attempt.step with
      | .accepts count =>
          let sink := sink.record pending count steps
          if count = 0 then (.error .connectionClosed, sink, patience)
          else sendWithin limit attempts patience.relieved (pending.drop count) sink
      | .fails fault =>
          let sink := sink.record pending 0 steps
          if fault.isInterrupted then sendWithin limit attempts patience pending sink
          else if fault.isWouldBlock then
            let since := patience.stalledSince.getD attempt.noted
            if limit ≤ attempt.judged - since then (.error (.io .timedOut), sink, patience)
            else sendWithin limit attempts (patience.pause since) pending sink
          else (.error (.io fault), sink, patience)

/-- Send all of the bytes, with the writes and the clock as the attempts say. -/
def sendTimed (sink : Sink) (attempts : List Attempt) (bytes : Bytes) :
    Except Error Unit × Sink × Patience :=
  sendWithin stallLimit attempts .fresh bytes sink

end Sink

end KeyValueServer
