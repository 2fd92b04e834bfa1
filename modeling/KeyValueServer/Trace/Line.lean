import KeyValueServer.Trace.Level

/-!
# Trace lines

An event is traced as one line: the clock, the thread by its number in the system and by its
number here, a marker for errors, and the message. Characters that would steer a terminal are
shown by their codes.
-/

namespace KeyValueServer.Trace

/-- An event, when it happened and on which thread. -/
structure Event where
  microseconds : Nat
  systemThread : Nat
  thread : Nat
  severity : Severity
  message : List Char

/-- The code of a character in hexadecimal digits, at least two of them. -/
def hexCode (n : Nat) : List Char :=
  let digits := (Numeral.hex n).toList
  if digits.length < 2 then '0' :: digits else digits

/-- How one character of a message is shown. -/
def shown (c : Char) : List Char :=
  let n := c.toNat
  if n = 0x1B ∨ n = 0x07 ∨ n = 0x08 ∨ n = 0x0C ∨ n = 0x7F then '\\' :: 'x' :: hexCode n
  else if 0x80 ≤ n ∧ n ≤ 0x9F then "\\u\x7b".toList ++ hexCode n ++ ['\x7d']
  else [c]

/-- The text that stands in front of the message. -/
def marker : Severity → String
  | .error => "ERROR:"
  | _ => ""

/-- The line for an event. -/
def line (e : Event) : String :=
  toString e.microseconds ++ "-" ++ toString e.systemThread ++ "-" ++ toString e.thread ++ "-"
    ++ marker e.severity ++ " " ++ String.ofList (e.message.flatMap shown) ++ "\n"

/-- The line for an event at a numeric level, if it is traced at all. -/
def line? (level : Int) (e : Event) : Option String :=
  if isTraced level e.severity then some (line e) else none

end KeyValueServer.Trace
