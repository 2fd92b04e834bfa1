import KeyValueServer.Text.Blank
import KeyValueServer.Text.Numeral

/-!
# Trace levels

How much is traced is a number: below zero only errors, zero the usual, one and two ever more.
It can be set by an environment variable.
-/

namespace KeyValueServer.Trace

/-- How grave an event is. -/
inductive Severity where
  | error
  | warn
  | info
  | debug
  | trace
deriving DecidableEq

namespace Severity

/-- The place of a severity, the gravest first. -/
def rank : Severity → Nat
  | error => 0
  | warn => 1
  | info => 2
  | debug => 3
  | trace => 4

/-- The name of a severity. -/
def name : Severity → String
  | error => "error"
  | warn => "warn"
  | info => "info"
  | debug => "debug"
  | trace => "trace"

/-- All severities, the gravest first. -/
def all : List Severity := [error, warn, info, debug, trace]

end Severity

/-- The least grave severity that is traced at a numeric level. -/
def filter (level : Int) : Severity :=
  if level ≤ -1 then .error
  else if level = 0 then .info
  else if level = 1 then .debug
  else .trace

/-- Whether events of a severity are traced at a numeric level. -/
def isTraced (level : Int) (severity : Severity) : Bool := severity.rank ≤ (filter level).rank

/-- A signed 32-bit number, as levels are written. -/
def level? (text : List Char) : Option Int :=
  (Numeral.integer? text).filter fun n => Int32.minValue.toInt ≤ n ∧ n ≤ Int32.maxValue.toInt

/-- The level that an environment variable sets, if it is set and well formed. -/
def environmentLevel? (contents : Option (List Char)) : Option Int :=
  contents.bind fun text => level? (Text.trim text)

end KeyValueServer.Trace
