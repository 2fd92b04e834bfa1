import KeyValueServer.Config.File
import KeyValueServer.Console.Options
import KeyValueServer.Trace.Level

/-!
# The two programs

What a command line makes of the server program and of the interactive client. Both end at once,
without having done anything, when they are asked for help or their version, and when their
command line can not be read.
-/

namespace KeyValueServer.Console

/-- What surrounds a program: the contents of files, the environment variable for the trace
level, and the number of processors. -/
structure Surroundings where
  contentsOf : List Char → Option Bytes
  levelVariable : Option (List Char)
  processors : Nat

/-- The options of the server program. -/
def serverOptions : List OptionSpec :=
  [⟨"threads", some 't', .count⟩, ⟨"port", some 'p', .port⟩, ⟨"bind", some 'b', .text⟩,
    ⟨"config", some 'c', .text⟩, ⟨"verbose", some 'v', .flag⟩, ⟨"trace-level", none, .level⟩,
    ⟨"cpu-affinity", none, .flag⟩]

/-- The options of the interactive client. -/
def clientOptions : List OptionSpec :=
  [⟨"host", none, .text⟩, ⟨"port", some 'p', .port⟩, ⟨"trace-level", none, .level⟩]

/-- Why a program ends before it has begun its work, or what it goes on with. -/
inductive Opening (α : Type) where
  | informs
  | misused
  | unloadable (fault : LoadFault)
  | proceeds (start : α)

/-- The status with which a program ends that does not go on. -/
def Opening.status? {α : Type} : Opening α → Option Nat
  | informs => some 0
  | misused => some 2
  | unloadable _ => some 1
  | proceeds _ => none

/-- The number that was given for an option. -/
def numberOf (given : Given) (name : String) : Option Int :=
  match given.lookup name with
  | some (.number n) => some n
  | _ => none

/-- The text that was given for an option. -/
def textOf (given : Given) (name : String) : Option (List Char) :=
  match given.lookup name with
  | some (.text text) => some text
  | _ => none

/-- Whether an option without a value was given. -/
def isGiven (given : Given) (name : String) : Bool := (given.lookup name).isSome

/-- The configuration that the options of the server stand for, without a file. -/
def optionConfig (given : Given) : Config :=
  { Config.default with
    bindAddress := ((textOf given "bind").map String.ofList).getD Config.default.bindAddress
    port := ((numberOf given "port").map fun n => UInt16.ofNat n.toNat).getD Config.default.port
    threads :=
      ((numberOf given "threads").map fun n => UInt64.ofNat n.toNat).getD Config.default.threads
    cpuAffinity := isGiven given "cpu-affinity" }

/-- The trace level: an option beats all else, a call for verbosity asks for at least one, and
the environment beats the configuration. -/
def traceLevel (s : Surroundings) (given : Given) (configured : Int) : Int :=
  let level := (Trace.environmentLevel? s.levelVariable).getD configured
  let level := if isGiven given "verbose" then max level 1 else level
  (numberOf given "trace-level").getD level

/-- The configuration with which the server is launched. A file replaces all other options. No
threads stand for one on each processor. -/
def serverConfig (s : Surroundings) (given : Given) : Except LoadFault Config := do
  let c ← match textOf given "config" with
    | none => .ok (optionConfig given)
    | some path => match s.contentsOf path with
        | none => .error .unreadable
        | some contents => Config.load contents
  let c := { c with traceLevel := Int32.ofInt (traceLevel s given c.traceLevel.toInt) }
  .ok (if c.threads = 0 then { c with threads := UInt64.ofNat s.processors } else c)

/-- What a command line makes of the server program. -/
def openServer (s : Surroundings) (words : List (List Char)) : Opening Config :=
  match read serverOptions words with
  | .help => .informs
  | .version => .informs
  | .misuse => .misused
  | .run given =>
      match serverConfig s given with
      | .error fault => .unloadable fault
      | .ok c => .proceeds c

/-- Where the interactive client connects to. -/
structure Destination where
  host : String
  port : Nat

/-- What a command line makes of the interactive client. -/
def openClient (words : List (List Char)) : Opening Destination :=
  match read clientOptions words with
  | .help => .informs
  | .version => .informs
  | .misuse => .misused
  | .run given =>
      .proceeds ⟨((textOf given "host").map String.ofList).getD "127.0.0.1",
        ((numberOf given "port").map Int.toNat).getD 22000⟩

/-- The line with which a program reports the error that ends it. -/
def errorLine (e : Error) : String := "Error: " ++ e.message

end KeyValueServer.Console
