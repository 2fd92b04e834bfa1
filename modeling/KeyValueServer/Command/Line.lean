import KeyValueServer.Command.Code

/-!
# Command lines

The language of the interactive client. A line is a run of words between spaces, tabs,
carriage returns and line feeds. The first word chooses the command: any word that starts
with a `g` asks for a value, the word `set` stores one, any word that starts with a `q` leaves.
Letters count in either case, and words past the last argument are ignored.
-/

namespace KeyValueServer

/-- A command that the interactive client can carry out. -/
inductive Command where
  | get (key : Bytes)
  | set (key value : Bytes)
  | quit
deriving DecidableEq

def Command.code : Command → CommandCode
  | get _ => .get
  | set _ _ => .set
  | quit => .quit

/-- A line that is no command: the command its first word chose, and that word. -/
structure Rejection where
  code : CommandCode
  word : Bytes
deriving DecidableEq

namespace Line

/-- The bytes that separate the words of a command line. -/
def isSeparator (b : UInt8) : Bool :=
  b == ascii ' ' || b == ascii '\t' || b == ascii '\r' || b == ascii '\n'

/-- The command that a first word chooses. -/
def classify (word : Bytes) : CommandCode :=
  match word with
  | [] => .unknown
  | b :: _ =>
      if lowerAscii b = ascii 'g' then .get
      else if word.map lowerAscii = asciiBytes ['s', 'e', 't'] then .set
      else if lowerAscii b = ascii 'q' then .quit
      else .unknown

/-- The command that a run of words stands for. -/
def interpret : List Bytes → Except Rejection Command
  | [] => .error ⟨.unknown, []⟩
  | word :: arguments =>
      match classify word, arguments with
      | .get, key :: _ => .ok (.get key)
      | .set, key :: value :: _ => .ok (.set key value)
      | .quit, _ => .ok .quit
      | code, _ => .error ⟨code, word⟩

/-- The command that a line stands for. -/
def parse (line : Bytes) : Except Rejection Command :=
  interpret (words isSeparator line)

end Line

end KeyValueServer
