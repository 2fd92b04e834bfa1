import KeyValueServer.Command.Line
import KeyValueServer.Text.Utf8
import KeyValueServer.Wire.Request

/-!
# The interactive client

The dialogue with a user: a prompt, a line, and what became of the command in it. A command that
fails is reported with its number and the first word of its line. A connection that fails ends
the dialogue, and so do the end of the input and a command to leave.
-/

namespace KeyValueServer.Console

/-- What is shown before each line is read. -/
def prompt : String := "yari > "

/-- What is shown at the end. -/
def farewell : String := "Disconnected from Yari\n"

/-- Whether a byte ends a word in a report: a space, a tab, a line feed, a form feed or a
carriage return. -/
def isBlank (b : UInt8) : Bool :=
  b == ascii ' ' || b == ascii '\t' || b == ascii '\n' || b == 12 || b == ascii '\r'

/-- The first word of a line, as a report shows it. -/
def firstWord (line : Bytes) : List Char :=
  Utf8.decodeLossy ((words isBlank line).headD [])

/-- The report that a command has failed. -/
def failureReport (code : CommandCode) (line : Bytes) : String :=
  "ERROR : in executing command [" ++ code.text ++ "][" ++ String.ofList (firstWord line) ++ "]\n"

/-- How the result of a request is shown: the value, if it is not empty. -/
def resultText (result : Option Bytes) : String :=
  match result with
  | some (b :: value) => String.ofList (Utf8.decodeLossy (b :: value)) ++ "\n"
  | _ => "OK\n"

/-- The request that a command makes; leaving makes none. -/
def request? : Command → Option Request
  | .get key => some (.get key)
  | .set key value => some (.set key value)
  | .quit => none

/-- The answer to one line: what is shown, whether the dialogue goes on, and the connection. -/
structure Reply (σ : Type) where
  shown : String
  continues : Bool
  connection : σ

/-- Carry out one line, where `ask` carries out a request over the connection. -/
def respond {σ : Type} (ask : σ → Request → Except Error (Option Bytes) × σ) (connection : σ)
    (line : Bytes) : Reply σ :=
  match Line.parse line with
  | .error rejection => ⟨failureReport rejection.code line, true, connection⟩
  | .ok command =>
      match request? command with
      | none => ⟨"", false, connection⟩
      | some request =>
          match ask connection request with
          | (.ok result, connection) => ⟨resultText result, true, connection⟩
          | (.error e, connection) =>
              if e.isFatal then ⟨"ERROR : " ++ e.message ++ "\n", false, connection⟩
              else ⟨failureReport command.code line, true, connection⟩

/-- The dialogue over the lines of an input: all that is shown, and the connection. -/
def converse {σ : Type} (ask : σ → Request → Except Error (Option Bytes) × σ) :
    σ → List Bytes → String × σ
  | connection, [] => (prompt ++ farewell, connection)
  | connection, line :: lines =>
      let reply := respond ask connection line
      if reply.continues then
        let (shown, connection) := converse ask reply.connection lines
        (prompt ++ reply.shown ++ shown, connection)
      else (prompt ++ reply.shown ++ farewell, reply.connection)

/-- The lines of an input, each with the line feed that ends it. -/
def inputLines : Bytes → List Bytes
  | [] => []
  | b :: rest =>
      if b = ascii '\n' then [b] :: inputLines rest
      else match inputLines rest with
        | [] => [[b]]
        | line :: lines => (b :: line) :: lines

end KeyValueServer.Console
