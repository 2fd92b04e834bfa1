import KeyValueServer.Client.Connection
import KeyValueServer.Console.Dialogue
import KeyValueServer.Console.Programs
import KeyValueServer.Server.Launch
import KeyValueServer.Trace.Line

/-!
# The command line

One executable for both programs. Called with `client` as its first word it is the interactive
client, with a server of its own in the same process; called otherwise it is the server, which
serves its standard input and output as one connection.
-/

namespace KeyValueServer.Main

open Server (Engine SetupFault)

/-- A short reminder of the options. -/
def usage (options : List Console.OptionSpec) : String :=
  "Options: " ++ " ".intercalate (options.map fun option => "--" ++ option.name)
    ++ " --help --version"

/-- End with a report of an error. -/
def giveUp (e : Error) : IO UInt32 := do
  (← IO.getStderr).putStrLn (Console.errorLine e)
  return 1

/-- End without having begun. -/
def endEarly {α : Type} (options : List Console.OptionSpec) (opening : Console.Opening α) :
    IO UInt32 := do
  match opening with
  | .informs => (← IO.getStdout).putStrLn (usage options)
  | .misused => (← IO.getStderr).putStrLn (usage options)
  | _ => (← IO.getStderr).putStrLn "Error: the configuration could not be loaded"
  return UInt32.ofNat (opening.status?.getD 0)

/-- Launch a server and connect to it. -/
def begin (c : Config) : Except Error (Client.Connection × Engine) :=
  match Server.launch c unlimited (Network.idle true) with
  | .error (.refused e) => .error e
  | .error (.pool _) => .error .outOfMemory
  | .ok engine =>
      match Client.Connection.connect? engine with
      | .ok (some line) => .ok line
      | .ok none => .error .busy
      | .error e => .error e

/-- Carry out a request over a connection to a server beside it. -/
def ask (line : Client.Connection × Engine) (request : Request) :
    Except Error (Option Bytes) × (Client.Connection × Engine) :=
  match line.1.ask line.2 request with
  | some (result, connection, engine) => (result, (connection, engine))
  | none => (.error .busy, line)

/-- The dialogue with a user. -/
partial def converse (input output : IO.FS.Stream) (line : Client.Connection × Engine) :
    IO Unit := do
  output.putStr Console.prompt
  output.flush
  let text ← input.getLine
  if text.isEmpty then output.putStr Console.farewell
  else
    let reply := Console.respond ask line text.toUTF8.toList
    output.putStr reply.shown
    if reply.continues then converse input output reply.connection
    else output.putStr Console.farewell

/-- Serve what arrives on the standard input. -/
partial def serve (input output : IO.FS.Stream) (line : Client.Connection × Engine) : IO Unit := do
  let chunk ← input.read (USize.ofNat maxMessage)
  if !chunk.isEmpty then
    match line.1.send line.2 chunk.toList with
    | none => return
    | some (connection, engine) =>
        let reply := ((engine.network.peerAt connection.stream).map Peer.received).getD []
        output.write ⟨(reply.drop line.1.arrived).toArray⟩
        output.flush
        serve input output (connection, engine)

end KeyValueServer.Main

open KeyValueServer in
/-- Run one of the programs. -/
def main (args : List String) : IO UInt32 := do
  let input ← IO.getStdin
  let output ← IO.getStdout
  match args with
  | "client" :: args =>
      match Console.openClient (args.map String.toList) with
      | .proceeds _ =>
          match Main.begin Config.default with
          | .error e => Main.giveUp e
          | .ok line => Main.converse input output line; return 0
      | opening => Main.endEarly Console.clientOptions opening
  | _ =>
      let words := args.map String.toList
      let path? := match Console.read Console.serverOptions words with
        | .run given => Console.textOf given "config"
        | _ => none
      let contents ← match path? with
        | none => pure none
        | some path => (some <$> IO.FS.readBinFile (String.ofList path)) <|> pure none
      let level ← IO.getEnv "YTRACE_LEVEL"
      let surroundings : Console.Surroundings :=
        { contentsOf := fun _ => contents.map ByteArray.toList
          levelVariable := level.map String.toList
          processors := 1 }
      match Console.openServer surroundings words with
      | .proceeds c =>
          match Main.begin c with
          | .error e => Main.giveUp e
          | .ok line => Main.serve input output line; return 0
      | opening => Main.endEarly Console.serverOptions opening
