import KeyValueServer.Text.Numeral

/-!
# Command codes

The numbers by which commands are known on the wire and in messages to the user.
-/

namespace KeyValueServer

/-- What a command asks for. -/
inductive CommandCode where
  | get
  | set
  | quit
  | unknown
deriving DecidableEq

namespace CommandCode

def number : CommandCode → Nat
  | get => 1
  | set => 2
  | quit => 101
  | unknown => 999

/-- The command with a given number. -/
def ofNumber (n : Nat) : CommandCode :=
  if n = 1 then get else if n = 2 then set else if n = 101 then quit else unknown

/-- The text of a command code in messages: its number. -/
def text (code : CommandCode) : String := toString code.number

end CommandCode

end KeyValueServer
