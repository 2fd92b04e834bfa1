/-!
# Space, lines and comments in TOML

Readers of the parts of a document that mean nothing by themselves. A reader takes the text
from some place on and returns what follows the part.
-/

namespace KeyValueServer.Toml

/-- A reader returns what it has read and the rest of the text. -/
abbrev Reader (α : Type) := List Char → Option (α × List Char)

/-- Whether a character separates without ending a line. -/
def isSpace (c : Char) : Bool := c == ' ' || c == '\t'

/-- What follows the spaces that a text begins with. -/
def skipSpaces (s : List Char) : List Char := s.dropWhile isSpace

/-- What follows the end of line that a text begins with. A lone carriage return is none. -/
def newline? : List Char → Option (List Char)
  | '\n' :: rest => some rest
  | '\r' :: '\n' :: rest => some rest
  | _ => none

/-- Whether a character shows, or is a tab. Other control characters stand nowhere in a
document but in a line's end. -/
def isShown (c : Char) : Bool := c == '\t' || (' ' ≤ c && c.toNat != 0x7F)

/-- What follows the comment that a text begins with, if there is one. -/
def skipComment : List Char → List Char
  | '#' :: rest => rest.dropWhile isShown
  | s => s

/-- What follows the rest of a line that has nothing more to say. -/
def lineEnd? (s : List Char) : Option (List Char) :=
  match skipComment (skipSpaces s) with
  | [] => some []
  | rest => newline? rest

/-- What follows the spaces, lines and comments that a text begins with. A comment that no line
ends stays. -/
def skipLines (s : List Char) : List Char :=
  match s with
  | [] => []
  | c :: rest =>
      if isSpace c then skipLines rest
      else match newline? (skipComment (c :: rest)) with
        | none => c :: rest
        | some after => if after.length ≤ rest.length then skipLines after else c :: rest
termination_by s.length

end KeyValueServer.Toml
