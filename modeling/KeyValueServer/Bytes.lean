/-!
# Byte strings

Keys, values, requests and answers are strings of bytes. Nothing on the wire is text: a byte
string may hold any byte, the delimiters of the wire format included.
-/

namespace KeyValueServer

/-- A string of bytes. -/
abbrev Bytes := List UInt8

/-- The code of an ASCII character. -/
def ascii (c : Char) : UInt8 := UInt8.ofNat c.toNat

/-- The codes of a text made of ASCII characters only. -/
def asciiBytes (text : List Char) : Bytes := text.map ascii

/-- The lower-case form of an ASCII capital letter; every other byte is its own. -/
def lowerAscii (b : UInt8) : UInt8 :=
  if ascii 'A' ≤ b ∧ b ≤ ascii 'Z' then b + 32 else b

/-- The longest runs of items between separators, empty runs included. -/
def pieces {α : Type} (isSeparator : α → Bool) : List α → List (List α)
  | [] => [[]]
  | a :: rest =>
      if isSeparator a then [] :: pieces isSeparator rest
      else match pieces isSeparator rest with
        | [] => [[a]]
        | piece :: others => (a :: piece) :: others

/-- The words of a line: its longest non-empty runs of bytes that hold no separator. -/
def words (isSeparator : UInt8 → Bool) (line : Bytes) : List Bytes :=
  (pieces isSeparator line).filter fun piece => !piece.isEmpty

end KeyValueServer
