import KeyValueServer.Toml.DateTime
import KeyValueServer.Toml.Number
import KeyValueServer.Toml.Quoting

/-!
# Reading TOML documents

A document is a run of lines: headers that name tables and entries that belong to the table of
the last header. Arrays may run over several lines, inline tables may not. Values nest up to a
fixed depth, and keys have up to a fixed number of parts.
-/

namespace KeyValueServer.Toml

/-- The first number of levels, or of parts of a key, that is too large. -/
def nestingLimit : Nat := 80

/-! ## Keys -/

/-- Whether a character stands in a key without quotes. -/
def isBareKey (c : Char) : Bool := c.isAlphanum || c == '_' || c == '-'

/-- One part of a key. -/
def keyPart? : Reader Key
  | '"' :: rest => basic? rest
  | '\'' :: rest => literal? rest
  | s =>
      let part := s.takeWhile isBareKey
      if part.isEmpty then none else some (part, s.dropWhile isBareKey)

/-- The parts of a key, between dots and spaces. -/
def keyParts? (s : List Char) : Option (List Key × List Char) :=
  match keyPart? (skipSpaces s) with
  | none => none
  | some (part, rest) =>
      match skipSpaces rest with
      | '.' :: rest =>
          if rest.length < s.length then
            (keyParts? rest).map fun (parts, rest) => (part :: parts, rest)
          else none
      | rest => some ([part], rest)
termination_by s.length

/-- A key: the names on the way and the last name. -/
def key? (s : List Char) : Option ((List Key × Key) × List Char) := do
  let (parts, rest) ← keyParts? s
  let last ← parts.getLast?
  if parts.length < nestingLimit then pure ((parts.dropLast, last), rest) else none

/-! ## Values -/

/-- The items of an array from behind its bracket or a comma. -/
def items? (item : Reader Node) (s : List Char) : Option (List Node × List Char) :=
  match skipLines s with
  | ']' :: rest => some ([], rest)
  | start =>
      match item start with
      | none => none
      | some (node, rest) =>
          match skipLines rest with
          | ']' :: rest => some ([node], rest)
          | ',' :: rest =>
              if rest.length < s.length then
                (items? item rest).map fun (nodes, rest) => (node :: nodes, rest)
              else none
          | _ => none
termination_by s.length

/-- A key, the equals sign and the value of an entry. -/
def entry? (value : Reader Node) (s : List Char) :
    Option ((List Key × Key × Node) × List Char) := do
  let ((path, key), rest) ← key? s
  match rest with
  | '=' :: rest => do
      let (node, rest) ← value (skipSpaces rest)
      pure ((path, key, node), rest)
  | _ => none

/-- The entries of an inline table that has some, after those read before. -/
def fields? (value : Reader Node) (entries : Entries) (s : List Char) :
    Option (Entries × List Char) :=
  match entry? value s with
  | none => none
  | some ((path, key, node), rest) =>
      match Entries.assign path key node .declared entries with
      | none => none
      | some entries =>
          match skipSpaces rest with
          | '}' :: rest => some (entries, rest)
          | ',' :: rest => if rest.length < s.length then fields? value entries rest else none
          | _ => none
termination_by s.length

/-- Whether a character stands in a number or a word. -/
def isWordChar (c : Char) : Bool := c.isAlphanum || c == '_' || c == '-' || c == '+' || c == '.'

/-- A number, a date, or one of the words for truth. -/
def scalar? (s : List Char) : Option (Node × List Char) :=
  match DateTime.read? s with
  | some rest => some (.dateTime, rest)
  | none =>
      let word := s.takeWhile isWordChar
      let rest := s.dropWhile isWordChar
      if word = "true".toList then some (.boolean true, rest)
      else if word = "false".toList then some (.boolean false, rest)
      else (number? word).map fun node => (node, rest)

/-- A value with up to `depth` further levels of arrays and inline tables. -/
def value? : (depth : Nat) → Reader Node
  | depth, s =>
      match s with
      | '"' :: _ => (string? s).map fun (text, rest) => (.string text, rest)
      | '\'' :: _ => (string? s).map fun (text, rest) => (.string text, rest)
      | '[' :: rest =>
          match depth with
          | 0 => none
          | depth + 1 => (items? (value? depth) rest).map fun (nodes, rest) => (.array nodes, rest)
      | '{' :: rest =>
          match depth with
          | 0 => none
          | depth + 1 =>
              match skipSpaces rest with
              | '}' :: rest => some (.record [], rest)
              | rest =>
                  (fields? (value? depth) [] rest).map fun (entries, rest) =>
                    (.record entries, rest)
      | _ => scalar? s

/-! ## Lines -/

/-- A document read up to some line: the table of the last header, and all entries. -/
structure Progress where
  current : List Key
  root : Entries

/-- Read the key of a header up to its closing brackets and the end of its line. -/
def header? (closing : List Char) (s : List Char) : Option ((List Key × Key) × List Char) := do
  let (key, rest) ← key? s
  if closing.isPrefixOf rest then pure (key, ← lineEnd? (rest.drop closing.length)) else none

/-- Read one line that is not blank. -/
def line? (p : Progress) (s : List Char) : Option (Progress × List Char) :=
  match s with
  | '[' :: '[' :: rest => do
      let ((path, key), rest) ← header? [']', ']'] rest
      pure (⟨path ++ [key], ← Entries.extend path key p.root⟩, rest)
  | '[' :: rest => do
      let ((path, key), rest) ← header? [']'] rest
      pure (⟨path ++ [key], ← Entries.declare path key p.root⟩, rest)
  | _ => do
      let ((path, key, node), rest) ← entry? (value? (nestingLimit - 1)) s
      let rest ← lineEnd? rest
      let root ← Entries.within .implied (Entries.assign path key node) p.current .declared p.root
      pure (⟨p.current, root⟩, rest)

/-- Read all lines that are left. The last one may be a comment that no line ends. -/
def lines (p : Progress) (s : List Char) : Option Entries :=
  if lineEnd? (skipLines s) = some [] then some p.root
  else match line? p (skipLines s) with
    | none => none
    | some (p, rest) => if rest.length < s.length then lines p rest else none
termination_by s.length

/-- The entries of a document. A byte order mark may stand in front of it. -/
def read? (s : List Char) : Option Entries :=
  match s with
  | c :: rest => lines ⟨[], []⟩ (if c.toNat = 0xFEFF then rest else s)
  | [] => some []

end KeyValueServer.Toml
