import KeyValueServer.Bytes
import KeyValueServer.Toml.Spacing

/-!
# Strings in TOML

A string is written in one of four forms. A basic string stands between double quotes and has
escapes; a literal string stands between single quotes and has none. Three quotes instead of
one let a string run over several lines. A string is written in the plainest form that takes
it.
-/

namespace KeyValueServer.Toml

/-! ## Reading -/

/-- The value of a hexadecimal digit. -/
def hexDigit? (c : Char) : Option Nat :=
  if c.isDigit then some (c.toNat - '0'.toNat)
  else if 'a' ≤ c ∧ c ≤ 'f' then some (c.toNat - 'a'.toNat + 10)
  else if 'A' ≤ c ∧ c ≤ 'F' then some (c.toNat - 'A'.toNat + 10)
  else none

/-- The character whose code point is written with `width` hexadecimal digits. -/
def codePoint? (width : Nat) (s : List Char) : Option (Char × List Char) := do
  let digits ← (s.take width).mapM hexDigit?
  let n := digits.foldl (fun n d => n * 16 + d) 0
  if digits.length = width ∧ n.isValidChar then some (Char.ofNat n, s.drop width) else none

/-- The character that an escape stands for, where the text begins after the backslash. -/
def escape? : Reader Char
  | [] => none
  | c :: rest =>
      match c with
      | 'b' => some (Char.ofNat 8, rest)
      | 't' => some ('\t', rest)
      | 'n' => some ('\n', rest)
      | 'f' => some (Char.ofNat 12, rest)
      | 'r' => some ('\r', rest)
      | '"' => some ('"', rest)
      | '\\' => some ('\\', rest)
      | 'u' => codePoint? 4 rest
      | 'U' => codePoint? 8 rest
      | _ => none

/-- A basic string from behind its opening quote. -/
def basic? (s : List Char) : Option (List Char × List Char) :=
  match s with
  | [] => none
  | c :: rest =>
      if c = '"' then some ([], rest)
      else if c = '\\' then
        match escape? rest with
        | none => none
        | some (d, after) =>
            if after.length ≤ rest.length then
              (basic? after).map fun (text, rest) => (d :: text, rest)
            else none
      else if isShown c then (basic? rest).map fun (text, rest) => (c :: text, rest)
      else none
termination_by s.length

/-- A literal string from behind its opening quote. -/
def literal? : List Char → Option (List Char × List Char)
  | [] => none
  | c :: rest =>
      if c = '\'' then some ([], rest)
      else if isShown c then (literal? rest).map fun (text, rest) => (c :: text, rest)
      else none

/-- How many quotes a text begins with. -/
def quoteRun (quote : Char) (s : List Char) : Nat := (s.takeWhile (· == quote)).length

/-- What follows the spaces and ends of lines that a text begins with. -/
def skipEmptyLines : List Char → List Char
  | [] => []
  | '\r' :: '\n' :: rest => skipEmptyLines rest
  | c :: rest => if isSpace c || c == '\n' then skipEmptyLines rest else c :: rest

/-- What follows a backslash at the end of a line: the next character that is neither a space
nor the end of a line. -/
def skipFold? (s : List Char) : Option (List Char) :=
  (newline? (skipSpaces s)).map skipEmptyLines

/-- A basic string of several lines from behind its opening quotes. One or two quotes in a row
belong to the string, and so do up to two in front of the three that close it. -/
def lines? (s : List Char) : Option (List Char × List Char) :=
  match s with
  | [] => none
  | c :: rest =>
      if c = '"' then
        let run := quoteRun '"' s
        if 3 ≤ run then some (List.replicate (min (run - 3) 2) '"', s.drop (min run 5))
        else (lines? rest).map fun (text, rest) => ('"' :: text, rest)
      else if c = '\\' then
        match skipFold? rest with
        | some after => if after.length ≤ rest.length then lines? after else none
        | none =>
            match escape? rest with
            | none => none
            | some (d, after) =>
                if after.length ≤ rest.length then
                  (lines? after).map fun (text, rest) => (d :: text, rest)
                else none
      else if isShown c then (lines? rest).map fun (text, rest) => (c :: text, rest)
      else match newline? s with
        | none => none
        | some after =>
            if after.length ≤ rest.length then
              (lines? after).map fun (text, rest) => ('\n' :: text, rest)
            else none
termination_by s.length

/-- A literal string of several lines from behind its opening quotes. -/
def literalLines? (s : List Char) : Option (List Char × List Char) :=
  match s with
  | [] => none
  | c :: rest =>
      if c = '\'' then
        let run := quoteRun '\'' s
        if 3 ≤ run then some (List.replicate (min (run - 3) 2) '\'', s.drop (min run 5))
        else (literalLines? rest).map fun (text, rest) => ('\'' :: text, rest)
      else if isShown c then (literalLines? rest).map fun (text, rest) => (c :: text, rest)
      else match newline? s with
        | none => none
        | some after =>
            if after.length ≤ rest.length then
              (literalLines? after).map fun (text, rest) => ('\n' :: text, rest)
            else none
termination_by s.length

/-- What follows three opening quotes: an end of line right behind them does not count. -/
def skipFirstNewline (s : List Char) : List Char := (newline? s).getD s

/-- A string in any of its forms. -/
def string? : Reader (List Char)
  | '"' :: '"' :: '"' :: rest => lines? (skipFirstNewline rest)
  | '"' :: rest => basic? rest
  | '\'' :: '\'' :: '\'' :: rest => literalLines? (skipFirstNewline rest)
  | '\'' :: rest => literal? rest
  | _ => none

/-! ## Writing -/

/-- The form in which a string is written. -/
inductive Quoting where
  | basic
  | literal
  | lines
  | literalLines
deriving DecidableEq

/-- The length of the longest run of a character. -/
def longestRun (c : Char) (text : List Char) : Nat :=
  ((pieces (· != c) text).map List.length).foldl max 0

/-- Whether a character shows only through an escape. Tabs and ends of lines do not count. -/
def isHidden (c : Char) : Bool := (c < ' ' && c != '\t' && c != '\n') || c.toNat == 0x7F

/-- The form in which a string is written: the first one that takes it without an escape, or
else a basic one. -/
def Quoting.ofText (text : List Char) : Quoting :=
  let hidden := text.any isHidden
  let backslash := text.contains '\\'
  let newline := text.contains '\n'
  let double := longestRun '"' text
  let single := longestRun '\'' text
  if !hidden && !backslash && double == 0 && !newline then .basic
  else if !hidden && single == 0 && !newline then .literal
  else if !hidden && !backslash && double ≤ 2 then .lines
  else if !hidden && single ≤ 2 then .literalLines
  else if newline then .lines else .basic

/-- A hexadecimal digit in upper case. -/
def upperHexDigit (n : Nat) : Char := if n < 10 then Char.ofNat (48 + n) else Char.ofNat (55 + n)

/-- A control character by its code point. -/
def escapedCodePoint (c : Char) : List Char :=
  ['\\', 'u', '0', '0', upperHexDigit (c.toNat / 16), upperHexDigit (c.toNat % 16)]

/-- The text of a basic string in which `quotes` quotes in a row may stand for themselves, after
`run` of them. -/
def escaped (quotes : Nat) : (run : Nat) → List Char → List Char
  | _, [] => []
  | run, c :: rest =>
      if c = '"' then
        if run < quotes then '"' :: escaped quotes (run + 1) rest
        else '\\' :: '"' :: escaped quotes 0 rest
      else (
        if c = '\\' then ['\\', '\\']
        else if c = '\t' then ['\\', 't']
        else if c = '\n' then (if quotes = 0 then ['\\', 'n'] else ['\n'])
        else if c = '\r' then ['\\', 'r']
        else if c.toNat = 8 then ['\\', 'b']
        else if c.toNat = 12 then ['\\', 'f']
        else if c < ' ' ∨ c.toNat = 0x7F then escapedCodePoint c
        else [c]) ++ escaped quotes 0 rest

/-- The end of line that is put behind three opening quotes, so that one in front of the text is
kept. -/
def leadingNewline (text : List Char) : List Char := if text.contains '\n' then ['\n'] else []

/-- A string, written. -/
def writeString (text : List Char) : List Char :=
  let three (quote : Char) : List Char := [quote, quote, quote]
  match Quoting.ofText text with
  | .basic => ['"'] ++ escaped 0 0 text ++ ['"']
  | .literal => ['\''] ++ text ++ ['\'']
  | .lines => three '"' ++ leadingNewline text ++ escaped 2 0 text ++ three '"'
  | .literalLines => three '\'' ++ leadingNewline text ++ text ++ three '\''

end KeyValueServer.Toml
