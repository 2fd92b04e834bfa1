import KeyValueServer.Text.Printable
import KeyValueServer.Text.Combining
import KeyValueServer.Text.Numeral

/-!
# Quoted text for trace lines

A text stands between double quotes. A quote, a backslash, the usual control characters and
NUL have short escapes; any other character that would not show by itself is written by its
code point.
-/

namespace KeyValueServer.Text

/-- A character written by its code point. -/
def escapedCodePoint (c : Char) : List Char :=
  "\\u\x7b".toList ++ (Numeral.hex c.toNat).toList ++ "\x7d".toList

/-- How one character stands between quotes. -/
def escaped (c : Char) : List Char :=
  if c = '"' then "\\\"".toList
  else if c = '\\' then "\\\\".toList
  else if c = '\n' then "\\n".toList
  else if c = '\r' then "\\r".toList
  else if c = '\t' then "\\t".toList
  else if c.toNat = 0 then "\\0".toList
  else if isExtending c || !isPrintable c then escapedCodePoint c
  else [c]

/-- A text between double quotes. -/
def quoted (text : List Char) : String :=
  String.ofList ('"' :: text.flatMap escaped ++ ['"'])

end KeyValueServer.Text
