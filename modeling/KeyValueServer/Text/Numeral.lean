import KeyValueServer.Bytes

/-!
# Decimal and hexadecimal numerals

Writing numbers as digits, and reading the numerals that command lines, environment variables
and the wire format use.
-/

namespace KeyValueServer.Numeral

/-- The digit for a number below ten. -/
def digit (d : Nat) : UInt8 := ascii '0' + UInt8.ofNat d

/-- The decimal digits of a number, most significant first, without leading zeros. -/
def decimal (n : Nat) : Bytes :=
  if n < 10 then [digit n] else decimal (n / 10) ++ [digit (n % 10)]
termination_by n

/-- Whether a byte is an ASCII digit. -/
def isDigit (b : UInt8) : Bool := ascii '0' ≤ b && b ≤ ascii '9'

/-- The value of an ASCII digit. -/
def digitValue (b : UInt8) : Nat := b.toNat - 48

/-- The hexadecimal digits of a number in lower case, without leading zeros. -/
def hex (n : Nat) : String := String.ofList (Nat.toDigits 16 n)

/-- The value of a run of decimal digits that continues a number already read. -/
def decimalValue (start : Nat) (digits : List Char) : Nat :=
  digits.foldl (fun value c => value * 10 + (c.toNat - 48)) start

/-- The value of a numeral made of decimal digits only; an empty one has none. -/
def unsigned? (text : List Char) : Option Nat :=
  if text.isEmpty || text.any (fun c => !c.isDigit) then none
  else some (decimalValue 0 text)

/-- The value of a numeral with an optional plus sign. -/
def natural? : List Char → Option Nat
  | '+' :: digits => unsigned? digits
  | text => unsigned? text

/-- The value of a numeral with an optional sign. -/
def integer? : List Char → Option Int
  | '+' :: digits => (unsigned? digits).map Int.ofNat
  | '-' :: digits => (unsigned? digits).map fun n => -Int.ofNat n
  | text => (unsigned? text).map Int.ofNat

end KeyValueServer.Numeral
