import KeyValueServer.Text.Numeral
import KeyValueServer.Toml.Node

/-!
# Numbers in TOML

An integer is written in decimal, hexadecimal, octal or binary digits, a floating point number
with a fraction, an exponent or both. Single underscores may stand between digits. Integers
have 64 bits, and a number too large for a float is refused.
-/

namespace KeyValueServer.Toml

/-- A sign in front of a number, and what follows it. -/
def signed : List Char → Bool × List Char
  | '-' :: rest => (true, rest)
  | '+' :: rest => (false, rest)
  | s => (false, s)

/-- The digits of a run in which underscores may stand between digits. -/
def digits? (isDigit : Char → Bool) (s : List Char) : Option (List Char) :=
  let runs := pieces (· == '_') s
  if runs.all fun run => !run.isEmpty && run.all isDigit then some runs.flatten else none

/-- The digits of a decimal run without leading zeros. -/
def plainDigits? (s : List Char) : Option (List Char) :=
  match digits? Char.isDigit s with
  | some ('0' :: _ :: _) => none
  | digits => digits

/-- The value of digits to a base of up to sixteen. -/
def valueOf (base : Nat) (digits : List Char) : Nat :=
  digits.foldl (fun n c =>
    n * base + (if c.isDigit then c.toNat - 48 else c.toLower.toNat - 87)) 0

/-- An integer that fits 64 bits. -/
def integer (n : Int) : Option Node :=
  if Int64.minValue.toInt ≤ n ∧ n ≤ Int64.maxValue.toInt then some (.integer n) else none

/-- An integer in the digits of a base. -/
def based? (base : Nat) (isDigit : Char → Bool) (s : List Char) : Option Node := do
  integer (valueOf base (← digits? isDigit s))

/-- Whether `mantissa` times ten to the power `exponent` is too large for a float: whether it
reaches the middle between the largest one, of 53 binary digits, and the next power of two. -/
def overflows (mantissa : Nat) (exponent : Int) : Bool :=
  let width := (Numeral.decimal mantissa).length
  if mantissa = 0 then false
  else if 400 < exponent + width then true
  else if exponent + width < 300 then false
  else
    let limit := Nat.pow 2 1024 - Nat.pow 2 970
    if 0 ≤ exponent then limit ≤ mantissa * Nat.pow 10 exponent.toNat
    else limit * Nat.pow 10 (-exponent).toNat ≤ mantissa

/-- The value of an exponent; without one it is zero. -/
def exponent? : List Char → Option Int
  | [] => some 0
  | _ :: s => do
      let (negative, rest) := signed s
      let n := valueOf 10 (← digits? Char.isDigit rest)
      pure (if negative then -n else n)

/-- The digits of a fraction; without one there are none. -/
def fraction? : List Char → Option (List Char)
  | [] => some []
  | _ :: s => digits? Char.isDigit s

/-- A floating point number. Only a positive one is refused for its size. -/
def float? (s : List Char) : Option Node := do
  let (negative, s) := signed s
  if s = "inf".toList ∨ s = "nan".toList then some .float
  else
    let isExponent (c : Char) : Bool := c == 'e' || c == 'E'
    let mantissa := s.takeWhile fun c => !isExponent c
    let whole ← plainDigits? (mantissa.takeWhile (· != '.'))
    let fraction ← fraction? (mantissa.dropWhile (· != '.'))
    let exponent ← exponent? (s.dropWhile fun c => !isExponent c)
    if fraction.isEmpty && mantissa.length = s.length then none
    else if !negative && overflows (valueOf 10 (whole ++ fraction)) (exponent - fraction.length)
    then none
    else some .float

/-- A number in any form. -/
def number? (s : List Char) : Option Node :=
  match s with
  | '0' :: 'x' :: rest =>
      based? 16 (fun c => c.isDigit || ('a' ≤ c.toLower && c.toLower ≤ 'f')) rest
  | '0' :: 'o' :: rest => based? 8 (fun c => '0' ≤ c && c ≤ '7') rest
  | '0' :: 'b' :: rest => based? 2 (fun c => c == '0' || c == '1') rest
  | _ =>
      let (negative, rest) := signed s
      match plainDigits? rest with
      | some digits => integer (if negative then -valueOf 10 digits else valueOf 10 digits)
      | none => float? s

end KeyValueServer.Toml
