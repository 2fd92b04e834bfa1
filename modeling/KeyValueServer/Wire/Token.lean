import KeyValueServer.Error

/-!
# Tokens

A token is `#:`, a payload and `~`. An integer travels as a token of its decimal digits. A
byte string travels as two tokens: its length, then its bytes. The bytes are counted, not
searched for an end, so they may hold the delimiters.
-/

namespace KeyValueServer.Token

/-- The two bytes that open a token. -/
def opening : Bytes := [ascii '#', ascii ':']

/-- The byte that closes a token. -/
def closing : UInt8 := ascii '~'

/-- The number of bytes around a payload. -/
def framing : Nat := 3

/-- The largest number of digits that is written. -/
def maxDigits : Nat := 16

/-- The first number that a token can not stand for. -/
def wordLimit : Nat := UInt64.size

/-- A payload between the delimiters. -/
def enclose (payload : Bytes) : Bytes := opening ++ payload ++ [closing]

/-- The token of an integer. -/
def ofNat (n : Nat) : Bytes := enclose (Numeral.decimal n)

/-- The two tokens of a byte string. -/
def ofBytes (bytes : Bytes) : Bytes := ofNat bytes.length ++ enclose bytes

/-- The value of a run of digits that continues a number already read. The first byte that
is not a digit, or that takes the value past the word limit, decides the fault. -/
def readDigits : (value : Nat) → Bytes → Except ArgumentFault Nat
  | value, [] => .ok value
  | value, b :: rest =>
      if !Numeral.isDigit b then .error .nonDigit
      else
        let next := value * 10 + Numeral.digitValue b
        if next < wordLimit then readDigits next rest else .error .integerOverflow

/-- The value of the integer token that `input` starts with, and the width of the token. -/
def readNat (input : Bytes) : Except ArgumentFault (Nat × Nat) :=
  if input.length ≤ framing then .error .truncatedInteger
  else if input.take 2 ≠ opening then .error .badPrefix
  else
    let body := input.drop 2
    let digits := body.takeWhile (· ≠ closing)
    if digits.length = body.length then .error .missingSuffix
    else if digits.isEmpty then .error .emptyInteger
    else (readDigits 0 digits).map fun value => (value, digits.length + framing)

/-- Whether `input` starts with a token of exactly `length` bytes of payload. -/
def checkPayload (length : Nat) (input : Bytes) : Except ArgumentFault Unit :=
  if wordLimit ≤ length + framing then .error .lengthOverflow
  else if input.length < length + framing then .error .truncatedString
  else if input.take 2 ≠ opening then .error .badPrefix
  else if input[length + 2]? ≠ some closing then .error .missingSuffix
  else .ok ()

end KeyValueServer.Token
