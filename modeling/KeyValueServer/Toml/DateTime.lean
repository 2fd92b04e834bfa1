import KeyValueServer.Toml.Spacing

/-!
# Dates and times in TOML

A date, a time of day, or both, and with both an offset from universal time. The parts have
fixed widths and ranges, and a day must be one of its month.
-/

namespace KeyValueServer.Toml.DateTime

/-- A number of exactly `width` digits within a range. -/
def part? (width low high : Nat) (s : List Char) : Option (Nat × List Char) :=
  let digits := s.take width
  let n := digits.foldl (fun n c => n * 10 + (c.toNat - 48)) 0
  if digits.length = width ∧ digits.all Char.isDigit ∧ low ≤ n ∧ n ≤ high then
    some (n, s.drop width)
  else none

/-- What follows a given character. -/
def after? (c : Char) : List Char → Option (List Char)
  | d :: rest => if d = c then some rest else none
  | [] => none

/-- The number of days of a month. -/
def daysOf (year month : Nat) : Nat :=
  if month = 2 then
    if year % 4 = 0 ∧ (year % 100 ≠ 0 ∨ year % 400 = 0) then 29 else 28
  else if month = 4 ∨ month = 6 ∨ month = 9 ∨ month = 11 then 30
  else 31

/-- What follows a date. -/
def date? (s : List Char) : Option (List Char) := do
  let (year, s) ← part? 4 0 9999 s
  let (month, s) ← part? 2 1 12 (← after? '-' s)
  let (_, s) ← part? 2 1 (daysOf year month) (← after? '-' s)
  pure s

/-- What follows the fraction of a second, if there is one. -/
def fraction? : List Char → Option (List Char)
  | '.' :: s =>
      let rest := s.dropWhile Char.isDigit
      if rest.length = s.length then none else some rest
  | s => some s

/-- What follows a time of day. A second may be a leap second. -/
def time? (s : List Char) : Option (List Char) := do
  let (_, s) ← part? 2 0 23 s
  let (_, s) ← part? 2 0 59 (← after? ':' s)
  let (_, s) ← part? 2 0 60 (← after? ':' s)
  fraction? s

/-- What follows an offset from universal time, if there is one. -/
def offset? : List Char → Option (List Char)
  | [] => some []
  | c :: s =>
      if c = 'Z' ∨ c = 'z' then some s
      else if c = '+' ∨ c = '-' then do
        let (_, s) ← part? 2 0 23 s
        let (_, s) ← part? 2 0 59 (← after? ':' s)
        pure s
      else some (c :: s)

/-- What follows a date, a time, or both. Where no time follows the space behind a date, the
space is not part of it. -/
def read? (s : List Char) : Option (List Char) :=
  match date? s with
  | none => time? s
  | some [] => some []
  | some (c :: rest) =>
      if c = 'T' ∨ c = 't' ∨ c = ' ' then
        match time? rest with
        | some rest => offset? rest
        | none => if c = ' ' then some (c :: rest) else none
      else some (c :: rest)

end KeyValueServer.Toml.DateTime
