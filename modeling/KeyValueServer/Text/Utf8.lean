import KeyValueServer.Bytes

/-!
# Reading UTF-8

A byte string is cut into pieces: a well-formed character, or the longest beginning of one
that is broken off. A strict reader refuses a string with a broken piece; a lossy reader puts
one replacement character for each.
-/

namespace KeyValueServer.Utf8

/-- What starts at some byte: a character or a broken one, and how many bytes it takes. -/
structure Piece where
  char : Option Char
  width : Nat

/-- Read the `missing` continuation bytes of a character. The first one must lie between `low`
and `high`, the later ones between `0x80` and `0xBF`. -/
def continued : (missing : Nat) → (low high : UInt8) → (value width : Nat) → Bytes → Piece
  | 0, _, _, value, width, _ => ⟨some (Char.ofNat value), width⟩
  | _ + 1, _, _, _, width, [] => ⟨none, width⟩
  | missing + 1, low, high, value, width, b :: rest =>
      if low ≤ b ∧ b ≤ high then
        continued missing 0x80 0xBF (value * 64 + b.toNat % 64) (width + 1) rest
      else ⟨none, width⟩

/-- The piece that starts with `lead`. The second byte is restricted where a longer form, a
surrogate or a value past the last code point would follow. -/
def piece (lead : UInt8) (rest : Bytes) : Piece :=
  if lead < 0x80 then ⟨some (Char.ofNat lead.toNat), 1⟩
  else if lead < 0xC2 then ⟨none, 1⟩
  else if lead < 0xE0 then continued 1 0x80 0xBF (lead.toNat % 32) 1 rest
  else if lead < 0xF0 then
    continued 2 (if lead = 0xE0 then 0xA0 else 0x80) (if lead = 0xED then 0x9F else 0xBF)
      (lead.toNat % 16) 1 rest
  else if lead < 0xF5 then
    continued 3 (if lead = 0xF0 then 0x90 else 0x80) (if lead = 0xF4 then 0x8F else 0xBF)
      (lead.toNat % 8) 1 rest
  else ⟨none, 1⟩

/-- The characters of a byte string, `none` for each broken one. -/
def chars : Bytes → List (Option Char)
  | [] => []
  | lead :: rest =>
      (piece lead rest).char :: chars (rest.drop ((piece lead rest).width - 1))
termination_by bytes => bytes.length
decreasing_by simp only [List.length_drop, List.length_cons]; omega

/-- The text of a well-formed byte string. -/
def decode? (bytes : Bytes) : Option (List Char) :=
  (chars bytes).mapM id

/-- The text of any byte string, with U+FFFD for each broken character. -/
def decodeLossy (bytes : Bytes) : List Char :=
  (chars bytes).map fun c => c.getD (Char.ofNat 0xFFFD)

/-- The bytes of a text. -/
def encode (text : List Char) : Bytes :=
  (String.ofList text).toUTF8.toList

end KeyValueServer.Utf8
