import KeyValueServer.Wire.Buffer
import KeyValueServer.Wire.Token

/-!
# Tokens in buffers

Writing tokens at the end of a buffer and reading them at its start. A writer leaves the
buffer as it was where it fails. A reader of an integer does so too; a reader of a byte
string may leave the read position just past the length token.
-/

namespace KeyValueServer.Buffer

/-- The error for a refused argument. -/
def refused {α : Type} (fault : ArgumentFault) : Except Error α :=
  .error (.invalidArgument fault)

/-- Write a token with this payload. -/
def putToken (b : Buffer) (payload : Bytes) : Except Error Buffer :=
  if b.free < payload.length + Token.framing then refused .noRoomForToken
  else do
    let b ← b.put Token.opening
    let b ← b.put payload
    b.put [Token.closing]

/-- Write an integer. -/
def encodeNat (b : Buffer) (n : Nat) : Except Error Buffer :=
  let digits := Numeral.decimal n
  if Token.maxDigits < digits.length then refused .integerTooWide
  else b.putToken digits

/-- Write a byte string. The room for both of its tokens is checked first. -/
def encodeBytes (b : Buffer) (bytes : Bytes) : Except Error Buffer :=
  let need := (Numeral.decimal bytes.length).length + bytes.length + 2 * Token.framing
  if b.free < need then refused .noRoomForString
  else do
    let b ← b.encodeNat bytes.length
    b.putToken bytes

/-- Read an integer. -/
def decodeNat (b : Buffer) : Except Error Nat × Buffer :=
  match Token.readNat b.readable with
  | .error fault => (refused fault, b)
  | .ok (value, width) => (.ok value, b.advance width)

/-- Read a byte string; the result says where its bytes are. -/
def decodeBytes (b : Buffer) : Except Error Span × Buffer :=
  match b.decodeNat with
  | (.error e, b) => (.error e, b)
  | (.ok length, b) =>
      match Token.checkPayload length b.readable with
      | .error fault => (refused fault, b)
      | .ok () => (.ok ⟨b.position + 2, length⟩, b.advance (length + Token.framing))

/-- An integer that was read takes up some of the readable bytes. -/
theorem size_decodeNat_lt {b rest : Buffer} {n : Nat} (h : b.decodeNat = (.ok n, rest)) :
    rest.size < b.size := by
  unfold decodeNat at h
  split at h
  · simp [refused] at h
  · next value width hread =>
      simp only [Prod.mk.injEq, Except.ok.injEq] at h
      obtain ⟨-, rfl⟩ := h
      unfold Token.readNat at hread
      split at hread <;> try contradiction
      next hlong =>
        split at hread <;> try contradiction
        dsimp only at hread
        split at hread <;> try contradiction
        split at hread <;> try contradiction
        cases hdigits : Token.readDigits 0
            (List.takeWhile (fun x => decide (x ≠ Token.closing)) (List.drop 2 b.readable)) with
        | error fault => rw [hdigits] at hread; simp [Except.map] at hread
        | ok value' =>
            rw [hdigits] at hread
            simp only [Except.map, Except.ok.injEq, Prod.mk.injEq] at hread
            simp only [size, advance, List.length_drop, Token.framing] at hlong hread ⊢
            omega

/-- Reading a byte string never adds to the readable bytes. -/
theorem size_decodeBytes_le (b : Buffer) : b.decodeBytes.2.size ≤ b.size := by
  unfold decodeBytes
  split
  · next e rest hnat =>
      unfold decodeNat at hnat
      split at hnat <;> simp only [Prod.mk.injEq] at hnat
      · obtain ⟨-, rfl⟩ := hnat
        exact Nat.le_refl _
      · simp at hnat
  · next length rest hnat =>
      have hlt := size_decodeNat_lt hnat
      split
      · exact Nat.le_of_lt hlt
      · simp only [size, advance, List.length_drop] at hlt ⊢
        omega

end KeyValueServer.Buffer
