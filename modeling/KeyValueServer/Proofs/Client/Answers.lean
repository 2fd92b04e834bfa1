import KeyValueServer.Proofs.Wire.RoundTrip

/-!
# The grammar of answers

An answer is the integer token of its status and, where the status is success and a value is wanted,
the byte string of the value. Bytes are read as what the answer at their start says. No answer
begins another one, so more bytes never change what was read.
-/

namespace KeyValueServer

open Token

/-- The bytes of an answer, for a client that wants a value or does not, and what they say. -/
inductive IsAnswer : Bool → Except Error (Option Bytes) → Bytes → Prop
  | status {wantsValue : Bool} {n : Nat} {code : Bytes} (hn : n ≠ 0) (hcode : IsNat n code) :
      IsAnswer wantsValue (.error (.status n)) code
  | done {code : Bytes} (hcode : IsNat 0 code) : IsAnswer false (.ok none) code
  | value {value code token : Bytes} (hcode : IsNat 0 code) (hvalue : IsString value token)
      (hfits : value.length + framing < wordLimit) :
      IsAnswer true (.ok (some value)) (code ++ token)

variable {wantsValue : Bool} {result result' : Except Error (Option Bytes)}
  {answer answer' bytes rest rest' : Bytes}

theorem IsAnswer.ne_invalidArgument (h : IsAnswer wantsValue result answer)
    (fault : ArgumentFault) :
    result ≠ .error (.invalidArgument fault) := by
  cases h <;> simp

theorem readAnswer_of_isAnswer (h : IsAnswer wantsValue result answer) (rest : Bytes) :
    readAnswer wantsValue (.ofBytes (answer ++ rest)) = result := by
  cases h with
  | status hn hcode =>
      rw [readAnswer, Buffer.decodeNat_of_isNat rfl hcode]
      exact if_pos hn
  | done hcode =>
      rw [readAnswer, Buffer.decodeNat_of_isNat rfl hcode]
      rfl
  | @value value code token hcode hvalue hfits =>
      have hreadable : (Buffer.ofBytes (code ++ token ++ rest)).readable =
          code ++ (token ++ rest) := List.append_assoc _ _ _
      obtain ⟨span, hspan, hbytes⟩ :=
        Buffer.decodeBytes_of_isString (Buffer.readable_advance hreadable) hvalue hfits
      rw [readAnswer, Buffer.decodeNat_of_isNat hreadable hcode]
      simp only [hspan, Buffer.bytesAt_advance] at hbytes ⊢
      rw [hbytes]
      rfl

/-- What can be read begins with an answer that says so. -/
theorem isAnswer_of_readAnswer
    (h : ∀ fault, readAnswer wantsValue (.ofBytes bytes) ≠ .error (.invalidArgument fault)) :
    ∃ answer rest, bytes = answer ++ rest ∧
      IsAnswer wantsValue (readAnswer wantsValue (.ofBytes bytes)) answer := by
  rcases hnat : (Buffer.ofBytes bytes).decodeNat with ⟨e | status, after⟩
  · obtain ⟨fault, rfl⟩ := Buffer.eq_invalidArgument_of_decodeNat hnat
    exact absurd (by rw [readAnswer, hnat]) (h fault)
  obtain ⟨code, tail, hcode, hreadable, rfl⟩ := Buffer.isNat_of_decodeNat hnat
  have hbytes : bytes = code ++ tail := hreadable
  simp only [readAnswer, hnat] at h ⊢
  by_cases hstatus : status = 0
  swap
  · rw [if_pos hstatus]
    exact ⟨code, tail, hbytes, .status hstatus hcode⟩
  subst hstatus
  cases wantsValue with
  | false => exact ⟨code, tail, hbytes, .done hcode⟩
  | true =>
      rcases hvalue : ((Buffer.ofBytes bytes).advance code.length).decodeBytes with ⟨e | span, last⟩
      · obtain ⟨fault, rfl⟩ := Buffer.eq_invalidArgument_of_decodeBytes hvalue
        exact absurd (by simp [hvalue]) (h fault)
      obtain ⟨value, token, remainder, hs, hfits, hafter, -⟩ :=
        Buffer.isString_of_decodeBytes hvalue
      obtain ⟨span', hspan, hfound⟩ := Buffer.decodeBytes_of_isString hafter hs hfits
      rw [hspan] at hvalue
      obtain ⟨rfl, rfl⟩ : span' = span ∧ _ = last := by simpa using hvalue
      rw [Buffer.readable_advance hreadable] at hafter
      refine ⟨code ++ token, remainder, by rw [hbytes, hafter, List.append_assoc], ?_⟩
      simp only [Buffer.bytesAt_advance, ne_eq, not_true_eq_false, if_false, Bool.not_true,
        Bool.false_eq_true] at hfound ⊢
      rw [hfound]
      exact .value hcode hs hfits

theorem IsAnswer.head? (h : IsAnswer wantsValue result answer) :
    answer.head? = some (ascii '#') := by
  cases h with
  | status _ hcode | done hcode =>
      obtain ⟨-, -, -, -⟩ := hcode
      rfl
  | value hcode =>
      obtain ⟨-, -, -, -⟩ := hcode
      rfl

/-- Bytes begin with at most one answer. -/
theorem IsAnswer.unique (h : IsAnswer wantsValue result answer)
    (h' : IsAnswer wantsValue result' answer') (heq : answer ++ rest = answer' ++ rest') :
    answer = answer' ∧ rest = rest' := by
  cases h with
  | status hn hcode =>
      cases h' with
      | status _ hcode' => exact (hcode.unique hcode' heq).2
      | done hcode' => exact absurd (hcode.unique hcode' heq).1 hn
      | value hcode' =>
          rw [List.append_assoc] at heq
          exact absurd (hcode.unique hcode' heq).1 hn
  | done hcode =>
      cases h' with
      | status hn hcode' => exact absurd (hcode.unique hcode' heq).1.symm hn
      | done hcode' => exact (hcode.unique hcode' heq).2
  | value hcode hvalue =>
      rw [List.append_assoc] at heq
      cases h' with
      | status hn hcode' => exact absurd (hcode.unique hcode' heq).1.symm hn
      | value hcode' hvalue' =>
          rw [List.append_assoc] at heq
          obtain ⟨-, rfl, hafter⟩ := hcode.unique hcode' heq
          obtain ⟨-, rfl, hrest⟩ := hvalue.unique hvalue' hafter
          exact ⟨rfl, hrest⟩

/-- An answer that can be read is read in the same way when more bytes follow. -/
theorem readAnswer_append
    (h : ∀ fault, readAnswer wantsValue (.ofBytes bytes) ≠ .error (.invalidArgument fault))
    (more : Bytes) :
    readAnswer wantsValue (.ofBytes (bytes ++ more)) = readAnswer wantsValue (.ofBytes bytes) := by
  obtain ⟨answer, rest, rfl, hanswer⟩ := isAnswer_of_readAnswer h
  rw [List.append_assoc]
  exact readAnswer_of_isAnswer hanswer (rest ++ more)

end KeyValueServer
