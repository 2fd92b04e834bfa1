import KeyValueServer.Wire.Codec
import Mathlib.Data.List.TakeWhile

/-!
# The grammar of tokens

Which bytes are a token is said here without a reader: an integer token encloses at least one digit,
and a byte string is the integer token of its length followed by its enclosed bytes. The readers
accept exactly the inputs that begin with such a token. No token begins another, so there is never a
choice.
-/

namespace KeyValueServer

namespace Numeral

/-- The number that a run of digits stands for, continuing a number already read. -/
def continued (start : Nat) (digits : Bytes) : Nat :=
  digits.foldl (fun value d => value * 10 + digitValue d) start

theorem le_continued (start : Nat) (digits : Bytes) : start ≤ continued start digits := by
  induction digits generalizing start with
  | nil => exact le_rfl
  | cons d rest ih =>
      have hnext := ih (start * 10 + digitValue d)
      have hgrows : start ≤ start * 10 + digitValue d := by omega
      exact hgrows.trans hnext

theorem ne_closing_of_isDigit {d : UInt8} (h : isDigit d = true) : d ≠ Token.closing := by
  rintro rfl
  exact absurd h (by decide)

end Numeral

namespace Token

/-- The tokens of an integer below the word limit. Leading zeros are allowed. -/
inductive IsNat (n : Nat) : Bytes → Prop
  | intro {digits : Bytes} (hne : digits ≠ []) (hdigits : ∀ d ∈ digits, Numeral.isDigit d = true)
      (hvalue : Numeral.continued 0 digits = n) (hlimit : n < wordLimit) : IsNat n (enclose digits)

/-- The two tokens of a byte string. -/
inductive IsString (payload : Bytes) : Bytes → Prop
  | intro {size : Bytes} (hsize : IsNat payload.length size) :
      IsString payload (size ++ enclose payload)

theorem length_enclose (payload : Bytes) : (enclose payload).length = payload.length + framing := by
  simp [enclose, opening, framing]

theorem enclose_append (payload rest : Bytes) :
    enclose payload ++ rest = ascii '#' :: ascii ':' :: (payload ++ closing :: rest) := by
  simp [enclose, opening]

theorem IsNat.length_pos {n : Nat} {token : Bytes} (h : IsNat n token) : 0 < token.length := by
  obtain ⟨-, -, -, -⟩ := h
  rw [length_enclose]
  exact Nat.succ_pos _

/-! ## Reading digits -/

-- Each partial value stays below the limit because the last one does: they only grow.
theorem readDigits_eq_ok_iff {start n : Nat} (hstart : start < wordLimit) (digits : Bytes) :
    readDigits start digits = .ok n ↔
      (∀ d ∈ digits, Numeral.isDigit d = true) ∧ Numeral.continued start digits = n ∧
        n < wordLimit := by
  induction digits generalizing start with
  | nil =>
      simp only [readDigits, Except.ok.injEq, Numeral.continued, List.foldl_nil,
        List.not_mem_nil, false_implies, implies_true, true_and, iff_self_and]
      rintro rfl
      exact hstart
  | cons d rest ih =>
      rw [List.forall_mem_cons]
      by_cases hdigit : Numeral.isDigit d = true
      · by_cases hnext : start * 10 + Numeral.digitValue d < wordLimit
        · simp only [readDigits, hdigit, Bool.not_true, Bool.false_eq_true, if_false, hnext,
            if_true, ih hnext, true_and]
          rfl
        · simp only [readDigits, hdigit, Bool.not_true, Bool.false_eq_true, if_false, hnext,
            reduceCtorEq, true_and, false_iff, not_and, not_lt]
          rintro - rfl
          exact (not_lt.mp hnext).trans (Numeral.le_continued _ rest)
      · simp [readDigits, hdigit]

/-! ## Reading an integer -/

/-- A run of bytes without the closing byte is all that comes before the first one. -/
theorem takeWhile_closing {digits : Bytes} (h : ∀ d ∈ digits, d ≠ closing) (rest : Bytes) :
    (digits ++ closing :: rest).takeWhile (· ≠ closing) = digits := by
  rw [List.takeWhile_append_of_pos (by simpa using h), List.takeWhile_cons_of_neg (by simp),
    List.append_nil]

theorem exists_closing {body : Bytes} (h : (body.takeWhile (· ≠ closing)).length ≠ body.length) :
    ∃ rest, body = body.takeWhile (· ≠ closing) ++ closing :: rest := by
  have hsplit := List.takeWhile_append_dropWhile (p := (· ≠ closing)) (l := body)
  have hhead := List.head?_dropWhile_not (· ≠ closing) body
  cases hdrop : body.dropWhile (· ≠ closing) with
  | nil =>
      rw [hdrop, List.append_nil] at hsplit
      exact absurd (congrArg List.length hsplit) h
  | cons d rest =>
      rw [hdrop] at hsplit hhead
      have hd : d = closing := by simpa using hhead
      rw [hd] at hsplit
      exact ⟨rest, hsplit.symm⟩

theorem readNat_append {n : Nat} {token : Bytes} (h : IsNat n token) (rest : Bytes) :
    readNat (token ++ rest) = .ok (n, token.length) := by
  obtain ⟨hne, hdigits, hvalue, hlimit⟩ := h
  rename_i digits
  have hread := (readDigits_eq_ok_iff (by decide) digits).mpr ⟨hdigits, hvalue, hlimit⟩
  have hwhile := takeWhile_closing (fun d hd => Numeral.ne_closing_of_isDigit (hdigits d hd)) rest
  have hpos := List.length_pos_iff.mpr hne
  rw [enclose_append, readNat, length_enclose]
  have hlong : ¬(ascii '#' :: ascii ':' :: (digits ++ closing :: rest)).length ≤ framing := by
    simp only [List.length_cons, List.length_append, framing]
    omega
  have hshorter : ¬digits.length = (digits ++ closing :: rest).length := by
    simp
  rw [if_neg hlong, if_neg (by simp [opening])]
  simp only [List.drop_succ_cons, List.drop_zero, hwhile]
  rw [if_neg hshorter, if_neg (by simpa using hne), hread]
  rfl

/-- Only an input that begins with an integer token is read as an integer. -/
theorem isNat_of_readNat {input : Bytes} {n width : Nat} (h : readNat input = .ok (n, width)) :
    ∃ token rest, input = token ++ rest ∧ IsNat n token ∧ token.length = width := by
  unfold readNat at h
  split at h
  · contradiction
  split at h
  · contradiction
  next hopening =>
    dsimp only at h
    split at h
    · contradiction
    next hshorter =>
      split at h
      · contradiction
      next hnonempty =>
        cases hread : readDigits 0 ((input.drop 2).takeWhile (· ≠ closing)) with
        | error fault => simp only [hread, Except.map, reduceCtorEq] at h
        | ok value =>
            simp only [hread, Except.map, Except.ok.injEq, Prod.mk.injEq] at h
            obtain ⟨rfl, rfl⟩ := h
            obtain ⟨hdigits, hvalue, hlimit⟩ := (readDigits_eq_ok_iff (by decide) _).mp hread
            obtain ⟨rest, hbody⟩ := exists_closing hshorter
            refine ⟨_, rest, ?_, .intro (by simpa using hnonempty) hdigits hvalue hlimit,
              length_enclose _⟩
            have hinput := List.take_append_drop 2 input
            rw [not_not.mp hopening, hbody] at hinput
            rw [enclose, List.append_assoc, List.append_assoc, List.singleton_append, hinput]

/-- An input begins with at most one integer token. -/
theorem IsNat.unique {n n' : Nat} {token token' rest rest' : Bytes} (h : IsNat n token)
    (h' : IsNat n' token') (heq : token ++ rest = token' ++ rest') :
    n = n' ∧ token = token' ∧ rest = rest' := by
  have hread := readNat_append h rest
  rw [heq, readNat_append h' rest'] at hread
  obtain ⟨hn, hlength⟩ := Prod.mk.inj (Except.ok.inj hread)
  exact ⟨hn.symm, List.append_inj heq hlength.symm⟩

/-! ## Reading a byte string -/

theorem checkPayload_append {payload : Bytes} (hfits : payload.length + framing < wordLimit)
    (rest : Bytes) : checkPayload payload.length (enclose payload ++ rest) = .ok () := by
  have hlong : ¬(enclose payload ++ rest).length < payload.length + framing := by
    rw [List.length_append, length_enclose]
    omega
  rw [checkPayload, if_neg (not_le.mpr hfits), if_neg hlong, enclose_append]
  simp [opening]

theorem enclose_of_checkPayload {length : Nat} {input : Bytes}
    (h : checkPayload length input = .ok ()) :
    ∃ payload rest, input = enclose payload ++ rest ∧ payload.length = length := by
  simp only [checkPayload] at h
  split_ifs at h with hword hshort hopening hclosing
  refine ⟨(input.drop 2).take length, (input.drop 2).drop (length + 1), ?_, ?_⟩
  · have hinput := List.take_append_drop 2 input
    have hbody := List.take_append_drop length (input.drop 2)
    have hnext : (input.drop 2).drop length = closing :: (input.drop 2).drop (length + 1) := by
      have hget : (input.drop 2)[length]? = some closing := by
        rw [List.getElem?_drop, Nat.add_comm]
        exact not_not.mp hclosing
      obtain ⟨hlt, hget⟩ := List.getElem?_eq_some_iff.mp hget
      rw [List.drop_eq_getElem_cons hlt, hget]
    rw [hnext] at hbody
    rw [enclose, List.append_assoc, List.append_assoc, List.singleton_append, hbody,
      ← not_not.mp hopening, hinput]
  · rw [List.length_take, List.length_drop]
    simp only [framing] at hshort
    omega

/-- An input begins with at most one byte string. -/
theorem IsString.unique {payload payload' token token' rest rest' : Bytes}
    (h : IsString payload token) (h' : IsString payload' token')
    (heq : token ++ rest = token' ++ rest') :
    payload = payload' ∧ token = token' ∧ rest = rest' := by
  obtain ⟨hsize⟩ := h
  obtain ⟨hsize'⟩ := h'
  rw [List.append_assoc, List.append_assoc] at heq
  obtain ⟨hlength, rfl, hrest⟩ := hsize.unique hsize' heq
  have henclosed : (enclose payload).length = (enclose payload').length := by
    rw [length_enclose, length_enclose, hlength]
  obtain ⟨hpayload, rfl⟩ := List.append_inj hrest henclosed
  simp only [enclose, List.append_assoc, List.append_cancel_left_eq] at hpayload
  obtain ⟨rfl, -⟩ := List.append_inj hpayload hlength
  exact ⟨rfl, rfl, rfl⟩

end Token

/-! ## Reading from a buffer -/

namespace Buffer

open Token

variable {b : Buffer} {n : Nat} {payload token rest : Bytes}

theorem bytesAt_advance (b : Buffer) (count : Nat) (span : Span) :
    (b.advance count).bytesAt span = b.bytesAt span := by
  simp [bytesAt, storage, advance]

theorem advance_advance (b : Buffer) (first second : Nat) :
    (b.advance first).advance second = b.advance (first + second) := by
  simp [advance, List.take_add, List.drop_drop]

theorem size_advance_le (b : Buffer) (count : Nat) : (b.advance count).size ≤ b.size := by
  simp [advance, size]

theorem readable_advance (h : b.readable = token ++ rest) :
    (b.advance token.length).readable = rest := by
  simp [advance, h]

theorem decodeNat_of_isNat (h : b.readable = token ++ rest) (hn : IsNat n token) :
    b.decodeNat = (.ok n, b.advance token.length) := by
  rw [decodeNat, h, readNat_append hn]

theorem decodeNat_of_not (h : ∀ n token rest, IsNat n token → b.readable ≠ token ++ rest) :
    ∃ fault, b.decodeNat = (.error (.invalidArgument fault), b) := by
  rw [decodeNat]
  cases hread : readNat b.readable with
  | error fault => exact ⟨fault, rfl⟩
  | ok result =>
      obtain ⟨token, rest, hreadable, hn, -⟩ := isNat_of_readNat hread
      exact absurd hreadable (h _ token rest hn)

/-- A byte string is found at the place that the reader names, and the read position goes past it.
-/
theorem decodeBytes_of_isString (h : b.readable = token ++ rest) (hs : IsString payload token)
    (hfits : payload.length + framing < wordLimit) :
    ∃ span, b.decodeBytes = (.ok span, b.advance token.length) ∧ b.bytesAt span = payload := by
  obtain ⟨hsize⟩ := hs
  rename_i size
  rw [List.append_assoc] at h
  have hpayload := readable_advance h
  have hlength : (size ++ enclose payload).length = size.length + (payload.length + framing) := by
    rw [List.length_append, length_enclose]
  refine ⟨⟨(b.advance size.length).position + 2, payload.length⟩, ?_, ?_⟩
  · rw [decodeBytes, decodeNat_of_isNat h hsize]
    dsimp only
    rw [hpayload, checkPayload_append hfits]
    dsimp only
    rw [advance_advance, hlength]
  · have hstorage : b.storage = (b.consumed ++ size ++ opening) ++
        (payload ++ ([closing] ++ rest ++ b.spare)) := by
      simp [storage, h, enclose]
    have hstart : (b.advance size.length).position + 2 =
        (b.consumed ++ size ++ opening).length := by
      simp [position, advance, h, opening, Nat.add_assoc]
    rw [bytesAt, hstorage, hstart, List.drop_left, List.take_left]

theorem decodeBytes_of_not (h : ∀ payload token rest, IsString payload token →
    b.readable ≠ token ++ rest) :
    ∃ fault next, b.decodeBytes = (.error (.invalidArgument fault), next) := by
  rw [decodeBytes]
  by_cases hsize : ∃ n size rest, IsNat n size ∧ b.readable = size ++ rest
  · obtain ⟨n, size, rest, hn, hreadable⟩ := hsize
    rw [decodeNat_of_isNat hreadable hn]
    dsimp only
    cases hcheck : checkPayload n (b.advance size.length).readable with
    | error fault => exact ⟨fault, _, rfl⟩
    | ok =>
        obtain ⟨payload, tail, hrest, rfl⟩ := enclose_of_checkPayload hcheck
        rw [readable_advance hreadable] at hrest
        refine absurd ?_ (h payload _ tail (.intro hn))
        rw [hreadable, hrest, List.append_assoc]
  · obtain ⟨fault, hfault⟩ := decodeNat_of_not fun n size rest hn hreadable =>
      hsize ⟨n, size, rest, hn, hreadable⟩
    rw [hfault]
    exact ⟨fault, b, rfl⟩

end Buffer

end KeyValueServer
