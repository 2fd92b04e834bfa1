import KeyValueServer.Proofs.Wire.RoundTrip

/-!
# What the readers accept

The readers of integers and byte strings accept exactly the inputs that begin with such a token, and
refuse all others for their arguments. An integer that is refused leaves the buffer alone; a byte
string that is refused may take its length token with it.

The readers are also written out with positions in the storage and machine words. A position outside
of the storage, or a word that wraps, ends these without a result; they always have the result of
the readers proper.
-/

namespace KeyValueServer

namespace Token

/-- The sum of two machine words, where it is one. -/
def wordSum? (m n : Nat) : Option Nat := if m + n < wordLimit then some (m + n) else none

/-- The product of two machine words, where it is one. -/
def wordProduct? (m n : Nat) : Option Nat := if m * n < wordLimit then some (m * n) else none

/-- The difference of two bytes, where it is one. -/
def byteDifference? (d e : UInt8) : Option Nat := if e ≤ d then some (d - e).toNat else none

/-- The bytes from one position to another, where both are positions in the bytes. -/
def between? (bytes : Bytes) (first last : Nat) : Option Bytes :=
  if first ≤ last ∧ last ≤ bytes.length then some ((bytes.take last).drop first) else none

/-- The value of a run of digits in machine words. Products and sums that are none are refused, a
difference that is none has no result. -/
def readDigits? : (value : Nat) → Bytes → Option (Except ArgumentFault Nat)
  | value, [] => some (.ok value)
  | value, d :: rest =>
      if !Numeral.isDigit d then some (.error .nonDigit)
      else (byteDifference? d (ascii '0')).bind fun digit =>
        match (wordProduct? value 10).bind fun tens => wordSum? tens digit with
        | none => some (.error .integerOverflow)
        | some next => readDigits? next rest

theorem byteDifference?_of_isDigit {d : UInt8} (h : Numeral.isDigit d = true) :
    byteDifference? d (ascii '0') = some (Numeral.digitValue d) := by
  have hle : ascii '0' ≤ d := by
    simp only [Numeral.isDigit, Bool.and_eq_true, decide_eq_true_eq] at h
    exact h.1
  rw [byteDifference?, if_pos hle, UInt8.toNat_sub_of_le _ _ hle]
  rfl

theorem readDigits?_eq (value : Nat) (digits : Bytes) :
    readDigits? value digits = some (readDigits value digits) := by
  induction digits generalizing value with
  | nil => rfl
  | cons d rest ih =>
      by_cases hdigit : Numeral.isDigit d = true
      · simp only [readDigits?, readDigits, hdigit, Bool.not_true, Bool.false_eq_true, if_false,
          byteDifference?_of_isDigit hdigit, Option.bind_some]
        by_cases hnext : value * 10 + Numeral.digitValue d < wordLimit
        · have htens : value * 10 < wordLimit := by omega
          simp only [wordProduct?, htens, if_true, Option.bind_some, wordSum?, hnext, ih]
        · have hnone : ((wordProduct? value 10).bind fun tens =>
              wordSum? tens (Numeral.digitValue d)) = none := by
            by_cases htens : value * 10 < wordLimit <;> simp [wordProduct?, wordSum?, htens, hnext]
          rw [if_neg hnext, hnone]
      · simp [readDigits?, readDigits, hdigit]

theorem between?_of_le {bytes : Bytes} {first last : Nat} (h : first ≤ last)
    (hlast : last ≤ bytes.length) :
    between? bytes first last = some ((bytes.take last).drop first) :=
  if_pos ⟨h, hlast⟩

theorem wordSum?_of_lt {m n : Nat} (h : m + n < wordLimit) : wordSum? m n = some (m + n) :=
  if_pos h

/-- The run of bytes before the first closing byte, by the position of that byte. -/
theorem takeWhile_of_findIdx? {body : Bytes} {place : Nat}
    (h : body.findIdx? (· == closing) = some place) :
    body.takeWhile (· ≠ closing) = body.take place ∧ place < body.length := by
  obtain ⟨hlt, hplace⟩ := List.findIdx?_eq_some_iff_findIdx_eq.mp h
  refine ⟨?_, hlt⟩
  rw [List.takeWhile_eq_take_findIdx_not, ← hplace]
  congr 2
  funext d
  simp [beq_eq_decide]

theorem takeWhile_of_findIdx?_none {body : Bytes}
    (h : body.findIdx? (· == closing) = none) : body.takeWhile (· ≠ closing) = body := by
  rw [List.takeWhile_eq_self_iff]
  intro d hd
  simpa using List.findIdx?_eq_none_iff.mp h d hd

end Token

namespace Buffer

open Token

variable {b rest : Buffer} {n : Nat} {span : Span}

/-! ## Readers with positions and machine words -/

/-- The readable bytes by their positions in the storage. -/
def readable? (b : Buffer) : Option Bytes :=
  (wordSum? b.position b.size).bind fun last => between? b.storage b.position last

/-- Consume bytes that are there. -/
def advance? (b : Buffer) (count : Nat) : Option Buffer :=
  if count ≤ b.size then (wordSum? b.position count).map fun _ => b.advance count else none

/-- Read an integer, with positions and machine words. -/
def decodeNat? (b : Buffer) : Option (Except Error Nat × Buffer) := do
  let input ← b.readable?
  if input.length ≤ framing then some (refused .truncatedInteger, b)
  else if (← between? input 0 2) ≠ opening then some (refused .badPrefix, b)
  else match (← between? input 2 input.length).findIdx? (· == closing) with
    | none => some (refused .missingSuffix, b)
    | some place => do
        let stop ← wordSum? place 2
        let digits ← between? input 2 stop
        if digits.isEmpty then some (refused .emptyInteger, b)
        else match ← readDigits? 0 digits with
          | .error fault => some (refused fault, b)
          | .ok value => do
              let width ← wordSum? stop 1
              let next ← b.advance? width
              some (.ok value, next)

/-- Read a byte string, with positions and machine words. -/
def decodeBytes? (b : Buffer) : Option (Except Error Span × Buffer) := do
  match ← b.decodeNat? with
  | (.error e, b) => some (.error e, b)
  | (.ok length, b) => do
      let input ← b.readable?
      match wordSum? length framing with
      | none => some (refused .lengthOverflow, b)
      | some total =>
          if input.length < total then some (refused .truncatedString, b)
          else if (← between? input 0 2) ≠ opening then some (refused .badPrefix, b)
          else do
            let last ← wordSum? length 2
            if (← input[last]?) ≠ closing then some (refused .missingSuffix, b)
            else do
              let start ← wordSum? b.position 2
              let next ← b.advance? total
              some (.ok ⟨start, length⟩, next)

theorem position_add_size_le (b : Buffer) : b.position + b.size ≤ b.capacity :=
  Nat.le_add_right _ _

theorem position_add_size_advance (b : Buffer) (count : Nat) :
    (b.advance count).position + (b.advance count).size = b.position + b.size := by
  simp only [position, size, advance, List.length_append, List.length_take, List.length_drop]
  omega

theorem readable?_eq (h : b.capacity < wordLimit) : b.readable? = some b.readable := by
  have hle := b.position_add_size_le
  rw [readable?, wordSum?_of_lt (by omega), Option.bind_some,
    between?_of_le (Nat.le_add_right _ _) (by rwa [length_storage])]
  simp [storage, position, size, List.take_append]

theorem advance?_eq (h : b.capacity < wordLimit) {count : Nat} (hcount : count ≤ b.size) :
    b.advance? count = some (b.advance count) := by
  have hle := b.position_add_size_le
  rw [advance?, if_pos hcount, wordSum?_of_lt (by omega)]
  rfl

theorem decodeNat?_eq (h : b.capacity < wordLimit) : b.decodeNat? = some b.decodeNat := by
  have hsize := (Nat.le_add_left b.size b.position).trans b.position_add_size_le
  rw [decodeNat?, readable?_eq h, decodeNat, readNat]
  simp only [Option.bind_eq_bind, Option.bind_some]
  by_cases hshort : b.readable.length ≤ framing
  · simp only [hshort, if_true]
  have hlong : 2 ≤ b.readable.length := by
    simp only [framing, not_le] at hshort
    omega
  rw [if_neg hshort, if_neg hshort, between?_of_le (Nat.zero_le 2) hlong,
    between?_of_le hlong le_rfl]
  simp only [Option.bind_some, List.drop_zero, List.take_length]
  by_cases hopening : b.readable.take 2 ≠ opening
  · rw [if_pos hopening, if_pos hopening]
  rw [if_neg hopening, if_neg hopening]
  cases hplace : (b.readable.drop 2).findIdx? (· == closing) with
  | none =>
      rw [takeWhile_of_findIdx?_none hplace, if_pos rfl]
  | some place =>
      obtain ⟨hdigits, hlt⟩ := takeWhile_of_findIdx? hplace
      have hlength : ((b.readable.drop 2).take place).length = place :=
        List.length_take_of_le hlt.le
      rw [List.length_drop] at hlt
      have hstop : place + 2 < wordLimit := by
        rw [size] at hsize
        omega
      have hbetween :
          between? b.readable 2 (place + 2) = some ((b.readable.drop 2).take place) := by
        rw [between?_of_le (by omega) (by omega), List.drop_take, Nat.add_sub_cancel]
      rw [hdigits, hlength, if_neg (by rw [List.length_drop]; omega)]
      simp only [wordSum?_of_lt hstop, Option.bind_some, hbetween]
      split
      · rfl
      · rw [readDigits?_eq]
        cases readDigits 0 ((b.readable.drop 2).take place) with
        | error fault => rfl
        | ok value =>
            have hwidth : place + 2 + 1 < wordLimit := by
              rw [size] at hsize
              omega
            simp only [Option.bind_some, wordSum?_of_lt hwidth]
            rw [advance?_eq h (by rw [size]; omega)]
            rfl

theorem decodeBytes?_eq (h : b.capacity < wordLimit) : b.decodeBytes? = some b.decodeBytes := by
  rw [decodeBytes?, decodeNat?_eq h, decodeBytes]
  simp only [Option.bind_eq_bind, Option.bind_some]
  rcases hnat : b.decodeNat with ⟨e | length, after⟩
  · rfl
  obtain ⟨token, tail, hn, hreadable, rfl⟩ := isNat_of_decodeNat hnat
  have hcapacity : (b.advance token.length).capacity < wordLimit := by rwa [capacity_advance]
  generalize b.advance token.length = next at hcapacity
  have hsize := (Nat.le_add_left next.size next.position).trans next.position_add_size_le
  dsimp only
  rw [readable?_eq hcapacity, Option.bind_some, checkPayload]
  by_cases hword : wordLimit ≤ length + framing
  · rw [if_pos hword, wordSum?, if_neg (not_lt.mpr hword)]
  rw [if_neg hword, wordSum?_of_lt (not_le.mp hword)]
  simp only
  by_cases hshort : next.readable.length < length + framing
  · simp only [hshort, if_true]
  have hlong : length + framing ≤ next.size := not_lt.mp hshort
  rw [if_neg hshort, if_neg hshort, between?_of_le (Nat.zero_le 2) (by
    simp only [size, framing] at hlong
    omega)]
  simp only [Option.bind_some, List.drop_zero]
  by_cases hopening : next.readable.take 2 ≠ opening
  · rw [if_pos hopening, if_pos hopening]
  have hlast : length + 2 < next.readable.length := by
    simp only [size, framing] at hlong
    omega
  have hstart : next.position + 2 < wordLimit := by
    have hle := next.position_add_size_le
    simp only [framing] at hlong
    omega
  rw [if_neg hopening, if_neg hopening, wordSum?_of_lt (by simp only [framing] at hword; omega)]
  simp only [Option.bind_some, List.getElem?_eq_getElem hlast]
  by_cases hclosing : next.readable[length + 2] ≠ closing
  · rw [if_pos hclosing, if_pos (by simpa using hclosing)]
  · rw [if_neg hclosing, if_neg (by simpa using hclosing), wordSum?_of_lt hstart]
    simp only [Option.bind_some, advance?_eq hcapacity hlong]

/-! ## What the readers accept -/

theorem decodeNat_eq_ok_iff : b.decodeNat = (.ok n, rest) ↔
    ∃ token tail, IsNat n token ∧ b.readable = token ++ tail ∧ rest = b.advance token.length := by
  constructor
  · exact isNat_of_decodeNat
  · rintro ⟨token, tail, hn, hreadable, rfl⟩
    exact decodeNat_of_isNat hreadable hn

theorem eq_of_decodeNat_eq_error {e : Error} (h : b.decodeNat = (.error e, rest)) : rest = b := by
  unfold decodeNat at h
  split at h
  · exact (Prod.mk.inj h).2.symm
  · simp at h

/-- The place of a byte string is just past its length token and the bytes that open the next one.
-/
theorem decodeBytes_of_isNat {payload size tail : Bytes} (hsize : IsNat payload.length size)
    (hfits : payload.length + framing < wordLimit)
    (hreadable : b.readable = size ++ (enclose payload ++ tail)) :
    b.decodeBytes = (.ok ⟨b.position + (size ++ opening).length, payload.length⟩,
      b.advance (size ++ enclose payload).length) := by
  have hposition : (b.advance size.length).position = b.position + size.length := by
    simp [position, advance, hreadable]
  rw [decodeBytes, decodeNat_of_isNat hreadable hsize]
  dsimp only
  rw [readable_advance hreadable, checkPayload_append hfits]
  simp only [hposition, advance_advance, List.length_append, length_enclose, Nat.add_assoc]
  rfl

theorem decodeBytes_eq_ok_iff : b.decodeBytes = (.ok span, rest) ↔
    ∃ payload size tail, IsNat payload.length size ∧ payload.length + framing < wordLimit ∧
      b.readable = size ++ (enclose payload ++ tail) ∧
      span = ⟨b.position + (size ++ opening).length, payload.length⟩ ∧
      rest = b.advance (size ++ enclose payload).length := by
  constructor
  · intro h
    obtain ⟨payload, token, tail, ⟨hsize⟩, hfits, hreadable, -⟩ := isString_of_decodeBytes h
    rename_i size
    rw [List.append_assoc] at hreadable
    rw [decodeBytes_of_isNat hsize hfits hreadable] at h
    obtain ⟨hspan, rfl⟩ := Prod.mk.inj h
    exact ⟨payload, size, tail, hsize, hfits, hreadable, (Except.ok.inj hspan).symm, rfl⟩
  · rintro ⟨payload, size, tail, hsize, hfits, hreadable, rfl, rfl⟩
    exact decodeBytes_of_isNat hsize hfits hreadable

/-- The place of a byte string holds its bytes. -/
theorem slice?_of_decodeBytes {payload size tail : Bytes} (hsize : IsNat payload.length size)
    (hfits : payload.length + framing < wordLimit)
    (hreadable : b.readable = size ++ (enclose payload ++ tail)) (count : Nat) :
    (b.advance count).slice? ⟨b.position + (size ++ opening).length, payload.length⟩ =
      some payload := by
  have hwhole : b.readable = (size ++ enclose payload) ++ tail := by
    rw [hreadable, List.append_assoc]
  obtain ⟨span, hspan, hbytes⟩ := decodeBytes_of_isString hwhole (.intro hsize) hfits
  obtain ⟨-, -, -, -, -, -, hstop⟩ := isString_of_decodeBytes hspan
  rw [decodeBytes_of_isNat hsize hfits hreadable] at hspan
  obtain rfl := Except.ok.inj (Prod.mk.inj hspan).1
  rw [slice?_advance, slice?, if_pos hstop, hbytes]

/-- A byte string that is refused takes nothing with it but its length token. -/
theorem eq_or_eq_advance_of_decodeBytes_eq_error {e : Error}
    (h : b.decodeBytes = (.error e, rest)) :
    rest = b ∨ ∃ n size tail, IsNat n size ∧ b.readable = size ++ tail ∧
      rest = b.advance size.length := by
  unfold decodeBytes at h
  split at h
  next hnat =>
    obtain ⟨-, rfl⟩ := Prod.mk.inj h
    exact .inl (eq_of_decodeNat_eq_error hnat)
  next length after hnat =>
    split at h
    · obtain ⟨-, rfl⟩ := Prod.mk.inj h
      obtain ⟨size, tail, hn, hreadable, rfl⟩ := isNat_of_decodeNat hnat
      exact .inr ⟨length, size, tail, hn, hreadable, rfl⟩
    · simp at h

/-- An integer is read exactly where the readable bytes begin with an integer token, and a byte
string exactly where they begin with the token of a length and that many bytes enclosed. All else is
refused as an argument. What is refused stays in the buffer; of a byte string the length token may
have been read. In a buffer whose size is a machine word the readers use no position outside of it
and no sum or product that wraps. -/
theorem decode_iff_token (b : Buffer) :
    (∀ n rest, b.decodeNat = (.ok n, rest) ↔
      ∃ token tail, IsNat n token ∧ b.readable = token ++ tail ∧
        rest = b.advance token.length) ∧
    (∀ e rest, b.decodeNat = (.error e, rest) →
      (∃ fault, e = .invalidArgument fault) ∧ rest = b) ∧
    (∀ span rest, b.decodeBytes = (.ok span, rest) ↔
      ∃ payload size tail, IsNat payload.length size ∧ payload.length + framing < wordLimit ∧
        b.readable = size ++ (enclose payload ++ tail) ∧
        span = ⟨b.position + (size ++ opening).length, payload.length⟩ ∧
        rest.slice? span = some payload ∧ rest = b.advance (size ++ enclose payload).length) ∧
    (∀ e rest, b.decodeBytes = (.error e, rest) →
      (∃ fault, e = .invalidArgument fault) ∧ rest.storage = b.storage ∧
        rest.position + rest.size = b.position + b.size ∧
        (rest = b ∨ ∃ n size tail, IsNat n size ∧ b.readable = size ++ tail ∧
          rest = b.advance size.length)) ∧
    (b.capacity < wordLimit →
      b.decodeNat? = some b.decodeNat ∧ b.decodeBytes? = some b.decodeBytes) := by
  refine ⟨fun _ _ => decodeNat_eq_ok_iff, fun e rest h => ?_, fun span rest => ?_,
    fun e rest h => ?_, fun h => ⟨decodeNat?_eq h, decodeBytes?_eq h⟩⟩
  · exact ⟨eq_invalidArgument_of_decodeNat h, eq_of_decodeNat_eq_error h⟩
  · rw [decodeBytes_eq_ok_iff]
    constructor
    · rintro ⟨payload, size, tail, hsize, hfits, hreadable, rfl, rfl⟩
      exact ⟨payload, size, tail, hsize, hfits, hreadable, rfl,
        slice?_of_decodeBytes hsize hfits hreadable _, rfl⟩
    · rintro ⟨payload, size, tail, hsize, hfits, hreadable, hspan, -, hrest⟩
      exact ⟨payload, size, tail, hsize, hfits, hreadable, hspan, hrest⟩
  · have hrest := eq_or_eq_advance_of_decodeBytes_eq_error h
    refine ⟨eq_invalidArgument_of_decodeBytes h, ?_, ?_, hrest⟩
    · rcases hrest with rfl | ⟨n, size, tail, -, -, rfl⟩
      · rfl
      · exact storage_advance b _
    · rcases hrest with rfl | ⟨n, size, tail, -, -, rfl⟩
      · rfl
      · exact position_add_size_advance b _

/-- A byte string that is cut short, behind a length with a leading zero. -/
def cutShort : Buffer :=
  ⟨[], asciiBytes ['#', ':', '0', '3', '~', '#', ':', 'a', 'b'], []⟩

/-- The length is read alone and as the start of a byte string, which is then refused. -/
theorem decode_iff_token_of_cutShort :
    (∃ token tail, IsNat 3 token ∧ cutShort.readable = token ++ tail ∧
      cutShort.advance 5 = cutShort.advance token.length) ∧
    cutShort.decodeBytes = (.error (.invalidArgument .truncatedString), cutShort.advance 5) ∧
    (cutShort.advance 5 = cutShort ∨ ∃ n size tail, IsNat n size ∧
      cutShort.readable = size ++ tail ∧ cutShort.advance 5 = cutShort.advance size.length) ∧
    cutShort.decodeBytes? = some cutShort.decodeBytes := by
  obtain ⟨hnat, -, -, hrefused, hwords⟩ := decode_iff_token cutShort
  have hshort : cutShort.decodeBytes =
      (.error (.invalidArgument .truncatedString), cutShort.advance 5) := by decide
  exact ⟨(hnat 3 _).mp (by decide), hshort, (hrefused _ _ hshort).2.2.2, (hwords (by decide)).2⟩

end Buffer

end KeyValueServer
