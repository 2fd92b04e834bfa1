import KeyValueServer.Proofs.Wire.RoundTrip
import Mathlib.Data.List.Induction
import Mathlib.Data.Nat.Log

/-!
# Room for tokens

A writer writes a token whole or not at all, and it does so exactly where the number has no more
than sixteen digits and the token fits. The writers are also written out with the storage and the
two positions in it, where each of their writes stays done if a later one fails. None of them ever
fails halfway.
-/

namespace KeyValueServer

/-! ## Decimal numerals -/

namespace Numeral

/-- Digits of a number, without a zero in front. -/
structure IsPlain (n : Nat) (digits : Bytes) : Prop where
  nonempty : digits ≠ []
  all : ∀ d ∈ digits, isDigit d = true
  value : continued 0 digits = n
  leading : digits.head? = some (ascii '0') → digits = [ascii '0']

variable {n : Nat} {digits : Bytes}

theorem length_decimal (n : Nat) : (decimal n).length = Nat.log 10 n + 1 := by
  induction n using Nat.strong_induction_on with
  | _ n ih =>
      rw [decimal]
      split
      next hsmall => rw [Nat.log_of_lt hsmall, List.length_singleton]
      next hlarge =>
        have hquotient : n / 10 < n := by omega
        rw [List.length_append, ih _ hquotient, List.length_singleton,
          Nat.log_of_one_lt_of_le (by decide) (not_lt.mp hlarge)]

theorem length_decimal_le_iff {k : Nat} (hk : k ≠ 0) : (decimal n).length ≤ k ↔ n < 10 ^ k := by
  rw [length_decimal, Nat.succ_le_iff]
  by_cases hn : n = 0
  · subst hn
    simpa using Nat.pos_of_ne_zero hk
  · exact Nat.log_lt_iff_lt_pow (by decide) hn

theorem toNat_of_isDigit {d : UInt8} (h : isDigit d = true) :
    d.toNat = 48 + digitValue d ∧ digitValue d < 10 := by
  simp only [isDigit, Bool.and_eq_true, decide_eq_true_eq, UInt8.le_iff_toNat_le] at h
  have hlow : (ascii '0').toNat = 48 := rfl
  have hhigh : (ascii '9').toNat = 57 := rfl
  rw [digitValue]
  omega

theorem digit_digitValue {d : UInt8} (h : isDigit d = true) : digit (digitValue d) = d := by
  obtain ⟨hd, hlt⟩ := toNat_of_isDigit h
  have hsame : digit (digitValue d) = UInt8.ofNat (48 + digitValue d) := by
    rw [UInt8.ofNat_add]
    rfl
  rw [hsame, ← hd, UInt8.ofNat_toNat]

theorem head?_decimal (h : 10 ≤ n) : (decimal n).head? = (decimal (n / 10)).head? := by
  rw [decimal, if_neg (by omega), List.head?_append]
  cases hquotient : decimal (n / 10) with
  | nil => exact absurd hquotient (decimal_ne_nil _)
  | cons d rest => rfl

theorem head?_decimal_ne (h : n ≠ 0) : (decimal n).head? ≠ some (ascii '0') := by
  induction n using Nat.strong_induction_on with
  | _ n ih =>
      by_cases hsmall : n < 10
      · rw [decimal, if_pos hsmall]
        interval_cases n
        · contradiction
        all_goals decide
      · rw [head?_decimal (by omega)]
        exact ih _ (by omega) (by omega)

theorem isPlain_decimal (n : Nat) : IsPlain n (decimal n) where
  nonempty := decimal_ne_nil n
  all _ := isDigit_of_mem_decimal
  value := continued_decimal n
  leading h := by
    obtain rfl : n = 0 := by
      by_contra hn
      exact head?_decimal_ne hn h
    rw [decimal]
    rfl

/-- A number has only one numeral without a zero in front. -/
theorem IsPlain.eq_decimal (h : IsPlain n digits) : digits = decimal n := by
  -- On the digits from the last one: those before it are the numeral of the quotient by ten.
  induction digits using List.reverseRecOn generalizing n with
  | nil => exact absurd rfl h.nonempty
  | append_singleton init d ih =>
      have hd : Numeral.isDigit d = true := h.all d (by simp)
      have hlt := (toNat_of_isDigit hd).2
      have hvalue : continued 0 init * 10 + digitValue d = n := by
        rw [← h.value, continued_append]
        rfl
      by_cases hinit : init = []
      · subst hinit
        simp only [continued, List.foldl_nil, Nat.zero_mul, Nat.zero_add] at hvalue
        rw [decimal, if_pos (hvalue ▸ hlt), ← hvalue, digit_digitValue hd, List.nil_append]
      · have hhead : init.head? ≠ some (ascii '0') := by
          intro hzero
          have hwhole := h.leading (by rw [List.head?_append, hzero, Option.some_or])
          have hlength := congrArg List.length hwhole
          have hpos := List.length_pos_iff.mpr hinit
          rw [List.length_append, List.length_singleton, List.length_singleton] at hlength
          omega
        have hplain : IsPlain (continued 0 init) init :=
          ⟨hinit, fun e he => h.all e (by simp [he]), rfl, fun hzero => absurd hzero hhead⟩
        have hpos : continued 0 init ≠ 0 := by
          intro hzero
          rw [hzero] at hplain
          exact hhead (by rw [ih hplain, decimal]; rfl)
        have hquotient : n / 10 = continued 0 init := by omega
        have hremainder : n % 10 = digitValue d := by omega
        rw [decimal, if_neg (by omega), hquotient, hremainder, ← ih hplain, digit_digitValue hd]

end Numeral

/-! ## Writers in place -/

/-- A buffer as it lies in memory: its storage, and the positions at which reading and writing go
on. -/
structure Placement where
  storage : Bytes
  reading : Nat
  writing : Nat

def Buffer.placement (b : Buffer) : Placement := ⟨b.storage, b.position, b.position + b.size⟩

namespace Placement

open Token

/-- Something that is done to a buffer where it lies. An error does not take back what was written
before it. -/
abbrev Action := ExceptT Error (StateM Placement) Unit

/-- How an action ends, and what it leaves. -/
def Action.outcome (action : Action) (p : Placement) : Except Error Unit × Placement :=
  (ExceptT.run action).run p

def refuse (fault : ArgumentFault) : Action := throw (.invalidArgument fault)

/-- How many bytes can be written. -/
def free (p : Placement) : Nat := p.storage.length - p.writing

/-- Copy bytes over those at the position for writing, which moves past them. -/
def write (p : Placement) (bytes : Bytes) : Placement :=
  ⟨p.storage.take p.writing ++ bytes ++ p.storage.drop (p.writing + bytes.length), p.reading,
    p.writing + bytes.length⟩

def put (bytes : Bytes) : Action := do
  let p ← get
  if p.free < bytes.length then refuse .bufferFull else set (p.write bytes)

def putToken (payload : Bytes) : Action := do
  let p ← get
  if p.free < payload.length + framing then refuse .noRoomForToken
  else do
    put opening
    put payload
    put [closing]

def encodeNat (n : Nat) : Action :=
  if maxDigits < (Numeral.decimal n).length then refuse .integerTooWide
  else putToken (Numeral.decimal n)

def encodeBytes (bytes : Bytes) : Action := do
  let p ← get
  if p.free < (Numeral.decimal bytes.length).length + bytes.length + 2 * framing then
    refuse .noRoomForString
  else do
    encodeNat bytes.length
    putToken bytes

variable {p p' : Placement} {action : Action}

theorem outcome_refuse (fault : ArgumentFault) (p : Placement) :
    (refuse fault).outcome p = (.error (.invalidArgument fault), p) := rfl

theorem outcome_get (f : Placement → Action) (p : Placement) :
    Action.outcome (get >>= f) p = (f p).outcome p := rfl

theorem outcome_set (p p' : Placement) : Action.outcome (set p') p = (.ok (), p') := rfl

theorem outcome_ite {c : Prop} [Decidable c] (first second : Action) (p : Placement) :
    Action.outcome (if c then first else second) p =
      if c then first.outcome p else second.outcome p :=
  apply_ite (fun action : Action => action.outcome p) c first second

theorem outcome_seq {next : Action} (h : action.outcome p = (.ok (), p')) :
    Action.outcome (do action; next) p = next.outcome p' := by
  simp only [Action.outcome, ExceptT.run_bind, StateT.run_bind] at h ⊢
  rw [h]
  rfl

theorem outcome_seq_error {next : Action} {e : Error} (h : action.outcome p = (.error e, p')) :
    Action.outcome (do action; next) p = (.error e, p') := by
  simp only [Action.outcome, ExceptT.run_bind, StateT.run_bind] at h ⊢
  rw [h]
  rfl

end Placement

namespace Buffer

open Token Placement

variable {b : Buffer} {bytes payload token : Bytes} {n : Nat}

theorem free_placement (b : Buffer) : b.placement.free = b.free := by
  simp only [placement, Placement.free, storage, position, size, free, List.length_append]
  omega

theorem placement_append (b : Buffer) (bytes : Bytes) :
    (b.append bytes).placement = b.placement.write bytes := by
  have hwritten : b.position + b.size = (b.consumed ++ b.readable).length :=
    List.length_append.symm
  have hbefore : b.storage.take (b.position + b.size) = b.consumed ++ b.readable := by
    rw [hwritten, storage, List.take_left]
  have hbehind : b.storage.drop (b.position + b.size + bytes.length) =
      b.spare.drop bytes.length := by
    rw [hwritten, storage, List.drop_length_add_append]
  rw [Placement.write]
  simp only [placement, hbefore, hbehind]
  simp only [append, storage, position, size, List.length_append, List.append_assoc, Nat.add_assoc]

/-! ## Writing in place -/

theorem outcome_put (h : bytes.length ≤ b.free) :
    (Placement.put bytes).outcome b.placement = (.ok (), (b.append bytes).placement) := by
  rw [Placement.put, outcome_get, outcome_ite, free_placement, if_neg (Nat.not_lt.mpr h),
    outcome_set, placement_append]

theorem outcome_putToken (b : Buffer) (payload : Bytes) :
    (Placement.putToken payload).outcome b.placement =
      if payload.length + framing ≤ b.free then (.ok (), (b.append (enclose payload)).placement)
      else (.error (.invalidArgument .noRoomForToken), b.placement) := by
  rw [Placement.putToken, outcome_get, outcome_ite, free_placement]
  by_cases hroom : payload.length + framing ≤ b.free
  · have hopening : opening.length = 2 := rfl
    have hclosing : [closing].length = 1 := rfl
    rw [if_neg (Nat.not_lt.mpr hroom), if_pos hroom]
    simp only [framing] at hroom
    rw [outcome_seq (outcome_put (by omega)),
      outcome_seq (outcome_put (by rw [free_append]; omega)),
      outcome_put (by rw [free_append, free_append]; omega), append_append, append_append, enclose,
      List.append_assoc]
  · rw [if_pos (Nat.not_le.mp hroom), if_neg hroom, outcome_refuse]

theorem outcome_encodeNat (b : Buffer) (n : Nat) :
    (Placement.encodeNat n).outcome b.placement =
      if n < 10 ^ maxDigits then
        if (ofNat n).length ≤ b.free then (.ok (), (b.append (ofNat n)).placement)
        else (.error (.invalidArgument .noRoomForToken), b.placement)
      else (.error (.invalidArgument .integerTooWide), b.placement) := by
  have hdigits := Numeral.length_decimal_le_iff (n := n) (k := maxDigits) (by decide)
  rw [Placement.encodeNat, outcome_ite, outcome_putToken, ← length_ofNat]
  by_cases hn : n < 10 ^ maxDigits
  · rw [if_neg (Nat.not_lt.mpr (hdigits.mpr hn)), if_pos hn, ofNat]
  · rw [if_pos (Nat.not_le.mp (mt hdigits.mp hn)), if_neg hn, outcome_refuse]

/-- Where both tokens of a byte string fit, neither of the writes fails for want of room, and the
first of them is the one that refuses a length of too many digits. -/
theorem outcome_encodeBytes (b : Buffer) (bytes : Bytes) :
    (Placement.encodeBytes bytes).outcome b.placement =
      if (Token.ofBytes bytes).length ≤ b.free then
        if bytes.length < 10 ^ maxDigits then
          (.ok (), (b.append (Token.ofBytes bytes)).placement)
        else (.error (.invalidArgument .integerTooWide), b.placement)
      else (.error (.invalidArgument .noRoomForString), b.placement) := by
  have hneed := length_ofBytes bytes
  have hfirst := length_ofNat bytes.length
  rw [Placement.encodeBytes, outcome_get, outcome_ite, free_placement, ← hneed]
  by_cases hroom : (Token.ofBytes bytes).length ≤ b.free
  · rw [if_neg (Nat.not_lt.mpr hroom), if_pos hroom]
    have hnat := outcome_encodeNat b bytes.length
    by_cases hsize : bytes.length < 10 ^ maxDigits
    · rw [if_pos hsize, if_pos (by omega)] at hnat
      rw [if_pos hsize, outcome_seq hnat, outcome_putToken, free_append, if_pos (by omega),
        append_append, Token.ofBytes]
    · rw [if_neg hsize] at hnat
      rw [if_neg hsize, outcome_seq_error hnat]
  · rw [if_pos (Nat.not_le.mp hroom), if_neg hroom, outcome_refuse]

/-! ## The writers proper -/

theorem encodeNat_eq (b : Buffer) (n : Nat) :
    b.encodeNat n =
      if n < 10 ^ maxDigits then
        if (ofNat n).length ≤ b.free then .ok (b.append (ofNat n)) else refused .noRoomForToken
      else refused .integerTooWide := by
  have hdigits := Numeral.length_decimal_le_iff (n := n) (k := maxDigits) (by decide)
  by_cases hn : n < 10 ^ maxDigits
  · rw [if_pos hn]
    by_cases hroom : (ofNat n).length ≤ b.free
    · rw [if_pos hroom, encodeNat_of_le hn hroom]
    · rw [if_neg hroom, encodeNat, if_neg (Nat.not_lt.mpr (hdigits.mpr hn)), putToken,
        ← length_ofNat, if_pos (Nat.not_le.mp hroom)]
  · rw [if_neg hn, encodeNat, if_pos (Nat.not_le.mp (mt hdigits.mp hn))]

theorem encodeBytes_eq (b : Buffer) (bytes : Bytes) :
    b.encodeBytes bytes =
      if (Token.ofBytes bytes).length ≤ b.free then
        if bytes.length < 10 ^ maxDigits then .ok (b.append (Token.ofBytes bytes))
        else refused .integerTooWide
      else refused .noRoomForString := by
  by_cases hroom : (Token.ofBytes bytes).length ≤ b.free
  · rw [if_pos hroom]
    by_cases hsize : bytes.length < 10 ^ maxDigits
    · rw [if_pos hsize, encodeBytes_of_le hsize hroom]
    · rw [if_neg hsize, encodeBytes, ← length_ofBytes, if_neg (Nat.not_lt.mpr hroom), encodeNat_eq,
        if_neg hsize]
      rfl
  · rw [if_neg hroom, encodeBytes, ← length_ofBytes, if_pos (Nat.not_le.mp hroom)]

/-! ## Whole tokens or nothing -/

/-- An action on a buffer in its place writes this token if it fits, and nothing otherwise, and so
does a writer with this result. -/
structure WritesWhole (b : Buffer) (token : Bytes) (fits : Prop) (action : Placement.Action)
    (result : Except Error Buffer) : Prop where
  /-- The action succeeds exactly if the token fits, -/
  succeeds_iff : (action.outcome b.placement).1 = .ok () ↔ fits
  /-- and then the token is behind what was written before, and nothing else has changed. -/
  written : fits → (action.outcome b.placement).2 = b.placement.write token
  /-- Otherwise the argument is refused, and no byte and neither position has changed. -/
  refused : ¬fits → ∃ fault,
    action.outcome b.placement = (.error (.invalidArgument fault), b.placement)
  /-- The writer succeeds where the action does, and returns what the action leaves: the bytes to be
  read, and behind them the token. -/
  ok_iff : ∀ b', result = .ok b' ↔ fits ∧ b' = b.append token
  /-- It fails where the action does, for the same reason. -/
  error_iff : ∀ e, result = .error e ↔ (action.outcome b.placement).1 = .error e

theorem writesWhole_of_ok {fits : Prop} {action : Placement.Action} {result : Except Error Buffer}
    (hfits : fits) (houtcome : action.outcome b.placement = (.ok (), (b.append token).placement))
    (hresult : result = .ok (b.append token)) : b.WritesWhole token fits action result := by
  subst hresult
  refine ⟨?_, fun _ => ?_, fun hnot => absurd hfits hnot, fun b' => ?_, fun e => ?_⟩
  · simp [houtcome, hfits]
  · rw [houtcome, placement_append]
  · simp [hfits, eq_comm]
  · simp [houtcome]

theorem writesWhole_of_refused {fits : Prop} {action : Placement.Action}
    {result : Except Error Buffer} {fault : ArgumentFault} (hfits : ¬fits)
    (houtcome : action.outcome b.placement = (.error (.invalidArgument fault), b.placement))
    (hresult : result = refused fault) : b.WritesWhole token fits action result := by
  subst hresult
  refine ⟨?_, fun h => absurd h hfits, fun _ => ⟨fault, houtcome⟩, fun b' => ?_, fun e => ?_⟩
  · simp [houtcome, hfits]
  · simp [Buffer.refused, hfits]
  · simp [Buffer.refused, houtcome]

/-- Integers of up to sixteen digits, and byte strings whose lengths have no more, are written where
there is room for their digits, their bytes and the delimiters around them. Nothing else is written,
not even in part. The digits in a token are the only ones of the number that have no zero in front.
-/
theorem encode_whole_or_nothing (b : Buffer) :
    (∀ n, b.WritesWhole (opening ++ Numeral.decimal n ++ [closing])
      (n < 10 ^ 16 ∧ Nat.log 10 n + 1 + 3 ≤ b.free) (Placement.encodeNat n) (b.encodeNat n)) ∧
    (∀ bytes : Bytes, b.WritesWhole
      (opening ++ Numeral.decimal bytes.length ++ [closing] ++ (opening ++ bytes ++ [closing]))
      (bytes.length < 10 ^ 16 ∧ Nat.log 10 bytes.length + 1 + bytes.length + 6 ≤ b.free)
      (Placement.encodeBytes bytes) (b.encodeBytes bytes)) ∧
    ∀ n digits, Numeral.IsPlain n digits ↔ digits = Numeral.decimal n := by
  refine ⟨fun n => ?_, fun bytes => ?_, fun n digits => ⟨Numeral.IsPlain.eq_decimal, ?_⟩⟩
  · have hneed : (ofNat n).length = Nat.log 10 n + 1 + 3 := by
      rw [length_ofNat, Numeral.length_decimal]
      rfl
    have houtcome := outcome_encodeNat b n
    have hresult := encodeNat_eq b n
    rw [hneed] at houtcome hresult
    by_cases hn : n < 10 ^ maxDigits
    · rw [if_pos hn] at houtcome hresult
      by_cases hroom : Nat.log 10 n + 1 + 3 ≤ b.free
      · rw [if_pos hroom] at houtcome hresult
        exact writesWhole_of_ok ⟨hn, hroom⟩ houtcome hresult
      · rw [if_neg hroom] at houtcome hresult
        exact writesWhole_of_refused (fun h => hroom h.2) houtcome hresult
    · rw [if_neg hn] at houtcome hresult
      exact writesWhole_of_refused (fun h => hn h.1) houtcome hresult
  · have hneed : (Token.ofBytes bytes).length =
        Nat.log 10 bytes.length + 1 + bytes.length + 6 := by
      rw [length_ofBytes, Numeral.length_decimal]
      rfl
    have houtcome := outcome_encodeBytes b bytes
    have hresult := encodeBytes_eq b bytes
    rw [hneed] at houtcome hresult
    by_cases hroom : Nat.log 10 bytes.length + 1 + bytes.length + 6 ≤ b.free
    · rw [if_pos hroom] at houtcome hresult
      by_cases hsize : bytes.length < 10 ^ maxDigits
      · rw [if_pos hsize] at houtcome hresult
        exact writesWhole_of_ok ⟨hsize, hroom⟩ houtcome hresult
      · rw [if_neg hsize] at houtcome hresult
        exact writesWhole_of_refused (fun h => hsize h.1) houtcome hresult
    · rw [if_neg hroom] at houtcome hresult
      exact writesWhole_of_refused (fun h => hroom h.2) houtcome hresult
  · rintro rfl
    exact Numeral.isPlain_decimal n

end Buffer

end KeyValueServer
