import KeyValueServer.Proofs.Wire.Encoding
import KeyValueServer.Proofs.Wire.Grammar
import Mathlib.Tactic.IntervalCases

/-!
# Messages of several items

A message is a list of integers and byte strings, written one behind the other. Reading them back in
the same order gives the same items and stops exactly at the end of the message, whatever bytes the
strings consist of and whatever follows.
-/

namespace KeyValueServer

/-! ## What is written is a token -/

namespace Numeral

theorem digitValue_digit {d : Nat} (h : d < 10) : digitValue (digit d) = d := by
  interval_cases d <;> rfl

theorem isDigit_digit {d : Nat} (h : d < 10) : isDigit (digit d) = true := by
  interval_cases d <;> rfl

theorem continued_append (start : Nat) (first second : Bytes) :
    continued start (first ++ second) = continued (continued start first) second :=
  List.foldl_append

theorem continued_decimal (n : Nat) : continued 0 (decimal n) = n := by
  induction n using Nat.strong_induction_on with
  | _ n ih =>
      rw [decimal]
      split
      next hsmall => simp [continued, digitValue_digit hsmall]
      next hlarge =>
        have hquotient : n / 10 < n := by omega
        have hdigit : n % 10 < 10 := Nat.mod_lt _ (by decide)
        rw [continued_append, ih _ hquotient]
        simp only [continued, List.foldl_cons, List.foldl_nil, digitValue_digit hdigit]
        omega

theorem isDigit_of_mem_decimal {n : Nat} {d : UInt8} (h : d ∈ decimal n) : isDigit d = true := by
  induction n using Nat.strong_induction_on with
  | _ n ih =>
      rw [decimal] at h
      split at h
      next hsmall =>
        rw [List.mem_singleton.mp h]
        exact isDigit_digit hsmall
      next hlarge =>
        have hquotient : n / 10 < n := by omega
        rcases List.mem_append.mp h with h | h
        · exact ih _ hquotient h
        · rw [List.mem_singleton.mp h]
          exact isDigit_digit (Nat.mod_lt _ (by decide))

theorem decimal_ne_nil (n : Nat) : decimal n ≠ [] := by
  rw [decimal]
  split <;> simp

end Numeral

namespace Token

theorem isNat_ofNat {n : Nat} (h : n < wordLimit) : IsNat n (ofNat n) :=
  .intro (Numeral.decimal_ne_nil n) (fun _ => Numeral.isDigit_of_mem_decimal)
    (Numeral.continued_decimal n) h

theorem isString_ofBytes {bytes : Bytes} (h : bytes.length < wordLimit) :
    IsString bytes (ofBytes bytes) :=
  .intro (isNat_ofNat h)

end Token

/-! ## What was read is a token -/

namespace Buffer

open Token

variable {b rest : Buffer} {n : Nat} {span : Span} {e : Error}

theorem storage_advance (b : Buffer) (count : Nat) : (b.advance count).storage = b.storage := by
  simp [storage, advance]

theorem length_storage (b : Buffer) : b.storage.length = b.capacity := by
  simp only [storage, capacity, List.length_append]

theorem capacity_advance (b : Buffer) (count : Nat) : (b.advance count).capacity = b.capacity := by
  rw [← length_storage, storage_advance, length_storage]

theorem slice?_advance (b : Buffer) (count : Nat) (span : Span) :
    (b.advance count).slice? span = b.slice? span := by
  rw [slice?, slice?, capacity_advance, bytesAt_advance]

theorem isNat_of_decodeNat (h : b.decodeNat = (.ok n, rest)) :
    ∃ token tail, IsNat n token ∧ b.readable = token ++ tail ∧ rest = b.advance token.length := by
  unfold decodeNat at h
  split at h
  · simp [refused] at h
  next value width hread =>
    obtain ⟨hvalue, rfl⟩ := Prod.mk.inj h
    obtain rfl := Except.ok.inj hvalue
    obtain ⟨token, tail, hreadable, hn, rfl⟩ := isNat_of_readNat hread
    exact ⟨token, tail, hn, hreadable, rfl⟩

theorem eq_invalidArgument_of_decodeNat (h : b.decodeNat = (.error e, rest)) :
    ∃ fault, e = .invalidArgument fault := by
  unfold decodeNat at h
  split at h
  next fault _ => exact ⟨fault, (Except.error.inj (Prod.mk.inj h).1).symm⟩
  · simp at h

theorem isString_of_decodeBytes (h : b.decodeBytes = (.ok span, rest)) :
    ∃ payload token tail, IsString payload token ∧ payload.length + framing < wordLimit ∧
      b.readable = token ++ tail ∧ span.stop ≤ b.capacity := by
  unfold decodeBytes at h
  split at h
  · simp at h
  next length after hnat =>
    split at h
    · simp [refused] at h
    next hcheck =>
      obtain rfl := Except.ok.inj (Prod.mk.inj h).1
      obtain ⟨size, remainder, hn, hreadable, rfl⟩ := isNat_of_decodeNat hnat
      rw [readable_advance hreadable] at hcheck
      have hfits : length + framing < wordLimit := by
        by_contra hlong
        rw [checkPayload, if_pos (not_lt.mp hlong)] at hcheck
        contradiction
      obtain ⟨payload, tail, rfl, rfl⟩ := enclose_of_checkPayload hcheck
      refine ⟨payload, size ++ enclose payload, tail, .intro hn, hfits, ?_, ?_⟩
      · rw [hreadable, List.append_assoc]
      · have hsize := congrArg List.length hreadable
        simp only [List.length_append, length_enclose, framing] at hsize
        simp only [Span.stop, position, capacity, advance, List.length_append, List.length_take]
        omega

theorem eq_invalidArgument_of_decodeBytes (h : b.decodeBytes = (.error e, rest)) :
    ∃ fault, e = .invalidArgument fault := by
  unfold decodeBytes at h
  split at h
  next hnat =>
    obtain rfl := Except.error.inj (Prod.mk.inj h).1
    exact eq_invalidArgument_of_decodeNat hnat
  · split at h
    next fault _ => exact ⟨fault, (Except.error.inj (Prod.mk.inj h).1).symm⟩
    · simp at h

end Buffer

/-! ## Messages -/

/-- What a message is made of. -/
inductive Item where
  | nat (n : Nat)
  | bytes (payload : Bytes)
deriving DecidableEq

namespace Item

/-- Which reader reads the item. -/
inductive Kind where
  | nat
  | bytes
deriving DecidableEq

def kind : Item → Kind
  | nat _ => .nat
  | bytes _ => .bytes

def token : Item → Bytes
  | nat n => Token.ofNat n
  | bytes payload => Token.ofBytes payload

/-- The integer, or the length of the byte string, can be written. -/
def IsWritable : Item → Prop
  | nat n => n < 10 ^ Token.maxDigits
  | bytes payload => payload.length < 10 ^ Token.maxDigits

instance : DecidablePred IsWritable
  | nat _ => Nat.decLt _ _
  | bytes _ => Nat.decLt _ _

/-- What a reader returns: an integer, or the place of a byte string. -/
inductive Reading where
  | nat (n : Nat)
  | bytes (span : Span)

end Item

/-- The bytes of a message. -/
def message (items : List Item) : Bytes := items.flatMap Item.token

theorem message_cons (item : Item) (items : List Item) :
    message (item :: items) = item.token ++ message items :=
  List.flatMap_cons

namespace Buffer

open Item Token

def encodeItem (b : Buffer) : Item → Except Error Buffer
  | .nat n => b.encodeNat n
  | .bytes payload => b.encodeBytes payload

def decodeItem (b : Buffer) : Kind → Except Error Reading × Buffer
  | .nat => (b.decodeNat.1.map .nat, b.decodeNat.2)
  | .bytes => (b.decodeBytes.1.map .bytes, b.decodeBytes.2)

/-- Read items one after the other, up to the first that can not be read. -/
def decodeItems (b : Buffer) : List Kind → Except Error (List Reading) × Buffer
  | [] => (.ok [], b)
  | kind :: kinds =>
      match b.decodeItem kind with
      | (.error e, b) => (.error e, b)
      | (.ok reading, b) => ((b.decodeItems kinds).1.map (reading :: ·), (b.decodeItems kinds).2)

/-- The item that was read, if its place is one in the storage. -/
def item? (b : Buffer) : Reading → Option Item
  | .nat n => some (.nat n)
  | .bytes span => (b.slice? span).map .bytes

variable {b : Buffer} {item : Item} {items : List Item}

theorem encodeItem_of_le (hitem : item.IsWritable) (hroom : item.token.length ≤ b.free) :
    b.encodeItem item = .ok (b.append item.token) := by
  cases item with
  | nat n => exact encodeNat_of_le hitem hroom
  | bytes payload => exact encodeBytes_of_le hitem hroom

theorem encodeItems_of_le (hitems : ∀ item ∈ items, item.IsWritable)
    (hroom : (message items).length ≤ b.free) :
    items.foldlM encodeItem b = .ok (b.append (message items)) := by
  induction items generalizing b with
  | nil => simp [message, append, pure, Except.pure]
  | cons item items ih =>
      obtain ⟨hitem, hrest⟩ := List.forall_mem_cons.mp hitems
      rw [message_cons, List.length_append] at hroom
      have hfirst := encodeItem_of_le (b := b) hitem (by omega)
      have hafter := ih (b := b.append item.token) hrest (by rw [free_append]; omega)
      rw [List.foldlM_cons, hfirst, message_cons, ← append_append, ← hafter]
      rfl

theorem item?_advance (b : Buffer) (count : Nat) : (b.advance count).item? = b.item? := by
  funext reading
  cases reading with
  | nat n => rfl
  | bytes span => rw [item?, item?, slice?_advance]

/-- A written item is read as what it is, and the read position goes past it. -/
theorem decodeItem_of_token {rest : Bytes} (hitem : item.IsWritable)
    (h : b.readable = item.token ++ rest) :
    ∃ reading, b.decodeItem item.kind = (.ok reading, b.advance item.token.length) ∧
      b.item? reading = some item := by
  have hlimit : 10 ^ maxDigits + framing < wordLimit := by decide
  cases item with
  | nat n =>
      have hn : n < wordLimit := by
        simp only [IsWritable] at hitem
        omega
      refine ⟨.nat n, ?_, rfl⟩
      simp only [decodeItem, Item.kind, decodeNat_of_isNat h (isNat_ofNat hn), Except.map, token]
  | bytes payload =>
      have hsize : payload.length + framing < wordLimit := by
        simp only [IsWritable] at hitem
        omega
      obtain ⟨span, hspan, hbytes⟩ :=
        decodeBytes_of_isString h (isString_ofBytes (by omega)) hsize
      refine ⟨.bytes span, ?_, ?_⟩
      · simp only [decodeItem, Item.kind, hspan, Except.map, token]
      · obtain ⟨-, -, -, -, -, -, hstop⟩ := isString_of_decodeBytes hspan
        rw [item?, slice?, if_pos hstop, hbytes]
        rfl

theorem decodeItems_of_message {rest : Bytes} (hitems : ∀ item ∈ items, item.IsWritable)
    (h : b.readable = message items ++ rest) :
    ∃ readings, b.decodeItems (items.map Item.kind) =
        (.ok readings, b.advance (message items).length) ∧
      readings.map b.item? = items.map some := by
  induction items generalizing b with
  | nil => exact ⟨[], by simp [decodeItems, message, advance], rfl⟩
  | cons item items ih =>
      obtain ⟨hitem, hrest⟩ := List.forall_mem_cons.mp hitems
      rw [message_cons, List.append_assoc] at h
      obtain ⟨reading, hread, hfound⟩ := decodeItem_of_token hitem h
      obtain ⟨readings, hreadings, hall⟩ := ih hrest (readable_advance h)
      refine ⟨reading :: readings, ?_, ?_⟩
      · rw [List.map_cons, decodeItems, hread]
        simp only [hreadings, Except.map, advance_advance, message_cons, List.length_append]
      · rw [item?_advance] at hall
        rw [List.map_cons, List.map_cons, hfound, hall]

/-- Where nothing is left to read and there is room, a message and what follows it can be written,
and reading the items gives them back, each byte string at a place where its bytes are. What is left
then is what was written behind the message. -/
theorem decodeItems_encodeItems (b : Buffer) (items : List Item) (trailer : Bytes)
    (hempty : b.isEmpty = true) (hitems : ∀ item ∈ items, item.IsWritable)
    (hroom : (message items).length + trailer.length ≤ b.free) :
    ∃ encoded written readings rest,
      items.foldlM encodeItem b = .ok encoded ∧ encoded.put trailer = .ok written ∧
        written.decodeItems (items.map Item.kind) = (.ok readings, rest) ∧
        readings.map rest.item? = items.map some ∧ rest.readable = trailer := by
  have hput : (b.append (message items)).put trailer =
      .ok ((b.append (message items)).append trailer) := by
    apply put_of_le
    rw [free_append]
    omega
  have hreadable : ((b.append (message items)).append trailer).readable =
      message items ++ trailer := by
    simp [append, List.isEmpty_iff.mp hempty]
  obtain ⟨readings, hread, hall⟩ := decodeItems_of_message hitems hreadable
  refine ⟨_, _, readings, _, encodeItems_of_le hitems (by omega), hput, hread, ?_,
    readable_advance hreadable⟩
  rw [item?_advance]
  exact hall

/-- A byte string of delimiters between two integers, in a buffer that was used before and is filled
to the last byte. -/
theorem decodeItems_encodeItems_of_delimiters :
    ∃ encoded written readings rest,
      [Item.nat 0, .bytes (closing :: opening), .nat 42].foldlM encodeItem
        ⟨closing :: opening, [], List.replicate 21 0⟩ = .ok encoded ∧
        encoded.put [closing, closing] = .ok written ∧
        written.decodeItems [.nat, .bytes, .nat] = (.ok readings, rest) ∧
        readings.map rest.item? =
          [some (.nat 0), some (.bytes (closing :: opening)), some (.nat 42)] ∧
        rest.readable = [closing, closing] :=
  decodeItems_encodeItems ⟨closing :: opening, [], List.replicate 21 0⟩
    [.nat 0, .bytes (closing :: opening), .nat 42] [closing, closing] rfl (by decide) (by
      have hzero : (Numeral.decimal 0).length ≤ 1 := Numeral.length_decimal_le le_rfl (by decide)
      have hthree : (Numeral.decimal 3).length ≤ 1 := Numeral.length_decimal_le le_rfl (by decide)
      have hlast : (Numeral.decimal 42).length ≤ 2 :=
        Numeral.length_decimal_le (by decide) (by decide)
      simp only [message, token, opening, framing, free, List.flatMap_cons, List.flatMap_nil,
        List.append_nil, List.length_append, length_ofNat, length_ofBytes, List.length_cons,
        List.length_nil, List.length_replicate, zero_add, Nat.reduceAdd]
      omega)

end Buffer

end KeyValueServer
