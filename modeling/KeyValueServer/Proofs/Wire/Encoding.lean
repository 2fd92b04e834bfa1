import KeyValueServer.Server.Answer
import Mathlib.Algebra.Group.Nat.Defs

/-!
# Writing tokens

Where there is room a writer appends exactly the token. An integer of up to sixteen digits can be
written, and so can a byte string whose length has no more digits. The buffer of an answer has room
for its status and for the value of every entry that such an answer can carry.
-/

namespace KeyValueServer

namespace Numeral

theorem length_decimal_le {k n : Nat} (hk : 1 ≤ k) (h : n < 10 ^ k) : (decimal n).length ≤ k := by
  induction k generalizing n with
  | zero => contradiction
  | succ k ih =>
      rw [decimal]
      split
      · exact hk
      next hlarge =>
        have hpos : 1 ≤ k := by
          refine Nat.one_le_iff_ne_zero.mpr ?_
          rintro rfl
          exact hlarge (by simpa using h)
        have hquotient : n / 10 < 10 ^ k := by
          rw [Nat.pow_succ] at h
          omega
        rw [List.length_append, List.length_singleton]
        exact Nat.succ_le_succ (ih hpos hquotient)

end Numeral

namespace Token

theorem length_ofNat (n : Nat) : (ofNat n).length = (Numeral.decimal n).length + framing := by
  simp [ofNat, enclose, opening, framing]

theorem length_ofBytes (bytes : Bytes) : (ofBytes bytes).length =
    (Numeral.decimal bytes.length).length + bytes.length + 2 * framing := by
  simp [ofBytes, ofNat, enclose, opening, framing]
  omega

end Token

namespace Buffer

open Token

variable {b : Buffer} {n : Nat} {bytes payload : Bytes}

theorem append_append (b : Buffer) (first second : Bytes) :
    (b.append first).append second = b.append (first ++ second) := by
  simp [append]

theorem free_append (b : Buffer) (bytes : Bytes) :
    (b.append bytes).free = b.free - bytes.length := by
  simp [append, free]

theorem put_of_le (h : bytes.length ≤ b.free) : b.put bytes = .ok (b.append bytes) :=
  if_neg (Nat.not_lt.mpr h)

theorem putToken_of_le (h : payload.length + framing ≤ b.free) :
    b.putToken payload = .ok (b.append (enclose payload)) := by
  have hopening : b.put opening = .ok (b.append opening) := by
    apply put_of_le
    simp only [opening, framing, List.length_cons, List.length_nil] at h ⊢
    omega
  have hpayload : (b.append opening).put payload = .ok (b.append (opening ++ payload)) := by
    rw [← append_append]
    apply put_of_le
    simp only [free_append, opening, framing, List.length_cons, List.length_nil] at h ⊢
    omega
  have hclosing : (b.append (opening ++ payload)).put [closing] =
      .ok (b.append (enclose payload)) := by
    rw [enclose, ← append_append b (opening ++ payload)]
    apply put_of_le
    simp only [free_append, opening, framing, List.length_append, List.length_cons,
      List.length_nil] at h ⊢
    omega
  rw [putToken, if_neg (Nat.not_lt.mpr h), hopening]
  simp only [bind, Except.bind, hpayload, hclosing]

theorem encodeNat_of_le (hn : n < 10 ^ maxDigits) (hroom : (ofNat n).length ≤ b.free) :
    b.encodeNat n = .ok (b.append (ofNat n)) := by
  have hdigits := Numeral.length_decimal_le (by decide) hn
  rw [encodeNat, if_neg (Nat.not_lt.mpr hdigits), putToken_of_le (by rwa [← length_ofNat])]
  rfl

theorem encodeBytes_of_le (hsize : bytes.length < 10 ^ maxDigits)
    (hroom : (Token.ofBytes bytes).length ≤ b.free) :
    b.encodeBytes bytes = .ok (b.append (Token.ofBytes bytes)) := by
  have hneed := length_ofBytes bytes
  have hnat := length_ofNat bytes.length
  have hfirst := encodeNat_of_le (b := b) hsize (by omega)
  rw [encodeBytes, if_neg (by rw [← hneed]; exact Nat.not_lt.mpr hroom), hfirst]
  have hsecond : ((b.append (ofNat bytes.length)).putToken bytes) =
      .ok ((b.append (ofNat bytes.length)).append (enclose bytes)) := by
    apply putToken_of_le
    rw [free_append]
    omega
  simp only [bind, Except.bind, hsecond, append_append, Token.ofBytes]

end Buffer

namespace Server

theorem statusReply_of_lt {status : Nat} (h : status < 10 ^ Token.maxDigits) :
    statusReply status = (Token.ofNat status, .ok ()) := by
  have hdigits := Numeral.length_decimal_le (by decide) h
  have hroom : (Token.ofNat status).length ≤ (Buffer.ofCapacity maxMessage).free := by
    rw [Token.length_ofNat]
    simp only [Buffer.ofCapacity, Buffer.free, List.length_replicate, maxMessage, Token.framing,
      Token.maxDigits] at hdigits ⊢
    omega
  rw [statusReply, Buffer.encodeNat_of_le h hroom]
  rfl

/-- The room of an answer suffices for every value whose length can be written. -/
theorem valueReply_of_lt {value : Bytes} (h : value.length < 10 ^ Token.maxDigits) :
    valueReply value = .ok (Token.ofNat 0 ++ Token.ofBytes value) := by
  have hdigits := Numeral.length_decimal_le (by decide) h
  have hstatus : (Token.ofNat 0).length = 4 := by
    rw [Token.length_ofNat, Numeral.decimal]
    rfl
  have hvalue := Token.length_ofBytes value
  have hfree : (Buffer.ofCapacity (max maxMessage (value.length + headroom))).free =
      max maxMessage (value.length + headroom) := by
    simp [Buffer.ofCapacity, Buffer.free]
  have hroom : value.length + 64 ≤ max maxMessage (value.length + headroom) := Nat.le_max_right _ _
  simp only [Token.maxDigits, Token.framing] at hdigits hvalue
  rw [valueReply, Buffer.encodeNat_of_le (by decide) (by omega)]
  simp only [bind, Except.bind]
  rw [Buffer.encodeBytes_of_le h (by rw [Buffer.free_append]; omega), Buffer.append_append]
  rfl

end Server

end KeyValueServer
