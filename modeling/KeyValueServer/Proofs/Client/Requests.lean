import KeyValueServer.Client.Exchange
import KeyValueServer.Proofs.Server.Frames
import KeyValueServer.Proofs.Wire.RoundTrip

/-!
# Requests that fit a message

A request is a message of items. It can be sent exactly where its frame is no longer than a message,
and then the frame is what is sent; otherwise nothing is sent at all.
-/

namespace KeyValueServer

open Token

namespace Request

/-- The items that a request is made of. -/
def items : Request → List Item
  | get key => [.nat CommandCode.get.number, .bytes key]
  | set key value => [.nat CommandCode.set.number, .bytes key, .bytes value]

theorem frame_eq_message (request : Request) : request.frame = message request.items := by
  cases request <;> simp [frame, items, message, Item.token]

theorem encode_eq_foldlM (request : Request) :
    request.encode = request.items.foldlM Buffer.encodeItem (Buffer.ofCapacity maxMessage) := by
  cases request <;> simp [encode, items, Buffer.encodeItem, code]

theorem free_ofCapacity (capacity : Nat) : (Buffer.ofCapacity capacity).free = capacity :=
  List.length_replicate

theorem length_ofCapacity (capacity : Nat) :
    (Buffer.ofCapacity capacity).readable.length + (Buffer.ofCapacity capacity).free =
      capacity := by
  rw [free_ofCapacity]
  exact Nat.zero_add capacity

theorem length_ofNat_number {code : CommandCode} (h : code = .get ∨ code = .set) :
    (ofNat code.number).length = 4 := by
  rcases h with rfl | rfl <;> rw [length_ofNat, Numeral.decimal] <;> rfl

theorem length_frame_get (key : Bytes) : (get key).frame.length = 4 + (ofBytes key).length := by
  rw [frame, List.length_append, length_ofNat_number (.inl rfl)]

theorem length_frame_set (key value : Bytes) :
    (set key value).frame.length = 4 + (ofBytes key).length + (ofBytes value).length := by
  rw [frame, List.length_append, List.length_append, length_ofNat_number (.inr rfl)]

theorem length_le_length_ofBytes (bytes : Bytes) : bytes.length ≤ (ofBytes bytes).length := by
  rw [length_ofBytes]
  omega

theorem isWritable_of_mem_items {request : Request} (h : request.frame.length ≤ maxMessage) :
    ∀ item ∈ request.items, item.IsWritable := by
  have hlimit : maxMessage < 10 ^ maxDigits := by decide
  have hbytes : ∀ bytes : Bytes, (ofBytes bytes).length ≤ maxMessage →
      (Item.bytes bytes).IsWritable := by
    intro bytes hle
    exact ((length_le_length_ofBytes bytes).trans hle).trans_lt hlimit
  cases request with
  | get key =>
      rw [length_frame_get] at h
      simp only [items, List.forall_mem_cons, List.not_mem_nil, false_implies, implies_true,
        and_true]
      exact ⟨by decide, hbytes key (by omega)⟩
  | set key value =>
      rw [length_frame_set] at h
      simp only [items, List.forall_mem_cons, List.not_mem_nil, false_implies, implies_true,
        and_true]
      exact ⟨by decide, hbytes key (by omega), hbytes value (by omega)⟩

theorem isFrame_frame {request : Request} (h : request.frame.length ≤ maxMessage) :
    IsFrame request request.frame := by
  have hlimit : maxMessage < wordLimit := by decide
  have hbytes : ∀ bytes : Bytes, (ofBytes bytes).length ≤ maxMessage →
      IsString bytes (ofBytes bytes) := by
    intro bytes hle
    exact isString_ofBytes (((length_le_length_ofBytes bytes).trans hle).trans_lt hlimit)
  cases request with
  | get key =>
      rw [length_frame_get] at h
      exact .get (isNat_ofNat (by decide)) (hbytes key (by omega))
  | set key value =>
      rw [length_frame_set] at h
      rw [frame, List.append_assoc]
      exact .set (isNat_ofNat (by decide)) (hbytes key (by omega)) (hbytes value (by omega))

/-! ## Writing a request -/

theorem encode_of_le {request : Request} (h : request.frame.length ≤ maxMessage) :
    ∃ b, request.encode = .ok b ∧ b.readable = request.frame := by
  have hwritable := isWritable_of_mem_items h
  rw [frame_eq_message] at h ⊢
  rw [encode_eq_foldlM,
    Buffer.encodeItems_of_le hwritable (by rwa [free_ofCapacity])]
  exact ⟨_, rfl, rfl⟩

theorem encodeBytes_of_lt {b : Buffer} {bytes : Bytes} (h : b.free < (ofBytes bytes).length) :
    b.encodeBytes bytes = .error (.invalidArgument .noRoomForString) := by
  rw [length_ofBytes] at h
  rw [Buffer.encodeBytes, if_pos h]
  rfl

theorem encode_of_lt {request : Request} (h : maxMessage < request.frame.length) :
    request.encode = .error (.invalidArgument .noRoomForString) := by
  have hfits : 4 ≤ maxMessage := by decide
  have hcode : ∀ n, (ofNat n).length = 4 → n < 10 ^ maxDigits →
      (Buffer.ofCapacity maxMessage).encodeNat n =
        .ok ((Buffer.ofCapacity maxMessage).append (ofNat n)) := by
    intro n hlength hn
    refine Buffer.encodeNat_of_le hn ?_
    rw [hlength, free_ofCapacity]
    decide
  have hroom : ∀ n, (ofNat n).length = 4 →
      ((Buffer.ofCapacity maxMessage).append (ofNat n)).free = maxMessage - 4 := by
    intro n hlength
    rw [Buffer.free_append, hlength, free_ofCapacity]
  cases request with
  | get key =>
      have hfour := length_ofNat_number (.inl rfl)
      rw [length_frame_get] at h
      rw [encode, code, hcode _ hfour (by decide)]
      apply encodeBytes_of_lt
      rw [hroom _ hfour]
      omega
  | set key value =>
      have hfour := length_ofNat_number (.inr rfl)
      rw [length_frame_set] at h
      rw [encode, code, hcode _ hfour (by decide)]
      -- The key is refused, or it leaves too little room for the value.
      by_cases hkey : (ofBytes key).length ≤ maxMessage - 4
      · have hshort : key.length < 10 ^ maxDigits :=
          ((length_le_length_ofBytes key).trans hkey).trans_lt (by decide)
        have hwritten := Buffer.encodeBytes_of_le
          (b := (Buffer.ofCapacity maxMessage).append (ofNat CommandCode.set.number)) hshort
          (by rwa [hroom _ hfour])
        simp only [bind, Except.bind, hwritten]
        apply encodeBytes_of_lt
        rw [Buffer.free_append, hroom _ hfour]
        omega
      · simp only [bind, Except.bind]
        rw [encodeBytes_of_lt (by rw [hroom _ hfour]; omega)]

end Request

/-! ## Sending a request -/

namespace Client

variable {request : Request} {sink sink' : Sink} {source : Source}

theorem exchange_of_lt (h : maxMessage < request.frame.length) (sink : Sink) (source : Source) :
    exchange request sink source =
      ⟨.error (.invalidArgument .noRoomForString), sink, source⟩ := by
  rw [exchange, Request.encode_of_lt h]

theorem exchange_of_send (h : request.frame.length ≤ maxMessage)
    (hsend : sink.send request.frame = (.ok (), sink')) (source : Source) :
    exchange request sink source =
      ⟨(await request (Buffer.ofCapacity maxMessage) source).1, sink',
        (await request (Buffer.ofCapacity maxMessage) source).2⟩ := by
  obtain ⟨b, hencode, hreadable⟩ := Request.encode_of_le h
  rw [exchange, hencode]
  simp only [hreadable, hsend]

end Client

end KeyValueServer
