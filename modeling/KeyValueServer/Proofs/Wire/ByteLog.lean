import KeyValueServer.Proofs.Wire.InPlace

/-!
# Buffers as logs of bytes

What is written to a buffer since it was last cleared is a log. Writers add to its end, readers move
along it, and nothing in it changes. So the bytes of a span that a reader returned are there until
the buffer is cleared, whatever is written or read meanwhile and whatever of it fails.
-/

namespace KeyValueServer

/-- Whether the action writes all of its bytes or none. -/
def BufferAction.isWriter : BufferAction → Bool
  | put _ => true
  | putByte _ => true
  | encodeNat _ => true
  | encodeBytes _ => true
  | _ => false

/-- The bytes written since a buffer was last cleared, how many of them were consumed, and the spans
that readers returned, each with its bytes. -/
structure ByteLog where
  written : Bytes
  consumed : Nat
  named : List (Span × Bytes)

namespace ByteLog

def readable (log : ByteLog) : Bytes := log.written.drop log.consumed

def append (log : ByteLog) (bytes : Bytes) : ByteLog :=
  { log with written := log.written ++ bytes }

/-- Consume bytes, as many as there are at most. -/
def consume (log : ByteLog) (count : Nat) : ByteLog :=
  { log with consumed := min (log.consumed + count) log.written.length }

def name (log : ByteLog) (span : Span) (bytes : Bytes) : ByteLog :=
  { log with named := (span, bytes) :: log.named }

/-- Nothing is written, nothing has a name. -/
def empty : ByteLog := ⟨[], 0, []⟩

/-- A span names the same bytes when more follow. -/
theorem take_drop_append {written more : Bytes} {span : Span} (h : span.stop ≤ written.length) :
    ((written ++ more).drop span.start).take span.length =
      (written.drop span.start).take span.length := by
  have hstart : span.start ≤ written.length := (Nat.le_add_right _ _).trans h
  have hlength : span.length ≤ (written.drop span.start).length := by
    rw [List.length_drop]
    exact Nat.le_sub_of_add_le' h
  rw [List.drop_append_of_le_length hstart, List.take_append_of_le_length hlength]

/-- How the log of a buffer of some capacity goes on with an action, and what the reply is. -/
inductive Step (capacity : Nat) (log : ByteLog) : BufferAction → BufferReply → ByteLog → Prop
  -- writers add all of their bytes to the end, or none
  | put {bytes : Bytes} (hroom : log.written.length + bytes.length ≤ capacity) :
      Step capacity log (.put bytes) .done (log.append bytes)
  | putRefused {bytes : Bytes} (hroom : capacity < log.written.length + bytes.length) :
      Step capacity log (.put bytes) (.refused (.invalidArgument .bufferFull)) log
  | putByte {byte : UInt8} (hroom : log.written.length < capacity) :
      Step capacity log (.putByte byte) .done (log.append [byte])
  | putByteRefused {byte : UInt8} (hroom : capacity ≤ log.written.length) :
      Step capacity log (.putByte byte) (.refused (.invalidArgument .bufferFull)) log
  | encodeNat {n : Nat} (hn : n < 10 ^ Token.maxDigits)
      (hroom : log.written.length + (Token.ofNat n).length ≤ capacity) :
      Step capacity log (.encodeNat n) .done (log.append (Token.ofNat n))
  | encodeNatRefused {n : Nat} (fault : ArgumentFault)
      (h : 10 ^ Token.maxDigits ≤ n ∨ capacity < log.written.length + (Token.ofNat n).length) :
      Step capacity log (.encodeNat n) (.refused (.invalidArgument fault)) log
  | encodeBytes {bytes : Bytes} (hlength : bytes.length < 10 ^ Token.maxDigits)
      (hroom : log.written.length + (Token.ofBytes bytes).length ≤ capacity) :
      Step capacity log (.encodeBytes bytes) .done (log.append (Token.ofBytes bytes))
  | encodeBytesRefused {bytes : Bytes} (fault : ArgumentFault)
      (h : 10 ^ Token.maxDigits ≤ bytes.length ∨
        capacity < log.written.length + (Token.ofBytes bytes).length) :
      Step capacity log (.encodeBytes bytes) (.refused (.invalidArgument fault)) log
  -- as much as there is room for
  | fill (bytes : Bytes) : Step capacity log (.fill bytes) .done
      (log.append (bytes.take (capacity - log.written.length)))
  -- readers move along the bytes
  | advance (count : Nat) : Step capacity log (.advance count) .done (log.consume count)
  | discard : Step capacity log .discard .done (log.consume log.written.length)
  | decodeNat {n : Nat} {token rest : Bytes} (hn : Token.IsNat n token)
      (hreadable : log.readable = token ++ rest) :
      Step capacity log .decodeNat (.nat n) (log.consume token.length)
  | decodeNatRefused (fault : ArgumentFault)
      (h : ∀ n token rest, Token.IsNat n token → log.readable ≠ token ++ rest) :
      Step capacity log .decodeNat (.refused (.invalidArgument fault)) log
  | decodeBytes {bytes size rest : Bytes} (hsize : Token.IsNat bytes.length size)
      (hfits : bytes.length + Token.framing < Token.wordLimit)
      (hreadable : log.readable = size ++ (Token.enclose bytes ++ rest)) :
      Step capacity log .decodeBytes
        (.span ⟨log.consumed + (size ++ Token.opening).length, bytes.length⟩)
        ((log.consume (size ++ Token.enclose bytes).length).name
          ⟨log.consumed + (size ++ Token.opening).length, bytes.length⟩ bytes)
  | decodeBytesRefused (fault : ArgumentFault)
      (h : ∀ n size rest, Token.IsNat n size → log.readable ≠ size ++ rest) :
      Step capacity log .decodeBytes (.refused (.invalidArgument fault)) log
  -- a length without its bytes is consumed all the same
  | decodeBytesCut (fault : ArgumentFault) {n : Nat} {size rest : Bytes}
      (hsize : Token.IsNat n size) (hreadable : log.readable = size ++ rest)
      (hcut : ∀ bytes rest', bytes.length = n → n + Token.framing < Token.wordLimit →
        rest ≠ Token.enclose bytes ++ rest') :
      Step capacity log .decodeBytes (.refused (.invalidArgument fault))
        (log.consume size.length)
  | clear : Step capacity log .clear .done empty

/-- How the log goes on with one action after the other. -/
inductive Run (capacity : Nat) : ByteLog → List BufferAction → List BufferReply → ByteLog → Prop
  | nil (log : ByteLog) : Run capacity log [] [] log
  | cons {log next last : ByteLog} {a : BufferAction} {reply : BufferReply}
      {rest : List BufferAction} {replies : List BufferReply}
      (hstep : Step capacity log a reply next) (hrest : Run capacity next rest replies last) :
      Run capacity log (a :: rest) (reply :: replies) last

end ByteLog

namespace Buffer

open ByteLog Token

/-- A buffer has this log. -/
structure Logs (b : Buffer) (log : ByteLog) : Prop where
  written : b.consumed ++ b.readable = log.written
  consumed : b.position = log.consumed
  named : ∀ entry ∈ log.named, entry.1.stop ≤ log.written.length ∧
    (log.written.drop entry.1.start).take entry.1.length = entry.2

variable {b : Buffer} {log : ByteLog} {bytes : Bytes} {span : Span}

namespace Logs

theorem readable_eq (h : b.Logs log) : log.readable = b.readable := by
  rw [ByteLog.readable, ← h.written, ← h.consumed, position, List.drop_left]

theorem free_eq (h : b.Logs log) : b.free = b.capacity - log.written.length := by
  rw [← h.written, List.length_append, capacity, free]
  omega

theorem length_le (h : b.Logs log) : log.written.length ≤ b.capacity := by
  rw [← h.written, List.length_append, capacity]
  exact Nat.le_add_right _ _

theorem append (h : b.Logs log) (bytes : Bytes) : (b.append bytes).Logs (log.append bytes) where
  written := by rw [Buffer.append, ByteLog.append, ← h.written, List.append_assoc]
  consumed := h.consumed
  named entry hentry := by
    obtain ⟨hstop, hbytes⟩ := h.named entry hentry
    refine ⟨hstop.trans (List.length_append ▸ Nat.le_add_right _ _), ?_⟩
    rw [ByteLog.append, take_drop_append hstop, hbytes]

theorem advance (h : b.Logs log) (count : Nat) : (b.advance count).Logs (log.consume count) where
  written := by
    rw [Buffer.advance, ByteLog.consume, ← h.written, List.append_assoc, List.take_append_drop]
  consumed := by
    rw [ByteLog.consume, ← h.consumed, ← h.written]
    simp only [position, Buffer.advance, List.length_append, List.length_take]
    omega
  named := h.named

theorem discard (h : b.Logs log) : b.discard.Logs (log.consume log.written.length) where
  written := by rw [Buffer.discard, ByteLog.consume, ← h.written, List.append_nil]
  consumed := by
    rw [ByteLog.consume, ← h.written]
    simp only [position, Buffer.discard, List.length_append]
    omega
  named := h.named

theorem name (h : b.Logs log) (hstop : span.stop ≤ log.written.length)
    (hbytes : (log.written.drop span.start).take span.length = bytes) :
    b.Logs (log.name span bytes) where
  written := h.written
  consumed := h.consumed
  named := List.forall_mem_cons.mpr ⟨⟨hstop, hbytes⟩, h.named⟩

theorem clear (b : Buffer) : b.clear.Logs .empty := ⟨rfl, rfl, fun _ hentry => nomatch hentry⟩

/-- The place of some of the readable bytes. -/
theorem place (h : b.Logs log) {before rest : Bytes}
    (hreadable : log.readable = before ++ (bytes ++ rest)) :
    log.consumed + before.length + bytes.length ≤ log.written.length ∧
      (log.written.drop (log.consumed + before.length)).take bytes.length = bytes := by
  have hlength := congrArg List.length hreadable
  have hconsumed : log.consumed ≤ log.written.length := by
    rw [← h.consumed, ← h.written, List.length_append]
    exact Nat.le_add_right _ _
  rw [ByteLog.readable, List.length_drop, List.length_append, List.length_append] at hlength
  refine ⟨by omega, ?_⟩
  rw [← List.drop_drop, ← ByteLog.readable, hreadable, List.drop_left, List.take_left]

end Logs

theorem capacity_append (h : bytes.length ≤ b.free) : (b.append bytes).capacity = b.capacity := by
  simp only [capacity, append, free, List.length_append, List.length_drop] at h ⊢
  omega

theorem capacity_fill (bytes : Bytes) : (b.fill bytes).capacity = b.capacity :=
  capacity_append (List.length_take_le _ _)

theorem capacity_discard : b.discard.capacity = b.capacity := by
  simp [capacity, discard]

theorem capacity_clear : b.clear.capacity = b.capacity := by
  simp [capacity, clear, storage, Nat.add_assoc]

/-! ## One action -/

/-- The log goes on with the action, and the size of the storage stays. -/
def Goes (b : Buffer) (log : ByteLog) (a : BufferAction) : Prop :=
  ∃ next, Step b.capacity log a (b.perform a).1 next ∧ (b.perform a).2.Logs next ∧
    (b.perform a).2.capacity = b.capacity

theorem Logs.put (h : b.Logs log) (bytes : Bytes) : b.Goes log (.put bytes) := by
  have hfree := h.free_eq
  have hle := h.length_le
  rw [Goes, perform]
  by_cases hroom : bytes.length ≤ b.free
  · rw [put_of_le hroom]
    exact ⟨_, .put (by omega), h.append bytes, capacity_append hroom⟩
  · rw [Buffer.put, if_pos (not_le.mp hroom)]
    exact ⟨_, .putRefused (by omega), h, rfl⟩

theorem Logs.putByte (h : b.Logs log) (byte : UInt8) : b.Goes log (.putByte byte) := by
  have hfree := h.free_eq
  have hle := h.length_le
  rw [Goes, perform]
  by_cases hroom : [byte].length ≤ b.free
  · rw [put_of_le hroom]
    rw [List.length_singleton] at hroom
    exact ⟨_, .putByte (by omega), h.append [byte], capacity_append hroom⟩
  · rw [Buffer.put, if_pos (not_le.mp hroom)]
    rw [List.length_singleton] at hroom
    exact ⟨_, .putByteRefused (by omega), h, rfl⟩

theorem Logs.encodeNat (h : b.Logs log) (n : Nat) : b.Goes log (.encodeNat n) := by
  have hfree := h.free_eq
  have hle := h.length_le
  rw [Goes, perform, encodeNat_eq]
  by_cases hn : n < 10 ^ maxDigits
  · rw [if_pos hn]
    by_cases hroom : (ofNat n).length ≤ b.free
    · rw [if_pos hroom]
      exact ⟨_, .encodeNat hn (by omega), h.append _, capacity_append hroom⟩
    · rw [if_neg hroom]
      exact ⟨_, .encodeNatRefused _ (.inr (by omega)), h, rfl⟩
  · rw [if_neg hn]
    exact ⟨_, .encodeNatRefused _ (.inl (not_lt.mp hn)), h, rfl⟩

theorem Logs.encodeBytes (h : b.Logs log) (bytes : Bytes) : b.Goes log (.encodeBytes bytes) := by
  have hfree := h.free_eq
  have hle := h.length_le
  rw [Goes, perform, encodeBytes_eq]
  by_cases hroom : (Token.ofBytes bytes).length ≤ b.free
  · rw [if_pos hroom]
    by_cases hlength : bytes.length < 10 ^ maxDigits
    · rw [if_pos hlength]
      exact ⟨_, .encodeBytes hlength (by omega), h.append _, capacity_append hroom⟩
    · rw [if_neg hlength]
      exact ⟨_, .encodeBytesRefused _ (.inl (not_lt.mp hlength)), h, rfl⟩
  · rw [if_neg hroom]
    exact ⟨_, .encodeBytesRefused _ (.inr (by omega)), h, rfl⟩

theorem Logs.fill (h : b.Logs log) (bytes : Bytes) : b.Goes log (.fill bytes) := by
  refine ⟨_, .fill bytes, ?_, capacity_fill bytes⟩
  rw [← h.free_eq]
  exact h.append _

theorem Logs.decodeNat (h : b.Logs log) : b.Goes log .decodeNat := by
  rw [Goes, perform]
  rcases hread : b.decodeNat with ⟨e | n, rest⟩
  · obtain ⟨fault, rfl⟩ := eq_invalidArgument_of_decodeNat hread
    obtain rfl := eq_of_decodeNat_eq_error hread
    refine ⟨_, .decodeNatRefused fault fun n token tail hn hreadable => ?_, h, rfl⟩
    rw [decodeNat_of_isNat (h.readable_eq.symm.trans hreadable) hn] at hread
    simp at hread
  · obtain ⟨token, tail, hn, hreadable, rfl⟩ := isNat_of_decodeNat hread
    exact ⟨_, .decodeNat hn (h.readable_eq.trans hreadable), h.advance _, capacity_advance _ _⟩

theorem Logs.decodeBytes (h : b.Logs log) : b.Goes log .decodeBytes := by
  rw [Goes, perform]
  by_cases hnat : ∃ n size tail, IsNat n size ∧ b.readable = size ++ tail
  · obtain ⟨n, size, tail, hsize, hreadable⟩ := hnat
    have htail := readable_advance hreadable
    have hread : b.decodeNat = (.ok n, b.advance size.length) := decodeNat_of_isNat hreadable hsize
    cases hcheck : checkPayload n tail with
    | error fault =>
        have hcut : b.decodeBytes = (refused fault, b.advance size.length) := by
          rw [Buffer.decodeBytes, hread]
          simp only [htail, hcheck]
        rw [hcut]
        refine ⟨_, .decodeBytesCut fault hsize (h.readable_eq.trans hreadable) ?_, h.advance _,
          capacity_advance _ _⟩
        rintro bytes rest rfl hfits rfl
        rw [checkPayload_append hfits] at hcheck
        contradiction
    | ok _ =>
        obtain ⟨bytes, rest, rfl, rfl⟩ := enclose_of_checkPayload hcheck
        have hfits : bytes.length + framing < wordLimit := by
          by_contra hwide
          rw [checkPayload, if_pos (not_lt.mp hwide)] at hcheck
          contradiction
        have hlog := h.readable_eq.trans hreadable
        have hplace : log.readable = (size ++ opening) ++ (bytes ++ ([closing] ++ rest)) := by
          rw [hlog, enclose]
          simp only [List.append_assoc]
        obtain ⟨hstop, hbytes⟩ := h.place hplace
        rw [decodeBytes_of_isNat hsize hfits hreadable, h.consumed]
        exact ⟨_, .decodeBytes hsize hfits hlog, (h.advance _).name hstop hbytes,
          capacity_advance _ _⟩
  · have hnone : ∀ n token rest, IsNat n token → b.readable ≠ token ++ rest :=
      fun n token rest hn hreadable => hnat ⟨n, token, rest, hn, hreadable⟩
    obtain ⟨fault, hread⟩ := decodeNat_of_not hnone
    have hnothing : b.decodeBytes = (.error (.invalidArgument fault), b) := by
      rw [Buffer.decodeBytes, hread]
    rw [hnothing]
    refine ⟨_, .decodeBytesRefused fault ?_, h, rfl⟩
    rwa [h.readable_eq]

/-- Every action goes on with the log. -/
theorem Logs.perform (h : b.Logs log) (a : BufferAction) : b.Goes log a := by
  cases a with
  | put bytes => exact h.put bytes
  | putByte byte => exact h.putByte byte
  | fill bytes => exact h.fill bytes
  | advance count => exact ⟨_, .advance count, h.advance count, capacity_advance b count⟩
  | discard => exact ⟨_, .discard, h.discard, capacity_discard⟩
  | clear => exact ⟨_, .clear, Logs.clear b, capacity_clear⟩
  | encodeNat n => exact h.encodeNat n
  | encodeBytes bytes => exact h.encodeBytes bytes
  | decodeNat => exact h.decodeNat
  | decodeBytes => exact h.decodeBytes

theorem Logs.performAll (h : b.Logs log) (actions : List BufferAction) :
    ∃ last, Run b.capacity log actions (b.performAll actions).1 last ∧
      (b.performAll actions).2.Logs last ∧ (b.performAll actions).2.capacity = b.capacity := by
  induction actions generalizing b log with
  | nil => exact ⟨log, .nil log, h, rfl⟩
  | cons a rest ih =>
      obtain ⟨next, hstep, hnext, hcapacity⟩ := h.perform a
      obtain ⟨last, hrun, hlast, hsame⟩ := ih hnext
      rw [hcapacity] at hrun hsame
      exact ⟨last, .cons hstep hrun, hlast, hsame⟩

/-- A writer that fails leaves the buffer as it was. -/
theorem perform_of_refused {a : BufferAction} {e : Error} (ha : a.isWriter = true)
    (h : (b.perform a).1 = .refused e) : (b.perform a).2 = b := by
  have hwriter : ∀ result, (b.afterWriter result).1 = .refused e →
      (b.afterWriter result).2 = b := by
    rintro (_ | next) hresult
    · rfl
    · contradiction
  cases a with
  | put bytes => exact hwriter _ h
  | putByte byte => exact hwriter _ h
  | encodeNat n => exact hwriter _ h
  | encodeBytes bytes => exact hwriter _ h
  | _ => contradiction

end Buffer

/-! ## Buffers in their place -/

/-- What the storage and the positions have to do with the log. -/
structure Placement.Keeps (p : Placement) (capacity : Nat) (log : ByteLog) : Prop where
  length : p.storage.length = capacity
  parts : p.reading + p.size + p.free = capacity
  ordered : p.reading ≤ p.writing ∧ p.writing ≤ capacity
  written : p.storage.take p.writing = log.written
  consumed : p.reading = log.consumed
  readable : p.readable = log.readable
  named : ∀ entry ∈ log.named, entry.1.stop ≤ p.writing ∧ p.slice? entry.1 = some entry.2

theorem Buffer.Logs.keeps {b : Buffer} {log : ByteLog} (h : b.Logs log) :
    b.placement.Keeps b.capacity log where
  length := b.length_storage
  parts := by
    rw [b.size_placement, b.free_placement]
    rfl
  ordered := ⟨Nat.le_add_right _ _, b.position_add_size_le⟩
  written := by
    have hwritten : b.position + b.size = (b.consumed ++ b.readable).length :=
      List.length_append.symm
    rw [Buffer.placement, hwritten, Buffer.storage, List.take_left, h.written]
  consumed := h.consumed
  readable := b.readable_placement.trans h.readable_eq.symm
  named entry hentry := by
    obtain ⟨hstop, hbytes⟩ := h.named entry hentry
    have hwriting : b.placement.writing = log.written.length := by
      rw [← h.written, List.length_append]
      rfl
    refine ⟨hwriting ▸ hstop, ?_⟩
    rw [b.slice?_placement, Buffer.slice?, if_pos (hstop.trans h.length_le), Buffer.bytesAt,
      Buffer.storage, h.written, ByteLog.take_drop_append hstop, hbytes]

namespace ByteLog

variable {capacity : Nat} {log next : ByteLog} {a : BufferAction} {reply : BufferReply}
  {actions : List BufferAction} {replies : List BufferReply} {span : Span}

/-- Names are forgotten only when the buffer is cleared. -/
theorem Step.named_subset (h : Step capacity log a reply next) (ha : a ≠ .clear) :
    log.named ⊆ next.named := by
  cases h with
  | clear => contradiction
  | decodeBytes => exact List.subset_cons_self _ _
  | _ => exact List.Subset.refl _

theorem Run.named_subset (h : Run capacity log actions replies next)
    (hactions : BufferAction.clear ∉ actions) : log.named ⊆ next.named := by
  induction h with
  | nil => exact List.Subset.refl _
  | cons hstep hrest ih =>
      obtain ⟨hfirst, hlater⟩ := not_or.mp (mt List.mem_cons.mpr hactions)
      exact List.Subset.trans (hstep.named_subset (Ne.symm hfirst)) (ih hlater)

theorem Step.mem_named (h : Step capacity log .decodeBytes (.span span) next) :
    ∃ bytes, (span, bytes) ∈ next.named := by
  cases h with
  | decodeBytes => exact ⟨_, List.mem_cons_self⟩

end ByteLog

/-- How a buffer comes about: empty, or with a copy of some bytes. -/
inductive BufferOrigin where
  | ofCapacity (capacity : Nat)
  | ofBytes (bytes : Bytes)

namespace BufferOrigin

def buffer : BufferOrigin → Buffer
  | ofCapacity capacity => .ofCapacity capacity
  | ofBytes bytes => .ofBytes bytes

/-- The size of the storage. -/
def capacity : BufferOrigin → Nat
  | ofCapacity capacity => capacity
  | ofBytes bytes => max bytes.length maxMessage

/-- The bytes that are there from the start count as written. -/
def log : BufferOrigin → ByteLog
  | ofCapacity _ => .empty
  | ofBytes bytes => ⟨bytes, 0, []⟩

theorem logs (o : BufferOrigin) : o.buffer.Logs o.log := by
  cases o with
  | ofCapacity capacity => exact ⟨rfl, rfl, fun _ hentry => nomatch hentry⟩
  | ofBytes bytes => exact ⟨rfl, rfl, fun _ hentry => nomatch hentry⟩

theorem capacity_buffer (o : BufferOrigin) : o.buffer.capacity = o.capacity := by
  cases o with
  | ofCapacity capacity => simp [buffer, Buffer.ofCapacity, Buffer.capacity, BufferOrigin.capacity]
  | ofBytes bytes =>
      simp only [buffer, Buffer.ofBytes, Buffer.capacity, BufferOrigin.capacity, List.length_nil,
        List.length_replicate]
      omega

/-- Whatever is done to a buffer, its storage and positions keep a log of it. -/
theorem keeps_log (o : BufferOrigin) (actions : List BufferAction) :
    -- the three parts and the buffer in its place give the same replies and stay in step
    (o.buffer.placement.performAll actions =
      ((o.buffer.performAll actions).1, (o.buffer.performAll actions).2.placement)) ∧
    (∃ last, ByteLog.Run o.capacity o.log actions (o.buffer.placement.performAll actions).1 last ∧
      (o.buffer.placement.performAll actions).2.Keeps o.capacity last) ∧
    -- a writer that fails changes nothing
    (∀ a e, a.isWriter = true →
      ((o.buffer.placement.performAll actions).2.perform a).1 = .refused e →
      ((o.buffer.placement.performAll actions).2.perform a).2 =
        (o.buffer.placement.performAll actions).2) ∧
    -- a span names the same bytes until the buffer is cleared
    ∀ earlier later span, actions = earlier ++ .decodeBytes :: later → .clear ∉ later →
      ((o.buffer.placement.performAll earlier).2.perform .decodeBytes).1 = .span span →
      ∃ bytes,
        ((o.buffer.placement.performAll earlier).2.perform .decodeBytes).2.slice? span =
          some bytes ∧
        span.stop ≤ (o.buffer.placement.performAll actions).2.writing ∧
        (o.buffer.placement.performAll actions).2.slice? span = some bytes := by
  refine ⟨o.buffer.performAll_placement actions, ?_, ?_, ?_⟩
  · obtain ⟨last, hrun, hlast, hcapacity⟩ := o.logs.performAll actions
    rw [capacity_buffer] at hrun hcapacity
    rw [Buffer.performAll_placement]
    exact ⟨last, hrun, hcapacity ▸ hlast.keeps⟩
  · intro a e ha h
    rw [Buffer.performAll_placement, Buffer.perform_placement] at h ⊢
    rw [Buffer.perform_of_refused ha h]
  · rintro earlier later span rfl hlater hspan
    obtain ⟨first, -, hfirst, -⟩ := o.logs.performAll earlier
    rw [Buffer.performAll_placement, Buffer.perform_placement] at hspan ⊢
    obtain ⟨second, hstep, hsecond, -⟩ := hfirst.perform .decodeBytes
    obtain ⟨last, hrun, hlast, -⟩ := hsecond.performAll later
    rw [hspan] at hstep
    obtain ⟨bytes, hnamed⟩ := hstep.mem_named
    have hend : (o.buffer.placement.performAll (earlier ++ .decodeBytes :: later)).2 =
        (((o.buffer.performAll earlier).2.perform .decodeBytes).2.performAll
          later).2.placement := by
      rw [Placement.performAll_append, Buffer.performAll_placement, Placement.performAll,
        Buffer.perform_placement, Buffer.performAll_placement]
    rw [hend]
    obtain ⟨hstop, hslice⟩ := hlast.keeps.named _ (hrun.named_subset hlater hnamed)
    exact ⟨bytes, (hsecond.keeps.named _ hnamed).2, hstop, hslice⟩

end BufferOrigin

end KeyValueServer
