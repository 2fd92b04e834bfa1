import KeyValueServer.Config.Settings
import KeyValueServer.Proofs.Connection.Fittings
import KeyValueServer.Proofs.Store.Lookup

/-!
# Limits

What is checked of a configuration is what the parts of a server ask for when they are made: the
table, the waiter, the rings and the pool of connections, each up to the same last number. A ring
keeps one cell unused. So a batch of events has to be smaller than the ring that takes it, and a
ring takes an event only if it has two cells.
-/

namespace KeyValueServer

/-! ## What the parts ask for -/

/-- There is memory for a table of this size. -/
def Allocator.Grants (memory : Allocator) (slotBits maxShards : Nat) : Prop :=
  memory (.shardArray maxShards) = true ∧ memory (.slots (2 ^ slotBits)) = true

namespace Table

variable {memory : Allocator} {hash : Bytes → UInt64} {slotBits maxShards : Nat}

/-- A table within its limits lacks nothing but memory. -/
theorem new_of_limits (hbits : 1 ≤ slotBits ∧ slotBits ≤ 28) (hshards : maxShards ≠ 0) :
    memory.Grants slotBits maxShards ∧ (∃ t, new memory hash slotBits maxShards = .ok t) ∨
      ¬memory.Grants slotBits maxShards ∧
        new memory hash slotBits maxShards = .error .outOfMemory := by
  have hlimits : ¬(slotBits < 1 ∨ 28 < slotBits) := by omega
  rw [new, if_neg hlimits, if_neg hshards, Allocator.Grants]
  cases hshard : memory (.shardArray maxShards) with
  | false => exact .inr ⟨by simp, rfl⟩
  | true =>
      cases hslots : memory (.slots (2 ^ slotBits)) with
      | false => exact .inr ⟨by simp, by simp⟩
      | true => exact .inl ⟨⟨rfl, rfl⟩, by simp⟩

/-- A table beyond its limits is refused before any memory is asked for. -/
theorem new_eq_invalidArgument (h : ¬(1 ≤ slotBits ∧ slotBits ≤ 28) ∨ maxShards = 0) :
    new memory hash slotBits maxShards = .error (.invalidArgument
      (if 1 ≤ slotBits ∧ slotBits ≤ 28 then .noShards else .slotBitsOutOfRange)) := by
  by_cases hbits : 1 ≤ slotBits ∧ slotBits ≤ 28
  · have hlimits : ¬(slotBits < 1 ∨ 28 < slotBits) := by omega
    rw [new, if_neg hlimits, if_pos (h.resolve_left (not_not_intro hbits)), if_pos hbits]
  · rw [new, if_pos (by omega), if_neg hbits]

end Table

/-- A pool of two places has one for the listener and one for a client. -/
theorem Arena.install_new_eq_ok {places cells : Nat} (hplaces : 2 ≤ places) (hcells : 2 ≤ cells)
    (role : ConnectionRole) (socket : Socket) :
    ∃ token a, (Arena.new places cells).install listenerIndex role socket = (.ok token, a) ∧
      a.inUse? = some 0 ∧
      ∃ index a', a.allocate = some (index, a') ∧ index ≠ listenerIndex ∧ index < places := by
  have hcapacity : (Arena.new places cells).capacity = places := Array.size_replicate
  have hfirst : listenerIndex < (Arena.new places cells).capacity := by
    rw [hcapacity, listenerIndex]
    omega
  obtain ⟨token, next, hinstall⟩ :=
    install_eq_ok (a := Arena.new places cells) hcells hfirst role socket
  obtain ⟨hfree, hsize, -⟩ :=
    (Arena.new places cells).install_leaves_line listenerIndex role socket
  rw [hinstall] at hfree hsize
  have hlends := (lends_new (Nat.le_of_succ_le hplaces) cells).congr hfree hsize
  refine ⟨token, _, hinstall, hlends.inUse?_eq, ?_⟩
  cases hallocate : ((Arena.new places cells).put listenerIndex next).allocate with
  | none =>
      have hfull := hlends.allocate_eq_none_iff.mp hallocate
      rw [hsize, hcapacity, List.length_nil] at hfull
      omega
  | some handed =>
      obtain ⟨index, a'⟩ := handed
      obtain ⟨hindex, hlt, -⟩ := hlends.fresh hallocate
      exact ⟨index, a', rfl, hindex, hcapacity ▸ hsize ▸ hlt⟩

/-! ## What is checked -/

/-- The limits of a configuration, in the order in which they are checked. -/
def ConfigFault.limits : List ConfigFault :=
  [.noThreads, .slotBits, .noShards, .connections, .queueCapacity, .pollBatch]

namespace Config

/-- The configuration is on the wrong side of a limit. -/
def Breaks (c : Config) : ConfigFault → Prop
  | .noThreads => c.threads.toNat = 0
  | .slotBits => ¬(1 ≤ c.slotBits.toNat ∧ c.slotBits.toNat ≤ 28)
  | .noShards => c.maxShards.toNat = 0
  | .connections => c.maxConnections.toNat < 2
  | .queueCapacity => c.eventQueueCapacity.toNat < 2 ∨ c.connectionQueueCapacity.toNat < 2
  | .pollBatch => c.pollBatch.toNat = 0 ∨ c.eventQueueCapacity.toNat ≤ c.pollBatch.toNat
  | .described _ => False

instance (c : Config) : DecidablePred c.Breaks
  | .noThreads => inferInstanceAs (Decidable (_ = _))
  | .slotBits => inferInstanceAs (Decidable (¬(_ ∧ _)))
  | .noShards => inferInstanceAs (Decidable (_ = _))
  | .connections => inferInstanceAs (Decidable (_ < _))
  | .queueCapacity => inferInstanceAs (Decidable (_ ∨ _))
  | .pollBatch => inferInstanceAs (Decidable (_ ∨ _))
  | .described _ => inferInstanceAs (Decidable False)

variable {c : Config} {fault : ConfigFault}

/-- The first limit that is broken is reported. -/
theorem validate_eq_find? (c : Config) : c.validate =
    match ConfigFault.limits.find? fun fault => c.Breaks fault with
    | none => .ok ()
    | some fault => .error fault := by
  simp only [validate, ConfigFault.limits, List.find?, Breaks, UInt64.lt_iff_toNat_lt,
    UInt32.lt_iff_toNat_lt, UInt64.le_iff_toNat_le, ← UInt64.toNat_inj, UInt64.toNat_ofNat,
    UInt32.toNat_ofNat, Nat.reducePow, Nat.reduceMod, not_and_or, not_le]
  split_ifs <;> simp only [*, decide_true, decide_false]

theorem breaks_of_validate (h : c.validate = .error fault) : c.Breaks fault := by
  rw [validate_eq_find?] at h
  split at h
  · contradiction
  next found hfound =>
    obtain rfl := Except.error.inj h
    simpa using List.find?_some hfound

theorem exists_validate_eq_error (h : c.Breaks fault) :
    ∃ reported, c.validate = .error reported ∧ c.Breaks reported := by
  have hlisted : fault ∈ ConfigFault.limits := by
    cases fault <;> first | decide | exact h.elim
  cases hvalidate : c.validate with
  | error reported => exact ⟨reported, rfl, breaks_of_validate hvalidate⟩
  | ok _ =>
      rw [validate_eq_find?] at hvalidate
      split at hvalidate
      next hkept => exact absurd h (by simpa using List.find?_eq_none.mp hkept fault hlisted)
      · contradiction

theorem not_breaks_of_validate (h : c.validate = .ok ()) (fault : ConfigFault) :
    ¬c.Breaks fault := by
  intro hbreaks
  obtain ⟨reported, herror, -⟩ := exists_validate_eq_error hbreaks
  rw [h] at herror
  contradiction

/-! ## What is checked is what is asked for -/

/-- The parts of a server can be made of a configuration, and they are large enough for each other.
-/
structure Suffices (c : Config) : Prop where
  /-- There is a waiter, and there are workers to wait. -/
  waiter : ∃ w, Waiter.new c.eventQueueCapacity.toNat c.pollBatch.toNat c.threads.toNat = .ok w ∧
    w.members ≠ []
  /-- A table lacks nothing but memory. -/
  table : ∀ (memory : Allocator) (hash : Bytes → UInt64),
    memory.Grants c.slotBits.toNat c.maxShards.toNat ∧
        (∃ t, Table.new memory hash c.slotBits.toNat c.maxShards.toNat = .ok t) ∨
      ¬memory.Grants c.slotBits.toNat c.maxShards.toNat ∧
        Table.new memory hash c.slotBits.toNat c.maxShards.toNat = .error .outOfMemory
  /-- There is a shared queue, which takes a whole batch whenever it is empty. -/
  queue : ∃ r, EventRing.new? c.eventQueueCapacity.toNat = some r
  batch : ∀ {r : EventRing}, r.ComesFrom c.eventQueueCapacity.toNat → r.isEmpty = true →
    ∀ events : List Event, events.length ≤ c.pollBatch.toNat → ∃ r', r.extend? events = some r'
  /-- There is a ring for each connection, which takes an event whenever it is empty. -/
  ring : ∃ r, EventRing.new? c.connectionQueueCapacity.toNat = some r
  event : ∀ {r : EventRing}, r.ComesFrom c.connectionQueueCapacity.toNat → r.isEmpty = true →
    ∀ event : Event, ∃ r', r.push? event = some r'
  /-- The listener can be put into the first place. No client is counted then, and there is a place
  for one. -/
  pool : ∃ token a,
    (Arena.new c.maxConnections.toNat c.connectionQueueCapacity.toNat).install
      Arena.listenerIndex .listener .listener = (.ok token, a) ∧
    a.inUse? = some 0 ∧ ∃ index a', a.allocate = some (index, a') ∧
      index ≠ Arena.listenerIndex ∧ index < c.maxConnections.toNat

theorem members_of_new {w : Waiter}
    (h : Waiter.new c.eventQueueCapacity.toNat c.pollBatch.toNat c.threads.toNat = .ok w) :
    w.members = List.range c.threads.toNat := by
  obtain ⟨queue, -, rfl⟩ := Waiter.eq_of_new h
  rfl

theorem suffices_of_validate (h : c.validate = .ok ()) : c.Suffices := by
  have hkeeps := not_breaks_of_validate h
  have hcrew : c.threads.toNat ≠ 0 := hkeeps .noThreads
  have hbatch : 0 < c.pollBatch.toNat ∧ c.pollBatch.toNat < c.eventQueueCapacity.toNat := by
    have hlimit := hkeeps .pollBatch
    rw [Breaks] at hlimit
    omega
  have hrings : 2 ≤ c.eventQueueCapacity.toNat ∧ 2 ≤ c.connectionQueueCapacity.toNat := by
    have hlimit := hkeeps .queueCapacity
    rw [Breaks] at hlimit
    omega
  obtain ⟨w, hw⟩ := Waiter.exists_new_iff.mpr hbatch
  exact {
    waiter := ⟨w, hw, by rwa [members_of_new hw, ne_eq, List.range_eq_nil]⟩
    table := fun memory hash =>
      Table.new_of_limits (Decidable.not_not.mp (hkeeps .slotBits)) (hkeeps .noShards)
    queue := EventRing.exists_new?_iff.mpr hrings.1
    batch := fun hr hempty events hlength =>
      (hr.exists_extend?_iff hempty).mpr (hlength.trans_lt hbatch.2)
    ring := EventRing.exists_new?_iff.mpr hrings.2
    event := fun hr hempty => hr.exists_push? hempty
    pool := Arena.install_new_eq_ok (Nat.not_lt.mp (hkeeps .connections)) hrings.2 _ _ }

/-- Each limit is one without which some part could not be made. -/
theorem Suffices.not_breaks (h : c.Suffices) (fault : ConfigFault) : ¬c.Breaks fault := by
  intro hbreaks
  -- a refusal is told from a lack of memory where there is no such lack
  have htable (hlimits : ¬(1 ≤ c.slotBits.toNat ∧ c.slotBits.toNat ≤ 28) ∨ c.maxShards.toNat = 0) :
      False := by
    obtain ⟨-, t, hnew⟩ | ⟨-, hnew⟩ := h.table unlimited fun _ => 0 <;>
      simp [Table.new_eq_invalidArgument hlimits] at hnew
  cases fault with
  | noThreads =>
      obtain ⟨w, hnew, hmembers⟩ := h.waiter
      have hnone : c.threads.toNat = 0 := hbreaks
      rw [members_of_new hnew, hnone] at hmembers
      contradiction
  | slotBits => exact htable (.inl hbreaks)
  | noShards => exact htable (.inr hbreaks)
  | connections =>
      obtain ⟨-, -, -, -, index, -, -, hindex, hlt⟩ := h.pool
      have hfew : c.maxConnections.toNat < 2 := hbreaks
      rw [Arena.listenerIndex] at hindex
      omega
  | queueCapacity =>
      obtain hqueue | hring := hbreaks
      · exact absurd (EventRing.exists_new?_iff.mp h.queue) (Nat.not_le.mpr hqueue)
      · exact absurd (EventRing.exists_new?_iff.mp h.ring) (Nat.not_le.mpr hring)
  | pollBatch =>
      obtain ⟨w, hnew, -⟩ := h.waiter
      have hbatch := Waiter.exists_new_iff.mp ⟨w, hnew⟩
      obtain hzero | hlarge := hbreaks <;> omega
  | described text => exact hbreaks

theorem validate_eq_ok_iff : c.validate = .ok () ↔ c.Suffices := by
  refine ⟨suffices_of_validate, fun h => ?_⟩
  cases hvalidate : c.validate with
  | ok _ => rfl
  | error fault => exact absurd (breaks_of_validate hvalidate) (h.not_breaks fault)

example : default.Suffices := validate_eq_ok_iff.mp (by decide)

end Config

end KeyValueServer
