import KeyValueServer.Connection.Arena
import KeyValueServer.Proofs.Connection.EventRing

/-!
# The places of a pool

What each action on a pool does to the one place that it is about. The events of a place are those
in its ring; a ring that was not made yet has none, and making it is no change.
-/

namespace KeyValueServer

/-- The events queued at a place, the oldest first. -/
def ConnectionSlot.events (s : ConnectionSlot) : List Event :=
  (s.ring.map EventRing.toList).getD []

/-- A place after it was given back. -/
def ConnectionSlot.retired (s : ConnectionSlot) : ConnectionSlot :=
  { s with phase := .free, generation := s.generation + 1, ring := s.ring.map EventRing.reset }

/-- What is written twice is what was written last. -/
theorem modify_modify {α : Type} (xs : Array α) (place : Nat) (first second : α) :
    (xs.modify place fun _ => first).modify place (fun _ => second) =
      xs.modify place fun _ => second := by
  apply Array.ext_getElem?
  intro other
  rw [Array.getElem?_modify, Array.getElem?_modify, Array.getElem?_modify]
  split_ifs
  · rw [Option.map_map]
    rfl
  · rfl

namespace Arena

/-- Rings can be made, and those that were are sound. -/
structure Sound (a : Arena) : Prop where
  room : 2 ≤ a.ringCapacity
  rings : ∀ {index slot ring}, a.slotAt index = some slot → slot.ring = some ring → ring.Sound

/-- Change a place into another one. -/
def put (a : Arena) (index : Nat) (slot : ConnectionSlot) : Arena := a.modify index fun _ => slot

variable {a a' : Arena} {index other : Nat} {slot next : ConnectionSlot}

/-! ## Changing a place -/

theorem slotAt_modify (a : Arena) (index other : Nat) (f : ConnectionSlot → ConnectionSlot) :
    (a.modify index f).slotAt other =
      if index = other then (a.slotAt other).map f else a.slotAt other :=
  Array.getElem?_modify

theorem slotAt_put_self (h : a.slotAt index = some slot) (next : ConnectionSlot) :
    (a.put index next).slotAt index = some next := by
  rw [put, slotAt_modify, if_pos rfl, h]
  rfl

theorem slotAt_put_of_ne (a : Arena) (h : other ≠ index) (next : ConnectionSlot) :
    (a.put index next).slotAt other = a.slotAt other := by
  rw [put, slotAt_modify, if_neg h.symm]

/-- A place keeps what the change of one place keeps there. -/
theorem exists_slotAt_put {P : ConnectionSlot → Prop} (hslot : a.slotAt other = some slot)
    (hP : P slot) {old : ConnectionSlot} (hold : a.slotAt index = some old)
    (hnext : index = other → P old → P next) :
    ∃ slot', (a.put index next).slotAt other = some slot' ∧ P slot' := by
  by_cases hindex : index = other
  · subst hindex
    obtain rfl := Option.some.inj (hslot.symm.trans hold)
    exact ⟨next, slotAt_put_self hold next, hnext rfl hP⟩
  · exact ⟨slot, (slotAt_put_of_ne a (Ne.symm hindex) next).trans hslot, hP⟩

theorem modify_eq_put (h : a.slotAt index = some slot) (f : ConnectionSlot → ConnectionSlot) :
    a.modify index f = a.put index (f slot) := by
  have hslots : a.slots.modify index f = a.slots.modify index fun _ => f slot := by
    apply Array.ext_getElem?
    intro other
    rw [Array.getElem?_modify, Array.getElem?_modify]
    split_ifs with heq
    · subst heq
      have hslot : a.slots[index]? = some slot := h
      rw [hslot]
      rfl
    · rfl
  rw [put, modify, modify, hslots]

theorem put_eq_self (h : a.slotAt index = some slot) : a.put index slot = a := by
  have hslots : (a.slots.modify index fun _ => slot) = a.slots := by
    apply Array.ext_getElem?
    intro other
    rw [Array.getElem?_modify]
    split_ifs with heq
    · subst heq
      have hslot : a.slots[index]? = some slot := h
      rw [hslot]
      rfl
    · rfl
  rw [put, modify, hslots]

theorem put_put (a : Arena) (index : Nat) (slot next : ConnectionSlot) :
    (a.put index slot).put index next = a.put index next := by
  simp only [put, modify, modify_modify]

theorem Sound.put (ha : a.Sound) (hring : ∀ ring, next.ring = some ring → ring.Sound) :
    (a.put index next).Sound := by
  refine ⟨ha.room, fun {other slot ring} hslot hfound => ?_⟩
  by_cases hother : other = index
  · subst hother
    rw [Arena.put, slotAt_modify, if_pos rfl] at hslot
    obtain ⟨-, -, rfl⟩ := Option.map_eq_some_iff.mp hslot
    exact hring ring hfound
  · rw [slotAt_put_of_ne a hother] at hslot
    exact ha.rings hslot hfound

theorem slotAt_lt (h : a.slotAt index = some slot) : index < a.capacity :=
  (Array.getElem?_eq_some_iff.mp h).1

/-! ## Queueing and taking events -/

theorem exists_ring?_of_ringAt {ring : EventRing} (h : a.ringAt index = .ok (ring, a')) :
    ∃ slot, a.slotAt index = some slot ∧ slot.ring? a.ringCapacity = some ring ∧
      a' = a.setRing index ring := by
  unfold Arena.ringAt at h
  split at h
  · contradiction
  next slot hslot =>
    split at h
    · contradiction
    next hring =>
      obtain ⟨rfl, rfl⟩ := Prod.mk.inj (Except.ok.inj h)
      exact ⟨slot, hslot, hring, rfl⟩

theorem exists_ringAt_of_push {event : Event} {fits : Bool}
    (h : a.push index event = .ok (fits, a')) :
    ∃ ring made, a.ringAt index = .ok (ring, made) ∧
      (a' = made ∨ ∃ ring', ring.push? event = some ring' ∧ a' = made.setRing index ring') := by
  unfold push at h
  cases hring : a.ringAt index with
  | error fault => simp [hring, bind, Except.bind] at h
  | ok made =>
      refine ⟨made.1, made.2, rfl, ?_⟩
      simp only [hring, bind, Except.bind] at h
      split at h
      · exact .inl (Prod.mk.inj (Except.ok.inj h)).2.symm
      next ring' hpush => exact .inr ⟨ring', hpush, (Prod.mk.inj (Except.ok.inj h)).2.symm⟩

theorem exists_ringAt_of_pop {event? : Option Event} (h : a.pop index = .ok (event?, a')) :
    ∃ ring made, a.ringAt index = .ok (ring, made) ∧
      (a' = made ∨
        ∃ event ring', ring.pop? = some (event, ring') ∧ a' = made.setRing index ring') := by
  unfold pop at h
  cases hring : a.ringAt index with
  | error fault => simp [hring, bind, Except.bind] at h
  | ok made =>
      refine ⟨made.1, made.2, rfl, ?_⟩
      simp only [hring, bind, Except.bind] at h
      split at h
      · exact .inl (Prod.mk.inj (Except.ok.inj h)).2.symm
      next event ring' hpop =>
        exact .inr ⟨event, ring', hpop, (Prod.mk.inj (Except.ok.inj h)).2.symm⟩

theorem ringAt_of_slotAt (h : a.slotAt index = some slot) :
    a.ringAt index = match slot.ring? a.ringCapacity with
      | none => .error .ringTooSmall
      | some ring => .ok (ring, a.put index { slot with ring := some ring }) := by
  rw [Arena.ringAt, h]
  cases hring : slot.ring? a.ringCapacity with
  | none => simp only [hring]
  | some ring => simp only [hring, setRing, modify_eq_put h]

theorem Sound.ringAt (ha : a.Sound) (h : a.slotAt index = some slot) :
    ∃ ring, a.ringAt index = .ok (ring, a.put index { slot with ring := some ring }) ∧
      ring.Sound ∧ ring.toList = slot.events := by
  rw [ringAt_of_slotAt h, ConnectionSlot.ring?]
  cases hring : slot.ring with
  | some ring => exact ⟨ring, rfl, ha.rings h hring, by simp [ConnectionSlot.events, hring]⟩
  | none =>
      obtain ⟨ring, hnew⟩ := EventRing.exists_new?_iff.mpr ha.room
      refine ⟨ring, by rw [hnew], EventRing.sound_of_new? hnew, ?_⟩
      rw [EventRing.toList_of_new? hnew, ConnectionSlot.events, hring]
      rfl

theorem setRing_put (h : a.slotAt index = some slot) (ring ring' : EventRing) :
    (a.put index { slot with ring := some ring }).setRing index ring' =
      a.put index { slot with ring := some ring' } := by
  rw [setRing, modify_eq_put (slotAt_put_self h _), put_put]

/-- Only an event for which there is no room beside others is not queued. -/
theorem Sound.push_cases (ha : a.Sound) (h : a.slotAt index = some slot) (event : Event) :
    ∃ ring : EventRing, ring.Sound ∧
      ((a.push index event = .ok (false, a.put index { slot with ring := some ring }) ∧
          ring.toList = slot.events ∧ slot.events ≠ []) ∨
        (a.push index event = .ok (true, a.put index { slot with ring := some ring }) ∧
          ring.toList = slot.events ++ [event])) := by
  obtain ⟨ring, hring, hsound, hlist⟩ := ha.ringAt h
  rcases hsound.push?_cases event with ⟨hpush, hne⟩ | ⟨ring', hpush, hsound', hlist'⟩
  · refine ⟨ring, hsound, .inl ⟨?_, hlist, hlist ▸ hne⟩⟩
    simp only [push, hring, bind, Except.bind, hpush]
  · refine ⟨ring', hsound', .inr ⟨?_, hlist ▸ hlist'⟩⟩
    simp only [push, hring, bind, Except.bind, hpush, setRing_put h]

theorem Sound.pop_cases (ha : a.Sound) (h : a.slotAt index = some slot) :
    ∃ ring : EventRing, ring.Sound ∧
      ((a.pop index = .ok (none, a.put index { slot with ring := some ring }) ∧
          ring.toList = [] ∧ slot.events = []) ∨
        ∃ event, a.pop index = .ok (some event, a.put index { slot with ring := some ring }) ∧
          slot.events = event :: ring.toList) := by
  obtain ⟨ring, hring, hsound, hlist⟩ := ha.ringAt h
  rcases hsound.pop?_cases with ⟨hpop, hnil⟩ | ⟨event, ring', hpop, hsound', hcons⟩
  · refine ⟨ring, hsound, .inl ⟨?_, hnil, hlist ▸ hnil⟩⟩
    simp only [pop, hring, bind, Except.bind, hpop]
  · refine ⟨ring', hsound', .inr ⟨event, ?_, hlist ▸ hcons⟩⟩
    simp only [pop, hring, bind, Except.bind, hpop, setRing_put h]

/-! ## Taking a place into use and giving it back -/

theorem activate_of_slotAt (h : a.slotAt index = some slot) (role : ConnectionRole) :
    a.activate index role = match slot.ring? a.ringCapacity with
      | none => (.error .ringTooSmall, a.put index { slot with phase := .waiting, role })
      | some ring => (.ok (ConnectionToken.encode index slot.generation),
          a.put index { slot with phase := .waiting, role, ring := some ring }) := by
  have hring := ringAt_of_slotAt (slotAt_put_self h { slot with phase := .waiting, role })
  simp only [Arena.activate, h, modify_eq_put h, hring, put_put]
  have hsame : ConnectionSlot.ring? { slot with phase := .waiting, role }
      (a.put index { slot with phase := .waiting, role }).ringCapacity =
        slot.ring? a.ringCapacity := rfl
  rw [hsame]
  cases slot.ring? a.ringCapacity <;> rfl

theorem Sound.activate (ha : a.Sound) (h : a.slotAt index = some slot) (role : ConnectionRole) :
    ∃ ring : EventRing, ring.Sound ∧ ring.toList = slot.events ∧
      a.activate index role = (.ok (ConnectionToken.encode index slot.generation),
        a.put index { slot with phase := .waiting, role, ring := some ring }) := by
  obtain ⟨ring, hring, hsound, hlist⟩ := ha.ringAt h
  refine ⟨ring, hsound, hlist, ?_⟩
  rw [activate_of_slotAt h]
  rw [ringAt_of_slotAt h] at hring
  cases hmade : slot.ring? a.ringCapacity with
  | none => simp [hmade] at hring
  | some made =>
      rw [hmade] at hring
      obtain ⟨rfl, -⟩ := Prod.mk.inj (Except.ok.inj hring)
      rfl

theorem slotAt_new (capacity ringCapacity index : Nat) :
    (Arena.new capacity ringCapacity).slotAt index =
      if index < capacity then some .unused else none :=
  Array.getElem?_replicate

/-- A pool in which no ring was made yet, and whose first place has been taken into use. -/
theorem install_new {capacity ringCapacity : Nat} {role : ConnectionRole} {socket : Socket}
    {token : ConnectionToken}
    (h : (Arena.new capacity ringCapacity).install listenerIndex role socket = (.ok token, a)) :
    ∃ ring : EventRing, ring.Sound ∧ ring.toList = [] ∧ 2 ≤ ringCapacity ∧ 0 < capacity ∧
      token = ConnectionToken.encode listenerIndex 0 ∧
      a = (Arena.new capacity ringCapacity).put listenerIndex
        ⟨0, .waiting, role, some ring, socket⟩ := by
  have hnew := slotAt_new capacity ringCapacity listenerIndex
  by_cases hplace : listenerIndex < capacity
  · rw [if_pos hplace] at hnew
    rw [install, setSocket, modify_eq_put hnew, activate_of_slotAt (slotAt_put_self hnew _),
      put_put] at h
    have hring : ConnectionSlot.ring? { ConnectionSlot.unused with socket }
        ((Arena.new capacity ringCapacity).put listenerIndex
          { ConnectionSlot.unused with socket }).ringCapacity = EventRing.new? ringCapacity := rfl
    rw [hring] at h
    cases hmade : EventRing.new? ringCapacity with
    | none =>
        rw [hmade] at h
        obtain ⟨hfault, -⟩ := Prod.mk.inj h
        contradiction
    | some ring =>
        rw [hmade] at h
        obtain ⟨htoken, rfl⟩ := Prod.mk.inj h
        rw [put_put]
        exact ⟨ring, EventRing.sound_of_new? hmade, EventRing.toList_of_new? hmade,
          EventRing.exists_new?_iff.mp ⟨ring, hmade⟩, hplace, (Except.ok.inj htoken).symm, rfl⟩
  · rw [if_neg hplace] at hnew
    have hnone : ((Arena.new capacity ringCapacity).setSocket listenerIndex socket).slotAt
        listenerIndex = none := by
      rw [setSocket, slotAt_modify, if_pos rfl, hnew]
      rfl
    simp [install, Arena.activate, hnone] at h

theorem retire_eq_put (h : a.slotAt index = some slot) :
    a.retire index = a.put index slot.retired :=
  modify_eq_put h _

theorem Sound.events_retired (ha : a.Sound) (h : a.slotAt index = some slot) :
    slot.retired.events = [] := by
  rw [ConnectionSlot.events, ConnectionSlot.retired]
  cases hring : slot.ring with
  | none => rfl
  | some ring => exact (ha.rings h hring).toList_reset

end Arena

end KeyValueServer
