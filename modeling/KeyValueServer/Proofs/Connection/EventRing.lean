import KeyValueServer.Connection.EventRing
import Mathlib.Data.List.Basic
import Mathlib.Tactic.SplitIfs

/-!
# Rings as queues

A ring is a queue of the events in it: what is pushed comes to the end, what is popped was at the
front, and a ring refuses an event only when all of its cells but one are in use.
-/

namespace KeyValueServer.EventRing

/-- The two places are places of the circle, and an event fits beside the cell that stays unused. -/
structure Sound (r : EventRing) : Prop where
  room : 2 ≤ r.capacity
  head : r.head < r.capacity
  tail : r.tail < r.capacity

variable {r r' : EventRing} {event : Event}

/-- Going around the circle less than twice. -/
theorem mod_eq {place size : Nat} (h : place < 2 * size) :
    place % size = if place < size then place else place - size := by
  split_ifs with hlt
  · exact Nat.mod_eq_of_lt hlt
  · rw [Nat.mod_eq_sub_mod (by omega), Nat.mod_eq_of_lt (by omega)]

theorem Sound.length_eq (hr : r.Sound) :
    r.length = if r.head ≤ r.tail then r.tail - r.head else r.tail + r.capacity - r.head := by
  have hhead := hr.head
  have htail := hr.tail
  rw [length, mod_eq (by omega)]
  split_ifs <;> omega

theorem Sound.length_lt (hr : r.Sound) : r.length < r.capacity := by
  have hhead := hr.head
  have htail := hr.tail
  rw [hr.length_eq]
  split_ifs <;> omega

theorem length_toList (r : EventRing) : r.toList.length = r.length := by simp [toList]

theorem getElem?_toList (r : EventRing) (i : Nat) :
    r.toList[i]? = if i < r.length then some (r.cell ((r.head + i) % r.capacity)) else none := by
  rw [toList, List.getElem?_map]
  split_ifs with hi
  · rw [List.getElem?_range hi]
    rfl
  · rw [List.getElem?_eq_none (by simpa using hi)]
    rfl

theorem Sound.isEmpty_iff (hr : r.Sound) : r.isEmpty = true ↔ r.toList = [] := by
  have hhead := hr.head
  have htail := hr.tail
  rw [← List.length_eq_zero_iff, length_toList, hr.length_eq, isEmpty, beq_iff_eq]
  split_ifs <;> omega

/-! ## New and emptied rings -/

theorem exists_new?_iff {capacity : Nat} : (∃ r, new? capacity = some r) ↔ 2 ≤ capacity := by
  rw [new?]
  split_ifs with hsmall
  · simp only [exists_false, false_iff]
    omega
  · simp only [Option.some.injEq, exists_eq', true_iff]
    omega

theorem capacity_of_new? {capacity : Nat} (h : new? capacity = some r) : r.capacity = capacity := by
  unfold new? at h
  split_ifs at h
  obtain rfl := Option.some.inj h
  exact Array.size_replicate

theorem sound_of_new? {capacity : Nat} (h : new? capacity = some r) : r.Sound := by
  unfold new? at h
  split_ifs at h with hsmall
  obtain rfl := Option.some.inj h
  have hsize : (Array.replicate capacity (Event.blank 0)).size = capacity := Array.size_replicate
  exact ⟨by rw [EventRing.capacity, hsize]; omega, by rw [EventRing.capacity, hsize]; dsimp; omega,
    by rw [EventRing.capacity, hsize]; dsimp; omega⟩

theorem toList_of_new? {capacity : Nat} (h : new? capacity = some r) : r.toList = [] := by
  have hr := sound_of_new? h
  unfold new? at h
  split_ifs at h
  obtain rfl := Option.some.inj h
  rw [← hr.isEmpty_iff]
  rfl

theorem Sound.reset (hr : r.Sound) : r.reset.Sound :=
  ⟨hr.room, Nat.lt_of_lt_of_le Nat.two_pos hr.room, Nat.lt_of_lt_of_le Nat.two_pos hr.room⟩

theorem Sound.toList_reset (hr : r.Sound) : r.reset.toList = [] := by
  rw [← hr.reset.isEmpty_iff]
  rfl

/-! ## Pushing -/

theorem capacity_store (r : EventRing) (event : Event) : (r.store event).capacity = r.capacity :=
  Array.size_setIfInBounds

theorem Sound.store (hr : r.Sound) (event : Event) : (r.store event).Sound := by
  have hcapacity := capacity_store r event
  refine ⟨hcapacity ▸ hr.room, hcapacity ▸ hr.head, ?_⟩
  rw [hcapacity]
  exact Nat.mod_lt _ (Nat.lt_of_lt_of_le Nat.two_pos hr.room)

theorem cell_store (r : EventRing) (event : Event) {place : Nat} (h : place < r.capacity) :
    (r.store event).cell place = if place = r.tail then event else r.cell place := by
  rw [capacity] at h
  simp only [cell, EventRing.store, Array.getElem?_setIfInBounds]
  by_cases hplace : place = r.tail
  · subst hplace
    simp [h]
  · simp [hplace, Ne.symm hplace]

theorem Sound.length_store (hr : r.Sound) (hroom : r.length < r.capacity - 1) (event : Event) :
    (r.store event).length = r.length + 1 := by
  have hhead := hr.head
  have htail := hr.tail
  have hlength := hr.length_eq
  have hlength' := (hr.store event).length_eq
  have hhead' : (r.store event).head = r.head := rfl
  have htail' : (r.store event).tail = (r.tail + 1) % r.capacity := rfl
  rw [mod_eq (by omega)] at htail'
  rw [capacity_store] at hlength'
  split_ifs at hlength hlength' htail' <;> omega

theorem Sound.toList_store (hr : r.Sound) (hroom : r.length < r.capacity - 1) (event : Event) :
    (r.store event).toList = r.toList ++ [event] := by
  have hhead := hr.head
  have htail := hr.tail
  have hlength := hr.length_eq
  apply List.ext_getElem?
  intro i
  rw [getElem?_toList, hr.length_store hroom, capacity_store, List.getElem?_append, length_toList,
    getElem?_toList]
  have hplace : (r.head + i) % r.capacity < r.capacity := Nat.mod_lt _ (by omega)
  rw [cell_store r event (by exact hplace)]
  -- The new event is in the cell at `tail`, and none of the others is.
  rcases Nat.lt_trichotomy i r.length with hi | rfl | hi
  · have hother : (r.head + i) % r.capacity ≠ r.tail := by
      rw [mod_eq (by omega)]
      split_ifs at hlength ⊢ <;> omega
    simp only [hi, Nat.lt_succ_of_lt hi, if_true]
    exact congrArg some (if_neg hother)
  · have hsame : (r.head + r.length) % r.capacity = r.tail := by
      rw [mod_eq (by omega)]
      split_ifs at hlength ⊢ <;> omega
    simp [EventRing.store, hsame]
  · have hpast : ¬i < r.length := by omega
    have hlate : 1 ≤ i - r.length := by omega
    rw [if_neg (by omega), if_neg hpast, List.getElem?_eq_none (by simpa using hlate)]

theorem Sound.push?_cases (hr : r.Sound) (event : Event) :
    (r.push? event = none ∧ r.toList ≠ []) ∨
      ∃ r', r.push? event = some r' ∧ r'.Sound ∧ r'.toList = r.toList ++ [event] := by
  have hroom := hr.room
  rw [push?, free]
  split_ifs with hfull
  · refine .inl ⟨rfl, ?_⟩
    rw [← List.length_pos_iff, length_toList]
    omega
  · exact .inr ⟨_, rfl, hr.store event, hr.toList_store (by omega) event⟩

theorem Sound.foldl_store (hr : r.Sound) {events : List Event}
    (hroom : r.length + events.length ≤ r.capacity - 1) :
    (events.foldl EventRing.store r).Sound ∧
      (events.foldl EventRing.store r).toList = r.toList ++ events := by
  induction events generalizing r with
  | nil => exact ⟨hr, (List.append_nil _).symm⟩
  | cons event events ih =>
      rw [List.length_cons] at hroom
      have hfirst : r.length < r.capacity - 1 := by omega
      obtain ⟨hsound, hlist⟩ := ih (hr.store event) (by
        rw [hr.length_store hfirst, capacity_store]
        omega)
      refine ⟨hsound, ?_⟩
      rw [List.foldl_cons, hlist, hr.toList_store hfirst, List.append_assoc,
        List.singleton_append]

theorem Sound.extend? (hr : r.Sound) {events : List Event} (h : r.extend? events = some r') :
    r'.Sound ∧ r'.toList = r.toList ++ events := by
  unfold EventRing.extend? free at h
  have hlength := hr.length_lt
  split_ifs at h with hfull
  obtain rfl := Option.some.inj h
  exact hr.foldl_store (by omega)

theorem capacity_foldl_store (r : EventRing) (events : List Event) :
    (events.foldl EventRing.store r).capacity = r.capacity := by
  induction events generalizing r with
  | nil => rfl
  | cons event events ih => exact (ih _).trans (capacity_store r event)

theorem capacity_of_extend? {events : List Event} (h : r.extend? events = some r') :
    r'.capacity = r.capacity := by
  unfold EventRing.extend? at h
  split_ifs at h
  exact Option.some.inj h ▸ capacity_foldl_store r events

/-- An empty ring has room for all but one of as many events as it has cells. -/
theorem exists_extend?_of_nil (hnil : r.toList = []) {events : List Event}
    (hroom : events.length < r.capacity) : ∃ r', r.extend? events = some r' := by
  have hlength : r.length = 0 := by rw [← length_toList, hnil, List.length_nil]
  exact ⟨_, if_neg (by rw [free, hlength]; omega)⟩

/-! ## Popping -/

theorem Sound.toList_of_pop? (hr : r.Sound) (h : r.pop? = some (event, r')) :
    r'.Sound ∧ r.toList = event :: r'.toList := by
  have hhead := hr.head
  have htail := hr.tail
  unfold pop? at h
  split_ifs at h with hempty
  obtain ⟨rfl, rfl⟩ := Prod.mk.inj (Option.some.inj h)
  have hne : r.head ≠ r.tail := by simpa [isEmpty] using hempty
  have hr' : Sound { r with head := r.next r.head } :=
    ⟨hr.room, Nat.mod_lt _ (Nat.lt_of_lt_of_le Nat.two_pos hr.room), hr.tail⟩
  have hnext : r.next r.head = if r.head + 1 < r.capacity then r.head + 1 else 0 := by
    rw [next, mod_eq (by omega)]
    split_ifs <;> omega
  have hlength : r.length = EventRing.length { r with head := r.next r.head } + 1 := by
    have hbefore := hr.length_eq
    have hafter := hr'.length_eq
    have hcapacity : EventRing.capacity { r with head := r.next r.head } = r.capacity := rfl
    rw [hcapacity] at hafter
    simp only [hnext] at hafter ⊢
    split_ifs at hnext hbefore hafter ⊢ <;> omega
  refine ⟨hr', List.ext_getElem? fun i => ?_⟩
  cases i with
  | zero =>
      rw [getElem?_toList, if_pos (by omega), Nat.add_zero, Nat.mod_eq_of_lt hhead]
      rfl
  | succ i =>
      rw [List.getElem?_cons_succ, getElem?_toList, getElem?_toList, hlength]
      simp only [Nat.add_lt_add_iff_right]
      split_ifs with hi
      · have hlt := hr'.length_lt
        have hplace : (r.head + (i + 1)) % r.capacity = (r.next r.head + i) % r.capacity := by
          rw [next, Nat.mod_add_mod, Nat.add_assoc, Nat.add_comm 1 i]
        exact congrArg (fun place => some (r.cell place)) hplace
      · rfl

theorem capacity_of_pop? (h : r.pop? = some (event, r')) : r'.capacity = r.capacity := by
  unfold pop? at h
  split_ifs at h
  obtain ⟨-, rfl⟩ := Prod.mk.inj (Option.some.inj h)
  rfl

theorem Sound.pop?_cases (hr : r.Sound) : (r.pop? = none ∧ r.toList = []) ∨
    ∃ event r', r.pop? = some (event, r') ∧ r'.Sound ∧ r.toList = event :: r'.toList := by
  cases hpop : r.pop? with
  | none =>
      refine .inl ⟨rfl, hr.isEmpty_iff.mp ?_⟩
      by_contra hnonempty
      rw [pop?, if_neg hnonempty] at hpop
      contradiction
  | some popped =>
      obtain ⟨event, r'⟩ := popped
      exact .inr ⟨event, r', rfl, hr.toList_of_pop? hpop⟩

end KeyValueServer.EventRing
