import KeyValueServer.Proofs.Connection.Places
import Mathlib.Data.List.Perm.Basic

/-!
# Places in the books

The pool keeps no record of the places that it has handed out. It counts them by what is left in the
line of free ones, so that the count is right only as long as each place, the listener's aside, is
either in the line or with one user.
-/

namespace KeyValueServer

namespace Arena

variable {a a' : Arena} {index : Nat} {lent : List Nat}

/-- The places but the listener's are either in the line of free ones or among those that are lent,
each of them once. -/
structure Lends (a : Arena) (lent : List Nat) : Prop where
  nonempty : 1 ≤ a.capacity
  partition : (a.free ++ lent).Perm (List.range' 1 (a.capacity - 1))

namespace Lends

theorem nodup (h : a.Lends lent) : (a.free ++ lent).Nodup :=
  h.partition.nodup_iff.mpr List.nodup_range'

theorem mem_iff (h : a.Lends lent) :
    index ∈ a.free ∨ index ∈ lent ↔ index ≠ listenerIndex ∧ index < a.capacity := by
  have hnonempty := h.nonempty
  rw [← List.mem_append, h.partition.mem_iff, List.mem_range'_1, listenerIndex]
  omega

theorem not_mem_lent (h : a.Lends lent) (hfree : index ∈ a.free) : index ∉ lent :=
  fun hlent => (List.nodup_append.mp h.nodup).2.2 index hfree index hlent rfl

theorem length_eq (h : a.Lends lent) : a.free.length + lent.length = a.capacity - 1 := by
  rw [← List.length_append, h.partition.length_eq, List.length_range']

/-- What is missing from the line was lent. -/
theorem inUse?_eq (h : a.Lends lent) : a.inUse? = some lent.length := by
  have hlength := h.length_eq
  have hnonempty := h.nonempty
  rw [inUse?, if_pos (by omega)]
  congr 1
  omega

theorem congr (h : a.Lends lent) (hfree : a'.free = a.free) (hcapacity : a'.capacity = a.capacity) :
    a'.Lends lent :=
  ⟨hcapacity ▸ h.nonempty, by rw [hfree, hcapacity]; exact h.partition⟩

theorem perm (h : a.Lends lent) {lent' : List Nat} (hperm : lent.Perm lent') : a.Lends lent' :=
  ⟨h.nonempty, (hperm.append_left a.free).symm.trans h.partition⟩

/-- The place at the head of the line goes to a user. -/
theorem lend (h : a.Lends lent) {free : List Nat} (hfree : a.free = index :: free)
    (hfree' : a'.free = free) (hcapacity : a'.capacity = a.capacity) :
    a'.Lends (index :: lent) := by
  refine ⟨hcapacity ▸ h.nonempty, ?_⟩
  rw [hfree', hcapacity]
  have hpartition := h.partition
  rw [hfree, List.cons_append] at hpartition
  exact List.perm_middle.trans hpartition

/-- A place that was lent goes to the end of the line. -/
theorem takeBack (h : a.Lends lent) (hlent : index ∈ lent) (hfree : a'.free = a.free ++ [index])
    (hcapacity : a'.capacity = a.capacity) : a'.Lends (lent.erase index) := by
  refine ⟨hcapacity ▸ h.nonempty, ?_⟩
  rw [hfree, hcapacity, List.append_assoc, List.singleton_append]
  exact ((List.perm_cons_erase hlent).symm.append_left a.free).trans h.partition

/-- What is handed out next is neither the listener's place nor lent. -/
theorem fresh (h : a.Lends lent) (hallocate : a.allocate = some (index, a')) :
    index ≠ listenerIndex ∧ index < a.capacity ∧ index ∉ lent := by
  unfold allocate at hallocate
  split at hallocate
  · contradiction
  next first free hfree =>
    obtain ⟨rfl, -⟩ := Prod.mk.inj (Option.some.inj hallocate)
    have hmem : first ∈ a.free := by simp [hfree]
    obtain ⟨hindex, hlt⟩ := h.mem_iff.mp (.inl hmem)
    exact ⟨hindex, hlt, h.not_mem_lent hmem⟩

theorem allocate_eq_none_iff (h : a.Lends lent) :
    a.allocate = none ↔ a.capacity - 1 ≤ lent.length := by
  have hlength := h.length_eq
  cases hfree : a.free with
  | nil =>
      rw [hfree, List.length_nil, Nat.zero_add] at hlength
      simp only [allocate, hfree, true_iff]
      exact Nat.le_of_eq hlength.symm
  | cons index free =>
      rw [hfree, List.length_cons] at hlength
      simp only [allocate, hfree, reduceCtorEq, false_iff]
      omega

end Lends

/-- The places, the listener's aside, that are not in the line of free ones. -/
def takenPlaces (a : Arena) : List Nat :=
  (List.range' 1 (a.capacity - 1)).filter fun index => index ∉ a.free

theorem nodup_takenPlaces (a : Arena) : a.takenPlaces.Nodup := (List.nodup_range' 1).filter _

theorem mem_takenPlaces :
    index ∈ a.takenPlaces ↔ index ≠ listenerIndex ∧ index < a.capacity ∧ index ∉ a.free := by
  rw [takenPlaces, List.mem_filter, List.mem_range'_1, decide_eq_true_eq, ← and_assoc,
    listenerIndex]
  refine and_congr_left fun _ => ?_
  omega

/-- A line that has each of its places once has lent all the others. -/
theorem lends_takenPlaces (hnonempty : 1 ≤ a.capacity) (honce : a.free.Nodup)
    (hfree : ∀ index ∈ a.free, index ≠ listenerIndex ∧ index < a.capacity) :
    a.Lends a.takenPlaces := by
  have hdisjoint : ∀ index ∈ a.free, ∀ other ∈ a.takenPlaces, index ≠ other := by
    rintro index hmem _ htaken rfl
    exact (mem_takenPlaces.mp htaken).2.2 hmem
  refine ⟨hnonempty, (List.perm_ext_iff_of_nodup
    (List.nodup_append.mpr ⟨honce, nodup_takenPlaces a, hdisjoint⟩)
    (List.nodup_range' 1)).mpr fun index => ?_⟩
  rw [List.mem_append, mem_takenPlaces, List.mem_range'_1]
  by_cases hmem : index ∈ a.free
  · obtain ⟨hindex, hlt⟩ := hfree index hmem
    rw [listenerIndex] at hindex
    simp only [hmem, true_or, true_iff]
    omega
  · simp only [hmem, false_or, not_false_eq_true, and_true, listenerIndex]
    omega

/-! ## What the calls do to the line -/

theorem lends_new {capacity : Nat} (h : 1 ≤ capacity) (ringCapacity : Nat) :
    (Arena.new capacity ringCapacity).Lends [] := by
  have hcapacity : (Arena.new capacity ringCapacity).capacity = capacity := Array.size_replicate
  refine ⟨by rwa [hcapacity], ?_⟩
  rw [hcapacity, List.append_nil]
  rfl

theorem capacity_modify (a : Arena) (index : Nat) (f : ConnectionSlot → ConnectionSlot) :
    (a.modify index f).capacity = a.capacity := Array.size_modify

theorem capacity_put (a : Arena) (index : Nat) (slot : ConnectionSlot) :
    (a.put index slot).capacity = a.capacity := Array.size_modify

theorem exists_slotAt (h : index < a.capacity) : ∃ slot, a.slotAt index = some slot :=
  ⟨a.slots[index], Array.getElem?_eq_getElem h⟩

theorem lt_capacity_iff : index < a.capacity ↔ (a.slotAt index).isSome = true := by
  constructor
  · intro hlt
    obtain ⟨slot, hslot⟩ := exists_slotAt hlt
    simp [hslot]
  · intro hsome
    obtain ⟨slot, hslot⟩ := Option.isSome_iff_exists.mp hsome
    exact slotAt_lt hslot

/-- A place can be taken into use where rings can be made. -/
theorem activate_eq_ok (hroom : 2 ≤ a.ringCapacity) {slot : ConnectionSlot}
    (hslot : a.slotAt index = some slot) (role : ConnectionRole) :
    ∃ ring, slot.ring? a.ringCapacity = some ring ∧
      a.activate index role = (.ok (ConnectionToken.encode index slot.generation),
        a.put index { slot with phase := .waiting, role, ring := some ring }) := by
  have hring : ∃ ring, slot.ring? a.ringCapacity = some ring := by
    rw [ConnectionSlot.ring?]
    cases slot.ring with
    | some ring => exact ⟨ring, rfl⟩
    | none => exact EventRing.exists_new?_iff.mpr hroom
  obtain ⟨ring, hring⟩ := hring
  refine ⟨ring, hring, ?_⟩
  rw [activate_of_slotAt hslot, hring]

theorem install_eq_ok (hroom : 2 ≤ a.ringCapacity) (hindex : index < a.capacity)
    (role : ConnectionRole) (socket : Socket) :
    ∃ token next, a.install index role socket = (.ok token, a.put index next) := by
  obtain ⟨slot, hslot⟩ := exists_slotAt hindex
  rw [install, setSocket, modify_eq_put hslot]
  obtain ⟨ring, -, hactivate⟩ :=
    activate_eq_ok (a := a.put index { slot with socket }) hroom (slotAt_put_self hslot _) role
  rw [hactivate, put_put]
  exact ⟨_, _, rfl⟩

/-- Installing a socket leaves the line alone, also where it fails. -/
theorem install_leaves_line (a : Arena) (index : Nat) (role : ConnectionRole) (socket : Socket) :
    (a.install index role socket).2.free = a.free ∧
      (a.install index role socket).2.capacity = a.capacity ∧
      (a.install index role socket).2.ringCapacity = a.ringCapacity := by
  cases hslot : a.slotAt index with
  | none =>
      have hnone : (a.setSocket index socket).slotAt index = none := by
        rw [setSocket, slotAt_modify, if_pos rfl, hslot]
        rfl
      rw [install, activate, hnone]
      exact ⟨rfl, capacity_modify a index _, rfl⟩
  | some slot =>
      rw [install, setSocket, modify_eq_put hslot, activate_of_slotAt (slotAt_put_self hslot _)]
      split <;> rw [put_put] <;> exact ⟨rfl, capacity_modify a index _, rfl⟩

theorem release_eq_ok (hindex : index ≠ listenerIndex) (hcapacity : index < a.capacity) :
    ∃ a', a.release index = .ok a' ∧ a'.free = a.free ++ [index] ∧ a'.capacity = a.capacity ∧
      a'.ringCapacity = a.ringCapacity := by
  refine ⟨_, if_pos hcapacity, ?_⟩
  rw [recycle, if_neg hindex]
  exact ⟨rfl, (capacity_modify _ index _).trans (capacity_modify a index _), rfl⟩

end Arena

/-! ## The ledger of a pool -/

/-- What a pool is asked for. -/
inductive PoolCall where
  | allocate
  | install (index : Nat) (role : ConnectionRole) (socket : Socket)
  | release (index : Nat)

/-- A pool, and the places that are handed out. -/
structure PoolLedger where
  arena : Arena
  lent : List Nat

namespace PoolLedger

/-- A new pool, of which nothing was handed out. -/
def opened (capacity ringCapacity : Nat) : PoolLedger := ⟨Arena.new capacity ringCapacity, []⟩

/-- Only what is handed out is given back. -/
def permits (l : PoolLedger) : PoolCall → Bool
  | .release index => index ∈ l.lent
  | _ => true

/-- Make a call, and book what was handed out or given back. -/
def perform (l : PoolLedger) : PoolCall → PoolLedger
  | .allocate =>
      match l.arena.allocate with
      | none => l
      | some (index, arena) => ⟨arena, index :: l.lent⟩
  | .install index role socket => { l with arena := (l.arena.install index role socket).2 }
  | .release index =>
      match l.arena.release index with
      | .error _ => l
      | .ok arena => ⟨arena, l.lent.erase index⟩

/-- What comes about from a new pool. -/
inductive Reachable (capacity ringCapacity : Nat) : PoolLedger → Prop
  | opened : Reachable capacity ringCapacity (opened capacity ringCapacity)
  | call {l : PoolLedger} (hl : Reachable capacity ringCapacity l) (c : PoolCall)
      (hpermits : l.permits c = true) : Reachable capacity ringCapacity (l.perform c)

/-- Whether a list of calls can be made one after the other. -/
def allows (l : PoolLedger) : List PoolCall → Bool
  | [] => true
  | c :: rest => l.permits c && (l.perform c).allows rest

theorem Reachable.run {capacity ringCapacity : Nat} {l : PoolLedger}
    (hl : Reachable capacity ringCapacity l) (calls : List PoolCall) (h : l.allows calls = true) :
    Reachable capacity ringCapacity (calls.foldl perform l) := by
  induction calls generalizing l with
  | nil => exact hl
  | cons c rest ih =>
      simp only [allows, Bool.and_eq_true] at h
      exact ih (hl.call c h.1) h.2

/-- The books of a pool of some size are kept. -/
structure Booked (capacity ringCapacity : Nat) (l : PoolLedger) : Prop where
  lends : l.arena.Lends l.lent
  size : l.arena.capacity = capacity
  rings : l.arena.ringCapacity = ringCapacity

variable {capacity ringCapacity : Nat} {l : PoolLedger} {index : Nat}

theorem Booked.perform (hl : l.Booked capacity ringCapacity) (c : PoolCall)
    (hpermits : l.permits c = true) : (l.perform c).Booked capacity ringCapacity := by
  cases c with
  | allocate =>
      unfold PoolLedger.perform
      cases hfree : l.arena.free with
      | nil =>
          simp only [Arena.allocate, hfree]
          exact hl
      | cons index free =>
          simp only [Arena.allocate, hfree]
          exact ⟨hl.lends.lend hfree rfl rfl, hl.size, hl.rings⟩
  | install index role socket =>
      obtain ⟨hfree, hcapacity, hrings⟩ := l.arena.install_leaves_line index role socket
      exact ⟨hl.lends.congr hfree hcapacity, hcapacity.trans hl.size, hrings.trans hl.rings⟩
  | release index =>
      have hlent : index ∈ l.lent := by simpa [permits] using hpermits
      obtain ⟨hindex, hlt⟩ := hl.lends.mem_iff.mp (.inr hlent)
      obtain ⟨arena, hrelease, hfree, hcapacity, hrings⟩ := Arena.release_eq_ok hindex hlt
      simp only [PoolLedger.perform, hrelease]
      exact ⟨hl.lends.takeBack hlent hfree hcapacity, hcapacity.trans hl.size,
        hrings.trans hl.rings⟩

theorem Reachable.booked (hl : Reachable capacity ringCapacity l) (hcapacity : 1 ≤ capacity) :
    l.Booked capacity ringCapacity := by
  induction hl with
  | opened => exact ⟨Arena.lends_new hcapacity ringCapacity, Array.size_replicate, rfl⟩
  | call _ c hpermits ih => exact ih.perform c hpermits

/-- The pool's books: what is handed out and what is not, and what the pool answers. -/
structure Balances (capacity : Nat) (l : PoolLedger) : Prop where
  /-- Each place but the listener's is in the line or handed out, and only once. -/
  partition : (l.arena.free ++ l.lent).Perm (List.range' 1 (capacity - 1))
  once : (l.arena.free ++ l.lent).Nodup
  /-- What is handed out next is neither the listener's place nor handed out. -/
  fresh : ∀ index arena, l.arena.allocate = some (index, arena) →
    index ≠ Arena.listenerIndex ∧ index < capacity ∧ index ∉ l.lent
  /-- Nothing is handed out exactly when everything is. -/
  exhausted : l.arena.allocate = none ↔
    ∀ index, index ≠ Arena.listenerIndex → index < capacity → index ∈ l.lent
  /-- The count of what is handed out is never below zero. -/
  count : l.arena.inUse? = some l.lent.length
  /-- A socket can be installed in each place, and each place that was handed out can be given
  back. -/
  installs : ∀ index < capacity, ∀ role socket,
    ∃ token, (l.arena.install index role socket).1 = .ok token
  releases : ∀ index ∈ l.lent, ∃ arena, l.arena.release index = .ok arena

theorem Booked.balances (hl : l.Booked capacity ringCapacity) (hrings : 2 ≤ ringCapacity) :
    l.Balances capacity where
  partition := hl.size ▸ hl.lends.partition
  once := hl.lends.nodup
  fresh index arena hallocate := hl.size ▸ hl.lends.fresh hallocate
  exhausted := by
    constructor
    · intro hallocate index hindex hlt
      have hfree : l.arena.free = [] := by
        unfold Arena.allocate at hallocate
        split at hallocate
        next hfree => exact hfree
        · contradiction
      refine (hl.lends.mem_iff.mpr ⟨hindex, hl.size ▸ hlt⟩).resolve_left ?_
      simp [hfree]
    · intro hall
      cases hfree : l.arena.free with
      | nil => simp [Arena.allocate, hfree]
      | cons index free =>
          have hmem : index ∈ l.arena.free := by simp [hfree]
          obtain ⟨hindex, hlt⟩ := hl.lends.mem_iff.mp (.inl hmem)
          exact absurd (hall index hindex (hl.size ▸ hlt)) (hl.lends.not_mem_lent hmem)
  count := hl.lends.inUse?_eq
  installs index hlt role socket := by
    obtain ⟨token, next, hinstall⟩ :=
      Arena.install_eq_ok (a := l.arena) (hl.rings ▸ hrings) (hl.size ▸ hlt) role socket
    exact ⟨token, by rw [hinstall]⟩
  releases index hlent := by
    obtain ⟨hindex, hlt⟩ := hl.lends.mem_iff.mp (.inr hlent)
    obtain ⟨arena, hrelease, -⟩ := Arena.release_eq_ok hindex hlt
    exact ⟨arena, hrelease⟩

end PoolLedger

end KeyValueServer
