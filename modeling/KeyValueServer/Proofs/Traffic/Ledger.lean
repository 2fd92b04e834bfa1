import KeyValueServer.Proofs.Traffic.Stakes
import Mathlib.Data.Fintype.Card

/-!
# The holds behind the stakes

The locks of a table show exactly the holds that the threads have by their stakes. No thread is
named zero, so the shared holds on a lock are always few enough to be counted. It follows that a
slot or an entry that one thread holds exclusively is held by no other.
-/

namespace KeyValueServer

open Function (update)

/-- The list has each thread once that has a hold, with the mode of this hold. -/
structure Enrols (list : List Hold) (has : ThreadId → LockMode → Prop) : Prop where
  mem_iff : ∀ thread mode, ⟨thread, mode⟩ ∈ list ↔ has thread mode
  nodup : (list.map Hold.thread).Nodup

namespace Enrols

variable {list : List Hold} {has has' : ThreadId → LockMode → Prop} {thread : ThreadId}
  {mode : LockMode}

theorem nil (h : ∀ thread mode, ¬has thread mode) : Enrols [] has where
  mem_iff thread mode := iff_of_false List.not_mem_nil (h thread mode)
  nodup := List.nodup_nil

theorem congr (h : Enrols list has) (hsame : ∀ thread mode, has' thread mode ↔ has thread mode) :
    Enrols list has' where
  mem_iff thread mode := by rw [h.mem_iff, hsame]
  nodup := h.nodup

theorem cons (h : Enrols list has) (hnew : ∀ mode, ¬has thread mode)
    (hsame : ∀ other mode', has' other mode' ↔ (other = thread ∧ mode' = mode) ∨ has other mode') :
    Enrols (⟨thread, mode⟩ :: list) has' where
  mem_iff other mode' := by
    rw [List.mem_cons, Hold.mk.injEq, h.mem_iff, hsame]
  nodup := by
    rw [List.map_cons, List.nodup_cons]
    refine ⟨fun hmem => ?_, h.nodup⟩
    obtain ⟨⟨other, mode'⟩, hhold, rfl⟩ := List.mem_map.mp hmem
    exact hnew mode' ((h.mem_iff _ _).mp hhold)

theorem erase (h : Enrols list has) (hmem : has thread mode)
    (hsame : ∀ other mode', has' other mode' ↔ has other mode' ∧ other ≠ thread) :
    Enrols (list.erase ⟨thread, mode⟩) has' where
  mem_iff other mode' := by
    have hlist := h.nodup.of_map
    rw [hlist.mem_erase_iff, h.mem_iff, hsame, and_comm]
    refine and_congr_right fun hother => not_congr ⟨congrArg Hold.thread, ?_⟩
    rintro rfl
    exact List.inj_on_of_nodup_map h.nodup ((h.mem_iff _ _).mpr hother)
      ((h.mem_iff _ _).mpr hmem) rfl
  nodup := h.nodup.sublist (List.erase_sublist.map _)

/-- There are fewer holds than a lock can count when one name is that of no holder. -/
theorem sharedHolds_lt (h : Enrols list has) (hzero : ∀ mode, ¬has 0 mode) :
    sharedHolds list < fieldSize := by
  have hfresh : 0 ∉ list.map Hold.thread := by
    intro hmem
    obtain ⟨⟨other, mode⟩, hhold, hother⟩ := List.mem_map.mp hmem
    obtain rfl : other = 0 := hother
    exact hzero mode ((h.mem_iff _ _).mp hhold)
  have hcard := (List.nodup_cons.mpr ⟨hfresh, h.nodup⟩).length_le_card
  rw [List.length_cons, List.length_map, Fintype.card_fin] at hcard
  exact lt_of_le_of_lt List.countP_le_length hcard

end Enrols

/-- For each place the list has the threads that hold it. -/
def Enrolled (lists : Nat → List Hold) (held : ThreadId → Option (Nat × LockMode)) : Prop :=
  ∀ place, Enrols (lists place) fun thread mode => held thread = some (place, mode)

namespace Enrolled

variable {lists : Nat → List Hold} {held : ThreadId → Option (Nat × LockMode)} {thread : ThreadId}
  {place : Nat} {mode : LockMode}

theorem enter (h : Enrolled lists held) (hfree : held thread = none) :
    Enrolled (update lists place (⟨thread, mode⟩ :: lists place))
      (update held thread (some (place, mode))) := by
  intro other
  by_cases hplace : other = place
  · subst hplace
    rw [Function.update_self]
    refine (h other).cons (by simp [hfree]) fun thread' mode' => ?_
    by_cases hthread : thread' = thread
    · simp [hthread, hfree, eq_comm]
    · simp [hthread]
  · rw [Function.update_of_ne hplace]
    refine (h other).congr fun thread' mode' => ?_
    by_cases hthread : thread' = thread
    · simp [hthread, hfree, Ne.symm hplace]
    · simp [hthread]

theorem leave (h : Enrolled lists held) (hheld : held thread = some (place, mode)) :
    Enrolled (update lists place ((lists place).erase ⟨thread, mode⟩))
      (update held thread none) := by
  intro other
  by_cases hplace : other = place
  · subst hplace
    rw [Function.update_self]
    refine (h other).erase hheld fun thread' mode' => ?_
    by_cases hthread : thread' = thread
    · simp [hthread]
    · simp [hthread]
  · rw [Function.update_of_ne hplace]
    refine (h other).congr fun thread' mode' => ?_
    by_cases hthread : thread' = thread
    · simp [hthread, hheld, Ne.symm hplace]
    · simp [hthread]

theorem mem (h : Enrolled lists held) (hheld : held thread = some (place, mode)) :
    ⟨thread, mode⟩ ∈ lists place :=
  ((h place).mem_iff thread mode).mpr hheld

theorem sharedHolds_lt (h : Enrolled lists held) (hzero : held 0 = none) (place : Nat) :
    sharedHolds (lists place) < fieldSize :=
  (h place).sharedHolds_lt (by simp [hzero])

end Enrolled

/-- The locks of a table show the holds of the stakes. -/
structure Ledger (t : Table) (stakes : ThreadId → Stake) (slots : Nat → List Hold)
    (holds : EntryId → List Hold) : Prop where
  shows : t.Shows slots holds
  slots : Enrolled slots fun thread => (stakes thread).slot
  holds : Enrolled holds fun thread => (stakes thread).entry
  zero : stakes 0 = .idle

namespace Ledger

variable {t t' : Table} {stakes : ThreadId → Stake} {slots : Nat → List Hold}
  {holds : EntryId → List Hold} {thread other : ThreadId} {place : Nat} {id : EntryId}
  {mode : LockMode} {request : TableRequest} {result : Option (Except Error Bytes)}

/-! ## Exclusion -/

theorem place_lt (h : Ledger t stakes slots holds)
    (hheld : (stakes thread).slot = some (place, mode)) : place < t.slots.size := by
  by_contra hlarge
  have hslot := h.shows.slot place
  have hempty : t.slot place = .empty := by simp [Table.slot, hlarge]
  rw [hempty] at hslot
  have hnil := hslot.eq_nil_iff.mpr ⟨rfl, rfl, rfl⟩
  have hmem := h.slots.mem hheld
  rw [hnil] at hmem
  contradiction

theorem id_lt (h : Ledger t stakes slots holds) (hheld : (stakes thread).entry = some (id, mode)) :
    id < t.entries.size := by
  by_contra hlarge
  have hmem := h.holds.mem hheld
  rw [h.shows.made id (not_lt.mp hlarge)] at hmem
  contradiction

theorem eq_of_slot (h : Ledger t stakes slots holds)
    (hheld : (stakes thread).slot = some (place, .exclusive))
    (hother : (stakes other).slot = some (place, mode)) : other = thread := by
  have hsingle := (h.shows.slot place).eq_singleton_of_mem (h.slots.mem hheld)
  have hmem := h.slots.mem hother
  rw [hsingle, List.mem_singleton] at hmem
  exact congrArg Hold.thread hmem

theorem eq_of_entry (h : Ledger t stakes slots holds)
    (hheld : (stakes thread).entry = some (id, .exclusive))
    (hother : (stakes other).entry = some (id, mode)) : other = thread := by
  have hentry : t.entryAt id = some _ := Array.getElem?_eq_getElem (h.id_lt hheld)
  have hsingle := (h.shows.entry id _ hentry).eq_singleton_of_mem (h.holds.mem hheld)
  have hmem := h.holds.mem hother
  rw [hsingle, List.mem_singleton] at hmem
  exact congrArg Hold.thread hmem

/-- A hold that a thread has can be given up. -/
theorem leaveEntry_ok (h : Ledger t stakes slots holds)
    (hheld : (stakes thread).entry = some (id, mode)) :
    (t.leaveEntry thread mode id).1 = .ok () :=
  (h.shows.leaveEntry (h.holds.mem hheld)).1

/-! ## Moves and holds -/

theorem slot_update (stakes : ThreadId → Stake) (thread : ThreadId) (stake : Stake) :
    (fun other => (update stakes thread stake other).slot) =
      update (fun other => (stakes other).slot) thread stake.slot :=
  Function.comp_update Stake.slot stakes thread stake

theorem entry_update (stakes : ThreadId → Stake) (thread : ThreadId) (stake : Stake) :
    (fun other => (update stakes thread stake other).entry) =
      update (fun other => (stakes other).entry) thread stake.entry :=
  Function.comp_update Stake.entry stakes thread stake

variable {before after : Stake}

theorem slots_of_eq (h : Ledger t stakes slots holds) (hbefore : stakes thread = before)
    (hslot : after.slot = before.slot) :
    Enrolled slots fun other => (update stakes thread after other).slot := by
  rw [slot_update, hslot, ← hbefore,
    Function.update_eq_self thread fun other => (stakes other).slot]
  exact h.slots

theorem holds_of_eq (h : Ledger t stakes slots holds) (hbefore : stakes thread = before)
    (hentry : after.entry = before.entry) :
    Enrolled holds fun other => (update stakes thread after other).entry := by
  rw [entry_update, hentry, ← hbefore,
    Function.update_eq_self thread fun other => (stakes other).entry]
  exact h.holds

theorem zero_update (h : Ledger t stakes slots holds) (hthread : thread ≠ 0) :
    update stakes thread after 0 = .idle := by
  rw [Function.update_of_ne hthread.symm, h.zero]

theorem keep (h : Ledger t stakes slots holds) (hthread : thread ≠ 0)
    (hbefore : stakes thread = before) (hshows : t'.Shows slots holds)
    (hslot : after.slot = before.slot) (hentry : after.entry = before.entry) :
    Ledger t' (update stakes thread after) slots holds :=
  ⟨hshows, h.slots_of_eq hbefore hslot, h.holds_of_eq hbefore hentry, h.zero_update hthread⟩

theorem enterSlot (h : Ledger t stakes slots holds) (hthread : thread ≠ 0)
    (hbefore : stakes thread = before) (hplace : place < t.slots.size)
    (henter : t.enterSlot thread mode place = some t') (hfree : before.slot = none)
    (hslot : after.slot = some (place, mode)) (hentry : after.entry = before.entry) :
    Ledger t' (update stakes thread after)
      (update slots place (⟨thread, mode⟩ :: slots place)) holds := by
  have henrolled : Enrolled (update slots place (⟨thread, mode⟩ :: slots place)) fun other =>
      (update stakes thread after other).slot := by
    rw [slot_update, hslot]
    exact h.slots.enter (by rw [hbefore, hfree])
  have hzero : update stakes thread after 0 = .idle := h.zero_update hthread
  have hroom := henrolled.sharedHolds_lt (by rw [hzero]; rfl) place
  rw [Function.update_self] at hroom
  exact ⟨h.shows.enterSlot hplace hroom henter, henrolled, h.holds_of_eq hbefore hentry, hzero⟩

theorem leaveSlot (h : Ledger t stakes slots holds) (hthread : thread ≠ 0)
    (hbefore : stakes thread = before) (hheld : before.slot = some (place, mode))
    (hslot : after.slot = none) (hentry : after.entry = before.entry) :
    Ledger (t.leaveSlot thread mode place) (update stakes thread after)
      (update slots place ((slots place).erase ⟨thread, mode⟩)) holds := by
  rw [← hbefore] at hheld
  refine ⟨h.shows.leaveSlot (h.place_lt hheld) (h.slots.mem hheld), ?_,
    h.holds_of_eq hbefore hentry, h.zero_update hthread⟩
  rw [slot_update, hslot]
  exact h.slots.leave hheld

theorem enterEntry (h : Ledger t stakes slots holds) (hthread : thread ≠ 0)
    (hbefore : stakes thread = before) (henter : t.enterEntry thread mode id = some t')
    (hfree : before.entry = none) (hslot : after.slot = before.slot)
    (hentry : after.entry = some (id, mode)) :
    Ledger t' (update stakes thread after) slots
      (update holds id (⟨thread, mode⟩ :: holds id)) := by
  have henrolled : Enrolled (update holds id (⟨thread, mode⟩ :: holds id)) fun other =>
      (update stakes thread after other).entry := by
    rw [entry_update, hentry]
    exact h.holds.enter (by rw [hbefore, hfree])
  have hzero : update stakes thread after 0 = .idle := h.zero_update hthread
  have hroom := henrolled.sharedHolds_lt (by rw [hzero]; rfl) id
  rw [Function.update_self] at hroom
  exact ⟨h.shows.enterEntry hroom henter, h.slots_of_eq hbefore hslot, henrolled, hzero⟩

theorem leaveEntry (h : Ledger t stakes slots holds) (hthread : thread ≠ 0)
    (hbefore : stakes thread = before) (hheld : before.entry = some (id, mode))
    (hslot : after.slot = before.slot) (hentry : after.entry = none) :
    Ledger (t.leaveEntry thread mode id).2 (update stakes thread after) slots
      (update holds id ((holds id).erase ⟨thread, mode⟩)) := by
  rw [← hbefore] at hheld
  refine ⟨(h.shows.leaveEntry (h.holds.mem hheld)).2, h.slots_of_eq hbefore hslot, ?_,
    h.zero_update hthread⟩
  rw [entry_update, hentry]
  exact h.holds.leave hheld

theorem adopt (h : Ledger t stakes slots holds) (hthread : thread ≠ 0)
    (hbefore : stakes thread = before) {e : Entry} (hlock : e.lock = .free)
    (hfree : before.entry = none) (hslot : after.slot = before.slot)
    (hentry : after.entry = some (t.entries.size, mode)) :
    Ledger (t.adopt thread mode e) (update stakes thread after) slots
      (update holds t.entries.size [⟨thread, mode⟩]) := by
  refine ⟨h.shows.adopt thread mode e hlock, h.slots_of_eq hbefore hslot, ?_,
    h.zero_update hthread⟩
  have hfresh : [⟨thread, mode⟩] = ⟨thread, mode⟩ :: holds t.entries.size := by
    rw [h.shows.made _ le_rfl]
  rw [entry_update, hentry, hfresh]
  exact h.holds.enter (by rw [hbefore, hfree])

/-- A move leaves the locks with the holds that the stakes have after it. -/
theorem exists_move (h : Ledger t stakes slots holds) (hthread : thread ≠ 0) (hs : t.Sound)
    (hbefore : stakes thread = before)
    (hmove : Stake.Move thread request t before t' after result) :
    ∃ slots' holds', Ledger t' (update stakes thread after) slots' holds' := by
  cases hmove with
  | stay halike | find halike =>
      exact ⟨_, _, h.keep hthread hbefore (halike.shows h.shows) rfl rfl⟩
  | miss | clear => exact ⟨_, _, h.keep hthread hbefore h.shows rfl rfl⟩
  | write | resize =>
      exact ⟨_, _, h.keep hthread hbefore (h.shows.modifyEntry _ fun _ => rfl) rfl rfl⟩
  | detach | attach =>
      exact ⟨_, _, h.keep hthread hbefore (h.shows.modifySlot _ fun _ => rfl) rfl rfl⟩
  | countDown | countUp =>
      exact ⟨_, _, h.keep hthread hbefore ⟨h.shows.slot, h.shows.entry, h.shows.made⟩ rfl rfl⟩
  | enterSlot henter =>
      exact ⟨_, _, h.enterSlot hthread hbefore (hs.placeOf_lt _) henter rfl rfl rfl⟩
  | leaveSlot | partFromSlot => exact ⟨_, _, h.leaveSlot hthread hbefore rfl rfl rfl⟩
  | take henter | grip henter =>
      exact ⟨_, _, h.enterEntry hthread hbefore henter rfl rfl rfl⟩
  | adopt => exact ⟨_, _, h.adopt hthread hbefore rfl rfl rfl rfl⟩
  | leaveEntry => exact ⟨_, _, h.leaveEntry hthread hbefore rfl rfl rfl⟩

end Ledger

end KeyValueServer
