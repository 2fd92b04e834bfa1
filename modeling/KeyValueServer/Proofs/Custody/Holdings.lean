import KeyValueServer.Proofs.Custody.Footprint
import KeyValueServer.Proofs.Store.Pins
import KeyValueServer.Proofs.Store.Tracking
import KeyValueServer.Proofs.Traffic.Ledger

/-!
# The holds and the references behind the footprints

The locks of a table show exactly the holds of the calls under way and of the handles that threads
keep, and each entry counts exactly their references to it. A thread that holds an entry exclusively
has the only hold on it, whether by its call or by a handle.
-/

namespace KeyValueServer

open Function (update)

namespace Footprint

/-- The handles by which a thread holds entries: that of its call, and those that it keeps. -/
def holding (foot : Footprint) (kept : List Handle) : List Handle := foot.entry.toList ++ kept

/-- The handles by which a thread refers to entries. -/
def referring (foot : Footprint) (kept : List Handle) : List Handle := foot.refers.toList ++ kept

theorem mem_holding {foot : Footprint} {handle : Handle} (h : foot.entry = some handle)
    (kept : List Handle) : handle ∈ foot.holding kept :=
  List.mem_append_left _ (Option.mem_toList.mpr h)

end Footprint

variable {foots : ThreadId → Footprint} {kept : ThreadId → List Handle} {thread : ThreadId}
  {after : Footprint}

theorem slot_update_foot (foots : ThreadId → Footprint) (thread : ThreadId) (after : Footprint) :
    (fun other => (update foots thread after other).slot) =
      update (fun other => (foots other).slot) thread after.slot :=
  Function.comp_update Footprint.slot foots thread after

theorem holding_update_foot (foots : ThreadId → Footprint) (kept : ThreadId → List Handle)
    (thread : ThreadId) (after : Footprint) :
    (fun other => (update foots thread after other).holding (kept other)) =
      update (fun other => (foots other).holding (kept other)) thread
        (after.holding (kept thread)) := by
  funext other
  by_cases hother : other = thread
  · subst hother
    simp
  · simp [hother]

theorem referring_update_foot (foots : ThreadId → Footprint) (kept : ThreadId → List Handle)
    (thread : ThreadId) (after : Footprint) :
    (fun other => (update foots thread after other).referring (kept other)) =
      update (fun other => (foots other).referring (kept other)) thread
        (after.referring (kept thread)) := by
  funext other
  by_cases hother : other = thread
  · subst hother
    simp
  · simp [hother]

/-- A handle that passes between a call and those that its thread keeps is held as before. -/
theorem perm_update_foot {handles : Footprint → List Handle → List Handle} {list : List Handle}
    (hperm : (handles after list).Perm (handles (foots thread) (kept thread)))
    (other : ThreadId) :
    (handles (update foots thread after other) (update kept thread list other)).Perm
      (handles (foots other) (kept other)) := by
  by_cases hother : other = thread
  · subst hother
    rw [Function.update_self, Function.update_self]
    exact hperm
  · rw [Function.update_of_ne hother, Function.update_of_ne hother]

/-- Where no thread has two handles, each of the holds on an entry has a thread of its own. -/
theorem Tracked.enrols {lists : EntryId → List Hold} {bags : ThreadId → List Handle}
    (h : Tracked lists bags) (hone : ∀ thread, (bags thread).length ≤ 1) (id : EntryId) :
    Enrols (lists id) fun thread mode => ⟨id, mode⟩ ∈ bags thread where
  mem_iff _ _ := h.mem_iff
  nodup := by
    refine List.Nodup.map_on ?_ (List.nodup_iff_count_le_one.mpr ?_)
    · rintro ⟨thread, mode⟩ hmem ⟨other, mode'⟩ hmem' rfl
      obtain ⟨handle, hbag⟩ := List.length_eq_one_iff.mp
        (le_antisymm (hone thread) (List.length_pos_of_mem (h.mem_iff.mp hmem)))
      have hmode := h.mem_iff.mp hmem
      have hmode' := h.mem_iff.mp hmem'
      rw [hbag, List.mem_singleton] at hmode hmode'
      rw [(Handle.mk.inj (hmode.trans hmode'.symm)).2]
    · rintro ⟨thread, mode⟩
      rw [h id thread mode]
      exact List.count_le_length.trans (hone thread)

/-! ## Locks -/

/-- The locks of a table show the holds of the calls and of the handles that are kept. -/
structure Locked (t : Table) (foots : ThreadId → Footprint) (kept : ThreadId → List Handle)
    (slots : Nat → List Hold) (holds : EntryId → List Hold) : Prop where
  shows : t.Shows slots holds
  slots : Enrolled slots fun thread => (foots thread).slot
  holds : Tracked holds fun thread => (foots thread).holding (kept thread)
  zero : foots 0 = .idle

namespace Locked

variable {t t' : Table} {slots : Nat → List Hold} {holds : EntryId → List Hold}
  {before : Footprint} {other : ThreadId} {place : Nat} {id : EntryId} {mode : LockMode}
  {handle : Handle} {freed : Option EntryId}

/-- On a table that nobody holds anything of there are no calls and no handles. -/
theorem quiet (h : t.AtRest fun _ => []) :
    Locked t (fun _ => .idle) (fun _ => []) (fun _ => []) fun _ => [] :=
  ⟨h, fun _ => .nil (by simp [Footprint.idle]), .empty, rfl⟩

/-! ### Exclusion -/

theorem place_lt (h : Locked t foots kept slots holds)
    (hheld : (foots thread).slot = some (place, mode)) : place < t.slots.size := by
  by_contra hlarge
  have hslot := h.shows.slot place
  have hempty : t.slot place = .empty := by simp [Table.slot, hlarge]
  rw [hempty] at hslot
  have hnil := hslot.eq_nil_iff.mpr ⟨rfl, rfl, rfl⟩
  have hmem := h.slots.mem hheld
  rw [hnil] at hmem
  contradiction

theorem eq_of_slot (h : Locked t foots kept slots holds)
    (hheld : (foots thread).slot = some (place, .exclusive))
    (hother : (foots other).slot = some (place, mode)) : other = thread := by
  have hsingle := (h.shows.slot place).eq_singleton_of_mem (h.slots.mem hheld)
  have hmem := h.slots.mem hother
  rw [hsingle, List.mem_singleton] at hmem
  exact congrArg Hold.thread hmem

theorem id_lt (h : Locked t foots kept slots holds)
    (hheld : handle ∈ (foots thread).holding (kept thread)) : handle.id < t.entries.size := by
  by_contra hlarge
  exact h.holds.ne_nil hheld (h.shows.made handle.id (not_lt.mp hlarge))

/-- An entry that a thread holds exclusively is held by no other handle. -/
theorem holds_eq (h : Locked t foots kept slots holds)
    (hheld : ⟨id, .exclusive⟩ ∈ (foots thread).holding (kept thread)) :
    holds id = [⟨thread, .exclusive⟩] := by
  have hentry : t.entryAt id = some _ := Array.getElem?_eq_getElem (h.id_lt hheld)
  exact (h.shows.entry id _ hentry).eq_singleton_of_mem (h.holds.mem_iff.mpr hheld)

theorem eq_of_entry (h : Locked t foots kept slots holds)
    (hheld : ⟨id, .exclusive⟩ ∈ (foots thread).holding (kept thread))
    (hother : ⟨id, mode⟩ ∈ (foots other).holding (kept other)) : other = thread := by
  have hmem := h.holds.mem_iff.mpr hother
  rw [h.holds_eq hheld, List.mem_singleton] at hmem
  exact congrArg Hold.thread hmem

/-- A handle that is kept is on no entry that a call holds exclusively. -/
theorem ne_of_kept (h : Locked t foots kept slots holds)
    (hheld : (foots thread).entry = some ⟨id, .exclusive⟩) (hkept : handle ∈ kept other) :
    handle.id ≠ id := by
  rintro rfl
  have hmem : ⟨handle.id, .exclusive⟩ ∈ (foots thread).holding (kept thread) := by
    simp [Footprint.holding, hheld]
  have hother : ⟨handle.id, handle.mode⟩ ∈ (foots other).holding (kept other) :=
    List.mem_append_right _ hkept
  have hhold := h.holds.mem_iff.mpr hother
  rw [h.holds_eq hmem, List.mem_singleton, Hold.mk.injEq] at hhold
  obtain ⟨rfl, hmode⟩ := hhold
  -- The thread would have the one exclusive hold twice, by its call and by the handle.
  have hcount : (holds handle.id).count ⟨other, .exclusive⟩ =
      ((foots other).holding (kept other)).count ⟨handle.id, .exclusive⟩ := h.holds ..
  rw [h.holds_eq hmem, Footprint.holding, hheld, Option.toList_some, List.singleton_append,
    List.count_cons_self, List.count_nil, List.count_cons_self] at hcount
  have hnone : (kept other).count ⟨handle.id, .exclusive⟩ = 0 := by omega
  rw [List.count_eq_zero, ← hmode] at hnone
  exact hnone hkept

/-- A hold that a thread has can be given up. -/
theorem leaveEntry_ok (h : Locked t foots kept slots holds)
    (hheld : handle ∈ (foots thread).holding (kept thread)) :
    (t.leaveEntry thread handle.mode handle.id).1 = .ok () :=
  (h.shows.leaveEntry (h.holds.mem_iff.mpr hheld)).1

/-! ### Moves -/

theorem slots_of_eq (h : Locked t foots kept slots holds) (hbefore : foots thread = before)
    (hslot : after.slot = before.slot) :
    Enrolled slots fun other => (update foots thread after other).slot := by
  rw [slot_update_foot, hslot, ← hbefore,
    Function.update_eq_self thread fun other => (foots other).slot]
  exact h.slots

theorem holds_of_eq (h : Locked t foots kept slots holds) (hbefore : foots thread = before)
    (hentry : after.entry = before.entry) :
    Tracked holds fun other => (update foots thread after other).holding (kept other) := by
  have hsame : after.holding (kept thread) = (foots thread).holding (kept thread) := by
    simp only [Footprint.holding, hentry, hbefore]
  rw [holding_update_foot, hsame,
    Function.update_eq_self thread fun other => (foots other).holding (kept other)]
  exact h.holds

theorem zero_update (h : Locked t foots kept slots holds) (hthread : thread ≠ 0) :
    update foots thread after 0 = .idle := by
  rw [Function.update_of_ne hthread.symm, h.zero]

theorem keep (h : Locked t foots kept slots holds) (hthread : thread ≠ 0)
    (hbefore : foots thread = before) (hshows : t'.Shows slots holds)
    (hslot : after.slot = before.slot) (hentry : after.entry = before.entry) :
    Locked t' (update foots thread after) kept slots holds :=
  ⟨hshows, h.slots_of_eq hbefore hslot, h.holds_of_eq hbefore hentry, h.zero_update hthread⟩

theorem enterSlot (h : Locked t foots kept slots holds) (hthread : thread ≠ 0)
    (hbefore : foots thread = before) (hplace : place < t.slots.size)
    (henter : t.enterSlot thread mode place = some t') (hfree : before.slot = none)
    (hslot : after.slot = some (place, mode)) (hentry : after.entry = before.entry) :
    Locked t' (update foots thread after) kept
      (update slots place (⟨thread, mode⟩ :: slots place)) holds := by
  have henrolled : Enrolled (update slots place (⟨thread, mode⟩ :: slots place)) fun other =>
      (update foots thread after other).slot := by
    rw [slot_update_foot, hslot]
    exact h.slots.enter (by rw [hbefore, hfree])
  have hzero : update foots thread after 0 = .idle := h.zero_update hthread
  have hroom := henrolled.sharedHolds_lt (by rw [hzero]; rfl) place
  rw [Function.update_self] at hroom
  exact ⟨h.shows.enterSlot hplace hroom henter, henrolled, h.holds_of_eq hbefore hentry, hzero⟩

theorem leaveSlot (h : Locked t foots kept slots holds) (hthread : thread ≠ 0)
    (hbefore : foots thread = before) (hheld : before.slot = some (place, mode))
    (hslot : after.slot = none) (hentry : after.entry = before.entry) :
    Locked (t.leaveSlot thread mode place) (update foots thread after) kept
      (update slots place ((slots place).erase ⟨thread, mode⟩)) holds := by
  rw [← hbefore] at hheld
  refine ⟨h.shows.leaveSlot (h.place_lt hheld) (h.slots.mem hheld), ?_,
    h.holds_of_eq hbefore hentry, h.zero_update hthread⟩
  rw [slot_update_foot, hslot]
  exact h.slots.leave hheld

/-- A call that has taken an entry holds it beside the handles that its thread keeps. -/
theorem holds_add (h : Locked t foots kept slots holds) (hbefore : foots thread = before)
    (handle : Handle) (hfree : before.entry = none) (hentry : after.entry = some handle) :
    Tracked (update holds handle.id (⟨thread, handle.mode⟩ :: holds handle.id)) fun other =>
      (update foots thread after other).holding (kept other) := by
  have hadd := h.holds.add thread handle
  rw [holding_update_foot, Footprint.holding, hentry]
  simpa only [hbefore, Footprint.holding, hfree, Option.toList_none, Option.toList_some,
    List.nil_append, List.singleton_append] using hadd

theorem holds_remove (h : Locked t foots kept slots holds) (hbefore : foots thread = before)
    (hheld : before.entry = some handle) (hentry : after.entry = none) :
    Tracked (update holds handle.id ((holds handle.id).erase ⟨thread, handle.mode⟩)) fun other =>
      (update foots thread after other).holding (kept other) := by
  have hremove := h.holds.remove thread handle
  rw [holding_update_foot, Footprint.holding, hentry]
  simpa only [hbefore, Footprint.holding, hheld, Option.toList_none, Option.toList_some,
    List.nil_append, List.singleton_append, List.erase_cons_head] using hremove

theorem length_update_le (holds : EntryId → List Hold) {list : List Hold}
    (hlength : list.length ≤ (holds id).length + 1) (other : EntryId) :
    (update holds id list other).length ≤ (holds other).length + 1 := by
  by_cases hother : other = id
  · subst hother
    rwa [Function.update_self]
  · rw [Function.update_of_ne hother]
    exact Nat.le_succ _

/-- A move leaves the locks with the holds that the footprints have after it, while the lock that it
takes can count its shared holds. -/
theorem exists_move (h : Locked t foots kept slots holds) (hthread : thread ≠ 0) (hs : t.Sound)
    (hbefore : foots thread = before) (hmove : Footprint.Move thread t before t' after freed)
    (hroom : ∀ mode handle, before.entry = none → before.refers = some handle →
      t.enterEntry thread mode handle.id = some t' →
      sharedHolds (⟨thread, mode⟩ :: holds handle.id) < fieldSize) :
    ∃ slots' holds', Locked t' (update foots thread after) kept slots' holds' ∧
      ∀ id, (holds' id).length ≤ (holds id).length + 1 := by
  have hsame : ∀ id, (holds id).length ≤ (holds id).length + 1 := fun _ => Nat.le_succ _
  cases hmove with
  | recount | retire | pop =>
      exact ⟨_, _, h.keep hthread hbefore ⟨h.shows.slot, h.shows.entry, h.shows.made⟩ rfl rfl,
        hsame⟩
  | forgo | clear | free => exact ⟨_, _, h.keep hthread hbefore h.shows rfl rfl, hsame⟩
  | retain | forget | write | resize =>
      exact ⟨_, _, h.keep hthread hbefore (h.shows.modifyEntry _ fun _ => rfl) rfl rfl, hsame⟩
  | detach | attach =>
      exact ⟨_, _, h.keep hthread hbefore (h.shows.modifySlot _ fun _ => rfl) rfl rfl, hsame⟩
  | enterSlot henter =>
      exact ⟨_, _, h.enterSlot hthread hbefore (hs.placeOf_lt _) henter rfl rfl rfl, hsame⟩
  | leaveSlot => exact ⟨_, _, h.leaveSlot hthread hbefore rfl rfl rfl, hsame⟩
  | enterEntry handle mode henter =>
      exact ⟨_, _, ⟨h.shows.enterEntry (hroom mode handle rfl rfl henter) henter,
        h.slots_of_eq hbefore rfl, h.holds_add hbefore ⟨handle.id, mode⟩ rfl rfl,
        h.zero_update hthread⟩, length_update_le holds (Nat.le_refl _)⟩
  | leaveEntry handle =>
      have hheld : handle ∈ (foots thread).holding (kept thread) := by
        simp [hbefore, Footprint.holding]
      exact ⟨_, _, ⟨(h.shows.leaveEntry (h.holds.mem_iff.mpr hheld)).2, h.slots_of_eq hbefore rfl,
        h.holds_remove hbefore rfl rfl, h.zero_update hthread⟩,
        length_update_le holds (List.length_erase_le.trans (Nat.le_succ _))⟩
  | adopt key value mode =>
      have hfresh : [⟨thread, mode⟩] = ⟨thread, mode⟩ :: holds t.entries.size := by
        rw [h.shows.made _ le_rfl]
      refine ⟨_, _, ⟨h.shows.adopt thread mode _ rfl, h.slots_of_eq hbefore rfl, ?_,
        h.zero_update hthread⟩, length_update_le holds (Nat.le_add_left 1 _)⟩
      rw [hfresh]
      exact h.holds_add hbefore ⟨t.entries.size, mode⟩ rfl rfl

/-- A handle passes from a call to its caller, or back for its release. -/
theorem pass (h : Locked t foots kept slots holds) (hthread : thread ≠ 0) {list : List Handle}
    (hslot : after.slot = (foots thread).slot)
    (hperm : (after.holding list).Perm ((foots thread).holding (kept thread))) :
    Locked t (update foots thread after) (update kept thread list) slots holds :=
  ⟨h.shows, h.slots_of_eq rfl hslot, h.holds.of_perm (perm_update_foot hperm),
    h.zero_update hthread⟩

end Locked

/-! ## References -/

/-- Each entry counts the references of the calls and of the handles that are kept. -/
structure Referred (t : Table) (foots : ThreadId → Footprint) (kept : ThreadId → List Handle)
    (refs : EntryId → List Hold) : Prop where
  pins : t.Pins fun id => (refs id).length
  refs : Tracked refs fun thread => (foots thread).referring (kept thread)

namespace Referred

variable {t t' : Table} {refs : EntryId → List Hold} {before : Footprint} {id : EntryId}
  {handle : Handle} {freed : Option EntryId}

theorem quiet (h : t.Pins fun _ => 0) :
    Referred t (fun _ => .idle) (fun _ => []) fun _ => [] :=
  ⟨h, .empty⟩

theorem id_lt (h : Referred t foots kept refs)
    (hrefers : handle ∈ (foots thread).referring (kept thread)) :
    handle.id < t.entries.size := by
  by_contra hlarge
  exact h.refs.ne_nil hrefers (List.length_eq_zero_iff.mp (h.pins.made _ (not_lt.mp hlarge)))

theorem refs_of_eq (h : Referred t foots kept refs) (hbefore : foots thread = before)
    (hrefers : after.refers = before.refers) :
    Tracked refs fun other => (update foots thread after other).referring (kept other) := by
  have hsame : after.referring (kept thread) = (foots thread).referring (kept thread) := by
    simp only [Footprint.referring, hrefers, hbefore]
  rw [referring_update_foot, hsame,
    Function.update_eq_self thread fun other => (foots other).referring (kept other)]
  exact h.refs

theorem keep (h : Referred t foots kept refs) (hbefore : foots thread = before)
    (hpins : t'.Pins fun id => (refs id).length) (hrefers : after.refers = before.refers) :
    Referred t' (update foots thread after) kept refs :=
  ⟨hpins, h.refs_of_eq hbefore hrefers⟩

/-- A call that refers to an entry counts for one more reference. -/
theorem add (h : Referred t foots kept refs) (hbefore : foots thread = before) (handle : Handle)
    (hpins : t'.Pins (update (fun id => (refs id).length) handle.id ((refs handle.id).length + 1)))
    (hnone : before.refers = none) (hrefers : after.refers = some handle) :
    Referred t' (update foots thread after) kept
      (update refs handle.id (⟨thread, handle.mode⟩ :: refs handle.id)) where
  pins := by
    have hlength : (fun id => (update refs handle.id (⟨thread, handle.mode⟩ :: refs handle.id)
        id).length) = update (fun id => (refs id).length) handle.id
          ((refs handle.id).length + 1) :=
      Function.comp_update List.length refs handle.id _
    rwa [hlength]
  refs := by
    have hadd := h.refs.add thread handle
    rw [referring_update_foot, Footprint.referring, hrefers]
    simpa only [hbefore, Footprint.referring, hnone, Option.toList_none, Option.toList_some,
      List.nil_append, List.singleton_append] using hadd

theorem forget (h : Referred t foots kept refs) (hbefore : foots thread = before)
    (hrefers : before.refers = some handle) (hnone : after.refers = none) :
    Referred (t.forget handle.id) (update foots thread after) kept
      (update refs handle.id ((refs handle.id).erase ⟨thread, handle.mode⟩)) where
  pins := by
    have hmem : handle ∈ (foots thread).referring (kept thread) := by
      simp [Footprint.referring, hbefore, hrefers]
    have hlength : (fun id => (update refs handle.id
        ((refs handle.id).erase ⟨thread, handle.mode⟩) id).length) =
          update (fun id => (refs id).length) handle.id ((refs handle.id).length - 1) := by
      rw [← List.length_erase_of_mem (h.refs.mem_iff.mpr hmem)]
      exact Function.comp_update List.length refs handle.id _
    rw [hlength]
    exact h.pins.forget handle.id
  refs := by
    have hremove := h.refs.remove thread handle
    rw [referring_update_foot, Footprint.referring, hnone]
    simpa only [hbefore, Footprint.referring, hrefers, Option.toList_none, Option.toList_some,
      List.nil_append, List.singleton_append, List.erase_cons_head] using hremove

/-- A move leaves the counts with the references that the footprints have after it. -/
theorem exists_move (h : Referred t foots kept refs) (hs : t.Sound)
    (hbefore : foots thread = before)
    (hmove : Footprint.Move thread t before t' after freed) :
    ∃ refs', Referred t' (update foots thread after) kept refs' := by
  cases hmove with
  | recount | retire | pop | detach | attach =>
      exact ⟨_, h.keep hbefore (h.pins.of_entries_eq rfl) rfl⟩
  | forgo | clear | free => exact ⟨_, h.keep hbefore h.pins rfl⟩
  | write | resize => exact ⟨_, h.keep hbefore (h.pins.modifyEntry _ fun _ => rfl) rfl⟩
  | enterSlot henter => exact ⟨_, h.keep hbefore (h.pins.enterSlot henter) rfl⟩
  | leaveSlot => exact ⟨_, h.keep hbefore (h.pins.leaveSlot ..) rfl⟩
  | enterEntry handle mode henter => exact ⟨_, h.keep hbefore (h.pins.enterEntry henter) rfl⟩
  | leaveEntry handle => exact ⟨_, h.keep hbefore (h.pins.leaveEntry ..) rfl⟩
  | retain handle hentry =>
      exact ⟨_, h.add hbefore handle (h.pins.retain (hs.lt_of_entryOf hentry)) rfl rfl⟩
  | forget handle => exact ⟨_, h.forget hbefore rfl rfl⟩
  | adopt key value mode =>
      exact ⟨_, h.add hbefore ⟨t.entries.size, mode⟩ (h.pins.adopt thread mode _) rfl rfl⟩

theorem pass (h : Referred t foots kept refs) {list : List Handle}
    (hperm : (after.referring list).Perm ((foots thread).referring (kept thread))) :
    Referred t (update foots thread after) (update kept thread list) refs :=
  ⟨h.pins, h.refs.of_perm (perm_update_foot hperm)⟩

end Referred

end KeyValueServer
