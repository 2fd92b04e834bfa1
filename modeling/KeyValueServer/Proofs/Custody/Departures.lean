import KeyValueServer.Proofs.Custody.Reliance

/-!
# Entries that leave the table

An entry that was taken out of its chain is retired, is looked at by a call that reclaims, is
retired again or freed, and never gets into a chain again: only the call that has made an entry
links it, and it does so once. A call starts to refer to an entry only when it has found it in a
chain or has made it. So nothing refers to a freed entry any more.
-/

namespace KeyValueServer

open Function (update)

theorem Table.Sound.not_mem_detach {t : Table} {key : Bytes} {id : EntryId} (hs : t.Sound)
    (h : t.entryOf key = some id) (place : Nat) :
    id ∉ ((t.detach (t.placeOf key) id).slot place).chain := by
  intro hmem
  have hnone := hs.entryOf_detach h key
  rw [if_pos rfl, (hs.detach _ id).entryOf_eq_none_iff] at hnone
  obtain ⟨-, hkey⟩ := hs.entryOf_eq_some_iff.mp h
  obtain ⟨e, he, -, hplace⟩ := (hs.detach _ id).linked place id hmem
  have hsame : e.key = key := by
    have hkey' : (t.detach (t.placeOf key) id).keyAt id = some e.key := by
      rw [Table.keyAt, he, Option.map_some]
    exact Option.some.inj (hkey'.symm.trans hkey)
  rw [hsame] at hplace
  exact hnone id (hplace ▸ hmem) hkey

namespace Footprint

variable {t t' : Table} {foot before after : Footprint} {thread : ThreadId} {out : Option EntryId}
  {id : EntryId} {place : Nat}

theorem touched_cases (h : foot.touched = some id) :
    foot.entry = some ⟨id, .exclusive⟩ ∨ foot.made = some id := by
  obtain ⟨slot, entry, refers, leaving, notice⟩ := foot
  cases notice with
  | fits other length =>
      simp only [touched, Option.ite_none_right_eq_some, Option.some.injEq] at h
      obtain ⟨hheld, rfl⟩ := h
      exact .inl hheld
  | made => exact .inr h
  | _ => contradiction

theorem Stands.entry_of_made (h : foot.Stands t) (hmade : foot.made = some id) :
    (∃ mode, foot.entry = some ⟨id, mode⟩) ∧ ∀ place, id ∉ (t.slot place).chain := by
  obtain ⟨slot, entry, refers, leaving, notice⟩ := foot
  cases notice with
  | made key id' =>
      obtain rfl : id' = id := Option.some.inj hmade
      obtain ⟨-, -, hloose, hheld⟩ := h
      exact ⟨hheld, hloose.unlinked⟩
  | _ => contradiction

/-! ## What changes hands in a move -/

theorem Move.made_cases (hmove : Move thread t before t' after out) (h : after.made = some id) :
    before.made = some id ∨ id = t.entries.size := by
  cases hmove with
  | recount | retire | write => exact .inl h
  | enterEntry _ _ _ hafter =>
      rcases hafter with rfl | rfl
      · exact .inl h
      · contradiction
  | adopt => exact .inr (Option.some.inj h).symm
  | _ => contradiction

/-- Only the call that has made an entry links it. -/
theorem Move.mem_chain (hmove : Move thread t before t' after out) (hs : t.Sound)
    (h : id ∈ (t'.slot place).chain) : id ∈ (t.slot place).chain ∨ before.made = some id := by
  have hsame {t t' : Table} (hcontents : t'.contents = t.contents)
      (h : id ∈ (t'.slot place).chain) : id ∈ (t.slot place).chain := by
    rwa [Table.chain_eq hcontents] at h
  cases hmove with
  | recount | forgo | clear | free | retire | pop | write | resize | adopt => exact .inl h
  | enterSlot henter => exact .inl (hsame (Table.contents_enterSlot henter) h)
  | leaveSlot => exact .inl (hsame (Table.contents_leaveSlot ..) h)
  | retain => exact .inl (hsame (Table.contents_retain ..) h)
  | enterEntry _ _ henter => exact .inl (hsame (Table.contents_enterEntry henter) h)
  | leaveEntry => exact .inl (hsame (Table.contents_leaveEntry ..) h)
  | forget => exact .inl (hsame (Table.contents_forget ..) h)
  | detach => exact .inl (Table.Spares.mem_of_detach h)
  | attach =>
      rcases hs.mem_attach h with ⟨rfl, -⟩ | hold
      · exact .inr rfl
      · exact .inl hold

theorem Move.size_le (hmove : Move thread t before t' after out) :
    t.entries.size ≤ t'.entries.size := by
  cases hmove with
  | enterSlot henter => exact (Table.entries_size_eq (Table.contents_enterSlot henter)).ge
  | leaveSlot => exact (Table.entries_size_eq (Table.contents_leaveSlot ..)).ge
  | enterEntry _ _ henter => exact (Table.entries_size_eq (Table.contents_enterEntry henter)).ge
  | leaveEntry => exact (Table.entries_size_eq (Table.contents_leaveEntry ..)).ge
  | retain | forget | write | resize =>
      simp [Table.retain, Table.forget, Table.modifyEntry]
  | adopt => simp [Table.adopt]
  | _ => exact le_rfl

/-- A call starts to refer to an entry that it has found or made. -/
theorem Move.refers_cases (hmove : Move thread t before t' after out) {handle : Handle}
    (h : after.refers = some handle) :
    before.refers = some handle ∨ (∃ key, t.entryOf key = some handle.id) ∨
      handle.id = t.entries.size := by
  cases hmove with
  | retain _ hentry =>
      obtain rfl := Option.some.inj h
      exact .inr (.inl ⟨_, hentry⟩)
  | adopt =>
      obtain rfl := Option.some.inj h
      exact .inr (.inr rfl)
  | enterSlot | forget | clear | detach => contradiction
  | _ => exact .inl h

theorem Move.leaving_of_free (hmove : Move thread t before t' after (some id)) :
    before.leaving = some id := by
  cases hmove with
  | free => rfl

/-- An entry that departs is taken out of its chain. -/
theorem Move.departs_cases (hmove : Move thread t before t' after out)
    (h : id ∈ t'.retired ∨ out = some id ∨ after.leaving = some id) :
    id ∈ t.retired ∨ before.leaving = some id ∨
      ∃ key, t.entryOf key = some id ∧ t' = t.detach (t.placeOf key) id ∧ after.made = none := by
  have hstay (hretired : t'.retired = t.retired) (hout : out = none)
      (hleaving : after.leaving = before.leaving) :
      id ∈ t.retired ∨ before.leaving = some id := by
    rcases h with hid | hid | hid
    · exact .inl (hretired ▸ hid)
    · rw [hout] at hid
      contradiction
    · exact .inr (hleaving ▸ hid)
  rw [← or_assoc]
  cases hmove with
  | recount | forgo | write | resize | clear | retain | forget | adopt | attach =>
      exact .inl (hstay rfl rfl rfl)
  | enterSlot henter => exact .inl (hstay (Table.retired_enterSlot henter) rfl rfl)
  | leaveSlot => exact .inl (hstay (Table.retired_leaveSlot ..) rfl rfl)
  | enterEntry _ _ henter => exact .inl (hstay (Table.retired_enterEntry henter) rfl rfl)
  | leaveEntry => exact .inl (hstay (Table.retired_leaveEntry ..) rfl rfl)
  | detach hentry =>
      rcases h with hid | hid | hid
      · exact .inl (.inl hid)
      · contradiction
      · obtain rfl := Option.some.inj hid
        exact .inr ⟨_, hentry, rfl, rfl⟩
  | retire =>
      rcases h with hid | hid | hid
      · rcases List.mem_append.mp hid with hold | hnew
        · exact .inl (.inl hold)
        · obtain rfl := List.mem_singleton.mp hnew
          exact .inl (.inr rfl)
      · contradiction
      · contradiction
  | pop hqueue =>
      rw [hqueue]
      rcases h with hid | hid | hid
      · exact .inl (.inl (List.mem_cons_of_mem _ hid))
      · contradiction
      · obtain rfl := Option.some.inj hid
        exact .inl (.inl List.mem_cons_self)
  | free =>
      rcases h with hid | hid | hid
      · exact .inl (.inl hid)
      · obtain rfl := Option.some.inj hid
        exact .inl (.inr rfl)
      · contradiction

end Footprint

/-! ## Where entries are -/

/-- The entry is retired or freed, or a call is about to retire it or to free it. -/
def Departed (t : Table) (foots : ThreadId → Footprint) (freed : List EntryId) (id : EntryId) :
    Prop :=
  id ∈ t.retired ∨ id ∈ freed ∨ ∃ thread, (foots thread).leaving = some id

/-- What calls rely on is so, and entries that have left their chains are in none of the places from
which a call could get them. -/
structure Sited (t : Table) (foots : ThreadId → Footprint) (kept : ThreadId → List Handle)
    (freed : List EntryId) : Prop where
  sound : t.Sound
  stands : ∀ thread, (foots thread).Stands t
  maker : ∀ thread other id, (foots thread).made = some id → (foots other).made = some id →
    other = thread
  departed_lt : ∀ id, Departed t foots freed id → id < t.entries.size
  unlinked : ∀ id, Departed t foots freed id → ∀ place, id ∉ (t.slot place).chain
  unmade : ∀ id, Departed t foots freed id → ∀ thread, (foots thread).made ≠ some id
  unreferenced : ∀ id ∈ freed, ∀ thread, ∀ handle ∈ (foots thread).referring (kept thread),
    handle.id ≠ id

namespace Sited

variable {t t' : Table} {foots : ThreadId → Footprint} {kept : ThreadId → List Handle}
  {freed : List EntryId} {thread other : ThreadId} {before after : Footprint}
  {out : Option EntryId} {id : EntryId} {slots : Nat → List Hold} {holds refs : EntryId → List Hold}

theorem quiet (hs : t.Sound) (hretired : t.retired = []) :
    Sited t (fun _ => .idle) (fun _ => []) [] := by
  have hnone : ∀ id, ¬Departed t (fun _ => .idle) [] id := by
    rintro id (hid | hid | ⟨thread, hid⟩)
    · rw [hretired] at hid
      contradiction
    · contradiction
    · contradiction
  exact
    { sound := hs
      stands := fun _ => trivial
      maker := fun _ _ _ hmade => by contradiction
      departed_lt := fun id hid => absurd hid (hnone id)
      unlinked := fun id hid => absurd hid (hnone id)
      unmade := fun id hid => absurd hid (hnone id)
      unreferenced := fun id hid => by contradiction }

theorem stands_move (h : Sited t foots kept freed) (hl : Locked t foots kept slots holds)
    (hbefore : foots thread = before) (hmove : Footprint.Move thread t before t' after out)
    (other : ThreadId) : (update foots thread after other).Stands t' := by
  have hstands : before.Stands t := hbefore ▸ h.stands thread
  by_cases hother : other = thread
  · subst hother
    rw [Function.update_self]
    exact hmove.stands h.sound hstands
  · rw [Function.update_of_ne hother]
    refine (h.stands other).frame h.sound (hmove.sound h.sound hstands)
      (hmove.spares h.sound hstands) (fun place mode hslot hmover => ?_) fun id hmade hmover => ?_
    · rw [← hbefore] at hmover
      exact hother (hl.eq_of_slot hmover hslot)
    · obtain ⟨id', htouched, heq⟩ := Option.map_eq_some_iff.mp hmover
      obtain rfl := (Prod.mk.inj heq).1
      rw [← hbefore] at htouched
      rcases Footprint.touched_cases htouched with hheld | hmine
      · obtain ⟨⟨mode, hentry⟩, -⟩ := (h.stands other).entry_of_made hmade
        have hmover : ⟨id', .exclusive⟩ ∈ (foots thread).holding (kept thread) := by
          simp [Footprint.holding, hheld]
        have hmaker : ⟨id', mode⟩ ∈ (foots other).holding (kept other) := by
          simp [Footprint.holding, hentry]
        exact hother (hl.eq_of_entry hmover hmaker)
      · exact hother (h.maker thread other id' hmine hmade)

theorem maker_move (h : Sited t foots kept freed) (hbefore : foots thread = before)
    (hmove : Footprint.Move thread t before t' after out) (one other : ThreadId) (id : EntryId)
    (hone : (update foots thread after one).made = some id)
    (hother : (update foots thread after other).made = some id) : other = one := by
  -- What is made now has a name that no entry had before.
  have hfresh : ∀ x, x ≠ thread → (foots x).made = some id → after.made = some id → x = thread := by
    intro x hx hmade hafter
    rcases hmove.made_cases hafter with hold | rfl
    · exact h.maker thread x id (hbefore ▸ hold) hmade
    · exact absurd ((h.stands x).made_lt hmade) (lt_irrefl _)
  by_cases hx : one = thread
  · subst hx
    by_cases hy : other = one
    · exact hy
    · rw [Function.update_self] at hone
      rw [Function.update_of_ne hy] at hother
      exact hfresh other hy hother hone
  · rw [Function.update_of_ne hx] at hone
    by_cases hy : other = thread
    · subst hy
      rw [Function.update_self] at hother
      exact absurd (hfresh one hx hone hother) hx
    · rw [Function.update_of_ne hy] at hother
      exact h.maker one other id hone hother

theorem departed_cases (hbefore : foots thread = before)
    (hmove : Footprint.Move thread t before t' after out)
    (hid : Departed t' (update foots thread after) (out.toList ++ freed) id) :
    Departed t foots freed id ∨
      ∃ key, t.entryOf key = some id ∧ t' = t.detach (t.placeOf key) id ∧ after.made = none := by
  have hdeparts (h : id ∈ t'.retired ∨ out = some id ∨ after.leaving = some id) :
      Departed t foots freed id ∨
        ∃ key, t.entryOf key = some id ∧ t' = t.detach (t.placeOf key) id ∧ after.made = none := by
    rcases hmove.departs_cases h with hold | hleaving | hdetached
    · exact .inl (.inl hold)
    · exact .inl (.inr (.inr ⟨thread, hbefore ▸ hleaving⟩))
    · exact .inr hdetached
  rcases hid with hid | hid | ⟨other, hid⟩
  · exact hdeparts (.inl hid)
  · rcases List.mem_append.mp hid with hnew | hold
    · exact hdeparts (.inr (.inl (Option.mem_toList.mp hnew)))
    · exact .inl (.inr (.inl hold))
  · by_cases hother : other = thread
    · subst hother
      rw [Function.update_self] at hid
      exact hdeparts (.inr (.inr hid))
    · rw [Function.update_of_ne hother] at hid
      exact .inl (.inr (.inr ⟨other, hid⟩))

theorem departed_lt_move (h : Sited t foots kept freed) (hbefore : foots thread = before)
    (hmove : Footprint.Move thread t before t' after out) (id : EntryId)
    (hid : Departed t' (update foots thread after) (out.toList ++ freed) id) :
    id < t'.entries.size := by
  refine lt_of_lt_of_le ?_ hmove.size_le
  rcases departed_cases hbefore hmove hid with hold | ⟨key, hentry, -⟩
  · exact h.departed_lt id hold
  · exact h.sound.lt_of_entryOf hentry

theorem unlinked_move (h : Sited t foots kept freed) (hbefore : foots thread = before)
    (hmove : Footprint.Move thread t before t' after out) (id : EntryId)
    (hid : Departed t' (update foots thread after) (out.toList ++ freed) id) (place : Nat) :
    id ∉ (t'.slot place).chain := by
  rcases departed_cases hbefore hmove hid with hold | ⟨key, hentry, rfl, -⟩
  · intro hmem
    rcases hmove.mem_chain h.sound hmem with hlinked | hmade
    · exact h.unlinked id hold place hlinked
    · exact h.unmade id hold thread (hbefore ▸ hmade)
  · exact h.sound.not_mem_detach hentry place

theorem unmade_move (h : Sited t foots kept freed) (hbefore : foots thread = before)
    (hmove : Footprint.Move thread t before t' after out) (id : EntryId)
    (hid : Departed t' (update foots thread after) (out.toList ++ freed) id) (other : ThreadId) :
    (update foots thread after other).made ≠ some id := by
  intro hmade
  rcases departed_cases hbefore hmove hid with hold | ⟨key, hentry, -, hnone⟩
  · by_cases hother : other = thread
    · subst hother
      rw [Function.update_self] at hmade
      rcases hmove.made_cases hmade with hbefore' | rfl
      · exact h.unmade id hold other (hbefore ▸ hbefore')
      · exact (h.departed_lt _ hold).ne rfl
    · rw [Function.update_of_ne hother] at hmade
      exact h.unmade id hold other hmade
  · by_cases hother : other = thread
    · subst hother
      rw [Function.update_self, hnone] at hmade
      contradiction
    · -- An entry that another call has made is in no chain.
      rw [Function.update_of_ne hother] at hmade
      obtain ⟨-, hloose⟩ := (h.stands other).entry_of_made hmade
      obtain ⟨hmem, -⟩ := h.sound.entryOf_eq_some_iff.mp hentry
      exact hloose _ hmem

/-- No thread refers to an entry that a move frees. -/
theorem unreferenced_free (hr : Referred t foots kept refs)
    (hmove : Footprint.Move thread t before t' after (some id)) (other : ThreadId)
    {handle : Handle} (hhandle : handle ∈ (foots other).referring (kept other)) :
    handle.id ≠ id := by
  cases hmove with
  | free hfree =>
      rintro rfl
      have hsome : (refs handle.id).length ≠ 0 :=
        List.length_eq_zero_iff.not.mpr (hr.refs.ne_nil hhandle)
      rw [(hr.pins.isReferenced_iff handle.id).mpr hsome] at hfree
      contradiction

theorem unreferenced_move (h : Sited t foots kept freed) (hr : Referred t foots kept refs)
    (hbefore : foots thread = before) (hmove : Footprint.Move thread t before t' after out)
    (id : EntryId) (hid : id ∈ out.toList ++ freed) (other : ThreadId) (handle : Handle)
    (hhandle : handle ∈ (update foots thread after other).referring (kept other)) :
    handle.id ≠ id := by
  have hearlier (hold : handle ∈ (foots other).referring (kept other)) : handle.id ≠ id := by
    rcases List.mem_append.mp hid with hnew | hfreed
    · obtain rfl := Option.mem_toList.mp hnew
      exact unreferenced_free hr hmove other hold
    · exact h.unreferenced id hfreed other handle hold
  have hdeparted : Departed t foots freed id := by
    rcases List.mem_append.mp hid with hnew | hfreed
    · obtain rfl := Option.mem_toList.mp hnew
      exact .inr (.inr ⟨thread, hbefore ▸ hmove.leaving_of_free⟩)
    · exact .inr (.inl hfreed)
  by_cases hother : other = thread
  · subst hother
    rw [Function.update_self] at hhandle
    rcases List.mem_append.mp hhandle with hcall | hkept
    · -- A call gets only entries that are linked or new, and this one is neither.
      rcases hmove.refers_cases (Option.mem_toList.mp hcall) with hold | ⟨key, hentry⟩ | hnew
      · exact hearlier (List.mem_append_left _ (Option.mem_toList.mpr (hbefore ▸ hold)))
      · rintro rfl
        obtain ⟨hmem, -⟩ := h.sound.entryOf_eq_some_iff.mp hentry
        exact h.unlinked _ hdeparted _ hmem
      · rintro rfl
        exact (h.departed_lt _ hdeparted).ne hnew
    · exact hearlier (List.mem_append_right _ hkept)
  · rw [Function.update_of_ne hother] at hhandle
    exact hearlier hhandle

/-- A move leaves entries where they were or takes them on their way out. -/
theorem move (h : Sited t foots kept freed) (hl : Locked t foots kept slots holds)
    (hr : Referred t foots kept refs) (hbefore : foots thread = before)
    (hmove : Footprint.Move thread t before t' after out) :
    Sited t' (update foots thread after) kept (out.toList ++ freed) where
  sound := hmove.sound h.sound (hbefore ▸ h.stands thread)
  stands := h.stands_move hl hbefore hmove
  maker := h.maker_move hbefore hmove
  departed_lt := h.departed_lt_move hbefore hmove
  unlinked := h.unlinked_move hbefore hmove
  unmade := h.unmade_move hbefore hmove
  unreferenced := h.unreferenced_move hr hbefore hmove

/-- A handle passes from a call to its caller, or back for its release. -/
theorem pass (h : Sited t foots kept freed) {list : List Handle} (hnotice : after.notice = .nothing)
    (hleaving : after.leaving = none)
    (hperm : (after.referring list).Perm ((foots thread).referring (kept thread))) :
    Sited t (update foots thread after) (update kept thread list) freed := by
  have hfoot : ∀ other, (update foots thread after other).notice = .nothing ∧
      (update foots thread after other).leaving = none ∨
      update foots thread after other = foots other := by
    intro other
    by_cases hother : other = thread
    · subst hother
      rw [Function.update_self]
      exact .inl ⟨hnotice, hleaving⟩
    · exact .inr (Function.update_of_ne hother ..)
  have hmade : ∀ other id, (update foots thread after other).made = some id →
      (foots other).made = some id := by
    intro other id hmade
    rcases hfoot other with ⟨hnone, -⟩ | heq
    · rw [Footprint.made, hnone] at hmade
      contradiction
    · rwa [heq] at hmade
  have hdeparted : ∀ id, Departed t (update foots thread after) freed id →
      Departed t foots freed id := by
    rintro id (hid | hid | ⟨other, hid⟩)
    · exact .inl hid
    · exact .inr (.inl hid)
    · rcases hfoot other with ⟨-, hnone⟩ | heq
      · rw [hnone] at hid
        contradiction
      · exact .inr (.inr ⟨other, heq ▸ hid⟩)
  exact
    { sound := h.sound
      stands := fun other => by
        rcases hfoot other with ⟨hnone, -⟩ | heq
        · rw [Footprint.Stands, hnone]
          trivial
        · exact heq ▸ h.stands other
      maker := fun one other id hone hother =>
        h.maker one other id (hmade one id hone) (hmade other id hother)
      departed_lt := fun id hid => h.departed_lt id (hdeparted id hid)
      unlinked := fun id hid => h.unlinked id (hdeparted id hid)
      unmade := fun id hid other hother =>
        h.unmade id (hdeparted id hid) other (hmade other id hother)
      unreferenced := fun id hid other handle hhandle =>
        h.unreferenced id hid other handle ((perm_update_foot hperm other).mem_iff.mp hhandle) }

end Sited

end KeyValueServer
