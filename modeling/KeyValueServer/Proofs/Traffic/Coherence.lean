import KeyValueServer.Proofs.Traffic.Framing

/-!
# The table between the requests

While requests are under way the table need not show what is stored for a key whose entry is being
changed, and its size lags behind its chains for a key whose entry was just taken out or put in. For
every other key it shows what is stored. The move that settles the result of a request is the moment
at which the request takes effect: the result is what the stored values yield for it right then.
-/

namespace KeyValueServer

open Function (update)

/-- The values stored after a move that settles this result of a request, or none. -/
def TableRequest.settle (request : TableRequest) (stored : Bytes → Option Bytes) :
    Option (Except Error Bytes) → Bytes → Option Bytes
  | none => stored
  | some _ => request.apply stored

/-- The key whose entry was taken out of its chain or put into it but is still to be counted, and
whether the key is counted until then. -/
def Role.pending : Role → Option (Bytes × Bool)
  | .cleared key true => some (key, true)
  | .linked key _ _ => some (key, false)
  | _ => none

namespace Table

variable {t : Table} {key other : Bytes} {id : EntryId}

theorem lookup_of_valueAt {value : Bytes} (hentry : t.entryOf key = some id)
    (hvalue : t.valueAt id = some value) : t.lookup key = some value := by
  rw [lookup_eq_bind, hentry, Option.bind_some, hvalue]

theorem Sound.eq_of_entryOf (hs : t.Sound) (h : t.entryOf key = some id)
    (h' : t.entryOf other = some id) : key = other :=
  Option.some.inj ((hs.entryOf_eq_some_iff.mp h).2.symm.trans (hs.entryOf_eq_some_iff.mp h').2)

theorem Sound.lookup_modifyEntry (hs : t.Sound) {f : Entry → Entry}
    (hs' : (t.modifyEntry id f).Sound) (hkey : ∀ e, (f e).key = e.key)
    (hentry : t.entryOf key = some id) (hne : other ≠ key) :
    (t.modifyEntry id f).lookup other = t.lookup other := by
  rw [lookup_eq_bind, lookup_eq_bind, hs.entryOf_modifyEntry hs' hkey]
  refine Option.bind_congr fun id' hid' => valueAt_modifyEntry_of_ne t ?_
  rintro rfl
  exact hne (hs.eq_of_entryOf hid' hentry)

theorem Sound.lookup_enlist (hs : t.Sound) {e : Entry} (hfits : e.size ≤ e.capacity)
    (key : Bytes) : (t.enlist e).lookup key = t.lookup key := by
  rw [lookup_eq_bind, lookup_eq_bind, hs.entryOf_enlist hfits]
  refine Option.bind_congr fun id hid => ?_
  rw [valueAt, valueAt, entryAt_enlist, if_neg (hs.lt_of_entryOf hid).ne]

end Table

namespace Stake

variable {t t' : Table} {stake before after : Stake} {thread : ThreadId} {key : Bytes}
  {request : TableRequest} {result : Option (Except Error Bytes)}

/-- The entry of a key is changed only by a thread that excludes all others, from the slot while the
key has no entry, and else from the entry. -/
theorem Stands.revises_cases (h : stake.Stands t) (hkey : stake.role.revised = some key) :
    (stake.slot = some (t.placeOf key, .exclusive) ∧ t.entryOf key = none) ∨
      ∃ id, t.entryOf key = some id ∧ stake.entry = some (id, .exclusive) := by
  obtain ⟨slot, entry, role⟩ := stake
  cases role with
  | writing =>
      obtain rfl := Option.some.inj hkey
      obtain ⟨-, hheld, hentry, -⟩ := h
      exact .inr ⟨_, hentry, hheld⟩
  | cleared =>
      obtain rfl := Option.some.inj hkey
      obtain ⟨hheld, -, hnone⟩ := h
      exact .inl ⟨hheld, hnone⟩
  | fresh =>
      obtain rfl := Option.some.inj hkey
      obtain ⟨hheld, -, hnone, -⟩ := h
      exact .inl ⟨hheld, hnone⟩
  | idle | found | linked | showing => contradiction

theorem Stands.slot_of_pending (h : stake.Stands t) {due : Bool}
    (hkey : stake.role.pending = some (key, due)) :
    stake.slot = some (t.placeOf key, .exclusive) := by
  obtain ⟨slot, entry, role⟩ := stake
  cases role with
  | cleared key' counted =>
      cases counted with
      | false => contradiction
      | true =>
          obtain rfl := congrArg Prod.fst (Option.some.inj hkey)
          exact h.1
  | linked =>
      obtain rfl := congrArg Prod.fst (Option.some.inj hkey)
      exact h.1
  | idle | found | writing | fresh | showing => contradiction

/-! ## What a move changes -/

/-- A key that is changed neither before nor after a move keeps its value. -/
theorem Move.lookup_eq (hmove : Move thread request t before t' after result) (hs : t.Sound)
    (hstands : before.Stands t) (hbefore : before.role.revised ≠ some key)
    (hafter : after.role.revised ≠ some key) : t'.lookup key = t.lookup key := by
  have hs' := hmove.sound hs hstands
  cases hmove with
  | stay halike | find halike => exact Table.lookup_eq halike.contents key
  | enterSlot henter => exact Table.lookup_eq (Table.contents_enterSlot henter) key
  | leaveSlot | partFromSlot => exact Table.lookup_eq (Table.contents_leaveSlot _ _ _ _) key
  | leaveEntry => exact Table.lookup_eq (Table.contents_leaveEntry _ _ _ _) key
  | take henter | grip henter => exact Table.lookup_eq (Table.contents_enterEntry henter) key
  | miss | clear | countDown | countUp => rfl
  | write | resize =>
      obtain ⟨-, -, hentry, -⟩ := hstands
      refine hs.lookup_modifyEntry hs' (fun _ => rfl) hentry ?_
      rintro rfl
      exact hbefore rfl
  | detach hentry =>
      rw [Table.lookup_eq_bind, hs.entryOf_detach hentry, if_neg, Table.lookup_eq_bind]
      · rfl
      · rintro rfl
        exact hafter rfl
  | adopt =>
      exact (Table.lookup_eq (Table.contents_adopt_eq _ _ _ _) key).trans
        (hs.lookup_enlist le_rfl key)
  | attach =>
      obtain ⟨-, -, hnone, hloose, -⟩ := hstands
      rw [Table.lookup_eq_bind, hs.entryOf_attach hnone hloose, if_neg, Table.lookup_eq_bind]
      · rfl
      · rintro rfl
        exact hbefore rfl

/-- A change of the entry of a key ends with a move that settles the request to store a value for
it, and the table shows this value then. -/
theorem Move.settles_of_revised (hmove : Move thread request t before t' after result)
    (hs : t.Sound) (hstands : before.Stands t) (hbefore : before.role.revised = some key)
    (hafter : after.role.revised ≠ some key) :
    ∃ value, request = .set key value ∧ result = some (.ok value) ∧
      t'.lookup key = some value := by
  have hs' := hmove.sound hs hstands
  have hstands' := hmove.stands hs hstands
  cases hmove with
  | stay | partFromSlot | countDown | adopt | write => contradiction
  | enterSlot | leaveSlot | find | miss | take | grip | clear | detach | countUp | leaveEntry =>
      contradiction
  | resize =>
      obtain rfl := Option.some.inj hbefore
      obtain ⟨-, -, hentry, -⟩ := hstands
      obtain ⟨-, hvalue⟩ := hstands'
      refine ⟨_, rfl, rfl, Table.lookup_of_valueAt ?_ hvalue⟩
      rw [hs.entryOf_modifyEntry hs' fun _ => rfl, hentry]
  | attach =>
      obtain rfl := Option.some.inj hbefore
      obtain ⟨-, -, hentry, hvalue⟩ := hstands'
      exact ⟨_, rfl, rfl, Table.lookup_of_valueAt hentry hvalue⟩

/-- Only a thread that changes the entry of a key stores a value for it. -/
theorem Move.settle_eq (hmove : Move thread request t before t' after result)
    (stored : Bytes → Option Bytes) (hbefore : before.role.revised ≠ some key) :
    request.settle stored result key = stored key := by
  cases hmove with
  | resize | attach =>
      refine Function.update_of_ne ?_ _ _
      rintro rfl
      exact hbefore rfl
  | _ => rfl

/-- Only a key whose entry is still to be counted can have got an entry or lost it. -/
theorem Move.entryOf_eq (hmove : Move thread request t before t' after result) (hs : t.Sound)
    (hstands : before.Stands t) (hafter : ∀ due, after.role.pending ≠ some (key, due)) :
    t'.entryOf key = t.entryOf key := by
  have hs' := hmove.sound hs hstands
  cases hmove with
  | stay halike | find halike => exact Table.entryOf_eq halike.contents key
  | enterSlot henter => exact Table.entryOf_eq (Table.contents_enterSlot henter) key
  | leaveSlot | partFromSlot => exact Table.entryOf_eq (Table.contents_leaveSlot _ _ _ _) key
  | leaveEntry => exact Table.entryOf_eq (Table.contents_leaveEntry _ _ _ _) key
  | take henter | grip henter => exact Table.entryOf_eq (Table.contents_enterEntry henter) key
  | miss | clear | countDown | countUp => rfl
  | write | resize =>
      exact hs.entryOf_modifyEntry hs' (fun _ => rfl) key
  | detach hentry =>
      rw [hs.entryOf_detach hentry, if_neg]
      rintro rfl
      exact hafter _ rfl
  | adopt =>
      exact (Table.entryOf_eq (Table.contents_adopt_eq _ _ _ _) key).trans
        (hs.entryOf_enlist le_rfl key)
  | attach =>
      obtain ⟨-, -, hnone, hloose, -⟩ := hstands
      rw [hs.entryOf_attach hnone hloose, if_neg]
      rintro rfl
      exact hafter _ rfl

end Stake

/-! ## Counting -/

/-- The size of a table is the number of the keys that are counted: those that have an entry, but
for the keys whose entries are still to be counted. -/
structure Counts (t : Table) (stakes : ThreadId → Stake) (counted : Finset Bytes) : Prop where
  size : t.size = counted.card
  pending : ∀ thread key due, (stakes thread).role.pending = some (key, due) →
    (key ∈ counted ↔ due = true)
  settled : ∀ key, (∀ thread due, (stakes thread).role.pending ≠ some (key, due)) →
    (key ∈ counted ↔ (t.entryOf key).isSome = true)

namespace Counts

variable {t t' : Table} {stakes : ThreadId → Stake} {counted counted' : Finset Bytes}
  {thread : ThreadId} {before after : Stake} {key : Bytes}

theorem keep (h : Counts t stakes counted) (hbefore : stakes thread = before)
    (hsize : t'.size = t.size) (hpending : after.role.pending = before.role.pending)
    (hentry : ∀ key, (∀ due, after.role.pending ≠ some (key, due)) →
      t'.entryOf key = t.entryOf key) :
    Counts t' (update stakes thread after) counted := by
  have hsame : ∀ other, (update stakes thread after other).role.pending =
      (stakes other).role.pending := by
    intro other
    by_cases hother : other = thread
    · rw [hother, Function.update_self, hpending, hbefore]
    · rw [Function.update_of_ne hother]
  refine ⟨hsize.trans h.size, fun other key due => ?_, fun key hnone => ?_⟩
  · rw [hsame]
    exact h.pending other key due
  · have hafter := hnone thread
    rw [Function.update_self] at hafter
    rw [hentry key hafter]
    exact h.settled key fun other due => by rw [← hsame]; exact hnone other due

/-- A thread that has the only say on a key can take its count on. -/
theorem turn (h : Counts t stakes counted) (hbefore : stakes thread = before)
    (hsize : t'.size = counted'.card) (due due' : Option Bool)
    (hpending : before.role.pending = due.map (Prod.mk key))
    (hpending' : after.role.pending = due'.map (Prod.mk key))
    (hsole : ∀ other ≠ thread, ∀ due, (stakes other).role.pending ≠ some (key, due))
    (hentry : ∀ other, (∀ due, after.role.pending ≠ some (other, due)) →
      t'.entryOf other = t.entryOf other)
    (hothers : ∀ other ≠ key, (other ∈ counted' ↔ other ∈ counted))
    (hkey : key ∈ counted' ↔ due'.getD (t'.entryOf key).isSome = true) :
    Counts t' (update stakes thread after) counted' := by
  refine ⟨hsize, fun other key' due hdue => ?_, fun key' hnone => ?_⟩
  · by_cases hother : other = thread
    · rw [hother, Function.update_self, hpending'] at hdue
      obtain ⟨_, rfl, hpair⟩ := Option.map_eq_some_iff.mp hdue
      obtain ⟨rfl, rfl⟩ := Prod.mk.inj hpair
      exact hkey
    · rw [Function.update_of_ne hother] at hdue
      have hne : key' ≠ key := by
        rintro rfl
        exact hsole other hother due hdue
      rw [hothers key' hne]
      exact h.pending other key' due hdue
  · have hafter := hnone thread
    rw [Function.update_self] at hafter
    -- For another key nothing was pending before, either: the thread was busy with its own.
    by_cases hsame : key' = key
    · subst hsame
      cases due' with
      | none => exact hkey
      | some due => exact absurd hpending' (hafter due)
    · rw [hothers key' hsame, hentry key' hafter]
      refine h.settled key' fun other due hdue => ?_
      by_cases hother : other = thread
      · rw [hother, hbefore, hpending] at hdue
        obtain ⟨_, -, hpair⟩ := Option.map_eq_some_iff.mp hdue
        exact hsame (Prod.mk.inj hpair).1.symm
      · exact hnone other due (by rw [Function.update_of_ne hother, hdue])

/-- Where nothing is pending for a key it is counted just if it has an entry. -/
theorem mem_iff_of_sole (h : Counts t stakes counted)
    (hsole : ∀ other ≠ thread, ∀ due, (stakes other).role.pending ≠ some (key, due))
    (hown : (stakes thread).role.pending = none) :
    key ∈ counted ↔ (t.entryOf key).isSome = true := by
  refine h.settled key fun other due hdue => ?_
  by_cases hother : other = thread
  · rw [hother, hown] at hdue
    contradiction
  · exact hsole other hother due hdue

end Counts

/-! ## Coherence -/

/-- The table agrees with the stakes of the threads, the values stored and the keys counted. -/
structure Coherent (t : Table) (stakes : ThreadId → Stake) (stored : Bytes → Option Bytes)
    (counted : Finset Bytes) : Prop where
  ledger : ∃ slots holds, Ledger t stakes slots holds
  sound : t.Sound
  stands : ∀ thread, (stakes thread).Stands t
  shows : ∀ key, (∀ thread, (stakes thread).role.revised ≠ some key) → t.lookup key = stored key
  counts : Counts t stakes counted

namespace Coherent

variable {t t' : Table} {stakes : ThreadId → Stake} {stored : Bytes → Option Bytes}
  {counted : Finset Bytes} {thread other : ThreadId} {before after : Stake} {key : Bytes}
  {place : Nat} {id : EntryId} {mode : LockMode} {request : TableRequest}
  {result : Option (Except Error Bytes)}

theorem eq_of_slot (h : Coherent t stakes stored counted)
    (hheld : (stakes thread).slot = some (place, .exclusive))
    (hother : (stakes other).slot = some (place, mode)) : other = thread := by
  obtain ⟨slots, holds, hledger⟩ := h.ledger
  exact hledger.eq_of_slot hheld hother

theorem eq_of_entry (h : Coherent t stakes stored counted)
    (hheld : (stakes thread).entry = some (id, .exclusive))
    (hother : (stakes other).entry = some (id, mode)) : other = thread := by
  obtain ⟨slots, holds, hledger⟩ := h.ledger
  exact hledger.eq_of_entry hheld hother

theorem sole (h : Coherent t stakes stored counted)
    (hheld : (stakes thread).slot = some (t.placeOf key, .exclusive)) :
    ∀ other ≠ thread, ∀ due, (stakes other).role.pending ≠ some (key, due) :=
  fun other hother _ hdue => hother (h.eq_of_slot hheld ((h.stands other).slot_of_pending hdue))

/-- A thread that holds the slot of a key, and whose key's entry no other thread holds exclusively,
sees what is stored for this key. -/
theorem lookup_of_slot (h : Coherent t stakes stored counted)
    (hheld : (stakes thread).slot = some (t.placeOf key, mode))
    (hown : (stakes thread).role.revised ≠ some key)
    (hfree : ∀ other ≠ thread, ∀ id, t.entryOf key = some id →
      (stakes other).entry ≠ some (id, .exclusive)) : t.lookup key = stored key := by
  refine h.shows key fun other hrevised => ?_
  by_cases hother : other = thread
  · exact hown (hother ▸ hrevised)
  · rcases (h.stands other).revises_cases hrevised with ⟨hslot, -⟩ | ⟨id, hentry, hexclusive⟩
    · exact hother (h.eq_of_slot hslot hheld).symm
    · exact hfree other hother id hentry hexclusive

/-- The result that a move settles is what the stored values yield for the request. -/
theorem answer_of_move (h : Coherent t stakes stored counted) (hthread : thread ≠ 0)
    (hbefore : stakes thread = before) {r : Except Error Bytes}
    (hmove : Stake.Move thread request t before t' after (some r)) :
    r = request.answer stored := by
  have hstands := h.stands thread
  rw [hbefore] at hstands
  obtain ⟨slots, holds, hledger⟩ := h.ledger
  obtain ⟨slots', holds', hledger'⟩ := hledger.exists_move hthread h.sound hbefore hmove
  -- Right after the move both threads would hold the entry.
  have hapart : ∀ other ≠ thread, ∀ id mode, after.entry = some (id, mode) →
      (stakes other).entry ≠ some (id, .exclusive) := by
    intro other hother id mode hmine hexclusive
    rw [← Function.update_self thread after stakes] at hmine
    rw [← Function.update_of_ne hother after stakes] at hexclusive
    exact hother (hledger'.eq_of_entry hexclusive hmine).symm
  cases hmove with
  | @miss _ key mode hnone =>
      have hlookup : t.lookup key = stored key := by
        refine h.lookup_of_slot (by rw [hbefore]) (by simp [hbefore, Role.revised]) ?_
        intro other _ id hentry
        rw [hnone] at hentry
        contradiction
      -- No value is shown, so none is stored.
      rw [h.sound.lookup_eq_none_iff.mpr hnone] at hlookup
      rw [TableRequest.answer, ← hlookup]
  | @take _ _ key value mode id length henter hvalue =>
      obtain ⟨-, -, hentry, -⟩ := hstands
      have hlookup : t.lookup key = stored key := by
        refine h.lookup_of_slot (by rw [hbefore]) (by simp [hbefore, Role.revised]) ?_
        intro other hother id' hentry'
        obtain rfl := Option.some.inj (hentry.symm.trans hentry')
        exact hapart other hother id .shared rfl
      rw [Table.lookup_of_valueAt hentry hvalue] at hlookup
      rw [TableRequest.answer, ← hlookup]
  | resize | attach => rfl

/-- A move takes the counted keys on. -/
theorem exists_counts (h : Coherent t stakes stored counted) (hbefore : stakes thread = before)
    (hmove : Stake.Move thread request t before t' after result) :
    ∃ counted', Counts t' (update stakes thread after) counted' := by
  have hstands := h.stands thread
  rw [hbefore] at hstands
  have hstands' := hmove.stands h.sound hstands
  have hentry : ∀ key, (∀ due, after.role.pending ≠ some (key, due)) →
      t'.entryOf key = t.entryOf key := fun key => hmove.entryOf_eq h.sound hstands
  cases hmove with
  | stay halike | find halike =>
      exact ⟨_, h.counts.keep hbefore (Table.size_eq halike.contents) rfl hentry⟩
  | enterSlot henter =>
      exact ⟨_, h.counts.keep hbefore (Table.size_eq (Table.contents_enterSlot henter)) rfl hentry⟩
  | leaveSlot | partFromSlot =>
      exact ⟨_, h.counts.keep hbefore (Table.size_eq (Table.contents_leaveSlot _ _ _ _)) rfl hentry⟩
  | leaveEntry =>
      exact ⟨_, h.counts.keep hbefore (Table.size_eq (Table.contents_leaveEntry _ _ _ _)) rfl
        hentry⟩
  | take henter | grip henter =>
      exact ⟨_, h.counts.keep hbefore (Table.size_eq (Table.contents_enterEntry henter)) rfl hentry⟩
  | miss | clear | write | resize | adopt => exact ⟨_, h.counts.keep hbefore rfl rfl hentry⟩
  | @detach _ _ key id hfound =>
      have hheld : (stakes thread).slot = some (t.placeOf key, .exclusive) := by rw [hbefore]
      have hsole := h.sole hheld
      have hmem := h.counts.mem_iff_of_sole hsole (by rw [hbefore]; rfl)
      rw [hfound] at hmem
      exact ⟨counted, h.counts.turn hbefore h.counts.size none (some true) rfl rfl hsole hentry
        (fun _ _ => Iff.rfl) hmem⟩
  | @countDown _ _ slot entry key =>
      obtain ⟨rfl, -, hnone⟩ := hstands
      have hsole := h.sole (by rw [hbefore])
      have hmem : key ∈ counted := (h.counts.pending thread key true (by rw [hbefore]; rfl)).mpr rfl
      refine ⟨counted.erase key, h.counts.turn hbefore ?_ (some true) none rfl rfl hsole hentry
        (fun other hother => ?_) ?_⟩
      · rw [Finset.card_erase_of_mem hmem, ← h.counts.size]
        rfl
      · rw [Finset.mem_erase, and_iff_right hother]
      · have hnone' : t.countDown.entryOf key = none := hnone
        simp [hnone']
  | @attach _ slot entry key value id =>
      obtain ⟨rfl, -, hnone, -⟩ := hstands
      have hsole := h.sole (by rw [hbefore])
      have hmem := h.counts.mem_iff_of_sole hsole (by rw [hbefore]; rfl)
      rw [hnone] at hmem
      exact ⟨counted, h.counts.turn hbefore h.counts.size none (some false) rfl rfl hsole hentry
        (fun _ _ => Iff.rfl) hmem⟩
  | @countUp _ _ slot entry key value id =>
      obtain ⟨rfl, -, hfound, -⟩ := hstands
      have hsole := h.sole (by rw [hbefore])
      have hmem : key ∉ counted := by
        rw [h.counts.pending thread key false (by rw [hbefore]; rfl)]
        exact Bool.false_ne_true
      refine ⟨insert key counted, h.counts.turn hbefore ?_ (some false) none rfl rfl hsole hentry
        (fun other hother => ?_) ?_⟩
      · rw [Finset.card_insert_of_notMem hmem, ← h.counts.size]
        rfl
      · rw [Finset.mem_insert, or_iff_right hother]
      · have hfound' : t.countUp.entryOf key = some id := hfound
        simp [hfound']

/-- A move leaves the table coherent. If it settles a result, the request takes effect. -/
theorem exists_move (h : Coherent t stakes stored counted) (hthread : thread ≠ 0)
    (hbefore : stakes thread = before)
    (hmove : Stake.Move thread request t before t' after result) :
    ∃ counted',
      Coherent t' (update stakes thread after) (request.settle stored result) counted' := by
  have hstands := h.stands thread
  rw [hbefore] at hstands
  have hs' := hmove.sound h.sound hstands
  have hspares := hmove.spares h.sound hstands
  obtain ⟨slots, holds, hledger⟩ := h.ledger
  obtain ⟨counted', hcounts⟩ := h.exists_counts hbefore hmove
  refine ⟨counted', hledger.exists_move hthread h.sound hbefore hmove, hs', fun other => ?_,
    fun key hkey => ?_, hcounts⟩
  · by_cases hother : other = thread
    · rw [hother, Function.update_self]
      exact hmove.stands h.sound hstands
    · rw [Function.update_of_ne hother]
      refine (h.stands other).frame h.sound hs' hspares ?_ ?_
      · intro place mode hplace hheld
        exact hother (h.eq_of_slot (by rw [hbefore, hheld]) hplace)
      · intro id mode hid hheld
        exact hother (h.eq_of_entry (by rw [hbefore, hheld]) hid)
  -- An entry that is not being changed any more shows the value that has just been stored.
  · have hafter : after.role.revised ≠ some key := by
      simpa only [Function.update_self] using hkey thread
    by_cases hrevised : before.role.revised = some key
    · obtain ⟨value, rfl, rfl, hlookup⟩ :=
        hmove.settles_of_revised h.sound hstands hrevised hafter
      rw [hlookup]
      exact (Function.update_self key (some value) stored).symm
    · have hkey' : ∀ other, (stakes other).role.revised ≠ some key := by
        intro other
        by_cases hother : other = thread
        · rwa [hother, hbefore]
        · simpa only [Function.update_of_ne hother] using hkey other
      rw [hmove.lookup_eq h.sound hstands hrevised hafter, h.shows key hkey']
      exact (hmove.settle_eq stored hrevised).symm

end Coherent

end KeyValueServer
