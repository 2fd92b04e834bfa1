import KeyValueServer.Proofs.Store.Chains
import KeyValueServer.Proofs.Store.Holds
import KeyValueServer.Proofs.Traffic.Workload

/-!
# What a thread has at stake

Of all that a thread does about a request only a little matters to the other threads: which slot and
which entry it holds, and what it is about to do to the entry of its key or has found in it. This is
its stake. The many steps of the calls are only a few moves of stakes. Some of the moves settle the
result of the request: these are the moments at which it takes effect.
-/

namespace KeyValueServer

/-- What a thread is about to do to the entry of a key, or what it has found. -/
inductive Role where
  | idle
  /-- The entry of the key was found, and a value of this length fits it. -/
  | found (key : Bytes) (id : EntryId) (length : Nat)
  /-- So many bytes of the value are written over the entry. -/
  | writing (key value : Bytes) (id : EntryId) (count : Nat)
  /-- The key has no entry; the one that it had may still be counted. -/
  | cleared (key : Bytes) (counted : Bool)
  /-- An entry was made for the key and is not linked yet. -/
  | fresh (key value : Bytes) (id : EntryId)
  /-- The new entry was linked but is not counted yet. -/
  | linked (key value : Bytes) (id : EntryId)
  /-- The value in the entry stays what it is as long as the entry is held. -/
  | showing (id : EntryId) (value : Bytes)

/-- The holds of a thread on a slot and on an entry, and its role. -/
structure Stake where
  slot : Option (Nat × LockMode)
  entry : Option (EntryId × LockMode)
  role : Role

/-- The stake of a thread that holds nothing. -/
def Stake.idle : Stake := ⟨none, none, .idle⟩

/-- The stake of a thread that holds a slot and has found nothing in it yet. -/
abbrev Stake.browsing (place : Nat) (mode : LockMode) : Stake := ⟨some (place, mode), none, .idle⟩

/-- The stake of a thread that holds nothing but an entry, through a handle. -/
abbrev Stake.holding (handle : Handle) (value : Bytes) : Stake :=
  ⟨none, some (handle.id, handle.mode), .showing handle.id value⟩

/-- The tables differ at most in who refers to the entries and in the retired ones. -/
structure Table.Alike (t t' : Table) : Prop where
  contents : t'.contents = t.contents
  shows : ∀ {slots : Nat → List Hold} {holds : EntryId → List Hold},
    t.Shows slots holds → t'.Shows slots holds

namespace Table.Alike

variable {t : Table}

theorem refl (t : Table) : t.Alike t := ⟨rfl, id⟩

theorem retain (t : Table) (id : EntryId) : t.Alike (t.retain id) :=
  ⟨t.contents_retain id, fun h => h.retain id⟩

theorem forget (t : Table) (id : EntryId) : t.Alike (t.forget id) :=
  ⟨t.contents_forget id, fun h => h.forget id⟩

theorem retired (t : Table) (retired : List EntryId) : t.Alike { t with retired } :=
  ⟨rfl, fun h => ⟨h.slot, h.entry, h.made⟩⟩

end Table.Alike

/-- A thread takes its request on by one move, which may settle the result. -/
inductive Stake.Move (thread : ThreadId) :
    TableRequest → Table → Stake → Table → Stake → Option (Except Error Bytes) → Prop
  | stay {request : TableRequest} {t t' : Table} {stake : Stake} (h : t.Alike t') :
      Move thread request t stake t' stake none
  | enterSlot {request : TableRequest} {t t' : Table} {key : Bytes} {mode : LockMode}
      (h : t.enterSlot thread mode (t.placeOf key) = some t') :
      Move thread request t .idle t' (.browsing (t.placeOf key) mode) none
  | leaveSlot {request : TableRequest} {t : Table} {place : Nat} {mode : LockMode} :
      Move thread request t (.browsing place mode) (t.leaveSlot thread mode place) .idle none
  | partFromSlot {request : TableRequest} {t : Table} {place : Nat} {mode : LockMode}
      {entry : Option (EntryId × LockMode)} {id : EntryId} {value : Bytes} :
      Move thread request t ⟨some (place, mode), entry, .showing id value⟩
        (t.leaveSlot thread mode place) ⟨none, entry, .showing id value⟩ none
  | find {request : TableRequest} {t t' : Table} {key : Bytes} {mode : LockMode} {id : EntryId}
      {length : Nat} (h : t.Alike t') (hentry : t.entryOf key = some id)
      (hfits : length ≤ t.capacityOf id) :
      Move thread request t (.browsing (t.placeOf key) mode) t'
        ⟨some (t.placeOf key, mode), none, .found key id length⟩ none
  | miss {t : Table} {key : Bytes} {mode : LockMode} (hentry : t.entryOf key = none) :
      Move thread (.get key) t (.browsing (t.placeOf key) mode) t
        (.browsing (t.placeOf key) mode) (some (.error .notFound))
  | take {t t' : Table} {key value : Bytes} {mode : LockMode} {id : EntryId} {length : Nat}
      (h : t.enterEntry thread .shared id = some t') (hvalue : t.valueAt id = some value) :
      Move thread (.get key) t ⟨some (t.placeOf key, mode), none, .found key id length⟩ t'
        ⟨some (t.placeOf key, mode), some (id, .shared), .showing id value⟩ (some (.ok value))
  | grip {request : TableRequest} {t t' : Table} {key value : Bytes} {mode : LockMode}
      {id : EntryId} (h : t.enterEntry thread .exclusive id = some t') :
      Move thread request t ⟨some (t.placeOf key, mode), none, .found key id value.length⟩ t'
        ⟨some (t.placeOf key, mode), some (id, .exclusive), .writing key value id 0⟩ none
  | write {request : TableRequest} {t : Table} {slot : Option (Nat × LockMode)}
      {entry : Option (EntryId × LockMode)} {key value : Bytes} {id : EntryId} {count : Nat}
      {byte : UInt8} (h : value[count]? = some byte) :
      Move thread request t ⟨slot, entry, .writing key value id count⟩
        (t.modifyEntry id fun e => e.writeByte count byte)
        ⟨slot, entry, .writing key value id (count + 1)⟩ none
  | resize {t : Table} {slot : Option (Nat × LockMode)} {entry : Option (EntryId × LockMode)}
      {key value : Bytes} {id : EntryId} :
      Move thread (.set key value) t ⟨slot, entry, .writing key value id value.length⟩
        (t.modifyEntry id fun e => e.resize value.length) ⟨slot, entry, .showing id value⟩
        (some (.ok value))
  | clear {request : TableRequest} {t : Table} {key : Bytes} (hentry : t.entryOf key = none) :
      Move thread request t (.browsing (t.placeOf key) .exclusive) t
        ⟨some (t.placeOf key, .exclusive), none, .cleared key false⟩ none
  | detach {request : TableRequest} {t : Table} {key : Bytes} {id : EntryId}
      (hentry : t.entryOf key = some id) :
      Move thread request t (.browsing (t.placeOf key) .exclusive)
        (t.detach (t.placeOf key) id) ⟨some (t.placeOf key, .exclusive), none, .cleared key true⟩
        none
  | countDown {request : TableRequest} {t : Table} {slot : Option (Nat × LockMode)}
      {entry : Option (EntryId × LockMode)} {key : Bytes} :
      Move thread request t ⟨slot, entry, .cleared key true⟩ t.countDown
        ⟨slot, entry, .cleared key false⟩ none
  | adopt {request : TableRequest} {t : Table} {slot : Option (Nat × LockMode)}
      {key value : Bytes} :
      Move thread request t ⟨slot, none, .cleared key false⟩
        (t.adopt thread .exclusive (.new (t.hash key) key value))
        ⟨slot, some (t.entries.size, .exclusive), .fresh key value t.entries.size⟩ none
  | attach {t : Table} {slot : Option (Nat × LockMode)} {entry : Option (EntryId × LockMode)}
      {key value : Bytes} {id : EntryId} :
      Move thread (.set key value) t ⟨slot, entry, .fresh key value id⟩
        (t.attach (t.placeOf key) id) ⟨slot, entry, .linked key value id⟩ (some (.ok value))
  | countUp {request : TableRequest} {t : Table} {slot : Option (Nat × LockMode)}
      {entry : Option (EntryId × LockMode)} {key value : Bytes} {id : EntryId} :
      Move thread request t ⟨slot, entry, .linked key value id⟩ t.countUp
        ⟨slot, entry, .showing id value⟩ none
  | leaveEntry {request : TableRequest} {t : Table} {mode : LockMode} {id : EntryId}
      {value : Bytes} :
      Move thread request t ⟨none, some (id, mode), .showing id value⟩
        (t.leaveEntry thread mode id).2 .idle none

/-- What a stake says about a table is true, and the role has the holds that it needs. -/
def Stake.Stands (t : Table) (stake : Stake) : Prop :=
  match stake.role with
  | .idle => stake.entry = none
  | .found key id length =>
      (∃ mode, stake.slot = some (t.placeOf key, mode)) ∧ stake.entry = none ∧
        t.entryOf key = some id ∧ length ≤ t.capacityOf id
  | .writing key value id count =>
      (∃ mode, stake.slot = some (t.placeOf key, mode)) ∧ stake.entry = some (id, .exclusive) ∧
        t.entryOf key = some id ∧ value.length ≤ t.capacityOf id ∧ count ≤ value.length ∧
        ∀ e, t.entryAt id = some e → e.storage.take count = value.take count
  | .cleared key _ =>
      stake.slot = some (t.placeOf key, .exclusive) ∧ stake.entry = none ∧ t.entryOf key = none
  | .fresh key value id =>
      stake.slot = some (t.placeOf key, .exclusive) ∧ stake.entry = some (id, .exclusive) ∧
        t.entryOf key = none ∧ t.IsLoose key id ∧ t.valueAt id = some value
  | .linked key value id =>
      stake.slot = some (t.placeOf key, .exclusive) ∧ stake.entry = some (id, .exclusive) ∧
        t.entryOf key = some id ∧ t.valueAt id = some value
  | .showing id value => (∃ mode, stake.entry = some (id, mode)) ∧ t.valueAt id = some value

/-- A thread that has come so far with a request has this stake and, once its result is settled,
this result. Keys belong to these places. -/
inductive HasStake (place : Bytes → Nat) :
    TableRequest → JobStage → TableCall → Stake → Option (Except Error Bytes) → Prop
  -- finding an entry
  | seeking {key : Bytes} : HasStake place (.get key) .calling (.seeking key .shared) .idle none
  | searching {key : Bytes} : HasStake place (.get key) .calling (.searching key .shared)
      (.browsing (place key) .shared) none
  | taking {key : Bytes} {id : EntryId} :
      HasStake place (.get key) .calling (.taking (place key) id .shared)
        ⟨some (place key, .shared), none, .found key id 0⟩ none
  | missing {key : Bytes} :
      HasStake place (.get key) .calling (.parting (place key) .shared (.error .notFound))
        (.browsing (place key) .shared) (some (.error .notFound))
  | missed {key : Bytes} :
      HasStake place (.get key) .calling (.finished (.handle (.error .notFound))) .idle
        (some (.error .notFound))
  -- storing a value
  | approaching {key value : Bytes} : HasStake place (.set key value) .calling
      (.approaching ⟨key, value, .exclusive⟩) .idle none
  | probing {key value : Bytes} : HasStake place (.set key value) .calling
      (.probing ⟨key, value, .exclusive⟩) (.browsing (place key) .shared) none
  | withdrawing {key value : Bytes} : HasStake place (.set key value) .calling
      (.withdrawing ⟨key, value, .exclusive⟩) (.browsing (place key) .shared) none
  | claiming {key value : Bytes} : HasStake place (.set key value) .calling
      (.claiming ⟨key, value, .exclusive⟩) .idle none
  | inspecting {key value : Bytes} : HasStake place (.set key value) .calling
      (.inspecting ⟨key, value, .exclusive⟩) (.browsing (place key) .exclusive) none
  | discounting {key value : Bytes} {id : EntryId} : HasStake place (.set key value) .calling
      (.discounting id ⟨key, value, .exclusive⟩)
      ⟨some (place key, .exclusive), none, .cleared key true⟩ none
  | retiring {key value : Bytes} {id : EntryId} : HasStake place (.set key value) .calling
      (.retiring id ⟨key, value, .exclusive⟩)
      ⟨some (place key, .exclusive), none, .cleared key false⟩ none
  | making {key value : Bytes} : HasStake place (.set key value) .calling
      (.making ⟨key, value, .exclusive⟩)
      ⟨some (place key, .exclusive), none, .cleared key false⟩ none
  | linking {key value : Bytes} {id : EntryId} : HasStake place (.set key value) .calling
      (.linking id ⟨key, value, .exclusive⟩)
      ⟨some (place key, .exclusive), some (id, .exclusive), .fresh key value id⟩ none
  | counting {key value : Bytes} {id : EntryId} : HasStake place (.set key value) .calling
      (.counting id ⟨key, value, .exclusive⟩)
      ⟨some (place key, .exclusive), some (id, .exclusive), .linked key value id⟩ (some (.ok value))
  | publishing {key value : Bytes} {id : EntryId} : HasStake place (.set key value) .calling
      (.publishing id ⟨key, value, .exclusive⟩)
      ⟨some (place key, .exclusive), some (id, .exclusive), .showing id value⟩ (some (.ok value))
  | locking {key value : Bytes} {id : EntryId} {mode : LockMode} :
      HasStake place (.set key value) .calling
        (.overwriting mode id ⟨key, value, .exclusive⟩ .locking)
        ⟨some (place key, mode), none, .found key id value.length⟩ none
  | copying {key value : Bytes} {id : EntryId} {mode : LockMode} {count : Nat} :
      HasStake place (.set key value) .calling
        (.overwriting mode id ⟨key, value, .exclusive⟩ (.copying count))
        ⟨some (place key, mode), some (id, .exclusive), .writing key value id count⟩ none
  | sizing {key value : Bytes} {id : EntryId} {mode : LockMode} :
      HasStake place (.set key value) .calling
        (.overwriting mode id ⟨key, value, .exclusive⟩ .sizing)
        ⟨some (place key, mode), some (id, .exclusive), .writing key value id value.length⟩ none
  -- holding an entry
  | parting {request : TableRequest} {slotPlace : Nat} {mode : LockMode} {handle : Handle}
      {value : Bytes} :
      HasStake place request .calling (.parting slotPlace mode (.ok handle))
        ⟨some (slotPlace, mode), some (handle.id, handle.mode), .showing handle.id value⟩
        (some (.ok value))
  | weighing {request : TableRequest} {handle : Handle} {value : Bytes} :
      HasStake place request .calling (.weighing handle)
        (.holding handle value) (some (.ok value))
  | reclaiming {request : TableRequest} {handle : Handle} {value : Bytes} {rounds freed : Nat} :
      HasStake place request .calling (.reclaiming rounds freed (some handle))
        (.holding handle value) (some (.ok value))
  | judging {request : TableRequest} {handle : Handle} {value : Bytes} {id : EntryId}
      {rounds freed : Nat} :
      HasStake place request .calling (.judging id rounds freed (some handle))
        (.holding handle value) (some (.ok value))
  | held {request : TableRequest} {handle : Handle} {value : Bytes} :
      HasStake place request .calling (.finished (.handle (.ok handle)))
        (.holding handle value) (some (.ok value))
  | measuring {request : TableRequest} {handle : Handle} {value : Bytes} :
      HasStake place request (.reading handle) (.measuring handle)
        (.holding handle value) (some (.ok value))
  | reading {request : TableRequest} {handle : Handle} {value copied : Bytes}
      (hcopied : copied <+: value) :
      HasStake place request (.reading handle) (.reading handle value.length copied)
        (.holding handle value) (some (.ok value))
  | read {request : TableRequest} {handle : Handle} {value : Bytes} :
      HasStake place request (.reading handle) (.finished (.value value))
        (.holding handle value) (some (.ok value))
  -- releasing it
  | releasing {request : TableRequest} {handle : Handle} {value : Bytes} :
      HasStake place request (.leaving value) (.releasing handle)
        (.holding handle value) (some (.ok value))
  | forgetting {request : TableRequest} {handle : Handle} {value : Bytes} :
      HasStake place request (.leaving value) (.forgetting handle (.ok ())) .idle (some (.ok value))
  | released {request : TableRequest} {value : Bytes} :
      HasStake place request (.leaving value) (.finished (.released (.ok ()))) .idle
        (some (.ok value))

/-! ## Every step is a move -/

theorem Entry.allocate_unlimited (hash : UInt64) (key value : Bytes) :
    Entry.allocate unlimited hash key value = .ok (.new hash key value) := rfl

theorem Table.entryOf_of_findFitting? {t : Table} {key : Bytes} {id : EntryId} {length : Nat}
    (h : t.findFitting? (t.placeOf key) key length = some id) :
    t.entryOf key = some id ∧ length ≤ t.capacityOf id := by
  obtain ⟨hfind, hfits⟩ := Option.filter_eq_some_iff.mp h
  exact ⟨hfind, by simpa using hfits⟩

theorem Table.Sound.length_value {t : Table} {id : EntryId} {e : Entry} (hs : t.Sound)
    (he : t.entryAt id = some e) : e.value.length = e.size := by
  rw [Entry.value, List.length_take]
  exact min_eq_left (hs.fits id e he)

namespace HasStake

variable {s s' : Traffic} {thread : ThreadId} {request : TableRequest} {stage : JobStage}
  {stake : Stake} {settled : Option (Except Error Bytes)}

/-- A step of a call is a move of the stake of its thread. A result is settled only once. -/
theorem exists_move
    (h : HasStake s.table.placeOf request stage (s.calls thread) stake settled)
    (hs : s.table.Sound) (hstands : stake.Stands s.table)
    (hleave : ∀ id mode, stake.entry = some (id, mode) →
      (s.table.leaveEntry thread mode id).1 = .ok ())
    (hstep : s.step unlimited thread = some s') :
    ∃ t call stake' result, s' = s.advance thread t call ∧
      Stake.Move thread request s.table stake t stake' result ∧
      HasStake s.table.placeOf request stage call stake' (result.or settled) ∧
      (result = none ∨ settled = none) := by
  unfold Traffic.step at hstep
  generalize s.calls thread = call at h hstep
  cases h with
  | seeking =>
      obtain ⟨t, henter, rfl⟩ := Option.map_eq_some_iff.mp hstep
      exact ⟨t, _, _, none, rfl, .enterSlot henter, .searching, .inl rfl⟩
  | @searching key =>
      dsimp only at hstep
      split at hstep
      next hfind =>
        obtain rfl := Option.some.inj hstep
        exact ⟨_, _, _, some (.error .notFound), rfl, .miss hfind, .missing, .inr rfl⟩
      next id hfind =>
        obtain rfl := Option.some.inj hstep
        exact ⟨_, _, _, none, rfl, .find (.retain _ id) hfind (Nat.zero_le _), .taking, .inl rfl⟩
  | @taking key id =>
      obtain ⟨t, henter, rfl⟩ := Option.map_eq_some_iff.mp hstep
      obtain ⟨e, he, -⟩ := Option.bind_eq_some_iff.mp henter
      have hvalue : s.table.valueAt id = some e.value := by rw [Table.valueAt, he, Option.map_some]
      exact ⟨t, _, _, some (.ok e.value), rfl, .take henter hvalue, .parting, .inr rfl⟩
  | missing =>
      obtain rfl := Option.some.inj hstep
      exact ⟨_, _, _, none, rfl, .leaveSlot, .missed, .inl rfl⟩
  | missed => contradiction
  | approaching =>
      obtain ⟨t, henter, rfl⟩ := Option.map_eq_some_iff.mp hstep
      exact ⟨t, _, _, none, rfl, .enterSlot henter, .probing, .inl rfl⟩
  | probing =>
      dsimp only at hstep
      split at hstep
      · obtain rfl := Option.some.inj hstep
        exact ⟨_, _, _, none, rfl, .stay (.refl _), .withdrawing, .inl rfl⟩
      next id hfind =>
        obtain rfl := Option.some.inj hstep
        obtain ⟨hentry, hfits⟩ := Table.entryOf_of_findFitting? hfind
        exact ⟨_, _, _, none, rfl, .find (.retain _ id) hentry hfits, .locking, .inl rfl⟩
  | withdrawing =>
      obtain rfl := Option.some.inj hstep
      exact ⟨_, _, _, none, rfl, .leaveSlot, .claiming, .inl rfl⟩
  | claiming =>
      obtain ⟨t, henter, rfl⟩ := Option.map_eq_some_iff.mp hstep
      exact ⟨t, _, _, none, rfl, .enterSlot henter, .inspecting, .inl rfl⟩
  | inspecting =>
      dsimp only at hstep
      split at hstep
      next hfind =>
        obtain rfl := Option.some.inj hstep
        exact ⟨_, _, _, none, rfl, .clear hfind, .making, .inl rfl⟩
      next id hfind =>
        split at hstep
        next hfits =>
          obtain rfl := Option.some.inj hstep
          exact ⟨_, _, _, none, rfl, .find (.retain _ id) hfind hfits, .locking, .inl rfl⟩
        · obtain rfl := Option.some.inj hstep
          exact ⟨_, _, _, none, rfl, .detach hfind, .discounting, .inl rfl⟩
  | discounting =>
      obtain rfl := Option.some.inj hstep
      exact ⟨_, _, _, none, rfl, .countDown, .retiring, .inl rfl⟩
  | @retiring key value id =>
      obtain rfl := Option.some.inj hstep
      exact ⟨_, _, _, none, rfl, .stay (.retired _ _), .making, .inl rfl⟩
  | making =>
      dsimp only at hstep
      rw [Entry.allocate_unlimited] at hstep
      obtain rfl := Option.some.inj hstep
      exact ⟨_, _, _, none, rfl, .adopt, .linking, .inl rfl⟩
  | @linking key value =>
      obtain rfl := Option.some.inj hstep
      exact ⟨_, _, _, some (.ok value), rfl, .attach, .counting, .inr rfl⟩
  | counting =>
      obtain rfl := Option.some.inj hstep
      exact ⟨_, _, _, none, rfl, .countUp, .publishing, .inl rfl⟩
  | @publishing key value id =>
      obtain rfl := Option.some.inj hstep
      exact ⟨_, _, _, none, rfl, .partFromSlot, .weighing, .inl rfl⟩
  | locking =>
      obtain ⟨t, henter, rfl⟩ := Option.map_eq_some_iff.mp hstep
      exact ⟨t, _, _, none, rfl, .grip henter, .copying, .inl rfl⟩
  | @copying key value id mode count =>
      simp only [Traffic.overwriteStep] at hstep
      split at hstep
      next hend =>
        obtain rfl := Option.some.inj hstep
        obtain ⟨-, -, -, -, hcount, -⟩ := hstands
        obtain rfl : count = value.length :=
          le_antisymm hcount (List.getElem?_eq_none_iff.mp hend)
        exact ⟨_, _, _, none, rfl, .stay (.refl _), .sizing, .inl rfl⟩
      next byte hbyte =>
        obtain rfl := Option.some.inj hstep
        exact ⟨_, _, _, none, rfl, .write hbyte, .copying, .inl rfl⟩
  | @sizing key value id mode =>
      obtain rfl := Option.some.inj hstep
      exact ⟨_, _, _, some (.ok value), rfl, .resize, .parting, .inr rfl⟩
  | parting =>
      obtain rfl := Option.some.inj hstep
      exact ⟨_, _, _, none, rfl, .partFromSlot, .held, .inl rfl⟩
  | weighing =>
      dsimp only at hstep
      split at hstep
      · obtain rfl := Option.some.inj hstep
        exact ⟨_, _, _, none, rfl, .stay (.refl _), .reclaiming, .inl rfl⟩
      · obtain rfl := Option.some.inj hstep
        exact ⟨_, _, _, none, rfl, .stay (.refl _), .held, .inl rfl⟩
  | reclaiming =>
      dsimp only at hstep
      split at hstep
      · obtain rfl := Option.some.inj hstep
        exact ⟨_, _, _, none, rfl, .stay (.retired _ _), .judging, .inl rfl⟩
      · obtain rfl := Option.some.inj hstep
        exact ⟨_, _, _, none, rfl, .stay (.refl _), .held, .inl rfl⟩
  | judging =>
      dsimp only at hstep
      split at hstep
      · obtain rfl := Option.some.inj hstep
        exact ⟨_, _, _, none, rfl, .stay (.retired _ _), .reclaiming, .inl rfl⟩
      · obtain rfl := Option.some.inj hstep
        exact ⟨_, _, _, none, rfl, .stay (.refl _), .reclaiming, .inl rfl⟩
  | held => contradiction
  | @measuring _ handle value =>
      obtain rfl := Option.some.inj hstep
      obtain ⟨e, he, rfl⟩ := Option.map_eq_some_iff.mp hstands.2
      have hsize : ((s.table.entryAt handle.id).map Entry.size).getD 0 = e.value.length := by
        rw [he, hs.length_value he]
        rfl
      refine ⟨_, _, _, none, rfl, .stay (.refl _), ?_, .inl rfl⟩
      rw [hsize]
      exact .reading List.nil_prefix
  | @reading _ handle value copied hcopied =>
      obtain ⟨e, he, rfl⟩ := Option.map_eq_some_iff.mp hstands.2
      have hnext : (if copied.length < e.value.length
          then (s.table.entryAt handle.id).bind fun e => e.storage[copied.length]? else none) =
          e.value[copied.length]? := by
        rw [he, hs.length_value he, Entry.value, List.getElem?_take]
        rfl
      simp only [hnext] at hstep
      obtain ⟨rest, hrest⟩ := hcopied
      rw [← hrest, List.getElem?_append_right le_rfl, Nat.sub_self] at hstep
      cases rest with
      | nil =>
          obtain rfl := Option.some.inj hstep
          rw [List.append_nil] at hrest
          subst hrest
          exact ⟨_, _, _, none, rfl, .stay (.refl _), .read, .inl rfl⟩
      | cons byte rest =>
          obtain rfl := Option.some.inj hstep
          refine ⟨_, _, _, none, rfl, .stay (.refl _), ?_, .inl rfl⟩
          rw [← hrest]
          exact .reading ⟨rest, by simp⟩
  | read => contradiction
  | @releasing _ handle value =>
      have hok := hleave handle.id handle.mode rfl
      rcases hleft : s.table.leaveEntry thread handle.mode handle.id with ⟨result, t⟩
      rw [hleft] at hok
      obtain rfl : result = .ok () := hok
      simp only [hleft] at hstep
      obtain rfl := Option.some.inj hstep
      have hmove : Stake.Move thread request s.table (.holding handle value)
          (s.table.leaveEntry thread handle.mode handle.id).2 .idle none := .leaveEntry
      rw [hleft] at hmove
      exact ⟨t, _, _, none, rfl, hmove, .forgetting, .inl rfl⟩
  | forgetting =>
      obtain rfl := Option.some.inj hstep
      exact ⟨_, _, _, none, rfl, .stay (.forget _ _), .released, .inl rfl⟩
  | released => contradiction

end HasStake

end KeyValueServer
