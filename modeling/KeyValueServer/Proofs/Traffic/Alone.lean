import KeyValueServer.Proofs.Store.Calls
import KeyValueServer.Store.Traffic
import Mathlib.Logic.Relation

/-!
# Calls that nobody interrupts

A call is made in many steps, between which other threads may take theirs. Where none of them does,
the steps of a call come to what the call does when it is carried out whole: the same table, and the
same result.
-/

namespace KeyValueServer

open Relation (ReflTransGen)

/-! ## Copying byte by byte -/

/-- Write bytes into the storage, from a place on. -/
def Entry.splice (e : Entry) (place : Nat) (bytes : Bytes) : Entry :=
  { e with storage := e.storage.take place ++ bytes ++ e.storage.drop (place + bytes.length) }

namespace Entry

theorem splice_nil (e : Entry) (place : Nat) : e.splice place [] = e := by simp [splice]

theorem splice_cons {e : Entry} {place : Nat} (h : place < e.storage.length) (byte : UInt8)
    (bytes : Bytes) :
    (e.writeByte place byte).splice (place + 1) bytes = e.splice place (byte :: bytes) := by
  have htake : (e.storage.set place byte).take (place + 1) = e.storage.take place ++ [byte] := by
    rw [List.take_add_one, List.take_set_of_le (Nat.le_refl _), List.getElem?_set_self h]
    rfl
  have hdrop : (e.storage.set place byte).drop (place + 1 + bytes.length) =
      e.storage.drop (place + (bytes.length + 1)) := by
    rw [List.drop_set_of_lt (by omega)]
    congr 1
    omega
  simp [splice, writeByte, htake, hdrop]

theorem resize_splice (e : Entry) (value : Bytes) :
    (e.splice 0 value).resize value.length = e.overwrite value := by
  simp [splice, resize, overwrite]

end Entry

namespace Table

variable {t : Table} {id : EntryId} {f g : Entry → Entry}

theorem modifyEntry_modifyEntry (t : Table) (id : EntryId) (f g : Entry → Entry) :
    (t.modifyEntry id f).modifyEntry id g = t.modifyEntry id fun e => g (f e) := by
  have hentries : (t.entries.modify id f).modify id g = t.entries.modify id fun e => g (f e) := by
    refine Array.ext (by simp) fun i _ _ => ?_
    by_cases hi : id = i <;> simp [Array.getElem_modify, hi]
  simp only [modifyEntry, hentries]

theorem modifyEntry_id (t : Table) (id : EntryId) : (t.modifyEntry id fun e => e) = t := by
  have hentries : (t.entries.modify id fun e => e) = t.entries :=
    Array.ext (by simp) fun i _ _ => by simp [Array.getElem_modify]
  simp only [modifyEntry, hentries]

theorem modifyEntry_congr (h : ∀ e, t.entryAt id = some e → f e = g e) :
    t.modifyEntry id f = t.modifyEntry id g := by
  have hentries : t.entries.modify id f = t.entries.modify id g := by
    refine Array.ext (by simp) fun i hi _ => ?_
    rw [Array.size_modify] at hi
    rw [Array.getElem_modify, Array.getElem_modify]
    split
    next hsame =>
      subst hsame
      exact h _ (Array.getElem?_eq_getElem hi)
    · rfl
  simp only [modifyEntry, hentries]

/-- A value whose bytes are all in the storage, and then its length, are written over the entry. -/
theorem resize_splice (t : Table) (id : EntryId) (value : Bytes) :
    ((t.modifyEntry id fun e => e.splice 0 value).modifyEntry id fun e => e.resize value.length) =
      t.overwritten id value := by
  rw [modifyEntry_modifyEntry]
  exact modifyEntry_congr fun e _ => e.resize_splice value

/-- A table with another queue of retired entries. -/
abbrev withRetired (t : Table) (queue : List EntryId) : Table := { t with retired := queue }

end Table

namespace Traffic

/-! ## Steps of one thread -/

/-- With its next step a thread changes the table and goes on in its call like this, whatever calls
others have under way. -/
def Strides (memory : Allocator) (thread : ThreadId) (before after : Table × TableCall) : Prop :=
  ∀ calls, calls thread = before.2 → step memory ⟨before.1, calls⟩ thread =
    some (advance ⟨before.1, calls⟩ thread after.1 after.2)

/-- Steps of one thread, while no other takes any. -/
abbrev Alone (memory : Allocator) (thread : ThreadId) :
    Table × TableCall → Table × TableCall → Prop :=
  ReflTransGen (Strides memory thread)

variable {memory : Allocator} {thread : ThreadId} {t t' : Table} {key : Bytes}
  {mode slotMode : LockMode} {place : Nat} {id : EntryId} {d : Deposit} {handle : Handle}
  {waiting : Option Handle} {r : Except Error Handle}

theorem advance_calls (s : Traffic) (thread : ThreadId) :
    s.advance thread s.table (s.calls thread) = s := by
  have hcalls : (fun other => if other = thread then s.calls thread else s.calls other) =
      s.calls := by
    funext other
    split
    next hother => rw [hother]
    · rfl
  rw [advance, start, hcalls]

theorem advance_advance (s : Traffic) (thread : ThreadId) (t t' : Table) (call call' : TableCall) :
    (s.advance thread t call).advance thread t' call' = s.advance thread t' call' := by
  simp only [advance, start, mk.injEq, true_and]
  funext other
  split <;> rfl

/-! ## Finding -/

theorem alone_parting (t : Table) (place : Nat) (slotMode : LockMode) (r : Except Error Handle) :
    Alone memory thread (t, .parting place slotMode r)
      (t.leaveSlot thread slotMode place, .finished (.handle r)) :=
  .single fun calls hcall => by simp only [step, hcall]

/-- The steps of a call that finds a value come to `Table.get`. -/
theorem alone_get (h : t.get thread key mode = some (r, t')) :
    Alone memory thread (t, .get key mode) (t', .finished (.handle r)) := by
  obtain ⟨entered, henter, hcases⟩ := Table.get_cases h
  have hplace := Table.placeOf_eq (Table.contents_enterSlot henter) key
  have hseek : Strides memory thread (t, .get key mode) (entered, .searching key mode) :=
    fun calls hcall => by simp only [step, hcall, TableCall.get, henter, Option.map_some]
  obtain ⟨hfind, rfl, rfl⟩ | ⟨id, held, hfind, rfl, hentry, rfl⟩ := hcases
  · have hsearch : Strides memory thread (entered, .searching key mode)
        (entered, .parting (t.placeOf key) .shared (.error .notFound)) :=
      fun calls hcall => by simp only [step, hcall, hplace, hfind, advance]
    exact .head hseek (.head hsearch (alone_parting ..))
  · have hsearch : Strides memory thread (entered, .searching key mode)
        (entered.retain id, .taking (t.placeOf key) id mode) :=
      fun calls hcall => by simp only [step, hcall, hplace, hfind]
    have htake : Strides memory thread (entered.retain id, .taking (t.placeOf key) id mode)
        (held, .parting (t.placeOf key) .shared (.ok ⟨id, mode⟩)) :=
      fun calls hcall => by simp only [step, hcall, hentry, Option.map_some]
    exact .head hseek (.head hsearch (.head htake (alone_parting ..)))

/-! ## Writing over an entry -/

/-- The bytes that are still to be copied, one in each step. -/
theorem alone_copying {bytes : Bytes} (hrest : d.value.drop place = bytes)
    (hfits : ∀ e, t.entryAt id = some e → place + bytes.length ≤ e.storage.length) :
    Alone memory thread (t, .overwriting slotMode id d (.copying place))
      (t.modifyEntry id fun e => e.splice place bytes, .overwriting slotMode id d .sizing) := by
  induction bytes generalizing t place with
  | nil =>
      have hnone : d.value[place]? = none :=
        List.getElem?_eq_none_iff.mpr (List.drop_eq_nil_iff.mp hrest)
      simp only [Entry.splice_nil, Table.modifyEntry_id]
      exact .single fun calls hcall => by simp only [step, hcall, overwriteStep, hnone, advance]
  | cons byte rest ih =>
      have hbyte : d.value[place]? = some byte := by
        rw [← List.head?_drop, hrest, List.head?_cons]
      have hnext : d.value.drop (place + 1) = rest := by
        rw [← List.tail_drop, hrest, List.tail_cons]
      have hcopy : Strides memory thread (t, .overwriting slotMode id d (.copying place))
          (t.modifyEntry id fun e => e.writeByte place byte,
            .overwriting slotMode id d (.copying (place + 1))) :=
        fun calls hcall => by simp only [step, hcall, overwriteStep, hbyte]
      have hwritten : ((t.modifyEntry id fun e => e.writeByte place byte).modifyEntry id
          fun e => e.splice (place + 1) rest) =
          t.modifyEntry id fun e => e.splice place (byte :: rest) := by
        rw [Table.modifyEntry_modifyEntry]
        refine Table.modifyEntry_congr fun e he => Entry.splice_cons ?_ byte rest
        have hle := hfits e he
        rw [List.length_cons] at hle
        omega
      rw [← hwritten]
      refine .head hcopy (ih hnext fun e he => ?_)
      rw [Table.entryAt_modifyEntry, if_pos rfl, Option.map_eq_some_iff] at he
      obtain ⟨before, hbefore, rfl⟩ := he
      have hle := hfits before hbefore
      rw [List.length_cons] at hle
      rw [Entry.writeByte, List.length_set]
      omega

/-- From the moment at which a call refers to an entry until the whole value is in its storage. -/
theorem alone_locking {entered : Table}
    (henter : (t.retain id).enterEntry thread .exclusive id = some entered)
    (hfits : d.value.length ≤ t.capacityOf id) :
    Alone memory thread (t.retain id, .overwriting slotMode id d .locking)
      (entered.modifyEntry id fun e => e.splice 0 d.value, .overwriting slotMode id d .sizing) := by
  have hlock : Strides memory thread (t.retain id, .overwriting slotMode id d .locking)
      (entered, .overwriting slotMode id d (.copying 0)) :=
    fun calls hcall => by simp only [step, hcall, overwriteStep, henter, Option.map_some]
  refine .head hlock (alone_copying List.drop_zero fun e he => ?_)
  have hcapacity : entered.capacityOf id = e.capacity := by
    rw [Table.capacityOf, he, Option.map_some, Option.getD_some]
  have hsame : entered.capacityOf id = t.capacityOf id := by
    refine Table.capacityOf_eq ?_ id
    rw [Table.contents_enterEntry henter, Table.contents_retain]
  rw [Nat.zero_add, ← Entry.capacity, ← hcapacity, hsame]
  exact hfits

/-- Writing a value over an entry that it fits. -/
theorem alone_overwrite {written : Table}
    (h : t.overwrite thread id d.value d.mode = some (r, written))
    (hfits : d.value.length ≤ t.capacityOf id) :
    Alone memory thread (t.retain id, .overwriting slotMode id d .locking)
      (written, .parting (t.placeOf d.key) slotMode r) := by
  have hplace : ∀ entered, (t.retain id).enterEntry thread .exclusive id = some entered →
      (entered.overwritten id d.value).placeOf d.key = t.placeOf d.key := by
    intro entered henter
    change entered.placeOf d.key = t.placeOf d.key
    refine Table.placeOf_eq ?_ d.key
    rw [Table.contents_enterEntry henter, Table.contents_retain]
  cases hmode : d.mode with
  | exclusive =>
      rw [hmode, Table.overwrite_exclusive, Option.map_eq_some_iff] at h
      obtain ⟨entered, henter, hwritten⟩ := h
      obtain ⟨rfl, rfl⟩ := Prod.mk.inj hwritten
      refine (alone_locking henter hfits).tail fun calls hcall => ?_
      simp only [step, hcall, overwriteStep, hmode, Table.resize_splice, hplace entered henter]
  | shared =>
      rw [hmode, Table.overwrite_shared, Option.bind_eq_some_iff] at h
      obtain ⟨entered, henter, h⟩ := h
      obtain ⟨held, hagain, hwritten⟩ := Option.map_eq_some_iff.mp h
      obtain ⟨rfl, rfl⟩ := Prod.mk.inj hwritten
      have hleft := (entered.overwritten id d.value).contents_leaveEntry thread .exclusive id
      have hok :=
        Table.leaveEntry_of_enterEntry (fun e => e.overwrite d.value) (fun _ => rfl) henter
      rw [← Table.overwritten] at hok
      rcases hleave : (entered.overwritten id d.value).leaveEntry thread .exclusive id with
        ⟨result, left⟩
      rw [hleave] at hleft hok hagain
      obtain rfl : result = .ok () := hok
      have hheld : held.placeOf d.key = t.placeOf d.key := by
        rw [← hplace entered henter]
        exact Table.placeOf_eq ((Table.contents_enterEntry hagain).trans hleft) d.key
      have hsize : Strides memory thread
          (entered.modifyEntry id fun e => e.splice 0 d.value, .overwriting slotMode id d .sizing)
          (entered.overwritten id d.value, .overwriting slotMode id d .loosening) :=
        fun calls hcall => by simp only [step, hcall, overwriteStep, hmode, Table.resize_splice]
      have hloosen : Strides memory thread
          (entered.overwritten id d.value, .overwriting slotMode id d .loosening)
          (left, .overwriting slotMode id d .relocking) :=
        fun calls hcall => by simp only [step, hcall, overwriteStep, hleave]
      have hrelock : Strides memory thread (left, .overwriting slotMode id d .relocking)
          (held, .parting (t.placeOf d.key) slotMode (.ok ⟨id, .shared⟩)) :=
        fun calls hcall => by
          simp only [step, hcall, overwriteStep, hagain, hheld, Option.map_some]
      exact (((alone_locking henter hfits).tail hsize).tail hloosen).tail hrelock

/-! ## Freeing retired entries -/

/-- The first entries of the queue go to its end where they are referred to, and are freed where
they are not. -/
theorem alone_reclaiming (queue later : List EntryId) (freed : Nat) :
    Alone memory thread (t.withRetired (queue ++ later), .reclaiming queue.length freed waiting)
      (t.withRetired (later ++ queue.filter t.isReferenced),
        .reclaiming 0 (freed + (queue.filter fun id => !t.isReferenced id).length) waiting) := by
  induction queue generalizing later freed with
  | nil => simpa using ReflTransGen.refl
  | cons id queue ih =>
      have hpop : Strides memory thread
          (t.withRetired (id :: queue ++ later), .reclaiming (queue.length + 1) freed waiting)
          (t.withRetired (queue ++ later), .judging id queue.length freed waiting) :=
        fun calls hcall => by simp only [step, hcall, List.cons_append]
      have hasked : (t.withRetired (queue ++ later)).isReferenced = t.isReferenced := rfl
      cases hkept : t.isReferenced id with
      | true =>
          have hback : Strides memory thread
              (t.withRetired (queue ++ later), .judging id queue.length freed waiting)
              (t.withRetired (queue ++ (later ++ [id])), .reclaiming queue.length freed waiting) :=
            fun calls hcall => by
              simp only [step, hcall, hasked, hkept, if_true, Table.retire, List.append_assoc]
          have hrest := ih (later ++ [id]) freed
          rw [List.append_assoc, List.singleton_append] at hrest
          rw [List.length_cons, List.filter_cons_of_pos hkept,
            List.filter_cons_of_neg (by simp [hkept])]
          exact .head hpop (.head hback hrest)
      | false =>
          have hfree : Strides memory thread
              (t.withRetired (queue ++ later), .judging id queue.length freed waiting)
              (t.withRetired (queue ++ later), .reclaiming queue.length (freed + 1) waiting) :=
            fun calls hcall => by
              simp only [step, hcall, hasked, hkept, Bool.false_eq_true, if_false, advance]
          have hrest := ih later (freed + 1)
          rw [List.length_cons, List.filter_cons_of_neg (by simp [hkept]),
            List.filter_cons_of_pos (by simp [hkept]), List.length_cons]
          refine .head hpop (.head hfree ?_)
          rwa [Nat.add_assoc, Nat.add_comm 1] at hrest

/-- The steps of a call that frees retired entries come to `Table.reclaim`. -/
theorem alone_reclaim (t : Table) (waiting : Option Handle) :
    Alone memory thread (t, .reclaiming t.retired.length 0 waiting)
      (t.reclaim.2, .finished
        (match waiting with
          | some handle => .handle (.ok handle)
          | none => .freed t.reclaim.1)) := by
  have hrounds : Alone memory thread
      (t.withRetired (t.retired ++ []), .reclaiming t.retired.length 0 waiting) _ :=
    alone_reclaiming t.retired [] 0
  rw [List.append_nil, List.nil_append, Nat.zero_add, ← Table.reclaim_fst] at hrounds
  refine hrounds.tail fun calls hcall => ?_
  simp only [step, hcall, advance]
  rfl

/-! ## Storing -/

theorem alone_insert
    (h : t.insert memory thread (t.placeOf d.key) d.key d.value d.mode = (r, t')) :
    Alone memory thread (t, .making d) (t', .finished (.handle r)) := by
  rw [Table.insert] at h
  split at h
  next e hallocate =>
    obtain ⟨rfl, rfl⟩ := Prod.mk.inj h
    have hmake : Strides memory thread (t, .making d)
        (t, .parting (t.placeOf d.key) .exclusive (.error e)) :=
      fun calls hcall => by simp only [step, hcall, hallocate, advance]
    exact .head hmake (alone_parting ..)
  next entry hallocate =>
    obtain ⟨rfl, rfl⟩ := Prod.mk.inj h
    have hmake : Strides memory thread (t, .making d)
        (t.adopt thread d.mode entry, .linking t.entries.size d) :=
      fun calls hcall => by simp only [step, hcall, hallocate]
    have hlink : Strides memory thread (t.adopt thread d.mode entry, .linking t.entries.size d)
        ((t.adopt thread d.mode entry).attach (t.placeOf d.key) t.entries.size,
          .counting t.entries.size d) :=
      fun calls hcall => by simp only [step, hcall]; rfl
    generalize hlinked :
      (t.adopt thread d.mode entry).link (t.placeOf d.key) t.entries.size = linked
    have hcount : Strides memory thread
        ((t.adopt thread d.mode entry).attach (t.placeOf d.key) t.entries.size,
          .counting t.entries.size d)
        (linked, .publishing t.entries.size d) :=
      fun calls hcall => by simp only [step, hcall, ← hlinked, Table.link]
    have hplace : linked.placeOf d.key = t.placeOf d.key := by rw [← hlinked]; rfl
    generalize hleft : linked.leaveSlot thread .exclusive (t.placeOf d.key) = left
    have hpublish : Strides memory thread (linked, .publishing t.entries.size d)
        (left, .weighing ⟨t.entries.size, d.mode⟩) :=
      fun calls hcall => by simp only [step, hcall, hplace, hleft]
    refine .head hmake (.head hlink (.head hcount (.head hpublish ?_)))
    split
    next hlong =>
      have hweigh : Strides memory thread (left, .weighing ⟨t.entries.size, d.mode⟩)
          (left, .reclaiming left.retired.length 0 (some ⟨t.entries.size, d.mode⟩)) :=
        fun calls hcall => by simp only [step, hcall, if_pos hlong, advance]
      exact .head hweigh (alone_reclaim left (some ⟨t.entries.size, d.mode⟩))
    next hshort =>
      exact .single fun calls hcall => by simp only [step, hcall, if_neg hshort, advance]

theorem alone_replace
    (h : t.replace memory thread (t.placeOf d.key) d.key d.value d.mode = some (r, t')) :
    Alone memory thread (t, .inspecting d) (t', .finished (.handle r)) := by
  rcases Table.replace_cases h with ⟨hfind, hinsert⟩ | ⟨id, hfind, hcases⟩
  · have hinspect : Strides memory thread (t, .inspecting d) (t, .making d) :=
      fun calls hcall => by simp only [step, hcall, hfind, advance]
    exact .head hinspect (alone_insert hinsert)
  · obtain ⟨hfits, written, hover, rfl⟩ | ⟨hlarge, hinsert⟩ := hcases
    · have hinspect : Strides memory thread (t, .inspecting d)
          (t.retain id, .overwriting .exclusive id d .locking) :=
        fun calls hcall => by simp only [step, hcall, hfind, if_pos hfits]
      exact .head hinspect ((alone_overwrite hover hfits).trans (alone_parting ..))
    · have hinspect : Strides memory thread (t, .inspecting d)
          (t.detach (t.placeOf d.key) id, .discounting id d) :=
        fun calls hcall => by simp only [step, hcall, hfind, if_neg hlarge]
      have hdiscount : Strides memory thread
          (t.detach (t.placeOf d.key) id, .discounting id d)
          ((t.detach (t.placeOf d.key) id).countDown, .retiring id d) :=
        fun calls hcall => by simp only [step, hcall]
      have hretire : Strides memory thread
          ((t.detach (t.placeOf d.key) id).countDown, .retiring id d)
          (t.unlink (t.placeOf d.key) id, .making d) :=
        fun calls hcall => by simp only [step, hcall, Table.unlink]
      exact .head hinspect (.head hdiscount (.head hretire (alone_insert hinsert)))

/-- The steps of a call that stores a value come to `Table.set`. -/
theorem alone_set {value : Bytes}
    (h : t.set memory thread key value mode = some (r, t')) :
    Alone memory thread (t, .set key value mode) (t', .finished (.handle r)) := by
  simp only [Table.set, Option.bind_eq_bind, Option.bind_eq_some_iff] at h
  obtain ⟨entered, henter, h⟩ := h
  have hplace := Table.placeOf_eq (Table.contents_enterSlot henter) key
  have happroach : Strides memory thread (t, .set key value mode)
      (entered, .probing ⟨key, value, mode⟩) :=
    fun calls hcall => by simp only [step, hcall, TableCall.set, henter, Option.map_some]
  refine .head happroach ?_
  split at h
  next id hfitting =>
    obtain ⟨hfind, hfits⟩ := Option.filter_eq_some_iff.mp hfitting
    simp only [Option.bind_eq_some_iff, Option.pure_def] at h
    obtain ⟨⟨result, written⟩, hover, hreturned⟩ := h
    obtain ⟨rfl, rfl⟩ := Prod.mk.inj (Option.some.inj hreturned)
    have hprobe : Strides memory thread (entered, .probing ⟨key, value, mode⟩)
        (entered.retain id, .overwriting .shared id ⟨key, value, mode⟩ .locking) :=
      fun calls hcall => by simp only [step, hcall, hplace, hfitting]
    refine .head hprobe ((alone_overwrite hover (of_decide_eq_true hfits)).trans ?_)
    rw [hplace]
    exact alone_parting ..
  next hnone =>
    simp only [Option.bind_eq_some_iff] at h
    obtain ⟨again, hagain, hreplace⟩ := h
    have hprobe : Strides memory thread (entered, .probing ⟨key, value, mode⟩)
        (entered, .withdrawing ⟨key, value, mode⟩) :=
      fun calls hcall => by simp only [step, hcall, hplace, hnone, advance]
    generalize hleft : entered.leaveSlot thread .shared (t.placeOf key) = left at hagain
    have hwithdraw : Strides memory thread (entered, .withdrawing ⟨key, value, mode⟩)
        (left, .claiming ⟨key, value, mode⟩) :=
      fun calls hcall => by simp only [step, hcall, hplace, hleft]
    have hplace₁ : left.placeOf key = t.placeOf key := by
      rw [← hplace, ← hleft]
      exact Table.placeOf_eq (Table.contents_leaveSlot ..) key
    have hplace₂ := Table.placeOf_eq (Table.contents_enterSlot hagain) key
    have hclaim : Strides memory thread (left, .claiming ⟨key, value, mode⟩)
        (again, .inspecting ⟨key, value, mode⟩) :=
      fun calls hcall => by simp only [step, hcall, hplace₁, hagain, Option.map_some]
    rw [← hplace₁, ← hplace₂] at hreplace
    exact .head hprobe (.head hwithdraw (.head hclaim (alone_replace hreplace)))

/-! ## Giving a handle back -/

/-- The steps of a call that releases a handle come to `Table.release`. -/
theorem alone_release (t : Table) (handle : Handle) :
    Alone memory thread (t, .release handle)
      ((t.release thread handle).2, .finished (.released (t.release thread handle).1)) := by
  have hrelease : Strides memory thread (t, .release handle)
      ((t.leaveEntry thread handle.mode handle.id).2,
        .forgetting handle (t.leaveEntry thread handle.mode handle.id).1) :=
    fun calls hcall => by simp only [step, hcall, TableCall.release]
  refine .head hrelease (.single fun calls hcall => ?_)
  simp only [step, hcall, Table.release]

end Traffic

end KeyValueServer
