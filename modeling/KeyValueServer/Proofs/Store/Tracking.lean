import KeyValueServer.Store.Access
import KeyValueServer.Proofs.Sync.LockWord
import Mathlib.Logic.Function.Basic

/-!
# Holds by handles

Handles can be counted in two ways: for each thread the handles that it has, and for each entry the
holds that there are on it. A hold names its thread where a handle names its entry, so the two
countings say the same.
-/

namespace KeyValueServer

open Function (update)

/-- For each entry the list has each hold as often as its thread has the handle that gives it. -/
def Tracked (lists : EntryId → List Hold) (bags : ThreadId → List Handle) : Prop :=
  ∀ id thread mode, (lists id).count ⟨thread, mode⟩ = (bags thread).count ⟨id, mode⟩

theorem Handle.eq_mk_iff {handle : Handle} {mode : LockMode} :
    handle = ⟨handle.id, mode⟩ ↔ handle.mode = mode := by
  obtain ⟨id, mode'⟩ := handle
  simp

namespace Tracked

variable {lists : EntryId → List Hold} {bags : ThreadId → List Handle} {thread : ThreadId}
  {handle : Handle} {id : EntryId} {mode : LockMode}

theorem empty : Tracked (fun _ => []) fun _ => [] := fun _ _ _ => rfl

theorem mem_iff (h : Tracked lists bags) :
    ⟨thread, mode⟩ ∈ lists id ↔ ⟨id, mode⟩ ∈ bags thread := by
  rw [← List.count_pos_iff, ← List.count_pos_iff, h]

theorem of_perm {bags' : ThreadId → List Handle} (h : Tracked lists bags)
    (hperm : ∀ thread, (bags' thread).Perm (bags thread)) : Tracked lists bags' :=
  fun id thread mode => by rw [h, (hperm thread).count_eq]

/-- One more handle is one more hold. -/
theorem add (h : Tracked lists bags) (thread : ThreadId) (handle : Handle) :
    Tracked (update lists handle.id (⟨thread, handle.mode⟩ :: lists handle.id))
      (update bags thread (handle :: bags thread)) := by
  intro id other mode
  by_cases hid : id = handle.id
  · subst hid
    rw [Function.update_self]
    by_cases hother : other = thread
    · subst hother
      simp [List.count_cons, h handle.id, Handle.eq_mk_iff]
    · rw [Function.update_of_ne hother, ← h, List.count_cons_of_ne]
      simpa using fun heq => absurd heq.symm hother
  · rw [Function.update_of_ne hid]
    by_cases hother : other = thread
    · subst hother
      have hne : handle ≠ ⟨id, mode⟩ := fun heq => hid (congrArg Handle.id heq).symm
      rw [Function.update_self, List.count_cons_of_ne hne, h]
    · rw [Function.update_of_ne hother, h]

/-- One handle less is one hold less. -/
theorem remove (h : Tracked lists bags) (thread : ThreadId) (handle : Handle) :
    Tracked (update lists handle.id ((lists handle.id).erase ⟨thread, handle.mode⟩))
      (update bags thread ((bags thread).erase handle)) := by
  intro id other mode
  by_cases hid : id = handle.id
  · subst hid
    rw [Function.update_self]
    by_cases hother : other = thread
    · subst hother
      simp [List.count_erase, h handle.id, Handle.eq_mk_iff]
    · rw [Function.update_of_ne hother, ← h, List.count_erase_of_ne]
      simpa using fun heq => absurd heq hother
  · rw [Function.update_of_ne hid]
    by_cases hother : other = thread
    · subst hother
      have hne : (⟨id, mode⟩ : Handle) ≠ handle := fun heq => hid (congrArg Handle.id heq)
      rw [Function.update_self, List.count_erase_of_ne hne, h]
    · rw [Function.update_of_ne hother, h]

/-- There is a hold on each entry for which a thread has a handle. -/
theorem ne_nil (h : Tracked lists bags) (hmem : handle ∈ bags thread) : lists handle.id ≠ [] :=
  List.ne_nil_of_mem (h.mem_iff.mpr hmem)

end Tracked

end KeyValueServer
