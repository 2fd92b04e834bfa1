import KeyValueServer.Sync.LockWord
import Mathlib.Data.Fin.Basic
import Mathlib.Data.Nat.Bitwise

/-!
# What a lock word stands for

A lock word is a number of 32 bits, and it stands for the holds on its lock: for none, for the one
exclusive hold of the thread that its field names, or for as many shared holds as its field counts.
Taking a hold and giving one up keep the word in step with the holds. The mark of waiters is no
part of this; it stays until the last hold goes.
-/

namespace KeyValueServer

/-- One hold on a lock. -/
structure Hold where
  thread : ThreadId
  mode : LockMode
deriving DecidableEq

/-- The number of shared holds among these. -/
def sharedHolds (holds : List Hold) : Nat := holds.countP fun h => h.mode = .shared

namespace LockWord

/-! ## What a word grants -/

section Grants

variable {w next : LockWord} {thread : ThreadId}

theorem acquire?_shared_eq_some_iff : w.acquire? .shared thread = some next ↔
    w.exclusive = false ∧ next = { w with shared := true, field := w.field + 1 } := by
  cases hexclusive : w.exclusive <;> simp [acquire?, hexclusive, eq_comm]

theorem acquire?_exclusive_eq_some_iff : w.acquire? .exclusive thread = some next ↔
    (w.exclusive = false ∧ w.shared = false ∧ w.field = 0) ∧
      next = { w with exclusive := true, field := thread } := by
  rw [acquire?]
  split
  next hheld =>
    simp only [reduceCtorEq, false_iff]
    rintro ⟨⟨hexclusive, hshared, hfield⟩, -⟩
    simp [hexclusive, hshared, hfield] at hheld
  next hfree =>
    simp only [Bool.or_eq_true, decide_eq_true_eq, not_or, Bool.not_eq_true, ne_eq,
      Decidable.not_not, and_assoc] at hfree
    simp [hfree, eq_comm]

theorem release_shared_eq_ok_iff : w.release .shared thread = .ok next ↔
    (w.shared = true ∧ w.field ≠ 0) ∧
      next = if w.field = 1 then free
        else { w with exclusive := false, field := w.field - 1 } := by
  rw [release]
  split
  next hunheld =>
    simp only [reduceCtorEq, false_iff]
    rintro ⟨⟨hshared, hfield⟩, -⟩
    simp [hshared, hfield] at hunheld
  next hheld =>
    simp only [Bool.or_eq_true, decide_eq_true_eq, not_or, Bool.not_eq_true',
      Bool.not_eq_false] at hheld
    split <;> simp [hheld, eq_comm]

theorem release_exclusive_eq_ok_iff : w.release .exclusive thread = .ok next ↔
    (w.exclusive = true ∧ w.field = thread) ∧ next = free := by
  rw [release]
  split
  next hunheld =>
    simp only [reduceCtorEq, false_iff]
    rintro ⟨⟨hexclusive, hfield⟩, -⟩
    simp [hexclusive, hfield] at hunheld
  next hheld =>
    simp only [Bool.or_eq_true, decide_eq_true_eq, not_or, Bool.not_eq_true', Bool.not_eq_false,
      ne_eq, Decidable.not_not] at hheld
    simp [hheld, eq_comm]

end Grants

/-! ## The word as a number -/

/-- Above the field there are three bits. -/
theorem toNat_div (w : LockWord) :
    w.toNat / 2 ^ 29 = w.waiters.toNat * 4 + w.exclusive.toNat * 2 + w.shared.toNat := by
  have hfield : w.field.val < 2 ^ 29 := w.field.isLt
  simp only [toNat]
  omega

theorem toNat_mod (w : LockWord) : w.toNat % 2 ^ 29 = w.field.val := by
  have hfield : w.field.val < 2 ^ 29 := w.field.isLt
  simp only [toNat]
  omega

theorem toNat_lt (w : LockWord) : w.toNat < 2 ^ 32 := by
  have hdiv := w.toNat_div
  have hmod := w.toNat_mod
  have hfield : w.field.val < 2 ^ 29 := w.field.isLt
  have := w.waiters.toNat_le
  have := w.exclusive.toNat_le
  have := w.shared.toNat_le
  omega

/-- The bits above the field, one after the other. -/
theorem testBit_toNat (w : LockWord) (i : Nat) :
    w.toNat.testBit (29 + i) =
      (w.waiters.toNat * 4 + w.exclusive.toNat * 2 + w.shared.toNat).testBit i := by
  rw [← toNat_div, Nat.testBit_div_two_pow, Nat.add_comm]

@[simp] theorem testBit_shared (w : LockWord) : w.toNat.testBit 29 = w.shared := by
  rw [w.testBit_toNat 0]
  cases w.waiters <;> cases w.exclusive <;> cases w.shared <;> rfl

@[simp] theorem testBit_exclusive (w : LockWord) : w.toNat.testBit 30 = w.exclusive := by
  rw [w.testBit_toNat 1]
  cases w.waiters <;> cases w.exclusive <;> cases w.shared <;> rfl

@[simp] theorem testBit_waiters (w : LockWord) : w.toNat.testBit 31 = w.waiters := by
  rw [w.testBit_toNat 2]
  cases w.waiters <;> cases w.exclusive <;> cases w.shared <;> rfl

/-! ## The changes as masked arithmetic -/

/-- The parts of a word occupy bits of their own. -/
theorem toNat_eq_or (w : LockWord) :
    w.toNat = w.waiters.toNat * 2 ^ 31 ||| w.exclusive.toNat * 2 ^ 30 ||| w.shared.toNat * 2 ^ 29
      ||| w.field.val := by
  have hfield : w.field.val < 2 ^ 29 := w.field.isLt
  have hor := Nat.two_pow_add_eq_or_of_lt hfield
    (w.waiters.toNat * 4 + w.exclusive.toNat * 2 + w.shared.toNat)
  have hflags : w.waiters.toNat * 2 ^ 31 ||| w.exclusive.toNat * 2 ^ 30 ||| w.shared.toNat * 2 ^ 29
      = 2 ^ 29 * (w.waiters.toNat * 4 + w.exclusive.toNat * 2 + w.shared.toNat) := by
    cases w.waiters <;> cases w.exclusive <;> cases w.shared <;> rfl
  rw [hflags, ← hor, toNat]
  omega

theorem and_waiters (w : LockWord) : w.toNat &&& 2 ^ 31 = w.waiters.toNat * 2 ^ 31 := by
  rw [Nat.and_two_pow, testBit_waiters]

theorem and_field (w : LockWord) : w.toNat &&& 2 ^ 29 - 1 = w.field.val := by
  rw [Nat.and_two_pow_sub_one_eq_mod, toNat_mod]

theorem toNat_announce (w : LockWord) : w.announce.toNat = w.toNat ||| 2 ^ 31 := by
  have hmark : true.toNat * 2 ^ 31 = w.waiters.toNat * 2 ^ 31 ||| 2 ^ 31 := by
    cases w.waiters <;> rfl
  rw [toNat_eq_or w, toNat_eq_or w.announce, announce, hmark]
  ac_rfl

/-- A shared hold adds one to the field under its mask and sets the bit for shared holds. Of the
rest of the word only the mark of waiters is kept. -/
theorem toNat_acquire_shared {w next : LockWord} {thread : ThreadId}
    (h : w.acquire? .shared thread = some next) :
    next.toNat = ((w.toNat &&& 2 ^ 29 - 1) + 1 &&& 2 ^ 29 - 1) ||| 2 ^ 29 |||
      (w.toNat &&& 2 ^ 31) := by
  obtain ⟨hexclusive, rfl⟩ := acquire?_shared_eq_some_iff.mp h
  rw [toNat_eq_or, and_waiters, and_field, Nat.and_two_pow_sub_one_eq_mod]
  have hfield : (w.field + 1).val = (w.field.val + 1) % 2 ^ 29 := rfl
  simp only [hfield, hexclusive, Bool.toNat_true, Bool.toNat_false, Nat.zero_mul, Nat.one_mul,
    Nat.or_zero]
  ac_rfl

/-- An exclusive hold writes the thread's name into a word without holds. -/
theorem toNat_acquire_exclusive {w next : LockWord} {thread : ThreadId}
    (h : w.acquire? .exclusive thread = some next) :
    next.toNat = 2 ^ 30 ||| thread.val ||| (w.toNat &&& 2 ^ 31) := by
  obtain ⟨⟨-, hshared, -⟩, rfl⟩ := acquire?_exclusive_eq_some_iff.mp h
  rw [toNat_eq_or, and_waiters]
  simp only [hshared, Bool.toNat_true, Bool.toNat_false, Nat.zero_mul, Nat.one_mul, Nat.or_zero]
  ac_rfl

/-- Giving up a shared hold that is not the last takes one from the field; the last one leaves
zero. -/
theorem toNat_release_shared {w next : LockWord} {thread : ThreadId}
    (h : w.release .shared thread = .ok next) :
    next.toNat = if (w.toNat &&& 2 ^ 29 - 1) = 1 then 0
      else ((w.toNat &&& 2 ^ 29 - 1) - 1) ||| 2 ^ 29 ||| (w.toNat &&& 2 ^ 31) := by
  obtain ⟨⟨hshared, hpos⟩, rfl⟩ := release_shared_eq_ok_iff.mp h
  rw [and_field, and_waiters]
  by_cases hlast : w.field = 1
  · rw [if_pos hlast, if_pos (by rw [hlast]; rfl)]
    rfl
  · have hne : w.field.val ≠ 1 := fun heq => hlast (Fin.ext heq)
    have hfield : (w.field - 1).val = w.field.val - 1 := by
      rw [Fin.val_sub_one_of_ne_zero hpos]
    rw [if_neg hlast, if_neg hne, toNat_eq_or]
    simp only [hfield, hshared, Bool.toNat_true, Bool.toNat_false, Nat.zero_mul, Nat.one_mul,
      Nat.or_zero]
    ac_rfl

/-- What a thread can put in place of a word of 32 bits, and what the word must be for it. -/
inductive Rewrites (thread : ThreadId) (word : Nat) : Nat → Prop
  | takeShared (h : word.testBit 30 = false) : Rewrites thread word
      (((word &&& 2 ^ 29 - 1) + 1 &&& 2 ^ 29 - 1) ||| 2 ^ 29 ||| (word &&& 2 ^ 31))
  | takeExclusive (h : word % 2 ^ 31 = 0) : Rewrites thread word
      (2 ^ 30 ||| thread.val ||| (word &&& 2 ^ 31))
  | announce : Rewrites thread word (word ||| 2 ^ 31)
  | giveUpShared (h : word.testBit 29 = true) (hmany : 1 < word &&& 2 ^ 29 - 1) :
      Rewrites thread word (((word &&& 2 ^ 29 - 1) - 1) ||| 2 ^ 29 ||| (word &&& 2 ^ 31))
  | giveUpLast (h : word.testBit 29 = true) (hone : word &&& 2 ^ 29 - 1 = 1) :
      Rewrites thread word 0
  | giveUpExclusive (h : word.testBit 30 = true) (howner : word &&& 2 ^ 29 - 1 = thread.val) :
      Rewrites thread word 0

theorem rewrites_announce (w : LockWord) (thread : ThreadId) :
    Rewrites thread w.toNat w.announce.toNat := by
  rw [toNat_announce]
  exact .announce

/-- Taking a hold is one of these changes. -/
theorem rewrites_acquire {w next : LockWord} {mode : LockMode} {thread : ThreadId}
    (h : w.acquire? mode thread = some next) : Rewrites thread w.toNat next.toNat := by
  cases mode with
  | shared =>
      rw [toNat_acquire_shared h]
      obtain ⟨hexclusive, -⟩ := acquire?_shared_eq_some_iff.mp h
      exact .takeShared (w.testBit_exclusive.trans hexclusive)
  | exclusive =>
      rw [toNat_acquire_exclusive h]
      obtain ⟨⟨hexclusive, hshared, hfield⟩, -⟩ := acquire?_exclusive_eq_some_iff.mp h
      have hdiv := w.toNat_div
      have hmod := w.toNat_mod
      rw [hexclusive, hshared, Bool.toNat_false] at hdiv
      rw [hfield, Fin.val_zero] at hmod
      exact .takeExclusive (by omega)

/-- Giving up a hold is one of these changes. -/
theorem rewrites_release {w next : LockWord} {mode : LockMode} {thread : ThreadId}
    (h : w.release mode thread = .ok next) : Rewrites thread w.toNat next.toNat := by
  cases mode with
  | shared =>
      rw [toNat_release_shared h]
      obtain ⟨⟨hshared, hfield⟩, -⟩ := release_shared_eq_ok_iff.mp h
      have hbit : w.toNat.testBit 29 = true := w.testBit_shared.trans hshared
      have hpos : (w.toNat &&& 2 ^ 29 - 1) ≠ 0 := by
        rw [and_field]
        exact fun heq => hfield (Fin.ext heq)
      split
      next hone => exact .giveUpLast hbit hone
      next hmany => exact .giveUpShared hbit (by omega)
  | exclusive =>
      obtain ⟨⟨hexclusive, howner⟩, rfl⟩ := release_exclusive_eq_ok_iff.mp h
      exact .giveUpExclusive (w.testBit_exclusive.trans hexclusive) (by rw [and_field, howner])

/-! ## Words and holds -/

/-- The holds that a word stands for, whatever its mark of waiters says. -/
inductive Shows : LockWord → List Hold → Prop
  | free (waiters : Bool) : Shows ⟨waiters, false, false, 0⟩ []
  | exclusive (waiters : Bool) (thread : ThreadId) :
      Shows ⟨waiters, true, false, thread⟩ [⟨thread, .exclusive⟩]
  | shared (waiters : Bool) {field : Fin fieldSize} {holds : List Hold} (hne : holds ≠ [])
      (hshared : ∀ h ∈ holds, h.mode = .shared) (hfield : field.val = holds.length) :
      Shows ⟨waiters, false, true, field⟩ holds

namespace Shows

variable {w next : LockWord} {holds : List Hold} {mode : LockMode} {thread : ThreadId}

/-- The mark of waiters says nothing about the holds. -/
theorem announce (h : w.Shows holds) : w.announce.Shows holds := by
  cases h with
  | free => exact .free true
  | exclusive _ thread => exact .exclusive true thread
  | shared _ hne hshared hfield => exact .shared true hne hshared hfield

/-- A word without holds is free but for the mark of waiters. -/
theorem eq_nil_iff (h : w.Shows holds) :
    holds = [] ↔ w.exclusive = false ∧ w.shared = false ∧ w.field = 0 := by
  cases h with
  | free => simp
  | exclusive => simp
  | shared _ hne => simp [hne]

/-- An exclusive hold is the only one. -/
theorem exclusive_iff (h : w.Shows holds) :
    w.exclusive = true ∧ w.field = thread ↔ holds = [⟨thread, .exclusive⟩] := by
  cases h with
  | free => simp
  | exclusive => simp
  | shared _ hne hshared =>
      simp only [Bool.false_eq_true, false_and, false_iff]
      rintro rfl
      simpa using hshared _ List.mem_cons_self

theorem sharedHolds_eq (hshared : ∀ h ∈ holds, h.mode = .shared) :
    sharedHolds holds = holds.length := by
  rw [sharedHolds, List.countP_eq_length]
  simpa using hshared

/-- The bit for shared holds is set, over their number, where there are shared holds. -/
theorem shared_iff (h : w.Shows holds) (n : Nat) :
    w.shared = true ∧ w.field.val = n ↔ 0 < n ∧ sharedHolds holds = n := by
  cases h with
  | free => simp [sharedHolds]; omega
  | exclusive => simp [sharedHolds]; omega
  | shared _ hne hshared hfield =>
      have hpos := List.length_pos_iff.mpr hne
      rw [sharedHolds_eq hshared, hfield]
      simp only [true_and, iff_and_self]
      omega

/-- An exclusive hold never stands beside another. -/
theorem eq_singleton_of_mem (h : w.Shows holds) (hmem : ⟨thread, .exclusive⟩ ∈ holds) :
    holds = [⟨thread, .exclusive⟩] := by
  cases h with
  | free => contradiction
  | exclusive => simpa [eq_comm] using hmem
  | shared _ _ hshared => simpa using hshared _ hmem

/-! ## Taking and giving up holds -/

/-- The word after a hold was taken shows it, as long as the field can count the shared holds. -/
theorem acquire (h : w.Shows holds) (hnext : w.acquire? mode thread = some next)
    (hroom : sharedHolds (⟨thread, mode⟩ :: holds) < fieldSize) :
    next.Shows (⟨thread, mode⟩ :: holds) := by
  cases mode with
  | shared =>
      obtain ⟨hexclusive, rfl⟩ := acquire?_shared_eq_some_iff.mp hnext
      cases h with
      | free waiters => exact .shared waiters (by simp) (by simp) rfl
      | exclusive => contradiction
      | shared waiters hne hshared hfield =>
          refine .shared waiters (by simp) (by simpa using hshared) ?_
          simp only [sharedHolds, List.countP_cons, decide_true, if_true] at hroom
          rw [← sharedHolds, sharedHolds_eq hshared] at hroom
          dsimp only
          rw [Fin.val_add_one_of_lt' (by rw [hfield]; exact hroom), hfield, List.length_cons]
  | exclusive =>
      obtain ⟨hfree, rfl⟩ := acquire?_exclusive_eq_some_iff.mp hnext
      obtain rfl := h.eq_nil_iff.mpr hfree
      cases h with
      | free waiters => exact .exclusive waiters thread
      | shared _ hne => contradiction

/-- A thread that has a hold can give it up. -/
theorem exists_release (h : w.Shows holds) (hmem : ⟨thread, mode⟩ ∈ holds) :
    ∃ next, w.release mode thread = .ok next := by
  cases h with
  | free => contradiction
  | exclusive waiters thread' =>
      obtain ⟨rfl, rfl⟩ := Hold.mk.inj (List.mem_singleton.mp hmem)
      exact ⟨.free, by simp [release]⟩
  | @shared waiters field _ hne hshared hfield =>
      obtain rfl : mode = .shared := hshared _ hmem
      have hpos : field ≠ 0 := by
        rintro rfl
        exact hne (List.length_eq_zero_iff.mp hfield.symm)
      by_cases hlast : field = 1
      · exact ⟨.free, by simp [release, hlast]⟩
      · exact ⟨_, by simp [release, hpos, hlast]; rfl⟩

/-- The word after a hold was given up shows the others. -/
theorem release (h : w.Shows holds) (hmem : ⟨thread, mode⟩ ∈ holds)
    (hnext : w.release mode thread = .ok next) : next.Shows (holds.erase ⟨thread, mode⟩) := by
  cases h with
  | free => contradiction
  | exclusive waiters thread' =>
      obtain ⟨rfl, rfl⟩ := Hold.mk.inj (List.mem_singleton.mp hmem)
      obtain ⟨-, rfl⟩ := release_exclusive_eq_ok_iff.mp hnext
      rw [List.erase_cons_head]
      exact .free false
  | @shared waiters field _ hne hshared hfield =>
      obtain rfl : mode = .shared := hshared _ hmem
      have hlength := List.length_erase_of_mem hmem
      obtain ⟨⟨-, hpos⟩, rfl⟩ := release_shared_eq_ok_iff.mp hnext
      split
      next hlast =>
        have hone : holds.length = 1 := hfield.symm.trans (congrArg Fin.val hlast)
        rw [List.length_eq_zero_iff.mp (hlength.trans (by omega))]
        exact .free false
      next hlast =>
        have hmany : field.val ≠ 1 := fun heq => hlast (Fin.ext heq)
        have hval : field.val ≠ 0 := fun heq => hpos (Fin.ext heq)
        refine .shared waiters ?_ (fun x hx => hshared x (List.mem_of_mem_erase hx)) ?_
        · rw [ne_eq, ← List.length_eq_zero_iff]
          omega
        · rw [Fin.val_sub_one_of_ne_zero hpos, hlength, hfield]

end Shows

/-! ## The mark of waiters -/

variable {w next : LockWord} {holds : List Hold} {mode : LockMode} {thread : ThreadId}

/-- A word in which one of the bits for holds is set. -/
def isHeld (w : LockWord) : Bool := w.exclusive || w.shared

@[simp] theorem isHeld_announce (w : LockWord) : w.announce.isHeld = w.isHeld := rfl

/-- Taking a hold sets a bit for holds and keeps the mark of waiters. -/
theorem marks_acquire (h : w.acquire? mode thread = some next) :
    next.isHeld = true ∧ next.waiters = w.waiters := by
  cases mode with
  | shared =>
      obtain ⟨-, rfl⟩ := acquire?_shared_eq_some_iff.mp h
      simp [isHeld]
  | exclusive =>
      obtain ⟨-, rfl⟩ := acquire?_exclusive_eq_some_iff.mp h
      simp [isHeld]

/-- Giving up a hold leaves the word of a free lock, or else both a bit for holds and the mark of
waiters stay. -/
theorem marks_release (h : w.release mode thread = .ok next) :
    next = .free ∨ next.isHeld = true ∧ next.waiters = w.waiters := by
  cases mode with
  | shared =>
      obtain ⟨⟨hshared, -⟩, rfl⟩ := release_shared_eq_ok_iff.mp h
      split
      · exact .inl rfl
      · exact .inr ⟨by simp [isHeld, hshared], rfl⟩
  | exclusive => exact .inl (release_exclusive_eq_ok_iff.mp h).2

/-- A hold is refused only where there is one already. -/
theorem Shows.isHeld_of_refused (h : w.Shows holds) (hrefused : w.acquire? mode thread = none) :
    w.isHeld = true := by
  cases h with
  | free => cases mode <;> simp [acquire?] at hrefused
  | exclusive => rfl
  | shared => rfl

theorem Shows.ne_nil_of_isHeld (h : w.Shows holds) (hheld : w.isHeld = true) : holds ≠ [] := by
  rintro rfl
  obtain ⟨hexclusive, hshared, -⟩ := h.eq_nil_iff.mp rfl
  simp [isHeld, hexclusive, hshared] at hheld

end LockWord

end KeyValueServer
