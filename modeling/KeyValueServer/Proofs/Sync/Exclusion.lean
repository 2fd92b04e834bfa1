import KeyValueServer.Proofs.Sync.Roster

/-!
# The word of a lock says who holds it

The main statement reads the holders off the 32 bits of the word, in every roster that comes about:
bit 30 over the name of the one exclusive holder, bit 29 over the number of the shared holds, or
neither over zero. So an exclusive hold never stands beside another. It also says that nobody who
gives up a hold is refused: the call returns without an error, and at once if nobody interferes.
-/

namespace KeyValueServer

namespace Roster

variable {s : Roster} {thread : ThreadId}

theorem isIdle_of_isRelease (h : (s.contention.calls thread).isRelease = true) :
    s.isIdle thread = false := by
  unfold isIdle
  cases hcall : s.contention.calls thread <;> simp_all [LockCall.isRelease]

/-- A step of a thread that gives up a hold it has never ends in an error. -/
theorem Consistent.isRelease_step (hs : s.Consistent) (glitch : Bool)
    (hrelease : (s.contention.calls thread).isRelease = true) :
    ((s.contention.step thread glitch).calls thread).isRelease = true ∨
      (s.contention.step thread glitch).calls thread = .finished (.ok ()) := by
  have heffect := s.contention.step_effect thread glitch
  have hjudged := hs.judged thread
  generalize s.contention.step thread glitch = next at heffect ⊢
  generalize s.contention.calls thread = call at heffect hrelease hjudged
  cases heffect with
  | rest hrest => cases call <;> simp_all [LockCall.isRelease, LockCall.isRunnable]
  | reload mode => exact .inl (by simp [LockCall.isRelease])
  | restart mode seen => exact .inl (by simp [LockCall.isRelease])
  | fail hfail =>
      obtain ⟨next, hnext⟩ := hjudged _ _ rfl
      rw [hfail] at hnext
      contradiction
  | giveUp hgive =>
      rw [Contention.setCall_calls_self]
      split
      · exact .inl rfl
      · exact .inr rfl
  | wake => exact .inr (by simp)
  | _ => contradiction

/-- Whatever happens next, a call that gives up a hold goes on or has returned without an error. -/
theorem Consistent.isRelease_perform (hs : s.Consistent) {m : LockMove}
    (hpermits : s.permits m = true) (hrelease : (s.contention.calls thread).isRelease = true) :
    ((s.perform m).contention.calls thread).isRelease = true ∨
      (s.perform m).contention.calls thread = .finished (.ok ()) := by
  have hbusy := isIdle_of_isRelease hrelease
  cases m with
  | acquire other mode waits =>
      have hne : thread ≠ other := by
        rintro rfl
        simp [permits, hbusy] at hpermits
      exact .inl (by rwa [perform, Contention.setCall_calls_of_ne _ _ hne])
  | release other mode =>
      have hne : thread ≠ other := by
        rintro rfl
        simp [permits, hbusy] at hpermits
      exact .inl (by rwa [perform, Contention.setCall_calls_of_ne _ _ hne])
  | step other glitch =>
      by_cases hne : thread = other
      · subst hne
        exact hs.isRelease_step glitch hrelease
      · refine .inl ?_
        rcases s.contention.step_calls_of_ne glitch hne with heq | heq <;> rw [perform, heq]
        · exact hrelease
        · cases hcall : s.contention.calls thread <;> simp_all [LockCall.isRelease, LockCall.awaken]

/-! ## Giving up a hold without interference -/

theorem settle_succ (c : Contention) (thread : ThreadId) (n : Nat)
    (h : (c.calls thread).isRunnable = true) :
    c.settle (n + 1) [thread] = (c.step thread false).settle n [thread] := by
  simp [Contention.settle, h]

theorem settle_of_finished {c : Contention} {thread : ThreadId} {result : Except Error Unit}
    (h : c.calls thread = .finished result) (n : Nat) : c.settle n [thread] = c := by
  cases n <;> simp [Contention.settle, h, LockCall.isRunnable]

theorem settle_waking {c : Contention} (h : c.calls thread = .waking) (n : Nat) :
    (c.settle (n + 1) [thread]).calls thread = .finished (.ok ()) := by
  have hstep : (c.step thread false).calls thread = .finished (.ok ()) := by
    simp [Contention.step, h]
  rw [settle_succ c thread n (by rw [h]; rfl), settle_of_finished hstep, hstep]

theorem settle_replacing {c : Contention} {mode : LockMode} {next : LockWord}
    (h : c.calls thread = .replacing mode c.lock.word)
    (hnext : c.lock.word.release mode thread = .ok next) (n : Nat) :
    (c.settle (n + 2) [thread]).calls thread = .finished (.ok ()) := by
  rw [settle_succ c thread (n + 1) (by rw [h]; rfl)]
  by_cases hwake : c.lock.word.waiters = true ∧ next = .free
  · refine settle_waking ?_ n
    simp [Contention.step, h, Contention.giveUp, hnext, hwake]
  · have hstep : (c.step thread false).calls thread = .finished (.ok ()) := by
      simp [Contention.step, h, Contention.giveUp, hnext, hwake]
    rw [settle_of_finished hstep, hstep]

theorem Consistent.settle_releasing (hs : s.Consistent) {mode : LockMode}
    (h : s.contention.calls thread = .releasing mode) (n : Nat) :
    (s.contention.settle (n + 3) [thread]).calls thread = .finished (.ok ()) := by
  obtain ⟨next, hnext⟩ := hs.shows.exists_release (hs.held thread mode (by rw [h]; rfl))
  have hstep : s.contention.step thread false =
      s.contention.setCall thread (.replacing mode s.contention.lock.word) := by
    simp [Contention.step, h]
  rw [settle_succ s.contention thread (n + 2) (by rw [h]; rfl), hstep]
  have hcall := Contention.setCall_calls_self s.contention thread
    (.replacing mode s.contention.lock.word)
  exact settle_replacing hcall hnext n

/-- Left alone, a thread that gives up a hold is done within four steps: it may find the word
changed once, and then it reads it, replaces it and wakes the others. -/
theorem Consistent.settle_isRelease (hs : s.Consistent)
    (hrelease : (s.contention.calls thread).isRelease = true) :
    (s.contention.settle 4 [thread]).calls thread = .finished (.ok ()) := by
  cases hcall : s.contention.calls thread with
  | releasing mode => exact hs.settle_releasing hcall 1
  | waking => exact settle_waking hcall 3
  | replacing mode seen =>
      obtain ⟨next, hnext⟩ := hs.judged thread mode seen hcall
      by_cases hsame : s.contention.lock.word = seen
      · subst hsame
        exact settle_replacing hcall hnext 2
      · have hstep : s.contention.step thread false =
            s.contention.setCall thread (.releasing mode) := by
          simp [Contention.step, hcall, Contention.giveUp, hnext, hsame]
        have hback : Consistent ⟨s.contention.setCall thread (.releasing mode), s.holds⟩ := by
          refine hs.setCall ?_ (by simp)
          intro mode' hmode
          exact hs.held thread mode' (by rwa [hcall])
        rw [settle_succ s.contention thread 3 (by rw [hcall]; rfl), hstep]
        exact hback.settle_releasing (Contention.setCall_calls_self _ _ _) 0
  | _ => simp_all [LockCall.isRelease]

/-! ## What steps do to the word -/

/-- A step leaves the word alone or changes it by masks. -/
theorem word_step (s : Roster) (thread : ThreadId) (glitch : Bool) :
    (s.perform (.step thread glitch)).word = s.word ∨
      LockWord.Rewrites thread s.word (s.perform (.step thread glitch)).word := by
  have heffect := s.contention.step_effect thread glitch
  simp only [perform, word]
  generalize s.contention.step thread glitch = next at heffect ⊢
  generalize s.contention.calls thread = call at heffect
  cases heffect with
  | acquire hacquire => exact .inr (LockWord.rewrites_acquire hacquire)
  | announce => exact .inr (LockWord.rewrites_announce _ _)
  | giveUp hrelease => exact .inr (LockWord.rewrites_release hrelease)
  | _ => exact .inl rfl

/-! ## The main statement -/

/-- The word of a lock encodes the holds on it, an exclusive hold is the only one, and a thread
that gives up a hold it has is never refused. The word changes by masks alone. -/
theorem Reachable.word_encodes_holds (h : s.Reachable) :
    s.word < 2 ^ 32 ∧
    (∀ thread : ThreadId, s.word.testBit 30 = true ∧ s.word % 2 ^ 29 = thread.val ↔
      s.holds = [⟨thread, .exclusive⟩]) ∧
    (∀ n, s.word.testBit 29 = true ∧ s.word % 2 ^ 29 = n ↔ 0 < n ∧ sharedHolds s.holds = n) ∧
    (s.word.testBit 30 = false ∧ s.word.testBit 29 = false ∧ s.word % 2 ^ 29 = 0 ↔
      s.holds = []) ∧
    (∀ thread, ⟨thread, .exclusive⟩ ∈ s.holds → s.holds = [⟨thread, .exclusive⟩]) ∧
    (∀ thread m, (s.contention.calls thread).isRelease = true → s.permits m = true →
      ((s.perform m).contention.calls thread).isRelease = true ∨
        (s.perform m).contention.calls thread = .finished (.ok ())) ∧
    (∀ thread, (s.contention.calls thread).isRelease = true →
      (s.contention.settle 4 [thread]).calls thread = .finished (.ok ())) ∧
    (∀ thread glitch, (s.perform (.step thread glitch)).word = s.word ∨
      LockWord.Rewrites thread s.word (s.perform (.step thread glitch)).word) := by
  have hs := h.consistent
  refine ⟨LockWord.toNat_lt _, fun thread => ?_, fun n => ?_, ?_,
    fun thread => hs.shows.eq_singleton_of_mem,
    fun thread m hrelease hpermits => hs.isRelease_perform hpermits hrelease,
    fun thread => hs.settle_isRelease, s.word_step⟩
  · rw [word, LockWord.testBit_exclusive, LockWord.toNat_mod, ← Fin.ext_iff]
    exact hs.shows.exclusive_iff
  · rw [word, LockWord.testBit_shared, LockWord.toNat_mod]
    exact hs.shows.shared_iff n
  · rw [word, LockWord.testBit_exclusive, LockWord.testBit_shared, LockWord.toNat_mod,
      hs.shows.eq_nil_iff, ← Fin.val_eq_zero_iff]

/-- Thread 1 has been granted an exclusive hold, thread 2 a shared one after it, and thread 2 is
about to give its hold up. -/
theorem word_encodes_holds_of_run :
    ∃ s : Roster, s.Reachable ∧ s.holds = [⟨2, .shared⟩] ∧
      s.word.testBit 29 = true ∧ s.word % 2 ^ 29 = 1 := by
  have hreach := Reachable.fresh.run
    [.acquire 1 .exclusive true, .step 1 false, .step 1 false, .step 1 false,
      .release 1 .exclusive, .step 1 false, .step 1 false,
      .acquire 2 .shared false, .step 2 false, .step 2 false, .release 2 .shared] (by decide)
  exact ⟨_, hreach, by decide, (hreach.word_encodes_holds.2.2.1 1).mpr (by decide)⟩

end Roster

end KeyValueServer
