import KeyValueServer.Proofs.Sync.Roster

/-!
# No wake-up is lost

A thread parks only on a word with the mark of waiters, and the mark leaves the word only together
with the last hold, in a step after which the thread that made it has yet to wake the others. So
whoever is parked either is announced in the word or is about to be woken, and where nobody is
about to wake others somebody holds the lock, whose release will.
-/

namespace KeyValueServer

namespace Roster

/-- The mark of waiters stands only over holds, it is on every word on which a thread means to park,
and it is on the word while threads are parked whom nobody is about to wake. -/
structure Attended (s : Roster) : Prop where
  held : s.contention.lock.word.waiters = true → s.contention.lock.word.isHeld = true
  expecting : ∀ thread request expected,
    s.contention.calls thread = .parking request expected → expected.waiters = true
  parked : ∀ thread, (s.contention.calls thread).isParked = true →
    s.contention.lock.word.waiters = true ∨ ∃ waker, s.contention.calls waker = .waking

variable {s : Roster} {thread : ThreadId}

/-- A change that moves one thread in its call and wakes others at most, by a thread that was not
about to wake them. If the mark of waiters goes the thread is now. -/
theorem Attended.advance (hs : s.Attended) (thread : ThreadId) {next : Contention}
    (holds : List Hold)
    (hheld : next.lock.word.waiters = true → next.lock.word.isHeld = true)
    (hothers : ∀ other, other ≠ thread → next.calls other = s.contention.calls other)
    (hbefore : s.contention.calls thread ≠ .waking)
    (hexpecting : ∀ request expected, next.calls thread = .parking request expected →
      expected.waiters = true)
    (hparked : (next.calls thread).isParked = true → next.lock.word.waiters = true)
    (hmark : s.contention.lock.word.waiters = true →
      next.lock.word.waiters = true ∨ next.calls thread = .waking) :
    Attended ⟨next, holds⟩ where
  held := hheld
  expecting other request expected hcall := by
    by_cases hother : other = thread
    · subst hother
      exact hexpecting request expected hcall
    · exact hs.expecting other request expected (hothers other hother ▸ hcall)
  parked other hcall := by
    by_cases hother : other = thread
    · subst hother
      exact .inl (hparked hcall)
    · rw [hothers other hother] at hcall
      rcases hs.parked other hcall with hmarked | ⟨waker, hwaker⟩
      · exact (hmark hmarked).imp_right fun hwaking => ⟨thread, hwaking⟩
      · have hne : waker ≠ thread := by
          rintro rfl
          exact hbefore hwaker
        exact .inr ⟨waker, (hothers waker hne).trans hwaker⟩

/-- A thread that only moves in its call, and not to where it parks. -/
theorem Attended.setCall (hs : s.Attended) (holds : List Hold) {call : LockCall}
    (hbefore : s.contention.calls thread ≠ .waking)
    (hexpecting : ∀ request expected, call = .parking request expected → expected.waiters = true)
    (hparked : call.isParked = true → s.contention.lock.word.waiters = true) :
    Attended ⟨s.contention.setCall thread call, holds⟩ := by
  refine hs.advance thread holds hs.held
    (fun other hother => Contention.setCall_calls_of_ne _ _ hother) hbefore ?_ ?_ .inl
  · simpa using hexpecting
  · simpa using hparked

/-- A step keeps the invariant. The mark can go only where the last hold is given up; the thread
that does it found the mark in the word that it replaced, so it goes on to wake the others. -/
theorem Attended.step (hs : s.Attended) (hshows : s.contention.lock.word.Shows s.holds)
    (thread : ThreadId) (glitch : Bool) : (s.perform (.step thread glitch)).Attended := by
  have heffect := s.contention.step_effect thread glitch
  have hexpecting := hs.expecting thread
  simp only [perform]
  generalize s.contention.step thread glitch = next at heffect ⊢
  generalize hcall : s.contention.calls thread = call at heffect hexpecting ⊢
  cases heffect with
  | rest hrest =>
      cases call with
      | finished => exact hs
      | parked => exact hs
      | _ => contradiction
  | load request => exact hs.setCall _ (by simp [hcall]) (by simp) (by simp [LockCall.isParked])
  | retry => exact hs.setCall _ (by simp [hcall]) (by simp) (by simp [LockCall.isParked])
  | refuse => exact hs.setCall _ (by simp [hcall]) (by simp) (by simp [LockCall.isParked])
  | await hmarked =>
      refine hs.setCall _ (by simp [hcall]) ?_ (by simp [LockCall.isParked])
      rintro _ _ ⟨rfl, rfl⟩
      exact hmarked
  | park hsame =>
      refine hs.setCall _ (by simp [hcall]) (by simp) fun _ => ?_
      rw [hsame]
      exact hexpecting _ _ rfl
  | turnBack => exact hs.setCall _ (by simp [hcall]) (by simp) (by simp [LockCall.isParked])
  | comeBack => exact hs.setCall _ (by simp [hcall]) (by simp) (by simp [LockCall.isParked])
  | reload => exact hs.setCall _ (by simp [hcall]) (by simp) (by simp [LockCall.isParked])
  | restart => exact hs.setCall _ (by simp [hcall]) (by simp) (by simp [LockCall.isParked])
  | fail => exact hs.setCall _ (by simp [hcall]) (by simp) (by simp [LockCall.isParked])
  | acquire hacquire =>
      obtain ⟨hheld, hmark⟩ := LockWord.marks_acquire hacquire
      refine hs.advance thread _ (fun _ => hheld)
        (fun other hother => Contention.setCall_calls_of_ne _ _ hother) (by simp [hcall]) ?_ ?_
        (fun hmarked => .inl (hmark.trans hmarked))
      · intro request expected hparking
        rw [Contention.setCall_calls_self] at hparking
        split at hparking <;> contradiction
      · intro hparked
        rw [Contention.setCall_calls_self] at hparked
        split at hparked <;> contradiction
  | announce hrefused =>
      refine hs.advance thread _ (fun _ => ?_)
        (fun other hother => Contention.setCall_calls_of_ne _ _ hother) (by simp [hcall]) ?_
        (by simp [LockCall.isParked]) (fun _ => .inl rfl)
      · exact hshows.isHeld_of_refused hrefused
      · intro request expected hparking
        rw [Contention.setCall_calls_self] at hparking
        obtain ⟨rfl, rfl⟩ := hparking
        rfl
  | @giveUp mode word hrelease =>
      refine hs.advance thread _ ?_
        (fun other hother => Contention.setCall_calls_of_ne _ _ hother) (by simp [hcall]) ?_ ?_ ?_
      · intro hmarked
        rcases LockWord.marks_release hrelease with rfl | ⟨hheld, -⟩
        · contradiction
        · exact hheld
      · intro request expected hparking
        rw [Contention.setCall_calls_self] at hparking
        split at hparking <;> contradiction
      · intro hparked
        rw [Contention.setCall_calls_self] at hparked
        split at hparked <;> contradiction
      · intro hmarked
        rcases LockWord.marks_release hrelease with rfl | ⟨-, hmark⟩
        · exact .inr (by simp [hmarked])
        · exact .inl (hmark.trans hmarked)
  | record =>
      exact hs.advance thread _ hs.held
        (fun other hother => Contention.setCall_calls_of_ne _ _ hother) (by simp [hcall])
        (by simp) (by simp [LockCall.isParked]) .inl
  | wake =>
      refine ⟨hs.held, fun other request expected hparking => ?_, fun other hparked => ?_⟩
      · by_cases hother : other = thread
        · simp [hother] at hparking
        · rw [Contention.setCall_calls_of_ne _ _ hother, Contention.wakeAll_calls,
            LockCall.awaken_eq_parking_iff] at hparking
          exact hs.expecting other request expected hparking
      · by_cases hother : other = thread
        · simp [hother, LockCall.isParked] at hparked
        · simp [Contention.setCall_calls_of_ne _ _ hother] at hparked

theorem attended_fresh : fresh.Attended where
  held := by simp [fresh, Contention.fresh, Lock.free, LockWord.free]
  expecting := by simp [fresh, Contention.fresh]
  parked := by simp [fresh, Contention.fresh, LockCall.isParked]

theorem Reachable.attended (h : s.Reachable) : s.Attended := by
  induction h with
  | fresh => exact attended_fresh
  | @move s hs m hpermits hroom ih =>
      have hbegin : ∀ thread, s.isIdle thread = true → s.contention.calls thread ≠ .waking := by
        intro thread hidle hwaking
        simp [isIdle, hwaking] at hidle
      cases m with
      | acquire thread mode waits =>
          exact ih.setCall _ (hbegin thread hpermits) (by simp [LockCall.acquire])
            (by simp [LockCall.acquire, LockCall.isParked])
      | release thread mode =>
          simp only [permits, Bool.and_eq_true] at hpermits
          exact ih.setCall _ (hbegin thread hpermits.1) (by simp) (by simp [LockCall.isParked])
      | step thread glitch => exact ih.step hs.consistent.shows thread glitch

/-- While a thread is parked, bit 31 of the word is set or a thread that gave up the last hold has
yet to wake the others. The bit is set only beside one of those for holds, so where nobody is about
to wake others a parked thread waits for a hold that somebody has. -/
theorem Reachable.no_lost_wakeup (h : s.Reachable) :
    (∀ thread, (s.contention.calls thread).isParked = true →
      s.word.testBit 31 = true ∨ ∃ waker, s.contention.calls waker = .waking) ∧
    (s.word.testBit 31 = true → s.word.testBit 29 = true ∨ s.word.testBit 30 = true) ∧
    ((∀ waker, s.contention.calls waker ≠ .waking) →
      ∀ thread, (s.contention.calls thread).isParked = true → s.holds ≠ []) := by
  have hs := h.attended
  simp only [word, LockWord.testBit_waiters, LockWord.testBit_shared, LockWord.testBit_exclusive]
  refine ⟨hs.parked, fun hmarked => ?_, fun hnone thread hparked => ?_⟩
  · simpa [LockWord.isHeld, or_comm] using hs.held hmarked
  · rcases hs.parked thread hparked with hmarked | ⟨waker, hwaker⟩
    · exact h.consistent.shows.ne_nil_of_isHeld (hs.held hmarked)
    · exact absurd hwaker (hnone waker)

/-- Thread 2 has spun until it parked on the lock that thread 1 holds, and thread 1 has read the
word to give its hold up but has not replaced it. -/
theorem no_lost_wakeup_of_parked :
    ∃ s : Roster, s.Reachable ∧ (s.contention.calls 2).isParked = true ∧
      (s.word.testBit 31 = true ∨ ∃ waker, s.contention.calls waker = .waking) := by
  have hreach := Reachable.fresh.run
    ([.acquire 1 .exclusive true, .step 1 false, .step 1 false, .step 1 false,
      .acquire 2 .shared true] ++ List.replicate 11 (.step 2 false) ++
      [.release 1 .exclusive, .step 1 false]) (by decide)
  exact ⟨_, hreach, by decide, hreach.no_lost_wakeup.1 2 (by decide)⟩

end Roster

end KeyValueServer
