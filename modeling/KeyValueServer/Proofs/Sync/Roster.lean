import KeyValueServer.Proofs.Sync.Effect

/-!
# Rosters of holds

Beside the threads that contend for a lock a roster is kept of the holds on it. A thread has a hold
from the step in which it replaces the word to take it until the step in which it replaces the word
to give it up. Threads give up only what they hold, and there are never so many shared holds that
the field of the word could not count them. The word then shows the roster at all times.
-/

namespace KeyValueServer

/-- The holds of all threads after one of them went from one place in a call to another. -/
def LockCall.holdsAfter (thread : ThreadId) (holds : List Hold) :
    (before after : LockCall) → List Hold
  | deciding request _, after =>
      if after.hasSucceeded then ⟨thread, request.mode⟩ :: holds else holds
  | replacing mode _, after =>
      if after.hasSucceeded then holds.erase ⟨thread, mode⟩ else holds
  | _, _ => holds

theorem LockCall.holdsAfter_of_not_hasSucceeded (thread : ThreadId) (holds : List Hold)
    (before : LockCall) {after : LockCall} (h : after.hasSucceeded = false) :
    LockCall.holdsAfter thread holds before after = holds := by
  cases before <;> simp [LockCall.holdsAfter, h]

/-- Threads contending for a lock, and the holds they have on it. -/
structure Roster where
  contention : Contention
  holds : List Hold

/-- What can happen next: a thread begins a call for a hold or to give one up, or it takes the next
step of its call. -/
inductive LockMove where
  | acquire (thread : ThreadId) (mode : LockMode) (waits : Bool)
  | release (thread : ThreadId) (mode : LockMode)
  | step (thread : ThreadId) (glitch : Bool)

namespace Roster

/-- A lock that was never held, and no call under way. -/
def fresh : Roster := ⟨.fresh, []⟩

/-- The word of the lock, as a number. -/
def word (s : Roster) : Nat := s.contention.lock.word.toNat

/-- Whether a thread has no call under way. -/
def isIdle (s : Roster) (thread : ThreadId) : Bool :=
  match s.contention.calls thread with
  | .finished _ => true
  | _ => false

/-- A thread begins a call after its last one has returned, and gives up only what it holds. -/
def permits (s : Roster) : LockMove → Bool
  | .acquire thread _ _ => s.isIdle thread
  | .release thread mode => s.isIdle thread && decide (⟨thread, mode⟩ ∈ s.holds)
  | .step _ _ => true

def perform (s : Roster) : LockMove → Roster
  | .acquire thread mode waits =>
      { s with contention := s.contention.setCall thread (.acquire mode waits) }
  | .release thread mode => { s with contention := s.contention.setCall thread (.releasing mode) }
  | .step thread glitch =>
      let next := s.contention.step thread glitch
      ⟨next, LockCall.holdsAfter thread s.holds (s.contention.calls thread) (next.calls thread)⟩

/-- The rosters that come about, in any order of moves, while there are fewer shared holds than the
field has values. -/
inductive Reachable : Roster → Prop
  | fresh : Reachable fresh
  | move {s : Roster} (hs : Reachable s) (m : LockMove) (hpermits : s.permits m = true)
      (hroom : sharedHolds (s.perform m).holds < fieldSize) : Reachable (s.perform m)

/-- Whether a list of moves can be made one after the other. -/
def allows (s : Roster) : List LockMove → Bool
  | [] => true
  | m :: rest =>
      s.permits m && decide (sharedHolds (s.perform m).holds < fieldSize) &&
        (s.perform m).allows rest

theorem Reachable.run {s : Roster} (hs : s.Reachable) (moves : List LockMove)
    (h : s.allows moves = true) : (moves.foldl perform s).Reachable := by
  induction moves generalizing s with
  | nil => exact hs
  | cons m rest ih =>
      simp only [allows, Bool.and_eq_true, decide_eq_true_eq] at h
      exact ih (hs.move m h.1.1 h.1.2) h.2

/-! ## The invariant -/

/-- The word shows the holds, a thread about to give up a hold has it, and the word that it has read
lets it do so. -/
structure Consistent (s : Roster) : Prop where
  shows : s.contention.lock.word.Shows s.holds
  held : ∀ thread mode, (s.contention.calls thread).givesUp = some mode →
    ⟨thread, mode⟩ ∈ s.holds
  judged : ∀ thread mode seen, s.contention.calls thread = .replacing mode seen →
    ∃ next, seen.release mode thread = .ok next

variable {s : Roster} {thread : ThreadId}

/-- A change that moves one thread in its call, wakes others at most and leaves them their holds. -/
theorem Consistent.advance (hs : s.Consistent) (thread : ThreadId) {next : Contention}
    {holds : List Hold}
    (hshows : next.lock.word.Shows holds)
    (hkept : ∀ h ∈ s.holds, h.thread ≠ thread → h ∈ holds)
    (hothers : ∀ other, other ≠ thread → next.calls other = s.contention.calls other ∨
      next.calls other = (s.contention.calls other).awaken)
    (hheld : ∀ mode, (next.calls thread).givesUp = some mode → ⟨thread, mode⟩ ∈ holds)
    (hjudged : ∀ mode seen, next.calls thread = .replacing mode seen →
      ∃ word, seen.release mode thread = .ok word) :
    Consistent ⟨next, holds⟩ where
  shows := hshows
  held other mode hmode := by
    by_cases hother : other = thread
    · subst hother
      exact hheld mode hmode
    · refine hkept _ (hs.held other mode ?_) hother
      rcases hothers other hother with heq | heq <;> simpa [heq] using hmode
  judged other mode seen hseen := by
    by_cases hother : other = thread
    · subst hother
      exact hjudged mode seen hseen
    · refine hs.judged other mode seen ?_
      rcases hothers other hother with heq | heq
      · rwa [heq] at hseen
      · exact LockCall.awaken_eq_replacing_iff.mp (heq ▸ hseen)

/-- A thread that only moves in its call. -/
theorem Consistent.setCall (hs : s.Consistent) {call : LockCall}
    (hheld : ∀ mode, call.givesUp = some mode → ⟨thread, mode⟩ ∈ s.holds)
    (hjudged : ∀ mode seen, call = .replacing mode seen →
      ∃ next, seen.release mode thread = .ok next) :
    Consistent ⟨s.contention.setCall thread call, s.holds⟩ := by
  refine hs.advance thread hs.shows (fun _ hmem _ => hmem)
    (fun other hother => .inl (Contention.setCall_calls_of_ne _ _ hother)) ?_ ?_
  · intro mode hmode
    rw [Contention.setCall_calls_self] at hmode
    exact hheld mode hmode
  · intro mode seen hseen
    rw [Contention.setCall_calls_self] at hseen
    exact hjudged mode seen hseen

/-- A thread that moves in its call to a place where it does not give up a hold. -/
theorem Consistent.setCall_of_none (hs : s.Consistent) {call : LockCall}
    (hcall : call.givesUp = none) : Consistent ⟨s.contention.setCall thread call, s.holds⟩ := by
  refine hs.setCall (fun mode hmode => ?_) (fun mode seen hseen => ?_)
  · rw [hcall] at hmode
    contradiction
  · rw [hseen] at hcall
    contradiction

/-- A thread that replaces the word and moves to a place where it does not give up a hold. -/
theorem Consistent.setWord (hs : s.Consistent) {word : LockWord} {holds : List Hold}
    {call : LockCall} (hshows : word.Shows holds)
    (hkept : ∀ h ∈ s.holds, h.thread ≠ thread → h ∈ holds) (hcall : call.givesUp = none) :
    Consistent ⟨(s.contention.setWord word).setCall thread call, holds⟩ := by
  refine hs.advance thread hshows hkept
    (fun other hother => .inl (Contention.setCall_calls_of_ne _ _ hother)) ?_ ?_
  · intro mode hmode
    rw [Contention.setCall_calls_self, hcall] at hmode
    contradiction
  · intro mode seen hseen
    rw [Contention.setCall_calls_self] at hseen
    rw [hseen] at hcall
    contradiction

/-- A step keeps the invariant. In all cases but three the word and the holds stay as they are; in
the three the word is replaced, and that the word was the one read is what ties the change of the
word to the change of the holds. -/
theorem Consistent.step (hs : s.Consistent) (thread : ThreadId) (glitch : Bool)
    (hroom : sharedHolds (s.perform (.step thread glitch)).holds < fieldSize) :
    (s.perform (.step thread glitch)).Consistent := by
  have heffect := s.contention.step_effect thread glitch
  have hheld := hs.held thread
  have hjudged := hs.judged thread
  simp only [perform] at hroom ⊢
  generalize s.contention.step thread glitch = next at heffect hroom ⊢
  generalize s.contention.calls thread = call at heffect hroom hheld hjudged ⊢
  cases heffect with
  | rest hrest =>
      cases call with
      | finished => exact hs
      | parked => exact hs
      | _ => contradiction
  | load request => exact hs.setCall_of_none rfl
  | retry request seen budget =>
      rw [LockCall.holdsAfter_of_not_hasSucceeded _ _ _ (by simp [LockCall.hasSucceeded])]
      exact hs.setCall_of_none rfl
  | refuse =>
      rw [LockCall.holdsAfter_of_not_hasSucceeded _ _ _ (by simp [LockCall.hasSucceeded])]
      exact hs.setCall_of_none rfl
  | await =>
      rw [LockCall.holdsAfter_of_not_hasSucceeded _ _ _ (by simp [LockCall.hasSucceeded])]
      exact hs.setCall_of_none rfl
  | park => exact hs.setCall_of_none rfl
  | turnBack request expected => exact hs.setCall_of_none rfl
  | comeBack request => exact hs.setCall_of_none rfl
  | reload mode =>
      refine hs.setCall hheld ?_
      rintro _ _ ⟨rfl, rfl⟩
      exact hs.shows.exists_release (hheld mode rfl)
  | restart mode seen =>
      rw [LockCall.holdsAfter_of_not_hasSucceeded _ _ _ (by simp [LockCall.hasSucceeded])]
      exact hs.setCall hheld (by simp)
  | fail hfail =>
      obtain ⟨next, hnext⟩ := hjudged _ _ rfl
      rw [hfail] at hnext
      contradiction
  | acquire hacquire =>
      have hdone : ∀ mode : LockMode, LockCall.hasSucceeded
          (if mode = .exclusive then .recording else .finished (.ok ())) = true := by
        intro mode
        cases mode <;> rfl
      simp only [Contention.setCall_calls_self, LockCall.holdsAfter, hdone, if_true] at hroom ⊢
      refine hs.setWord (hs.shows.acquire hacquire hroom)
        (fun h hmem _ => List.mem_cons_of_mem _ hmem) ?_
      split <;> rfl
  | announce hrefused =>
      rw [LockCall.holdsAfter_of_not_hasSucceeded _ _ _ (by simp [LockCall.hasSucceeded])]
      exact hs.setWord hs.shows.announce (fun _ hmem _ => hmem) rfl
  | @giveUp mode word hrelease =>
      have hdone : LockCall.hasSucceeded
          (if s.contention.lock.word.waiters ∧ word = .free then .waking else .finished (.ok ()))
            = true := by
        split <;> rfl
      simp only [Contention.setCall_calls_self, LockCall.holdsAfter, hdone, if_true]
      refine hs.setWord (hs.shows.release (hheld mode rfl) hrelease) ?_ (by split <;> rfl)
      rintro h hmem hother
      exact (List.mem_erase_of_ne (by rintro rfl; exact hother rfl)).mpr hmem
  | record =>
      exact hs.advance thread hs.shows (fun _ hmem _ => hmem)
        (fun other hother => .inl (Contention.setCall_calls_of_ne _ _ hother))
        (by simp [LockCall.givesUp]) (by simp)
  | wake =>
      exact hs.advance thread hs.shows (fun _ hmem _ => hmem)
        (fun other hother => .inr (Contention.setCall_calls_of_ne _ _ hother))
        (by simp [LockCall.givesUp]) (by simp)

theorem consistent_fresh : fresh.Consistent where
  shows := .free false
  held := by simp [fresh, Contention.fresh, LockCall.givesUp]
  judged := by simp [fresh, Contention.fresh]

/-- Every roster that comes about is consistent. -/
theorem Reachable.consistent (h : s.Reachable) : s.Consistent := by
  induction h with
  | fresh => exact consistent_fresh
  | @move s hs m hpermits hroom ih =>
      cases m with
      | acquire thread mode waits => exact ih.setCall_of_none rfl
      | release thread mode =>
          simp only [permits, Bool.and_eq_true, decide_eq_true_eq] at hpermits
          refine ih.setCall ?_ (by simp)
          rintro _ ⟨rfl⟩
          exact hpermits.2
      | step thread glitch => exact ih.step thread glitch hroom

end Roster

end KeyValueServer
