import KeyValueServer.Proofs.Sync.Demand

/-!
# Threads that keep to nothing

Nothing stops a thread from giving up what it does not hold. Rosters are kept here also of such
threads. One that gives up a shared hold without having one takes that of another with it, since
the word counts the shared holds and names nobody. The word shows the roster all the same.
-/

namespace KeyValueServer

/-- The holds of all threads after one of them went on in a call. A thread that gives up a shared
hold without having one takes that of another. -/
def LockCall.holdsLeft (thread : ThreadId) (holds : List Hold) :
    (before after : LockCall) → List Hold
  | replacing mode _, after =>
      if after.hasSucceeded then
        if ⟨thread, mode⟩ ∈ holds then holds.erase ⟨thread, mode⟩ else holds.tail
      else holds
  | before, after => LockCall.holdsAfter thread holds before after

theorem LockCall.holdsLeft_of_not_hasSucceeded (thread : ThreadId) (holds : List Hold)
    (before : LockCall) {after : LockCall} (h : after.hasSucceeded = false) :
    LockCall.holdsLeft thread holds before after = holds := by
  cases before <;> simp [LockCall.holdsLeft, LockCall.holdsAfter, h]

@[simp] theorem LockCall.hasSucceeded_taken (mode : LockMode) : LockCall.hasSucceeded
    (if mode = .exclusive then .recording else .finished (.ok ())) = true := by
  cases mode <;> rfl

@[simp] theorem LockCall.hasSucceeded_givenUp (wakes : Prop) [Decidable wakes] :
    LockCall.hasSucceeded (if wakes then .waking else .finished (.ok ())) = true := by
  split <;> rfl

/-- Any thread may give up any shared hold. -/
theorem LockWord.Shows.surrender {w next : LockWord} {holds : List Hold} {mode : LockMode}
    {thread : ThreadId} (h : w.Shows holds) (hnext : w.release mode thread = .ok next) :
    next.Shows (if ⟨thread, mode⟩ ∈ holds then holds.erase ⟨thread, mode⟩ else holds.tail) := by
  split
  next hmem => exact h.release hmem hnext
  next hforeign =>
    cases mode with
    | exclusive => exact absurd (h.release_exclusive.mp ⟨next, hnext⟩) hforeign
    | shared =>
        cases h with
        | free => simp [LockWord.release] at hnext
        | exclusive => simp [LockWord.release] at hnext
        | @shared waiters field _ hne hshared hfield =>
            obtain ⟨⟨owner, mode⟩, rest, rfl⟩ := List.exists_cons_of_ne_nil hne
            obtain rfl : mode = .shared := hshared _ List.mem_cons_self
            have hsame : LockWord.release ⟨waiters, false, true, field⟩ .shared owner = .ok next :=
              hnext
            have hshows := LockWord.Shows.release (.shared waiters hne hshared hfield)
              List.mem_cons_self hsame
            rwa [List.erase_cons_head] at hshows

namespace LockMove

/-- The thread that makes the move. -/
def thread : LockMove → ThreadId
  | acquire thread _ _ => thread
  | release thread _ => thread
  | step thread _ => thread

/-- Whether the move begins a call. -/
def begins : LockMove → Bool
  | step _ _ => false
  | _ => true

variable (t : ThreadId) (mode : LockMode) (b : Bool)

@[simp] theorem thread_acquire : (acquire t mode b).thread = t := rfl

@[simp] theorem thread_release : (release t mode).thread = t := rfl

@[simp] theorem thread_step : (step t b).thread = t := rfl

@[simp] theorem begins_acquire : (acquire t mode b).begins = true := rfl

@[simp] theorem begins_release : (release t mode).begins = true := rfl

@[simp] theorem begins_step : (step t b).begins = false := rfl

end LockMove

namespace Roster

/-- Put a thread at a place in a call. -/
def withCall (s : Roster) (thread : ThreadId) (call : LockCall) : Roster :=
  { s with contention := s.contention.setCall thread call }

/-- What comes of a move, also of one with which a thread begins to give up what it does not hold.
-/
def endure (s : Roster) : LockMove → Roster
  | .acquire thread mode waits => s.withCall thread (.acquire mode waits)
  | .release thread mode => s.withCall thread (.releasing mode)
  | .step thread glitch =>
      let next := s.contention.step thread glitch
      ⟨next, LockCall.holdsLeft thread s.holds (s.contention.calls thread) (next.calls thread)⟩

/-- Whether the thread is free to make the move, and the field can count the holds after it. -/
def tolerates (s : Roster) (m : LockMove) : Bool :=
  (!m.begins || s.isIdle m.thread) && decide (sharedHolds (s.endure m).holds < fieldSize)

theorem sharedHolds_lt_of_tolerates {s : Roster} {m : LockMove} (h : s.tolerates m = true) :
    sharedHolds (s.endure m).holds < fieldSize := by
  rw [tolerates, Bool.and_eq_true, decide_eq_true_eq] at h
  exact h.2

theorem tolerates_step_iff (s : Roster) (thread : ThreadId) (glitch : Bool) :
    s.tolerates (.step thread glitch) = true ↔
      sharedHolds (s.endure (.step thread glitch)).holds < fieldSize := by
  simp [tolerates]

/-- The rosters that come about when threads may begin any call after their last one. -/
inductive Unruly : Roster → Prop
  | fresh : Unruly fresh
  | move {s : Roster} (hs : Unruly s) (m : LockMove) (htolerates : s.tolerates m = true) :
      Unruly (s.endure m)

/-- What has come of a list of moves, one after the other. -/
def after (s : Roster) (moves : List LockMove) : Roster := moves.foldl endure s

/-- Whether a list of moves can be made one after the other. -/
def toleratesAll (s : Roster) : List LockMove → Bool
  | [] => true
  | m :: rest => s.tolerates m && (s.endure m).toleratesAll rest

variable {s : Roster} {thread : ThreadId} {d : Demand} {moves : List LockMove}

@[simp] theorem after_nil : s.after [] = s := rfl

@[simp] theorem after_cons (m : LockMove) : s.after (m :: moves) = (s.endure m).after moves := rfl

@[simp] theorem after_append (later : List LockMove) :
    s.after (moves ++ later) = (s.after moves).after later :=
  List.foldl_append

theorem toleratesAll_append (s : Roster) (moves later : List LockMove) :
    s.toleratesAll (moves ++ later) =
      (s.toleratesAll moves && (s.after moves).toleratesAll later) := by
  induction moves generalizing s with
  | nil => rfl
  | cons m rest ih => simp [toleratesAll, ih, Bool.and_assoc]

theorem Unruly.run (hs : s.Unruly) (moves : List LockMove) (h : s.toleratesAll moves = true) :
    (s.after moves).Unruly := by
  induction moves generalizing s with
  | nil => exact hs
  | cons m rest ih =>
      rw [toleratesAll, Bool.and_eq_true] at h
      exact ih (hs.move m h.1) h.2

/-- The word shows the holds also where threads give up what is not theirs. -/
theorem shows_endure (hs : s.contention.lock.word.Shows s.holds) (m : LockMove)
    (hroom : sharedHolds (s.endure m).holds < fieldSize) :
    (s.endure m).contention.lock.word.Shows (s.endure m).holds := by
  cases m with
  | acquire => exact hs
  | release => exact hs
  | step thread glitch =>
      have heffect := s.contention.step_effect thread glitch
      simp only [endure] at hroom ⊢
      generalize s.contention.step thread glitch = next at heffect hroom ⊢
      generalize s.contention.calls thread = call at heffect hroom ⊢
      cases heffect with
      | rest hrest =>
          cases call with
          | finished => exact hs
          | parked => exact hs
          | _ => contradiction
      | acquire hacquire =>
          simp only [Contention.setCall_calls_self, LockCall.holdsLeft, LockCall.holdsAfter,
            LockCall.hasSucceeded_taken, if_true] at hroom ⊢
          exact hs.acquire hacquire hroom
      | announce =>
          rw [LockCall.holdsLeft_of_not_hasSucceeded _ _ _ (by simp [LockCall.hasSucceeded])]
          exact hs.announce
      | giveUp hrelease =>
          simp only [Contention.setCall_calls_self, LockCall.holdsLeft,
            LockCall.hasSucceeded_givenUp, if_true]
          exact hs.surrender hrelease
      | record => exact hs
      | wake => exact hs
      | _ =>
          rw [LockCall.holdsLeft_of_not_hasSucceeded _ _ _ (by simp [LockCall.hasSucceeded])]
          exact hs

theorem Unruly.shows (h : s.Unruly) : s.contention.lock.word.Shows s.holds := by
  induction h with
  | fresh => exact .free false
  | move hs m htolerates ih => exact shows_endure ih m (sharedHolds_lt_of_tolerates htolerates)

end Roster

end KeyValueServer
