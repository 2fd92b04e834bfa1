import KeyValueServer.Proofs.Sync.Unruly
import Mathlib.Data.List.Induction

/-!
# Calls that a lock refuses

A lock grants a call that does not wait if the holds on it allow the call, whatever other threads
are parked or in the middle of a call. A call that is refused leaves no trace: the lock and all
other threads come to where they would have come without it, and whoever has a hold can give it up.
-/

namespace KeyValueServer

namespace Demand

/-- The thread has read the word and judges its call by it. -/
def judging (seen : LockWord) : Demand → LockCall
  | tryAcquire mode => .deciding ⟨mode, false, spinStart⟩ seen
  | release mode => .replacing mode seen

variable {d : Demand} {s : Contention} {thread : ThreadId} {seen next : LockWord} {e : Error}

theorem step_call (d : Demand) (s : Contention) (thread : ThreadId) (glitch : Bool) :
    (s.setCall thread d.call).step thread glitch = s.setCall thread (d.judging s.lock.word) := by
  cases d with
  | tryAcquire mode => exact Contention.step_loading s thread glitch _
  | release mode => exact Contention.step_releasing s thread glitch mode

theorem step_judging_of_error (h : d.onWord seen thread = .error e) (glitch : Bool) :
    (s.setCall thread (d.judging seen)).step thread glitch =
      s.setCall thread (.finished (.error e)) := by
  cases d with
  | tryAcquire mode =>
      obtain ⟨hword, rfl⟩ := onWord_tryAcquire_eq_error.mp h
      rw [judging, Contention.step_deciding, Contention.attempt_of_none hword rfl]
  | release mode =>
      obtain ⟨fault, hword, rfl⟩ := onWord_release_eq_error.mp h
      rw [judging, Contention.step_replacing, Contention.giveUp_of_error hword]

/-- A thread that may have what it asks for gets it if the word has not changed meanwhile, and
else starts over. -/
theorem step_judging_of_ok (h : d.onWord seen thread = .ok next) (glitch : Bool) :
    (s.lock.word = seen ∧
      (((s.setCall thread (d.judging seen)).step thread glitch).calls thread).hasSucceeded = true) ∨
      (s.setCall thread (d.judging seen)).step thread glitch = s.setCall thread d.call := by
  by_cases hgoes : s.lock.word = seen ∧ (!glitch) = true
  · obtain ⟨rfl, hsure⟩ := hgoes
    refine .inl ⟨rfl, ?_⟩
    cases d with
    | tryAcquire mode =>
        have hword := onWord_tryAcquire_eq_ok.mp h
        simp [judging, Contention.step_deciding, Contention.attempt, hword, hsure]
    | release mode =>
        have hword := onWord_release_eq_ok.mp h
        simp [judging, Contention.step_replacing, Contention.giveUp, hword, hsure]
  · right
    cases d with
    | tryAcquire mode =>
        have hword := onWord_tryAcquire_eq_ok.mp h
        rw [judging, Contention.step_deciding, Contention.attempt]
        simp only [hword, Contention.setCall_lock, if_neg hgoes, Contention.setCall_setCall]
        rfl
    | release mode =>
        have hword := onWord_release_eq_ok.mp h
        rw [judging, Contention.step_replacing, Contention.giveUp]
        simp only [hword, Contention.setCall_lock, if_neg hgoes, Contention.setCall_setCall]
        rfl

end Demand

namespace Roster

variable {s : Roster} {thread : ThreadId} {d : Demand} {moves : List LockMove}

/-- The moves of all threads but one. -/
def others (thread : ThreadId) (moves : List LockMove) : List LockMove :=
  moves.filter fun m => m.thread ≠ thread

/-- After the moves everything is where it would be without the thread, but for the thread itself.
-/
def Traceless (s : Roster) (thread : ThreadId) (d : Demand) (moves : List LockMove)
    (call : LockCall) : Prop :=
  (s.withCall thread d.call).after moves = (s.after (others thread moves)).withCall thread call

/-- What has come of the call of a thread after some moves. Until the call is granted it leaves no
trace, and an answer is right at some moment of the call. -/
inductive Fate (s : Roster) (thread : ThreadId) (d : Demand) (moves : List LockMove) : Prop
  | asking (htraceless : s.Traceless thread d moves d.call)
  | judging (earlier : List LockMove) (hearlier : earlier <+: moves) (seen : LockWord)
      (hseen : ((s.withCall thread d.call).after earlier).contention.lock.word = seen)
      (htraceless : s.Traceless thread d moves (d.judging seen))
  | refused (earlier : List LockMove) (hearlier : earlier <+: moves)
      (hdue : ¬d.IsDue thread ((s.withCall thread d.call).after earlier).holds)
      (htraceless : s.Traceless thread d moves
        (.finished (.error (d.refusal thread ((s.withCall thread d.call).after earlier).word))))
  | granted (earlier : List LockMove) (hearlier : earlier <+: moves)
      (hdue : d.IsDue thread ((s.withCall thread d.call).after earlier).holds)
      (hdone : (((s.withCall thread d.call).after moves).contention.calls thread).hasSucceeded =
        true)

theorem endure_withCall_of_ne (s : Roster) {m : LockMove} (hne : m.thread ≠ thread)
    {call : LockCall} (hcall : call.awaken = call) :
    (s.withCall thread call).endure m = (s.endure m).withCall thread call := by
  cases m with
  | acquire other mode waits =>
      exact congrArg (Roster.mk · s.holds) (Contention.setCall_comm s.contention hne _ _)
  | release other mode =>
      exact congrArg (Roster.mk · s.holds) (Contention.setCall_comm s.contention hne _ _)
  | step other glitch =>
      rw [LockMove.thread_step] at hne
      have hstep := Contention.step_setCall_of_ne s.contention hne hcall glitch
      simp only [endure, withCall, hstep, Contention.setCall_calls_of_ne _ _ hne]

theorem endure_withCall_self (s : Roster) (thread : ThreadId) {call next : LockCall}
    {glitch : Bool} (hnext : next.hasSucceeded = false)
    (h : (s.contention.setCall thread call).step thread glitch = s.contention.setCall thread next) :
    (s.withCall thread call).endure (.step thread glitch) = s.withCall thread next := by
  simp only [endure, withCall, h, Contention.setCall_calls_self,
    LockCall.holdsLeft_of_not_hasSucceeded _ _ _ hnext]

/-- A call that was granted stays so, until the thread begins another. -/
theorem hasSucceeded_endure {m : LockMove} (hm : m.begins = true → m.thread ≠ thread)
    (h : (s.contention.calls thread).hasSucceeded = true) :
    ((s.endure m).contention.calls thread).hasSucceeded = true := by
  cases m with
  | acquire other mode waits =>
      have hne : thread ≠ other := (hm rfl).symm
      rwa [endure, withCall, Contention.setCall_calls_of_ne _ _ hne]
  | release other mode =>
      have hne : thread ≠ other := (hm rfl).symm
      rwa [endure, withCall, Contention.setCall_calls_of_ne _ _ hne]
  | step other glitch =>
      by_cases hne : thread = other
      · subst hne
        cases hcall : s.contention.calls thread with
        | finished result => simpa [endure, Contention.step, hcall] using hcall ▸ h
        | recording => simp [endure, Contention.step, hcall, LockCall.hasSucceeded]
        | waking => simp [endure, Contention.step, hcall, LockCall.hasSucceeded]
        | _ => simp [hcall, LockCall.hasSucceeded] at h
      · rcases s.contention.step_calls_of_ne glitch hne with heq | heq <;> rw [endure, heq]
        · exact h
        · cases hcall : s.contention.calls thread <;>
            simp_all [LockCall.hasSucceeded, LockCall.awaken]

theorem Traceless.other {call : LockCall} (h : s.Traceless thread d moves call) {m : LockMove}
    (hne : m.thread ≠ thread) (hcall : call.awaken = call) :
    s.Traceless thread d (moves ++ [m]) call := by
  have hothers : others thread (moves ++ [m]) = others thread moves ++ [m] := by
    simp [others, hne]
  rw [Traceless, hothers, after_append, after_append, after_cons, after_cons, h,
    endure_withCall_of_ne _ hne hcall, after_nil, after_nil]

theorem Traceless.own {call next : LockCall} {glitch : Bool} (h : s.Traceless thread d moves call)
    (hnext : next.hasSucceeded = false)
    (hstep : ((s.after (others thread moves)).contention.setCall thread call).step thread glitch =
      (s.after (others thread moves)).contention.setCall thread next) :
    s.Traceless thread d (moves ++ [.step thread glitch]) next := by
  have hothers : others thread (moves ++ [.step thread glitch]) = others thread moves := by
    simp [others]
  rw [Traceless, hothers, after_append, after_cons, h, endure_withCall_self _ _ hnext hstep,
    after_nil]

/-- One more move. Before the call is granted a move of another thread does not see it, and a move
of the thread itself is the next step of the call. -/
theorem Fate.move (h : s.Fate thread d moves) {m : LockMove}
    (hm : m.begins = true → m.thread ≠ thread)
    (hshows : ∀ earlier, earlier <+: moves →
      ((s.withCall thread d.call).after earlier).contention.lock.word.Shows
        ((s.withCall thread d.call).after earlier).holds) :
    s.Fate thread d (moves ++ [m]) := by
  have hlonger : ∀ {earlier}, earlier <+: moves → earlier <+: moves ++ [m] :=
    fun hearlier => hearlier.trans (List.prefix_append _ _)
  have hown : m.thread = thread → ∃ glitch, m = .step thread glitch := by
    rintro rfl
    cases m with
    | step other glitch => exact ⟨glitch, rfl⟩
    | _ => exact absurd rfl (hm rfl)
  cases h with
  | asking htraceless =>
      by_cases hthread : m.thread = thread
      · obtain ⟨glitch, rfl⟩ := hown hthread
        refine .judging moves (List.prefix_append _ _) _ ?_
          (htraceless.own (by cases d <;> rfl) (d.step_call _ thread glitch))
        rw [htraceless]
        rfl
      · exact .asking (htraceless.other hthread (by cases d <;> rfl))
  | judging earlier hearlier seen hseen htraceless =>
      by_cases hthread : m.thread = thread
      · obtain ⟨glitch, rfl⟩ := hown hthread
        cases hword : d.onWord seen thread with
        | error e =>
            rcases (hshows earlier hearlier).demand d thread with ⟨-, next, hnext⟩ | ⟨hdue, herror⟩
            · rw [hseen, hword] at hnext
              contradiction
            · refine .refused earlier (hlonger hearlier) hdue (htraceless.own rfl ?_)
              exact Demand.step_judging_of_error (hseen ▸ herror) glitch
        | ok next =>
            rcases Demand.step_judging_of_ok (s := (s.after (others thread moves)).contention)
              hword glitch with ⟨hsame, hdone⟩ | hagain
            · have hnow : ((s.withCall thread d.call).after moves).contention.lock.word = seen := by
                rw [htraceless]
                exact hsame
              refine .granted moves (List.prefix_append _ _) ?_ ?_
              · rcases (hshows moves (List.prefix_refl _)).demand d thread with
                  ⟨hdue, -⟩ | ⟨-, herror⟩
                · exact hdue
                · rw [hnow, hword] at herror
                  contradiction
              · rw [after_append, htraceless]
                exact hdone
            · exact .asking (htraceless.own (by cases d <;> rfl) hagain)
      · exact .judging earlier (hlonger hearlier) seen hseen
          (htraceless.other hthread (by cases d <;> rfl))
  | refused earlier hearlier hdue htraceless =>
      refine .refused earlier (hlonger hearlier) hdue ?_
      by_cases hthread : m.thread = thread
      · obtain ⟨glitch, rfl⟩ := hown hthread
        exact htraceless.own rfl (by simp [Contention.step])
      · exact htraceless.other hthread rfl
  | granted earlier hearlier hdue hdone =>
      refine .granted earlier (hlonger hearlier) hdue ?_
      rw [after_append]
      exact hasSucceeded_endure hm hdone

/-- The fate of a call among any moves of which none begins another call of the thread. -/
theorem Unruly.fate (h : (s.withCall thread d.call).Unruly)
    (hrun : (s.withCall thread d.call).toleratesAll moves = true)
    (hmoves : ∀ m ∈ moves, m.begins = true → m.thread ≠ thread) : s.Fate thread d moves := by
  induction moves using List.reverseRecOn with
  | nil => exact .asking rfl
  | append_singleton moves m ih =>
      simp only [toleratesAll_append, Bool.and_eq_true] at hrun
      have hfate := ih hrun.1 fun m hm => hmoves m (List.mem_append_left _ hm)
      refine hfate.move (hmoves m (by simp)) fun earlier hearlier => ?_
      obtain ⟨later, rfl⟩ := hearlier
      simp only [toleratesAll_append, Bool.and_eq_true] at hrun
      exact (h.run earlier hrun.1.1).shows

/-! ## The main statement -/

/-- A hold can be given up by the thread that has it. -/
theorem isDue_of_mem {h : Hold} {holds : List Hold} (hmem : h ∈ holds) :
    (Demand.release h.mode).IsDue h.thread holds := by
  obtain ⟨thread, mode⟩ := h
  cases mode with
  | shared => exact ⟨_, hmem, rfl⟩
  | exclusive => exact hmem

theorem Unruly.alone_iff (h : s.Unruly) (thread : ThreadId) (d : Demand) :
    (s.contention.alone thread d.call).calls thread = .finished (.ok ()) ↔
      d.IsDue thread s.holds := by
  rcases h.shows.demand d thread with ⟨hdue, hok⟩ | ⟨hdue, herror⟩
  · obtain ⟨lock, hlock⟩ := Demand.exists_onLock_iff.mpr hok
    simp only [hdue, (Demand.alone_of_ok hlock).1]
  · have halone := Demand.alone_of_error (Demand.onLock_eq_error_iff.mpr herror)
    simp [hdue, halone]

theorem Unruly.alone_of_not_isDue (h : s.Unruly) (hdue : ¬d.IsDue thread s.holds) :
    s.contention.alone thread d.call =
      s.contention.setCall thread (.finished (.error (d.refusal thread s.word))) := by
  rcases h.shows.demand d thread with ⟨hdue', -⟩ | ⟨-, herror⟩
  · exact absurd hdue' hdue
  · exact Demand.alone_of_error (Demand.onLock_eq_error_iff.mpr herror)

theorem Unruly.sharedHolds_lt (h : s.Unruly) : sharedHolds s.holds < fieldSize := by
  cases h with
  | fresh => decide
  | move _ _ htolerates => exact sharedHolds_lt_of_tolerates htolerates

theorem Unruly.withCall (h : s.Unruly) (hidle : s.isIdle thread = true) (d : Demand) :
    (s.withCall thread d.call).Unruly := by
  have hopening : s.endure (d.opening thread) = s.withCall thread d.call := by
    cases d <;> rfl
  have htolerates : s.tolerates (d.opening thread) = true := by
    rw [tolerates, hopening, Bool.and_eq_true, decide_eq_true_eq]
    refine ⟨?_, h.sharedHolds_lt⟩
    cases d <;> simpa [Demand.opening] using hidle
  rw [← hopening]
  exact h.move _ htolerates

/-- A roster after a thread has made a whole call without success. -/
def rebuff (s : Roster) (thread : ThreadId) (d : Demand) : Roster :=
  { s with contention := s.contention.alone thread d.call }

theorem Unruly.rebuff (h : s.Unruly) (hidle : s.isIdle thread = true)
    (hdue : ¬d.IsDue thread s.holds) : (s.rebuff thread d).Unruly := by
  have hopen := h.withCall hidle d
  have herror : d.onWord s.contention.lock.word thread = .error (d.refusal thread s.word) :=
    ((h.shows.demand d thread).resolve_left fun hok => hdue hok.1).2
  have hloaded : (s.withCall thread d.call).endure (.step thread false) =
      s.withCall thread (d.judging s.contention.lock.word) :=
    endure_withCall_self s thread (by cases d <;> rfl) (d.step_call _ thread false)
  have hended : (s.withCall thread (d.judging s.contention.lock.word)).endure (.step thread false) =
      s.rebuff thread d := by
    rw [Roster.rebuff, h.alone_of_not_isDue hdue]
    exact endure_withCall_self s thread rfl (Demand.step_judging_of_error herror false)
  have hfirst : (s.withCall thread (d.judging s.contention.lock.word)).Unruly := by
    rw [← hloaded]
    refine hopen.move _ ((tolerates_step_iff _ _ _).mpr ?_)
    rw [hloaded]
    exact h.sharedHolds_lt
  rw [← hended]
  refine hfirst.move _ ((tolerates_step_iff _ _ _).mpr ?_)
  rw [hended]
  exact h.sharedHolds_lt

/-- One thread has come to the end of a call, and all else is as it was. -/
structure Unmoved (before after : Contention) (thread : ThreadId) : Prop where
  lock : after.lock = before.lock
  others : ∀ other, other ≠ thread → after.calls other = before.calls other
  parked : ∀ other, (after.calls other).isParked = (before.calls other).isParked

/-- How a lock answers a call of a thread, in one piece and among the moves of others. -/
structure Judges (s : Roster) (thread : ThreadId) (d : Demand) : Prop where
  whole : (∃ lock, d.onLock s.contention.lock thread = .ok lock) ↔ d.IsDue thread s.holds
  granted : (s.contention.alone thread d.call).calls thread = .finished (.ok ()) ↔
    d.IsDue thread s.holds
  refused : ¬d.IsDue thread s.holds →
    (s.contention.alone thread d.call).calls thread =
        .finished (.error (d.refusal thread s.word)) ∧
      Unmoved s.contention (s.contention.alone thread d.call) thread
  /-- Whatever happens after a refused call, whoever has a hold can give it up. -/
  releases : ¬d.IsDue thread s.holds → ∀ moves, (s.rebuff thread d).toleratesAll moves = true →
    ∀ h ∈ ((s.rebuff thread d).after moves).holds,
      (((s.rebuff thread d).after moves).contention.alone h.thread (.releasing h.mode)).calls
        h.thread = .finished (.ok ())
  amid_granted : ∀ moves, (s.withCall thread d.call).toleratesAll moves = true →
    (∀ m ∈ moves, m.begins = true → m.thread ≠ thread) →
    ((s.withCall thread d.call).after moves).contention.calls thread = .finished (.ok ()) →
    ∃ earlier, earlier <+: moves ∧
      d.IsDue thread ((s.withCall thread d.call).after earlier).holds
  amid_refused : ∀ moves, (s.withCall thread d.call).toleratesAll moves = true →
    (∀ m ∈ moves, m.begins = true → m.thread ≠ thread) →
    ∀ e, ((s.withCall thread d.call).after moves).contention.calls thread = .finished (.error e) →
    s.Traceless thread d moves (.finished (.error e)) ∧
      ∃ earlier, earlier <+: moves ∧
        ¬d.IsDue thread ((s.withCall thread d.call).after earlier).holds ∧
        e = d.refusal thread ((s.withCall thread d.call).after earlier).word

theorem Traceless.calls {call : LockCall} (h : s.Traceless thread d moves call) :
    ((s.withCall thread d.call).after moves).contention.calls thread = call := by
  rw [h]
  exact Contention.setCall_calls_self _ _ _

theorem Fate.of_granted (h : s.Fate thread d moves)
    (hcall : ((s.withCall thread d.call).after moves).contention.calls thread =
      .finished (.ok ())) :
    ∃ earlier, earlier <+: moves ∧
      d.IsDue thread ((s.withCall thread d.call).after earlier).holds := by
  cases h with
  | asking htraceless =>
      rw [htraceless.calls] at hcall
      cases d <;> contradiction
  | judging _ _ _ _ htraceless =>
      rw [htraceless.calls] at hcall
      cases d <;> contradiction
  | refused _ _ _ htraceless =>
      rw [htraceless.calls] at hcall
      simp at hcall
  | granted earlier hearlier hdue => exact ⟨earlier, hearlier, hdue⟩

theorem Fate.of_refused (h : s.Fate thread d moves) {e : Error}
    (hcall : ((s.withCall thread d.call).after moves).contention.calls thread =
      .finished (.error e)) :
    s.Traceless thread d moves (.finished (.error e)) ∧
      ∃ earlier, earlier <+: moves ∧
        ¬d.IsDue thread ((s.withCall thread d.call).after earlier).holds ∧
        e = d.refusal thread ((s.withCall thread d.call).after earlier).word := by
  cases h with
  | asking htraceless =>
      rw [htraceless.calls] at hcall
      cases d <;> contradiction
  | judging _ _ _ _ htraceless =>
      rw [htraceless.calls] at hcall
      cases d <;> contradiction
  | refused earlier hearlier hdue htraceless =>
      obtain rfl := Except.error.inj (LockCall.finished.inj (htraceless.calls.symm.trans hcall))
      exact ⟨htraceless, earlier, hearlier, hdue, rfl⟩
  | granted _ _ _ hdone =>
      rw [hcall] at hdone
      contradiction

/-- A lock grants what the holds on it allow, to whomever, and a call that it refuses leaves no
trace. -/
theorem Unruly.judges (h : s.Unruly) (hidle : s.isIdle thread = true) (d : Demand) :
    s.Judges thread d where
  whole := by
    rw [Demand.exists_onLock_iff]
    rcases h.shows.demand d thread with ⟨hdue, hok⟩ | ⟨hdue, herror⟩
    · exact iff_of_true hok hdue
    · exact iff_of_false (by simp [herror]) hdue
  granted := h.alone_iff thread d
  refused hdue := by
    rw [h.alone_of_not_isDue hdue]
    refine ⟨Contention.setCall_calls_self _ _ _, rfl,
      fun other hne => Contention.setCall_calls_of_ne _ _ hne, fun other => ?_⟩
    by_cases hother : other = thread
    · subst hother
      rw [Contention.setCall_calls_self]
      rw [isIdle] at hidle
      cases hcall : s.contention.calls other <;> simp_all [LockCall.isParked]
    · rw [Contention.setCall_calls_of_ne _ _ hother]
  releases hdue moves hrun h' hmem :=
    (((h.rebuff hidle hdue).run moves hrun).alone_iff h'.thread (.release h'.mode)).mpr
      (isDue_of_mem hmem)
  amid_granted moves hrun hmoves := ((h.withCall hidle d).fate hrun hmoves).of_granted
  amid_refused moves hrun hmoves _ := ((h.withCall hidle d).fate hrun hmoves).of_refused

/-- Thread 1 has an exclusive hold, thread 2 is parked, and thread 3 tries to give up the hold of
thread 1. -/
theorem judges_of_parked : ∃ s : Roster, s.Unruly ∧ s.isIdle 3 = true ∧
    s.holds = [⟨1, .exclusive⟩] ∧ (s.contention.calls 2).isParked = true ∧
    s.Judges 3 (.release .exclusive) := by
  have hunruly := Unruly.fresh.run
    ([.acquire 1 .exclusive true, .step 1 false, .step 1 false, .step 1 false,
      .acquire 2 .shared true] ++ List.replicate 11 (.step 2 false)) (by decide)
  exact ⟨_, hunruly, by decide, by decide, by decide, hunruly.judges (by decide) _⟩

end Roster

end KeyValueServer
