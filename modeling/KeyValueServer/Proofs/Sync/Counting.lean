import KeyValueServer.Proofs.Sync.Undisturbed
import Mathlib.Data.List.Induction
import Mathlib.Data.List.Infix

/-!
# How many shared holds a lock counts

Threads take shared holds and give them up, one call after the other, and never more of them than
were taken. As long as fewer holds are outstanding than the field of the word has values, all calls
are granted and the count in the word is the number of holds. The field goes back to zero at the
next hold. The lock then reads as shared by nobody, and nobody can give up a hold.
-/

namespace KeyValueServer

/-- A call of a thread for a shared hold, or to give one up. -/
inductive SharedCall where
  | acquire (thread : ThreadId) (waits : Bool)
  | release (thread : ThreadId)
deriving DecidableEq

namespace SharedCall

def thread : SharedCall → ThreadId
  | acquire thread _ => thread
  | release thread => thread

/-- Where the thread begins the call. -/
def call : SharedCall → LockCall
  | acquire _ waits => .acquire .shared waits
  | release _ => .releasing .shared

def isAcquire : SharedCall → Bool
  | acquire _ _ => true
  | release _ => false

/-- The number of holds that were asked for. -/
def acquires (calls : List SharedCall) : Nat := calls.countP isAcquire

/-- The number of holds that were to be given up. -/
def releases (calls : List SharedCall) : Nat := calls.countP fun c => !c.isAcquire

/-- The number of holds that there should be after the calls. -/
def outstanding (calls : List SharedCall) : Nat := acquires calls - releases calls

/-- A thread makes the call while no other call is under way. -/
def perform (s : Contention) (c : SharedCall) : Contention := s.alone c.thread c.call

/-- The calls are made one after the other, on a lock that was never held. -/
def run (calls : List SharedCall) : Contention := calls.foldl perform .fresh

/-- At no time more holds were given up than taken. -/
def Covered (calls : List SharedCall) : Prop :=
  ∀ earlier, earlier <+: calls → releases earlier ≤ acquires earlier

instance (calls : List SharedCall) : Decidable (Covered calls) :=
  decidable_of_iff (∀ earlier ∈ calls.inits, releases earlier ≤ acquires earlier) (by
    simp only [List.mem_inits, Covered])

/-- All calls are granted, and after each of them the lock says how many holds there are. -/
structure Faithful (calls : List SharedCall) : Prop where
  granted : ∀ earlier c, earlier ++ [c] <+: calls →
    (run (earlier ++ [c])).calls c.thread = .finished (.ok ())
  holders : ∀ earlier, earlier <+: calls →
    (run earlier).lock.word.holders = outstanding earlier
  mode : ∀ earlier, earlier <+: calls →
    ((run earlier).lock.word.mode = some .shared ↔ 0 < outstanding earlier)
  free : ∀ earlier, earlier <+: calls → outstanding earlier = 0 → (run earlier).lock = .free

end SharedCall

/-! ## Words that count -/

namespace LockWord

/-- The word after as many shared holds. -/
def counted (n : Nat) : LockWord := ⟨false, false, decide (0 < n), Fin.ofNat fieldSize n⟩

/-- Beyond the last value of the field the count starts over. -/
theorem acquire?_counted (n : Nat) (thread : ThreadId) :
    (counted n).acquire? .shared thread = some (counted (n + 1)) := by
  have hfield : Fin.ofNat fieldSize n + 1 = Fin.ofNat fieldSize (n + 1) :=
    Fin.ext (Nat.add_mod n 1 fieldSize).symm
  rw [acquire?, counted, hfield]
  simp only [Bool.false_eq_true, if_false, counted, Nat.succ_pos, decide_true]

theorem field_counted {n : Nat} (h : n < fieldSize) : (counted n).field.val = n :=
  Nat.mod_eq_of_lt h

theorem release_counted {n : Nat} (h : n + 1 < fieldSize) (thread : ThreadId) :
    (counted (n + 1)).release .shared thread = .ok (counted n) := by
  have hval : (counted (n + 1)).field.val = n + 1 := field_counted h
  have hpos : (counted (n + 1)).field ≠ 0 := by
    intro hzero
    simp [hzero] at hval
  refine release_shared_eq_ok_iff.mpr ⟨⟨decide_eq_true n.succ_pos, hpos⟩, ?_⟩
  split
  next hone =>
    rw [hone, Fin.val_one] at hval
    obtain rfl : n = 0 := by omega
    rfl
  next hmany =>
    have hfield : (counted (n + 1)).field - 1 = (counted n).field := by
      rw [Fin.ext_iff, Fin.val_sub_one_of_ne_zero hpos, hval, field_counted (by omega)]
      rfl
    have hleft : 0 < n := by
      refine Nat.pos_of_ne_zero fun hzero => hmany (Fin.ext ?_)
      rw [hval, hzero, Fin.val_one]
    rw [hfield]
    simp [counted, hleft]

/-- With one shared hold more than the field can count, the word says that there are none, and none
of them can be given up. -/
theorem release_of_overflow (thread : ThreadId) :
    (counted fieldSize).release .shared thread = .error (.sharedRelease (2 ^ 29)) := rfl

theorem holders_counted {n : Nat} (h : n < fieldSize) : (counted n).holders = n := by
  rw [holders, field_counted h, counted]
  dsimp only
  split_ifs with hpos
  · rfl
  · simpa [eq_comm] using hpos

theorem mode_counted (n : Nat) : (counted n).mode = some .shared ↔ 0 < n := by
  simp [mode, counted]

theorem holders_lt (w : LockWord) : w.holders < fieldSize := by
  rw [holders]
  split_ifs
  · exact w.field.isLt
  · decide

end LockWord

namespace SharedCall

variable {calls : List SharedCall} {s : Contention} {n : Nat}

theorem perform_acquire (h : s.lock = ⟨.counted n, 0⟩) (thread : ThreadId) (waits : Bool) :
    perform s (.acquire thread waits) =
      { s with lock := ⟨.counted (n + 1), 0⟩ }.setCall thread (.finished (.ok ())) := by
  refine Contention.alone_acquire ?_ waits
  rw [Lock.acquire?, h, LockWord.acquire?_counted]
  rfl

theorem perform_release (h : s.lock = ⟨.counted (n + 1), 0⟩) (hroom : n + 1 < fieldSize)
    (thread : ThreadId) :
    perform s (.release thread) =
      { s with lock := ⟨.counted n, 0⟩ }.setCall thread (.finished (.ok ())) := by
  have hrelease : s.lock.release .shared thread = .ok ⟨.counted n, 0⟩ := by
    rw [Lock.release, h, LockWord.release_counted hroom]
  rw [perform, call, SharedCall.thread, Contention.alone_releasing hrelease, h]
  simp [LockWord.counted]

@[simp] theorem acquires_append (calls later : List SharedCall) :
    acquires (calls ++ later) = acquires calls + acquires later :=
  List.countP_append

@[simp] theorem releases_append (calls later : List SharedCall) :
    releases (calls ++ later) = releases calls + releases later :=
  List.countP_append

theorem outstanding_le_length (calls : List SharedCall) : outstanding calls ≤ calls.length :=
  (Nat.sub_le _ _).trans List.countP_le_length

theorem run_append_singleton (calls : List SharedCall) (c : SharedCall) :
    run (calls ++ [c]) = perform (run calls) c := by
  rw [run, List.foldl_append]
  rfl

theorem Covered.of_prefix {earlier : List SharedCall} (h : Covered calls)
    (hearlier : earlier <+: calls) : Covered earlier :=
  fun _ hpart => h _ (hpart.trans hearlier)

theorem outstanding_acquire (h : releases calls ≤ acquires calls) (thread : ThreadId)
    (waits : Bool) : outstanding (calls ++ [.acquire thread waits]) = outstanding calls + 1 := by
  have hacquires : acquires [.acquire thread waits] = 1 := rfl
  have hreleases : releases [.acquire thread waits] = 0 := rfl
  simp only [outstanding, acquires_append, releases_append]
  omega

theorem outstanding_release {thread : ThreadId} (h : Covered (calls ++ [.release thread])) :
    outstanding calls = outstanding (calls ++ [.release thread]) + 1 := by
  have hacquires : acquires [.release thread] = 0 := rfl
  have hreleases : releases [.release thread] = 1 := rfl
  have hcovered := h _ (List.prefix_refl _)
  simp only [outstanding, acquires_append, releases_append] at hcovered ⊢
  omega

/-- One more call, with room in the field for a hold that is given up. -/
theorem perform_of_counted {c : SharedCall} (hcovered : Covered (calls ++ [c]))
    (hlock : s.lock = ⟨.counted (outstanding calls), 0⟩) (hroom : outstanding calls < fieldSize) :
    (perform s c).lock = ⟨.counted (outstanding (calls ++ [c])), 0⟩ ∧
      (perform s c).calls c.thread = .finished (.ok ()) := by
  cases c with
  | acquire thread waits =>
      have hbefore := hcovered calls (List.prefix_append _ _)
      rw [perform_acquire hlock, outstanding_acquire hbefore]
      exact ⟨rfl, Contention.setCall_calls_self _ _ _⟩
  | release thread =>
      rw [outstanding_release hcovered] at hlock hroom
      rw [perform_release hlock hroom]
      exact ⟨rfl, Contention.setCall_calls_self _ _ _⟩

theorem Covered.run (hcovered : Covered calls)
    (hroom : ∀ earlier, earlier <+: calls → outstanding earlier < fieldSize) :
    (SharedCall.run calls).lock = ⟨.counted (outstanding calls), 0⟩ ∧
      ∀ earlier c, earlier ++ [c] <+: calls →
        (SharedCall.run (earlier ++ [c])).calls c.thread = .finished (.ok ()) := by
  induction calls using List.reverseRecOn with
  | nil =>
      refine ⟨rfl, fun earlier c hpart => ?_⟩
      simpa using List.prefix_nil.mp hpart
  | append_singleton calls c ih =>
      have hshorter : calls <+: calls ++ [c] := List.prefix_append _ _
      obtain ⟨hlock, hgranted⟩ := ih (hcovered.of_prefix hshorter)
        fun earlier hpart => hroom earlier (hpart.trans hshorter)
      have hlast := perform_of_counted hcovered hlock (hroom calls hshorter)
      rw [run_append_singleton]
      refine ⟨hlast.1, fun earlier c' hpart => ?_⟩
      rcases List.prefix_concat_iff.mp hpart with heq | hpart
      · obtain ⟨rfl, rfl⟩ := List.append_singleton_inj.mp heq
        rw [run_append_singleton]
        exact hlast.2
      · exact hgranted earlier c' hpart

/-! ## Holds that are only taken, or only given up -/

theorem lock_foldl_of_acquires {m : Nat} (h : s.lock = ⟨.counted m, 0⟩)
    (hcalls : ∀ c ∈ calls, c.isAcquire = true) :
    (calls.foldl perform s).lock = ⟨.counted (m + calls.length), 0⟩ := by
  induction calls generalizing s m with
  | nil => exact h
  | cons c rest ih =>
      obtain ⟨hfirst, hrest⟩ := List.forall_mem_cons.mp hcalls
      cases c with
      | release => contradiction
      | acquire thread waits =>
          rw [List.foldl_cons, perform_acquire h, List.length_cons, Nat.add_comm rest.length,
            ← Nat.add_assoc]
          exact ih rfl hrest

theorem lock_foldl_of_releases (h : s.lock = ⟨.counted calls.length, 0⟩)
    (hcalls : ∀ c ∈ calls, c.isAcquire = false) (hroom : calls.length < fieldSize) :
    (calls.foldl perform s).lock = .free := by
  induction calls generalizing s with
  | nil => exact h
  | cons c rest ih =>
      obtain ⟨hfirst, hrest⟩ := List.forall_mem_cons.mp hcalls
      cases c with
      | acquire => contradiction
      | release thread =>
          rw [List.foldl_cons, perform_release h hroom]
          exact ih rfl hrest (Nat.lt_of_succ_lt hroom)

/-- Any threads take holds, and as many are given up. -/
theorem run_append_of_length_eq {later : List SharedCall}
    (hcalls : ∀ c ∈ calls, c.isAcquire = true) (hlater : ∀ c ∈ later, c.isAcquire = false)
    (hlength : later.length = calls.length) (hroom : calls.length < fieldSize) :
    (run (calls ++ later)).lock = .free := by
  rw [run, List.foldl_append]
  refine lock_foldl_of_releases ?_ hlater (hlength ▸ hroom)
  rw [lock_foldl_of_acquires (m := 0) rfl hcalls, hlength, Nat.zero_add]

/-! ## When a lock counts right -/

/-- The lock counts right exactly if there are always fewer holds than the field has values. So it
is free again once any number of holds below that was taken and as many were given up. -/
theorem Covered.faithful_iff (h : Covered calls) :
    (Faithful calls ↔ ∀ earlier, earlier <+: calls → outstanding earlier < fieldSize) ∧
      ∀ taken given : List SharedCall, (∀ c ∈ taken, c.isAcquire = true) →
        (∀ c ∈ given, c.isAcquire = false) → given.length = taken.length →
        taken.length < fieldSize → (SharedCall.run (taken ++ given)).lock = .free := by
  refine ⟨⟨fun hfaithful earlier hpart => ?_, fun hroom => ?_⟩,
    fun taken given htaken hgiven => run_append_of_length_eq htaken hgiven⟩
  · rw [← hfaithful.holders earlier hpart]
    exact LockWord.holders_lt _
  · have hlock : ∀ earlier, earlier <+: calls →
        (SharedCall.run earlier).lock = ⟨.counted (outstanding earlier), 0⟩ := by
      intro earlier hpart
      exact ((h.of_prefix hpart).run fun first hfirst => hroom first (hfirst.trans hpart)).1
    refine ⟨(h.run hroom).2, fun earlier hpart => ?_, fun earlier hpart => ?_,
      fun earlier hpart hzero => ?_⟩
    · rw [hlock earlier hpart]
      exact LockWord.holders_counted (hroom earlier hpart)
    · rw [hlock earlier hpart]
      exact LockWord.mode_counted _
    · rw [hlock earlier hpart, hzero]
      rfl

/-- Two threads share the lock, and both give up their holds. -/
theorem faithful_of_two :
    Covered [.acquire 1 true, .acquire 2 false, .release 1, .release 2] ∧
      Faithful [.acquire 1 true, .acquire 2 false, .release 1, .release 2] ∧
      (run ([.acquire 1 true, .acquire 2 false] ++ [.release 1, .release 2])).lock = .free := by
  have hcovered : Covered [.acquire 1 true, .acquire 2 false, .release 1, .release 2] := by
    decide
  obtain ⟨hfaithful, hfree⟩ := hcovered.faithful_iff
  refine ⟨hcovered, hfaithful.mpr fun earlier hpart => ?_,
    hfree [.acquire 1 true, .acquire 2 false] [.release 1, .release 2] (by decide) (by decide) rfl
      (by decide)⟩
  exact ((outstanding_le_length earlier).trans hpart.length_le).trans_lt (by decide)

/-- As many holds as the field has values. -/
def tooMany : List SharedCall := List.replicate fieldSize (.acquire 1 true)

theorem acquires_tooMany : acquires tooMany = fieldSize := by
  rw [acquires, tooMany, List.countP_replicate]
  rfl

theorem releases_tooMany : releases tooMany = 0 := by
  rw [releases, tooMany, List.countP_replicate]
  rfl

theorem covered_tooMany : Covered tooMany := by
  intro earlier hpart
  have hnone : releases earlier ≤ 0 := releases_tooMany ▸ hpart.sublist.countP_le
  exact hnone.trans (Nat.zero_le _)

/-- The count has come back to zero. -/
theorem run_tooMany : (run tooMany).lock = ⟨.counted fieldSize, 0⟩ := by
  have hcalls : ∀ c ∈ tooMany, c.isAcquire = true := by
    intro c hmem
    rw [List.eq_of_mem_replicate hmem]
    rfl
  rw [run, lock_foldl_of_acquires (m := 0) rfl hcalls, tooMany, List.length_replicate,
    Nat.zero_add]

theorem not_faithful_tooMany : Covered (tooMany ++ [.release 1]) ∧
    ¬Faithful (tooMany ++ [.release 1]) ∧ outstanding tooMany = fieldSize ∧
    (run tooMany).lock.word.mode = some .shared ∧ (run tooMany).lock.word.holders = 0 ∧
    (run (tooMany ++ [.release 1])).calls 1 =
      .finished (.error (.invalidState (.sharedRelease (2 ^ 29)))) := by
  have hcount : outstanding tooMany = fieldSize := by
    rw [outstanding, acquires_tooMany, releases_tooMany, Nat.sub_zero]
  have hholders : (run tooMany).lock.word.holders = 0 := by
    rw [run_tooMany]
    rfl
  refine ⟨fun earlier hpart => ?_, fun hfaithful => ?_, hcount, ?_, hholders, ?_⟩
  · rcases List.prefix_concat_iff.mp hpart with rfl | hpart
    · rw [releases_append, acquires_append, releases_tooMany, acquires_tooMany]
      have hreleases : releases [.release 1] = 1 := rfl
      rw [hreleases]
      exact Nat.le_add_right_of_le (by decide)
    · exact covered_tooMany earlier hpart
  · have hsame := hfaithful.holders tooMany (List.prefix_append _ _)
    rw [hholders, hcount] at hsame
    exact absurd hsame (by decide)
  · rw [run_tooMany]
    rfl
  · have hrefused : (run tooMany).lock.release .shared 1 =
        .error (.invalidState (.sharedRelease (2 ^ 29))) := by
      rw [Lock.release, run_tooMany, LockWord.release_of_overflow]
    rw [run_append_singleton, perform, call, SharedCall.thread,
      Contention.alone_releasing_of_error hrefused]
    exact Contention.setCall_calls_self _ _ _

end SharedCall

end KeyValueServer
