import KeyValueServer.Proofs.Sync.Sections
import Mathlib.Data.List.Forall2

/-!
# Critical sections are serialized

Sections that overlap in time have the effect of sections that are carried out one after another, in
the order in which their threads took their holds. While a writer is at work nobody else has a
guard. While a reader is at work only readers begin. So a section finds the value that those before
it leave, and as long as it lasts nobody else changes the value.
-/

namespace KeyValueServer

/-! ## Calls for a guard -/

namespace LockCall

variable {call : LockCall} {mode : LockMode}

theorem asks?_awaken (call : LockCall) : call.awaken.asks? = call.asks? := by
  cases call <;> rfl

theorem hasSucceeded_of_asks? (h : call.asks? = some mode) : call.hasSucceeded = false := by
  cases call <;> first | rfl | contradiction

/-- What one step makes of a thread's call and of the holds: the call goes on, it is refused, it
gets the hold or it gives the hold up. It fails to give up a hold only if there is none. -/
inductive Turn (thread : ThreadId) (holds : List Hold) :
    LockCall → LockCall → List Hold → Prop
  | goOn {before after : LockCall} (hasks : after.asks? = before.asks?)
      (hgivesUp : after.givesUp = before.givesUp) : Turn thread holds before after holds
  | refused {before after : LockCall} (hbefore : before.asks?.isSome = true)
      (hasks : after.asks? = none) (hgivesUp : after.givesUp = none)
      (hfails : after.hasSucceeded = false) : Turn thread holds before after holds
  | granted {before after : LockCall} {mode : LockMode} (hbefore : before.asks? = some mode)
      (hasks : after.asks? = none) (hgivesUp : after.givesUp = none)
      (hsucceeds : after.hasSucceeded = true) :
      Turn thread holds before after (⟨thread, mode⟩ :: holds)
  | gaveUp {before after : LockCall} {mode : LockMode} (hbefore : before.givesUp = some mode)
      (hasks : after.asks? = none) (hgivesUp : after.givesUp = none) :
      Turn thread holds before after (holds.erase ⟨thread, mode⟩)
  | failed {mode : LockMode} {seen : LockWord} {after : LockCall} {fault : StateFault}
      (hfault : seen.release mode thread = .error fault) :
      Turn thread holds (.replacing mode seen) after holds

end LockCall

namespace Roster

/-- A step of one thread leaves the others to their calls. -/
theorem perform_step_of_ne (s : Roster) {thread other : ThreadId} (glitch : Bool)
    (h : other ≠ thread) :
    ((s.perform (.step thread glitch)).contention.calls other).asks? =
        (s.contention.calls other).asks? ∧
      ((s.perform (.step thread glitch)).contention.calls other).givesUp =
        (s.contention.calls other).givesUp := by
  rcases s.contention.step_calls_of_ne glitch h with heq | heq <;> rw [perform, heq]
  · exact ⟨rfl, rfl⟩
  · exact ⟨LockCall.asks?_awaken _, LockCall.givesUp_awaken _⟩

theorem turn_perform_step (s : Roster) (thread : ThreadId) (glitch : Bool) :
    LockCall.Turn thread s.holds (s.contention.calls thread)
      ((s.perform (.step thread glitch)).contention.calls thread)
      (s.perform (.step thread glitch)).holds := by
  have heffect := s.contention.step_effect thread glitch
  simp only [perform]
  generalize s.contention.step thread glitch = next at heffect ⊢
  generalize hcall : s.contention.calls thread = call at heffect ⊢
  cases heffect with
  | rest hrest =>
      rw [hcall]
      cases call with
      | finished => exact .goOn rfl rfl
      | parked => exact .goOn rfl rfl
      | _ => contradiction
  | acquire h =>
      rename HoldRequest => request
      rw [Contention.setCall_calls_self]
      cases hmode : request.mode with
      | shared =>
          simp only [LockCall.holdsAfter, LockCall.hasSucceeded, hmode]
          exact .granted (by simp [LockCall.asks?, hmode]) rfl rfl rfl
      | exclusive =>
          simp only [LockCall.holdsAfter, LockCall.hasSucceeded, hmode]
          exact .granted (by simp [LockCall.asks?, hmode]) rfl rfl rfl
  | refuse =>
      rw [Contention.setCall_calls_self]
      exact .refused rfl rfl rfl rfl
  | fail h =>
      rw [Contention.setCall_calls_self]
      exact .failed h
  | giveUp h =>
      rw [Contention.setCall_calls_self]
      split
      · exact .gaveUp rfl rfl rfl
      · exact .gaveUp rfl rfl rfl
  | _ =>
      rw [Contention.setCall_calls_self]
      exact .goOn rfl rfl

end Roster

/-! ## The invariant -/

variable {α : Type}

theorem Post.eq_inside_iff {post : Post α} {number : Nat} :
    post.number? = some number ↔ post = .inside number := by
  cases post <;> simp [number?]

theorem Post.exists_eq_entering {post : Post α} {mode : LockMode} (h : post.asks? = some mode) :
    ∃ body, post = .entering mode body := by
  cases post with
  | entering asked body => exact ⟨body, by rw [Option.some.inj h]⟩
  | _ => contradiction

/-- A section has seen what it sees of the value at its beginning, and will see and leave the rest
if it goes on with the value that there is now. -/
def Visit.Agrees (v : Visit α) (start current : α) : Prop :=
  ∃ now, (v.rest ≠ .done → now = current) ∧
    v.body.run v.mode start = (v.seen ++ (v.rest.run v.mode now).1, (v.rest.run v.mode now).2)

/-- A section has seen a beginning of what it sees when the sections are carried out one after
another, and all of it once it is done. -/
def Visit.Conforms (v : Visit α) (seen : List α) : Prop :=
  v.seen <+: seen ∧ (v.rest = .done → v.seen = seen)

theorem Visit.Agrees.conforms {v : Visit α} {start current : α} (h : v.Agrees start current) :
    v.Conforms (v.body.run v.mode start).1 := by
  obtain ⟨now, -, hrun⟩ := h
  rw [hrun]
  refine ⟨List.prefix_append _ _, ?_⟩
  intro hdone
  rw [hdone]
  exact (List.append_nil v.seen).symm

theorem Visit.Agrees.of_done {v : Visit α} {start current : α} (h : v.Agrees start current)
    (hdone : v.rest = .done) (later : α) : v.Agrees start later := by
  obtain ⟨now, -, hrun⟩ := h
  exact ⟨now, fun hrest => absurd hdone hrest, hrun⟩

namespace Sections

/-- The calls of the threads fit their posts, who has a guard has the hold for it, sections overlap
only if all of them read, and each section has seen what it would have seen if all before it had
been over when it began. -/
structure Ordered (a : α) (s : Sections α) : Prop where
  reachable : s.roster.Reachable
  asks : ∀ thread, (s.roster.contention.calls thread).asks? = (s.posts thread).asks?
  drops : ∀ thread mode, (s.roster.contention.calls thread).givesUp = some mode →
    ∃ number v, s.posts thread = .inside number ∧ s.visits[number]? = some v ∧ v.mode = mode ∧
      v.rest = .done
  holds : ∀ thread number, s.posts thread = .inside number →
    ∃ v, s.visits[number]? = some v ∧ v.thread = thread ∧ ⟨thread, v.mode⟩ ∈ s.roster.holds
  begun : ∀ number (v : Visit α), s.visits[number]? = some v → v.rest ≠ .done →
    s.posts v.thread = .inside number
  overlap : ∀ thread number (v : Visit α), s.posts thread = .inside number →
    s.visits[number]? = some v → ∀ later (w : Visit α), number < later →
      s.visits[later]? = some w → v.mode = .shared ∧ w.mode = .shared
  agrees : ∀ number (v : Visit α), s.visits[number]? = some v →
    v.Agrees (Section.leaves (s.sections.take number) a) s.value
  settled : (∀ v ∈ s.visits, v.mode = .exclusive → v.rest = .done) →
    s.value = Section.leaves s.sections a

variable {a : α} {s : Sections α} {thread : ThreadId} {number : Nat} {v : Visit α} {roster : Roster}

theorem ordered_fresh (a : α) : (fresh a).Ordered a where
  reachable := .fresh
  asks _ := rfl
  drops _ _ hgivesUp := nomatch hgivesUp
  holds _ _ hpost := nomatch hpost
  begun _ _ hvisit := nomatch hvisit
  overlap _ _ _ hpost := nomatch hpost
  agrees _ _ hvisit := nomatch hvisit
  settled _ := rfl

/-- The section that a thread is in is its own, and it has the hold for it. -/
theorem Ordered.holder (hs : s.Ordered a) (hpost : s.posts thread = .inside number)
    (hvisit : s.visits[number]? = some v) :
    v.thread = thread ∧ ⟨thread, v.mode⟩ ∈ s.roster.holds := by
  obtain ⟨w, hw, hholder⟩ := hs.holds thread number hpost
  obtain rfl := Option.some.inj (hvisit.symm.trans hw)
  exact hholder

/-- A writer that has a guard is the only one that has a hold. -/
theorem Ordered.holds_eq (hs : s.Ordered a) (hpost : s.posts thread = .inside number)
    (hvisit : s.visits[number]? = some v) (hmode : v.mode = .exclusive) :
    s.roster.holds = [⟨thread, .exclusive⟩] := by
  have hhold := (hs.holder hpost hvisit).2
  rw [hmode] at hhold
  exact hs.reachable.consistent.shows.eq_singleton_of_mem hhold

/-- While a writer has a guard nobody else has one. -/
theorem Ordered.sole (hs : s.Ordered a) (hpost : s.posts thread = .inside number)
    (hvisit : s.visits[number]? = some v) (hmode : v.mode = .exclusive) {other : ThreadId}
    {place : Nat} (hother : s.posts other = .inside place) : other = thread := by
  obtain ⟨w, -, -, hhold⟩ := hs.holds other place hother
  rw [hs.holds_eq hpost hvisit hmode, List.mem_singleton] at hhold
  exact congrArg Hold.thread hhold

/-- Where nobody has an exclusive hold no writer is at work. -/
theorem Ordered.value_eq (hs : s.Ordered a)
    (hnone : ∀ thread, ⟨thread, .exclusive⟩ ∉ s.roster.holds) :
    s.value = Section.leaves s.sections a := by
  apply hs.settled
  intro v hv hmode
  obtain ⟨number, hnumber⟩ := List.mem_iff_getElem?.mp hv
  by_contra hrest
  have hhold := (hs.holder (hs.begun number v hnumber hrest) hnumber).2
  exact hnone v.thread (hmode ▸ hhold)

/-! ## Moves that begin and end no section -/

/-- A change of calls, and of the posts of threads without a guard. -/
theorem Ordered.wait (hs : s.Ordered a) {posts : ThreadId → Post α} (hreachable : roster.Reachable)
    (hholds : roster.holds = s.roster.holds)
    (hposts : ∀ thread number, posts thread = .inside number ↔ s.posts thread = .inside number)
    (hasks : ∀ thread, (roster.contention.calls thread).asks? = (posts thread).asks?)
    (hdrops : ∀ thread mode, (roster.contention.calls thread).givesUp = some mode →
      ∃ number v, s.posts thread = .inside number ∧ s.visits[number]? = some v ∧ v.mode = mode ∧
        v.rest = .done) :
    Ordered a { s with roster, posts } where
  reachable := hreachable
  asks := hasks
  drops thread mode hgivesUp := by
    obtain ⟨number, v, hpost, hrest⟩ := hdrops thread mode hgivesUp
    exact ⟨number, v, (hposts thread number).mpr hpost, hrest⟩
  holds thread number hpost := by
    obtain ⟨v, hvisit, hthread, hhold⟩ := hs.holds thread number ((hposts thread number).mp hpost)
    exact ⟨v, hvisit, hthread, hholds ▸ hhold⟩
  begun number v hvisit hrest := (hposts v.thread number).mpr (hs.begun number v hvisit hrest)
  overlap thread number v hpost := hs.overlap thread number v ((hposts thread number).mp hpost)
  agrees := hs.agrees
  settled := hs.settled

/-! ## The steps of a body -/

/-- The section of a writer that has a guard is the last one. -/
theorem Ordered.sections_eq (hs : s.Ordered a) (hpost : s.posts thread = .inside number)
    (hvisit : s.visits[number]? = some v) (hmode : v.mode = .exclusive) :
    s.sections = s.sections.take number ++ [v.toSection] := by
  have hlt : number < s.visits.length := (List.getElem?_eq_some_iff.mp hvisit).1
  have hlast : s.visits.length = number + 1 := by
    by_contra hlonger
    have hlater : number + 1 < s.visits.length := by omega
    have hmodes := hs.overlap thread number v hpost hvisit (number + 1) s.visits[number + 1]
      (Nat.lt_succ_self number) (List.getElem?_eq_getElem hlater)
    rw [hmode] at hmodes
    exact nomatch hmodes.1
  have hsection : s.sections[number]? = some v.toSection := by
    rw [sections, List.getElem?_map, hvisit]
    rfl
  have hall : s.sections.take (number + 1) = s.sections :=
    List.take_of_length_le (by simp [sections, hlast])
  rw [List.take_add_one, hsection] at hall
  exact hall.symm

/-- A step of the section that its thread is in. It may change the value only as a writer. -/
theorem Ordered.progress (hs : s.Ordered a) {next : Visit α} {value : α}
    (hpost : s.posts thread = .inside number) (hvisit : s.visits[number]? = some v)
    (hcall : (s.roster.contention.calls thread).givesUp = none)
    (hsection : next.toSection = v.toSection) (hvalue : v.mode = .shared → value = s.value)
    (hrun : v.body.run v.mode (Section.leaves (s.sections.take number) a) =
      (next.seen ++ (next.rest.run v.mode value).1, (next.rest.run v.mode value).2)) :
    Ordered a { s with value, visits := s.visits.set number next } := by
  have hlt : number < s.visits.length := (List.getElem?_eq_some_iff.mp hvisit).1
  have hself : (s.visits.set number next)[number]? = some next := List.getElem?_set_self hlt
  have hother {place : Nat} (hplace : place ≠ number) :
      (s.visits.set number next)[place]? = s.visits[place]? := List.getElem?_set_ne hplace.symm
  have hold {place : Nat} {w : Visit α} (hw : (s.visits.set number next)[place]? = some w) :
      ∃ before, s.visits[place]? = some before ∧ before.toSection = w.toSection := by
    by_cases hplace : place = number
    · subst hplace
      obtain rfl := Option.some.inj (hself.symm.trans hw)
      exact ⟨v, hvisit, hsection.symm⟩
    · exact ⟨w, (hother hplace).symm.trans hw, rfl⟩
  have hsections : (s.visits.set number next).map Visit.toSection = s.sections := by
    apply List.ext_getElem?
    intro place
    rw [sections, List.getElem?_map, List.getElem?_map]
    by_cases hplace : place = number
    · subst hplace
      rw [hself, hvisit, Option.map_some, Option.map_some, hsection]
    · rw [hother hplace]
  have hthread : v.thread = thread := (hs.holder hpost hvisit).1
  have hinside {other : ThreadId} (hthere : s.posts other = .inside number) : other = thread :=
    (hs.holder hthere hvisit).1.symm.trans hthread
  exact {
    reachable := hs.reachable
    asks := hs.asks
    drops := by
      intro other mode hgivesUp
      obtain ⟨place, w, hthere, hw, hrest⟩ := hs.drops other mode hgivesUp
      have hplace : place ≠ number := by
        rintro rfl
        rw [hinside hthere, hcall] at hgivesUp
        contradiction
      exact ⟨place, w, hthere, (hother hplace).trans hw, hrest⟩
    holds := by
      intro other place hthere
      obtain ⟨w, hw, hwthread, hhold⟩ := hs.holds other place hthere
      by_cases hplace : place = number
      · subst hplace
        obtain rfl := Option.some.inj (hvisit.symm.trans hw)
        refine ⟨next, hself, (congrArg Section.thread hsection).trans hwthread, ?_⟩
        rw [hsection]
        exact hhold
      · exact ⟨w, (hother hplace).trans hw, hwthread, hhold⟩
    begun := by
      intro place w hw hrest
      by_cases hplace : place = number
      · subst hplace
        obtain rfl := Option.some.inj (hself.symm.trans hw)
        rw [hsection, hthread]
        exact hpost
      · exact hs.begun place w ((hother hplace).symm.trans hw) hrest
    overlap := by
      intro other place w hthere hw later x hlater hx
      obtain ⟨w₀, hw₀, hw⟩ := hold hw
      obtain ⟨x₀, hx₀, hx⟩ := hold hx
      rw [← hw, ← hx]
      exact hs.overlap other place w₀ hthere hw₀ later x₀ hlater hx₀
    agrees := by
      intro place w hw
      rw [sections, hsections]
      by_cases hplace : place = number
      · subst hplace
        obtain rfl := Option.some.inj (hself.symm.trans hw)
        refine ⟨value, fun _ => rfl, ?_⟩
        rw [hsection]
        exact hrun
      · have hw := (hother hplace).symm.trans hw
        by_cases hrest : w.rest = .done
        · exact (hs.agrees place w hw).of_done hrest _
        · -- the other section is under way, so it does not overlap with that of a writer
          have hthere := hs.begun place w hw hrest
          have hshared : v.mode = .shared := by
            cases hmode : v.mode with
            | shared => rfl
            | exclusive =>
                rw [hs.sole hpost hvisit hmode hthere, hpost] at hthere
                exact absurd (Post.inside.inj hthere).symm hplace
          dsimp only
          rw [hvalue hshared]
          exact hs.agrees place w hw
    settled := by
      intro hall
      rw [sections, hsections]
      cases hmode : v.mode with
      | shared =>
          dsimp only
          rw [hvalue hmode]
          apply hs.settled
          intro w hw hwriter
          obtain ⟨place, hw⟩ := List.mem_iff_getElem?.mp hw
          have hplace : place ≠ number := by
            rintro rfl
            obtain rfl := Option.some.inj (hvisit.symm.trans hw)
            rw [hmode] at hwriter
            contradiction
          exact hall w (List.mem_iff_getElem?.mpr ⟨place, (hother hplace).trans hw⟩) hwriter
      | exclusive =>
          have hdone : next.rest = .done := by
            refine hall next (List.mem_iff_getElem?.mpr ⟨number, hself⟩) ?_
            rw [hsection, hmode]
          rw [hs.sections_eq hpost hvisit hmode, Section.leaves_append]
          rw [hdone] at hrun
          exact (congrArg Prod.snd hrun).symm }

/-- A step of a section under way. -/
theorem Ordered.act (hs : s.Ordered a) (hpost : s.posts thread = .inside number)
    (hvisit : s.visits[number]? = some v)
    (hcall : (s.roster.contention.calls thread).givesUp = none) : (s.act number v).Ordered a := by
  rw [Sections.act]
  cases hrest : v.rest with
  | done => exact hs
  | look next =>
      obtain ⟨now, hnow, hrun⟩ := hs.agrees number v hvisit
      obtain rfl := hnow (by simp [hrest])
      refine hs.progress hpost hvisit hcall rfl (fun _ => rfl) ?_
      rw [hrun, hrest]
      simp [Body.run]
  | change f next =>
      obtain ⟨now, hnow, hrun⟩ := hs.agrees number v hvisit
      obtain rfl := hnow (by simp [hrest])
      refine hs.progress hpost hvisit hcall rfl (fun hmode => ?_) ?_
      · rw [hmode]
        rfl
      · rw [hrun, hrest, Body.value_put]
        rfl

/-! ## Moves that begin and end a section -/

/-- A thread's call is over, and the others are where they were in theirs. -/
structure CallOver (before : Roster) (thread : ThreadId) (after : Roster) : Prop where
  reachable : after.Reachable
  asks : (after.contention.calls thread).asks? = none
  givesUp : (after.contention.calls thread).givesUp = none
  others : ∀ other, other ≠ thread →
    (after.contention.calls other).asks? = (before.contention.calls other).asks? ∧
      (after.contention.calls other).givesUp = (before.contention.calls other).givesUp

namespace CallOver

variable {before after : Roster} {other : ThreadId} {mode : LockMode}

/-- The thread goes on to a post without a call, and the calls still fit the posts. -/
theorem asks_eq (hover : CallOver before thread after) {posts : ThreadId → Post α}
    (hasks : ∀ other, (before.contention.calls other).asks? = (posts other).asks?) {post : Post α}
    (hpost : post.asks? = none) (other : ThreadId) :
    (after.contention.calls other).asks? =
      (if other = thread then post else posts other).asks? := by
  by_cases hne : other = thread
  · rw [if_pos hne, hne, hpost]
    exact hover.asks
  · rw [if_neg hne]
    exact (hover.others other hne).1.trans (hasks other)

/-- Who is giving up a hold is another thread, which was doing so before. -/
theorem givesUp_cases (hover : CallOver before thread after)
    (hgivesUp : (after.contention.calls other).givesUp = some mode) :
    other ≠ thread ∧ (before.contention.calls other).givesUp = some mode := by
  have hne : other ≠ thread := by
    rintro rfl
    exact nomatch hover.givesUp.symm.trans hgivesUp
  exact ⟨hne, (hover.others other hne).2.symm.trans hgivesUp⟩

end CallOver

theorem getElem?_concat_cases {visits : List (Visit α)} {next w : Visit α} {place : Nat}
    (h : (visits ++ [next])[place]? = some w) :
    visits[place]? = some w ∨ place = visits.length ∧ w = next := by
  by_cases hlt : place < visits.length
  · exact .inl ((List.getElem?_append_left hlt).symm.trans h)
  · rw [List.getElem?_append_right (Nat.le_of_not_lt hlt), List.getElem?_singleton] at h
    split at h
    · exact .inr ⟨by omega, (Option.some.inj h).symm⟩
    · contradiction

/-- A thread whose call has succeeded begins its section. -/
theorem Ordered.begin {mode : LockMode} {body : Body α} (hs : s.Ordered a)
    (hpost : s.posts thread = .entering mode body) (hover : CallOver s.roster thread roster)
    (hholds : roster.holds = ⟨thread, mode⟩ :: s.roster.holds) :
    let visits := s.visits ++ [⟨⟨thread, mode, body⟩, [], body⟩]
    Ordered a ({ s with roster, visits }.setPost thread (.inside s.visits.length)) := by
  intro visits
  have hpostSelf := setPost_posts_self { s with roster, visits } thread (.inside s.visits.length)
  have hpostOther {other : ThreadId} (hne : other ≠ thread) :=
    setPost_posts_of_ne { s with roster, visits } (.inside s.visits.length) hne
  have hold {place : Nat} {w : Visit α} (hw : s.visits[place]? = some w) :
      visits[place]? = some w :=
    (List.getElem?_append_left (List.getElem?_eq_some_iff.mp hw).1).trans hw
  have hnew : visits[s.visits.length]? = some ⟨⟨thread, mode, body⟩, [], body⟩ :=
    List.getElem?_concat_length
  have hshows := hover.reachable.consistent.shows
  rw [hholds] at hshows
  -- a hold was free for the thread, so nobody writes, and nobody reads if it is to write
  have hreaders (t : ThreadId) : ⟨t, .exclusive⟩ ∉ s.roster.holds := by
    intro hmem
    have hone := hshows.eq_singleton_of_mem (List.mem_cons_of_mem _ hmem)
    rw [(List.cons.inj hone).2] at hmem
    contradiction
  have hempty (hmode : mode = .exclusive) : s.roster.holds = [] := by
    subst hmode
    exact (List.cons.inj (hshows.eq_singleton_of_mem List.mem_cons_self)).2
  have hvalue := hs.value_eq hreaders
  have hsections : visits.map Visit.toSection = s.sections ++ [⟨thread, mode, body⟩] :=
    List.map_append
  have hlength : s.sections.length = s.visits.length := List.length_map _
  exact {
    reachable := hover.reachable
    asks := hover.asks_eq hs.asks rfl
    drops := by
      intro other mode hgivesUp
      obtain ⟨hne, hgivesUp⟩ := hover.givesUp_cases hgivesUp
      obtain ⟨place, w, hthere, hw, hrest⟩ := hs.drops other mode hgivesUp
      exact ⟨place, w, (hpostOther hne).trans hthere, hold hw, hrest⟩
    holds := by
      intro other place hthere
      by_cases hne : other = thread
      · subst hne
        obtain rfl := Post.inside.inj (hpostSelf.symm.trans hthere)
        refine ⟨_, hnew, rfl, ?_⟩
        exact hholds ▸ List.mem_cons_self
      · obtain ⟨w, hw, hthread, hhold⟩ := hs.holds other place ((hpostOther hne).symm.trans hthere)
        refine ⟨w, hold hw, hthread, ?_⟩
        exact hholds ▸ List.mem_cons_of_mem _ hhold
    begun := by
      intro place w hw hrest
      rcases getElem?_concat_cases hw with hw | ⟨rfl, rfl⟩
      · have hthere := hs.begun place w hw hrest
        have hne : w.thread ≠ thread := by
          intro heq
          rw [heq, hpost] at hthere
          contradiction
        exact (hpostOther hne).trans hthere
      · exact hpostSelf
    overlap := by
      intro other place w hthere hw later x hlater hx
      by_cases hne : other = thread
      · subst hne
        obtain rfl := Post.inside.inj (hpostSelf.symm.trans hthere)
        have hlt := (List.getElem?_eq_some_iff.mp hx).1
        simp only [setPost, visits, List.length_append, List.length_singleton] at hlt
        omega
      · have hthere := (hpostOther hne).symm.trans hthere
        obtain ⟨w', hw', -, hhold⟩ := hs.holds other place hthere
        obtain rfl := Option.some.inj ((hold hw').symm.trans hw)
        rcases getElem?_concat_cases hx with hx | ⟨-, rfl⟩
        · exact hs.overlap other place w' hthere hw' later x hlater hx
        · constructor
          · cases hmode : w'.mode with
            | shared => rfl
            | exclusive =>
                rw [hmode] at hhold
                exact absurd hhold (hreaders other)
          · cases hmode : mode with
            | shared => rfl
            | exclusive =>
                rw [hempty hmode] at hhold
                contradiction
    agrees := by
      intro place w hw
      rw [sections]
      dsimp only [setPost]
      rw [hsections]
      rcases getElem?_concat_cases hw with hw | ⟨rfl, rfl⟩
      · have hle : place ≤ s.sections.length := hlength ▸ (List.getElem?_eq_some_iff.mp hw).1.le
        rw [List.take_append_of_le_length hle]
        exact hs.agrees place w hw
      · rw [List.take_left' hlength]
        exact ⟨s.value, fun _ => rfl, by rw [hvalue]; rfl⟩
    settled := by
      intro hall
      rw [sections]
      dsimp only [setPost]
      rw [hsections, Section.leaves_append, ← hvalue]
      cases hmode : mode with
      | shared => exact (body.run_shared s.value).symm
      | exclusive =>
          have hdone : body = .done :=
            hall ⟨⟨thread, mode, body⟩, [], body⟩ (List.mem_append_right _ List.mem_cons_self) hmode
          rw [hdone]
          rfl }

/-- A thread that has given up its hold is done with its section. -/
theorem Ordered.finish (hs : s.Ordered a) (hpost : s.posts thread = .inside number)
    (hvisit : s.visits[number]? = some v) (hrest : v.rest = .done) {mode : LockMode}
    (hover : CallOver s.roster thread roster)
    (hholds : roster.holds = s.roster.holds.erase ⟨thread, mode⟩) :
    Ordered a ({ s with roster }.setPost thread .outside) := by
  have hpostSelf := setPost_posts_self { s with roster } thread .outside
  have hpostOther {other : ThreadId} (hne : other ≠ thread) :=
    setPost_posts_of_ne { s with roster } .outside hne
  have hinside {other : ThreadId} {place : Nat}
      (hthere : ({ s with roster }.setPost thread .outside).posts other = .inside place) :
      other ≠ thread ∧ s.posts other = .inside place := by
    have hne : other ≠ thread := by
      rintro rfl
      exact nomatch hpostSelf.symm.trans hthere
    exact ⟨hne, (hpostOther hne).symm.trans hthere⟩
  exact {
    reachable := hover.reachable
    asks := hover.asks_eq hs.asks rfl
    drops := by
      intro other mode hgivesUp
      obtain ⟨hne, hgivesUp⟩ := hover.givesUp_cases hgivesUp
      obtain ⟨place, w, hthere, hrest⟩ := hs.drops other mode hgivesUp
      exact ⟨place, w, (hpostOther hne).trans hthere, hrest⟩
    holds := by
      intro other place hthere
      obtain ⟨hne, hthere⟩ := hinside hthere
      obtain ⟨w, hw, hthread, hhold⟩ := hs.holds other place hthere
      refine ⟨w, hw, hthread, ?_⟩
      rw [setPost, hholds, List.mem_erase_of_ne (by simp [hne])]
      exact hhold
    begun := by
      intro place w hw hunfinished
      have hthere := hs.begun place w hw hunfinished
      have hne : w.thread ≠ thread := by
        intro heq
        rw [heq, hpost] at hthere
        obtain rfl := Post.inside.inj hthere
        obtain rfl := Option.some.inj (hvisit.symm.trans hw)
        exact hunfinished hrest
      exact (hpostOther hne).trans hthere
    overlap := by
      intro other place w hthere
      exact hs.overlap other place w (hinside hthere).2
    agrees := hs.agrees
    settled := hs.settled }

/-! ## All moves -/

theorem visitOf?_eq_some (h : s.visitOf? thread = some (number, v)) :
    s.posts thread = .inside number ∧ s.visits[number]? = some v := by
  obtain ⟨place, hplace, hvisit⟩ := Option.bind_eq_some_iff.mp h
  obtain ⟨w, hw, heq⟩ := Option.map_eq_some_iff.mp hvisit
  obtain ⟨rfl, rfl⟩ := Prod.mk.inj heq
  exact ⟨Post.eq_inside_iff.mp hplace, hw⟩

theorem follow_roster (s : Sections α) (thread : ThreadId) (before after : LockCall) :
    (s.follow thread before after).roster = s.roster := by
  unfold follow
  split
  · rfl
  · split
    · rfl
    · split <;> rfl
  · split <;> rfl

section Follow

variable {before after : LockCall} {mode : LockMode} {body : Body α}

theorem follow_of_goOn (hasks : after.asks? = (s.posts thread).asks?)
    (hgivesUp : after.givesUp = before.givesUp) :
    Sections.follow { s with roster } thread before after = { s with roster } := by
  unfold follow
  cases hpost : s.posts thread with
  | outside => rfl
  | entering mode body =>
      rw [hpost] at hasks
      simp [LockCall.hasSucceeded_of_asks? hasks, hasks, Post.asks?]
  | inside number => cases hgave : before.givesUp <;> simp [hgivesUp, hgave]

theorem follow_of_refused (hpost : s.posts thread = .entering mode body)
    (hfails : after.hasSucceeded = false) (hasks : after.asks? = none) :
    Sections.follow { s with roster } thread before after =
      { s with roster }.setPost thread .outside := by
  simp [follow, hpost, hfails, hasks]

theorem follow_of_granted (hpost : s.posts thread = .entering mode body)
    (hsucceeds : after.hasSucceeded = true) :
    Sections.follow { s with roster } thread before after =
      let visits := s.visits ++ [⟨⟨thread, mode, body⟩, [], body⟩]
      { s with roster, visits }.setPost thread (.inside s.visits.length) := by
  simp [follow, hpost, hsucceeds]

theorem follow_of_gaveUp (hpost : s.posts thread = .inside number)
    (hgave : before.givesUp = some mode) (hgivesUp : after.givesUp = none) :
    Sections.follow { s with roster } thread before after =
      { s with roster }.setPost thread .outside := by
  simp [follow, hpost, hgave, hgivesUp]

end Follow

theorem calls_of_isIdle (h : s.roster.isIdle thread = true) :
    (s.roster.contention.calls thread).asks? = none ∧
      (s.roster.contention.calls thread).givesUp = none := by
  unfold Roster.isIdle at h
  split at h
  next hcall =>
    rw [hcall]
    exact ⟨rfl, rfl⟩
  · contradiction

theorem Ordered.enter (hs : s.Ordered a) {mode : LockMode} {waits : Bool} {body : Body α}
    (hpermits : s.permits (.enter thread mode waits body) = true)
    (hroom : sharedHolds s.roster.holds < fieldSize) :
    (s.perform (.enter thread mode waits body)).Ordered a := by
  simp only [permits, Bool.and_eq_true, Option.isNone_iff_eq_none] at hpermits
  obtain ⟨⟨hidle, -⟩, hnone⟩ := hpermits
  refine hs.wait (hs.reachable.move (.acquire thread mode waits) hidle hroom) rfl ?_ ?_ ?_
  · intro other number
    by_cases hne : other = thread
    · subst hne
      rw [if_pos rfl]
      constructor
      · intro hthere
        contradiction
      · intro hthere
        rw [hthere] at hnone
        contradiction
    · rw [if_neg hne]
  · intro other
    by_cases hne : other = thread
    · subst hne
      rw [if_pos rfl, Roster.perform, Contention.setCall_calls_self]
      rfl
    · rw [if_neg hne, Roster.perform, Contention.setCall_calls_of_ne _ _ hne]
      exact hs.asks other
  · intro other m hgivesUp
    by_cases hne : other = thread
    · subst hne
      rw [Roster.perform, Contention.setCall_calls_self] at hgivesUp
      contradiction
    · rw [Roster.perform, Contention.setCall_calls_of_ne _ _ hne] at hgivesUp
      exact hs.drops other m hgivesUp

theorem Ordered.drop (hs : s.Ordered a) (hpost : s.posts thread = .inside number)
    (hvisit : s.visits[number]? = some v) (hidle : s.roster.isIdle thread = true)
    (hrest : v.rest = .done) (hroom : sharedHolds s.roster.holds < fieldSize) :
    let roster := s.roster.perform (.release thread v.mode)
    Ordered a { s with roster } := by
  intro roster
  have hhold := (hs.holder hpost hvisit).2
  have hreachable : roster.Reachable :=
    hs.reachable.move (.release thread v.mode) (by simp [Roster.permits, hidle, hhold]) hroom
  refine hs.wait hreachable rfl (fun _ _ => Iff.rfl) ?_ ?_
  · intro other
    by_cases hne : other = thread
    · subst hne
      simp only [roster, Roster.perform, Contention.setCall_calls_self, hpost]
      rfl
    · simp only [roster, Roster.perform, Contention.setCall_calls_of_ne _ _ hne]
      exact hs.asks other
  · intro other mode hgivesUp
    by_cases hne : other = thread
    · subst hne
      simp only [roster, Roster.perform, Contention.setCall_calls_self, LockCall.givesUp,
        Option.some.injEq] at hgivesUp
      exact ⟨number, v, hpost, hvisit, hgivesUp, hrest⟩
    · simp only [roster, Roster.perform, Contention.setCall_calls_of_ne _ _ hne] at hgivesUp
      exact hs.drops other mode hgivesUp

/-- A step of a call in which the thread neither gets nor gives up a hold. -/
theorem Ordered.goOn (hs : s.Ordered a) (hreachable : roster.Reachable)
    (hholds : roster.holds = s.roster.holds)
    (hcalls : ∀ other, (roster.contention.calls other).asks? =
        (s.roster.contention.calls other).asks? ∧
      (roster.contention.calls other).givesUp = (s.roster.contention.calls other).givesUp) :
    Ordered a { s with roster } := by
  refine hs.wait hreachable hholds (fun _ _ => Iff.rfl) ?_ ?_
  · intro other
    exact (hcalls other).1.trans (hs.asks other)
  · intro other mode hgivesUp
    exact hs.drops other mode ((hcalls other).2.symm.trans hgivesUp)

/-- A call that is refused leaves its thread without a guard. -/
theorem Ordered.refuse {mode : LockMode} {body : Body α} (hs : s.Ordered a)
    (hpost : s.posts thread = .entering mode body) (hover : CallOver s.roster thread roster)
    (hholds : roster.holds = s.roster.holds) :
    Ordered a ({ s with roster }.setPost thread .outside) := by
  refine hs.wait hover.reachable hholds ?_ (hover.asks_eq hs.asks rfl) ?_
  · intro other number
    by_cases hne : other = thread
    · subst hne
      simp [hpost]
    · rw [if_neg hne]
  · intro other m hgivesUp
    exact hs.drops other m (hover.givesUp_cases hgivesUp).2

theorem Ordered.step (hs : s.Ordered a) (glitch : Bool)
    (hroom : sharedHolds (s.perform (.step thread glitch)).roster.holds < fieldSize) :
    (s.perform (.step thread glitch)).Ordered a := by
  have hturn := s.roster.turn_perform_step thread glitch
  have hothers (other : ThreadId) (hne : other ≠ thread) := s.roster.perform_step_of_ne glitch hne
  have hasks := hs.asks thread
  have hdrops := hs.drops thread
  have hjudged := hs.reachable.consistent.judged thread
  simp only [perform, follow_roster] at hroom ⊢
  have hreachable := hs.reachable.move (.step thread glitch) rfl hroom
  generalize s.roster.perform (.step thread glitch) = roster at *
  generalize hbefore : s.roster.contention.calls thread = before at *
  generalize hafter : roster.contention.calls thread = after at *
  generalize hholds : roster.holds = holds at *
  cases hturn with
  | goOn hsame hgivesUp =>
      rw [follow_of_goOn (hsame.trans hasks) hgivesUp]
      refine hs.goOn hreachable hholds ?_
      intro other
      by_cases hne : other = thread
      · subst hne
        rw [hbefore, hafter]
        exact ⟨hsame, hgivesUp⟩
      · exact hothers other hne
  | refused hasked hnone hgivesUp hfails =>
      obtain ⟨mode, hmode⟩ := Option.isSome_iff_exists.mp hasked
      obtain ⟨body, hpost⟩ := Post.exists_eq_entering (hasks.symm.trans hmode)
      rw [follow_of_refused hpost hfails hnone]
      exact hs.refuse hpost ⟨hreachable, hafter ▸ hnone, hafter ▸ hgivesUp, hothers⟩ hholds
  | @granted _ _ mode hasked hnone hgivesUp hsucceeds =>
      obtain ⟨body, hpost⟩ := Post.exists_eq_entering (hasks.symm.trans hasked)
      rw [follow_of_granted hpost hsucceeds]
      exact hs.begin hpost ⟨hreachable, hafter ▸ hnone, hafter ▸ hgivesUp, hothers⟩ hholds
  | gaveUp hgave hnone hgivesUp =>
      obtain ⟨number, v, hpost, hvisit, -, hrest⟩ := hdrops _ hgave
      rw [follow_of_gaveUp hpost hgave hgivesUp]
      exact hs.finish hpost hvisit hrest ⟨hreachable, hafter ▸ hnone, hafter ▸ hgivesUp, hothers⟩
        hholds
  | failed hfault =>
      obtain ⟨word, hword⟩ := hjudged _ _ rfl
      rw [hfault] at hword
      contradiction

/-- Every move keeps the invariant. -/
theorem Ordered.perform (hs : s.Ordered a) (m : SectionMove α) (hpermits : s.permits m = true)
    (hroom : sharedHolds (s.perform m).roster.holds < fieldSize) : (s.perform m).Ordered a := by
  cases m with
  | enter thread mode waits body => exact hs.enter hpermits hroom
  | step thread glitch => exact hs.step glitch hroom
  | act thread =>
      simp only [permits, Bool.and_eq_true] at hpermits
      simp only [Sections.perform]
      cases hvisit : s.visitOf? thread with
      | none => exact hs
      | some found =>
          obtain ⟨hpost, hvisit⟩ := visitOf?_eq_some hvisit
          exact hs.act hpost hvisit (calls_of_isIdle hpermits.1).2
  | drop thread =>
      simp only [permits, Bool.and_eq_true] at hpermits
      simp only [Sections.perform] at hroom ⊢
      cases hvisit : s.visitOf? thread with
      | none => exact hs
      | some found =>
          rw [hvisit] at hpermits hroom
          obtain ⟨hpost, hvisit⟩ := visitOf?_eq_some hvisit
          exact hs.drop hpost hvisit hpermits.1 (Body.isDone_iff.mp hpermits.2) hroom

theorem Reachable.ordered (hs : Reachable a s) : s.Ordered a := by
  induction hs with
  | fresh => exact ordered_fresh a
  | move _ m hpermits hroom ih => exact ih.perform m hpermits hroom

/-! ## The sections one after another -/

/-- While a writer is at work, the value lacks what the writer has left to do. -/
theorem Ordered.run_rest (hs : s.Ordered a) (hvisit : s.visits[number]? = some v)
    (hmode : v.mode = .exclusive) (hrest : v.rest ≠ .done) :
    (v.rest.run .exclusive s.value).2 = Section.leaves s.sections a := by
  obtain ⟨now, hnow, hrun⟩ := hs.agrees number v hvisit
  obtain rfl := hnow hrest
  rw [hs.sections_eq (hs.begun number v hvisit hrest) hvisit hmode, Section.leaves_append, ← hmode]
  exact (congrArg Prod.snd hrun).symm

/-- However sections overlap, they see and leave what they would if they were carried out one after
another, in the order in which their threads took their holds. Each of them has seen a beginning of
what it sees then, and all of it once it is done. What the value lacks while a writer is at work is
what the writer has left to do, and nobody else has a guard meanwhile. Once nobody has a guard the
sections have seen and left exactly that. -/
theorem Reachable.serializes (hs : Reachable a s) :
    ∃ results g, Section.serially s.sections (.new a) = some (results, g) ∧
      List.Forall₂ Visit.Conforms s.visits results ∧
      ((∀ v ∈ s.visits, v.mode = .exclusive → v.rest = .done) → s.value = g.value) ∧
      (∀ v ∈ s.visits, v.mode = .exclusive → v.rest ≠ .done →
        (v.rest.run .exclusive s.value).2 = g.value) ∧
      (∀ thread number v, s.posts thread = .inside number → s.visits[number]? = some v →
        v.mode = .exclusive → ∀ other place, s.posts other = .inside place → other = thread) ∧
      ((∀ thread number, s.posts thread ≠ .inside number) →
        s.visits.map Visit.seen = results ∧ s.value = g.value) := by
  have hordered := hs.ordered
  obtain ⟨results, g, hserial, hvalue, hlength, hresults⟩ :=
    Section.exists_serially s.sections (.new a) rfl
  have hcount : s.visits.length = results.length := by rw [hlength, sections, List.length_map]
  have hconforms (number : Nat) (v : Visit α) (seen : List α) (hvisit : s.visits[number]? = some v)
      (hseen : results[number]? = some seen) : v.Conforms seen := by
    have hsection : s.sections[number]? = some v.toSection := by
      rw [sections, List.getElem?_map, hvisit]
      rfl
    obtain rfl := Option.some.inj ((hresults number v.toSection hsection).symm.trans hseen)
    exact (hordered.agrees number v hvisit).conforms
  have hsettled (hall : ∀ v ∈ s.visits, v.mode = .exclusive → v.rest = .done) :
      s.value = g.value := (hordered.settled hall).trans hvalue.symm
  refine ⟨results, g, hserial, ?_, hsettled, ?_, ?_, ?_⟩
  · rw [List.forall₂_iff_get]
    refine ⟨hcount, ?_⟩
    intro number hvisit hseen
    exact hconforms number _ _ (List.getElem?_eq_getElem hvisit) (List.getElem?_eq_getElem hseen)
  · intro v hv hmode hrest
    obtain ⟨number, hvisit⟩ := List.mem_iff_getElem?.mp hv
    exact (hordered.run_rest hvisit hmode hrest).trans hvalue.symm
  · intro thread number v hpost hvisit hmode other place hother
    exact hordered.sole hpost hvisit hmode hother
  · intro hnobody
    have hdone (number : Nat) (v : Visit α) (hvisit : s.visits[number]? = some v) :
        v.rest = .done := by
      by_contra hrest
      exact hnobody v.thread number (hordered.begun number v hvisit hrest)
    constructor
    · apply List.ext_getElem?
      intro number
      rw [List.getElem?_map]
      cases hvisit : s.visits[number]? with
      | none =>
          rw [List.getElem?_eq_none_iff, hcount] at hvisit
          exact (List.getElem?_eq_none_iff.mpr hvisit).symm
      | some v =>
          have hlt := hcount ▸ (List.getElem?_eq_some_iff.mp hvisit).1
          have hseen := List.getElem?_eq_getElem hlt
          rw [hseen, Option.map_some, (hconforms number v _ hvisit hseen).2 (hdone number v hvisit)]
    · apply hsettled
      intro v hv _
      obtain ⟨number, hvisit⟩ := List.mem_iff_getElem?.mp hv
      exact hdone number v hvisit

/-- Whether a list of moves can be made one after the other. -/
def allows (s : Sections α) : List (SectionMove α) → Bool
  | [] => true
  | m :: rest =>
      s.permits m && decide (sharedHolds (s.perform m).roster.holds < fieldSize) &&
        (s.perform m).allows rest

theorem Reachable.run (hs : Reachable a s) (moves : List (SectionMove α))
    (h : s.allows moves = true) : Reachable a (moves.foldl Sections.perform s) := by
  induction moves generalizing s with
  | nil => exact hs
  | cons m rest ih =>
      simp only [allows, Bool.and_eq_true, decide_eq_true_eq] at h
      exact ih (hs.move m h.1.1 h.1.2) h.2

/-- Read a number, and store the next one. -/
def increment : Body Nat := .look fun n => .change (fun _ => n + 1) .done

/-- Two threads count. The second one tries in vain while the first one has read the number and has
not stored the next one yet, and then waits. -/
def twoIncrements : List (SectionMove Nat) :=
  [.enter 1 .exclusive true increment, .step 1 false, .step 1 false, .step 1 false, .act 1,
    .enter 2 .exclusive false increment, .step 2 false, .step 2 false,
    .enter 2 .exclusive true increment, .step 2 false, .step 2 false,
    .act 1, .drop 1, .step 1 false, .step 1 false,
    .step 2 false, .step 2 false, .step 2 false, .act 2, .act 2, .drop 2, .step 2 false,
    .step 2 false]

/-- Neither number is lost. -/
theorem serializes_twoIncrements :
    ∃ s, Reachable 0 s ∧ s.sections = [⟨1, .exclusive, increment⟩, ⟨2, .exclusive, increment⟩] ∧
      s.value = 2 := by
  have hreach := (Reachable.fresh (a := 0)).run twoIncrements (by decide)
  have hsections : (twoIncrements.foldl Sections.perform (fresh 0)).sections =
      [⟨1, .exclusive, increment⟩, ⟨2, .exclusive, increment⟩] := rfl
  have hall : ∀ v ∈ (twoIncrements.foldl Sections.perform (fresh 0)).visits,
      v.mode = .exclusive → v.rest = .done := by
    have hdone : ((twoIncrements.foldl Sections.perform (fresh 0)).visits.all fun v =>
        v.rest.isDone) = true := by
      decide
    intro v hv _
    exact Body.isDone_iff.mp (List.all_eq_true.mp hdone v hv)
  obtain ⟨results, g, hserial, -, hvalue, -⟩ := hreach.serializes
  rw [hsections] at hserial
  have hcounted : (Section.serially [⟨1, .exclusive, increment⟩, ⟨2, .exclusive, increment⟩]
      (.new 0)).map (fun r => r.2.value) = some 2 := by
    decide
  rw [hserial] at hcounted
  exact ⟨_, hreach, hsections, (hvalue hall).trans (Option.some.inj hcounted)⟩

end Sections

end KeyValueServer
