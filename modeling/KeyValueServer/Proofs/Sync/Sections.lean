import KeyValueServer.Proofs.Sync.Roster
import KeyValueServer.Sync.Guarded

/-!
# Critical sections

Threads that reach a guarded value through guards. What a thread does with a guard is a body: it
looks at the value and changes parts of it, in any number of steps, and what it does next may depend
on what it has seen. Between any two of these steps, and between those of taking and dropping the
guard, other threads may come. A section begins with a call for a guard, which may be refused, and
counts from the step in which its thread takes its hold.
-/

namespace KeyValueServer

/-- What a thread does with a guard. -/
inductive Body (α : Type) where
  | done
  | look (next : α → Body α)
  | change (f : α → α) (next : Body α)

/-- A thread, the guard that it takes, and what it does with it. -/
structure Section (α : Type) where
  thread : ThreadId
  mode : LockMode
  body : Body α

variable {α : Type}

/-! ## One section after another -/

namespace Body

/-- Whether nothing is left to do. -/
def isDone : Body α → Bool
  | done => true
  | _ => false

/-- Carry a body out whole through a guard. Tells what was seen. -/
def through (mode : LockMode) : Body α → Guarded α → List α × Guarded α
  | done, g => ([], g)
  | look next, g =>
      let (seen, g') := (next g.value).through mode g
      (g.value :: seen, g')
  | change f next, g => next.through mode (g.put mode (f g.value))

/-- What a body sees, and what it makes of a value. Changes through a read guard are without
effect. -/
def run (mode : LockMode) : Body α → α → List α × α
  | done, a => ([], a)
  | look next, a => (a :: ((next a).run mode a).1, ((next a).run mode a).2)
  | change f next, a => next.run mode (if mode = .exclusive then f a else a)

theorem isDone_iff {body : Body α} : body.isDone = true ↔ body = .done := by
  cases body <;> simp [isDone]

theorem value_put (g : Guarded α) (mode : LockMode) (a : α) :
    g.put mode a = { g with value := if mode = .exclusive then a else g.value } := by
  cases mode <;> rfl

theorem through_eq (mode : LockMode) (body : Body α) (g : Guarded α) :
    body.through mode g =
      ((body.run mode g.value).1, { g with value := (body.run mode g.value).2 }) := by
  induction body generalizing g with
  | done => rfl
  | look next ih => simp only [through, run, ih]
  | change f next ih => rw [through, run, ih, value_put]

/-- Through a read guard nothing is changed. -/
theorem run_shared (body : Body α) (a : α) : (body.run .shared a).2 = a := by
  induction body with
  | done => rfl
  | look next ih => exact ih a
  | change f next ih => exact ih

end Body

namespace Section

/-- Carry a section out whole: take the guard, do all that is to be done with it, and drop it. There
is no result where the thread would have to wait for the guard. -/
def whole (x : Section α) (g : Guarded α) : Option (List α × Guarded α) :=
  (g.enter? x.mode x.thread).map fun g =>
    let (seen, g) := x.body.through x.mode g
    (seen, g.leave x.mode x.thread)

/-- Carry sections out one after another. Tells what each of them saw. -/
def serially : List (Section α) → Guarded α → Option (List (List α) × Guarded α)
  | [], g => some ([], g)
  | x :: rest, g => do
      let (seen, g) ← x.whole g
      let (results, g) ← serially rest g
      some (seen :: results, g)

/-- What sections make of a value, one after another. -/
def leaves (xs : List (Section α)) (a : α) : α := xs.foldl (fun a x => (x.body.run x.mode a).2) a

theorem leaves_append (xs ys : List (Section α)) (a : α) :
    leaves (xs ++ ys) a = leaves ys (leaves xs a) :=
  List.foldl_append

/-- A free lock can be taken and is free again once the guard is dropped. -/
theorem exists_whole (x : Section α) (g : Guarded α) (hfree : g.lock.word = .free) :
    ∃ lock : Lock, lock.word = .free ∧
      x.whole g = some ((x.body.run x.mode g.value).1, ⟨lock, (x.body.run x.mode g.value).2⟩) := by
  have hround : ∃ word, LockWord.free.acquire? x.mode x.thread = some word ∧
      word.release x.mode x.thread = .ok .free := by
    cases x.mode with
    | shared => exact ⟨_, rfl, rfl⟩
    | exclusive => exact ⟨_, rfl, by simp [LockWord.release]⟩
  obtain ⟨word, htaken, hdropped⟩ := hround
  refine ⟨⟨.free, if x.mode = .exclusive then x.thread else g.lock.owner⟩, rfl, ?_⟩
  simp only [whole, Guarded.enter?, Lock.acquire?, hfree, htaken, Option.map_some, Body.through_eq,
    Guarded.leave, Lock.release, hdropped]

/-- Sections that are carried out one after another never wait. Each of them sees what those before
it have left. -/
theorem exists_serially (xs : List (Section α)) (g : Guarded α) (hfree : g.lock.word = .free) :
    ∃ results g', serially xs g = some (results, g') ∧ g'.value = leaves xs g.value ∧
      results.length = xs.length ∧
      ∀ (i : Nat) (x : Section α), xs[i]? = some x →
        results[i]? = some (x.body.run x.mode (leaves (xs.take i) g.value)).1 := by
  induction xs generalizing g with
  | nil => exact ⟨[], g, rfl, rfl, rfl, nofun⟩
  | cons x rest ih =>
      obtain ⟨lock, hlock, hwhole⟩ := x.exists_whole g hfree
      obtain ⟨results, g', hrest, hvalue, hlength, hresults⟩ := ih ⟨lock, _⟩ hlock
      refine ⟨(x.body.run x.mode g.value).1 :: results, g', ?_, hvalue, by simp [hlength], ?_⟩
      · simp only [serially, hwhole, Option.bind_eq_bind, Option.bind_some, hrest]
      · intro i y hy
        cases i with
        | zero =>
            obtain rfl := Option.some.inj hy
            rfl
        | succ i => exact hresults i y hy

end Section

/-! ## Sections of several threads at once -/

/-- How far a thread is with its sections: it has no guard and no call for one, it has called for a
guard, or it has the guard of the section with this number. -/
inductive Post (α : Type) where
  | outside
  | entering (mode : LockMode) (body : Body α)
  | inside (number : Nat)

/-- A section that has begun, what it has seen so far, and what is left of its body. -/
structure Visit (α : Type) extends Section α where
  seen : List α
  rest : Body α

/-- Threads that contend for the lock of a guarded value, the value, how far each of them is, and
the sections in the order in which they took their holds. -/
structure Sections (α : Type) where
  roster : Roster
  value : α
  posts : ThreadId → Post α
  visits : List (Visit α)

/-- What can happen next: a thread calls for a guard, takes the next step of its call, takes the
next step of its body, or drops its guard. -/
inductive SectionMove (α : Type) where
  | enter (thread : ThreadId) (mode : LockMode) (waits : Bool) (body : Body α)
  | step (thread : ThreadId) (glitch : Bool)
  | act (thread : ThreadId)
  | drop (thread : ThreadId)

/-- The mode of the guard that a call is about. -/
def LockCall.asks? : LockCall → Option LockMode
  | loading request => some request.mode
  | deciding request _ => some request.mode
  | parking request _ => some request.mode
  | parked request => some request.mode
  | _ => none

/-- The mode of the guard that a thread has called for. -/
def Post.asks? : Post α → Option LockMode
  | entering mode _ => some mode
  | _ => none

/-- The number of the section whose guard a thread has. -/
def Post.number? : Post α → Option Nat
  | inside number => some number
  | _ => none

namespace Sections

/-- A guarded value that nobody has called for yet. -/
def fresh (a : α) : Sections α := ⟨.fresh, a, fun _ => .outside, []⟩

/-- The value and its lock. -/
def guarded (s : Sections α) : Guarded α := ⟨s.roster.contention.lock, s.value⟩

/-- The sections that have begun. -/
def sections (s : Sections α) : List (Section α) := s.visits.map Visit.toSection

/-- Put a thread to another post. -/
def setPost (s : Sections α) (thread : ThreadId) (post : Post α) : Sections α :=
  { s with posts := fun t => if t = thread then post else s.posts t }

theorem setPost_posts_self (s : Sections α) (thread : ThreadId) (post : Post α) :
    (s.setPost thread post).posts thread = post := if_pos rfl

theorem setPost_posts_of_ne (s : Sections α) {thread other : ThreadId} (post : Post α)
    (h : other ≠ thread) : (s.setPost thread post).posts other = s.posts other := if_neg h

/-- The section whose guard a thread has. -/
def visitOf? (s : Sections α) (thread : ThreadId) : Option (Nat × Visit α) :=
  (s.posts thread).number?.bind fun number => s.visits[number]?.map fun v => (number, v)

/-- A thread calls for a guard when it has none, and drops the one that it has when it has done all
that it is to do with it. -/
def permits (s : Sections α) : SectionMove α → Bool
  | .enter thread _ _ _ =>
      s.roster.isIdle thread && (s.posts thread).asks?.isNone && (s.posts thread).number?.isNone
  | .step _ _ => true
  | .act thread =>
      s.roster.isIdle thread && (s.visitOf? thread).any fun (_, v) => !v.rest.isDone
  | .drop thread =>
      s.roster.isIdle thread && (s.visitOf? thread).any fun (_, v) => v.rest.isDone

/-- The next step of a section's body. -/
def act (s : Sections α) (number : Nat) (v : Visit α) : Sections α :=
  match v.rest with
  | .done => s
  | .look next =>
      let v := { v with seen := v.seen ++ [s.value], rest := next s.value }
      { s with visits := s.visits.set number v }
  | .change f next =>
      let v := { v with rest := next }
      { s with
        value := (s.guarded.put v.mode (f s.value)).value
        visits := s.visits.set number v }

/-- Where a thread is once its call has gone from one place to another. A section begins when its
call succeeds, and ends when its hold is given up. -/
def follow (s : Sections α) (thread : ThreadId) (before after : LockCall) : Sections α :=
  match s.posts thread with
  | .outside => s
  | .entering mode body =>
      if after.hasSucceeded then
        let visits := s.visits ++ [⟨⟨thread, mode, body⟩, [], body⟩]
        { s with visits }.setPost thread (.inside s.visits.length)
      else if after.asks?.isNone then s.setPost thread .outside
      else s
  | .inside _ =>
      if before.givesUp.isSome && after.givesUp.isNone then s.setPost thread .outside else s

def perform (s : Sections α) : SectionMove α → Sections α
  | .enter thread mode waits body =>
      let roster := s.roster.perform (.acquire thread mode waits)
      { s with roster }.setPost thread (.entering mode body)
  | .step thread glitch =>
      let roster := s.roster.perform (.step thread glitch)
      { s with roster }.follow thread (s.roster.contention.calls thread)
        (roster.contention.calls thread)
  | .act thread =>
      match s.visitOf? thread with
      | none => s
      | some (number, v) => s.act number v
  | .drop thread =>
      match s.visitOf? thread with
      | none => s
      | some (_, v) =>
          let roster := s.roster.perform (.release thread v.mode)
          { s with roster }

/-- What comes about from a value, in any order of moves, while there are fewer shared holds than
the field of the lock's word has values. -/
inductive Reachable (a : α) : Sections α → Prop
  | fresh : Reachable a (fresh a)
  | move {s : Sections α} (hs : Reachable a s) (m : SectionMove α) (hpermits : s.permits m = true)
      (hroom : sharedHolds (s.perform m).roster.holds < fieldSize) : Reachable a (s.perform m)

end Sections

end KeyValueServer
