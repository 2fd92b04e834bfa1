import KeyValueServer.Proofs.Custody.Loans
import KeyValueServer.Proofs.Server.Asking
import KeyValueServer.Proofs.Traffic.Alone

/-!
# Threads with errands

Each thread has a list of errands on one table. On an errand it finds or stores a value, copies what
the handle shows if it likes, and gives the handle back before it goes on its next errand; or it
answers the request at the read position of a buffer, which comes to the same. The steps of the
threads interleave in any order, with any memory.

A thread has at most one handle or one entry in its hands, so there are never more holds on an entry
than its lock can count.
-/

namespace KeyValueServer

open Function (update)

/-- What a thread does on a table before it gives back the handle that it gets. -/
inductive Errand where
  | get (key : Bytes) (mode : LockMode)
  | set (key value : Bytes) (mode : LockMode)
  | dispatch (frame : Buffer)

/-- The call that carries out a request. -/
def Request.deed : Request → Deed
  | get key => .get key .shared
  | set key value => .set key value .exclusive

/-- The call that an errand begins with. Where there is no request in a buffer there is none. -/
def Errand.deed : Errand → Option Deed
  | get key mode => some (.get key mode)
  | set key value mode => some (.set key value mode)
  | dispatch frame => (Server.requestAt frame).map Request.deed

/-- What threads do on a table, and the errands that they have not begun. -/
structure Errands where
  custody : Custody
  todo : ThreadId → List Errand

namespace Errands

/-- What a thread can do next: begin an errand, copy what its handle shows, give the handle back, or
go a step on. -/
inductive Move where
  | next
  | read
  | giveBack
  | step

/-- No errand has begun. -/
def opened (table : Table) (todo : ThreadId → List Errand) : Errands := ⟨.opened table, todo⟩

/-- A thread begins its next errand, if it has no call under way and no handle. -/
def begun (e : Errands) (thread : ThreadId) : Option Errands :=
  match e.custody.traffic.calls thread, e.custody.loans thread, e.todo thread with
  | .finished _, [], errand :: rest =>
      match errand.deed with
      | some deed =>
          (e.custody.perform thread deed).map fun custody => ⟨custody, update e.todo thread rest⟩
      | none => some { e with todo := update e.todo thread rest }
  | _, _, _ => none

/-- What comes of a move of a thread, where it can make it. -/
def perform (e : Errands) (memory : Allocator) (thread : ThreadId) : Move → Option Errands
  | .next => e.begun thread
  | .read => do
      let loan ← (e.custody.loans thread).head?
      let custody ← e.custody.perform thread (.read loan)
      pure { e with custody }
  | .giveBack => do
      let loan ← (e.custody.loans thread).head?
      let custody ← e.custody.perform thread (.giveBack loan)
      pure { e with custody }
  | .step => (e.custody.perform thread (.step memory)).map fun custody => { e with custody }

/-- What comes of these moves, in this order, with memory that never runs out. -/
def run (e : Errands) (moves : List (ThreadId × Move)) : Option Errands :=
  moves.foldlM (fun e move => e.perform unlimited move.1 move.2) e

/-- What can come about when threads set out with these errands. -/
inductive Reachable (table : Table) (todo : ThreadId → List Errand) : Errands → Prop
  | opened : Reachable table todo (.opened table todo)
  | perform {e e' : Errands} (he : Reachable table todo e) (memory : Allocator) (thread : ThreadId)
      (move : Move) (h : e.perform memory thread move = some e') : Reachable table todo e'

/-- A thread has done all its errands. -/
structure Done (e : Errands) (thread : ThreadId) : Prop where
  idle : ∃ result, e.custody.traffic.calls thread = .finished result
  loans : e.custody.loans thread = []
  todo : e.todo thread = []

end Errands

/-! ## Threads that have a handle -/

namespace TableCall

/-- The call has ended, or it only looks at an entry. -/
def isQuiet : TableCall → Bool
  | finished _ | measuring _ | reading _ _ _ => true
  | _ => false

theorem pending_of_isQuiet {call : TableCall} (h : call.isQuiet = true) (place : Bytes → Nat) :
    call.pending place = .idle := by
  cases call with
  | finished | measuring | reading => rfl
  | _ => contradiction

theorem isQuiet_of_returned {call : TableCall} {handle : Handle} (h : call.returned = some handle) :
    call.isQuiet = true := by
  unfold returned at h
  split at h
  · rfl
  · contradiction

end TableCall

/-- A call that only looks at an entry goes on to look at it, and returns no handle. -/
theorem Traffic.isQuiet_step {memory : Allocator} {s s' : Traffic} {thread : ThreadId}
    (h : (s.calls thread).isQuiet = true) (hstep : s.step memory thread = some s') :
    (s'.calls thread).isQuiet = true ∧ (s'.calls thread).returned = none := by
  unfold Traffic.step at hstep
  generalize s.calls thread = call at h hstep
  cases call with
  | finished => contradiction
  | measuring =>
      obtain rfl := Option.some.inj hstep
      rw [calls_start_self]
      exact ⟨rfl, rfl⟩
  | reading =>
      dsimp only at hstep
      split at hstep
      all_goals
        obtain rfl := Option.some.inj hstep
        rw [calls_start_self]
        exact ⟨rfl, rfl⟩
  | _ => contradiction

/-! ## What others do -/

namespace Custody

variable {c c' : Custody} {thread other : ThreadId} {deed : Deed} {call : TableCall}
  {slots : Nat → List Hold} {holds refs : EntryId → List Hold}

theorem frame_call (hcall : c.call thread call = some c') (hother : other ≠ thread) :
    c'.traffic.calls other = c.traffic.calls other ∧ c'.loans = c.loans := by
  obtain ⟨-, rfl⟩ := exists_of_call hcall
  exact ⟨c.traffic.calls_advance_of_ne _ _ hother, rfl⟩

/-- A thread does nothing to the calls and the handles of others. -/
theorem Keeps.frame (h : c.Keeps slots holds refs) (hperform : c.perform thread deed = some c')
    (hother : other ≠ thread) :
    c'.traffic.calls other = c.traffic.calls other ∧ c'.loans other = c.loans other := by
  obtain ⟨-, ⟨call, -, hcall⟩ | ⟨loan, -, -, hcall⟩ | ⟨memory, s, -, hstep, rfl⟩⟩ :=
    perform_cases hperform
  · obtain ⟨hcalls, hloans⟩ := frame_call hcall hother
    exact ⟨hcalls, congrFun hloans other⟩
  · obtain ⟨hcalls, hloans⟩ := frame_call hcall hother
    exact ⟨hcalls, (congrFun hloans other).trans (Function.update_of_ne hother ..)⟩
  · obtain ⟨t, call, rfl, -⟩ := h.exists_move hstep
    refine ⟨c.traffic.calls_advance_of_ne _ _ hother, ?_⟩
    rw [advanced]
    split
    · exact Function.update_of_ne hother ..
    · rfl

end Custody

/-! ## At most one handle -/

/-- A thread that has a handle has only this one, and no call that does more than look at an entry.
-/
def IsModest (loans : List Loan) (call : TableCall) : Prop :=
  loans = [] ∨ (∃ loan, loans = [loan]) ∧ call.isQuiet = true

namespace Custody

variable {c c' : Custody} {thread : ThreadId} {memory : Allocator} {loan : Loan}

theorem isModest_read (h : IsModest (c.loans thread) (c.traffic.calls thread))
    (hperform : c.perform thread (.read loan) = some c') :
    IsModest (c'.loans thread) (c'.traffic.calls thread) := by
  obtain ⟨-, ⟨call, hasks, hcall⟩ | ⟨_, -, hdeed, -⟩ | ⟨_, _, hdeed, -, -⟩⟩ :=
    perform_cases hperform
  · obtain rfl := Option.some.inj hasks
    obtain ⟨-, rfl⟩ := exists_of_call hcall
    rw [Traffic.calls_advance_self]
    rcases h with hnone | ⟨hloan, -⟩
    · exact .inl hnone
    · exact .inr ⟨hloan, rfl⟩
  · contradiction
  · contradiction

theorem isModest_giveBack (h : IsModest (c.loans thread) (c.traffic.calls thread))
    (hperform : c.perform thread (.giveBack loan) = some c') :
    IsModest (c'.loans thread) (c'.traffic.calls thread) := by
  obtain ⟨-, ⟨call, hasks, -⟩ | ⟨loan', hloan, hdeed, hcall⟩ | ⟨_, _, hdeed, -, -⟩⟩ :=
    perform_cases hperform
  · contradiction
  · obtain rfl := Deed.giveBack.inj hdeed
    obtain ⟨-, rfl⟩ := exists_of_call hcall
    rcases h with hnone | ⟨⟨only, honly⟩, -⟩
    · rw [hnone] at hloan
      contradiction
    · obtain rfl : loan = only := List.mem_singleton.mp (honly ▸ hloan)
      have hnone : update c.loans thread ((c.loans thread).erase loan) thread = [] := by
        rw [Function.update_self, honly, List.erase_cons_head]
      exact .inl hnone
  · contradiction

theorem isModest_step (h : IsModest (c.loans thread) (c.traffic.calls thread))
    (hperform : c.perform thread (.step memory) = some c') :
    IsModest (c'.loans thread) (c'.traffic.calls thread) := by
  obtain ⟨-, ⟨call, hasks, -⟩ | ⟨_, -, hdeed, -⟩ | ⟨_, s, hdeed, hstep, rfl⟩⟩ :=
    perform_cases hperform
  · contradiction
  · contradiction
  · obtain rfl := Deed.step.inj hdeed
    rw [advanced]
    rcases h with hnone | ⟨hloan, hquiet⟩
    · cases hreturned : (s.calls thread).returned with
      | none => exact .inl hnone
      | some handle =>
          dsimp only
          rw [Function.update_self, hnone]
          exact .inr ⟨⟨_, rfl⟩, TableCall.isQuiet_of_returned hreturned⟩
    · obtain ⟨hafter, hreturned⟩ := Traffic.isQuiet_step hquiet hstep
      rw [hreturned]
      exact .inr ⟨hloan, hafter⟩

end Custody

theorem Errand.exists_asks {errand : Errand} {deed : Deed} (hdeed : errand.deed = some deed)
    (t : Table) : ∃ call, deed.asks t = some call := by
  cases errand with
  | get | set =>
      obtain rfl := Option.some.inj hdeed
      exact ⟨_, rfl⟩
  | dispatch frame =>
      obtain ⟨request, -, rfl⟩ := Option.map_eq_some_iff.mp hdeed
      cases request with
      | get | set => exact ⟨_, rfl⟩

/-- The call that carries out a request comes to what the server asks of the table. -/
theorem Request.alone_ask {request : Request} {worker : Server.Worker} {table t : Table}
    {r : Except Error Handle} (h : request.ask worker table = some (r, t)) :
    ∃ call, request.deed.asks table = some call ∧
      Traffic.Alone worker.memory worker.thread (table, call) (t, .finished (.handle r)) := by
  cases request with
  | get => exact ⟨_, rfl, Traffic.alone_get h⟩
  | set => exact ⟨_, rfl, Traffic.alone_set h⟩

/-- An errand comes to this table where no other thread comes in between: the one call of the
errand, and giving back the handle that it returns, lead there, or the errand has no call. -/
def Errand.ComesTo (errand : Errand) (worker : Server.Worker) (t t' : Table) : Prop :=
  match errand.deed with
  | none => t' = t
  | some deed => ∃ call r left, deed.asks t = some call ∧
      Traffic.Alone worker.memory worker.thread (t, call) (left, .finished (.handle r)) ∧
      t' = left.settled worker.thread r

/-- An errand that answers a request comes to the table that answering the request leaves. -/
theorem Errand.comesTo_dispatch {worker : Server.Worker} {table : Table} {frame : Buffer}
    {sink : Sink} {d : Server.Dispatched} (h : Server.dispatch worker table frame sink = some d) :
    (Errand.dispatch frame).ComesTo worker table d.table := by
  have hsettles := Server.settles_dispatch h
  rw [Errand.ComesTo, Errand.deed]
  generalize Server.requestAt frame = asked, d.table = settled at hsettles ⊢
  cases hsettles with
  | none => rfl
  | some request hask =>
      obtain ⟨call, hcall, halone⟩ := request.alone_ask hask
      exact ⟨call, _, _, hcall, halone, rfl⟩

/-- An errand begins with a call for which no handle is given back. -/
theorem Errand.loans_perform {errand : Errand} {deed : Deed} {c c' : Custody} {thread : ThreadId}
    (hdeed : errand.deed = some deed) (hperform : c.perform thread deed = some c') :
    c'.loans = c.loans := by
  obtain ⟨asked, hasks⟩ := errand.exists_asks hdeed c.traffic.table
  obtain ⟨-, ⟨call, -, hcall⟩ | ⟨_, -, rfl, -⟩ | ⟨_, _, rfl, -, -⟩⟩ :=
    Custody.perform_cases hperform
  · obtain ⟨-, rfl⟩ := Custody.exists_of_call hcall
    rfl
  · contradiction
  · contradiction

namespace Errands

variable {e e' : Errands} {c : Custody} {table : Table} {todo : ThreadId → List Errand}
  {thread : ThreadId} {memory : Allocator} {move : Move} {slots : Nat → List Hold}
  {holds refs : EntryId → List Hold} {deed : Deed}

/-- No thread has more than one handle, and the thread that there is not does nothing. -/
structure Modest (e : Errands) : Prop where
  single : ∀ thread, IsModest (e.custody.loans thread) (e.custody.traffic.calls thread)
  zero : e.Done 0

theorem Modest.of_perform (hm : e.Modest) (h : e.custody.Keeps slots holds refs)
    (hperform : e.custody.perform thread deed = some c)
    (hown : IsModest (c.loans thread) (c.traffic.calls thread)) (htodo : todo 0 = []) :
    Modest ⟨c, todo⟩ where
  single other := by
    by_cases hother : other = thread
    · exact hother ▸ hown
    · obtain ⟨hcalls, hloans⟩ := h.frame hperform hother
      change IsModest (c.loans other) (c.traffic.calls other)
      rw [hcalls, hloans]
      exact hm.single other
  zero := by
    obtain ⟨hthread, -⟩ := Custody.perform_cases hperform
    obtain ⟨hcalls, hloans⟩ := h.frame hperform hthread.symm
    obtain ⟨result, hresult⟩ := hm.zero.idle
    exact ⟨⟨result, hcalls.trans hresult⟩, hloans.trans hm.zero.loans, htodo⟩

theorem begun_cases (hbegun : e.begun thread = some e') :
    e.custody.loans thread = [] ∧ ∃ errand rest, e.todo thread = errand :: rest ∧
      e'.todo = update e.todo thread rest ∧
      (errand.deed = none ∧ e'.custody = e.custody ∨
        ∃ deed, errand.deed = some deed ∧ e.custody.perform thread deed = some e'.custody) := by
  unfold begun at hbegun
  split at hbegun
  next result errand rest hcall hloans htodo =>
    refine ⟨hloans, errand, rest, htodo, ?_⟩
    split at hbegun
    next deed hdeed =>
      obtain ⟨c, hperform, rfl⟩ := Option.map_eq_some_iff.mp hbegun
      exact ⟨rfl, .inr ⟨deed, hdeed, hperform⟩⟩
    next hdeed =>
      obtain rfl := Option.some.inj hbegun
      exact ⟨rfl, .inl ⟨hdeed, rfl⟩⟩
  · contradiction

theorem Modest.perform (hm : e.Modest) (h : e.custody.Keeps slots holds refs)
    (hperform : e.perform memory thread move = some e') : e'.Modest := by
  cases move with
  | next =>
      obtain ⟨hnone, errand, rest, htodo, hrest, hcases⟩ := begun_cases hperform
      have hzero : e'.todo 0 = [] := by
        have hthread : thread ≠ 0 := by
          rintro rfl
          rw [hm.zero.todo] at htodo
          contradiction
        rw [hrest, Function.update_of_ne hthread.symm, hm.zero.todo]
      obtain ⟨custody, todo⟩ := e'
      rcases hcases with ⟨-, rfl⟩ | ⟨deed, hdeed, hdone⟩
      · exact ⟨hm.single, hm.zero.idle, hm.zero.loans, hzero⟩
      · refine hm.of_perform h hdone (.inl ?_) hzero
        rw [Errand.loans_perform hdeed hdone, hnone]
  | read =>
      simp only [Errands.perform, Option.bind_eq_bind, Option.bind_eq_some_iff] at hperform
      obtain ⟨loan, -, c, hread, hc⟩ := hperform
      obtain rfl := Option.some.inj hc
      exact hm.of_perform h hread (Custody.isModest_read (hm.single thread) hread) hm.zero.todo
  | giveBack =>
      simp only [Errands.perform, Option.bind_eq_bind, Option.bind_eq_some_iff] at hperform
      obtain ⟨loan, -, c, hgiven, hc⟩ := hperform
      obtain rfl := Option.some.inj hc
      exact hm.of_perform h hgiven (Custody.isModest_giveBack (hm.single thread) hgiven)
        hm.zero.todo
  | step =>
      obtain ⟨c, hstep, rfl⟩ := Option.map_eq_some_iff.mp hperform
      exact hm.of_perform h hstep (Custody.isModest_step (hm.single thread) hstep) hm.zero.todo

theorem custody_cases (hperform : e.perform memory thread move = some e') :
    e'.custody = e.custody ∨ ∃ deed, e.custody.perform thread deed = some e'.custody := by
  cases move with
  | next =>
      obtain ⟨-, errand, rest, -, -, ⟨-, hsame⟩ | ⟨deed, -, hdone⟩⟩ := begun_cases hperform
      · exact .inl hsame
      · exact .inr ⟨deed, hdone⟩
  | read | giveBack =>
      simp only [Errands.perform, Option.bind_eq_bind, Option.bind_eq_some_iff] at hperform
      obtain ⟨loan, -, c, hdone, hc⟩ := hperform
      obtain rfl := Option.some.inj hc
      exact .inr ⟨_, hdone⟩
  | step =>
      obtain ⟨c, hdone, rfl⟩ := Option.map_eq_some_iff.mp hperform
      exact .inr ⟨_, hdone⟩

/-! ## Locks have room -/

theorem Modest.length_holding_le (hm : e.Modest) (thread : ThreadId) :
    ((e.custody.foots thread).holding (handlesOf e.custody.loans thread)).length ≤ 1 := by
  rcases hm.single thread with hnone | ⟨⟨loan, hloan⟩, hquiet⟩
  · rw [Footprint.holding, handlesOf, hnone]
    cases (e.custody.foots thread).entry with
    | none => exact Nat.zero_le 1
    | some handle => exact le_rfl
  · rw [Footprint.holding, handlesOf, hloan, Custody.foots,
      TableCall.pending_of_isQuiet hquiet]
    exact le_rfl

theorem Modest.holding_zero (hm : e.Modest) :
    (e.custody.foots 0).holding (handlesOf e.custody.loans 0) = [] := by
  obtain ⟨result, hresult⟩ := hm.zero.idle
  rw [Footprint.holding, handlesOf, hm.zero.loans, Custody.foots, hresult]
  rfl

/-- A call that refers to an entry without holding it is that of a thread with nothing in its hands.
-/
theorem Modest.holding_eq_nil (hm : e.Modest) {handle : Handle}
    (hfree : (e.custody.foots thread).entry = none)
    (hrefers : (e.custody.foots thread).refers = some handle) :
    (e.custody.foots thread).holding (handlesOf e.custody.loans thread) = [] := by
  rcases hm.single thread with hnone | ⟨-, hquiet⟩
  · rw [Footprint.holding, handlesOf, hfree, hnone]
    rfl
  · rw [Custody.foots, TableCall.pending_of_isQuiet hquiet] at hrefers
    contradiction

theorem Modest.sharedHolds_lt (hm : e.Modest) (h : e.custody.Keeps slots holds refs)
    (hthread : thread ≠ 0) {handle : Handle} (hfree : (e.custody.foots thread).entry = none)
    (hrefers : (e.custody.foots thread).refers = some handle) (mode : LockMode) :
    sharedHolds (⟨thread, mode⟩ :: holds handle.id) < fieldSize := by
  have henrols := h.locked.holds.enrols hm.length_holding_le handle.id
  have hcons : Enrols (⟨thread, mode⟩ :: holds handle.id) fun other mode' =>
      (other = thread ∧ mode' = mode) ∨
        ⟨handle.id, mode'⟩ ∈ (e.custody.foots other).holding (handlesOf e.custody.loans other) :=
    henrols.cons (by simp [hm.holding_eq_nil hfree hrefers]) fun _ _ => Iff.rfl
  exact hcons.sharedHolds_lt (by simp [hm.holding_zero, hthread.symm])

/-- What holds between the moves of threads. -/
theorem Reachable.exists_keeps {hash : Bytes → UInt64} {slotBits maxShards : Nat}
    (hnew : Table.new memory hash slotBits maxShards = .ok table) (hzero : todo 0 = [])
    (hreach : Reachable table todo e) :
    e.Modest ∧ ∃ slots holds refs, e.custody.Keeps slots holds refs := by
  induction hreach with
  | opened =>
      have hmodest : (Errands.opened table todo).Modest := ⟨fun _ => .inl rfl, ⟨_, rfl⟩, rfl, hzero⟩
      exact ⟨hmodest, _, _, _, .quiet hnew⟩
  | perform _ memory thread move hperform ih =>
      obtain ⟨hm, slots, holds, refs, h⟩ := ih
      refine ⟨hm.perform h hperform, ?_⟩
      rcases custody_cases hperform with hsame | ⟨deed, hdone⟩
      · exact ⟨slots, holds, refs, hsame ▸ h⟩
      · obtain ⟨hthread, -⟩ := Custody.perform_cases hdone
        obtain ⟨slots', holds', refs', h', -⟩ := h.exists_perform hdone
          fun mode handle hfree hrefers _ => hm.sharedHolds_lt h hthread hfree hrefers mode
        exact ⟨slots', holds', refs', h'⟩

end Errands

end KeyValueServer
