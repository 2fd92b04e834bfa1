import Mathlib.Data.Fintype.EquivFin
import KeyValueServer.Proofs.Workers.Order
import KeyValueServer.Proofs.Workers.Strides

/-!
# Rounds are runs of steps

A single worker that claims, serves and waits in rounds does what steps of its own can do: what
comes of a round is what some run of steps leads to. The limits of the loops are far enough for
that: none is reached before the loop has nothing more to do.
-/

namespace KeyValueServer

namespace Server

variable {e e' : Engine} {index place : Nat} {stream : StreamId} {event : Event} {worker : Worker}
  {limit : Nat}

/-! ## What the actions of a round leave alone -/

/-- An action leaves the shared queue and the memory alone. -/
structure Engine.Keeps (e e' : Engine) : Prop where
  waiter : e'.waiter = e.waiter
  memory : e'.memory = e.memory

/-- An action leaves a place alone too, if it is not free. -/
structure Engine.Spares (e : Engine) (index : Nat) (e' : Engine) : Prop extends e.Keeps e' where
  slot : e'.arena.slotAt index = e.arena.slotAt index
  taken : index ∉ e.arena.free → index ∉ e'.arena.free

theorem Engine.Keeps.trans {e'' : Engine} (h : e.Keeps e') (h' : e'.Keeps e'') : e.Keeps e'' :=
  ⟨h'.waiter.trans h.waiter, h'.memory.trans h.memory⟩

theorem Engine.Keeps.workerOf (h : e.Keeps e') (w : Nat) : e'.workerOf w = e.workerOf w := by
  rw [Engine.workerOf, h.memory, Engine.workerOf]

namespace Engine.Spares

theorem refl (e : Engine) (index : Nat) : e.Spares index e := ⟨⟨rfl, rfl⟩, rfl, id⟩

theorem trans {e'' : Engine} (h : e.Spares index e') (h' : e'.Spares index e'') :
    e.Spares index e'' where
  toKeeps := h.toKeeps.trans h'.toKeeps
  slot := h'.slot.trans h.slot
  taken := h'.taken ∘ h.taken

theorem close (e : Engine) (hne : place ≠ index) : e.Spares index (e.close place) where
  waiter := rfl
  memory := rfl
  slot := by
    have hrecycle (a : Arena) : (a.recycle place).slotAt index = a.slotAt index := by
      rw [Arena.recycle]
      split <;> rfl
    rw [Engine.close, Engine.recycle, hrecycle, Engine.retire, Arena.retire, Arena.slotAt_modify,
      if_neg hne, Engine.closeSocket, Arena.setSocket, Arena.slotAt_modify, if_neg hne]
  taken hfree := by
    have harena : (e.close place).arena.free = e.arena.free ∨
        (e.close place).arena.free = e.arena.free ++ [place] := by
      rw [Engine.close, Engine.recycle, Arena.recycle]
      split
      · exact .inl rfl
      · exact .inr rfl
    rcases harena with hsame | hback
    · exact hsame ▸ hfree
    · rw [hback]
      simp [hfree, hne.symm]

theorem activate (e : Engine) (hne : place ≠ index) : e.Spares index (e.activate place).2 := by
  have harena : ∃ a : Arena, (e.activate place).2 = { e with arena := a } ∧
      a.slotAt index = e.arena.slotAt index ∧ a.free = e.arena.free := by
    refine ⟨(e.arena.activate place .message).2, ?_, ?_⟩
    · unfold Engine.activate
      split <;> next hactivate => rw [hactivate]
    · cases hslot : e.arena.slotAt place with
      | none => simp [Arena.activate, hslot]
      | some slot =>
          rw [Arena.activate_of_slotAt hslot]
          split <;> exact ⟨Arena.slotAt_put_of_ne _ hne.symm _, rfl⟩
  obtain ⟨a, heq, hslot, hfree⟩ := harena
  rw [heq]
  exact ⟨⟨rfl, rfl⟩, hslot, fun h => hfree ▸ h⟩

/-- Taking in a client changes a place that is free. -/
theorem attach (e : Engine) (stream : StreamId) (hfree : index ∉ e.arena.free) :
    e.Spares index (e.attach stream) := by
  rw [Engine.attach, Engine.reserve, Arena.allocate]
  cases hline : e.arena.free with
  | nil => exact ⟨⟨rfl, rfl⟩, rfl, fun h => h⟩
  | cons place free =>
      rw [hline, List.mem_cons, not_or] at hfree
      have hne : place ≠ index := Ne.symm hfree.1
      have hreserve : e.Spares index { e with arena := { e.arena with free } } :=
        ⟨⟨rfl, rfl⟩, rfl, fun _ => hfree.2⟩
      have hplace (e : Engine) : e.Spares index (e.place place stream) :=
        ⟨⟨rfl, rfl⟩, (Arena.slotAt_modify _ _ _ _).trans (if_neg hne), id⟩
      have hready := (hreserve.trans (hplace _)).trans (activate _ hne)
      dsimp only
      split
      next e' hactivate =>
        rw [hactivate] at hready
        exact hready.trans (close e' hne)
      next token e' hactivate =>
        rw [hactivate] at hready
        cases hregister : e'.register place token with
        | none => exact hready.trans (close e' hne)
        | some e'' =>
            obtain ⟨_, _, -, rfl⟩ := Engine.exists_watch_of_register hregister
            exact hready.trans ⟨⟨rfl, rfl⟩, rfl, id⟩

theorem acceptOnce (e : Engine) (index : Nat) : e.Spares index e.acceptOnce.2 := by
  unfold Engine.acceptOnce
  split
  · split <;> exact ⟨⟨rfl, rfl⟩, rfl, id⟩
  · exact refl e index

theorem acceptAll (limit : Nat) (e : Engine) (hfree : index ∉ e.arena.free) :
    e.Spares index (e.acceptAll limit) := by
  induction limit generalizing e with
  | zero => exact refl e index
  | succ limit ih =>
      have honce := acceptOnce e index
      rw [Engine.acceptAll]
      split
      next stream e' haccept =>
        rw [haccept] at honce
        have hattach := attach e' stream (honce.taken hfree)
        exact (honce.trans hattach).trans (ih _ (hattach.taken (honce.taken hfree)))
      next error e' haccept =>
        rw [haccept] at honce
        split
        · exact honce.trans (ih e' (honce.taken hfree))
        · exact honce

end Engine.Spares

/-! ## Taking in clients -/

theorem Engine.backlog_close (e : Engine) (index : Nat) :
    (e.close index).network.backlog = e.network.backlog := by
  have hclose (socket : Socket) : (e.network.close socket).backlog = e.network.backlog := by
    cases socket <;> rfl
  exact hclose _

theorem Engine.backlog_attach (e : Engine) (stream : StreamId) :
    (e.attach stream).network.backlog = e.network.backlog := by
  have hactivate (e : Engine) (place : Nat) : (e.activate place).2.network = e.network := by
    unfold Engine.activate
    split <;> rfl
  rw [Engine.attach, Engine.reserve, Arena.allocate]
  cases e.arena.free with
  | nil => rfl
  | cons place free =>
      have hready := hactivate
        ({ e with arena := { e.arena with free } : Engine }.place place stream) place
      dsimp only
      split
      next e' hfails =>
        rw [hfails] at hready
        exact (e'.backlog_close place).trans (congrArg Network.backlog hready)
      next token e' hok =>
        rw [hok] at hready
        have hsame : e'.network.backlog = e.network.backlog := congrArg Network.backlog hready
        cases hregister : e'.register place token with
        | none => exact (e'.backlog_close place).trans hsame
        | some e'' =>
            obtain ⟨_, _, hwatch, rfl⟩ := Engine.exists_watch_of_register hregister
            rw [Option.getD_some, Network.watch_eq_ok hwatch]
            exact hsame

/-- A call on the listening socket after which it is called again has taken something from those
that wait. -/
theorem Engine.length_backlog_lt {result : Except Error StreamId}
    (h : e.acceptOnce = (result, e'))
    (hagain : ∀ error, result = .error error → Engine.isRepeated error = true) :
    e'.network.backlog.length < e.network.backlog.length := by
  unfold Engine.acceptOnce Network.accept at h
  split at h
  next =>
    cases hbacklog : e.network.backlog with
    | nil =>
        rw [hbacklog] at h
        have hblocked := hagain _ (Prod.mk.inj h).1.symm
        contradiction
    | cons arrival rest =>
        rw [hbacklog] at h
        cases arrival <;>
        · obtain ⟨-, rfl⟩ := Prod.mk.inj h
          simp
  next =>
    have hclosed := hagain _ (Prod.mk.inj h).1.symm
    contradiction

namespace Leads

/-- A worker takes a client in, or turns it away, and goes on accepting. -/
theorem attach (e : Engine) (index : Nat) (stream : StreamId) :
    Leads e (.reserving index stream) (e.attach stream) (.accepting index) := by
  unfold Engine.attach
  split
  next e' hreserve => exact turnAway hreserve
  next place e' hreserve =>
    have hreserved : Leads e (.reserving index stream) e' (.installing index place stream) :=
      reserve hreserve
    have hplaced := hreserved.trans (install e' index place stream)
    split
    next e'' hactivate => exact (hplaced.trans (activate hactivate)).trans (close e'' place _)
    next token e'' hactivate =>
      have hready := hplaced.trans (activate hactivate)
      cases hregister : e''.register place token with
      | none => exact (hready.trans (refuse hregister)).trans (close e'' place _)
      | some e' => exact hready.trans (register hregister)

/-- A worker takes in all clients that wait. -/
theorem acceptAll (hlimit : e.network.backlog.length < limit) (index : Nat) :
    Leads e (.accepting index) (e.acceptAll limit) (.taking index) := by
  induction limit generalizing e with
  | zero => omega
  | succ limit ih =>
      rw [Engine.acceptAll]
      split
      next stream e' haccept =>
        have hshorter := Engine.length_backlog_lt haccept fun error heq => by contradiction
        refine ((accept haccept).trans (attach e' index stream)).trans (ih ?_)
        rw [Engine.backlog_attach]
        omega
      next error e' haccept =>
        have hfails : Leads e (.accepting index) e'
            (if Engine.isRepeated error then .accepting index else .taking index) :=
          acceptFails haccept
        split
        next hrepeated =>
          rw [if_pos hrepeated] at hfails
          have hshorter := Engine.length_backlog_lt haccept fun other heq =>
            Except.error.inj heq ▸ hrepeated
          exact hfails.trans (ih (by omega))
        next hlast =>
          rw [if_neg hlast] at hfails
          exact hfails

/-! ## Serving a connection -/

theorem readOnce (event : Event) {peer : Peer} {once : Turn}
    (hsocket : e.socketAt index = .stream stream)
    (hpeer : e.network.peerAt stream = some peer)
    (honce : serveOnce (e.workerOf 0) e.table peer = some once) :
    Leads e (.reading index event)
      { e with
        table := once.table
        network := e.network.modifyPeer stream fun _ => once.peer }
      (Workers.afterReading index event once.outcome) := by
  refine read ?_
  simp only [Engine.readOnce, hsocket, hpeer, honce, Option.map_some]

/-- A worker reads a connection until there is nothing more to read. -/
theorem serve (event : Event) {turn : Turn} {table : Table} {peer : Peer}
    (h : Server.serve worker table peer = some turn) (hworker : e.workerOf 0 = worker)
    (htable : e.table = table) (hsocket : e.socketAt index = .stream stream)
    (hpeer : e.network.peerAt stream = some peer) :
    turn.outcome ≠ .more ∧
      Leads e (.reading index event)
        { e with
          table := turn.table
          network := e.network.modifyPeer stream fun _ => turn.peer }
        (Workers.afterReading index event turn.outcome) := by
  fun_induction Server.serve worker table peer generalizing e with
  | case1 => contradiction
  | case2 table peer once honce hmore ih =>
      rw [← hworker, ← htable] at honce
      have hfirst := readOnce event hsocket hpeer honce
      rw [hmore] at hfirst
      have hpeer' : (e.network.modifyPeer stream fun _ => once.peer).peerAt stream =
          some once.peer := by
        rw [Network.peerAt_modifyPeer, if_pos rfl, hpeer]
        rfl
      let next : Engine := { e with
        table := once.table
        network := e.network.modifyPeer stream fun _ => once.peer }
      obtain ⟨hlast, hothers⟩ := ih (e := next) h hworker rfl hsocket hpeer'
      have htwice : (next.network.modifyPeer stream fun _ => turn.peer) =
          e.network.modifyPeer stream fun _ => turn.peer := by
        simp only [next, Network.modifyPeer, modify_modify]
      rw [htwice] at hothers
      exact ⟨hlast, hfirst.trans hothers⟩
  | case3 table peer once honce hlast =>
      obtain rfl := Option.some.inj h
      rw [← hworker, ← htable] at honce
      exact ⟨hlast, readOnce event hsocket hpeer honce⟩

/-- A worker that is told to read a connection serves it. -/
theorem serveStream {isOpen : Bool} (h : e.serveStream worker index = some (isOpen, e'))
    (hworker : e.workerOf 0 = worker) :
    Leads e (.opening index event) e' (Workers.afterServing index event isOpen) := by
  refine (lock e index event).trans ?_
  have hmissed (error : Error)
      (hread : e.readOnce (e.workerOf 0) index = some (.failed error, e)) :
      Leads e (.reading index event) e (Workers.afterServing index event false) :=
    read hread
  unfold Engine.serveStream at h
  split at h
  next stream hsocket =>
    split at h
    next hnone =>
      obtain ⟨rfl, rfl⟩ := Prod.mk.inj (Option.some.inj h)
      refine hmissed (.invalidState (.noStream index)) ?_
      simp only [Engine.readOnce, hsocket, hnone]
    next peer hpeer =>
      obtain ⟨turn, hserve, hturn⟩ := Option.map_eq_some_iff.mp h
      obtain ⟨hopen, rfl⟩ := Prod.mk.inj hturn
      obtain ⟨hlast, hreads⟩ := serve event hserve hworker rfl hsocket hpeer
      cases houtcome : turn.outcome with
      | more => exact absurd houtcome hlast
      | drained | ended | failed =>
          rw [houtcome] at hopen hreads
          obtain rfl := hopen
          exact hreads
  next hsocket =>
    obtain ⟨rfl, rfl⟩ := Prod.mk.inj (Option.some.inj h)
    refine hmissed (.invalidState (.noStream index)) ?_
    unfold Engine.readOnce
    split
    next stream heq => exact absurd heq (hsocket stream)
    next => rfl

end Leads

/-! ## Claiming and serving -/

namespace Engine

theorem queuedAt_of_slotAt {slot : ConnectionSlot} (h : e.arena.slotAt index = some slot) :
    e.queuedAt index = slot.events.length := by
  rw [queuedAt, h, ConnectionSlot.events]
  cases hring : slot.ring <;> simp [hring, EventRing.length_toList]

theorem queuedAt_congr (h : e'.arena.slotAt index = e.arena.slotAt index) :
    e'.queuedAt index = e.queuedAt index := by
  rw [queuedAt, h, queuedAt]

/-- A worker that is about to take an event from its connection finds none, or takes the oldest. -/
theorem exists_takeEvent {s : Shift} (hs : s.Able) (hstage : s.stage = .taking index) :
    (∃ e', s.engine.takeEvent index = (.drained, e')) ∨
      ∃ event role e', s.engine.takeEvent index = (.event event role, e') ∧
        s.engine.queuedAt index = e'.queuedAt index + 1 ∧ index ∉ e'.arena.free := by
  have hheld : (index, Tenure.serving) ∈ (s.workers.stages 0).holds := by
    rw [show s.workers.stages 0 = .taking index from hstage]
    simp [WorkerStage.holds]
  obtain ⟨hkeeps, slot, hslot, hfits⟩ := hs.steady.tenanted.of_mem_holds hheld
  obtain ⟨ring, -, ⟨-, -, htake⟩ | ⟨event, hevents, htake⟩⟩ :=
    takeEvent_cases hs.steady.tenanted.sound hslot hfits.phase
  · exact .inl ⟨_, htake⟩
  · refine .inr ⟨event, _, _, htake, ?_, (by simp [hkeeps.line] : index ∉ s.engine.arena.free)⟩
    rw [queuedAt_of_slotAt hslot, queuedAt_of_slotAt (Arena.slotAt_put_self hslot _), hevents]
    rfl

theorem keeps_takeEvent (e : Engine) (index : Nat) : e.Keeps (e.takeEvent index).2 := by
  unfold takeEvent
  split
  · exact ⟨rfl, rfl⟩
  · split
    · exact ⟨rfl, rfl⟩
    · split <;> exact ⟨rfl, rfl⟩

theorem keeps_acceptAll (limit : Nat) (e : Engine) : e.Keeps (e.acceptAll limit) := by
  obtain ⟨index, hindex⟩ := Infinite.exists_notMem_finset e.arena.free.toFinset
  exact (Spares.acceptAll limit e (by simpa using hindex)).toKeeps

theorem keeps_serveStream {isOpen : Bool} (h : e.serveStream worker index = some (isOpen, e')) :
    e.Keeps e' ∧ e'.arena = e.arena := by
  unfold serveStream at h
  split at h
  · split at h
    · obtain ⟨-, rfl⟩ := Prod.mk.inj (Option.some.inj h)
      exact ⟨⟨rfl, rfl⟩, rfl⟩
    · obtain ⟨turn, -, hturn⟩ := Option.map_eq_some_iff.mp h
      obtain ⟨-, rfl⟩ := Prod.mk.inj hturn
      exact ⟨⟨rfl, rfl⟩, rfl⟩
  · obtain ⟨-, rfl⟩ := Prod.mk.inj (Option.some.inj h)
    exact ⟨⟨rfl, rfl⟩, rfl⟩

/-- Reading an event, where it says that there is something to read. -/
theorem keeps_readable {event : Event} {isOpen : Bool}
    (h : (if event.readable then e.serveStream worker index else some (true, e)) =
      some (isOpen, e')) : e.Keeps e' ∧ e'.arena = e.arena := by
  split at h
  · exact keeps_serveStream h
  · obtain ⟨-, rfl⟩ := Prod.mk.inj (Option.some.inj h)
    exact ⟨⟨rfl, rfl⟩, rfl⟩

theorem drain_of_message {event : Event} (h : e.takeEvent index = (.event event .message, e')) :
    drain worker (limit + 1) e index =
      (if event.readable then e'.serveStream worker index else some (true, e')).bind fun turn =>
        if !turn.1 || event.isHangup then some (turn.2.close index)
        else drain worker limit turn.2 index := by
  rw [drain, h]
  dsimp only
  split <;> rfl

theorem keeps_drain (h : Engine.drain worker limit e index = some e') : e.Keeps e' := by
  induction limit generalizing e with
  | zero => exact Option.some.inj h ▸ ⟨rfl, rfl⟩
  | succ limit ih =>
      have htake := e.keeps_takeEvent index
      cases hfound : e.takeEvent index with
      | mk finding e₁ =>
          rw [hfound] at htake
          cases finding with
          | drained =>
              rw [drain, hfound] at h
              exact Option.some.inj h ▸ htake
          | misplaced phase =>
              rw [drain, hfound] at h
              obtain rfl := Option.some.inj h
              split
              · exact htake
              · exact htake.trans ⟨rfl, rfl⟩
          | event event role =>
              cases role with
              | listener =>
                  rw [drain, hfound] at h
                  exact (htake.trans (keeps_acceptAll _ e₁)).trans (ih h)
              | message =>
                  rw [drain_of_message hfound] at h
                  obtain ⟨⟨isOpen, e₂⟩, hread, h⟩ := Option.bind_eq_some_iff.mp h
                  have hserved := htake.trans (keeps_readable hread).1
                  dsimp only at h
                  split at h
                  · exact Option.some.inj h ▸ hserved.trans ⟨rfl, rfl⟩
                  · exact hserved.trans (ih h)

end Engine

namespace Leads

/-- A worker serves a connection until no events are queued at it. -/
theorem drain (hlimit : e.queuedAt index < limit) (hworker : e.workerOf 0 = worker)
    (h : Engine.drain worker limit e index = some e') : Leads e (.taking index) e' .claiming := by
  induction limit generalizing e with
  | zero => omega
  | succ limit ih =>
      refine of_able fun s hs he hstage => ?_
      subst he
      have hkept := s.engine.keeps_takeEvent index
      rcases Engine.exists_takeEvent hs hstage with
        ⟨e₁, htake⟩ | ⟨event, role, e₁, htake, hleft, hfree⟩
      · rw [Engine.drain, htake] at h
        obtain rfl := Option.some.inj h
        exact drained htake
      rw [htake] at hkept
      cases role with
      | listener =>
          rw [Engine.drain, htake] at h
          have hspares := Engine.Spares.acceptAll (e₁.network.backlog.length + 1) e₁ hfree
          have hserved := hkept.trans hspares.toKeeps
          refine ((takeArrivals htake).trans (acceptAll (Nat.lt_succ_self _) index)).trans
            (ih ?_ ((hserved.workerOf 0).trans hworker) h)
          rw [Engine.queuedAt_congr hspares.slot]
          omega
      | message =>
          rw [Engine.drain_of_message htake] at h
          obtain ⟨⟨isOpen, e₂⟩, hread, h⟩ := Option.bind_eq_some_iff.mp h
          obtain ⟨hreads, harena⟩ := Engine.keeps_readable hread
          have hserved := hkept.trans hreads
          have hafter : Leads s.engine (.taking index) e₂
              (Workers.afterServing index event isOpen) := by
            refine (takeMessages htake).trans ?_
            split at hread
            next hreadable =>
              rw [if_pos hreadable]
              exact serveStream hread ((hkept.workerOf 0).trans hworker)
            next hreadable =>
              rw [if_neg hreadable]
              obtain ⟨rfl, rfl⟩ := Prod.mk.inj (Option.some.inj hread)
              exact refl _ _
          rw [Workers.afterServing] at hafter
          dsimp only at h
          split at h
          next hends =>
            rw [if_pos hends] at hafter
            obtain rfl := Option.some.inj h
            exact hafter.trans (close e₂ index .claiming)
          next hgoesOn =>
            rw [if_neg hgoesOn] at hafter
            refine hafter.trans (ih ?_ ((hserved.workerOf 0).trans hworker) h)
            rw [Engine.queuedAt_congr (congrArg (Arena.slotAt · index) harena)]
            omega

end Leads

namespace Engine

theorem keeps_route (e : Engine) (event : Event) : e.Keeps (e.route event).2 := by
  unfold route
  split
  · exact ⟨rfl, rfl⟩
  · split
    · exact ⟨rfl, rfl⟩
    · split
      · exact ⟨rfl, rfl⟩
      · split
        · exact ⟨rfl, rfl⟩
        · exact ⟨rfl, rfl⟩
        · split <;> exact ⟨rfl, rfl⟩

/-- Claiming a connection takes an event at least. -/
theorem length_queue_lt (hqueue : e.waiter.queue.Sound) (h : e.claim limit = (some index, e')) :
    e'.memory = e.memory ∧ e'.waiter.queue.toList.length < e.waiter.queue.toList.length := by
  induction limit generalizing e with
  | zero => exact absurd (Prod.mk.inj h).1 (by simp)
  | succ limit ih =>
      rw [claim] at h
      split at h
      next => exact absurd (Prod.mk.inj h).1 (by simp)
      next event waiter hdequeue =>
        obtain ⟨hsound, hlist⟩ := mem_queue_of_dequeue hqueue hdequeue
        have hroute := keeps_route { e with waiter } event
        rw [hlist, List.length_cons]
        split at h
        next place e₁ hclaims =>
          obtain ⟨-, rfl⟩ := Prod.mk.inj h
          rw [hclaims] at hroute
          rw [hroute.waiter]
          exact ⟨hroute.memory, Nat.lt_succ_self _⟩
        next e₁ hnothing =>
          rw [hnothing] at hroute
          have hsame : e₁.waiter = waiter := hroute.waiter
          obtain ⟨hmemory, hlt⟩ := ih (hsame ▸ hsound) h
          rw [hsame] at hlt
          exact ⟨hmemory.trans hroute.memory, hlt.trans (Nat.lt_succ_self _)⟩

end Engine

namespace Leads

/-- A worker that looks for a connection to claim finds one, or leaves the shared queue empty. -/
theorem claim {claimed : Option Nat} (hlimit : e.waiter.queue.toList.length ≤ limit)
    (hqueue : e.waiter.queue.Sound) (h : e.claim limit = (claimed, e')) :
    Leads e .routing e' (claimed.elim .parking .taking) := by
  induction limit generalizing e with
  | zero =>
      obtain ⟨rfl, rfl⟩ := Prod.mk.inj h
      exact giveUp (dequeue_of_nil hqueue (List.eq_nil_of_length_eq_zero (Nat.le_zero.mp hlimit)))
  | succ limit ih =>
      rw [Engine.claim] at h
      split at h
      next hnone =>
        obtain ⟨rfl, rfl⟩ := Prod.mk.inj h
        exact giveUp hnone
      next event waiter hdequeue =>
        obtain ⟨hsound, hlist⟩ := mem_queue_of_dequeue hqueue hdequeue
        have hroute := Engine.keeps_route { e with waiter } event
        rw [hlist, List.length_cons] at hlimit
        split at h
        next place e₁ hclaims =>
          obtain ⟨rfl, rfl⟩ := Prod.mk.inj h
          exact (dequeue hdequeue).trans (route hclaims)
        next e₁ hnothing =>
          rw [hnothing] at hroute
          have hsame : e₁.waiter = waiter := hroute.waiter
          have hnext : e₁.waiter.queue.toList.length ≤ limit := by
            rw [hsame]
            omega
          exact ((dequeue hdequeue).trans (route hnothing)).trans (ih hnext (hsame ▸ hsound) h)

/-- A worker serves connections until the shared queue is empty. -/
theorem process (hlimit : e.waiter.queue.toList.length < limit) (hworker : e.workerOf 0 = worker)
    (h : Engine.processUpTo worker limit e = some e') : Leads e .claiming e' .parking := by
  induction limit generalizing e with
  | zero => omega
  | succ limit ih =>
      refine of_able fun s hs he _ => ?_
      have hqueue : e.waiter.queue.Sound := he ▸ hs.steady.attentive.queue
      have hlength : e.waiter.queue.toList.length ≤ e.waiter.queue.length :=
        (EventRing.length_toList _).le
      rw [Engine.processUpTo] at h
      split at h
      next e₁ hnothing =>
        obtain rfl := Option.some.inj h
        exact (enter e).trans (claim hlength hqueue hnothing)
      next index e₁ hclaims =>
        obtain ⟨e₂, hdrain, h⟩ := Option.bind_eq_some_iff.mp h
        obtain ⟨hmemory, hshorter⟩ := Engine.length_queue_lt hqueue hclaims
        have hkept := Engine.keeps_drain hdrain
        have hworker₁ : e₁.workerOf 0 = worker := by
          rw [← hworker, Engine.workerOf, hmemory, Engine.workerOf]
        have hserves := drain (Nat.lt_succ_self _) hworker₁ hdrain
        refine (((enter e).trans (claim hlength hqueue hclaims)).trans hserves).trans
          (ih ?_ ((hkept.workerOf 0).trans hworker₁) h)
        rw [hkept.waiter]
        omega

/-- A worker waits and serves for as many rounds as it likes. -/
theorem rounds (h : Engine.rounds 0 limit e = some e') : Leads e .parking e' .parking := by
  induction limit generalizing e with
  | zero => exact Option.some.inj h ▸ refl e .parking
  | succ limit ih =>
      rw [Engine.rounds] at h
      split at h
      next => exact Option.some.inj h ▸ refl e .parking
      next e₁ hawait =>
        obtain ⟨e₂, hprocess, h⟩ := Option.bind_eq_some_iff.mp h
        have hlimit : e₁.waiter.queue.toList.length < e₁.waiter.queue.length + 1 := by
          rw [EventRing.length_toList]
          omega
        exact ((await hawait).trans (process hlimit rfl hprocess)).trans (ih h)

/-- What an engine settles to is what some steps of a worker that waits lead to. -/
theorem settle (h : e.settle = some e') : Leads e .parking e' .parking := rounds h

end Leads

/-! ## Sessions -/

namespace Engine

/-- A client does something, unless it would send before it has connected or after it has ended what
it sends. -/
def meet (e : Engine) (o : Occurrence) : Option Engine :=
  if o.sender?.all fun stream => (e.network.peerAt stream).any fun peer => !peer.source.ended then
    some { e with network := o.change e.network }
  else none

/-- Clients do something, and the engine settles; and so again and again. -/
def session (e : Engine) (visits : List (List Occurrence)) : Option Engine :=
  visits.foldlM (fun e os => (os.foldlM meet e).bind settle) e

end Engine

namespace Shift

variable {s : Shift} {o : Occurrence} {os : List Occurrence}

/-- A run leads to the engine, and the worker waits then. -/
def Waits (s : Shift) (e : Engine) : Prop :=
  ∃ os s', s.run os = some s' ∧ s'.Able ∧ s'.engine = e ∧ s'.stage = .parking

theorem Waits.trans (h : s.Waits e)
    (hnext : ∀ t : Shift, t.Able → t.engine = e → t.stage = .parking → t.Waits e') :
    s.Waits e' := by
  obtain ⟨os, t, hrun, ht, he, hstage⟩ := h
  obtain ⟨more, last, hmore, hlast⟩ := hnext t ht he hstage
  exact ⟨os ++ more, last, (run_append hrun).trans hmore, hlast⟩

theorem Waits.foldlM {α : Type} {f : Engine → α → Option Engine}
    (hf : ∀ (t : Shift) a e, t.Able → t.stage = .parking → f t.engine a = some e → t.Waits e)
    {xs : List α} (hs : s.Able) (hstage : s.stage = .parking)
    (h : xs.foldlM f s.engine = some e) : s.Waits e := by
  induction xs generalizing s with
  | nil => exact ⟨[], s, rfl, hs, Option.some.inj h, hstage⟩
  | cons a xs ih =>
      obtain ⟨e₁, hfirst, hrest⟩ := Option.bind_eq_some_iff.mp h
      refine (hf s a e₁ hs hstage hfirst).trans fun t ht he hparking => ?_
      subst he
      exact ih ht hparking hrest

theorem perform_of_allowed (hwork : o.worker?.isSome = false)
    (hallowed : o.sender?.all s.isSending = true) :
    s.perform o = some { s with
      workers := s.workers.happen o.change
      sent := fun stream => s.sent stream ++ o.bytesOf stream } := by
  cases o with
  | work => contradiction
  | _ => simp only [perform, hallowed, if_true]

theorem waits_of_meet (hs : s.Able) (hstage : s.stage = .parking)
    (h : s.engine.meet o = some e) : s.Waits e := by
  rw [Engine.meet] at h
  split at h
  next hallowed =>
    obtain rfl := Option.some.inj h
    cases hwork : o.worker?.isSome with
    | true =>
        -- A worker's own step is none of the clients', and changes nothing here.
        cases o with
        | work => exact ⟨[], s, rfl, hs, rfl, hstage⟩
        | _ => contradiction
    | false =>
        have hperform := perform_of_allowed hwork hallowed
        refine ⟨[o], { s with
          workers := s.workers.happen o.change
          sent := fun stream => s.sent stream ++ o.bytesOf stream },
          ?_, hs.occur o rfl, rfl, hstage⟩
        rw [run, List.foldlM_cons, hperform]
        rfl
  next => contradiction

/-- An engine that settles each time that clients have done something does what steps of a worker on
its own could do. -/
theorem waits_of_session {visits : List (List Occurrence)} (hs : s.Able)
    (hstage : s.stage = .parking) (h : s.engine.session visits = some e) : s.Waits e := by
  refine Waits.foldlM (fun t os e ht hparking h => ?_) hs hstage h
  obtain ⟨e₁, hmeet, hsettle⟩ := Option.bind_eq_some_iff.mp h
  have hmet := Waits.foldlM (fun _ _ _ => waits_of_meet) ht hparking hmeet
  refine hmet.trans fun u hu he hwaits => ?_
  obtain ⟨answers, last, hrun, hlast⟩ := Leads.settle hsettle u hu he hwaits
  exact ⟨_, last, hrun, hlast⟩

/-- What an engine makes of all that clients have done is what some run of one worker makes of
it. -/
theorem exists_run_of_session {memory : Allocator} {table : Table} {c : Config} {network : Network}
    {engine : Engine} {visits : List (List Occurrence)}
    (hnew : Engine.new c memory table network = .ok engine) (hable : (beginning engine).Able)
    (h : engine.session visits = some e) :
    ∃ os s, (beginning engine).run os = some s ∧ s.engine = e := by
  obtain ⟨-, -, -, hwaiter, -⟩ := Engine.new_eq_ok hnew
  have hqueue := queue_of_new hwaiter
  have hidle : Leads engine .claiming engine .parking :=
    (Leads.enter engine).trans (.giveUp (dequeue_of_nil hqueue.1 hqueue.2))
  obtain ⟨answers, first, hfirst, hfirstAble, rfl, hstage⟩ := hidle _ hable rfl rfl
  obtain ⟨os, s, hrun, -, he, -⟩ := waits_of_session hfirstAble hstage h
  exact ⟨_, s, (run_append hfirst).trans hrun, he⟩

/-! ## The main statement -/

/-- A journal tells all of a run of one worker, and its beginnings tell all of the beginnings of the
run. Places are named by 32 bits, and so are their generations. What an engine settles to each time
that clients have done something is what one of these runs comes to. -/
theorem answers_of_run {hash : Bytes → UInt64} {slotBits maxShards : Nat} {table : Table}
    {c : Config} {reachable : Bool} {engine : Engine}
    (htable : Table.new unlimited hash slotBits maxShards = .ok table)
    (hnew : Engine.new c unlimited table (.idle reachable) = .ok engine)
    (hplaces : c.maxConnections.toNat ≤ UInt32.size) (hrun : (beginning engine).run os = some s)
    (hreturns : ∀ index, s.returns index < UInt32.size) :
    (∃ journal, s.Answered journal ∧
      ∀ earlier t, earlier <+: os → (beginning engine).run earlier = some t →
        ∃ part, part <+: journal ∧ t.Answered part) ∧
    ∀ visits e, engine.session visits = some e →
      ∃ os' s', (beginning engine).run os' = some s' ∧ s'.engine = e := by
  have hsound := Table.sound_of_new htable
  have hrest := Table.atRest_of_new htable
  have horderly := orderly_of_new htable hnew hplaces
  obtain ⟨journal, hlast, hall⟩ := horderly.run hsound hrest hrun hreturns
  refine ⟨⟨journal, hlast.answered hsound hrest, fun earlier t hprefix ht => ?_⟩,
    fun visits e hsession => exists_run_of_session hnew horderly.able hsession⟩
  obtain ⟨part, hpart, ht⟩ := hall earlier t hprefix ht
  exact ⟨part, hpart, ht.answered hsound hrest⟩

/-- There is one place for clients. The first client stores a value and leaves; the second is given
its place and asks for the value. -/
def handOver : List Occurrence :=
  [.connect, .send 0 (Request.set [ascii 'k'] [ascii 'v']).frame, .finish 0] ++
    List.replicate 35 (.work 0 (.events 2)) ++
    [.connect, .send 1 (Request.get [ascii 'k']).frame] ++
    List.replicate 36 (.work 0 (.events 2))

/-- Both clients have got their own answers, and a journal tells why. -/
theorem answers_of_run_of_handOver :
    ∃ table engine s journal, Table.new unlimited (fun _ => 0) 1 1 = .ok table ∧
      Engine.new { Workers.narrowConfig with threads := 1 } unlimited table (.idle true) =
        .ok engine ∧
      (beginning engine).run handOver = some s ∧ s.returns 1 = 1 ∧
      s.engine.socketAt 1 = .stream 1 ∧ s.engine.network.received 0 = successReply ∧
      s.engine.network.received 1 = successReply ++ Token.ofBytes [ascii 'v'] ∧
      s.Answered journal ∧
      ∀ earlier t, earlier <+: handOver → (beginning engine).run earlier = some t →
        ∃ part, part <+: journal ∧ t.Answered part := by
  obtain ⟨table, htable⟩ := Table.new_unlimited (fun _ => 0) 1 1 (by decide) (by decide) (by decide)
  have hrun : ((Engine.new { Workers.narrowConfig with threads := 1 } unlimited table
      (.idle true)).toOption.bind fun engine =>
        ((beginning engine).run handOver).map fun s =>
          (s.returns 1, s.engine.socketAt 1, s.engine.network.received 0,
            s.engine.network.received 1)) =
      some (1, .stream 1, successReply, successReply ++ Token.ofBytes [ascii 'v']) := by
    rw [Table.eq_of_new htable]
    decide +kernel
  simp only [Option.bind_eq_some_iff, Option.map_eq_some_iff, Prod.mk.injEq] at hrun
  obtain ⟨engine, hsome, s, hs, hreturned, hsocket, hfirst, hsecond⟩ := hrun
  have hengine := Engine.new_of_toOption hsome
  have hreturns (index : Nat) : s.returns index < UInt32.size :=
    (returns_of_run hs index).2.trans_lt (by simp [beginning, handOver, UInt32.size])
  obtain ⟨⟨journal, hanswered, hearlier⟩, -⟩ :=
    answers_of_run htable hengine (by decide) hs hreturns
  exact ⟨table, engine, s, journal, htable, hengine, hs, hreturned, hsocket, hfirst, hsecond,
    hanswered, hearlier⟩

end Shift

end Server

end KeyValueServer
