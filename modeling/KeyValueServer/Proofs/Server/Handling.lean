import KeyValueServer.Proofs.Server.Admission
import KeyValueServer.Proofs.Server.Quiet

/-!
# Handling an event

A worker on its own comes to an event of the shared queue while no connection is being served. If
the event is about a connection that is open, the worker claims it, does what the event asks for,
and is done with it before it takes the next event. Otherwise it does nothing at all.
-/

namespace KeyValueServer

/-- The ring of a place, found or made. -/
theorem Arena.Sound.of_ring? {a : Arena} (ha : a.Sound) {index : Nat} {slot : ConnectionSlot}
    (hslot : a.slotAt index = some slot) {ring : EventRing}
    (hring : slot.ring? a.ringCapacity = some ring) : ring.Sound ∧ ring.toList = slot.events := by
  obtain ⟨made, hmade, hsound, hevents⟩ := ha.ringAt hslot
  rw [Arena.ringAt_of_slotAt hslot, hring] at hmade
  obtain ⟨rfl, -⟩ := Prod.mk.inj (Except.ok.inj hmade)
  exact ⟨hsound, hevents⟩

namespace Server

namespace Engine

/-- Read the connection that an event names, if the event says that there is something to read.
Tells whether the connection stays open. -/
def hear (e : Engine) (worker : Worker) (event : Event) : Option (Bool × Engine) :=
  if event.readable then e.serveStream worker event.token.index else some (true, e)

/-- Call the listening socket again and again, and take in the clients that it returns, until a call
fails for another reason than an interruption. -/
inductive TakesIn : Engine → Engine → Prop
  | client {e e' taken : Engine} {stream : StreamId} (haccept : e.acceptOnce = (.ok stream, e'))
      (hrest : TakesIn (e'.attach stream) taken) : TakesIn e taken
  | again {e e' taken : Engine} {error : Error} (haccept : e.acceptOnce = (.error error, e'))
      (hrepeated : isRepeated error = true) (hrest : TakesIn e' taken) : TakesIn e taken
  | stop {e e' : Engine} {error : Error} (haccept : e.acceptOnce = (.error error, e'))
      (hlast : isRepeated error = false) : TakesIn e e'

/-- An engine while a worker serves a place. -/
def serving (e : Engine) (index : Nat) (slot : ConnectionSlot) (ring : EventRing) : Engine :=
  { e with arena := e.arena.put index { slot with phase := .running, ring := some ring } }

/-- What becomes of an event. Its ring is left empty in any case. -/
inductive Treats (worker : Worker) (e : Engine) (event : Event) : Engine → Prop
  -- the token is not that of an open connection
  | discarded (hstale : ∀ slot, ¬e.Admits event slot) : Treats worker e event e
  -- a client was read, if there was something to read, and stays
  | served {slot : ConnectionSlot} {ring : EventRing} {heard : Engine}
      (hadmits : e.Admits event slot) (hidle : slot.phase = .waiting) (hrole : slot.role = .message)
      (hhear : e.hear worker event = some (true, heard)) (hstays : event.isHangup = false)
      (hring : ring.toList = []) :
      Treats worker e event
        { heard with arena := e.arena.put event.token.index { slot with ring := some ring } }
  -- a client has gone, or reading it was the end of it, and its place is given back
  | ended {slot : ConnectionSlot} {ring : EventRing} {isOpen : Bool} {heard : Engine}
      (hadmits : e.Admits event slot) (hidle : slot.phase = .waiting) (hrole : slot.role = .message)
      (hhear : e.hear worker event = some (isOpen, heard))
      (hends : isOpen = false ∨ event.isHangup = true) (hring : ring.toList = []) :
      Treats worker e event { heard with
        network := heard.network.close slot.socket
        arena := { e.arena.put event.token.index
          ⟨slot.generation + 1, .free, .message, some ring, .closed⟩ with
          free := e.arena.free ++ [event.token.index] } }
  -- clients that waited were taken in
  | listened {slot : ConnectionSlot} {ring ring' : EventRing} {taken : Engine}
      (hadmits : e.Admits event slot) (hidle : slot.phase = .waiting)
      (hrole : slot.role = .listener) (hring : ring.toList = [])
      (htakes : TakesIn (e.serving event.token.index slot ring) taken)
      (hring' : ring'.toList = []) :
      Treats worker e event
        { taken with arena := taken.arena.put event.token.index { slot with ring := some ring' } }

/-- Take all events from the shared queue, and handle each before the next one is taken. -/
inductive Serves (worker : Worker) : Engine → List Event → Engine → Prop
  | done {e : Engine} (hempty : e.waiter.dequeue? = none) : Serves worker e [] e
  | next {e e' served : Engine} {event : Event} {waiter : Waiter} {events : List Event}
      (hnext : e.waiter.dequeue? = some (event, waiter))
      (htreats : Treats worker { e with waiter } event e')
      (hrest : Serves worker e' events served) : Serves worker e (event :: events) served

end Engine

variable {e e' taken heard : Engine} {index limit : Nat} {slot : ConnectionSlot} {event : Event}
  {worker : Worker} {stages : Nat → WorkerStage}

namespace Tenanted

variable {a a' : Arena}

/-- A place goes from the line of free places to nobody or the other way, while no worker has it. -/
theorem handOver (hs : Tenanted a stages) (keeper keeper' : Keeper) {next : ConnectionSlot}
    (hkeeps : Keeps a stages index keeper) (hslot : a.slotAt index = some slot)
    (hbefore : ∀ w tenure, keeper ≠ .worker w tenure)
    (hafter : ∀ w tenure, keeper' ≠ .worker w tenure)
    (hslots : a'.slots = (a.put index next).slots) (hrings : a'.ringCapacity = a.ringCapacity)
    (hring : ∀ ring, next.ring = some ring → ring.Sound) (honce : a'.free.Nodup)
    (hothers : ∀ other, other ≠ index → (other ∈ a'.free ↔ other ∈ a.free))
    (hfree : index ∈ a'.free ↔ keeper' = .line) (hfits : keeper'.Fits index next) :
    Tenanted a' stages := by
  have hat (other : Nat) : a'.slotAt other = (a.put index next).slotAt other := by
    rw [Arena.slotAt, hslots, Arena.slotAt]
  have hput : (a.put index next).Sound := hs.sound.put hring
  have hsound : a'.Sound :=
    ⟨hrings ▸ hput.room, fun hslot hfound => hput.rings ((hat _).symm.trans hslot) hfound⟩
  have hnobody : ∀ w tenure, (index, tenure) ∈ (stages w).holds ↔ keeper' = .worker w tenure :=
    fun w tenure => iff_of_false
      (fun hheld => hbefore w tenure ((hkeeps.worker w tenure).mp hheld)) (hafter w tenure)
  rw [← turn_eq_of_eq (rfl : stages 0 = stages 0)]
  refine hs.move index keeper' hsound honce
    (fun other hother => (hat other).trans (a.slotAt_put_of_ne hother next)) hothers
    (fun _ _ _ => Iff.rfl) ?_ ?_
  · rw [turn_eq_of_eq rfl]
    exact ⟨hfree, hnobody⟩
  · rw [hat, Arena.slotAt_put_self hslot]
    exact hfits

/-- Where no worker has a place, each is in the line of free ones or nobody's. -/
theorem line_or_nobody (hs : Tenanted a fun _ => .claiming) (hslot : a.slotAt index = some slot) :
    (Keeps a (fun _ => .claiming) index .line ∧ Keeper.line.Fits index slot) ∨
      (Keeps a (fun _ => .claiming) index .nobody ∧ Keeper.nobody.Fits index slot) := by
  obtain ⟨keeper, hkeeps, hfits⟩ := hs.of_slotAt hslot
  cases keeper with
  | line => exact .inl ⟨hkeeps, hfits⟩
  | nobody => exact .inr ⟨hkeeps, hfits⟩
  | worker w tenure =>
      have hheld := (hkeeps.worker w tenure).mpr rfl
      simp [WorkerStage.holds] at hheld

/-- The pool stays tenanted as it is while a client is taken in, whoever does it. -/
theorem attach (hs : Tenanted e.arena stages) (stream : StreamId) :
    Tenanted (e.attach stream).arena stages ∧ (e.attach stream).table = e.table ∧
      (e.attach stream).arena.capacity = e.arena.capacity := by
  cases hfree : e.arena.free with
  | nil =>
      rw [Engine.attach_of_nil hfree]
      exact ⟨hs, rfl, rfl⟩
  | cons index free =>
      have hmem : index ∈ e.arena.free := by simp [hfree]
      obtain ⟨hkeeps, slot, hslot, hfits⟩ := hs.of_mem_free hmem
      have hindex : index ≠ Arena.listenerIndex := hfits.suits.1
      have hquiet : slot.events = [] := hfits.quiet (by simp [Keeper.phase])
      obtain ⟨ring, hring, hseats⟩ :=
        Engine.attach_of_cons hfree hindex hslot hs.sound.room stream
      obtain ⟨hsound, hevents⟩ := hs.sound.of_ring? hslot hring
      have honce := hs.once
      rw [hfree, List.nodup_cons] at honce
      generalize e.attach stream = e' at hseats
      cases hseats with
      | watched hwatch =>
          refine ⟨hs.handOver .line .nobody hkeeps hslot (by simp) (by simp) rfl rfl
            (by simpa using hsound) honce.2 (fun other hother => by simp [hfree, hother])
            (by simp [honce.1]) ⟨rfl, fun hbusy => absurd (hevents.trans hquiet) hbusy, ?_⟩,
            rfl, Arena.capacity_put _ _ _⟩
          simp [Keeper.Suits, ConnectionSlot.IsOpen, hindex]
      | withdrawn hwatch =>
          refine ⟨hs.handOver .line .line hkeeps hslot (by simp) (by simp) rfl rfl
            (by simpa using hsound.reset) ?_ (fun other hother => by simp [hfree, hother])
            (by simp) ⟨rfl, fun hbusy => absurd hsound.toList_reset hbusy, hindex, rfl⟩,
            rfl, Arena.capacity_put _ _ _⟩
          rw [List.nodup_append_comm]
          exact List.nodup_cons.mpr honce

end Tenanted

namespace Engine

/-! ## Taking in clients -/

theorem takesIn_acceptAll (hlimit : e.network.backlog.length < limit) :
    e.TakesIn (e.acceptAll limit) := by
  induction limit generalizing e with
  | zero => omega
  | succ limit ih =>
      rw [acceptAll]
      split
      next stream e' haccept =>
        have hshorter := length_backlog_lt haccept fun error heq => by contradiction
        refine .client haccept (ih ?_)
        rw [backlog_attach]
        omega
      next error e' haccept =>
        split
        next hrepeated =>
          have hshorter := length_backlog_lt haccept fun other heq =>
            Except.error.inj heq ▸ hrepeated
          exact .again haccept hrepeated (ih (by omega))
        next hlast => exact .stop haccept (by simpa using hlast)

/-- A call on the listening socket changes nothing but the network. -/
theorem acceptOnce_keeps {result : Except Error StreamId} (h : e.acceptOnce = (result, e')) :
    e'.arena = e.arena ∧ e'.table = e.table := by
  have hsame : e.acceptOnce.2.arena = e.arena ∧ e.acceptOnce.2.table = e.table := by
    unfold acceptOnce
    split
    · split <;> exact ⟨rfl, rfl⟩
    · exact ⟨rfl, rfl⟩
  rwa [h] at hsame

theorem TakesIn.tenanted (h : e.TakesIn taken) (hs : Tenanted e.arena stages) :
    Tenanted taken.arena stages ∧ taken.table = e.table ∧
      taken.arena.capacity = e.arena.capacity := by
  induction h with
  | client haccept _ ih =>
      obtain ⟨harena, htable⟩ := acceptOnce_keeps haccept
      obtain ⟨hattached, htable', hcapacity⟩ := (harena ▸ hs : Tenanted _ stages).attach _
      obtain ⟨htaken, htable'', hcapacity'⟩ := ih hattached
      exact ⟨htaken, htable''.trans (htable'.trans htable),
        hcapacity'.trans (hcapacity.trans (congrArg Arena.capacity harena))⟩
  | again haccept _ _ ih =>
      obtain ⟨harena, htable⟩ := acceptOnce_keeps haccept
      obtain ⟨htaken, htable', hcapacity⟩ := ih (harena ▸ hs)
      exact ⟨htaken, htable'.trans htable, hcapacity.trans (congrArg Arena.capacity harena)⟩
  | stop haccept _ =>
      obtain ⟨harena, htable⟩ := acceptOnce_keeps haccept
      exact ⟨harena ▸ hs, htable, congrArg Arena.capacity harena⟩

/-- Places that are in use are left alone, and so are the shared queue and the memory. -/
theorem TakesIn.spares (h : e.TakesIn taken) (hfree : index ∉ e.arena.free) :
    e.Spares index taken := by
  have hcall {e e' : Engine} {result : Except Error StreamId}
      (haccept : e.acceptOnce = (result, e')) : e.Spares index e' := by
    have hspares := Spares.acceptOnce e index
    rwa [haccept] at hspares
  induction h with
  | @client _ e' _ stream haccept _ ih =>
      have honce := hcall haccept
      have hattach := Spares.attach e' stream (honce.taken hfree)
      exact (honce.trans hattach).trans (ih (hattach.taken (honce.taken hfree)))
  | again haccept _ _ ih =>
      have honce := hcall haccept
      exact honce.trans (ih (honce.taken hfree))
  | stop haccept _ => exact hcall haccept

/-! ## Reading a connection -/

/-- Reading looks at no more of the pool than at which socket is read. -/
theorem serveStream_congr {a : Arena} (hsocket : (a.slotAt index).map ConnectionSlot.socket =
      (e.arena.slotAt index).map ConnectionSlot.socket) :
    ({ e with arena := a } : Engine).serveStream worker index =
      (e.serveStream worker index).map fun turn => (turn.1, { turn.2 with arena := a }) := by
  have hsame : ({ e with arena := a } : Engine).socketAt index = e.socketAt index := by
    rw [socketAt, hsocket, socketAt]
  unfold serveStream
  rw [hsame]
  split
  · dsimp only
    split
    · rfl
    · rw [Option.map_map]
      rfl
  · rfl

theorem hear_congr {a : Arena} (hsocket : (a.slotAt event.token.index).map ConnectionSlot.socket =
      (e.arena.slotAt event.token.index).map ConnectionSlot.socket) :
    ({ e with arena := a } : Engine).hear worker event =
      (e.hear worker event).map fun turn => (turn.1, { turn.2 with arena := a }) := by
  unfold hear
  split
  · exact serveStream_congr hsocket
  · rfl

/-- A connection that was read, if there was something to read, while nobody had a handle. -/
structure Hears (e : Engine) (worker : Worker) (event : Event) (isOpen : Bool) (heard : Engine) :
    Prop extends e.Keeps heard where
  hear : e.hear worker event = some (isOpen, heard)
  arena : heard.arena = e.arena
  quiet : heard.table.Quiet

/-- A worker that nobody keeps waiting gets to the end of what it reads. -/
theorem exists_hears (hquiet : e.table.Quiet) (worker : Worker) (event : Event) :
    ∃ isOpen heard, e.Hears worker event isOpen heard := by
  have hserve : ∃ isOpen heard, e.serveStream worker event.token.index = some (isOpen, heard) ∧
      heard.table.Quiet := by
    unfold serveStream
    split
    · split
      · exact ⟨_, _, rfl, hquiet⟩
      next peer _ =>
        obtain ⟨turn, hturn, hafter⟩ := hquiet.exists_serve worker peer
        rw [hturn, Option.map_some]
        exact ⟨_, _, rfl, hafter⟩
    · exact ⟨_, _, rfl, hquiet⟩
  by_cases hreadable : event.readable = true
  · obtain ⟨isOpen, heard, hheard, hafter⟩ := hserve
    obtain ⟨hkeeps, harena⟩ := keeps_serveStream hheard
    exact ⟨isOpen, heard, hkeeps, by rw [hear, if_pos hreadable, hheard], harena, hafter⟩
  · exact ⟨true, e, ⟨rfl, rfl⟩, by rw [hear, if_neg hreadable], rfl, hquiet⟩

/-! ## One event -/

/-- An engine whose worker serves no connection. -/
structure IsReady (e : Engine) : Prop where
  tenanted : Tenanted e.arena fun _ => .claiming
  nonempty : 1 ≤ e.arena.capacity
  quiet : e.table.Quiet
  queue : e.waiter.queue.Sound

section Serving

variable {ring : EventRing}

theorem slotAt_serving (hslot : e.arena.slotAt index = some slot) (ring : EventRing) :
    (e.serving index slot ring).arena.slotAt index =
      some { slot with phase := .running, ring := some ring } :=
  Arena.slotAt_put_self hslot _

theorem capacity_serving (e : Engine) (index : Nat) (slot : ConnectionSlot) (ring : EventRing) :
    (e.serving index slot ring).arena.capacity = e.arena.capacity :=
  Arena.capacity_put e.arena index _

/-- A worker that finds no more events at its connection is done with it. -/
theorem drain_of_nil (hs : Tenanted e.arena (turn (fun _ => .claiming) 0 (.taking index)))
    (hslot : e.arena.slotAt index = some slot) (hrunning : slot.phase = .running)
    (hevents : slot.events = []) (worker : Worker) :
    ∃ ring : EventRing, ring.toList = [] ∧
      drain worker 1 e index = some { e with
        arena := e.arena.put index { slot with phase := .waiting, ring := some ring } } ∧
      Tenanted (e.arena.put index { slot with phase := .waiting, ring := some ring })
        fun _ => .claiming := by
  obtain ⟨ring, hring, ⟨-, hnil, htake⟩ | ⟨event, hcons, -⟩⟩ :=
    takeEvent_cases hs.sound hslot hrunning
  · refine ⟨ring, hnil, by rw [drain, htake], ?_⟩
    have hback : turn (turn (fun _ => .claiming) 0 (.taking index)) 0 .claiming =
        fun _ => .claiming := by
      funext w
      simp only [turn]
      split <;> rfl
    rw [← hback]
    exact hs.drain (turn_self _ _ _) hslot hring hnil
  · rw [hevents] at hcons
    contradiction

namespace IsReady

/-- A place that is in use waits for its next event. -/
theorem of_admits (he : e.IsReady) (hadmits : e.Admits event slot) :
    Server.Keeps e.arena (fun _ => .claiming) event.token.index .nobody ∧
      Keeper.nobody.Fits event.token.index slot := by
  obtain ⟨-, hfits⟩ | hnobody := he.tenanted.line_or_nobody hadmits.found
  · exact absurd hfits.phase hadmits.used
  · exact hnobody

/-- A worker claims a connection for an event, and then takes that event. -/
theorem exists_claim (he : e.IsReady) (hadmits : e.Admits event slot) :
    ∃ (e₁ : Engine) (ring : EventRing), e.route event = (some event.token.index, e₁) ∧
      e₁.queuedAt event.token.index = 1 ∧ ring.Sound ∧ ring.toList = [] ∧
      e₁.takeEvent event.token.index =
        (.event event slot.role, e.serving event.token.index slot ring) := by
  obtain ⟨-, hfits⟩ := he.of_admits hadmits
  have hidle : slot.phase = .waiting := hfits.phase
  have hquiet : slot.events = [] := hfits.quiet (by simp [Keeper.phase])
  obtain ⟨ring, hring, ⟨hfull, -⟩ | ⟨hevents, hroute⟩⟩ :=
    route_of_admits he.tenanted.sound hadmits
  · exact absurd hquiet hfull
  rw [if_pos hidle] at hroute
  rw [hquiet, List.nil_append] at hevents
  have hslot := slotAt_serving hadmits.found ring
  have hsound : (e.serving event.token.index slot ring).arena.Sound :=
    he.tenanted.sound.put (by simpa using hring)
  obtain ⟨ring', hring', ⟨hnil, -⟩ | ⟨oldest, hcons, htake⟩⟩ := takeEvent_cases hsound hslot rfl
  · exact absurd (hevents.symm.trans hnil) (by simp)
  have hone : ConnectionSlot.events { slot with phase := .running, ring := some ring } =
      [event] := hevents
  obtain ⟨rfl, hnil⟩ := List.cons.inj (hone.symm.trans hcons)
  refine ⟨e.serving event.token.index slot ring, ring', hroute, ?_, hring', hnil.symm, ?_⟩
  · rw [queuedAt_of_slotAt hslot, hone]
    rfl
  · rw [htake]
    simp only [serving, Arena.put_put]

theorem tenanted_serving (he : e.IsReady) (hadmits : e.Admits event slot) (hring : ring.Sound) :
    Tenanted (e.serving event.token.index slot ring).arena
      (turn (fun _ => .claiming) 0 (.taking event.token.index)) := by
  obtain ⟨hkeeps, hfits⟩ := he.of_admits hadmits
  refine he.tenanted.put (.worker 0 .serving) hadmits.found (by simpa using hring)
    (fun other hother tenure => by simp [WorkerStage.holds, hother])
    (hkeeps.turn rfl (by simp [Keeper.isOthers])
      (fun tenure => by simp [WorkerStage.holds, eq_comm]) (by simp [hkeeps.line])) ?_
  exact ⟨rfl, fun _ => rfl, hfits.suits⟩

/-- A client that is heard and stays. -/
theorem exists_served (he : e.IsReady) (hadmits : e.Admits event slot)
    (hrole : slot.role = .message) (hring : ring.Sound) (hnil : ring.toList = [])
    (hhears : e.Hears worker event true heard) (hstays : event.isHangup = false) :
    ∃ e', drain worker 1 (heard.serving event.token.index slot ring) event.token.index = some e' ∧
      Treats worker e event e' ∧ e'.IsReady := by
  have hidle : slot.phase = .waiting := (he.of_admits hadmits).2.phase
  have htaking : Tenanted (heard.serving event.token.index slot ring).arena
      (turn (fun _ => .claiming) 0 (.taking event.token.index)) := by
    rw [serving, hhears.arena]
    exact he.tenanted_serving hadmits hring
  have hslot := slotAt_serving (hhears.arena ▸ hadmits.found) ring
  obtain ⟨ring', hnil', hdrain, hrests⟩ := drain_of_nil htaking hslot rfl hnil worker
  refine ⟨_, hdrain, ?_, hrests, ?_, hhears.quiet, ?_⟩
  · dsimp only [serving]
    rw [Arena.put_put, ← hidle, hhears.arena]
    exact .served hadmits hidle hrole hhears.hear hstays hnil'
  · dsimp only
    rw [Arena.capacity_put, capacity_serving, hhears.arena]
    exact he.nonempty
  · dsimp only [serving]
    rw [hhears.waiter]
    exact he.queue

/-- A client that has gone, or whose connection has come to its end. -/
theorem exists_ended (he : e.IsReady) (hadmits : e.Admits event slot)
    (hrole : slot.role = .message) (hring : ring.Sound) {isOpen : Bool}
    (hhears : e.Hears worker event isOpen heard) (hends : isOpen = false ∨ event.isHangup = true) :
    ∃ e', (heard.serving event.token.index slot ring).close event.token.index = e' ∧
      Treats worker e event e' ∧ e'.IsReady := by
  obtain ⟨hnobody, hfits⟩ := he.of_admits hadmits
  have hindex : event.token.index ≠ Arena.listenerIndex := by
    intro hindex
    have hopen := hfits.suits
    simp only [Keeper.Suits, ConnectionSlot.IsOpen, if_pos hindex, hrole] at hopen
    exact ConnectionRole.noConfusion hopen.1
  have hnot : event.token.index ∉ e.arena.free := by simp [hnobody.line]
  refine ⟨_, close_eq (slotAt_serving (hhears.arena ▸ hadmits.found) ring) hindex, ?_⟩
  dsimp only [serving, ConnectionSlot.retired, Option.map_some]
  rw [Arena.put_put, hrole, hhears.arena]
  refine ⟨.ended hadmits hfits.phase hrole hhears.hear hends hring.toList_reset, ?_, ?_,
    hhears.quiet, ?_⟩
  · have honce : (e.arena.free ++ [event.token.index]).Nodup := by
      rw [List.nodup_append_comm]
      exact List.nodup_cons.mpr ⟨hnot, he.tenanted.once⟩
    have hline : ∀ other, other ≠ event.token.index →
        (other ∈ e.arena.free ++ [event.token.index] ↔ other ∈ e.arena.free) :=
      fun other hother => by simp [hother]
    exact he.tenanted.handOver .nobody .line hnobody hadmits.found (by simp) (by simp) rfl rfl
      (by simpa using hring.reset) honce hline (by simp)
      ⟨rfl, fun hbusy => absurd hring.toList_reset hbusy, hindex, rfl⟩
  · exact he.nonempty.trans_eq (Arena.capacity_put e.arena event.token.index _).symm
  · rw [hhears.waiter]
    exact he.queue

/-- A listening socket that was called until nobody waited any more. -/
theorem exists_listened (he : e.IsReady) (hadmits : e.Admits event slot)
    (hrole : slot.role = .listener) (hring : ring.Sound) (hnil : ring.toList = [])
    (htakes : (e.serving event.token.index slot ring).TakesIn taken) :
    ∃ e', drain worker 1 taken event.token.index = some e' ∧ Treats worker e event e' ∧
      e'.IsReady := by
  obtain ⟨hnobody, hfits⟩ := he.of_admits hadmits
  have hidle : slot.phase = .waiting := hfits.phase
  have hnot : event.token.index ∉ e.arena.free := by simp [hnobody.line]
  obtain ⟨htaking, htable, hcapacity⟩ := htakes.tenanted (he.tenanted_serving hadmits hring)
  have hspares := htakes.spares hnot
  have hslot := hspares.slot.trans (slotAt_serving hadmits.found ring)
  obtain ⟨ring', hnil', hdrain, hrests⟩ := drain_of_nil htaking hslot rfl hnil worker
  refine ⟨_, hdrain, ?_, hrests, ?_, ?_, ?_⟩
  · rw [← hidle]
    exact .listened hadmits hidle hrole hnil htakes hnil'
  · dsimp only
    rw [Arena.capacity_put, hcapacity, capacity_serving]
    exact he.nonempty
  · exact htable ▸ he.quiet
  · dsimp only
    rw [hspares.waiter]
    exact he.queue

/-- A worker on its own does what an event about an open connection asks for, and is done with it
then. -/
theorem exists_treats (he : e.IsReady) (hadmits : e.Admits event slot) (worker : Worker) :
    ∃ e₁ e', e.route event = (some event.token.index, e₁) ∧
      drain worker (e₁.queuedAt event.token.index + 1) e₁ event.token.index = some e' ∧
      Treats worker e event e' ∧ e'.IsReady := by
  obtain ⟨e₁, ring, hroute, hqueued, hring, hnil, htake⟩ := he.exists_claim hadmits
  refine ⟨e₁, ?_⟩
  rw [hqueued]
  cases hrole : slot.role with
  | listener =>
      rw [hrole] at htake
      have htakes := takesIn_acceptAll
        (Nat.lt_succ_self (e.serving event.token.index slot ring).network.backlog.length)
      obtain ⟨e', hdrain, htreats, hready⟩ := he.exists_listened hadmits hrole hring hnil htakes
      refine ⟨e', hroute, ?_, htreats, hready⟩
      rw [drain, htake]
      exact hdrain
  | message =>
      rw [hrole] at htake
      obtain ⟨isOpen, heard, hhears⟩ := exists_hears he.quiet worker event
      have hheard : (e.serving event.token.index slot ring).hear worker event =
          some (isOpen, heard.serving event.token.index slot ring) := by
        rw [serving, hear_congr, hhears.hear, Option.map_some, serving, hhears.arena]
        rw [Arena.slotAt_put_self hadmits.found, hadmits.found]
        rfl
      rw [hear] at hheard
      by_cases hends : isOpen = false ∨ event.isHangup = true
      · obtain ⟨e', hclose, htreats, hready⟩ := he.exists_ended hadmits hrole hring hhears hends
        refine ⟨e', hroute, ?_, htreats, hready⟩
        rw [drain_of_message htake, hheard, Option.bind_some, if_pos (by simpa using hends), hclose]
      · obtain ⟨rfl, hstays⟩ : isOpen = true ∧ event.isHangup = false := by simpa using hends
        obtain ⟨e', hdrain, htreats, hready⟩ :=
          he.exists_served hadmits hrole hring hnil hhears hstays
        refine ⟨e', hroute, ?_, htreats, hready⟩
        rw [drain_of_message htake, hheard, Option.bind_some, if_neg (by simpa using hstays)]
        exact hdrain

end IsReady

end Serving

end Engine

end Server

end KeyValueServer
