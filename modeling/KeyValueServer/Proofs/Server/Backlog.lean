import KeyValueServer.Proofs.Server.Processing

/-!
# The backlog of the listening socket

A worker that is told of the listening socket calls it until a call fails, and a failure ends the
round unless it is an interruption. Each client that a call has returned by then gets a place of its
own, or is dropped, where all places are in use or its connection can not be watched. The others
stay where they are. If the last failure says that nobody waits there are none; after any other the
socket has not been emptied, and nothing will be reported about those who still wait.
-/

namespace KeyValueServer

namespace Arrival

/-- Whether the listening socket is called again afterwards. -/
def isPassed : Arrival → Bool
  | client _ => true
  | fails fault => fault.isInterrupted

def client? : Arrival → Option StreamId
  | client stream => some stream
  | fails _ => none

/-- The clients in front of the first failure for good. -/
def admitted (backlog : List Arrival) : List StreamId :=
  (backlog.takeWhile isPassed).filterMap client?

/-- What comes behind that failure. -/
def left (backlog : List Arrival) : List Arrival := (backlog.dropWhile isPassed).tail

variable {backlog : List Arrival} {stream : StreamId} {fault : IoFault}

theorem admitted_client : admitted (.client stream :: backlog) = stream :: admitted backlog := by
  simp [admitted, List.takeWhile_cons, isPassed, client?]

theorem left_client : left (.client stream :: backlog) = left backlog := by
  simp [left, List.dropWhile_cons, isPassed]

theorem admitted_passed (h : fault.isInterrupted = true) :
    admitted (.fails fault :: backlog) = admitted backlog := by
  simp [admitted, List.filterMap_cons, isPassed, client?, h]

theorem left_passed (h : fault.isInterrupted = true) :
    left (.fails fault :: backlog) = left backlog := by
  simp [left, isPassed, h]

theorem admitted_stopped (h : fault.isInterrupted = false) :
    admitted (.fails fault :: backlog) = [] := by
  simp [admitted, isPassed, h]

theorem left_stopped (h : fault.isInterrupted = false) :
    left (.fails fault :: backlog) = backlog := by
  simp [left, isPassed, h]

/-- Where calls fail by interruptions only, all clients are in front. -/
theorem admitted_of_all_passed (h : ∀ a ∈ backlog, a.isPassed = true) :
    admitted backlog = backlog.filterMap client? ∧ left backlog = [] := by
  rw [admitted, left, List.takeWhile_eq_self_iff.mpr h, List.dropWhile_eq_nil_iff.mpr h]
  exact ⟨rfl, rfl⟩

end Arrival

/-- Whether the connection of a client can be watched. -/
def Network.CanWatch (n : Network) (stream : StreamId) : Prop :=
  ∀ peer, n.peerAt stream = some peer → peer.pollable = true

/-- The place of the listener is none that is handed out. -/
theorem Arena.openPlaces_put_listener (a : Arena) (next : ConnectionSlot) :
    (a.put listenerIndex next).openPlaces = a.openPlaces := by
  rw [openPlaces, capacity_put]
  refine List.filter_congr fun index hmem => ?_
  have hindex : index ≠ listenerIndex := by
    have hrange := (List.mem_range'_1.mp hmem).1
    rw [listenerIndex]
    omega
  rw [isOpenAt, slotAt_put_of_ne a hindex, isOpenAt]

namespace Server

namespace Engine

variable {e e' e'' taken : Engine} {stream : StreamId} {streams streams' : List StreamId}
  {seats seats' : List (Nat × StreamId)} {index : Nat}

/-! ## Clients in their places -/

/-- Where a client was taken in, and the engine waits to hear from it. -/
def Sits (e : Engine) (stream : StreamId) (index : Nat) : Prop :=
  ∃ slot, e.arena.slotAt index = some slot ∧ slot.phase = .waiting ∧ slot.role = .message ∧
    slot.socket = .stream stream ∧
    (ConnectionToken.encode index slot.generation, .stream stream) ∈ e.network.watched

/-- An engine has dealt with clients that calls on the listening socket have returned, and these are
the places that it has given them. -/
structure Welcomes (e e' : Engine) (streams : List StreamId) (seats : List (Nat × StreamId)) :
    Prop where
  capacity : e'.arena.capacity = e.arena.capacity
  chosen : (seats.map Prod.snd).Sublist streams
  /-- The places are different ones, and none of them was in use. -/
  places : e'.arena.openPlaces.Perm (seats.map Prod.fst ++ e.arena.openPlaces)
  seated : ∀ seat ∈ seats, e'.Sits seat.2 seat.1 ∧ e'.network.CanWatch seat.2
  /-- A client without a place is dropped, and unless it can not be watched all places are taken. -/
  turnedAway : ∀ stream ∈ streams, stream ∉ seats.map Prod.snd →
    ∀ peer, e'.network.peerAt stream = some peer → peer.dropped = true ∧
      (peer.pollable = true → e'.arena.openPlaces.length = e'.arena.capacity - 1)
  /-- Those that had a place before stay there, and are watched as before. -/
  undisturbed : ∀ index ∈ e.arena.openPlaces, e'.arena.slotAt index = e.arena.slotAt index
  watched : ∀ entry ∈ e.network.watched, (∀ stream, entry.2 = .stream stream →
    e.network.CanWatch stream) → entry ∈ e'.network.watched
  /-- Nothing about a client changes but that it is dropped, and this only if it has no place. -/
  peers : ∀ stream, ∃ dropped, e'.network.peerAt stream =
    (e.network.peerAt stream).map fun p => { p with dropped := p.dropped || dropped }
  others : ∀ stream, stream ∉ streams → e'.network.peerAt stream = e.network.peerAt stream
  kept : streams.Nodup → ∀ stream ∈ seats.map Prod.snd,
    e'.network.peerAt stream = e.network.peerAt stream

namespace Welcomes

theorem refl (e : Engine) : e.Welcomes e [] [] where
  capacity := rfl
  chosen := List.Sublist.refl _
  places := .refl _
  seated := by simp
  turnedAway := by simp
  undisturbed _ _ := rfl
  watched _ hentry _ := hentry
  peers stream := ⟨false, by simp⟩
  others _ _ := rfl
  kept _ _ _ := rfl

theorem canWatch_iff (h : e.Welcomes e' streams seats) (stream : StreamId) :
    e'.network.CanWatch stream ↔ e.network.CanWatch stream := by
  obtain ⟨dropped, hpeer⟩ := h.peers stream
  simp only [Network.CanWatch, hpeer]
  cases e.network.peerAt stream <;> simp

/-- A client keeps its place while others are dealt with. -/
theorem sits (h : e.Welcomes e' streams seats) (hsits : e.Sits stream index)
    (hindex : index ≠ Arena.listenerIndex) (hwatch : e.network.CanWatch stream) :
    e'.Sits stream index := by
  obtain ⟨slot, hslot, hphase, hrole, hsocket, hwatched⟩ := hsits
  have hopen : index ∈ e.arena.openPlaces :=
    Arena.mem_openPlaces.mpr ⟨hindex, slot, hslot, by simp [hphase]⟩
  refine ⟨slot, (h.undisturbed index hopen).trans hslot, hphase, hrole, hsocket,
    h.watched _ hwatched ?_⟩
  rintro _ ⟨⟩
  exact hwatch

/-- Some clients are dealt with, and then others. What the first ones got the others leave them, and
where there is no place for one of the first there is none later. -/
theorem trans (h : e.Welcomes e' streams seats) (h' : e'.Welcomes e'' streams' seats')
    (hlends : e''.arena.Lends e''.arena.openPlaces) :
    e.Welcomes e'' (streams ++ streams') (seats ++ seats') where
  capacity := h'.capacity.trans h.capacity
  chosen := by
    rw [List.map_append]
    exact h.chosen.append h'.chosen
  places := by
    rw [List.map_append]
    refine h'.places.trans ((h.places.append_left _).trans ?_)
    rw [← List.append_assoc]
    exact List.perm_append_comm.append_right _
  seated seat hseat := by
    rcases List.mem_append.mp hseat with hseat | hseat
    · obtain ⟨hsits, hwatch⟩ := h.seated seat hseat
      have hopen : seat.1 ∈ e'.arena.openPlaces :=
        h.places.mem_iff.mpr (List.mem_append_left _ (List.mem_map_of_mem hseat))
      exact ⟨h'.sits hsits (Arena.mem_openPlaces.mp hopen).1 hwatch,
        (h'.canWatch_iff _).mpr hwatch⟩
    · exact h'.seated seat hseat
  turnedAway stream hmem hnot peer hpeer := by
    rw [List.map_append, List.mem_append, not_or] at hnot
    by_cases hlater : stream ∈ streams'
    · exact h'.turnedAway stream hlater hnot.2 peer hpeer
    · have hfirst : stream ∈ streams := (List.mem_append.mp hmem).resolve_right hlater
      have hbefore := (h'.others stream hlater).symm.trans hpeer
      obtain ⟨hdropped, hfull⟩ := h.turnedAway stream hfirst hnot.1 peer hbefore
      refine ⟨hdropped, fun hpollable => ?_⟩
      have hmore := h'.places.length_eq
      have hmost := hlends.length_eq
      rw [List.length_append, hfull hpollable] at hmore
      rw [h'.capacity] at hmost ⊢
      omega
  undisturbed index hopen := by
    have hstill : index ∈ e'.arena.openPlaces :=
      h.places.mem_iff.mpr (List.mem_append_right _ hopen)
    exact (h'.undisturbed index hstill).trans (h.undisturbed index hopen)
  watched entry hentry hwatch :=
    h'.watched entry (h.watched entry hentry hwatch)
      fun stream hstream => (h.canWatch_iff stream).mpr (hwatch stream hstream)
  peers stream := by
    obtain ⟨dropped, hfirst⟩ := h.peers stream
    obtain ⟨dropped', hsecond⟩ := h'.peers stream
    refine ⟨dropped || dropped', ?_⟩
    rw [hsecond, hfirst, Option.map_map]
    congr 1
    funext p
    simp [Bool.or_assoc]
  others stream hnot := by
    rw [List.mem_append, not_or] at hnot
    exact (h'.others stream hnot.2).trans (h.others stream hnot.1)
  kept hnodup stream hmem := by
    obtain ⟨hfirst, hsecond, hdisjoint⟩ := List.nodup_append.mp hnodup
    rw [List.map_append, List.mem_append] at hmem
    rcases hmem with hmem | hmem
    · have hnot : stream ∉ streams' :=
        fun hlater => hdisjoint stream (h.chosen.subset hmem) stream hlater rfl
      exact (h'.others stream hnot).trans (h.kept hfirst stream hmem)
    · have hnot : stream ∉ streams :=
        fun hearlier => hdisjoint stream hearlier stream (h'.chosen.subset hmem) rfl
      exact (h'.kept hsecond stream hmem).trans (h.others stream hnot)

end Welcomes

/-! ## One client -/

theorem exists_dropped {n n' : Network} {isDropped : Prop} [Decidable isDropped]
    (h : n'.peerAt stream = if isDropped
      then (n.peerAt stream).map fun p => { p with dropped := true } else n.peerAt stream) :
    ∃ dropped, n'.peerAt stream =
      (n.peerAt stream).map fun p => { p with dropped := p.dropped || dropped } := by
  refine ⟨decide isDropped, ?_⟩
  rw [h]
  split_ifs with hdropped
  · simp [hdropped]
  · simp [hdropped]

/-- A client for whom there is no place is dropped. -/
theorem welcomes_attach_of_nil (hlends : e.arena.Lends e.arena.openPlaces)
    (hfree : e.arena.free = []) (stream : StreamId) :
    e.Welcomes (e.attach stream) [stream] [] := by
  have hfull := hlends.length_eq
  rw [hfree, List.length_nil, Nat.zero_add] at hfull
  have hpeers := e.network.peerAt_drop stream
  rw [attach_of_nil hfree]
  exact
    { capacity := rfl
      chosen := List.nil_sublist _
      places := .refl _
      seated := by simp
      turnedAway := by
        rintro other hmem - peer hpeer
        obtain rfl := List.mem_singleton.mp hmem
        rw [hpeers, if_pos rfl] at hpeer
        obtain ⟨peer', -, rfl⟩ := Option.map_eq_some_iff.mp hpeer
        exact ⟨rfl, fun _ => hfull⟩
      undisturbed := fun _ _ => rfl
      watched := fun _ hentry _ => hentry
      peers := fun other => exists_dropped (hpeers other)
      others := by
        intro other hnot
        rw [hpeers, if_neg (Ne.symm (List.mem_singleton.not.mp hnot))]
      kept := by simp }

/-- A client to whom a free place was handed out sits there, or cannot be watched and is dropped. -/
theorem Seats.exists_welcomes {free : List Nat} {slot : ConnectionSlot} {ring : EventRing}
    (h : e.Seats stream index free slot ring e') (hindex : index ≠ Arena.listenerIndex)
    (hslot : e.arena.slotAt index = some slot) (hunused : index ∉ e.arena.openPlaces) :
    ∃ seats, e.Welcomes e' [stream] seats := by
  have hne {place : Nat} (hopen : place ∈ e.arena.openPlaces) : place ≠ index :=
    fun heq => hunused (heq ▸ hopen)
  cases h with
  | @watched network hwatch =>
      have hwatched := Network.watch_eq_ok hwatch
      have hpeers (other : StreamId) : network.peerAt other = e.network.peerAt other := by
        rw [hwatched]
        rfl
      exact ⟨[(index, stream)],
        { capacity := Arena.capacity_put _ _ _
          chosen := List.Sublist.refl _
          places := Arena.openPlaces_put_of_used hslot hindex hunused (by simp)
          seated := by
            intro seat hseat
            obtain rfl := List.mem_singleton.mp hseat
            refine ⟨⟨_, Arena.slotAt_put_self hslot _, rfl, rfl, rfl, ?_⟩, fun peer hpeer => ?_⟩
            · rw [hwatched]
              simp
            · by_contra hrefused
              rw [hpeers] at hpeer
              simp [Network.watch, hpeer, hrefused] at hwatch
          turnedAway := fun other hmem hnot => absurd hmem hnot
          undisturbed := fun place hopen => Arena.slotAt_put_of_ne e.arena (hne hopen) _
          watched := by
            intro entry hentry _
            rw [hwatched]
            exact List.mem_append_left _ hentry
          peers := fun other => ⟨false, by simp [hpeers]⟩
          others := fun other _ => hpeers other
          kept := fun _ other _ => hpeers other }⟩
  | withdrawn hwatch =>
      obtain ⟨id, refused, hsocket, hrefused, hpollable⟩ := Network.watch_eq_error hwatch
      obtain rfl := Socket.stream.inj hsocket
      have hpeers := e.network.peerAt_close (.stream stream)
      simp only [Socket.stream.injEq] at hpeers
      exact ⟨[],
        { capacity := Arena.capacity_put _ _ _
          chosen := List.nil_sublist _
          places := Arena.openPlaces_put_of_unused hslot hindex hunused rfl
          seated := by simp
          turnedAway := by
            rintro other hmem - peer hpeer
            obtain rfl := List.mem_singleton.mp hmem
            rw [hpeers, if_pos rfl, hrefused] at hpeer
            obtain rfl := Option.some.inj hpeer
            exact ⟨rfl, fun hcan => absurd (hpollable.symm.trans hcan) Bool.false_ne_true⟩
          undisturbed := fun place hopen => Arena.slotAt_put_of_ne e.arena (hne hopen) _
          watched := by
            intro entry hentry hcan
            refine Network.of_mem_watched hentry fun heq => ?_
            exact absurd (hpollable.symm.trans (hcan stream heq refused hrefused))
              Bool.false_ne_true
          peers := fun other => exists_dropped (hpeers other)
          others := by
            intro other hnot
            rw [hpeers, if_neg (Ne.symm (List.mem_singleton.not.mp hnot))]
          kept := by simp }⟩

/-- A client is taken in, or dropped. -/
theorem exists_welcomes_attach (hlends : e.arena.Lends e.arena.openPlaces)
    (hrings : 2 ≤ e.arena.ringCapacity) (stream : StreamId) :
    ∃ seats, e.Welcomes (e.attach stream) [stream] seats := by
  cases hfree : e.arena.free with
  | nil => exact ⟨[], welcomes_attach_of_nil hlends hfree stream⟩
  | cons index free =>
      have hmem : index ∈ e.arena.free := by simp [hfree]
      obtain ⟨hindex, hlt⟩ := hlends.mem_iff.mp (.inl hmem)
      obtain ⟨slot, hslot⟩ := Arena.exists_slotAt hlt
      obtain ⟨ring, -, hseats⟩ := attach_of_cons hfree hindex hslot hrings stream
      exact hseats.exists_welcomes hindex hslot (hlends.not_mem_lent hmem)

/-! ## The whole backlog -/

/-- An engine that listens, and whose workers have no other place than that of the listener. -/
structure Receives (e : Engine) (stages : Nat → WorkerStage) : Prop where
  tenanted : Tenanted e.arena stages
  nonempty : 1 ≤ e.arena.capacity
  alone : ∀ worker index tenure, (index, tenure) ∈ (stages worker).holds →
    index = Arena.listenerIndex
  listener : e.socketAt Arena.listenerIndex = .listener

namespace Receives

variable {stages : Nat → WorkerStage}

/-- The places that are handed out are those in use. -/
theorem lends (h : e.Receives stages) : e.arena.Lends e.arena.openPlaces := by
  refine (h.tenanted.lends h.nonempty).perm ((List.perm_ext_iff_of_nodup
    e.arena.nodup_takenPlaces e.arena.nodup_openPlaces).mpr fun index => ?_)
  rw [h.tenanted.mem_takenPlaces, Arena.mem_openPlaces]
  refine and_congr_right fun hindex => or_iff_left ?_
  rintro ⟨worker, tenure, hheld⟩
  exact hindex (h.alone worker index tenure hheld)

theorem withNetwork (h : e.Receives stages) (network : Network) :
    Receives { e with network } stages :=
  ⟨h.tenanted, h.nonempty, h.alone, h.listener⟩

theorem attach (h : e.Receives stages) (stream : StreamId) : (e.attach stream).Receives stages := by
  obtain ⟨htenanted, -, hcapacity⟩ := h.tenanted.attach stream
  have hline : Arena.listenerIndex ∉ e.arena.free :=
    fun hmem => (h.lends.mem_iff.mp (.inl hmem)).1 rfl
  refine ⟨htenanted, hcapacity ▸ h.nonempty, h.alone, ?_⟩
  rw [socketAt, (Spares.attach e stream hline).slot, ← socketAt, h.listener]

theorem acceptOnce (h : e.Receives stages) :
    (e.network.backlog = [] ∧ e.acceptOnce = (.error (.io .wouldBlock), e)) ∨
      (∃ stream rest, e.network.backlog = .client stream :: rest ∧ e.acceptOnce =
        (.ok stream, { e with network := { e.network with backlog := rest } })) ∨
      ∃ fault rest, e.network.backlog = .fails fault :: rest ∧ e.acceptOnce =
        (.error (.io fault), { e with network := { e.network with backlog := rest } }) := by
  have haccept := h.listener
  rw [Engine.acceptOnce, haccept, Network.accept]
  cases hbacklog : e.network.backlog with
  | nil => exact .inl ⟨rfl, rfl⟩
  | cons arrival rest =>
      cases arrival with
      | client stream => exact .inr (.inl ⟨stream, rest, rfl, rfl⟩)
      | fails fault => exact .inr (.inr ⟨fault, rest, rfl, rfl⟩)

end Receives

/-- The backlog is no part of what is done with clients. -/
theorem Welcomes.of_backlog {backlog : List Arrival}
    (h : Welcomes { e with network := { e.network with backlog } } e' streams seats) :
    e.Welcomes e' streams seats :=
  ⟨h.capacity, h.chosen, h.places, h.seated, h.turnedAway, h.undisturbed, h.watched, h.peers,
    h.others, h.kept⟩

/-- The clients in front of the first failure for good are dealt with one after the other. -/
theorem TakesIn.welcomes {stages : Nat → WorkerStage} (h : e.TakesIn taken)
    (hs : e.Receives stages) :
    taken.Receives stages ∧ taken.network.backlog = Arrival.left e.network.backlog ∧
      ∃ seats, e.Welcomes taken (Arrival.admitted e.network.backlog) seats := by
  induction h with
  | @client e e' taken stream haccept hrest ih =>
      obtain ⟨-, heq⟩ | ⟨first, rest, hbacklog, heq⟩ | ⟨fault, rest, hbacklog, heq⟩ := hs.acceptOnce
      · simp [haccept] at heq
      · obtain ⟨hfirst, rfl⟩ := Prod.mk.inj (haccept.symm.trans heq)
        obtain rfl := Except.ok.inj hfirst
        have hnow := hs.withNetwork { e.network with backlog := rest }
        obtain ⟨seats, hseats⟩ := exists_welcomes_attach hnow.lends hnow.tenanted.sound.room stream
        obtain ⟨htaken, hleft, seats', hseats'⟩ := ih (hnow.attach stream)
        rw [backlog_attach] at hleft hseats'
        rw [hbacklog, Arrival.left_client, Arrival.admitted_client]
        exact ⟨htaken, hleft, _, (hseats.trans hseats' htaken.lends).of_backlog⟩
      · simp [haccept] at heq
  | @again e e' taken error haccept hrepeated hrest ih =>
      obtain ⟨-, heq⟩ | ⟨first, rest, hbacklog, heq⟩ | ⟨fault, rest, hbacklog, heq⟩ := hs.acceptOnce
      · obtain ⟨hfault, -⟩ := Prod.mk.inj (haccept.symm.trans heq)
        obtain rfl := Except.error.inj hfault
        contradiction
      · simp [haccept] at heq
      · obtain ⟨hfault, rfl⟩ := Prod.mk.inj (haccept.symm.trans heq)
        obtain rfl := Except.error.inj hfault
        obtain ⟨htaken, hleft, seats, hseats⟩ := ih (hs.withNetwork _)
        rw [hbacklog, Arrival.left_passed hrepeated, Arrival.admitted_passed hrepeated]
        exact ⟨htaken, hleft, seats, hseats.of_backlog⟩
  | @stop e e' error haccept hlast =>
      obtain ⟨hbacklog, heq⟩ | ⟨first, rest, hbacklog, heq⟩ | ⟨fault, rest, hbacklog, heq⟩ :=
        hs.acceptOnce
      · obtain ⟨-, rfl⟩ := Prod.mk.inj (haccept.symm.trans heq)
        rw [hbacklog]
        exact ⟨hs, rfl, [], Welcomes.refl _⟩
      · simp [haccept] at heq
      · obtain ⟨hfault, rfl⟩ := Prod.mk.inj (haccept.symm.trans heq)
        obtain rfl := Except.error.inj hfault
        rw [hbacklog, Arrival.left_stopped hlast, Arrival.admitted_stopped hlast]
        exact ⟨hs.withNetwork _, rfl, [], Welcomes.of_backlog (Welcomes.refl _)⟩

/-! ## One event of the listening socket -/

/-- What a worker does to the place of the listener is no part of what is done with clients. -/
theorem Welcomes.of_put {first : ConnectionSlot}
    (h : Welcomes { e with arena := e.arena.put Arena.listenerIndex first } e' streams seats)
    (last : ConnectionSlot) :
    e.Welcomes { e' with arena := e'.arena.put Arena.listenerIndex last } streams seats where
  capacity := (Arena.capacity_put _ _ _).trans (h.capacity.trans (Arena.capacity_put _ _ _))
  chosen := h.chosen
  places := by
    rw [Arena.openPlaces_put_listener]
    exact h.places.trans (by rw [Arena.openPlaces_put_listener])
  seated seat hseat := by
    obtain ⟨⟨slot, hslot, hsits⟩, hwatch⟩ := h.seated seat hseat
    have hopen : seat.1 ∈ e'.arena.openPlaces :=
      h.places.mem_iff.mpr (List.mem_append_left _ (List.mem_map_of_mem hseat))
    have hindex := (Arena.mem_openPlaces.mp hopen).1
    exact ⟨⟨slot, (Arena.slotAt_put_of_ne _ hindex _).trans hslot, hsits⟩, hwatch⟩
  turnedAway stream hmem hnot peer hpeer := by
    obtain ⟨hdropped, hfull⟩ := h.turnedAway stream hmem hnot peer hpeer
    refine ⟨hdropped, fun hpollable => ?_⟩
    rw [Arena.openPlaces_put_listener, Arena.capacity_put]
    exact hfull hpollable
  undisturbed index hopen := by
    have hindex := (Arena.mem_openPlaces.mp hopen).1
    have hopen' : index ∈ (e.arena.put Arena.listenerIndex first).openPlaces := by
      rwa [Arena.openPlaces_put_listener]
    exact (Arena.slotAt_put_of_ne _ hindex _).trans
      ((h.undisturbed index hopen').trans (Arena.slotAt_put_of_ne _ hindex _))
  watched := h.watched
  peers := h.peers
  others := h.others
  kept := h.kept

/-- A worker that is told of the listening socket takes in the clients that wait, up to the first
failure for good. Behind it the backlog is left as it is. -/
theorem Resting.takes_in_admitted (he : e.Resting) {event : Event} {slot : ConnectionSlot}
    (hadmits : e.Admits event slot) (hrole : slot.role = .listener) (worker : Worker) :
    ∃ e₁ e', e.route event = (some event.token.index, e₁) ∧
      drain worker (e₁.queuedAt event.token.index + 1) e₁ event.token.index = some e' ∧
      e'.network.backlog = Arrival.left e.network.backlog ∧
      (∃ seats, e.Welcomes e' (Arrival.admitted e.network.backlog) seats) ∧
      ((∀ a ∈ e.network.backlog, a.isPassed = true) →
        Arrival.admitted e.network.backlog = e.network.backlog.filterMap Arrival.client? ∧
          e'.network.backlog = []) := by
  have hready := he.isReady
  obtain ⟨hnobody, hfits⟩ := hready.of_admits hadmits
  have hindex : event.token.index = Arena.listenerIndex := by
    by_contra hindex
    have hopen := hfits.suits
    simp only [Keeper.Suits, ConnectionSlot.IsOpen, if_neg hindex, hrole] at hopen
    exact ConnectionRole.noConfusion hopen.1
  have hsocket : slot.socket = .listener := by
    have hopen := hfits.suits
    simp only [Keeper.Suits, ConnectionSlot.IsOpen, if_pos hindex] at hopen
    exact hopen.2
  obtain ⟨e₁, ring, hroute, hqueued, hring, hnil, htake⟩ := hready.exists_claim hadmits
  have hserving := slotAt_serving hadmits.found ring
  have hreceives : (e.serving event.token.index slot ring).Receives
      (turn (fun _ => .claiming) 0 (.taking event.token.index)) := by
    refine ⟨hready.tenanted_serving hadmits hring, ?_, fun w index tenure hheld => ?_, ?_⟩
    · exact (capacity_serving e _ slot ring).symm ▸ hready.nonempty
    · simp only [turn] at hheld
      split_ifs at hheld
      · obtain ⟨rfl, -⟩ : index = event.token.index ∧ tenure = .serving := by
          simpa [WorkerStage.holds] using hheld
        exact hindex
      · simp [WorkerStage.holds] at hheld
    · rw [← hindex, socketAt_of_slotAt hserving, hsocket]
  have htakes := takesIn_acceptAll
    (Nat.lt_succ_self (e.serving event.token.index slot ring).network.backlog.length)
  have hnot : event.token.index ∉ (e.serving event.token.index slot ring).arena.free :=
    fun hmem => (hreceives.lends.mem_iff.mp (.inl hmem)).1 hindex
  obtain ⟨htaken, hleft, seats, hseats⟩ := htakes.welcomes hreceives
  obtain ⟨ring', -, hdrain, -⟩ := drain_of_nil htaken.tenanted
    ((htakes.spares hnot).slot.trans hserving) rfl hnil worker
  refine ⟨e₁, _, hroute, Eq.trans ?_ hdrain, hleft, ⟨seats, ?_⟩, fun hall => ?_⟩
  · rw [hqueued, drain, htake, hrole]
  · simp only [serving, hindex] at hseats ⊢
    exact hseats.of_put _
  · obtain ⟨hadmitted, hnone⟩ := Arrival.admitted_of_all_passed hall
    exact ⟨hadmitted, hleft.trans hnone⟩

/-- Two clients, of which there is a place for one, and an interruption between them. -/
def twoCallers : Network :=
  { Network.idle true with
    peers := #[.connected true, .connected true]
    backlog := [.client 0, .fails .interrupted, .client 1] }

/-- What is reported when a client waits. -/
def calling : Event := { Event.blank (.encode 0 0) with readable := true }

/-- The first client gets the place, and the second is dropped. -/
theorem takes_in_admitted_of_twoCallers :
    ∃ table e₀ e slot e₁ e', Table.new unlimited (fun _ => 0) 1 1 = .ok table ∧
      new Workers.smallConfig unlimited table (.idle true) = .ok e₀ ∧
      e = { e₀ with network := twoCallers } ∧ e.Admits calling slot ∧ slot.role = .listener ∧
      e.route calling = (some 0, e₁) ∧
      drain (e.workerOf 0) (e₁.queuedAt 0 + 1) e₁ 0 = some e' ∧ e'.network.backlog = [] ∧
      (∃ seats, e.Welcomes e' [0, 1] seats) ∧ e'.arena.openPlaces = [1] ∧
      (e'.arena.slotAt 1).map ConnectionSlot.socket = some (.stream 0) ∧
      (e'.network.peerAt 1).map Peer.dropped = some true := by
  obtain ⟨table, htable⟩ := Table.new_unlimited (fun _ => 0) 1 1 (by decide) (by decide) (by decide)
  have hrun : ((new Workers.smallConfig unlimited table (.idle true)).toOption.bind fun e₀ =>
      let e := { e₀ with network := twoCallers }
      let e₁ := (e.route calling).2
      (drain (e.workerOf 0) (e₁.queuedAt 0 + 1) e₁ 0).map fun e' =>
        ((e.arena.slotAt 0).map fun slot => (slot.phase, slot.generation, slot.role),
          e'.arena.openPlaces, (e'.arena.slotAt 1).map ConnectionSlot.socket,
          (e'.network.peerAt 1).map Peer.dropped)) =
      some (some (.waiting, 0, .listener), [1], some (.stream 0), some true) := by
    rw [Table.eq_of_new htable]
    decide
  obtain ⟨e₀, hsome, hrun⟩ := Option.bind_eq_some_iff.mp hrun
  obtain ⟨last, hlast, hfound⟩ := Option.map_eq_some_iff.mp hrun
  obtain ⟨hline, hfound⟩ := Prod.mk.inj hfound
  obtain ⟨slot, hslot, hline⟩ := Option.map_eq_some_iff.mp hline
  obtain ⟨hphase, hgeneration, hrole⟩ : slot.phase = .waiting ∧ slot.generation = 0 ∧
      slot.role = .listener := by
    simpa using hline
  have hnew := new_of_toOption hsome
  have hresting := (Resting.opened htable hnew).meanwhile e₀.waiter twoCallers
    (isReady_of_new htable hnew).queue
  have hadmits : Admits { e₀ with network := twoCallers } calling slot :=
    ⟨hslot, by simp [hphase], hgeneration⟩
  obtain ⟨e₁, e', hroute, hdrain, hbacklog, hseats, -⟩ :=
    hresting.takes_in_admitted hadmits hrole (workerOf e₀ 0)
  rw [hroute] at hlast
  obtain rfl := Option.some.inj (hlast.symm.trans hdrain)
  simp only [Prod.mk.injEq] at hfound
  exact ⟨table, e₀, _, slot, e₁, _, htable, hnew, rfl, hadmits, hrole, hroute, hdrain, hbacklog,
    hseats, hfound⟩

/-- A client has given up before it was taken in, between two who have not. -/
def oneAborted : Network :=
  { Network.idle true with
    peers := #[.connected true, .connected true]
    backlog := [.client 0, .fails (.os 103), .client 1]
    watched := [(.encode 0 0, .listener)]
    ready := [calling] }

/-- There is a place for each of two clients. -/
def roomyConfig : Config := { Workers.smallConfig with maxConnections := 3 }

/-- The worker is told of all three, and has nothing more to do when it has taken in the first one.
There is a place for the other client, which is neither taken in nor dropped. -/
theorem settle_of_oneAborted :
    ∃ table e₀ e e', Table.new unlimited (fun _ => 0) 1 1 = .ok table ∧
      new roomyConfig unlimited table (.idle true) = .ok e₀ ∧
      e = { e₀ with network := oneAborted } ∧ e.settle = some e' ∧
      e'.network.backlog = [.client 1] ∧ e'.network.ready = [] ∧
      e'.waiter.queue.isEmpty = true ∧ e'.arena.openPlaces = [1] ∧ e'.arena.free = [2] ∧
      (e'.arena.slotAt 1).map ConnectionSlot.socket = some (.stream 0) ∧
      (e'.network.peerAt 1).map Peer.dropped = some false := by
  obtain ⟨table, htable⟩ := Table.new_unlimited (fun _ => 0) 1 1 (by decide) (by decide) (by decide)
  have hrun : ((new roomyConfig unlimited table (.idle true)).toOption.bind fun e₀ =>
      (settle { e₀ with network := oneAborted }).map fun e' =>
        decide (e'.network.backlog = [.client 1] ∧ e'.network.ready = [] ∧
          e'.waiter.queue.isEmpty = true ∧ e'.arena.openPlaces = [1] ∧ e'.arena.free = [2] ∧
          (e'.arena.slotAt 1).map ConnectionSlot.socket = some (.stream 0) ∧
          (e'.network.peerAt 1).map Peer.dropped = some false)) = some true := by
    rw [Table.eq_of_new htable]
    decide
  obtain ⟨e₀, hsome, hrun⟩ := Option.bind_eq_some_iff.mp hrun
  obtain ⟨e', hsettle, hfound⟩ := Option.map_eq_some_iff.mp hrun
  exact ⟨table, e₀, _, e', htable, new_of_toOption hsome, rfl, hsettle, of_decide_eq_true hfound⟩

end Engine

end Server

end KeyValueServer
