import KeyValueServer.Proofs.Connection.Lending
import KeyValueServer.Proofs.Connection.Reports
import KeyValueServer.Proofs.Connection.Tokens
import KeyValueServer.Proofs.Workers.Ownership

/-!
# Room for clients

An engine has room for a client exactly as long as the places of its pool, that of the listener
aside, outnumber its open clients. A place that a client leaves goes to a later one, whether the
client has hung up or could not be watched in the first place. With several workers a client counts
from the moment at which it is promised a place until the place is back in the line.
-/

namespace KeyValueServer

/-! ## Open places -/

namespace Arena

/-- Whether a place is in use. -/
def isOpenAt (a : Arena) (index : Nat) : Bool := (a.slotAt index).any fun slot => slot.phase ≠ .free

/-- The places of the open clients. -/
def openPlaces (a : Arena) : List Nat := (List.range' 1 (a.capacity - 1)).filter a.isOpenAt

variable {a a' : Arena} {index other : Nat} {slot next : ConnectionSlot}

theorem isOpenAt_iff :
    a.isOpenAt index = true ↔ ∃ slot, a.slotAt index = some slot ∧ slot.phase ≠ .free := by
  simp [isOpenAt, Option.any_eq_true]

theorem mem_openPlaces :
    index ∈ a.openPlaces ↔
      index ≠ listenerIndex ∧ ∃ slot, a.slotAt index = some slot ∧ slot.phase ≠ .free := by
  rw [openPlaces, List.mem_filter, List.mem_range'_1, isOpenAt_iff, listenerIndex]
  refine and_congr_left ?_
  rintro ⟨slot, hslot, -⟩
  have hlt := slotAt_lt hslot
  omega

theorem nodup_openPlaces (a : Arena) : a.openPlaces.Nodup := (List.nodup_range' 1).filter _

/-- Changing a place changes nothing about the others. -/
theorem mem_openPlaces_put (hslot : a.slotAt index = some slot) (hindex : index ≠ listenerIndex) :
    other ∈ (a.put index next).openPlaces ↔
      if other = index then next.phase ≠ .free else other ∈ a.openPlaces := by
  rw [mem_openPlaces]
  split_ifs with hother
  · subst hother
    simp [slotAt_put_self hslot, hindex]
  · rw [slotAt_put_of_ne a hother, mem_openPlaces]

/-- A place that is taken into use. -/
theorem openPlaces_put_of_used (hslot : a.slotAt index = some slot) (hindex : index ≠ listenerIndex)
    (hunused : index ∉ a.openPlaces) (hnext : next.phase ≠ .free) :
    (a.put index next).openPlaces.Perm (index :: a.openPlaces) := by
  refine (List.perm_ext_iff_of_nodup (nodup_openPlaces _)
    (List.nodup_cons.mpr ⟨hunused, nodup_openPlaces a⟩)).mpr fun other => ?_
  rw [mem_openPlaces_put hslot hindex, List.mem_cons]
  split_ifs with hother
  · simp [hother, hnext]
  · simp [hother]

/-- A place that is out of use afterwards. -/
theorem openPlaces_put_of_free (hslot : a.slotAt index = some slot) (hindex : index ≠ listenerIndex)
    (hnext : next.phase = .free) :
    (a.put index next).openPlaces.Perm (a.openPlaces.erase index) := by
  refine (List.perm_ext_iff_of_nodup (nodup_openPlaces _)
    ((nodup_openPlaces a).erase index)).mpr fun other => ?_
  rw [mem_openPlaces_put hslot hindex, (nodup_openPlaces a).mem_erase_iff]
  split_ifs with hother
  · simp [hother, hnext]
  · simp [hother]

/-- A place that stays out of use. -/
theorem openPlaces_put_of_unused (hslot : a.slotAt index = some slot)
    (hindex : index ≠ listenerIndex) (hunused : index ∉ a.openPlaces) (hnext : next.phase = .free) :
    (a.put index next).openPlaces.Perm a.openPlaces := by
  have hplaces := openPlaces_put_of_free hslot hindex hnext
  rwa [List.erase_of_not_mem hunused] at hplaces

theorem ServedAt.capacity (h : a.ServedAt index a') : a'.capacity = a.capacity := by
  have hiff (other : Nat) : other < a'.capacity ↔ other < a.capacity := by
    have husage := congrArg Option.isSome (h.usage_at other)
    rw [Option.isSome_map, Option.isSome_map] at husage
    rw [lt_capacity_iff, lt_capacity_iff, husage]
  have hle := hiff a.capacity
  have hge := hiff a'.capacity
  omega

theorem ServedAt.openPlaces (h : a.ServedAt index a') : a'.openPlaces = a.openPlaces := by
  rw [Arena.openPlaces, h.capacity]
  refine List.filter_congr fun other _ => ?_
  have husage := congrArg (Option.any Prod.snd) (h.usage_at other)
  simpa [Option.any_map, ConnectionSlot.usage, isOpenAt, Function.comp_def] using husage

theorem ringCapacity_of_ringAt {ring : EventRing} (h : a.ringAt index = .ok (ring, a')) :
    a'.ringCapacity = a.ringCapacity := by
  obtain ⟨-, -, -, rfl⟩ := exists_ring?_of_ringAt h
  rfl

theorem ringCapacity_of_push {event : Event} {fits : Bool}
    (h : a.push index event = .ok (fits, a')) : a'.ringCapacity = a.ringCapacity := by
  obtain ⟨_, _, hring, hmade⟩ := exists_ringAt_of_push h
  rw [← ringCapacity_of_ringAt hring]
  obtain rfl | ⟨_, -, rfl⟩ := hmade <;> rfl

theorem ringCapacity_of_pop {event? : Option Event} (h : a.pop index = .ok (event?, a')) :
    a'.ringCapacity = a.ringCapacity := by
  obtain ⟨_, _, hring, hmade⟩ := exists_ringAt_of_pop h
  rw [← ringCapacity_of_ringAt hring]
  obtain rfl | ⟨-, _, -, rfl⟩ := hmade <;> rfl

end Arena

namespace Server

variable {e e' : Engine} {index : Nat} {slot : ConnectionSlot} {stream : StreamId}

namespace Engine

/-! ## Taking a client in and letting it go -/

theorem close_eq (hslot : e.arena.slotAt index = some slot) (hindex : index ≠ Arena.listenerIndex) :
    e.close index = { e with
      network := e.network.close slot.socket
      arena := { e.arena.put index { slot.retired with socket := .closed } with
        free := e.arena.free ++ [index] } } := by
  simp only [close, closeSocket, retire, recycle, socketAt_of_slotAt hslot, Arena.setSocket,
    Arena.modify_eq_put hslot, Arena.retire_eq_put (Arena.slotAt_put_self hslot _), Arena.put_put,
    Arena.recycle, if_neg hindex]
  rfl

/-- How a client gets the place at the head of the line. -/
inductive Seats (e : Engine) (stream : StreamId) (index : Nat) (free : List Nat)
    (slot : ConnectionSlot) (ring : EventRing) : Engine → Prop
  -- it is watched there
  | watched {network : Network}
      (hwatch : e.network.watch (ConnectionToken.encode index slot.generation) (.stream stream) =
        .ok network) :
      Seats e stream index free slot ring { e with
        network
        arena := { e.arena.put index
          ⟨slot.generation, .waiting, .message, some ring, .stream stream⟩ with free } }
  -- or it is dropped, and the place goes back to the line
  | withdrawn {fault : IoFault}
      (hwatch : e.network.watch (ConnectionToken.encode index slot.generation) (.stream stream) =
        .error fault) :
      Seats e stream index free slot ring { e with
        network := e.network.close (.stream stream)
        arena := { e.arena.put index
          ⟨slot.generation + 1, .free, .message, some ring.reset, .closed⟩ with
          free := free ++ [index] } }

theorem attach_of_nil (hfree : e.arena.free = []) (stream : StreamId) :
    e.attach stream = { e with network := e.network.drop stream } := by
  simp [attach, reserve, Arena.allocate, hfree]

theorem attach_of_cons {free : List Nat} (hfree : e.arena.free = index :: free)
    (hindex : index ≠ Arena.listenerIndex) (hslot : e.arena.slotAt index = some slot)
    (hrings : 2 ≤ e.arena.ringCapacity) (stream : StreamId) :
    ∃ ring, slot.ring? e.arena.ringCapacity = some ring ∧
      e.Seats stream index free slot ring (e.attach stream) := by
  have hslot' : Arena.slotAt { e.arena with free } index = some slot := hslot
  obtain ⟨ring, hring, hactivate⟩ := Arena.activate_eq_ok
    (a := Arena.put { e.arena with free } index { slot with socket := .stream stream }) hrings
    (Arena.slotAt_put_self hslot' _) .message
  rw [Arena.put_put] at hactivate
  refine ⟨ring, hring, ?_⟩
  generalize hnext : (⟨slot.generation, .waiting, .message, some ring, .stream stream⟩ :
    ConnectionSlot) = next at hactivate
  generalize hseated : ({ e with arena := Arena.put { e.arena with free } index next } : Engine) =
    seated
  have hseat : seated.arena.slotAt index = some next :=
    hseated ▸ Arena.slotAt_put_self hslot' next
  have hattach : e.attach stream =
      (seated.register index (ConnectionToken.encode index slot.generation)).getD
        (seated.close index) := by
    simp only [attach, reserve, Arena.allocate, hfree, place, Arena.setSocket,
      Arena.modify_eq_put hslot', activate, hactivate, hseated]
  rw [hattach, register_of_slotAt hseat (by simp [← hnext]), close_eq hseat hindex]
  subst hnext hseated
  dsimp only
  cases hwatch : e.network.watch (ConnectionToken.encode index slot.generation)
      (.stream stream) with
  | ok network => exact .watched hwatch
  | error fault =>
      rw [Arena.put_put]
      exact .withdrawn hwatch

/-! ## Serving places -/

theorem ringCapacity_route (e : Engine) (event : Event) :
    (e.route event).2.arena.ringCapacity = e.arena.ringCapacity := by
  unfold route
  split
  · rfl
  · split
    · rfl
    · split
      · rfl
      · split
        · rfl
        next hpush => exact Arena.ringCapacity_of_push hpush
        next arena hpush =>
          have hsame : arena.ringCapacity = e.arena.ringCapacity := Arena.ringCapacity_of_push hpush
          split <;> exact hsame

theorem ringCapacity_takeEvent (e : Engine) (index : Nat) :
    (e.takeEvent index).2.arena.ringCapacity = e.arena.ringCapacity := by
  unfold takeEvent
  split
  · rfl
  · split
    · rfl
    · split
      · rfl
      next event arena hpop => exact Arena.ringCapacity_of_pop hpop
      next arena hpop =>
        have hsame : arena.ringCapacity = e.arena.ringCapacity := Arena.ringCapacity_of_pop hpop
        exact hsame

end Engine

/-! ## Clients that come and go -/

/-- What can happen to an engine next. -/
inductive Turnover where
  -- a client is taken in, or a connection closed
  | attach (stream : StreamId)
  | close (index : Nat)
  -- an event is queued at its connection, or taken from there
  | route (event : Event)
  | take (index : Nat)
  -- whatever is done outside the pool
  | elsewhere (engine : Engine)

namespace Engine

/-- Only an open connection is closed. -/
def permits (e : Engine) : Turnover → Bool
  | .close index => index ∈ e.arena.openPlaces
  | _ => true

def perform (e : Engine) : Turnover → Engine
  | .attach stream => e.attach stream
  | .close index => e.close index
  | .route event => (e.route event).2
  | .take index => (e.takeEvent index).2
  | .elsewhere engine =>
      let arena := e.arena
      { engine with arena }

/-- What comes about from an engine. -/
inductive Hosting (e₀ : Engine) : Engine → Prop
  | opened : Hosting e₀ e₀
  | turn {e : Engine} (he : Hosting e₀ e) (t : Turnover) (hpermits : e.permits t = true) :
      Hosting e₀ (e.perform t)

/-- Whether one thing can happen after the other. -/
def allows (e : Engine) : List Turnover → Bool
  | [] => true
  | t :: rest => e.permits t && (e.perform t).allows rest

theorem Hosting.run {e₀ : Engine} (he : Hosting e₀ e) (turns : List Turnover)
    (h : e.allows turns = true) : Hosting e₀ (turns.foldl perform e) := by
  induction turns generalizing e with
  | nil => exact he
  | cons t rest ih =>
      simp only [allows, Bool.and_eq_true] at h
      exact ih (he.turn t h.1) h.2

/-- The places that are handed out are those of the open clients. -/
def IsBooked (e : Engine) (c : Config) : Prop :=
  PoolLedger.Booked c.maxConnections.toNat c.connectionQueueCapacity.toNat
    ⟨e.arena, e.arena.openPlaces⟩

variable {c : Config}

theorem isBooked_of_new {memory : Allocator} {table : Table} {network : Network}
    (h : new c memory table network = .ok e) : e.IsBooked c := by
  obtain ⟨⟨ring, -, -, harena⟩, hcapacity, -⟩ := new_eq_ok h
  have hnone : e.arena.openPlaces = [] := by
    refine List.eq_nil_iff_forall_not_mem.mpr fun index hmem => ?_
    obtain ⟨hindex, slot, hslot, hused⟩ := Arena.mem_openPlaces.mp hmem
    rw [harena, Arena.slotAt_put_of_ne _ hindex, Arena.slotAt_new] at hslot
    split_ifs at hslot
    obtain rfl := Option.some.inj hslot
    exact hused rfl
  rw [IsBooked, hnone, harena]
  have hnew := Arena.lends_new hcapacity c.connectionQueueCapacity.toNat
  have hsize := Arena.capacity_put (Arena.new c.maxConnections.toNat
    c.connectionQueueCapacity.toNat) Arena.listenerIndex
    ⟨0, .waiting, .listener, some ring, .listener⟩
  exact ⟨hnew.congr rfl hsize, hsize.trans Array.size_replicate, rfl⟩

theorem IsBooked.served (he : e.IsBooked c) (hserved : e.arena.ServedAt index e'.arena)
    (hrings : e'.arena.ringCapacity = e.arena.ringCapacity) : e'.IsBooked c := by
  have hlends : e'.arena.Lends e.arena.openPlaces := he.lends.congr hserved.free hserved.capacity
  exact ⟨hserved.openPlaces ▸ hlends, hserved.capacity.trans he.size, hrings.trans he.rings⟩

/-- The place at the head of the line, which is nobody's. -/
theorem IsBooked.head (he : e.IsBooked c) {free : List Nat} (hfree : e.arena.free = index :: free) :
    index ≠ Arena.listenerIndex ∧ index ∉ e.arena.openPlaces ∧
      ∃ slot, e.arena.slotAt index = some slot := by
  have hmem : index ∈ e.arena.free := by simp [hfree]
  obtain ⟨hindex, hlt⟩ := he.lends.mem_iff.mp (.inl hmem)
  exact ⟨hindex, he.lends.not_mem_lent hmem, Arena.exists_slotAt hlt⟩

/-- One place may have changed, and who has it. -/
theorem IsBooked.put (he : e.IsBooked c) {next : ConnectionSlot} {lent : List Nat}
    (harena : e'.arena = { e.arena.put index next with free := e'.arena.free })
    (hlends : e'.arena.capacity = e.arena.capacity → e'.arena.Lends lent)
    (hplaces : (e.arena.put index next).openPlaces.Perm lent) : e'.IsBooked c := by
  have hsize : e'.arena.capacity = e.arena.capacity := by
    rw [harena]
    exact Arena.capacity_put e.arena index next
  have hopen : e'.arena.openPlaces = (e.arena.put index next).openPlaces := by
    rw [harena]
    rfl
  have hrings : e'.arena.ringCapacity = e.arena.ringCapacity := by
    rw [harena]
    rfl
  exact ⟨(hlends hsize).perm (hopen ▸ hplaces.symm), hsize.trans he.size, hrings.trans he.rings⟩

theorem IsBooked.attach (he : e.IsBooked c) (hrings : 2 ≤ e.arena.ringCapacity)
    (stream : StreamId) : (e.attach stream).IsBooked c := by
  cases hfree : e.arena.free with
  | nil =>
      rw [attach_of_nil hfree]
      exact he
  | cons index free =>
      obtain ⟨hindex, hunused, slot, hslot⟩ := he.head hfree
      obtain ⟨ring, -, hseats⟩ := attach_of_cons hfree hindex hslot hrings stream
      generalize e.attach stream = e' at hseats
      cases hseats with
      | watched hwatch =>
          exact he.put rfl (he.lends.lend hfree rfl)
            (Arena.openPlaces_put_of_used hslot hindex hunused (by simp))
      | withdrawn hwatch =>
          have hlent : Arena.Lends { e.arena with free } (index :: e.arena.openPlaces) :=
            he.lends.lend hfree rfl rfl
          refine he.put rfl (fun hsize => ?_)
            (Arena.openPlaces_put_of_unused hslot hindex hunused rfl)
          have hback := hlent.takeBack List.mem_cons_self rfl hsize
          rwa [List.erase_cons_head] at hback

theorem IsBooked.close (he : e.IsBooked c) (hopen : index ∈ e.arena.openPlaces) :
    (e.close index).IsBooked c := by
  obtain ⟨hindex, slot, hslot, -⟩ := Arena.mem_openPlaces.mp hopen
  rw [close_eq hslot hindex]
  exact he.put rfl (he.lends.takeBack hopen rfl) (Arena.openPlaces_put_of_free hslot hindex rfl)

theorem IsBooked.perform (he : e.IsBooked c) (hrings : 2 ≤ c.connectionQueueCapacity.toNat)
    (t : Turnover) (hpermits : e.permits t = true) : (e.perform t).IsBooked c := by
  cases t with
  | attach stream => exact he.attach (he.rings ▸ hrings) stream
  | close index => exact he.close (by simpa [permits] using hpermits)
  | route event => exact he.served (servedAt_route e event) (ringCapacity_route e event)
  | take index => exact he.served (servedAt_takeEvent e index) (ringCapacity_takeEvent e index)
  | elsewhere engine => exact he

theorem Hosting.isBooked {memory : Allocator} {table : Table} {network : Network} {e₀ : Engine}
    (h : Hosting e₀ e) (hnew : new c memory table network = .ok e₀) : e.IsBooked c := by
  obtain ⟨-, -, hrings, -⟩ := new_eq_ok hnew
  induction h with
  | opened => exact isBooked_of_new hnew
  | turn _ t hpermits ih => exact ih.perform hrings t hpermits

/-- How an engine that has some number of places for clients deals with one more client. -/
structure Admission (e : Engine) (places : Nat) (stream : StreamId) : Prop where
  /-- The engine knows how many clients are open. -/
  count : e.connections? = some e.arena.openPlaces.length
  /-- There is a place for the client exactly if fewer are open than there are places. -/
  room : (e.reserve stream).1.isSome = true ↔ e.arena.openPlaces.length < places
  /-- If it can be watched it is: in a place that was nobody's, while all others stay open. -/
  attached : e.arena.openPlaces.length < places →
    (∀ peer, e.network.peerAt stream = some peer → peer.pollable = true) →
    ∃ index slot, index ≠ Arena.listenerIndex ∧ index ∉ e.arena.openPlaces ∧
      (e.attach stream).arena.openPlaces.Perm (index :: e.arena.openPlaces) ∧
      (e.attach stream).arena.slotAt index = some slot ∧ slot.phase = .waiting ∧
      slot.role = .message ∧ slot.socket = .stream stream ∧
      (ConnectionToken.encode index slot.generation, .stream stream) ∈
        (e.attach stream).network.watched
  /-- If it can not be watched it is dropped, and the place that it had is free again. -/
  withdrawn : ∀ peer, e.network.peerAt stream = some peer → peer.pollable = false →
    (e.attach stream).arena.openPlaces.Perm e.arena.openPlaces ∧
      (e.attach stream).network.peerAt stream = some { peer with dropped := true }
  /-- If there is no place for it, it is dropped, and that is all. -/
  turnedAway : places ≤ e.arena.openPlaces.length →
    e.attach stream = { e with network := e.network.drop stream }

theorem IsBooked.admission (he : e.IsBooked c) (hrings : 2 ≤ e.arena.ringCapacity)
    (stream : StreamId) : e.Admission (c.maxConnections.toNat - 1) stream := by
  have hlength := he.lends.length_eq
  rw [he.size] at hlength
  dsimp only at hlength
  constructor
  case count => exact he.lends.inUse?_eq
  case room =>
    have hnone := he.lends.allocate_eq_none_iff
    rw [he.size] at hnone
    unfold reserve
    split
    next hallocate => simpa using hnone.mp hallocate
    next index arena hallocate =>
      rw [hallocate] at hnone
      exact iff_of_true rfl (Nat.not_le.mp fun hfull => absurd (hnone.mpr hfull) (by simp))
  case attached =>
    intro hroom hpollable
    cases hfree : e.arena.free with
    | nil =>
        rw [hfree, List.length_nil] at hlength
        omega
    | cons index free =>
        obtain ⟨hindex, hunused, slot, hslot⟩ := he.head hfree
        obtain ⟨ring, -, hseats⟩ := attach_of_cons hfree hindex hslot hrings stream
        generalize e.attach stream = e' at hseats
        cases hseats with
        | watched hwatch =>
            refine ⟨index, _, hindex, hunused,
              Arena.openPlaces_put_of_used hslot hindex hunused (by simp),
              Arena.slotAt_put_self hslot _, rfl, rfl, rfl, ?_⟩
            rw [Network.watch_eq_ok hwatch]
            simp
        | withdrawn hwatch =>
            obtain ⟨id, peer, hsocket, hpeer, hrefused⟩ := Network.watch_eq_error hwatch
            obtain rfl := Socket.stream.inj hsocket
            simp [hpollable peer hpeer] at hrefused
  case withdrawn =>
    intro peer hpeer hrefused
    cases hfree : e.arena.free with
    | nil =>
        rw [attach_of_nil hfree]
        exact ⟨.refl _, by rw [Network.peerAt_drop, if_pos rfl, hpeer, Option.map_some]⟩
    | cons index free =>
        obtain ⟨hindex, hunused, slot, hslot⟩ := he.head hfree
        obtain ⟨ring, -, hseats⟩ := attach_of_cons hfree hindex hslot hrings stream
        generalize e.attach stream = e' at hseats
        cases hseats with
        | watched hwatch => simp [Network.watch, hpeer, hrefused] at hwatch
        | withdrawn hwatch =>
            exact ⟨Arena.openPlaces_put_of_unused hslot hindex hunused rfl,
              by rw [Network.peerAt_close, if_pos rfl, hpeer, Option.map_some]⟩
  case turnedAway =>
    intro hfull
    refine attach_of_nil (List.length_eq_zero_iff.mp ?_) stream
    omega

end Engine

/-! ## Clients that several workers take in -/

namespace Tenanted

variable {a : Arena} {stages : Nat → WorkerStage}

theorem lends (hs : Tenanted a stages) (hnonempty : 1 ≤ a.capacity) : a.Lends a.takenPlaces := by
  refine Arena.lends_takenPlaces hnonempty hs.once fun index hmem => ?_
  obtain ⟨-, slot, hslot, hfits⟩ := hs.of_mem_free hmem
  exact ⟨hfits.suits.1, Arena.slotAt_lt hslot⟩

/-- A place that is not in the line is in use, or some worker has it. -/
theorem mem_takenPlaces (hs : Tenanted a stages) :
    index ∈ a.takenPlaces ↔ index ≠ Arena.listenerIndex ∧
      ((∃ slot, a.slotAt index = some slot ∧ slot.phase ≠ .free) ∨
        ∃ worker tenure, (index, tenure) ∈ (stages worker).holds) := by
  rw [Arena.mem_takenPlaces]
  refine and_congr_right fun _ => ⟨fun ⟨hlt, hfree⟩ => ?_, fun htaken => ?_⟩
  · obtain ⟨slot, hslot⟩ := Arena.exists_slotAt hlt
    obtain ⟨keeper, hkeeps, hfits⟩ := hs.of_slotAt hslot
    cases keeper with
    | line => exact absurd (hkeeps.line.mpr rfl) hfree
    | nobody => exact .inl ⟨slot, hslot, by simp [hfits.phase, Keeper.phase]⟩
    | worker w tenure => exact .inr ⟨w, tenure, (hkeeps.worker w tenure).mpr rfl⟩
  · obtain ⟨slot, hslot, hused⟩ | ⟨worker, tenure, hheld⟩ := htaken
    · refine ⟨Arena.slotAt_lt hslot, fun hfree => ?_⟩
      obtain ⟨-, found, hfound, hfits⟩ := hs.of_mem_free hfree
      obtain rfl := Option.some.inj (hslot.symm.trans hfound)
      exact hused hfits.phase
    · obtain ⟨hkeeps, slot, hslot, -⟩ := hs.of_mem_holds hheld
      exact ⟨Arena.slotAt_lt hslot, fun hfree => by simpa using hkeeps.line.mp hfree⟩

end Tenanted

namespace Workers

/-- These are the places of the clients, each of them once, with those at which a worker takes a
client in or lets it go. -/
structure Houses (s : Workers) (places : List Nat) : Prop where
  once : places.Nodup
  mem_iff : ∀ index, index ∈ places ↔ index ≠ Arena.listenerIndex ∧
    ((∃ slot, s.engine.arena.slotAt index = some slot ∧ slot.phase ≠ .free) ∨
      ∃ worker tenure, (index, tenure) ∈ (s.stages worker).holds)

/-- How workers deal with one more client where some number of places is all there is. -/
structure Reception (s : Workers) (taken : List Nat) (places : Nat) : Prop where
  /-- The engine knows how many places are taken. -/
  count : s.engine.connections? = some taken.length
  /-- Where fewer are taken than there are, a worker gives the client another one. -/
  seated : ∀ {worker index stream} answer, s.stages worker = .reserving index stream →
    taken.length < places → ∃ place arena, place ≠ Arena.listenerIndex ∧ place ∉ taken ∧
      s.step worker answer =
        some (s.advance worker { s.engine with arena } (.installing index place stream))
  /-- Where all are taken, it drops the client. -/
  turnedAway : ∀ {worker index stream} answer, s.stages worker = .reserving index stream →
    places ≤ taken.length → s.step worker answer = some (s.advance worker
      { s.engine with network := s.engine.network.drop stream } (.accepting index))

variable {c : Config} {memory : Allocator} {table : Table} {network : Network} {engine : Engine}
  {mayBecome : Network → Network → Prop} {s : Workers}

theorem Reachable.capacity (hnew : Engine.new c memory table network = .ok engine)
    (h : Reachable engine mayBecome Timely s) :
    s.engine.arena.capacity = engine.arena.capacity := by
  induction h with
  | beginning => rfl
  | work hs hstep _ ih =>
      obtain ⟨stage, heffect, -⟩ := (hs.tenanted hnew).moved_of_step hstep
      exact heffect.capacity.trans ih
  | happen _ _ _ ih => exact ih

theorem Reachable.exists_houses (hnew : Engine.new c memory table network = .ok engine)
    (h : Reachable engine mayBecome Timely s) :
    ∃ taken, s.Houses taken ∧ s.Reception taken (c.maxConnections.toNat - 1) := by
  have hs := h.tenanted hnew
  have hsize := (h.capacity hnew).trans (Engine.capacity_of_new hnew)
  obtain ⟨-, hplaces, -⟩ := Engine.new_eq_ok hnew
  have hlends := hs.lends (hsize ▸ hplaces)
  have hnone := hlends.allocate_eq_none_iff
  rw [hsize] at hnone
  refine ⟨_, ⟨Arena.nodup_takenPlaces _, fun index => hs.mem_takenPlaces⟩, hlends.inUse?_eq,
    fun {worker index stream} answer hstage hroom => ?_,
    fun {worker index stream} answer hstage hfull => ?_⟩
  · cases hallocate : s.engine.arena.allocate with
    | none => exact absurd (hnone.mp hallocate) (Nat.not_le.mpr hroom)
    | some found =>
        obtain ⟨place, arena⟩ := found
        obtain ⟨hindex, -, hfresh⟩ := hlends.fresh hallocate
        refine ⟨place, arena, hindex, hfresh, ?_⟩
        simp only [step, hstage, Engine.reserve, hallocate]
  · simp only [step, hstage, Engine.reserve, hnone.mpr hfull]

end Workers

namespace Engine

variable {c : Config}

/-- A pool never hands out a place that it has handed out before and not got back, and counts those
that it has handed out. An engine therefore has room for a client exactly if fewer clients are open
than the greatest number of connections less one, whatever clients came and went before, and also
while several workers take clients in and let them go. -/
theorem places_accounted :
    (∀ {capacity ringCapacity : Nat} {l : PoolLedger}, 1 ≤ capacity → 2 ≤ ringCapacity →
      PoolLedger.Reachable capacity ringCapacity l → l.Balances capacity) ∧
    ∀ {c : Config} {memory : Allocator} {table : Table} {network : Network} {e₀ : Engine},
      new c memory table network = .ok e₀ →
        (∀ {e : Engine}, Hosting e₀ e →
          ∀ stream, e.Admission (c.maxConnections.toNat - 1) stream) ∧
        ∀ {mayBecome : Network → Network → Prop} {s : Workers},
          Workers.Reachable e₀ mayBecome Workers.Timely s →
            ∃ taken, s.Houses taken ∧ s.Reception taken (c.maxConnections.toNat - 1) := by
  constructor
  · intro capacity ringCapacity l hcapacity hrings hl
    exact (hl.booked hcapacity).balances hrings
  · intro c memory table network e₀ hnew
    refine ⟨fun he stream => ?_, fun hs => hs.exists_houses hnew⟩
    obtain ⟨-, -, hrings, -⟩ := new_eq_ok hnew
    have hbooked := he.isBooked hnew
    exact hbooked.admission (hbooked.rings ▸ hrings) stream

/-- Both places of a pool are handed out, and one of them again after it came back. -/
def bothTaken : List PoolCall :=
  [.allocate, .install 1 .message (.stream 0), .allocate, .allocate, .release 1, .allocate]

/-- A client that can not be watched, one that is taken in and goes, one for which there is no place
meanwhile, and the same one again. -/
def oneByOne : List Turnover := [.attach 0, .attach 1, .attach 2, .close 1, .attach 2]

/-- Three clients, of which the first can not be watched. -/
def threeClients : Network :=
  { Network.idle true with peers := #[.connected false, .connected true, .connected true] }

/-- Two clients come, and a worker has taken one of them in when it is given the other. -/
def oneAfterOther : List Occurrence :=
  [.connect, .connect] ++ List.replicate 17 (.work 0 (.events 2))

/-- The pool has no place left, and neither has the engine, which has one for clients, nor has the
worker that has just given it away. -/
theorem places_accounted_of_bothTaken :
    (∃ l, l = bothTaken.foldl PoolLedger.perform (PoolLedger.opened 3 4) ∧ l.lent = [1, 2] ∧
      l.arena.allocate = none ∧ l.arena.inUse? = some 2) ∧
    ∃ table, Table.new unlimited (fun _ => 0) 1 1 = .ok table ∧
      (∃ e₀ e, new Workers.smallConfig unlimited table threeClients = .ok e₀ ∧
        e = oneByOne.foldl perform e₀ ∧ e.arena.openPlaces = [1] ∧ e.connections? = some 1 ∧
        e.attach 1 = { e with network := e.network.drop 1 }) ∧
      ∃ e₀ s, new Workers.smallConfig unlimited table (.idle true) = .ok e₀ ∧
        (Workers.beginning e₀).run oneAfterOther = some s ∧ s.engine.connections? = some 1 ∧
        s.step 0 (.events 2) = some (s.advance 0
          { s.engine with network := s.engine.network.drop 1 } (.accepting 0)) := by
  obtain ⟨table, htable⟩ :=
    Table.new_unlimited (fun _ => 0) 1 1 (by decide) (by decide) (by decide)
  refine ⟨?_, table, htable, ?_, ?_⟩
  · have hlent : (bothTaken.foldl PoolLedger.perform (.opened 3 4)).lent = [1, 2] := by decide
    have hreach : PoolLedger.Reachable 3 4 (bothTaken.foldl PoolLedger.perform (.opened 3 4)) :=
      PoolLedger.Reachable.opened.run bothTaken (by decide)
    have hbalances := places_accounted.1 (by decide) (by decide) hreach
    refine ⟨_, rfl, hlent, hbalances.exhausted.mpr fun index hindex hlt => ?_, ?_⟩
    · have hpositive : index ≠ 0 := hindex
      rw [hlent, List.mem_cons, List.mem_singleton]
      omega
    · rw [hbalances.count, hlent]
      rfl
  · have hrun : ((new Workers.smallConfig unlimited table threeClients).toOption.map fun e₀ =>
        (e₀.allows oneByOne, (oneByOne.foldl perform e₀).arena.openPlaces)) =
          some (true, [1]) := by
      rw [Table.eq_of_new htable]
      decide
    obtain ⟨e₀, hsome, hturns⟩ := Option.map_eq_some_iff.mp hrun
    obtain ⟨hallows, hplaces⟩ := Prod.mk.inj hturns
    have hnew := new_of_toOption hsome
    have hadmission := (places_accounted.2 hnew).1 (Hosting.opened.run oneByOne hallows) 1
    refine ⟨e₀, _, hnew, rfl, hplaces, ?_, hadmission.turnedAway ?_⟩
    · rw [hadmission.count, hplaces]
      rfl
    · rw [hplaces]
      decide
  · have hrun : ((new Workers.smallConfig unlimited table (.idle true)).toOption.bind fun e₀ =>
        ((Workers.beginning e₀).run oneAfterOther).map fun s =>
          (s.engine.connections?, s.stages 0)) = some (some 1, .reserving 0 1) := by
      rw [Table.eq_of_new htable]
      rfl
    obtain ⟨e₀, hsome, hrun⟩ := Option.bind_eq_some_iff.mp hrun
    obtain ⟨s, hs, hfound⟩ := Option.map_eq_some_iff.mp hrun
    obtain ⟨hcount, hstage⟩ := Prod.mk.inj hfound
    have hnew := new_of_toOption hsome
    have hreach : Workers.Reachable e₀ (fun _ _ => True) Workers.Timely s :=
      Workers.Reachable.of_run hnew (by decide) rfl rfl (fun _ _ => trivial) hs (by decide)
    obtain ⟨taken, -, hreception⟩ := (places_accounted.2 hnew).2 hreach
    have hone : taken.length = 1 :=
      (Option.some.inj (hcount.symm.trans hreception.count)).symm
    exact ⟨e₀, s, hnew, hs, hcount, hreception.turnedAway (.events 2) hstage hone.ge⟩

end Engine

end Server

end KeyValueServer
