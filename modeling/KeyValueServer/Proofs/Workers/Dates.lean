import KeyValueServer.Proofs.Workers.Shift

/-!
# Events in time

Every event names its place and a generation that the place has had. An event of an earlier
generation is stale and stays so, since a place is given back fewer than 2³² times. An event of the
present one is of the client that is in the place, and if it says that the connection is over then
the client has ended what it sends.
-/

namespace KeyValueServer.Server

/-- A client who has ended what it sends is in the place. -/
def Engine.HasEnded (e : Engine) (slot : ConnectionSlot) : Prop :=
  ∃ stream peer, slot.socket = .stream stream ∧ e.network.peerAt stream = some peer ∧
    peer.source.ended = true

/-- The place is in use for a connection that is watched. -/
structure Shift.Connects (s : Shift) (event : Event) (slot : ConnectionSlot) : Prop where
  found : s.engine.arena.slotAt event.token.index = some slot
  prepared : s.stage.prepared? ≠ some event.token.index
  opened : slot.socket ≠ .closed
  ended : event.isHangup = true → s.engine.HasEnded slot

/-- The event is stale, or it is of the connection that is in the place. -/
structure Shift.Dates (s : Shift) (event : Event) : Prop where
  readable : event.readable = true
  past : event.token.generation.toNat ≤ s.returns event.token.index
  present : event.token.generation.toNat = s.returns event.token.index →
    s.stage.retired? ≠ some event.token.index → ∃ slot, s.Connects event slot

/-- The generation of a place is how often it was given back, and all events are in time. -/
structure Shift.Dated (s : Shift) : Prop where
  counted : ∀ index slot, s.engine.arena.slotAt index = some slot →
    slot.generation.toNat = s.returns index
  dates : ∀ event, s.workers.Has event → s.Dates event

namespace Shift

variable {s s' : Shift} {event : Event} {index : Nat}

/-! ## Reported events -/

/-- What is reported about a socket that is watched is in time. -/
theorem dates_of_watched (hs : s.workers.Steady)
    (hcounted : ∀ index slot, s.engine.arena.slotAt index = some slot →
      slot.generation.toNat = s.returns index) {socket : Socket}
    (hwatched : (event.token, socket) ∈ s.engine.network.watched)
    (hreadable : event.readable = true)
    (hended : event.isHangup = true → ∃ stream peer, socket = .stream stream ∧
      s.engine.network.peerAt stream = some peer ∧ peer.source.ended = true) : s.Dates event := by
  obtain ⟨hopen, slot, hslot, hgeneration, rfl⟩ := hs.attentive.watched _ _ hwatched
  have hpresent := hcounted _ slot hslot
  rw [hgeneration] at hpresent
  refine ⟨hreadable, hpresent.le, fun _ _ => ⟨slot, hslot, fun hprepared => ?_, hopen, hended⟩⟩
  exact absurd rfl (hs.attentive.unwatched 0 _ _ _ hprepared hwatched)

theorem Dates.merge {e f : Event} (htoken : e.token = f.token) (he : s.Dates e) (hf : s.Dates f) :
    s.Dates (Network.merge e f) := by
  refine ⟨by simp [Network.merge, he.readable], he.past, fun hpresent hretire => ?_⟩
  obtain ⟨slot, hconnects⟩ := he.present hpresent hretire
  refine ⟨slot, hconnects.found, hconnects.prepared, hconnects.opened, fun hhangup => ?_⟩
  have hor : e.isHangup = true ∨ f.isHangup = true := by
    simp only [Event.isHangup, Network.merge, Bool.or_eq_true] at hhangup ⊢
    tauto
  rcases hor with hhangup | hhangup
  · exact hconnects.ended hhangup
  · have htoken' : (Network.merge e f).token = f.token := htoken
    rw [htoken'] at hpresent hretire
    obtain ⟨other, hconnects'⟩ := hf.present hpresent hretire
    have hfound := hconnects.found
    rw [htoken] at hfound
    obtain rfl := Option.some.inj (hfound.symm.trans hconnects'.found)
    exact hconnects'.ended hhangup

/-! ## Steps of the worker -/

theorem dates_moved (hs : s.workers.Steady) (h : s.workers.Moved 0 s'.workers)
    (hreturns : s'.returns = s.returned) (hd : s.Dates event) : s'.Dates event := by
  obtain ⟨stage, heffect, hstages⟩ := h
  have hstage : s'.stage = stage := by rw [Shift.stage, hstages, turn_self]
  refine ⟨hd.readable, ?_, fun hpresent hretire => ?_⟩
  · rw [hreturns, returned, Workers.returned]
    have hpast := hd.past
    split <;> omega
  · rw [hreturns, returned, Workers.returned] at hpresent
    split at hpresent
    next =>
      have hpast := hd.past
      omega
    next hunretired =>
      obtain ⟨slot, hslot, hprepared, hopen, hended⟩ := hd.present hpresent hunretired
      have hclosed {i : Nat} {stream : StreamId}
          (hinstalling : s.stage = .installing i event.token.index stream) : False :=
        hopen (hs.tenanted.socket_of_installing hinstalling hslot)
      have hequip : s.stage.equipped? ≠ some event.token.index := by
        intro hequip
        rcases WorkerStage.eq_of_equipped hequip with ⟨i, stream, hinstalling⟩ | ⟨next, hclosing⟩
        · exact hclosed hinstalling
        · have hbefore : s.workers.stages 0 = .closing event.token.index next := hclosing
          rw [hbefore] at heffect
          rw [hstage, heffect.after_closing] at hretire
          exact hretire rfl
      have hsocket := heffect.socket hequip
      rw [show s.workers.engine.arena.slotAt _ = some slot from hslot, Option.map_some] at hsocket
      obtain ⟨slot', hslot', hsame⟩ := Option.map_eq_some_iff.mp hsocket
      refine ⟨slot', hslot', fun hprepared' => ?_, hsame ▸ hopen, fun hhangup => ?_⟩
      · rw [hstage] at hprepared'
        rcases heffect.prepared hprepared' with hbefore | ⟨i, stream, hinstalling⟩
        · exact hprepared hbefore
        · exact hclosed hinstalling
      · obtain ⟨stream, peer, hstream, hpeer, hpeerEnded⟩ := hended hhangup
        obtain ⟨peer', hpeer', hended'⟩ := heffect.exists_peer hpeer
        exact ⟨stream, peer', hsame.trans hstream, hpeer', hended'.trans hpeerEnded⟩

theorem counted_moved (h : s.workers.Moved 0 s'.workers)
    (hreturns : s'.returns = s.returned) (hbound : ∀ index, s'.returns index < UInt32.size)
    (hd : s.Dated) {slot' : ConnectionSlot} (hslot' : s'.engine.arena.slotAt index = some slot') :
    slot'.generation.toNat = s'.returns index := by
  rw [hreturns] at hbound ⊢
  exact h.toNat_generation (fun slot => hd.counted index slot) (hbound index) hslot'

theorem Dated.moved (hd : s.Dated) (hs : s.workers.Steady) (h : s.workers.Moved 0 s'.workers)
    (hreturns : s'.returns = s.returned) (hbound : ∀ index, s'.returns index < UInt32.size) :
    s'.Dated where
  counted _ _ hslot' := counted_moved h hreturns hbound hd hslot'
  dates := by
    refine h.forall_has hs.tenanted.sound hs.attentive.queue (fun e f => Dates.merge) ?_
      fun event hhas => dates_moved hs h hreturns (hd.dates event hhas)
    intro index place token slot event hstage hslot hwatch hevent
    obtain ⟨rfl, hreadable, hended⟩ := Network.mem_pending hevent
    have hnetwork := Network.watch_eq_ok hwatch
    have hwatched : (event.token, slot.socket) ∈ s'.engine.network.watched := by
      rw [Shift.engine, hnetwork]
      exact List.mem_append_right _ (List.mem_singleton_self _)
    refine dates_of_watched (hs.moved h)
      (fun _ _ hslot' => counted_moved h hreturns hbound hd hslot') hwatched hreadable
      fun hhangup => ?_
    obtain ⟨stream, peer, hsocket, hpeer, hpeerEnded⟩ := hended hhangup
    refine ⟨stream, peer, hsocket, ?_, hpeerEnded⟩
    rw [Shift.engine, hnetwork]
    exact hpeer

/-! ## What clients do -/

theorem Dated.occur (hd : s.Dated) (hs : s.workers.Steady) (o : Occurrence)
    (hworkers : s'.workers = s.workers.happen o.change) (hreturns : s'.returns = s.returns) :
    s'.Dated := by
  have hcounted : ∀ index slot, s'.engine.arena.slotAt index = some slot →
      slot.generation.toNat = s'.returns index := by
    rw [Shift.engine, hworkers, hreturns]
    exact hd.counted
  have hended {slot : ConnectionSlot} (hended : s.engine.HasEnded slot) :
      s'.engine.HasEnded slot := by
    obtain ⟨stream, peer, hstream, hpeer, hpeerEnded⟩ := hended
    rw [Shift.engine, hworkers]
    rcases o.peers (R := fun p p' => p.source.ended = true → p'.source.ended = true) (fun _ => id)
      (fun _ _ => id) (fun _ _ => rfl) s.engine.network stream with hrel | ⟨hnone, -⟩
    · rw [hpeer] at hrel
      obtain ⟨peer', hpeer', hkept⟩ := exists_of_some_rel hrel
      exact ⟨stream, peer', hstream, hpeer', hkept hpeerEnded⟩
    · rw [hpeer] at hnone
      contradiction
  have hkept {event : Event} (hdates : s.Dates event) : s'.Dates event := by
    refine ⟨hdates.readable, hreturns ▸ hdates.past, ?_⟩
    have hpresent := hdates.present
    rw [Shift.stage, hworkers, hreturns]
    intro hgeneration hretire
    obtain ⟨slot, hfound, hprepared, hopen, hhangup⟩ := hpresent hgeneration hretire
    refine ⟨slot, ?_, ?_, hopen, fun h => hended (hhangup h)⟩
    · rw [Shift.engine, hworkers]
      exact hfound
    · rw [Shift.stage, hworkers]
      exact hprepared
  refine ⟨hcounted, fun event hhas => ?_⟩
  rw [hworkers] at hhas
  cases hhas with
  | ready hready =>
      refine o.forall_ready (P := s'.Dates) (n := s.engine.network) (fun e f => Dates.merge)
        (fun event hold => hkept (hd.dates event (.ready hold))) ?_ event hready
      intro event socket hwatched hreadable hhangup
      have hwatched' : (event.token, socket) ∈ s'.engine.network.watched := by
        rw [Shift.engine, hworkers]
        exact (o.delivers_change s.engine.network).watched ▸ hwatched
      refine dates_of_watched (hworkers ▸ hs.occur o) hcounted hwatched' hreadable ?_
      rw [Shift.engine, hworkers]
      exact hhangup
  | queued hqueued => exact hkept (hd.dates event (.queued hqueued))
  | carried w hcarries => exact hkept (hd.dates event (.carried w hcarries))
  | placed index slot hslot hevent => exact hkept (hd.dates event (.placed index slot hslot hevent))
  | taken w index htaken => exact hkept (hd.dates event (.taken w index htaken))

end Shift

end KeyValueServer.Server
