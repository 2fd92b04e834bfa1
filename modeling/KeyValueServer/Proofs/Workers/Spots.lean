import KeyValueServer.Proofs.Workers.Clients
import KeyValueServer.Proofs.Workers.Readiness

/-!
# Where clients are

A client waits to be accepted, is being given a place by a worker, or has a place, and it is in one
spot only. A client that has a place is watched, from the step of the worker that completes its
being taken in to the one that closes its connection.
-/

namespace KeyValueServer.Server

/-- The client that a worker is giving a place. -/
def WorkerStage.brings? : WorkerStage → Option StreamId
  | reserving _ stream => some stream
  | installing _ _ stream => some stream
  | _ => none

/-- Where a client may be: among those that wait to be accepted, with a worker, or in a place. -/
inductive Spot where
  | waiting (position : Nat)
  | brought (worker : Nat)
  | placed (index : Nat)
deriving DecidableEq

/-- The client is in the spot. -/
def Workers.At (s : Workers) (stream : StreamId) : Spot → Prop
  | .waiting position => s.engine.network.backlog[position]? = some (.client stream)
  | .brought worker => (s.stages worker).brings? = some stream
  | .placed index =>
      ∃ slot, s.engine.arena.slotAt index = some slot ∧ slot.socket = .stream stream

/-- All clients behave, the server knows no others, and each is in one spot. -/
structure Workers.Civil (s : Workers) : Prop where
  plain : ∀ stream peer, s.engine.network.peerAt stream = some peer → peer.IsPlain
  known : ∀ stream spot, s.At stream spot → (s.engine.network.peerAt stream).isSome
  once : ∀ stream spot spot', s.At stream spot → s.At stream spot' → spot = spot'

variable {e e' : Engine} {worker index : Nat} {before after : WorkerStage} {stream : StreamId}

/-! ## Where clients come from -/

/-- A worker gets the client that it brings from among those that wait. -/
theorem Effect.brings (h : Effect e worker before e' after) :
    (e'.network.backlog = e.network.backlog ∧
        ∀ stream, after.brings? = some stream → before.brings? = some stream) ∨
      ∃ arrival, e.network.backlog = arrival :: e'.network.backlog ∧ e'.arena = e.arena ∧
        ∀ stream, after.brings? = some stream → arrival = .client stream := by
  cases h with
  | accept haccept =>
      unfold Network.accept at haccept
      split at haccept <;> obtain ⟨hresult, rfl⟩ := Prod.mk.inj haccept
      next => contradiction
      next hbacklog =>
        obtain rfl := Except.ok.inj hresult
        refine .inr ⟨_, hbacklog, rfl, fun other hbrings => ?_⟩
        rw [Option.some.inj hbrings]
      next => contradiction
  | acceptFails haccept =>
      unfold Network.accept at haccept
      split at haccept <;> obtain ⟨-, rfl⟩ := Prod.mk.inj haccept
      next => exact .inl ⟨rfl, fun stream hbrings => by split at hbrings <;> contradiction⟩
      next hbacklog =>
        exact .inr ⟨_, hbacklog, rfl, fun stream hbrings => by split at hbrings <;> contradiction⟩
      next hbacklog =>
        exact .inr ⟨_, hbacklog, rfl, fun stream hbrings => by split at hbrings <;> contradiction⟩
  | register _ hwatch =>
      exact .inl ⟨by rw [Network.watch_eq_ok hwatch], fun stream hbrings => by contradiction⟩
  | @close _ _ slot =>
      exact .inl ⟨by cases slot.socket <;> rfl, fun stream hbrings => by contradiction⟩
  | takeMessages =>
      refine .inl ⟨rfl, fun stream hbrings => ?_⟩
      split at hbrings
      · contradiction
      · rw [apply_afterServing WorkerStage.brings? rfl rfl] at hbrings
        contradiction
  | read =>
      refine .inl ⟨rfl, fun stream hbrings => ?_⟩
      rw [apply_afterReading WorkerStage.brings? rfl rfl rfl] at hbrings
      contradiction
  | park | poll | leave =>
      exact .inl ⟨rfl, fun stream hbrings => by split at hbrings <;> contradiction⟩
  | @recycle _ next => exact .inl ⟨rfl, fun stream hbrings => by cases next <;> contradiction⟩
  | reserve => exact .inl ⟨rfl, fun stream hbrings => hbrings⟩
  | _ => exact .inl ⟨rfl, fun stream hbrings => by contradiction⟩

/-- A place gets a client only from the worker that brings the client. -/
theorem Effect.placed (h : Effect e worker before e' after) {slot' : ConnectionSlot}
    (hslot' : e'.arena.slotAt index = some slot') (hsocket : slot'.socket = .stream stream) :
    (before.equipped? ≠ some index ∧
        ∃ slot, e.arena.slotAt index = some slot ∧ slot.socket = .stream stream) ∨
      ∃ i, before = .installing i index stream ∧ after = .activating i index := by
  by_cases hequip : before.equipped? = some index
  · cases h with
    | @install i place other slot hslot =>
        obtain rfl := Option.some.inj hequip
        rw [Arena.slotAt_put_self hslot] at hslot'
        obtain rfl := Option.some.inj hslot'
        obtain rfl := Socket.stream.inj hsocket
        exact .inr ⟨i, rfl, rfl⟩
    | @close place next slot hslot =>
        obtain rfl := Option.some.inj hequip
        rw [Arena.slotAt_put_self hslot] at hslot'
        obtain rfl := Option.some.inj hslot'
        contradiction
    | _ => contradiction
  · have hsame := h.socket hequip
    rw [hslot', Option.map_some] at hsame
    obtain ⟨slot, hslot, heq⟩ := Option.map_eq_some_iff.mp hsame.symm
    exact .inl ⟨hequip, slot, hslot, heq.trans hsocket⟩

namespace Workers

variable {s s' : Workers} {spot : Spot}

/-- Where a client was before a worker accepted the first of those that wait. -/
def beforeAccept (worker : Nat) : Spot → Spot
  | .waiting position => .waiting (position + 1)
  | .brought w => if w = worker then .waiting 0 else .brought w
  | .placed index => .placed index

/-- Where a client is after a worker has accepted the first of those that wait. -/
def afterAccept (worker : Nat) : Spot → Spot
  | .waiting 0 => .brought worker
  | .waiting (position + 1) => .waiting position
  | .brought w => .brought w
  | .placed index => .placed index

theorem leftInverse_afterAccept (worker : Nat) :
    Function.LeftInverse (afterAccept worker) (beforeAccept worker) := by
  intro spot
  cases spot with
  | waiting => rfl
  | placed => rfl
  | brought w => by_cases hw : w = worker <;> simp [beforeAccept, afterAccept, hw]

/-- Where clients were before a worker put one into its place. -/
theorem Moved.at_of_installing (h : s.Moved worker s') {i place : Nat} {client : StreamId}
    (hstage : s.stages worker = .installing i place client) (hat : s'.At stream spot) :
    s.At stream (Equiv.swap (.placed place) (.brought worker) spot) := by
  obtain ⟨stage, heffect, hstages⟩ := h
  obtain ⟨hafter, hnetwork⟩ :
      stage = .activating i place ∧ s'.engine.network = s.engine.network := by
    rw [hstage] at heffect
    exact heffect.of_installing
  cases spot with
  | waiting position =>
      rw [Equiv.swap_apply_of_ne_of_ne (by simp) (by simp), At, ← hnetwork]
      exact hat
  | brought w =>
      rw [At, hstages] at hat
      by_cases hw : w = worker
      · subst hw
        rw [turn_self, hafter] at hat
        contradiction
      · rw [turn_of_ne _ hw] at hat
        rw [Equiv.swap_apply_of_ne_of_ne (by simp) (by simpa using hw)]
        exact hat
  | placed index =>
      obtain ⟨slot', hslot', hsocket⟩ := hat
      rcases heffect.placed hslot' hsocket with ⟨hequip, hold⟩ | ⟨j, hinstalling, -⟩
      · have hindex : index ≠ place := by
          rintro rfl
          rw [hstage] at hequip
          exact hequip rfl
        rw [Equiv.swap_apply_of_ne_of_ne (by simpa using hindex) (by simp)]
        exact hold
      · obtain ⟨rfl, rfl, rfl⟩ := WorkerStage.installing.inj (hstage.symm.trans hinstalling)
        rw [Equiv.swap_apply_left, At, hstage]
        rfl

/-- Every client has come to its spot from a spot of its own. -/
theorem Moved.exists_origin (h : s.Moved worker s') : ∃ origin : Spot → Spot,
    Function.Injective origin ∧ ∀ stream spot, s'.At stream spot → s.At stream (origin spot) := by
  by_cases hinstall : ∃ i place stream, s.stages worker = .installing i place stream
  · obtain ⟨i, place, client, hstage⟩ := hinstall
    exact ⟨_, Equiv.injective _, fun _ _ hat => h.at_of_installing hstage hat⟩
  obtain ⟨stage, heffect, hstages⟩ := h
  have hothers {w : Nat} (hw : w ≠ worker) : s'.stages w = s.stages w := by
    rw [hstages, turn_of_ne _ hw]
  have hmine : s'.stages worker = stage := by rw [hstages, turn_self]
  rcases heffect.brings with ⟨hbacklog, hbrings⟩ | ⟨arrival, hbacklog, harena, hbrings⟩
  · refine ⟨id, Function.injective_id, fun stream spot hat => ?_⟩
    cases spot with
    | waiting position => exact (congrArg (·[position]?) hbacklog).symm.trans hat
    | brought w =>
        by_cases hw : w = worker
        · subst hw
          exact hbrings stream (hmine ▸ hat)
        · exact (congrArg WorkerStage.brings? (hothers hw)).symm.trans hat
    | placed index =>
        obtain ⟨slot', hslot', hsocket⟩ := hat
        rcases heffect.placed hslot' hsocket with ⟨-, hold⟩ | ⟨i, hstage, -⟩
        · exact hold
        · exact absurd ⟨i, index, stream, hstage⟩ hinstall
  · refine ⟨beforeAccept worker, (leftInverse_afterAccept worker).injective,
      fun stream spot hat => ?_⟩
    cases spot with
    | waiting position =>
        rw [beforeAccept, At, hbacklog]
        exact hat
    | brought w =>
        rw [beforeAccept]
        split
        next hw =>
          subst hw
          rw [At, hbacklog, hbrings stream (hmine ▸ hat)]
          rfl
        next hw => exact (congrArg WorkerStage.brings? (hothers hw)).symm.trans hat
    | placed index =>
        rw [beforeAccept, At, ← harena]
        exact hat

/-- No client keeps its connection from being watched. -/
theorem Civil.watch_ne_error (hs : s.Civil) (token : ConnectionToken) (socket : Socket)
    (fault : IoFault) : s.engine.network.watch token socket ≠ .error fault := by
  intro hrefused
  obtain ⟨stream, peer, -, hpeer, hnot⟩ := Network.watch_eq_error hrefused
  rw [(hs.plain stream peer hpeer).pollable] at hnot
  contradiction

/-- A step of a worker leaves all clients known, and in one spot each. -/
theorem Civil.moved (hs : s.Civil) (h : s.Moved worker s') : s'.Civil := by
  obtain ⟨origin, hinjective, horigin⟩ := h.exists_origin
  obtain ⟨stage, heffect, -⟩ := h
  refine ⟨fun stream peer' hpeer' => heffect.isPlain hs.plain hpeer', fun stream spot hat => ?_,
    fun stream spot spot' hat hat' => ?_⟩
  · exact (heffect.isSome_peerAt stream).trans (hs.known stream _ (horigin stream spot hat))
  · exact hinjective (hs.once stream _ _ (horigin stream spot hat) (horigin stream spot' hat'))

/-- Clients that connect, send and end what they send behave. -/
theorem Civil.occur (hs : s.Civil) (o : Occurrence) : (s.happen o.change).Civil := by
  have hat_cases {stream : StreamId} {spot : Spot} (hat : (s.happen o.change).At stream spot) :
      s.At stream spot ∨ s.engine.network.peerAt stream = none ∧
        (o.change s.engine.network).peerAt stream = some (.connected true) ∧
        spot = .waiting s.engine.network.backlog.length := by
    cases spot with
    | brought | placed => exact .inl hat
    | waiting position =>
        have hposition :
            (o.change s.engine.network).backlog[position]? = some (.client stream) := hat
        rcases o.backlog_cases s.engine.network with hsame | ⟨new, hadded, hnone, hnew⟩
        · exact .inl ((congrArg (·[position]?) hsame).symm.trans hposition)
        · rw [hadded, List.getElem?_append] at hposition
          split at hposition
          · exact .inl hposition
          next hle =>
            obtain ⟨hlast, hclient⟩ := List.getElem?_eq_some_iff.mp hposition
            rw [List.length_singleton] at hlast
            obtain rfl : new = stream := by simpa using hclient
            exact .inr ⟨hnone, hnew, congrArg Spot.waiting (by omega)⟩
  refine ⟨fun stream peer' hpeer' => ?_, fun stream spot hat => ?_,
    fun stream spot spot' hat hat' => ?_⟩
  · rcases o.peers (R := fun p p' => p.IsPlain → p'.IsPlain) (fun _ => id)
      (fun _ bytes hp => ⟨hp.pollable, hp.accepts, hp.source.arrive bytes⟩)
      (fun _ hp => ⟨hp.pollable, hp.accepts, hp.source⟩) s.engine.network stream with
      hrel | ⟨-, hnew⟩
    · have hlater : (o.change s.engine.network).peerAt stream = some peer' := hpeer'
      rw [hlater] at hrel
      obtain ⟨peer, hpeer, hplain⟩ := exists_of_rel hrel
      exact hplain (hs.plain stream peer hpeer)
    · obtain rfl := Option.some.inj (hnew.symm.trans hpeer')
      exact isPlain_connected
  · rcases hat_cases hat with hold | ⟨-, hnew, -⟩
    · exact o.isSome_peerAt (hs.known stream spot hold)
    · exact hnew ▸ rfl
  · have hunknown {spot : Spot} (hold : s.At stream spot)
        (hnone : s.engine.network.peerAt stream = none) : False := by
      have hknown := hs.known stream spot hold
      rw [hnone] at hknown
      contradiction
    rcases hat_cases hat with hold | ⟨hnone, -, hspot⟩ <;>
      rcases hat_cases hat' with hold' | ⟨hnone', -, hspot'⟩
    · exact hs.once stream spot spot' hold hold'
    · exact absurd hnone' fun hnone => hunknown hold hnone
    · exact absurd hnone fun hnone => hunknown hold' hnone
    · exact hspot.trans hspot'.symm

/-! ## Clients in their places -/

/-- A client that has a place is watched, unless a worker is still taking it in. -/
def Watches (s : Workers) : Prop :=
  ∀ index slot stream, s.engine.arena.slotAt index = some slot → slot.socket = .stream stream →
    (∀ worker, (s.stages worker).prepared? ≠ some index) →
    (ConnectionToken.encode index slot.generation, .stream stream) ∈ s.engine.network.watched

/-- A worker that has taken a client in has it watched. -/
theorem watched_of_prepared (ha : Attentive s) (h : s.Moved worker s')
    (hprepared : (s.stages worker).prepared? = some index)
    (hdone : (s'.stages worker).prepared? ≠ some index) {slot' : ConnectionSlot}
    (hslot' : s'.engine.arena.slotAt index = some slot') (hsocket : slot'.socket = .stream stream) :
    (ConnectionToken.encode index slot'.generation, .stream stream) ∈
      s'.engine.network.watched := by
  obtain ⟨stage, heffect, hstages⟩ := h
  rw [hstages, turn_self] at hdone
  generalize hstage : s.stages worker = before at heffect hprepared
  generalize s'.engine = e' at heffect hslot' ⊢
  cases heffect with
  | activate =>
      exact absurd hprepared hdone
  | refuse => exact absurd hprepared hdone
  | @register i place token slot network hslot hwatch =>
      obtain rfl := Option.some.inj hprepared
      obtain rfl := Option.some.inj (hslot.symm.trans hslot')
      rw [← ha.named worker i place token slot hstage hslot, ← hsocket, Network.watch_eq_ok hwatch]
      exact List.mem_append_right _ (List.mem_singleton_self _)
  | @close place next slot hslot =>
      cases next with
      | claiming => contradiction
      | accepting =>
          obtain rfl := Option.some.inj hprepared
          rw [Arena.slotAt_put_self hslot] at hslot'
          obtain rfl := Option.some.inj hslot'
          contradiction
  | _ => contradiction

theorem Watches.moved (hw : s.Watches) (hc : s.Civil) (ha : Attentive s)
    (hs : Tenanted s.engine.arena s.stages) (h : s.Moved worker s') : s'.Watches := by
  intro index slot' stream hslot' hsocket hdone
  by_cases hprepared : (s.stages worker).prepared? = some index
  · exact watched_of_prepared ha h hprepared (hdone worker) hslot' hsocket
  · obtain ⟨stage, heffect, hstages⟩ := h
    rcases heffect.placed hslot' hsocket with ⟨hequip, slot, hslot, hold⟩ | ⟨i, -, hactivating⟩
    · have hretire : (s.stages worker).retired? ≠ some index := by
        intro hretire
        rw [hs.socket_of_retired hretire hslot] at hold
        contradiction
      have hgeneration := heffect.generation hretire
      rw [hslot', hslot, Option.map_some, Option.map_some] at hgeneration
      rw [Option.some.inj hgeneration]
      have hwatched := hw index slot stream hslot hold fun w hw => ?_
      · rcases heffect.of_mem_watched hwatched with
          hkept | ⟨place, next, other, hstage, hother, hsame⟩
        · exact hkept
        · -- The worker closes the connection of the client, which is in no other place.
          have hspot := hc.once stream (.placed index) (.placed place) ⟨slot, hslot, hold⟩
            ⟨other, hother, hsame.symm⟩
          rw [hstage, Spot.placed.inj hspot] at hequip
          exact absurd rfl hequip
      · by_cases hmine : w = worker
        · exact hprepared (hmine ▸ hw)
        · have hothers := hdone w
          rw [hstages, turn_of_ne _ hmine] at hothers
          exact hothers hw
    · have hmine := hdone worker
      rw [hstages, turn_self, hactivating] at hmine
      exact absurd rfl hmine

theorem Watches.occur (hw : s.Watches) (o : Occurrence) : (s.happen o.change).Watches :=
  fun index slot stream hslot hsocket hdone =>
    (o.delivers_change s.engine.network).watched ▸ hw index slot stream hslot hsocket hdone

end Workers

end KeyValueServer.Server
