import KeyValueServer.Proofs.Workers.Whereabouts

/-!
# Whatever there is to read is looked after

Tokens name the connections that they were given for. Bytes, or the end of them, are reported once.
As long as they were not read, an event under the token of their connection is on its way to a
worker, or a worker has it, or a worker is about to close the connection; every step keeps this.
-/

namespace KeyValueServer.Server

/-- The place that a worker is taking into use, and whose socket is not watched yet. -/
def WorkerStage.prepared? : WorkerStage → Option Nat
  | activating _ place => some place
  | registering _ place _ => some place
  | closing place (.accepting _) => some place
  | _ => none

/-- Somebody will look after the connection with a token. -/
def Workers.Attends (s : Workers) (token : ConnectionToken) : Prop :=
  (∃ event, s.Has event ∧ event.token = token) ∨
    ∃ worker, (s.stages worker).closes? = some token.index

/-- Tokens name what they are given for, and whatever there is to read is looked after. -/
structure Attentive (s : Workers) : Prop where
  small : s.engine.arena.capacity ≤ UInt32.size
  queue : s.engine.waiter.queue.Sound
  prompt : s.engine.network.IsPrompt
  telling : ∀ event, s.Has event → event.IsTelling
  /-- An event in a ring, or taken from one, is of the connection that is in the place now. -/
  current : ∀ index slot event, s.engine.arena.slotAt index = some slot →
    (event ∈ slot.events ∨ ∃ worker, (s.stages worker).taken? = some (index, event)) →
    event.token.index = index ∧ event.token.generation = slot.generation
  named : ∀ worker index place token slot, s.stages worker = .registering index place token →
    s.engine.arena.slotAt place = some slot → token = ConnectionToken.encode place slot.generation
  watched : ∀ token socket, (token, socket) ∈ s.engine.network.watched → socket ≠ .closed ∧
    ∃ slot, s.engine.arena.slotAt token.index = some slot ∧ slot.generation = token.generation ∧
      slot.socket = socket
  unwatched : ∀ worker place token socket, (s.stages worker).prepared? = some place →
    (token, socket) ∈ s.engine.network.watched → token.index ≠ place
  attended : ∀ token stream peer, (token, .stream stream) ∈ s.engine.network.watched →
    s.engine.network.peerAt stream = some peer → peer.source.isOutstanding = true →
    s.Attends token

/-! ## What stages say about places -/

section Stages

variable {a : Arena} {stages : Nat → WorkerStage} {worker index place : Nat} {stage : WorkerStage}
  {slot : ConnectionSlot}

theorem WorkerStage.mem_holds_of_taken {event : Event} (h : stage.taken? = some (index, event)) :
    (index, Tenure.reading) ∈ stage.holds := by
  cases stage <;> simp_all [taken?, holds]

theorem WorkerStage.eq_of_closes (h : stage.closes? = some index) :
    stage = .closing index .claiming := by
  cases stage with
  | closing place next => cases next <;> simp_all [closes?]
  | _ => contradiction

theorem WorkerStage.mem_holds_of_retired (h : stage.retired? = some index) :
    (index, Tenure.closed) ∈ stage.holds ∨ (index, Tenure.withdrawn) ∈ stage.holds := by
  cases stage with
  | retiring place next => cases next <;> simp_all [retired?, holds]
  | _ => contradiction

theorem WorkerStage.prepared?_eq_some_iff : stage.prepared? = some index ↔
    (index, Tenure.filled) ∈ stage.holds ∨ (index, Tenure.presented) ∈ stage.holds := by
  rcases stage with _ | _ | _ | _ | _ | _ | _ | _ | _ | _ | _ | ⟨_, _ | _⟩ | ⟨_, _ | _⟩ |
    ⟨_, _ | _⟩ | _ | _ | _ | _ | _ | _ | _ <;>
  simp [holds, prepared?, eq_comm]

theorem Tenanted.not_retired (hs : Tenanted a stages) {tenure : Tenure} {w : Nat}
    (hheld : (index, tenure) ∈ (stages w).holds) (hclosed : tenure ≠ .closed)
    (hwithdrawn : tenure ≠ .withdrawn) (worker : Nat) : (stages worker).retired? ≠ some index := by
  intro hretire
  rcases WorkerStage.mem_holds_of_retired hretire with hheld' | hheld'
  · exact hclosed (hs.holder_unique hheld hheld').2
  · exact hwithdrawn (hs.holder_unique hheld hheld').2

theorem Tenanted.socket_of_retired (hs : Tenanted a stages)
    (h : (stages worker).retired? = some index) (hslot : a.slotAt index = some slot) :
    slot.socket = .closed := by
  rcases WorkerStage.mem_holds_of_retired h with hheld | hheld
  all_goals
    obtain ⟨-, slot', hslot', hfits⟩ := hs.of_mem_holds hheld
    obtain rfl := Option.some.inj (hslot.symm.trans hslot')
    exact hfits.suits.2

theorem Tenanted.socket_of_installing (hs : Tenanted a stages) {stream : StreamId}
    (h : stages worker = .installing index place stream) (hslot : a.slotAt place = some slot) :
    slot.socket = .closed := by
  have hheld : (place, Tenure.emptied) ∈ (stages worker).holds := by simp [h, WorkerStage.holds]
  obtain ⟨-, slot', hslot', hfits⟩ := hs.of_mem_holds hheld
  obtain rfl := Option.some.inj (hslot.symm.trans hslot')
  exact hfits.suits.2

theorem ConnectionSlot.IsOpen.exists_stream (h : slot.IsOpen index)
    (hindex : index ≠ Arena.listenerIndex) :
    slot.role = .message ∧ ∃ stream, slot.socket = .stream stream := by
  rwa [ConnectionSlot.IsOpen, if_neg hindex] at h

theorem Tenanted.socket_of_registering (hs : Tenanted a stages) {token : ConnectionToken}
    (h : stages worker = .registering index place token) (hslot : a.slotAt place = some slot) :
    ∃ stream, slot.socket = .stream stream := by
  have hheld : (place, Tenure.presented) ∈ (stages worker).holds := by simp [h, WorkerStage.holds]
  obtain ⟨-, slot', hslot', hfits⟩ := hs.of_mem_holds hheld
  obtain rfl := Option.some.inj (hslot.symm.trans hslot')
  exact (ConnectionSlot.IsOpen.exists_stream hfits.suits.2 hfits.suits.1).2

theorem Tenanted.socket_of_closing (hs : Tenanted a stages) {next : Resumption}
    (h : stages worker = .closing index next) (hslot : a.slotAt index = some slot) :
    ∃ stream, slot.socket = .stream stream := by
  have hheld : (index, Tenure.reading) ∈ (stages worker).holds ∨
      (index, Tenure.presented) ∈ (stages worker).holds := by
    cases next <;> simp [h, WorkerStage.holds]
  rcases hheld with hheld | hheld
  all_goals
    obtain ⟨-, slot', hslot', hfits⟩ := hs.of_mem_holds hheld
    obtain rfl := Option.some.inj (hslot.symm.trans hslot')
    exact (ConnectionSlot.IsOpen.exists_stream hfits.suits.2 hfits.suits.1).2

/-- Where no worker has any place, no ring has events. -/
theorem Tenanted.events_eq_nil (hs : Tenanted a stages) (hidle : ∀ w, (stages w).holds = [])
    (hslot : a.slotAt index = some slot) : slot.events = [] := by
  obtain ⟨keeper, hkeeps, hfits⟩ := hs.of_slotAt hslot
  refine hfits.quiet fun hrunning => ?_
  cases keeper with
  | line => contradiction
  | nobody => contradiction
  | worker w tenure =>
      have hheld := (hkeeps.worker w tenure).mpr rfl
      rw [hidle w] at hheld
      contradiction

/-- Where besides no event is ready, in the shared queue or with a worker, there is none. -/
theorem Tenanted.not_has {s : Workers} (hs : Tenanted s.engine.arena s.stages)
    (hready : s.engine.network.ready = []) (hqueue : s.engine.waiter.queue.toList = [])
    (hidle : ∀ w, (s.stages w).holds = [] ∧ (s.stages w).carries = []) (event : Event) :
    ¬s.Has event := by
  intro hhas
  cases hhas with
  | ready h => exact List.not_mem_nil (hready ▸ h)
  | queued h => exact List.not_mem_nil (hqueue ▸ h)
  | carried w h => exact List.not_mem_nil ((hidle w).2 ▸ h)
  | placed index slot hslot h =>
      exact List.not_mem_nil (hs.events_eq_nil (fun w => (hidle w).1) hslot ▸ h)
  | taken w index h => exact List.not_mem_nil ((hidle w).1 ▸ WorkerStage.mem_holds_of_taken h)

end Stages

/-! ## Connections that are watched -/

namespace Attentive

variable {s s' : Workers} {worker : Nat} {token : ConnectionToken} {stream : StreamId}

/-- The place of a connection that is watched is in use, whoever has it. -/
theorem live (ha : Attentive s) (hs : Tenanted s.engine.arena s.stages)
    (h : (token, .stream stream) ∈ s.engine.network.watched) :
    ∃ slot, s.engine.arena.slotAt token.index = some slot ∧ slot.generation = token.generation ∧
      slot.socket = .stream stream ∧ slot.role = .message ∧ slot.phase ≠ .free := by
  obtain ⟨-, slot, hslot, hgeneration, hsocket⟩ := ha.watched _ _ h
  obtain ⟨keeper, hkeeps, hfits⟩ := hs.of_slotAt hslot
  have hopen {index : Nat} (hopen : slot.IsOpen index) : slot.role = .message := by
    rw [ConnectionSlot.IsOpen, hsocket] at hopen
    split at hopen
    · exact absurd hopen.2 (by simp)
    · exact hopen.1
  refine ⟨slot, hslot, hgeneration, hsocket, ?_⟩
  have hphase := hfits.phase
  have hsuits := hfits.suits
  rcases keeper with _ | _ | ⟨w, tenure⟩
  · exact absurd (hsuits.2.symm.trans hsocket) (by simp)
  · exact ⟨hopen hsuits, by simp [hphase, Keeper.phase]⟩
  · cases tenure with
    | closed | emptied | withdrawn => exact absurd (hsuits.2.symm.trans hsocket) (by simp)
    | serving => exact ⟨hopen hsuits, by simp [hphase, Keeper.phase, Tenure.phase]⟩
    | accepting | reading | presented =>
        exact ⟨hopen hsuits.2, by simp [hphase, Keeper.phase, Tenure.phase]⟩
    | filled =>
        have hheld : (token.index, Tenure.filled) ∈ (s.stages w).holds :=
          (hkeeps.worker w _).mpr rfl
        exact absurd rfl
          (ha.unwatched w _ token _ (WorkerStage.prepared?_eq_some_iff.mpr (.inl hheld)) h)

end Attentive

/-! ## What a step keeps -/

section Step

variable {s s' : Workers} {worker index : Nat} {before after : WorkerStage} {e e' : Engine}

theorem Effect.capacity (h : Effect e worker before e' after) :
    e'.arena.capacity = e.arena.capacity := by
  cases h <;> first | rfl | exact Array.size_modify

/-- Reading is all that a step does to what clients have sent. -/
theorem Effect.source (h : Effect e worker before e' after) {stream : StreamId} {peer' : Peer}
    (hpeer' : e'.network.peerAt stream = some peer') :
    ∃ peer, e.network.peerAt stream = some peer ∧
      (peer'.source = peer.source ∨ peer'.source = (peer.source.read maxMessage).2) := by
  have hrel := h.peers (R := fun p p' => p'.source = p.source ∨
    p'.source = (p.source.read maxMessage).2) (fun _ => .inl rfl) (fun _ => .inl rfl)
    (fun _ _ _ _ _ hserved => .inr (source_serveOnce hserved)) stream
  rw [hpeer'] at hrel
  exact exists_of_rel hrel

theorem Effect.isPrompt (h : Effect e worker before e' after) (he : e.network.IsPrompt) :
    e'.network.IsPrompt := by
  intro stream peer' hpeer'
  obtain ⟨peer, hpeer, hsame | hread⟩ := h.source hpeer'
  · exact hsame ▸ he stream peer hpeer
  · exact hread ▸ (he stream peer hpeer).read maxMessage

theorem Effect.isOutstanding (h : Effect e worker before e' after) {stream : StreamId}
    {peer' : Peer} (hpeer' : e'.network.peerAt stream = some peer')
    (houtstanding : peer'.source.isOutstanding = true) :
    ∃ peer, e.network.peerAt stream = some peer ∧ peer.source.isOutstanding = true := by
  obtain ⟨peer, hpeer, hsame | hread⟩ := h.source hpeer'
  · exact ⟨peer, hpeer, hsame ▸ houtstanding⟩
  · exact ⟨peer, hpeer, Source.isOutstanding_of_read (hread ▸ houtstanding)⟩

/-- What is said of all events wherever they are outlasts a step, if it outlasts merging and is true
of what is reported about a socket that comes to be watched. -/
theorem Workers.Moved.forall_has {P : Event → Prop} (h : s.Moved worker s')
    (hs : s.engine.arena.Sound) (hqueue : s.engine.waiter.queue.Sound)
    (hmerge : ∀ e f : Event, e.token = f.token → P e → P f → P (Network.merge e f))
    (hwatch : ∀ index place token slot event, s.stages worker = .registering index place token →
      s.engine.arena.slotAt place = some slot →
      s.engine.network.watch token slot.socket = .ok s'.engine.network →
      event ∈ s.engine.network.pending slot.socket token → P event)
    (hP : ∀ event, s.Has event → P event) : ∀ event, s'.Has event → P event := by
  obtain ⟨stage, heffect, hstages⟩ := h
  intro event hhas
  cases hhas with
  | ready hready =>
      generalize hstage : s.stages worker = before at heffect
      generalize s'.engine = after at heffect hready hwatch
      by_cases hregister : ∃ index place token, before = .registering index place token
      · obtain ⟨index, place, token, rfl⟩ := hregister
        cases heffect with
        | refuse => exact hP event (.ready hready)
        | register hslot hnetwork =>
            rw [Network.watch_eq_ok hnetwork] at hready
            exact Network.forall_mem_foldl_announce hmerge (fun e he => hP e (.ready he))
              (fun e he => hwatch index place token _ e hstage hslot hnetwork he) event hready
      · rcases heffect.mem_ready hready with hold | hnew
        · exact hP event (.ready hold)
        · exact absurd hnew hregister
  | queued hqueued =>
      obtain ⟨-, ⟨first, -, hlist⟩ | ⟨batch, hbefore, -, hlist⟩ | hsame⟩ := heffect.queue hqueue
      · exact hP event (.queued (hlist ▸ List.mem_cons_of_mem _ hqueued))
      · rw [hlist] at hqueued
        rcases List.mem_append.mp hqueued with hold | hbatch
        · exact hP event (.queued hold)
        · exact hP event (.carried worker (by rw [hbefore]; exact hbatch))
      · exact hP event (.queued (hsame ▸ hqueued))
  | carried w hcarries =>
      rw [hstages] at hcarries
      by_cases hw : w = worker
      · subst hw
        rw [turn_self] at hcarries
        rcases heffect.mem_carries hqueue hcarries with hready | hqueued | hbefore
        · exact hP event (.ready hready)
        · exact hP event (.queued hqueued)
        · exact hP event (.carried w hbefore)
      · rw [turn_of_ne _ hw] at hcarries
        exact hP event (.carried w hcarries)
  | placed index slot' hslot' hevent =>
      rcases heffect.mem_events hs hslot' hevent with ⟨slot, hslot, hold⟩ | ⟨hplacing, -⟩
      · exact hP event (.placed index slot hslot hold)
      · exact hP event (.carried worker (by rw [hplacing]; exact List.mem_singleton_self _))
  | taken w index htaken =>
      rw [hstages] at htaken
      by_cases hw : w = worker
      · subst hw
        rw [turn_self] at htaken
        rcases heffect.taken htaken with hbefore | ⟨slot, hslot, hevent⟩
        · exact hP event (.taken w index hbefore)
        · exact hP event (.placed index slot hslot hevent)
      · rw [turn_of_ne _ hw] at htaken
        exact hP event (.taken w index htaken)

/-- Only registering has a socket watched that was not. -/
theorem Effect.mem_watched (h : Effect e worker before e' after)
    {entry : ConnectionToken × Socket} (hentry : entry ∈ e'.network.watched) :
    entry ∈ e.network.watched ∨ ∃ index place slot, before = .registering index place entry.1 ∧
      after = .accepting index ∧ e.arena.slotAt place = some slot ∧ entry.2 = slot.socket := by
  cases h with
  | register hslot hwatch =>
      rw [Network.watch_eq_ok hwatch] at hentry
      rcases List.mem_append.mp hentry with hold | hnew
      · exact .inl hold
      · obtain rfl := List.mem_singleton.mp hnew
        exact .inr ⟨_, _, _, rfl, rfl, hslot, rfl⟩
  | close => exact .inl (Network.watched_close_subset hentry)
  | accept haccept => exact .inl ((network_of_accept haccept).1 ▸ hentry)
  | acceptFails haccept => exact .inl ((network_of_accept haccept).1 ▸ hentry)
  | _ => exact .inl hentry

/-- Only closing ends that a socket is watched. -/
theorem Effect.of_mem_watched (h : Effect e worker before e' after)
    {entry : ConnectionToken × Socket} (hentry : entry ∈ e.network.watched) :
    entry ∈ e'.network.watched ∨ ∃ index next slot, before = .closing index next ∧
      e.arena.slotAt index = some slot ∧ entry.2 = slot.socket := by
  cases h with
  | register _ hwatch =>
      rw [Network.watch_eq_ok hwatch]
      exact .inl (List.mem_append_left _ hentry)
  | @close index next slot hslot =>
      by_cases hsocket : entry.2 = slot.socket
      · exact .inr ⟨index, next, slot, rfl, hslot, hsocket⟩
      · exact .inl (Network.of_mem_watched hentry hsocket)
  | accept haccept => exact .inl ((network_of_accept haccept).1 ▸ hentry)
  | acceptFails haccept => exact .inl ((network_of_accept haccept).1 ▸ hentry)
  | _ => exact .inl hentry

/-- A worker begins to take a place into use by putting a socket into it. -/
theorem Effect.prepared (h : Effect e worker before e' after)
    (hprepared : after.prepared? = some index) :
    before.prepared? = some index ∨ ∃ i stream, before = .installing i index stream := by
  cases h with
  | install =>
      obtain rfl := Option.some.inj hprepared
      exact .inr ⟨_, _, rfl⟩
  | activate => exact .inl hprepared
  | refuse => exact .inl hprepared
  | takeMessages =>
      split at hprepared
      · contradiction
      · rw [apply_afterServing WorkerStage.prepared? rfl rfl] at hprepared
        contradiction
  | read =>
      rw [apply_afterReading WorkerStage.prepared? rfl rfl rfl] at hprepared
      contradiction
  | acceptFails | park | poll | leave => split at hprepared <;> contradiction
  | @recycle _ next => cases next <;> contradiction
  | _ => contradiction

/-- A worker has a token only for a place to which it has just given the phase of an idle one. -/
theorem Effect.registering (h : Effect e worker before e' after) {place : Nat}
    {token : ConnectionToken} (hafter : after = .registering index place token) :
    ∃ slot slot', e.arena.slotAt place = some slot ∧ e'.arena.slotAt place = some slot' ∧
      slot'.generation = slot.generation ∧
      token = ConnectionToken.encode place slot.generation := by
  have hprepared := congrArg WorkerStage.prepared? hafter
  cases h with
  | activate hslot =>
      obtain ⟨rfl, rfl, rfl⟩ := WorkerStage.registering.inj hafter
      exact ⟨_, _, hslot, Arena.slotAt_put_self hslot _, rfl, rfl⟩
  | takeMessages =>
      split at hprepared
      · contradiction
      · rw [apply_afterServing WorkerStage.prepared? rfl rfl] at hprepared
        contradiction
  | read =>
      rw [apply_afterReading WorkerStage.prepared? rfl rfl rfl] at hprepared
      contradiction
  | acceptFails | park | poll | leave => split at hafter <;> contradiction
  | @recycle _ next => cases next <;> contradiction
  | _ => contradiction

/-- What is there to be read when a socket comes to be watched is reported. -/
theorem Effect.reported {place : Nat} {token : ConnectionToken} {slot : ConnectionSlot}
    {stream : StreamId} {peer : Peer}
    (h : Effect e worker (.registering index place token) e' (.accepting index))
    (hslot : e.arena.slotAt place = some slot) (hsocket : slot.socket = .stream stream)
    (hpeer : e'.network.peerAt stream = some peer)
    (houtstanding : peer.source.isOutstanding = true) :
    ∃ event ∈ e'.network.ready, event.token = token := by
  cases h with
  | register hslot' hwatch =>
      obtain rfl := Option.some.inj (hslot.symm.trans hslot')
      rw [Network.watch_eq_ok hwatch] at hpeer ⊢
      have hpeer' : e.network.peerAt stream = some peer := hpeer
      rw [hsocket, Network.pending_of_isOutstanding hpeer' houtstanding]
      have hnews : Network.outstanding peer.source token ∈ e.network.ready ∨
          Network.outstanding peer.source token ∈ [Network.outstanding peer.source token] :=
        .inr (List.mem_singleton_self _)
      exact Network.exists_mem_foldl_announce hnews

/-- Closing a socket ends that it is watched. -/
theorem Effect.watched_of_closing {next : Resumption} {slot : ConnectionSlot}
    (h : Effect e worker (.closing index next) e' after) (hslot : e.arena.slotAt index = some slot)
    (hopen : slot.socket ≠ .closed) {entry : ConnectionToken × Socket}
    (hentry : entry ∈ e'.network.watched) : entry.2 ≠ slot.socket := by
  cases h with
  | close hslot' =>
      obtain rfl := Option.some.inj (hslot.symm.trans hslot')
      exact ((Network.mem_watched_close hopen).mp hentry).2

theorem Workers.Moved.exists_generation (h : s.Moved worker s') {slot' : ConnectionSlot}
    (hretire : (s.stages worker).retired? ≠ some index)
    (hslot' : s'.engine.arena.slotAt index = some slot') :
    ∃ slot, s.engine.arena.slotAt index = some slot ∧ slot.generation = slot'.generation := by
  obtain ⟨stage, heffect, -⟩ := h
  have hsame := heffect.generation hretire
  rw [hslot', Option.map_some] at hsame
  exact Option.map_eq_some_iff.mp hsame.symm

/-- A worker that is about to have a place watched has the token of its generation. -/
theorem Workers.Moved.token_eq (h : s.Moved worker s') (hs : Tenanted s.engine.arena s.stages)
    (hnamed : ∀ w index place token slot, s.stages w = .registering index place token →
      s.engine.arena.slotAt place = some slot →
      token = ConnectionToken.encode place slot.generation)
    {w place : Nat} {token : ConnectionToken} {slot' : ConnectionSlot}
    (hstage' : s'.stages w = .registering index place token)
    (hslot' : s'.engine.arena.slotAt place = some slot') :
    token = ConnectionToken.encode place slot'.generation := by
  by_cases hw : w = worker
  · subst hw
    obtain ⟨stage, heffect, hstages⟩ := h
    rw [hstages, turn_self] at hstage'
    obtain ⟨slot, next, -, hnext, hgeneration, htoken⟩ := heffect.registering hstage'
    obtain rfl := Option.some.inj (hslot'.symm.trans hnext)
    rw [htoken, hgeneration]
  · have hstage : s.stages w = .registering index place token := by
      obtain ⟨stage, -, hstages⟩ := h
      rw [← hstage', hstages, turn_of_ne _ hw]
    have hpresented : (place, Tenure.presented) ∈ (s.stages w).holds := by
      simp [hstage, WorkerStage.holds]
    have hretire := hs.not_retired hpresented (by decide) (by decide) worker
    obtain ⟨slot, hslot, hgeneration⟩ := h.exists_generation hretire hslot'
    rw [← hgeneration]
    exact hnamed w index place token slot hstage hslot

/-- A place that is given back has no events any more, and none of its events is being served. -/
theorem Workers.Moved.quiet_of_retired (h : s.Moved worker s')
    (hs : Tenanted s.engine.arena s.stages) (hretire : (s.stages worker).retired? = some index)
    {slot' : ConnectionSlot} (hslot' : s'.engine.arena.slotAt index = some slot') :
    slot'.events = [] ∧ ∀ w event, (s'.stages w).taken? ≠ some (index, event) := by
  obtain ⟨stage, heffect, hstages⟩ := h
  have hothers : ∀ w event, (s.stages w).taken? ≠ some (index, event) := by
    intro w event htaken
    have hreading := WorkerStage.mem_holds_of_taken htaken
    exact hs.not_retired hreading (by decide) (by decide) worker hretire
  rw [hstages]
  generalize hstage : s.stages worker = before at heffect hretire
  generalize s'.engine = e' at heffect hslot'
  cases heffect with
  | @retire place next slot hslot =>
      obtain rfl := Option.some.inj hretire
      rw [Arena.slotAt_put_self hslot] at hslot'
      obtain rfl := Option.some.inj hslot'
      refine ⟨hs.sound.events_retired hslot, fun w event htaken => ?_⟩
      by_cases hw : w = worker
      · subst hw
        rw [turn_self] at htaken
        contradiction
      · rw [turn_of_ne _ hw] at htaken
        exact hothers w event htaken
  | _ => contradiction

namespace Attentive

variable (h : s.Moved worker s') (ha : Attentive s) (hs : Tenanted s.engine.arena s.stages)

include h ha hs

theorem telling_of_moved : ∀ event, s'.Has event → event.IsTelling :=
  h.forall_has hs.sound ha.queue (fun _ _ _ he _ => Network.isTelling_merge (.inl he))
    (fun _ _ _ _ _ _ _ _ hevent => .inl (Network.mem_pending hevent).2.1) ha.telling

theorem current_of_moved : ∀ index slot event, s'.engine.arena.slotAt index = some slot →
    (event ∈ slot.events ∨ ∃ w, (s'.stages w).taken? = some (index, event)) →
    event.token.index = index ∧ event.token.generation = slot.generation := by
  obtain ⟨stage, heffect, hstages⟩ := id h
  intro index slot' event hslot' hsome
  by_cases hretire : (s.stages worker).retired? = some index
  · obtain ⟨hempty, hnone⟩ := h.quiet_of_retired hs hretire hslot'
    rcases hsome with hevent | ⟨w, htaken⟩
    · rw [hempty] at hevent
      contradiction
    · exact absurd htaken (hnone w event)
  · obtain ⟨slot, hslot, hgeneration⟩ := h.exists_generation hretire hslot'
    have hold : (event ∈ slot.events ∨ ∃ w, (s.stages w).taken? = some (index, event)) →
        event.token.index = index ∧ event.token.generation = slot'.generation := by
      rw [← hgeneration]
      exact ha.current index slot event hslot
    rcases hsome with hevent | ⟨w, htaken⟩
    · rcases heffect.mem_events hs.sound hslot' hevent with ⟨old, hold', hmem⟩ | ⟨-, hindex, hnew⟩
      · obtain rfl := Option.some.inj (hslot.symm.trans hold')
        exact hold (.inl hmem)
      · exact ⟨hindex, hnew.symm⟩
    · rw [hstages] at htaken
      by_cases hw : w = worker
      · subst hw
        rw [turn_self] at htaken
        rcases heffect.taken htaken with hbefore | ⟨old, hold', hmem⟩
        · exact hold (.inr ⟨w, hbefore⟩)
        · obtain rfl := Option.some.inj (hslot.symm.trans hold')
          exact hold (.inl hmem)
      · rw [turn_of_ne _ hw] at htaken
        exact hold (.inr ⟨w, htaken⟩)

theorem watched_of_moved : ∀ token socket, (token, socket) ∈ s'.engine.network.watched →
    socket ≠ .closed ∧ ∃ slot, s'.engine.arena.slotAt token.index = some slot ∧
      slot.generation = token.generation ∧ slot.socket = socket := by
  obtain ⟨stage, heffect, -⟩ := h
  intro token socket hentry
  generalize hstage : s.stages worker = before at heffect
  generalize s'.engine = e' at heffect hentry ⊢
  have hkept (hmem : (token, socket) ∈ s.engine.network.watched)
      (hequip : before.equipped? ≠ some token.index) : socket ≠ .closed ∧
      ∃ slot, e'.arena.slotAt token.index = some slot ∧ slot.generation = token.generation ∧
        slot.socket = socket := by
    obtain ⟨hopen, slot, hslot, hgeneration, hsocket⟩ := ha.watched token socket hmem
    have hretire : before.retired? ≠ some token.index := by
      intro hretire
      rw [← hstage] at hretire
      exact hopen (hsocket.symm.trans (hs.socket_of_retired hretire hslot))
    have hsame := heffect.unaltered (fun slot => (slot.generation, slot.socket))
      (fun _ _ _ _ => rfl) (.inr hequip) (.inr hretire)
    rw [hslot, Option.map_some] at hsame
    obtain ⟨slot', hslot', heq⟩ := Option.map_eq_some_iff.mp hsame
    obtain ⟨hgeneration', hsocket'⟩ := Prod.mk.inj heq
    exact ⟨hopen, slot', hslot', hgeneration'.trans hgeneration, hsocket'.trans hsocket⟩
  cases heffect with
  | @register index place new slot network hslot hwatch =>
      rw [Network.watch_eq_ok hwatch] at hentry
      rcases List.mem_append.mp hentry with hold | hnew
      · exact hkept hold (by simp [WorkerStage.equipped?])
      · obtain ⟨rfl, rfl⟩ := Prod.mk.inj (List.mem_singleton.mp hnew)
        obtain rfl := ha.named worker index place token slot hstage hslot
        have hplace : place < UInt32.size := Nat.lt_of_lt_of_le (Arena.slotAt_lt hslot) ha.small
        obtain ⟨stream, hsocket⟩ := hs.socket_of_registering hstage hslot
        rw [ConnectionToken.index_encode hplace, ConnectionToken.generation_encode hplace]
        exact ⟨by simp [hsocket], slot, hslot, rfl, rfl⟩
  | @close index next slot hslot =>
      obtain ⟨stream, hsocket⟩ := hs.socket_of_closing hstage hslot
      obtain ⟨hmem, hother⟩ := (Network.mem_watched_close (by simp [hsocket])).mp hentry
      refine hkept hmem fun hequip => ?_
      obtain ⟨-, slot', hslot', -, hsocket'⟩ := ha.watched token socket hmem
      obtain rfl := Option.some.inj hequip
      obtain rfl := Option.some.inj (hslot.symm.trans hslot')
      exact hother hsocket'.symm
  | @install index place stream slot hslot =>
      refine hkept hentry fun hequip => ?_
      obtain ⟨hopen, slot', hslot', -, hsocket'⟩ := ha.watched token socket hentry
      obtain rfl := Option.some.inj hequip
      obtain rfl := Option.some.inj (hslot.symm.trans hslot')
      exact hopen (hsocket'.symm.trans (hs.socket_of_installing hstage hslot))
  | accept haccept =>
      exact hkept ((network_of_accept haccept).1 ▸ hentry) (by simp [WorkerStage.equipped?])
  | acceptFails haccept =>
      exact hkept ((network_of_accept haccept).1 ▸ hentry) (by simp [WorkerStage.equipped?])
  | _ => exact hkept hentry (by simp [WorkerStage.equipped?])

theorem unwatched_of_moved : ∀ w place token socket, (s'.stages w).prepared? = some place →
    (token, socket) ∈ s'.engine.network.watched → token.index ≠ place := by
  obtain ⟨stage, heffect, hstages⟩ := h
  intro w place token socket hprepared hentry
  rw [hstages] at hprepared
  have hentry' := heffect.mem_watched hentry
  by_cases hw : w = worker
  · subst hw
    rw [turn_self] at hprepared
    rcases hentry' with hold | ⟨index, -, -, -, hafter, -⟩
    · rcases heffect.prepared hprepared with hbefore | ⟨i, stream, hinstalling⟩
      · exact ha.unwatched w place token socket hbefore hold
      · obtain ⟨hopen, slot, hslot, -, hsocket⟩ := ha.watched token socket hold
        rintro rfl
        exact hopen (hsocket.symm.trans (hs.socket_of_installing hinstalling hslot))
    · rw [hafter] at hprepared
      contradiction
  · rw [turn_of_ne _ hw] at hprepared
    rcases hentry' with hold | ⟨index, other, slot, hbefore, -, hslot, -⟩
    · exact ha.unwatched w place token socket hprepared hold
    · obtain rfl := ha.named worker index other token slot hbefore hslot
      have hother : other < UInt32.size := Nat.lt_of_lt_of_le (Arena.slotAt_lt hslot) ha.small
      rw [ConnectionToken.index_encode hother]
      rintro rfl
      have hpresented : (other, Tenure.presented) ∈ (s.stages worker).holds := by
        simp [hbefore, WorkerStage.holds]
      rcases WorkerStage.prepared?_eq_some_iff.mp hprepared with hheld | hheld
      · exact hw (hs.holder_unique hheld hpresented).1
      · exact hw (hs.holder_unique hheld hpresented).1

theorem attends_of_moved {token : ConnectionToken} {stream : StreamId} {peer' : Peer}
    (hwatched : (token, .stream stream) ∈ s.engine.network.watched)
    (hwatched' : (token, .stream stream) ∈ s'.engine.network.watched)
    (hpeer' : s'.engine.network.peerAt stream = some peer')
    (houtstanding : peer'.source.isOutstanding = true) (hattends : s.Attends token) :
    s'.Attends token := by
  obtain ⟨slot, hslot, hgeneration, hsocket, hrole, hphase⟩ := ha.live hs hwatched
  obtain ⟨-, slot', hslot', hgeneration', -⟩ := watched_of_moved h ha hs _ _ hwatched'
  have hcurrent' := current_of_moved h ha hs
  obtain ⟨stage, heffect, hstages⟩ := id h
  have hmine : s'.stages worker = stage := by rw [hstages, turn_self]
  have hothers {w : Nat} (hw : w ≠ worker) : s'.stages w = s.stages w := by
    rw [hstages, turn_of_ne _ hw]
  -- The worker is not closing the connection: that would take it off the list of watched ones.
  have hunclosed {index : Nat} {next : Resumption} {closed : ConnectionSlot}
      (hbefore : s.stages worker = .closing index next)
      (hclosed : s.engine.arena.slotAt index = some closed)
      (hmem : (token, closed.socket) ∈ s.engine.network.watched) : False := by
    obtain ⟨hopen, same, hsame, -, hsocket'⟩ := ha.watched token _ hmem
    obtain rfl := Option.some.inj (hslot.symm.trans hsame)
    rw [hbefore] at heffect
    exact heffect.watched_of_closing hclosed hopen hwatched' (hsocket.symm.trans hsocket')
  rcases hattends with ⟨event, hhas, rfl⟩ | ⟨w, hcloses⟩
  · cases hhas with
    | ready hready =>
        rcases heffect.of_mem_ready hready with ⟨later, hlater, hlater'⟩ | hcarries |
          ⟨index, next, closed, hbefore, hclosed, hmem⟩
        · exact .inl ⟨later, .ready hlater, hlater'⟩
        · exact .inl ⟨event, .carried worker (hmine ▸ hcarries), rfl⟩
        · exact absurd (hunclosed hbefore hclosed hmem) id
    | queued hqueued =>
        rcases heffect.of_mem_queue ha.queue hqueued with hqueued' | hcarries
        · exact .inl ⟨event, .queued hqueued', rfl⟩
        · exact .inl ⟨event, .carried worker (hmine ▸ hcarries), rfl⟩
    | carried w hcarries =>
        by_cases hw : w = worker
        · subst hw
          rcases heffect.of_mem_carries ha.queue hcarries with hcarries' | hqueued |
            ⟨later, hlater, hbusy⟩ | hstale
          · exact .inl ⟨event, .carried w (hmine ▸ hcarries'), rfl⟩
          · exact .inl ⟨event, .queued hqueued, rfl⟩
          · -- Whatever is in the ring has the same token.
            obtain ⟨other, hother⟩ := List.exists_mem_of_ne_nil _ hbusy
            obtain rfl := Option.some.inj (hslot'.symm.trans hlater)
            obtain ⟨hindex, hsame⟩ := hcurrent' _ _ other hlater (.inl hother)
            refine .inl ⟨other, .placed _ _ hlater hother, ?_⟩
            rw [← ConnectionToken.encode_index_generation other.token, hindex, hsame, hgeneration',
              ConnectionToken.encode_index_generation]
          · exact absurd ⟨hslot, hphase, hgeneration⟩ (hstale slot)
        · exact .inl ⟨event, .carried w ((hothers hw).symm ▸ hcarries), rfl⟩
    | placed index old hold hevent =>
        obtain ⟨rfl, -⟩ := ha.current index old event hold (.inl hevent)
        obtain rfl := Option.some.inj (hslot.symm.trans hold)
        have hretire : (s.stages worker).retired? ≠ some event.token.index := by
          intro hretire
          rw [hs.socket_of_retired hretire hslot] at hsocket
          contradiction
        rcases heffect.of_mem_events hslot hevent (ha.telling event (.placed _ _ hslot hevent))
          hrole hretire with ⟨later, hlater, hmem⟩ | htaken | hcloses
        · exact .inl ⟨event, .placed _ _ hlater hmem, rfl⟩
        · exact .inl ⟨event, .taken worker _ (hmine ▸ htaken), rfl⟩
        · exact .inr ⟨worker, hmine ▸ hcloses⟩
    | taken w index htaken =>
        by_cases hw : w = worker
        · subst hw
          obtain ⟨-, old, hold, -⟩ := hs.of_mem_holds (WorkerStage.mem_holds_of_taken htaken)
          obtain ⟨rfl, -⟩ := ha.current index old event hold (.inr ⟨w, htaken⟩)
          rcases heffect.of_taken ha.prompt htaken with htaken' | hcloses |
            ⟨read, id, peer, hread, hid, hpeer, hnothing⟩
          · exact .inl ⟨event, .taken w _ (hmine ▸ htaken'), rfl⟩
          · exact .inr ⟨w, hmine ▸ hcloses⟩
          · obtain rfl := Option.some.inj (hslot.symm.trans hread)
            obtain rfl := Socket.stream.inj (hsocket.symm.trans hid)
            obtain rfl := Option.some.inj (hpeer'.symm.trans hpeer)
            rw [houtstanding] at hnothing
            contradiction
        · exact .inl ⟨event, .taken w index ((hothers hw).symm ▸ htaken), rfl⟩
  · by_cases hw : w = worker
    · subst hw
      exact absurd
        (hunclosed (WorkerStage.eq_of_closes hcloses) hslot (hsocket.symm ▸ hwatched)) id
    · exact .inr ⟨w, (hothers hw).symm ▸ hcloses⟩

theorem attended_of_moved : ∀ token stream peer,
    (token, .stream stream) ∈ s'.engine.network.watched →
    s'.engine.network.peerAt stream = some peer → peer.source.isOutstanding = true →
    s'.Attends token := by
  intro token stream peer' hentry hpeer' houtstanding
  obtain ⟨stage, heffect, -⟩ := id h
  rcases heffect.mem_watched hentry with hold | ⟨index, place, slot, hbefore, rfl, hslot, hsocket⟩
  · obtain ⟨peer, hpeer, hbefore⟩ := heffect.isOutstanding hpeer' houtstanding
    exact attends_of_moved h ha hs hold hentry hpeer' houtstanding
      (ha.attended token stream peer hold hpeer hbefore)
  · rw [hbefore] at heffect
    obtain ⟨event, hevent, htoken⟩ := heffect.reported hslot hsocket.symm hpeer' houtstanding
    exact .inl ⟨event, .ready hevent, htoken⟩

/-- A step keeps everything looked after. -/
theorem of_moved : Attentive s' := by
  obtain ⟨stage, heffect, -⟩ := id h
  exact {
    small := heffect.capacity ▸ ha.small
    queue := (heffect.queue ha.queue).1
    prompt := heffect.isPrompt ha.prompt
    telling := telling_of_moved h ha hs
    current := current_of_moved h ha hs
    named := fun _ _ _ _ _ => h.token_eq hs ha.named
    watched := watched_of_moved h ha hs
    unwatched := unwatched_of_moved h ha hs
    attended := attended_of_moved h ha hs }

end Attentive

end Step

/-! ## The beginning -/

section Beginning

variable {c : Config} {memory : Allocator} {table : Table} {network : Network} {e : Engine}

theorem Engine.capacity_of_new (h : Engine.new c memory table network = .ok e) :
    e.arena.capacity = c.maxConnections.toNat := by
  obtain ⟨⟨ring, -, -, harena⟩, -⟩ := Engine.new_eq_ok h
  rw [harena]
  simp [Arena.capacity, Arena.put, Arena.modify, Arena.new]

/-- The listener is in the first place. -/
theorem Engine.listener_of_new (h : Engine.new c memory table network = .ok e) :
    ∃ slot, e.arena.slotAt Arena.listenerIndex = some slot ∧ slot.phase = .waiting ∧
      slot.socket = .listener := by
  obtain ⟨⟨ring, -, -, harena⟩, hplace, -⟩ := Engine.new_eq_ok h
  have hslot := (Arena.slotAt_new c.maxConnections.toNat c.connectionQueueCapacity.toNat
    Arena.listenerIndex).trans (if_pos hplace)
  rw [harena]
  exact ⟨_, Arena.slotAt_put_self hslot _, rfl, rfl⟩

/-- All places are of the first generation, and no client is in one. -/
theorem Engine.slotAt_of_new (h : Engine.new c memory table network = .ok e) {index : Nat}
    {slot : ConnectionSlot} (hslot : e.arena.slotAt index = some slot) :
    slot.generation = 0 ∧ ∀ stream, slot.socket ≠ .stream stream := by
  obtain ⟨⟨ring, -, -, harena⟩, hplace, -⟩ := Engine.new_eq_ok h
  have hempty := Arena.slotAt_new c.maxConnections.toNat c.connectionQueueCapacity.toNat
  rw [harena] at hslot
  by_cases hindex : index = Arena.listenerIndex
  · subst hindex
    rw [Arena.slotAt_put_self ((hempty Arena.listenerIndex).trans (if_pos hplace))] at hslot
    exact Option.some.inj hslot ▸ ⟨rfl, fun _ => Socket.noConfusion⟩
  · rw [Arena.slotAt_put_of_ne _ hindex, hempty] at hslot
    split at hslot
    · exact Option.some.inj hslot ▸ ⟨rfl, fun _ => Socket.noConfusion⟩
    · contradiction

/-- Only the listener is watched. -/
theorem Engine.watched_of_new (h : Engine.new c memory table network = .ok e)
    (hwatched : network.watched = []) :
    e.network.watched = [(ConnectionToken.encode Arena.listenerIndex 0, .listener)] := by
  obtain ⟨-, -, -, -, hwatch, -, -⟩ := Engine.new_eq_ok h
  rw [Network.watch_eq_ok hwatch, hwatched]
  rfl

/-- In the beginning there are events of the listener only. -/
theorem Workers.has_of_new (hnew : Engine.new c memory table network = .ok e)
    (hready : network.ready = []) {event : Event} (h : (beginning e).Has event) :
    event.token = ConnectionToken.encode Arena.listenerIndex 0 ∧ event.IsTelling := by
  obtain ⟨-, -, -, hwaiter, hwatch, -, -⟩ := Engine.new_eq_ok hnew
  cases h with
  | ready h =>
      rw [beginning, Network.watch_eq_ok hwatch, hready] at h
      refine Network.forall_mem_foldl_announce
        (P := fun f => f.token = ConnectionToken.encode Arena.listenerIndex 0 ∧ f.IsTelling)
        (fun _ _ _ hf _ => ⟨hf.1, Network.isTelling_merge (.inl hf.2)⟩)
        (fun f hf => by contradiction) (fun f hf => ?_) event h
      exact ⟨(Network.mem_pending hf).1, .inl (Network.mem_pending hf).2.1⟩
  | queued h => exact absurd ((queue_of_new hwaiter).2 ▸ h) List.not_mem_nil
  | carried w h => contradiction
  | placed index slot hslot h =>
      exact absurd ((tenanted_of_new hnew).events_eq_nil (fun _ => rfl) hslot ▸ h) List.not_mem_nil
  | taken w index h => contradiction

end Beginning

end KeyValueServer.Server
