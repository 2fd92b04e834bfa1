import KeyValueServer.Proofs.Workers.Clients

/-!
# Reports come in time

No event may come for a client before the client is watched. A poller keeps to that if it reports
only what it was once asked to watch, in any order and as often as it likes. A token names a
generation of a place, and the generation is a new one each time that the place is given to a
client, as long as no place is given back 2³² times. So what was reported for the clients before is
stale.
-/

namespace KeyValueServer.Server

/-! ## Phases of places -/

section Effects

variable {e e' : Engine} {worker index : Nat} {before after : WorkerStage}

/-- A place that is in use stays so until it is given back. -/
theorem Effect.phase_ne_free (h : Effect e worker before e' after)
    (hretire : before.retired? ≠ some index) {slot : ConnectionSlot}
    (hslot : e.arena.slotAt index = some slot) (hused : slot.phase ≠ .free) :
    ∃ slot', e'.arena.slotAt index = some slot' ∧ slot'.phase ≠ .free := by
  have hput {place : Nat} {old next : ConnectionSlot} (hold : e.arena.slotAt place = some old)
      (hnext : place = index → old.phase ≠ .free → next.phase ≠ .free) :
      ∃ slot', (e.arena.put place next).slotAt index = some slot' ∧ slot'.phase ≠ .free :=
    Arena.exists_slotAt_put hslot hused hold hnext
  cases h with
  | overflow hadmits => exact hput hadmits.found fun _ hphase => hphase
  | add hadmits => exact hput hadmits.found fun _ hphase => hphase
  | claim hadmits => exact hput hadmits.found fun _ _ => by simp
  | drain hold => exact hput hold fun _ _ => by simp
  | takeArrivals hold => exact hput hold fun _ hphase => hphase
  | takeMessages hold => exact hput hold fun _ hphase => hphase
  | install hold => exact hput hold fun _ hphase => hphase
  | activate hold => exact hput hold fun _ _ => by simp
  | close hold => exact hput hold fun _ hphase => hphase
  | retire hold => exact hput hold fun hplace => absurd (congrArg some hplace) hretire
  | _ => exact ⟨slot, hslot, hused⟩

/-- A worker declares a place idle for a client only after it has put the client's socket there. -/
theorem Effect.pending (h : Effect e worker before e' after)
    (hpending : after.pending? = some index) :
    before.pending? = some index ∨ ∃ i, before = .activating i index := by
  cases h with
  | activate =>
      obtain rfl := Option.some.inj hpending
      exact .inr ⟨_, rfl⟩
  | refuse => exact .inl hpending
  | @close _ next => cases next <;> exact .inl hpending
  | takeMessages =>
      split at hpending
      · contradiction
      · rw [apply_afterServing WorkerStage.pending? rfl rfl] at hpending
        contradiction
  | read =>
      rw [apply_afterReading WorkerStage.pending? rfl rfl rfl] at hpending
      contradiction
  | acceptFails | park | poll | leave => split at hpending <;> contradiction
  | @retire _ next | @recycle _ next => cases next <;> contradiction
  | _ => contradiction

end Effects

namespace Workers

/-! ## What the poller was asked to watch -/

/-- How often each place was given back, once a worker has taken its next step. -/
def returned (s : Workers) (worker : Nat) (returns : Nat → Nat) (index : Nat) : Nat :=
  if (s.stages worker).retired? = some index then returns index + 1 else returns index

theorem le_returned (s : Workers) (worker : Nat) (returns : Nat → Nat) (index : Nat) :
    returns index ≤ s.returned worker returns index := by
  rw [returned]
  split <;> omega

/-- What can come about with a poller that reports only what it was once asked to watch. With it go
the tokens that the poller was given so far, and how often each place was given back. -/
inductive Course (engine : Engine) (mayBecome : Network → Network → Prop) :
    Workers → (ConnectionToken → Prop) → (Nat → Nat) → Prop
  | beginning : Course engine mayBecome (beginning engine)
      (fun token => ∃ socket, (token, socket) ∈ engine.network.watched) fun _ => 0
  | work {s s' : Workers} {issued : ConnectionToken → Prop} {returns : Nat → Nat}
      (hs : Course engine mayBecome s issued returns) {worker : Nat} {answer : PollAnswer}
      (hstep : s.step worker answer = some s') :
      Course engine mayBecome s'
        (fun token => issued token ∨ ∃ socket, (token, socket) ∈ s'.engine.network.watched)
        (s.returned worker returns)
  | happen {s : Workers} {issued : ConnectionToken → Prop} {returns : Nat → Nat}
      (hs : Course engine mayBecome s issued returns) {network : Network}
      (hbecomes : mayBecome s.engine.network network)
      (hwatched : ∀ entry ∈ network.watched, entry ∈ s.engine.network.watched)
      (hready : ∀ event ∈ network.ready, issued event.token) :
      Course engine mayBecome (s.happen fun _ => network) issued returns

/-- The place is in use, and it is not being given to a client. -/
structure IsSettled (s : Workers) (place : Nat) : Prop where
  used : ∃ slot, s.engine.arena.slotAt place = some slot ∧ slot.phase ≠ .free
  given : ∀ worker, (s.stages worker).pending? ≠ some place

/-- The generation of a place is how often it was given back, and a token of the present generation
was issued only if the place is settled. -/
structure Punctual (s : Workers) (issued : ConnectionToken → Prop) (returns : Nat → Nat) :
    Prop where
  small : s.engine.arena.capacity ≤ UInt32.size
  queue : s.engine.waiter.queue.Sound
  counted : ∀ index slot, s.engine.arena.slotAt index = some slot →
    slot.generation.toNat = returns index
  named : ∀ worker index place token slot, s.stages worker = .registering index place token →
    s.engine.arena.slotAt place = some slot → token = ConnectionToken.encode place slot.generation
  watched : ∀ entry ∈ s.engine.network.watched, issued entry.1
  known : ∀ event, s.Has event → issued event.token
  past : ∀ token, issued token → token.generation.toNat ≤ returns token.index
  present : ∀ token, issued token → token.generation.toNat = returns token.index →
    s.IsSettled token.index

variable {s s' : Workers} {issued : ConnectionToken → Prop} {returns : Nat → Nat} {worker : Nat}

/-- An event that is on its way and of the present generation is of a client that is watched. -/
theorem Punctual.timely (hp : s.Punctual issued returns) : s.Timely := by
  intro event w place slot hunderway hpending hslot hindex hgeneration
  have hissued : issued event.token := by
    rcases hunderway with hready | hqueued | ⟨w', hcarries⟩
    · exact hp.known event (.ready hready)
    · exact hp.known event (.queued hqueued)
    · exact hp.known event (.carried w' hcarries)
  have hpresent : event.token.generation.toNat = returns event.token.index := by
    rw [← hgeneration, hindex]
    exact hp.counted place slot hslot
  exact (hp.present _ hissued hpresent).given w (hindex.symm ▸ hpending)

/-! ## One step -/

/-- A place that is settled stays so until it is given back. -/
theorem IsSettled.moved {place : Nat} (hsettled : s.IsSettled place) (h : s.Moved worker s')
    (hs : Tenanted s.engine.arena s.stages)
    (hretire : (s.stages worker).retired? ≠ some place) : s'.IsSettled place := by
  obtain ⟨⟨slot, hslot, hused⟩, hgiven⟩ := hsettled
  obtain ⟨stage, heffect, hstages⟩ := h
  refine ⟨heffect.phase_ne_free hretire hslot hused, fun w hpending => ?_⟩
  rw [hstages] at hpending
  by_cases hw : w = worker
  · subst hw
    rw [turn_self] at hpending
    rcases heffect.pending hpending with hbefore | ⟨i, hactivating⟩
    · exact hgiven w hbefore
    · have hheld : (place, Tenure.filled) ∈ (s.stages w).holds := by
        simp [hactivating, WorkerStage.holds]
      obtain ⟨-, slot', hslot', hfits⟩ := hs.of_mem_holds hheld
      obtain rfl := Option.some.inj (hslot.symm.trans hslot')
      exact hused hfits.phase
  · rw [turn_of_ne _ hw] at hpending
    exact hgiven w hpending

/-- The generation of a place goes up when the place is given back, and only then. -/
theorem Moved.toNat_generation (h : s.Moved worker s') {index : Nat} {slot' : ConnectionSlot}
    (hcounted : ∀ slot, s.engine.arena.slotAt index = some slot →
      slot.generation.toNat = returns index)
    (hbound : s.returned worker returns index < UInt32.size)
    (hslot' : s'.engine.arena.slotAt index = some slot') :
    slot'.generation.toNat = s.returned worker returns index := by
  rw [returned] at hbound ⊢
  by_cases hretire : (s.stages worker).retired? = some index
  · obtain ⟨stage, heffect, -⟩ := h
    obtain ⟨slot, hslot, hretired⟩ := heffect.retired hretire
    obtain rfl := Option.some.inj (hslot'.symm.trans hretired)
    rw [if_pos hretire] at hbound ⊢
    have hgeneration : slot.retired.generation = slot.generation + 1 := rfl
    rw [hgeneration, UInt32.toNat_add, hcounted slot hslot]
    exact Nat.mod_eq_of_lt hbound
  · obtain ⟨slot, hslot, hgeneration⟩ := h.exists_generation hretire hslot'
    rw [if_neg hretire, ← hgeneration]
    exact hcounted slot hslot

/-- A place that comes to be watched is settled, and the token has its generation. -/
theorem Punctual.registered (hp : s.Punctual issued returns) (h : s.Moved worker s')
    (hs : Tenanted s.engine.arena s.stages) {index place : Nat} {token : ConnectionToken}
    (hbefore : s.stages worker = .registering index place token)
    (hafter : s'.stages worker = .accepting index) :
    token.index = place ∧ token.generation.toNat = returns place ∧ s'.IsSettled place := by
  have hheld : (place, Tenure.presented) ∈ (s.stages worker).holds := by
    simp [hbefore, WorkerStage.holds]
  obtain ⟨-, slot, hslot, hfits⟩ := hs.of_mem_holds hheld
  have hplace : place < UInt32.size := (Arena.slotAt_lt hslot).trans_le hp.small
  have hused : slot.phase ≠ .free := by simp [hfits.phase, Keeper.phase, Tenure.phase]
  have hretire := hs.not_retired hheld (by decide) (by decide) worker
  obtain ⟨stage, heffect, hstages⟩ := h
  rw [hp.named _ _ _ _ _ hbefore hslot, ConnectionToken.index_encode hplace,
    ConnectionToken.generation_encode hplace]
  refine ⟨rfl, hp.counted place slot hslot, heffect.phase_ne_free hretire hslot hused,
    fun w hpending => ?_⟩
  by_cases hw : w = worker
  · rw [hw, hafter] at hpending
    contradiction
  · rw [hstages, turn_of_ne _ hw] at hpending
    obtain ⟨tenure, hheld', -⟩ := WorkerStage.pending?_eq_some_iff.mp hpending
    exact hw (hs.holder_unique hheld' hheld).1

theorem Punctual.moved (hp : s.Punctual issued returns) (h : s.Moved worker s')
    (hs : Tenanted s.engine.arena s.stages)
    (hbound : ∀ index, s.returned worker returns index < UInt32.size) :
    s'.Punctual (fun token => issued token ∨ ∃ socket, (token, socket) ∈ s'.engine.network.watched)
      (s.returned worker returns) := by
  obtain ⟨stage, heffect, hstages⟩ := id h
  have hnew {token : ConnectionToken}
      (hissued : issued token ∨ ∃ socket, (token, socket) ∈ s'.engine.network.watched) :
      issued token ∨ ∃ index place, s.stages worker = .registering index place token ∧
        s'.stages worker = .accepting index := by
    rcases hissued with hold | ⟨socket, hwatched⟩
    · exact .inl hold
    · rcases heffect.mem_watched hwatched with hold | ⟨index, place, slot, hbefore, rfl, -, -⟩
      · exact .inl (hp.watched _ hold)
      · exact .inr ⟨index, place, hbefore, by rw [hstages, turn_self]⟩
  exact {
    small := heffect.capacity ▸ hp.small
    queue := (heffect.queue hp.queue).1
    counted := fun index slot hslot =>
      h.toNat_generation (fun slot => hp.counted index slot) (hbound index) hslot
    named := fun _ _ _ _ _ => h.token_eq hs hp.named
    watched := fun entry hentry => .inr ⟨entry.2, hentry⟩
    known := h.forall_has hs.sound hp.queue (fun _ _ _ he _ => he)
      (fun index place token slot event hstage hslot hwatch hevent => by
        rw [(Network.mem_pending hevent).1, Network.watch_eq_ok hwatch]
        exact .inr ⟨slot.socket, List.mem_append_right _ (List.mem_singleton_self _)⟩)
      fun event hhas => .inl (hp.known event hhas)
    past := fun token hissued => by
      rcases hnew hissued with hold | ⟨index, place, hbefore, hafter⟩
      · exact (hp.past token hold).trans (s.le_returned worker returns _)
      · obtain ⟨rfl, hgeneration, -⟩ := hp.registered h hs hbefore hafter
        exact hgeneration.le.trans (s.le_returned worker returns _)
    present := fun token hissued hpresent => by
      rcases hnew hissued with hold | ⟨index, place, hbefore, hafter⟩
      · have hpast := hp.past token hold
        rw [returned] at hpresent
        split at hpresent
        next => omega
        next hretire => exact (hp.present token hold hpresent).moved h hs hretire
      · exact (hp.registered h hs hbefore hafter).1 ▸ (hp.registered h hs hbefore hafter).2.2 }

/-! ## Courses -/

variable {c : Config} {memory : Allocator} {table : Table} {network : Network} {engine : Engine}
  {mayBecome : Network → Network → Prop}

theorem Punctual.of_reports (hp : s.Punctual issued returns)
    (hwatched : ∀ entry ∈ network.watched, entry ∈ s.engine.network.watched)
    (hready : ∀ event ∈ network.ready, issued event.token) :
    (s.happen fun _ => network).Punctual issued returns where
  small := hp.small
  queue := hp.queue
  counted := hp.counted
  named := hp.named
  watched entry hentry := hp.watched entry (hwatched entry hentry)
  known event hhas := by
    cases hhas with
    | ready h => exact hready event h
    | queued h => exact hp.known event (.queued h)
    | carried w h => exact hp.known event (.carried w h)
    | placed index slot hslot h => exact hp.known event (.placed index slot hslot h)
    | taken w index h => exact hp.known event (.taken w index h)
  past := hp.past
  present token hissued hpresent := ⟨(hp.present token hissued hpresent).used,
    (hp.present token hissued hpresent).given⟩

/-- In the beginning the poller was asked to watch the listener. -/
theorem punctual_of_new (hnew : Engine.new c memory table network = .ok engine)
    (hplaces : c.maxConnections.toNat ≤ UInt32.size) (hwatched : network.watched = [])
    (hready : network.ready = []) :
    (beginning engine).Punctual (fun token => ∃ socket, (token, socket) ∈ engine.network.watched)
      fun _ => 0 := by
  have hentries := Engine.watched_of_new hnew hwatched
  have hissued (token : ConnectionToken) :
      (∃ socket, (token, socket) ∈ engine.network.watched) ↔
        token = ConnectionToken.encode Arena.listenerIndex 0 := by
    simp [hentries]
  obtain ⟨slot, hslot, hphase, -⟩ := Engine.listener_of_new hnew
  exact {
    small := (Engine.capacity_of_new hnew).trans_le hplaces
    queue := by
      obtain ⟨-, -, -, hwaiter, -⟩ := Engine.new_eq_ok hnew
      exact (queue_of_new hwaiter).1
    counted := fun index slot hslot => by
      rw [(Engine.slotAt_of_new hnew hslot).1]
      rfl
    named := fun w index place token slot hstage => by contradiction
    watched := fun entry hentry => ⟨entry.2, hentry⟩
    known := fun event hhas => (hissued _).mpr (has_of_new hnew hready hhas).1
    past := fun token htoken => by
      rw [(hissued token).mp htoken]
      rfl
    present := fun token htoken _ => by
      rw [(hissued token).mp htoken]
      refine ⟨⟨slot, hslot, by simp [hphase]⟩, fun w hpending => ?_⟩
      contradiction }

/-- Where no place is given back 2³² times, what comes about with a poller that reports only what it
was once asked to watch comes about in time. -/
theorem Course.reachable (hnew : Engine.new c memory table network = .ok engine)
    (hplaces : c.maxConnections.toNat ≤ UInt32.size) (hwatched : network.watched = [])
    (hready : network.ready = []) (h : Course engine mayBecome s issued returns)
    (hreturns : ∀ index, returns index < UInt32.size) :
    Reachable engine mayBecome Timely s ∧ s.Punctual issued returns := by
  induction h with
  | beginning => exact ⟨.beginning, punctual_of_new hnew hplaces hwatched hready⟩
  | @work s s' issued returns _ worker _ hstep ih =>
      obtain ⟨hs, hp⟩ := ih fun index =>
        (s.le_returned worker returns index).trans_lt (hreturns index)
      have htenanted := hs.tenanted hnew
      have hp' := hp.moved (htenanted.moved_of_step hstep) htenanted hreturns
      exact ⟨hs.work hstep hp'.timely, hp'⟩
  | happen _ hbecomes hwatched hready ih =>
      obtain ⟨hs, hp⟩ := ih hreturns
      have hp' := hp.of_reports hwatched hready
      exact ⟨hs.happen hbecomes hp'.timely, hp'⟩

/-! ## Runs -/

/-- Clients have the poller report only what it was asked to watch. -/
theorem Course.perform (hbecomes : ∀ (o : Occurrence) n, mayBecome n (o.change n))
    (h : Course engine mayBecome s issued returns) (hp : s.Punctual issued returns) {o : Occurrence}
    (hperform : s.perform o = some s') :
    ∃ issued' returns', Course engine mayBecome s' issued' returns' ∧
      ∀ index, returns' index ≤ returns index + 1 := by
  have hchange : ∃ issued' returns',
      Course engine mayBecome (s.happen fun _ => o.change s.engine.network) issued' returns' ∧
        ∀ index, returns' index ≤ returns index + 1 := by
    refine ⟨issued, returns, h.happen (hbecomes o _) (fun entry hentry => ?_) ?_,
      fun index => Nat.le_succ _⟩
    · exact (o.delivers_change s.engine.network).watched ▸ hentry
    · exact o.forall_ready (P := fun event => issued event.token) (fun _ _ _ he _ => he)
        (fun event hready => hp.known event (.ready hready))
        fun event socket hwatched _ _ => hp.watched _ hwatched
  cases o with
  | work worker answer =>
      refine ⟨_, _, h.work hperform, fun index => ?_⟩
      rw [returned]
      split <;> omega
  | _ => exact Option.some.inj hperform ▸ hchange

/-- In fewer than 2³² steps no place is given back as often as that. -/
theorem Course.exists_run (hnew : Engine.new c memory table network = .ok engine)
    (hplaces : c.maxConnections.toNat ≤ UInt32.size) (hwatched : network.watched = [])
    (hready : network.ready = []) (hbecomes : ∀ (o : Occurrence) n, mayBecome n (o.change n))
    {os : List Occurrence} (h : Course engine mayBecome s issued returns)
    (hreturns : ∀ index, returns index + os.length < UInt32.size) (hrun : s.run os = some s') :
    ∃ issued' returns', Course engine mayBecome s' issued' returns' ∧
      ∀ index, returns' index < UInt32.size := by
  induction os generalizing s issued returns with
  | nil => exact Option.some.inj hrun ▸ ⟨issued, returns, h, hreturns⟩
  | cons o os ih =>
      obtain ⟨next, hnext, hrun⟩ := Option.bind_eq_some_iff.mp hrun
      have hbound : ∀ index, returns index < UInt32.size := fun index =>
        (Nat.le_add_right _ _).trans_lt (hreturns index)
      have hp := (h.reachable hnew hplaces hwatched hready hbound).2
      obtain ⟨issued', returns', h', hle⟩ := h.perform hbecomes hp hnext
      refine ih h' (fun index => ?_) hrun
      have hbefore := hreturns index
      rw [List.length_cons] at hbefore
      have hafter := hle index
      omega

/-- Whatever the workers and the clients do comes about in time, in fewer than 2³² steps. -/
theorem Reachable.of_run (hnew : Engine.new c memory table network = .ok engine)
    (hplaces : c.maxConnections.toNat ≤ UInt32.size) (hwatched : network.watched = [])
    (hready : network.ready = []) (hbecomes : ∀ (o : Occurrence) n, mayBecome n (o.change n))
    {os : List Occurrence} (hrun : (Workers.beginning engine).run os = some s)
    (hlength : os.length < UInt32.size) : Reachable engine mayBecome Timely s := by
  obtain ⟨issued, returns, h, hreturns⟩ :=
    Course.exists_run hnew hplaces hwatched hready hbecomes .beginning (by simpa using hlength) hrun
  exact (h.reachable hnew hplaces hwatched hready hreturns).1

end Workers

end KeyValueServer.Server
