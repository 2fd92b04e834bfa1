import KeyValueServer.Proofs.Connection.Places
import KeyValueServer.Server.Workers

/-!
# Who has a place

A place of the pool is in the line of free ones, or some worker has it, or nobody does and it waits
for its next event. How far a worker has come with a place is its tenure. The tenure decides the
phase and the socket of the place, and a place has events only while a worker serves it. That all
places are tenanted so is the invariant of the workers; one step changes the tenant of one place at
most.
-/

namespace KeyValueServer

/-- A place in use has its socket: the first one that of the listener, the others that of a client.
-/
def ConnectionSlot.IsOpen (s : ConnectionSlot) (index : Nat) : Prop :=
  if index = Arena.listenerIndex then s.role = .listener ∧ s.socket = .listener
  else s.role = .message ∧ ∃ stream, s.socket = .stream stream

namespace Server

/-- How far a worker has come with a place that it has. -/
inductive Tenure where
  -- while the place is being served
  | serving
  | reading
  | accepting
  | closed
  -- while the place is taken into use, or given back
  | emptied
  | filled
  | presented
  | withdrawn
deriving DecidableEq

/-- The phase of a place by how far a worker has come with it. -/
def Tenure.phase : Tenure → ConnectionPhase
  | serving | reading | accepting | closed => .running
  | emptied | filled => .free
  | presented | withdrawn => .waiting

/-- The socket of a place by how far a worker has come with it. -/
def Tenure.Suits (tenure : Tenure) (index : Nat) (slot : ConnectionSlot) : Prop :=
  match tenure with
  | serving => slot.IsOpen index
  | accepting => index = Arena.listenerIndex ∧ slot.IsOpen index
  | reading | presented => index ≠ Arena.listenerIndex ∧ slot.IsOpen index
  | filled => index ≠ Arena.listenerIndex ∧ ∃ stream, slot.socket = .stream stream
  | closed | emptied | withdrawn => index ≠ Arena.listenerIndex ∧ slot.socket = .closed

/-- Who has a place. -/
inductive Keeper where
  | line
  | nobody
  | worker (worker : Nat) (tenure : Tenure)

namespace Keeper

def phase : Keeper → ConnectionPhase
  | line => .free
  | nobody => .waiting
  | worker _ tenure => tenure.phase

def Suits : Keeper → Nat → ConnectionSlot → Prop
  | line, index, slot => index ≠ Arena.listenerIndex ∧ slot.socket = .closed
  | nobody, index, slot => slot.IsOpen index
  | worker _ tenure, index, slot => tenure.Suits index slot

/-- What a place is like by who has it. -/
structure Fits (keeper : Keeper) (index : Nat) (slot : ConnectionSlot) : Prop where
  phase : slot.phase = keeper.phase
  busy : slot.events ≠ [] → keeper.phase = .running
  suits : keeper.Suits index slot

/-- A place that does not exist is nobody's. -/
def FitsAt (keeper : Keeper) (index : Nat) : Option ConnectionSlot → Prop
  | some slot => keeper.Fits index slot
  | none => keeper = .nobody

/-- Whether the place is some other worker's. -/
def isOthers (keeper : Keeper) (own : Nat) : Bool :=
  match keeper with
  | worker w _ => w != own
  | _ => false

theorem ne_worker_of_isOthers {keeper : Keeper} {own other : Nat} (h : keeper.isOthers own = false)
    (hne : other ≠ own) (tenure : Tenure) : keeper ≠ .worker other tenure := by
  rintro rfl
  exact hne (by simpa [isOthers] using h)

theorem Suits.congr {keeper : Keeper} {index : Nat} {slot next : ConnectionSlot}
    (h : keeper.Suits index slot) (hrole : next.role = slot.role)
    (hsocket : next.socket = slot.socket) : keeper.Suits index next := by
  rcases keeper with _ | _ | ⟨_, tenure⟩
  · simpa only [Suits, hsocket] using h
  · simpa only [Suits, ConnectionSlot.IsOpen, hrole, hsocket] using h
  · cases tenure <;>
      simpa only [Suits, Tenure.Suits, ConnectionSlot.IsOpen, hrole, hsocket] using h

theorem Fits.quiet {keeper : Keeper} {index : Nat} {slot : ConnectionSlot}
    (h : keeper.Fits index slot) (hphase : keeper.phase ≠ .running) : slot.events = [] :=
  Decidable.byContradiction fun hevents => hphase (h.busy hevents)

end Keeper

/-- The places that a worker has, and how far it has come with each. -/
def WorkerStage.holds : WorkerStage → List (Nat × Tenure)
  | taking index => [(index, .serving)]
  | opening index _ => [(index, .reading)]
  | reading index _ => [(index, .reading)]
  | accepting index => [(index, .accepting)]
  | reserving index _ => [(index, .accepting)]
  | installing index place _ => [(index, .accepting), (place, .emptied)]
  | activating index place => [(index, .accepting), (place, .filled)]
  | registering index place _ => [(index, .accepting), (place, .presented)]
  | closing place .claiming => [(place, .reading)]
  | closing place (.accepting index) => [(index, .accepting), (place, .presented)]
  | retiring place .claiming => [(place, .closed)]
  | retiring place (.accepting index) => [(index, .accepting), (place, .withdrawn)]
  | recycling place .claiming => [(place, .emptied)]
  | recycling place (.accepting index) => [(index, .accepting), (place, .emptied)]
  | _ => []

/-- The stages after one worker has gone on to another. -/
def turn (stages : Nat → WorkerStage) (worker : Nat) (stage : WorkerStage) : Nat → WorkerStage :=
  fun w => if w = worker then stage else stages w

theorem turn_self (stages : Nat → WorkerStage) (worker : Nat) (stage : WorkerStage) :
    turn stages worker stage worker = stage := if_pos rfl

theorem turn_of_ne (stages : Nat → WorkerStage) {worker other : Nat} (h : other ≠ worker)
    (stage : WorkerStage) : turn stages worker stage other = stages other := if_neg h

theorem turn_eq_of_eq {stages : Nat → WorkerStage} {worker : Nat} {stage : WorkerStage}
    (h : stages worker = stage) : turn stages worker stage = stages := by
  funext w
  by_cases hw : w = worker
  · rw [hw, turn_self, h]
  · exact turn_of_ne _ hw _

/-- Who has a place, in a pool and by the stages of its workers. -/
structure Keeps (a : Arena) (stages : Nat → WorkerStage) (index : Nat) (keeper : Keeper) :
    Prop where
  line : index ∈ a.free ↔ keeper = .line
  worker : ∀ w tenure, (index, tenure) ∈ (stages w).holds ↔ keeper = .worker w tenure

/-- Every place is as who has it demands. -/
structure Tenanted (a : Arena) (stages : Nat → WorkerStage) : Prop where
  sound : a.Sound
  once : a.free.Nodup
  kept : ∀ index, ∃ keeper, Keeps a stages index keeper ∧ keeper.FitsAt index (a.slotAt index)

variable {a a' : Arena} {stages : Nat → WorkerStage} {worker index place : Nat} {tenure : Tenure}
  {keeper keeper' : Keeper} {slot next : ConnectionSlot} {stage : WorkerStage}

/-! ## Reading the invariant -/

theorem Keeps.unique (h : Keeps a stages index keeper) (h' : Keeps a stages index keeper') :
    keeper = keeper' := by
  cases keeper with
  | line => exact (h'.line.mp (h.line.mpr rfl)).symm
  | worker w tenure => exact ((h'.worker w tenure).mp ((h.worker w tenure).mpr rfl)).symm
  | nobody =>
      cases keeper' with
      | line => exact h.line.mp (h'.line.mpr rfl)
      | worker w tenure => exact (h.worker w tenure).mp ((h'.worker w tenure).mpr rfl)
      | nobody => rfl

namespace Tenanted

theorem of_slotAt (hs : Tenanted a stages) (h : a.slotAt index = some slot) :
    ∃ keeper, Keeps a stages index keeper ∧ keeper.Fits index slot := by
  obtain ⟨keeper, hkeeps, hfits⟩ := hs.kept index
  rw [h] at hfits
  exact ⟨keeper, hkeeps, hfits⟩

theorem of_keeps (hs : Tenanted a stages) (h : Keeps a stages index keeper)
    (hkeeper : keeper ≠ .nobody) :
    ∃ slot, a.slotAt index = some slot ∧ keeper.Fits index slot := by
  obtain ⟨keeper', hkeeps, hfits⟩ := hs.kept index
  obtain rfl := h.unique hkeeps
  cases hslot : a.slotAt index with
  | none =>
      rw [hslot] at hfits
      exact absurd hfits hkeeper
  | some slot =>
      rw [hslot] at hfits
      exact ⟨slot, rfl, hfits⟩

theorem of_mem_holds (hs : Tenanted a stages) (h : (index, tenure) ∈ (stages worker).holds) :
    Keeps a stages index (.worker worker tenure) ∧
      ∃ slot, a.slotAt index = some slot ∧ (Keeper.worker worker tenure).Fits index slot := by
  obtain ⟨keeper, hkeeps, -⟩ := hs.kept index
  obtain rfl := (hkeeps.worker worker tenure).mp h
  exact ⟨hkeeps, hs.of_keeps hkeeps (by simp)⟩

/-- Only one worker has a place, and it has come equally far with it in every respect. -/
theorem holder_unique (hs : Tenanted a stages) {other : Nat} {tenure' : Tenure}
    (h : (index, tenure) ∈ (stages worker).holds) (h' : (index, tenure') ∈ (stages other).holds) :
    worker = other ∧ tenure = tenure' :=
  Keeper.worker.inj ((hs.of_mem_holds h).1.unique (hs.of_mem_holds h').1)

theorem ne_of_mem_holds (hs : Tenanted a stages) {tenure' : Tenure}
    (h : (index, tenure) ∈ (stages worker).holds) (h' : (place, tenure') ∈ (stages worker).holds)
    (hne : tenure ≠ tenure') : place ≠ index := by
  rintro rfl
  exact hne (hs.holder_unique h h').2

theorem of_mem_free (hs : Tenanted a stages) (h : index ∈ a.free) :
    Keeps a stages index .line ∧
      ∃ slot, a.slotAt index = some slot ∧ Keeper.line.Fits index slot := by
  obtain ⟨keeper, hkeeps, -⟩ := hs.kept index
  obtain rfl := hkeeps.line.mp h
  exact ⟨hkeeps, hs.of_keeps hkeeps (by simp)⟩

end Tenanted

/-! ## Changing the tenant of a place -/

/-- A worker has the place before or after its step, and no other worker is concerned. -/
theorem Keeps.turn (h : Keeps a stages place keeper) (hbefore : keeper.isOthers worker = false)
    (hafter : keeper'.isOthers worker = false)
    (hmine : ∀ tenure, (place, tenure) ∈ stage.holds ↔ keeper' = .worker worker tenure)
    (hline : place ∈ a'.free ↔ keeper' = .line) :
    Keeps a' (turn stages worker stage) place keeper' where
  line := hline
  worker w tenure := by
    by_cases hw : w = worker
    · subst hw
      rw [turn_self]
      exact hmine tenure
    · rw [turn_of_ne _ hw, h.worker]
      exact iff_of_false (Keeper.ne_worker_of_isOthers hbefore hw tenure)
        (Keeper.ne_worker_of_isOthers hafter hw tenure)

/-- A place at which neither the line nor the worker has changed anything. -/
theorem Keeps.congr (h : Keeps a stages index keeper) (hfree : index ∈ a'.free ↔ index ∈ a.free)
    (hholds : ∀ tenure, (index, tenure) ∈ stage.holds ↔ (index, tenure) ∈ (stages worker).holds) :
    Keeps a' (Server.turn stages worker stage) index keeper where
  line := hfree.trans h.line
  worker w tenure := by
    rw [← h.worker]
    by_cases hw : w = worker
    · subst hw
      rw [turn_self]
      exact hholds tenure
    · rw [turn_of_ne _ hw]

namespace Tenanted

/-- A step that leaves the pool alone and the places of the worker with it. -/
theorem goOn (hs : Tenanted a stages)
    (hholds : ∀ index tenure, (index, tenure) ∈ stage.holds ↔
      (index, tenure) ∈ (stages worker).holds) :
    Tenanted a (turn stages worker stage) where
  sound := hs.sound
  once := hs.once
  kept index := by
    obtain ⟨keeper, hkeeps, hfits⟩ := hs.kept index
    exact ⟨keeper, hkeeps.congr Iff.rfl (hholds index), hfits⟩

/-- A step that concerns one place. -/
theorem move (hs : Tenanted a stages) (place : Nat) (keeper : Keeper) (hsound : a'.Sound)
    (honce : a'.free.Nodup)
    (hslots : ∀ index, index ≠ place → a'.slotAt index = a.slotAt index)
    (hfree : ∀ index, index ≠ place → (index ∈ a'.free ↔ index ∈ a.free))
    (hholds : ∀ index, index ≠ place → ∀ tenure,
      (index, tenure) ∈ stage.holds ↔ (index, tenure) ∈ (stages worker).holds)
    (hkeeps : Keeps a' (Server.turn stages worker stage) place keeper)
    (hfits : keeper.FitsAt place (a'.slotAt place)) :
    Tenanted a' (Server.turn stages worker stage) where
  sound := hsound
  once := honce
  kept index := by
    by_cases hindex : index = place
    · subst hindex
      exact ⟨keeper, hkeeps, hfits⟩
    · obtain ⟨keeper, hkeeps, hfits⟩ := hs.kept index
      rw [← hslots index hindex] at hfits
      exact ⟨keeper, hkeeps.congr (hfree index hindex) (hholds index hindex), hfits⟩

/-- A step that changes one place and leaves the line of free ones alone. -/
theorem put (hs : Tenanted a stages) (keeper : Keeper) (hslot : a.slotAt place = some slot)
    (hring : ∀ ring, next.ring = some ring → ring.Sound)
    (hholds : ∀ index, index ≠ place → ∀ tenure,
      (index, tenure) ∈ stage.holds ↔ (index, tenure) ∈ (stages worker).holds)
    (hkeeps : Keeps a (Server.turn stages worker stage) place keeper)
    (hfits : keeper.Fits place next) :
    Tenanted (a.put place next) (Server.turn stages worker stage) := by
  refine hs.move place keeper (hs.sound.put hring) hs.once (fun _ h => a.slotAt_put_of_ne h next)
    (fun _ _ => Iff.rfl) hholds ⟨hkeeps.line, hkeeps.worker⟩ ?_
  rw [Arena.slotAt_put_self hslot]
  exact hfits

/-- A step that takes a worker further with a place that it has. -/
theorem progress (hs : Tenanted a stages) (hheld : (place, tenure) ∈ (stages worker).holds)
    (tenure' : Tenure) (hslot : a.slotAt place = some slot)
    (hring : ∀ ring, next.ring = some ring → ring.Sound)
    (hothers : ∀ index, index ≠ place → ∀ tenure,
      (index, tenure) ∈ stage.holds ↔ (index, tenure) ∈ (stages worker).holds)
    (hmine : ∀ other, (place, other) ∈ stage.holds ↔ other = tenure')
    (hfits : (Keeper.worker worker tenure).Fits place slot →
      (Keeper.worker worker tenure').Fits place next) :
    Tenanted (a.put place next) (Server.turn stages worker stage) := by
  obtain ⟨hkeeps, slot', hslot', hfits'⟩ := hs.of_mem_holds hheld
  obtain rfl := Option.some.inj (hslot.symm.trans hslot')
  refine hs.put (.worker worker tenure') hslot hring hothers (hkeeps.turn ?_ ?_ ?_ ?_)
    (hfits hfits')
  · simp [Keeper.isOthers]
  · simp [Keeper.isOthers]
  · intro other
    rw [hmine other, Keeper.worker.injEq, eq_comm (a := other)]
    simp
  · simp [hkeeps.line]

end Tenanted

end Server

end KeyValueServer
