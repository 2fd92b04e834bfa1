import KeyValueServer.Proofs.Connection.Tokens

/-!
# A token names one installation

Places of the pool are handed out, taken into use, given back and handed out again, while events
with the tokens of earlier connections are still on their way. A token is accepted exactly as long
as the connection for which it was made is in its place. The generation of a place wraps around
after 2³² returns; until then no token is taken for that of a later connection.
-/

namespace KeyValueServer

/-! ## Pools in use -/

/-- How far a place has come on its way from one hand-out to the next. -/
inductive Lot where
  | unused
  | handedOut
  | installed
  | returned
deriving DecidableEq

/-- An installation that was made: its place, the token that was issued for it, and how often the
place was given back since. -/
structure Installation where
  index : Nat
  token : ConnectionToken
  returns : Nat
deriving DecidableEq

/-- An engine, how far each place of its pool has come, and the installations that were made so far,
the latest first. -/
structure Occupancy where
  engine : Server.Engine
  lots : Nat → Lot
  issued : List Installation

/-- What can happen next to a pool. Installing a socket and giving a place back take more than one
move, since the two halves of a place have locks of their own. -/
inductive PoolMove where
  | allocate
  -- an installation
  | equip (index : Nat) (socket : Socket)
  | activate (index : Nat) (role : ConnectionRole)
  -- giving a place back
  | close (index : Nat)
  | retire (index : Nat)
  | recycle (index : Nat)
  -- events
  | route (event : Event)
  | take (index : Nat)
  -- whatever is done outside the pool
  | elsewhere (engine : Server.Engine)

/-- An installation after a place was given back. -/
def Installation.aged (i : Installation) (index : Nat) : Installation :=
  if i.index = index then { i with returns := i.returns + 1 } else i

namespace Installation

theorem index_aged (i : Installation) (index : Nat) : (i.aged index).index = i.index := by
  unfold aged
  split <;> rfl

theorem token_aged (i : Installation) (index : Nat) : (i.aged index).token = i.token := by
  unfold aged
  split <;> rfl

theorem returns_aged (i : Installation) (index : Nat) :
    (i.aged index).returns = if i.index = index then i.returns + 1 else i.returns := by
  unfold aged
  split <;> rfl

end Installation

/-- Whether the place of an installation was not given back since. -/
def Installation.isLive (i : Installation) : Bool := i.returns == 0

namespace Occupancy

/-- An engine in whose pool no installation was made yet. The place of the listener needs not to be
handed out. -/
def opened (engine : Server.Engine) : Occupancy :=
  ⟨engine, fun index => if index = Arena.listenerIndex then .handedOut else .unused, []⟩

/-- Say how far a place has come. -/
def setLot (s : Occupancy) (index : Nat) (lot : Lot) : Occupancy :=
  { s with lots := fun i => if i = index then lot else s.lots i }

/-- Change the pool. -/
def setArena (s : Occupancy) (arena : Arena) : Occupancy :=
  let engine := { s.engine with arena }
  { s with engine }

/-- A place that was handed out is taken into use once, and is given back once. -/
def permits (s : Occupancy) : PoolMove → Bool
  | .equip index _ => s.lots index = .handedOut
  | .activate index _ => s.lots index = .handedOut
  | .close index => s.lots index = .installed
  | .retire index => s.lots index = .handedOut ∨ s.lots index = .installed
  | .recycle index => s.lots index = .returned
  | _ => true

def perform (s : Occupancy) : PoolMove → Occupancy
  | .allocate =>
      match s.engine.arena.allocate with
      | none => s
      | some (index, arena) => (s.setArena arena).setLot index .handedOut
  | .equip index socket => s.setArena (s.engine.arena.setSocket index socket)
  | .activate index role =>
      match s.engine.arena.activate index role with
      | (.error _, arena) => (s.setArena arena).setLot index .installed
      | (.ok token, arena) =>
          { (s.setArena arena).setLot index .installed with
            issued := ⟨index, token, 0⟩ :: s.issued }
  | .close index => { s with engine := s.engine.closeSocket index }
  | .retire index =>
      { s.setLot index .returned with
        engine := s.engine.retire index
        issued := s.issued.map (·.aged index) }
  | .recycle index => { s.setLot index .unused with engine := s.engine.recycle index }
  | .route event => { s with engine := (s.engine.route event).2 }
  | .take index => { s with engine := (s.engine.takeEvent index).2 }
  | .elsewhere engine =>
      let engine := { engine with arena := s.engine.arena }
      { s with engine }

/-- An installation is two moves. Others can come between them. -/
theorem perform_install (s : Occupancy) (index : Nat) (role : ConnectionRole) (socket : Socket) :
    ((s.perform (.equip index socket)).perform (.activate index role)).engine.arena =
        (s.engine.arena.install index role socket).2 ∧
      ∀ token, (s.engine.arena.install index role socket).1 = .ok token →
        ((s.perform (.equip index socket)).perform (.activate index role)).issued =
          ⟨index, token, 0⟩ :: s.issued := by
  simp only [perform, setArena, Arena.install]
  generalize (s.engine.arena.setSocket index socket).activate index role = result
  obtain ⟨outcome, arena⟩ := result
  cases outcome with
  | error fault =>
      refine ⟨rfl, fun token htoken => ?_⟩
      contradiction
  | ok issued =>
      refine ⟨rfl, fun token htoken => ?_⟩
      rw [← Except.ok.inj htoken]

/-- Giving a place back is three moves. -/
theorem perform_release (s : Occupancy) {index : Nat} (hindex : index < s.engine.arena.capacity) :
    s.engine.arena.release index =
      .ok (((s.perform (.close index)).perform (.retire index)).perform
        (.recycle index)).engine.arena :=
  if_pos hindex

/-- What comes about from an engine in whose pool no installation was made yet. -/
inductive Reachable (engine : Server.Engine) : Occupancy → Prop
  | opened : Reachable engine (opened engine)
  | move {s : Occupancy} (hs : Reachable engine s) (m : PoolMove) (hpermits : s.permits m = true) :
      Reachable engine (s.perform m)

/-- Whether a list of moves can be made one after the other. -/
def allows (s : Occupancy) : List PoolMove → Bool
  | [] => true
  | m :: rest => s.permits m && (s.perform m).allows rest

theorem Reachable.run {engine : Server.Engine} {s : Occupancy} (hs : Reachable engine s)
    (moves : List PoolMove) (h : s.allows moves = true) :
    Reachable engine (moves.foldl perform s) := by
  induction moves generalizing s with
  | nil => exact hs
  | cons m rest ih =>
      simp only [allows, Bool.and_eq_true] at h
      exact ih (hs.move m h.1) h.2

/-! ## The invariant -/

/-- A place is in use from its installation until it is given back, and its generation counts the
returns of all installations in it. -/
structure Orderly (s : Occupancy) : Prop where
  once : s.engine.arena.free.Nodup
  line : ∀ index ∈ s.engine.arena.free, s.lots index = .unused
  place : ∀ index generation used,
    (s.engine.arena.slotAt index).map ConnectionSlot.usage = some (generation, used) →
      index < UInt32.size ∧ (used = true ↔ s.lots index = .installed)
  named : ∀ i ∈ s.issued, ∃ generation used, i.token = ConnectionToken.encode i.index generation ∧
    (s.engine.arena.slotAt i.index).map ConnectionSlot.usage =
      some (generation + UInt32.ofNat i.returns, used)
  live : ∀ i ∈ s.issued, i.returns = 0 → s.lots i.index = .installed
  succession : s.issued.Pairwise fun later earlier =>
    later.index = earlier.index → 0 < earlier.returns

variable {engine : Server.Engine} {s : Occupancy} {index : Nat}

/-- What serves a place without taking it into use or out of it keeps the invariant. -/
theorem Orderly.served (hs : s.Orderly) {e : Server.Engine}
    (h : s.engine.arena.ServedAt index e.arena) : Orderly { s with engine := e } where
  once := h.free ▸ hs.once
  line := h.free ▸ hs.line
  place index generation used husage :=
    hs.place index generation used ((h.usage_at index).symm.trans husage)
  named i hi := by
    obtain ⟨generation, used, htoken, husage⟩ := hs.named i hi
    exact ⟨generation, used, htoken, (h.usage_at i.index).trans husage⟩
  live := hs.live
  succession := hs.succession

theorem setLot_self (s : Occupancy) (index : Nat) (lot : Lot) :
    (s.setLot index lot).lots index = lot := if_pos rfl

theorem setLot_of_ne (s : Occupancy) {other : Nat} (h : other ≠ index) (lot : Lot) :
    (s.setLot index lot).lots other = s.lots other := if_neg h

theorem Orderly.allocate (hs : s.Orderly) {free : List Nat}
    (hfree : s.engine.arena.free = index :: free) :
    ((s.setArena { s.engine.arena with free }).setLot index .handedOut).Orderly := by
  have honce := hs.once
  rw [hfree, List.nodup_cons] at honce
  have hunused : s.lots index = .unused := hs.line index (by simp [hfree])
  have hinstalled (other : Nat) :
      ((s.setArena { s.engine.arena with free }).setLot index .handedOut).lots other = .installed ↔
        s.lots other = .installed := by
    by_cases hother : other = index
    · subst hother
      simp [setLot_self, hunused]
    · rw [setLot_of_ne _ hother]
      rfl
  exact {
    once := honce.2
    line := fun other hother => by
      have hne : other ≠ index := by
        rintro rfl
        exact honce.1 hother
      rw [setLot_of_ne _ hne]
      exact hs.line other (hfree ▸ List.mem_cons_of_mem index hother)
    place := fun other generation used husage =>
      ⟨(hs.place other generation used husage).1,
        (hs.place other generation used husage).2.trans (hinstalled other).symm⟩
    named := hs.named
    live := fun i hi hreturns => (hinstalled i.index).mpr (hs.live i hi hreturns)
    succession := hs.succession }

/-- A place that was handed out holds no installation whose place was not given back since. -/
theorem Orderly.returns_pos (hs : s.Orderly) (hlot : s.lots index ≠ .installed) {i : Installation}
    (hi : i ∈ s.issued) (hindex : i.index = index) : 0 < i.returns := by
  apply Nat.pos_of_ne_zero
  intro hreturns
  exact hlot (hindex ▸ hs.live i hi hreturns)

theorem Orderly.install (hs : s.Orderly) {slot next : ConnectionSlot}
    (hlot : s.lots index = .handedOut) (hslot : s.engine.arena.slotAt index = some slot)
    (hnext : next.usage = (slot.generation, true)) :
    ((s.setArena (s.engine.arena.put index next)).setLot index .installed).Orderly where
  once := hs.once
  line other hother := by
    have hne : other ≠ index := by
      rintro rfl
      simpa [hlot] using hs.line other hother
    rw [setLot_of_ne _ hne]
    exact hs.line other hother
  place other generation used husage := by
    by_cases hother : other = index
    · subst hother
      have hbefore := hs.place other slot.generation _ (by rw [hslot]; rfl)
      refine ⟨hbefore.1, ?_⟩
      have hafter : (s.engine.arena.put other next).slotAt other = some next :=
        Arena.slotAt_put_self hslot next
      rw [setLot_self]
      simp only [setLot, setArena, hafter, Option.map_some, hnext, Option.some.injEq,
        Prod.mk.injEq] at husage
      simp [← husage.2]
    · rw [setLot_of_ne _ hother]
      refine hs.place other generation used ?_
      rw [← Arena.slotAt_put_of_ne s.engine.arena hother next]
      exact husage
  named i hi := by
    obtain ⟨generation, used, htoken, husage⟩ := hs.named i hi
    by_cases hindex : i.index = index
    · refine ⟨generation, true, htoken, ?_⟩
      have hafter : (s.engine.arena.put index next).slotAt index = some next :=
        Arena.slotAt_put_self hslot next
      rw [hindex, hslot, Option.map_some, Option.some.injEq] at husage
      simp only [setLot, setArena, hindex, hafter, Option.map_some, hnext]
      rw [← (Prod.mk.inj husage).1]
    · refine ⟨generation, used, htoken, ?_⟩
      rw [← husage, ← Arena.slotAt_put_of_ne s.engine.arena hindex next]
      rfl
  live i hi hreturns := by
    by_cases hindex : i.index = index
    · rw [hindex, setLot_self]
    · rw [setLot_of_ne _ hindex]
      exact hs.live i hi hreturns
  succession := hs.succession

/-- A token that is issued for a place in which no earlier installation is live. -/
theorem Orderly.issue (hs : s.Orderly) {generation : UInt32}
    (hlot : s.lots index = .installed)
    (husage : (s.engine.arena.slotAt index).map ConnectionSlot.usage = some (generation, true))
    (hearlier : ∀ i ∈ s.issued, index = i.index → 0 < i.returns) :
    Orderly { s with
      issued := ⟨index, ConnectionToken.encode index generation, 0⟩ :: s.issued } where
  once := hs.once
  line := hs.line
  place := hs.place
  named i hi := by
    rcases List.mem_cons.mp hi with rfl | hi
    · exact ⟨generation, true, rfl, by simpa using husage⟩
    · exact hs.named i hi
  live i hi hreturns := by
    rcases List.mem_cons.mp hi with rfl | hi
    · exact hlot
    · exact hs.live i hi hreturns
  succession := List.pairwise_cons.mpr ⟨hearlier, hs.succession⟩

theorem Orderly.activate (hs : s.Orderly) (role : ConnectionRole)
    (hlot : s.lots index = .handedOut) : (s.perform (.activate index role)).Orderly := by
  rcases s.engine.arena.activate_cases index role with ⟨hnone, hresult⟩ |
    ⟨slot, next, hslot, hnext, hresult | hresult⟩
  · simp only [perform, hresult]
    exact {
      once := hs.once
      line := fun other hother => by
        have hne : other ≠ index := by
          rintro rfl
          simpa [hlot] using hs.line other hother
        rw [setLot_of_ne _ hne]
        exact hs.line other hother
      place := fun other generation used husage => by
        have hne : other ≠ index := by
          rintro rfl
          have hslots : (s.engine.arena.slotAt other).map ConnectionSlot.usage =
            some (generation, used) := husage
          simp [hnone] at hslots
        rw [setLot_of_ne _ hne]
        exact hs.place other generation used husage
      named := hs.named
      live := fun i hi hreturns => by
        have hne : i.index ≠ index := by
          rintro hindex
          simpa [hindex, hlot] using hs.live i hi hreturns
        rw [setLot_of_ne _ hne]
        exact hs.live i hi hreturns
      succession := hs.succession }
  · simp only [perform, hresult]
    exact hs.install hlot hslot hnext
  · simp only [perform, hresult]
    have hafter : (s.engine.arena.put index next).slotAt index = some next :=
      Arena.slotAt_put_self hslot next
    refine (hs.install hlot hslot hnext).issue (setLot_self _ _ _) ?_ ?_
    · simp only [setLot, setArena, hafter, Option.map_some, hnext]
    · intro i hi hindex
      exact hs.returns_pos (by simp [hlot]) hi hindex.symm

theorem Orderly.retire (hs : s.Orderly)
    (hlot : s.lots index = .handedOut ∨ s.lots index = .installed) :
    (s.perform (.retire index)).Orderly where
  once := hs.once
  line other hother := by
    have hne : other ≠ index := by
      rintro rfl
      rcases hlot with hlot | hlot <;> simpa [hlot] using hs.line other hother
    rw [perform, setLot_of_ne _ hne]
    exact hs.line other hother
  place other generation used husage := by
    rw [perform, Server.Engine.retire, Arena.usage_retire] at husage
    by_cases hother : index = other
    · subst hother
      rw [if_pos rfl] at husage
      obtain ⟨slot, hslot, hnext⟩ := Option.map_eq_some_iff.mp husage
      refine ⟨(hs.place index slot.generation _ (by rw [hslot]; rfl)).1, ?_⟩
      rw [perform, setLot_self, ← (Prod.mk.inj hnext).2]
      simp
    · rw [if_neg hother] at husage
      rw [perform, setLot_of_ne _ (Ne.symm hother)]
      exact hs.place other generation used husage
  named i hi := by
    obtain ⟨j, hj, rfl⟩ := List.mem_map.mp hi
    obtain ⟨generation, used, htoken, husage⟩ := hs.named j hj
    rw [Installation.index_aged, Installation.token_aged, perform, Server.Engine.retire,
      Arena.usage_retire]
    by_cases hindex : index = j.index
    · obtain ⟨slot, hslot, hcurrent⟩ := Option.map_eq_some_iff.mp husage
      refine ⟨generation, false, htoken, ?_⟩
      rw [if_pos hindex, hslot, Option.map_some, (Prod.mk.inj hcurrent).1,
        Installation.returns_aged, if_pos hindex.symm, UInt32.ofNat_add, UInt32.add_assoc]
      rfl
    · refine ⟨generation, used, htoken, ?_⟩
      rw [if_neg hindex, Installation.returns_aged, if_neg (Ne.symm hindex)]
      exact husage
  live i hi hreturns := by
    obtain ⟨j, hj, rfl⟩ := List.mem_map.mp hi
    rw [Installation.returns_aged] at hreturns
    split at hreturns
    · omega
    next hne =>
      rw [Installation.index_aged, perform, setLot_of_ne _ hne]
      exact hs.live j hj hreturns
  succession := by
    refine List.pairwise_map.mpr (hs.succession.imp ?_)
    intro later earlier hearlier hindex
    rw [Installation.index_aged, Installation.index_aged] at hindex
    have hreturns := hearlier hindex
    rw [Installation.returns_aged]
    split <;> omega

theorem Orderly.recycle (hs : s.Orderly) (hlot : s.lots index = .returned) :
    (s.perform (.recycle index)).Orderly := by
  have hinstalled (other : Nat) :
      (s.perform (.recycle index)).lots other = .installed ↔ s.lots other = .installed := by
    by_cases hother : other = index
    · subst hother
      simp [perform, setLot_self, hlot]
    · rw [perform, setLot_of_ne _ hother]
  have hslots (other : Nat) : (s.perform (.recycle index)).engine.arena.slotAt other =
      s.engine.arena.slotAt other := by
    simp only [perform, Server.Engine.recycle, Arena.recycle]
    split <;> rfl
  have hnew : index ∉ s.engine.arena.free := by
    intro hmem
    simpa [hlot] using hs.line index hmem
  have hfree : (s.perform (.recycle index)).engine.arena.free = s.engine.arena.free ∨
      (s.perform (.recycle index)).engine.arena.free = s.engine.arena.free ++ [index] := by
    simp only [perform, Server.Engine.recycle, Arena.recycle]
    split
    · exact .inl rfl
    · exact .inr rfl
  exact {
    once := by
      rcases hfree with hfree | hfree
      · rw [hfree]
        exact hs.once
      · rw [hfree]
        refine List.nodup_append.mpr ⟨hs.once, by simp, ?_⟩
        intro other hother last hlast heq
        rw [List.mem_singleton] at hlast
        exact hnew (hlast ▸ heq ▸ hother)
    line := fun other hother => by
      by_cases hne : other = index
      · rw [hne, perform, setLot_self]
      · rw [perform, setLot_of_ne _ hne]
        refine hs.line other ?_
        rcases hfree with hfree | hfree
        · exact hfree ▸ hother
        · rw [hfree, List.mem_append, List.mem_singleton] at hother
          exact hother.resolve_right hne
    place := fun other generation used husage => by
      rw [hslots] at husage
      exact ⟨(hs.place other generation used husage).1,
        (hs.place other generation used husage).2.trans (hinstalled other).symm⟩
    named := fun i hi => by
      rw [hslots]
      exact hs.named i hi
    live := fun i hi hreturns => (hinstalled i.index).mpr (hs.live i hi hreturns)
    succession := hs.succession }

/-- Every move keeps the invariant. -/
theorem Orderly.perform (hs : s.Orderly) (m : PoolMove) (hpermits : s.permits m = true) :
    (s.perform m).Orderly := by
  cases m with
  | allocate =>
      rw [Occupancy.perform]
      split
      · exact hs
      next index arena hallocate =>
        rw [Arena.allocate] at hallocate
        split at hallocate
        · contradiction
        next first free hfree =>
          obtain ⟨rfl, rfl⟩ := Prod.mk.inj (Option.some.inj hallocate)
          exact hs.allocate hfree
  | equip index socket => exact hs.served (.setSocket _ index socket)
  | activate index role => exact hs.activate role (by simpa [permits] using hpermits)
  | close index => exact hs.served (.setSocket _ index .closed)
  | retire index => exact hs.retire (by simpa [permits] using hpermits)
  | recycle index => exact hs.recycle (by simpa [permits] using hpermits)
  | route event => exact hs.served (s.engine.servedAt_route event)
  | take index => exact hs.served (s.engine.servedAt_takeEvent index)
  | elsewhere engine => exact hs.served (.refl _ 0)

theorem orderly_opened {capacity ringCapacity : Nat}
    (harena : engine.arena = Arena.new capacity ringCapacity) (hcapacity : capacity ≤ UInt32.size) :
    (opened engine).Orderly where
  once := by
    rw [opened, harena]
    exact List.nodup_range'
  line index hindex := by
    rw [opened, harena] at hindex
    have hpos : 1 ≤ index := (List.mem_range'_1.mp hindex).1
    exact if_neg (by rw [Arena.listenerIndex]; omega)
  place index generation used husage := by
    rw [opened, harena, Arena.slotAt_new] at husage
    split at husage
    next hindex =>
      rw [Option.map_some, Option.some.injEq] at husage
      refine ⟨by omega, ?_⟩
      rw [← (Prod.mk.inj husage).2]
      simp only [opened]
      split <;> simp [ConnectionSlot.unused]
    · contradiction
  named i hi := absurd hi List.not_mem_nil
  live i hi := absurd hi List.not_mem_nil
  succession := .nil

theorem Reachable.orderly {capacity ringCapacity : Nat} (hs : Reachable engine s)
    (harena : engine.arena = Arena.new capacity ringCapacity) (hcapacity : capacity ≤ UInt32.size) :
    s.Orderly := by
  induction hs with
  | opened => exact orderly_opened harena hcapacity
  | move _ m hpermits ih => exact ih.perform m hpermits

/-! ## Tokens of installations -/

/-- Adding a number of returns leads back to the same generation once the count has wrapped
around. -/
theorem add_ofNat_eq_self_iff (generation : UInt32) (returns : Nat) :
    generation + UInt32.ofNat returns = generation ↔ UInt32.size ∣ returns := by
  have hlt : generation.toNat < 2 ^ 32 := generation.toNat_lt
  rw [← UInt32.toNat_inj, UInt32.toNat_add, UInt32.toNat_ofNat', UInt32.size]
  omega

/-- A token is accepted at the place that it was made for and nowhere else: while the place is in
use, and has been given back so often that its generations came round. -/
theorem Orderly.accepts_iff (hs : s.Orderly) {i : Installation} (hi : i ∈ s.issued) :
    s.engine.arena.Accepts i.token index ↔
      index = i.index ∧ s.lots index = .installed ∧ UInt32.size ∣ i.returns := by
  obtain ⟨generation, used, htoken, husage⟩ := hs.named i hi
  obtain ⟨hplace, hused⟩ := hs.place i.index _ used husage
  rw [Arena.accepts_iff, htoken, ConnectionToken.index_encode hplace,
    ConnectionToken.generation_encode hplace, and_congr_right_iff]
  rintro rfl
  rw [husage, Option.some.injEq, Prod.mk.injEq, add_ofNat_eq_self_iff, hused, and_comm]

theorem Orderly.accepts_iff_isLive (hs : s.Orderly) {i : Installation} (hi : i ∈ s.issued)
    (hreturns : i.returns < UInt32.size) :
    s.engine.arena.Accepts i.token index ↔ index = i.index ∧ i.isLive = true := by
  rw [hs.accepts_iff hi, Installation.isLive, beq_iff_eq]
  constructor
  · rintro ⟨rfl, -, hwrapped⟩
    exact ⟨rfl, Nat.eq_zero_of_dvd_of_lt hwrapped hreturns⟩
  · rintro ⟨rfl, hlive⟩
    exact ⟨rfl, hs.live i hi hlive, hlive ▸ Nat.dvd_zero _⟩

/-- Two installations that are live are in different places, and so have different tokens. -/
theorem Orderly.pairwise_token (hs : s.Orderly) :
    (s.issued.filter Installation.isLive).Pairwise fun i j => i.token ≠ j.token := by
  have hplaces : (s.issued.filter Installation.isLive).Pairwise fun later earlier =>
      later.index = earlier.index → 0 < earlier.returns := hs.succession.filter _
  refine List.Pairwise.imp_of_mem ?_ hplaces
  intro later earlier hlater hearlier hdistinct htokens
  obtain ⟨hlater, hlaterLive⟩ := List.mem_filter.mp hlater
  obtain ⟨hearlier, hearlierLive⟩ := List.mem_filter.mp hearlier
  rw [Installation.isLive, beq_iff_eq] at hlaterLive hearlierLive
  have haccepts : s.engine.arena.Accepts later.token later.index :=
    (hs.accepts_iff hlater).mpr ⟨rfl, hs.live later hlater hlaterLive, by simp [hlaterLive]⟩
  rw [htokens] at haccepts
  have hplace : later.index = earlier.index := ((hs.accepts_iff hearlier).mp haccepts).1
  have hreturned := hdistinct hplace
  omega

/-- What the tokens of a pool tell about its installations. -/
structure KeepsApart (s : Occupancy) : Prop where
  /-- Until the generations of its place come round, a token is accepted at that place exactly while
  its installation is live, and nowhere else. -/
  accepts_iff : ∀ i ∈ s.issued, i.returns < UInt32.size → ∀ index,
    s.engine.arena.Accepts i.token index ↔ index = i.index ∧ i.isLive = true
  /-- No other place ever accepts it. -/
  place : ∀ i ∈ s.issued, ∀ index, s.engine.arena.Accepts i.token index → index = i.index
  /-- What is in a place that accepts it was not installed later. -/
  latest : ∀ newer i older, s.issued = newer ++ i :: older → i.returns < UInt32.size →
    s.engine.arena.Accepts i.token i.index → ∀ j ∈ newer, j.index ≠ i.index
  distinct : (s.issued.filter Installation.isLive).Pairwise fun i j => i.token ≠ j.token
  /-- An event whose token is accepted joins the ring of the place, and claims the place if it is
  idle. -/
  admitted : ∀ event index fits arena, s.engine.arena.Accepts event.token index →
    s.engine.arena.push index event = .ok (fits, arena) →
      ((s.engine.route event).2.arena.slotAt index).map ConnectionSlot.ring =
          (arena.slotAt index).map ConnectionSlot.ring ∧
        ((s.engine.route event).1 = some index ↔
          fits = true ∧ (s.engine.arena.slotAt index).map ConnectionSlot.phase = some .waiting)
  /-- An event whose token is not accepted at a place neither claims the place nor changes it. -/
  discarded : ∀ event index, ¬s.engine.arena.Accepts event.token index →
    (s.engine.route event).1 ≠ some index ∧
      (s.engine.route event).2.arena.slotAt index = s.engine.arena.slotAt index
  /-- An event whose token is accepted nowhere is dropped. -/
  stale : ∀ event, (∀ index, ¬s.engine.arena.Accepts event.token index) →
    s.engine.route event = (none, s.engine)

theorem Orderly.latest (hs : s.Orderly) {newer older : List Installation} {i : Installation}
    (hissued : s.issued = newer ++ i :: older) (hreturns : i.returns < UInt32.size)
    (haccepts : s.engine.arena.Accepts i.token i.index) {j : Installation} (hj : j ∈ newer) :
    j.index ≠ i.index := by
  intro hplace
  have hi : i ∈ s.issued := by simp [hissued]
  have hlive := ((hs.accepts_iff_isLive hi hreturns).mp haccepts).2
  rw [Installation.isLive, beq_iff_eq] at hlive
  have hsuccession := hs.succession
  rw [hissued, List.pairwise_append] at hsuccession
  have hreturned := hsuccession.2.2 j hj i List.mem_cons_self hplace
  omega

theorem Orderly.keepsApart (hs : s.Orderly) : s.KeepsApart where
  accepts_iff _ hi hreturns _ := hs.accepts_iff_isLive hi hreturns
  place _ hi _ haccepts := ((hs.accepts_iff hi).mp haccepts).1
  latest _ _ _ hissued hreturns haccepts _ hj := hs.latest hissued hreturns haccepts hj
  distinct := hs.pairwise_token
  admitted _ _ _ _ haccepts hpush := Server.Engine.route_of_accepts haccepts hpush
  discarded _ _ haccepts := Server.Engine.slotAt_route_of_not_accepts haccepts
  stale _ hstale := Server.Engine.route_of_not_accepts hstale

/-- In a pool of at most 2³² places, whatever happens, each token names one installation and only
that one, until the generations of its place come round; and tokens and their parts determine each
other. -/
theorem Reachable.token_names_installation {capacity ringCapacity : Nat} (hs : Reachable engine s)
    (harena : engine.arena = Arena.new capacity ringCapacity) (hcapacity : capacity ≤ UInt32.size) :
    s.KeepsApart ∧
      (∀ index generation, index < UInt32.size →
        (ConnectionToken.encode index generation).index = index ∧
          (ConnectionToken.encode index generation).generation = generation) ∧
      ∀ token : ConnectionToken, ConnectionToken.encode token.index token.generation = token := by
  refine ⟨(hs.orderly harena hcapacity).keepsApart, ?_, ConnectionToken.encode_index_generation⟩
  intro index generation hindex
  exact ⟨ConnectionToken.index_encode hindex generation,
    ConnectionToken.generation_encode hindex generation⟩

/-- An engine with a pool of two places. -/
def twoPlaces : Server.Engine where
  arena := Arena.new 2 4
  waiter := ⟨⟨Array.replicate 4 (.blank 0), 0, 0⟩, 2, 1, 0, [], none, []⟩
  table := ⟨⟨1, 1, 1⟩, fun _ => 0, #[.empty, .empty], #[], [], 0, 0, 0⟩
  network := .idle true
  memory := unlimited

/-- A client is taken in, is heard once, and goes, and another one gets its place. -/
def reuse : List PoolMove :=
  [.equip 0 .listener, .activate 0 .listener,
    .allocate, .equip 1 (.stream 0), .activate 1 .message, .route (.blank (.encode 1 0)),
    .close 1, .retire 1, .recycle 1,
    .allocate, .equip 1 (.stream 1), .activate 1 .message]

/-- The place accepts the token of the second client, and that of the first no longer. -/
theorem token_names_installation_of_reuse :
    ∃ s, s = reuse.foldl perform (opened twoPlaces) ∧ Reachable twoPlaces s ∧
      s.issued = [⟨1, .encode 1 1, 0⟩, ⟨1, .encode 1 0, 1⟩, ⟨0, .encode 0 0, 0⟩] ∧
      (∀ index, s.engine.arena.Accepts (.encode 1 1) index ↔ index = 1) ∧
      ∀ index, ¬s.engine.arena.Accepts (.encode 1 0) index := by
  have hissued : (reuse.foldl perform (opened twoPlaces)).issued =
      [⟨1, .encode 1 1, 0⟩, ⟨1, .encode 1 0, 1⟩, ⟨0, .encode 0 0, 0⟩] := by
    decide
  have hreach : Reachable twoPlaces (reuse.foldl perform (opened twoPlaces)) :=
    Reachable.opened.run reuse (by decide)
  have haccepts := (hreach.token_names_installation rfl (by decide)).1.accepts_iff
  refine ⟨_, rfl, hreach, hissued, fun index => ?_, fun index => ?_⟩
  · have hsecond := haccepts ⟨1, .encode 1 1, 0⟩ (by simp [hissued]) (by decide) index
    simpa [Installation.isLive] using hsecond
  · have hfirst := haccepts ⟨1, .encode 1 0, 1⟩ (by simp [hissued]) (by decide) index
    simpa [Installation.isLive] using hfirst

end Occupancy

end KeyValueServer
