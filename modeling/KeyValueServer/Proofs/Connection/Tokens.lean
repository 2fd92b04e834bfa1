import KeyValueServer.Proofs.Connection.Naming
import KeyValueServer.Proofs.Connection.Places
import KeyValueServer.Server.Engine

/-!
# Accepted tokens

An event goes to the place that its token names, if that place is in use and of the generation that
the token names. Everything that serves a place leaves both as they are; only taking a place into
use and giving it back change them.
-/

namespace KeyValueServer

/-- The generation of a place, and whether the place is in use. -/
def ConnectionSlot.usage (s : ConnectionSlot) : UInt32 × Bool :=
  (s.generation, decide (s.phase ≠ .free))

theorem ConnectionSlot.usage_eq_iff {slot : ConnectionSlot} {generation : UInt32} :
    slot.usage = (generation, true) ↔ slot.generation = generation ∧ slot.phase ≠ .free := by
  simp [usage]

namespace Arena

/-- An event with the token goes to the place: there is such a place, it is in use, and it has the
generation that the token names. -/
def Accepts (a : Arena) (token : ConnectionToken) (index : Nat) : Prop :=
  ∃ generation slot, a.resolve token = some (index, generation) ∧ a.slotAt index = some slot ∧
    slot.phase ≠ .free ∧ slot.generation = generation

/-- A pool in which one place may have changed, but neither whether it is in use nor its
generation. -/
structure ServedAt (a : Arena) (index : Nat) (a' : Arena) : Prop where
  free : a'.free = a.free
  others : ∀ other, other ≠ index → a'.slotAt other = a.slotAt other
  usage : (a'.slotAt index).map ConnectionSlot.usage = (a.slotAt index).map ConnectionSlot.usage

variable {a a' a'' : Arena} {index other : Nat} {token : ConnectionToken}

/-! ## Accepted tokens -/

theorem accepts_iff : a.Accepts token index ↔ index = token.index ∧
    (a.slotAt index).map ConnectionSlot.usage = some (token.generation, true) := by
  constructor
  · rintro ⟨generation, slot, hresolve, hslot, hused, rfl⟩
    rw [resolve] at hresolve
    split at hresolve
    · obtain ⟨rfl, hgeneration⟩ := Prod.mk.inj (Option.some.inj hresolve)
      simp [hslot, ConnectionSlot.usage, hused, hgeneration]
    · contradiction
  · rintro ⟨rfl, husage⟩
    obtain ⟨slot, hslot, husage⟩ := Option.map_eq_some_iff.mp husage
    obtain ⟨hgeneration, hused⟩ := ConnectionSlot.usage_eq_iff.mp husage
    exact ⟨token.generation, slot, if_pos (slotAt_lt hslot), hslot, hused, hgeneration⟩

/-! ## Changes that leave a place in use -/

namespace ServedAt

theorem refl (a : Arena) (index : Nat) : a.ServedAt index a := ⟨rfl, fun _ _ => rfl, rfl⟩

theorem trans (h : a.ServedAt index a') (h' : a'.ServedAt index a'') : a.ServedAt index a'' where
  free := h'.free.trans h.free
  others other hother := (h'.others other hother).trans (h.others other hother)
  usage := h'.usage.trans h.usage

theorem modify {f : ConnectionSlot → ConnectionSlot}
    (hf : ∀ slot, a.slotAt index = some slot → (f slot).usage = slot.usage) :
    a.ServedAt index (a.modify index f) where
  free := rfl
  others other hother := by rw [slotAt_modify, if_neg hother.symm]
  usage := by
    rw [slotAt_modify, if_pos rfl]
    cases hslot : a.slotAt index with
    | none => rfl
    | some slot => simp [hf slot hslot]

theorem setSocket (a : Arena) (index : Nat) (socket : Socket) :
    a.ServedAt index (a.setSocket index socket) := modify fun _ _ => rfl

theorem setRing (a : Arena) (index : Nat) (ring : EventRing) :
    a.ServedAt index (a.setRing index ring) := modify fun _ _ => rfl

/-- What holds of the usage of each place holds of it after the change. -/
theorem usage_at (h : a.ServedAt index a') (other : Nat) :
    (a'.slotAt other).map ConnectionSlot.usage = (a.slotAt other).map ConnectionSlot.usage := by
  by_cases hother : other = index
  · subst hother
    exact h.usage
  · rw [h.others other hother]

end ServedAt

theorem servedAt_of_ringAt {ring : EventRing} (h : a.ringAt index = .ok (ring, a')) :
    a.ServedAt index a' := by
  obtain ⟨-, -, -, rfl⟩ := exists_ring?_of_ringAt h
  exact .setRing a index ring

theorem servedAt_of_push {event : Event} {fits : Bool} (h : a.push index event = .ok (fits, a')) :
    a.ServedAt index a' := by
  obtain ⟨_, made, hring, rfl | ⟨ring', -, rfl⟩⟩ := exists_ringAt_of_push h
  · exact servedAt_of_ringAt hring
  · exact (servedAt_of_ringAt hring).trans (.setRing made index ring')

theorem servedAt_of_pop {event? : Option Event} (h : a.pop index = .ok (event?, a')) :
    a.ServedAt index a' := by
  obtain ⟨_, made, hring, rfl | ⟨-, ring', -, rfl⟩⟩ := exists_ringAt_of_pop h
  · exact servedAt_of_ringAt hring
  · exact (servedAt_of_ringAt hring).trans (.setRing made index ring')

/-- A place that is in use and goes on to another phase in which it is. -/
theorem ServedAt.setPhase (h : a.ServedAt index a') {slot : ConnectionSlot}
    {phase : ConnectionPhase} (hslot : a.slotAt index = some slot) (hused : slot.phase ≠ .free)
    (hphase : phase ≠ .free) :
    a.ServedAt index (a'.modify index fun s => { s with phase }) := by
  refine h.trans (.modify ?_)
  intro later hlater
  have husage := h.usage
  rw [hlater, hslot, Option.map_some, Option.map_some, Option.some.injEq,
    ConnectionSlot.usage_eq_iff.mpr ⟨rfl, hused⟩] at husage
  rw [husage]
  exact ConnectionSlot.usage_eq_iff.mpr ⟨(ConnectionSlot.usage_eq_iff.mp husage).1, hphase⟩

/-- Taking a place into use leaves its generation as it is, and the issued token names it. -/
theorem activate_cases (a : Arena) (index : Nat) (role : ConnectionRole) :
    a.slotAt index = none ∧ a.activate index role = (.error .noSuchPlace, a) ∨
      ∃ slot next, a.slotAt index = some slot ∧ next.usage = (slot.generation, true) ∧
        (a.activate index role = (.error .ringTooSmall, a.put index next) ∨
          a.activate index role =
            (.ok (ConnectionToken.encode index slot.generation), a.put index next)) := by
  cases hslot : a.slotAt index with
  | none => exact .inl ⟨rfl, by simp [activate, hslot]⟩
  | some slot =>
      rw [activate_of_slotAt hslot]
      split
      · refine .inr ⟨slot, { slot with phase := .waiting, role }, rfl, ?_, .inl rfl⟩
        exact ConnectionSlot.usage_eq_iff.mpr ⟨rfl, by simp⟩
      next ring hring =>
        refine .inr ⟨slot, { slot with phase := .waiting, role, ring := some ring }, rfl, ?_,
          .inr rfl⟩
        exact ConnectionSlot.usage_eq_iff.mpr ⟨rfl, by simp⟩

/-- Giving a place back advances its generation. -/
theorem usage_retire (a : Arena) (index other : Nat) :
    ((a.retire index).slotAt other).map ConnectionSlot.usage =
      if index = other then (a.slotAt other).map fun slot => (slot.generation + 1, false)
      else (a.slotAt other).map ConnectionSlot.usage := by
  rw [retire, slotAt_modify]
  split
  · rw [Option.map_map]
    rfl
  · rfl

end Arena

namespace Server.Engine

variable {e : Engine} {event : Event} {index : Nat}

/-- Routing concerns only a place that accepts the token of the event. -/
theorem route_cases (e : Engine) (event : Event) :
    e.route event = (none, e) ∨ e.arena.Accepts event.token event.token.index ∧
      ((e.route event).1 = none ∨ (e.route event).1 = some event.token.index) ∧
      e.arena.ServedAt event.token.index (e.route event).2.arena := by
  unfold route
  split
  · exact .inl rfl
  next place generation hresolve =>
    have hplace : place = event.token.index ∧ generation = event.token.generation := by
      rw [Arena.resolve] at hresolve
      split at hresolve
      · obtain ⟨rfl, rfl⟩ := Prod.mk.inj (Option.some.inj hresolve)
        exact ⟨rfl, rfl⟩
      · contradiction
    obtain ⟨rfl, rfl⟩ := hplace
    split
    · exact .inl rfl
    next slot hslot =>
      split
      · exact .inl rfl
      next hcurrent =>
        rw [not_or, Decidable.not_not] at hcurrent
        have haccepts : e.arena.Accepts event.token event.token.index :=
          ⟨_, slot, hresolve, hslot, hcurrent⟩
        split
        · exact .inl rfl
        next arena hpush => exact .inr ⟨haccepts, .inl rfl, Arena.servedAt_of_push hpush⟩
        next arena hpush =>
          have hserved := Arena.servedAt_of_push hpush
          split
          · exact .inr ⟨haccepts, .inr rfl, hserved.setPhase hslot hcurrent.1 (by simp)⟩
          · exact .inr ⟨haccepts, .inl rfl, hserved⟩

/-- An event whose token is accepted is queued at the place if there is room, and claims the place
if nobody serves it. -/
theorem route_of_accepts (haccepts : e.arena.Accepts event.token index) {fits : Bool}
    {arena : Arena} (hpush : e.arena.push index event = .ok (fits, arena)) :
    ((e.route event).2.arena.slotAt index).map ConnectionSlot.ring =
        (arena.slotAt index).map ConnectionSlot.ring ∧
      ((e.route event).1 = some index ↔
        fits = true ∧ (e.arena.slotAt index).map ConnectionSlot.phase = some .waiting) := by
  obtain ⟨generation, slot, hresolve, hslot, hused, rfl⟩ := haccepts
  cases fits with
  | false => simp [route, hresolve, hslot, hused, hpush]
  | true =>
      by_cases hidle : slot.phase = .waiting
      · have hroute : e.route event = (some index, { e with
            arena := arena.modify index fun s => { s with phase := .running } }) := by
          simp [route, hresolve, hslot, hpush, hidle]
        rw [hroute]
        dsimp only
        rw [Arena.slotAt_modify, if_pos rfl, hslot, Option.map_map]
        exact ⟨rfl, by simp [hidle]⟩
      · simp [route, hresolve, hslot, hused, hpush, hidle]

theorem route_of_not_accepts (h : ∀ index, ¬e.arena.Accepts event.token index) :
    e.route event = (none, e) := by
  rcases e.route_cases event with hsame | ⟨haccepts, -⟩
  · exact hsame
  · exact absurd haccepts (h _)

theorem slotAt_route_of_not_accepts (h : ¬e.arena.Accepts event.token index) :
    (e.route event).1 ≠ some index ∧
      (e.route event).2.arena.slotAt index = e.arena.slotAt index := by
  rcases e.route_cases event with hsame | ⟨haccepts, hclaim, hserved⟩
  · simp [hsame]
  · have hne : index ≠ event.token.index := by
      rintro rfl
      exact h haccepts
    refine ⟨?_, hserved.others index hne⟩
    rcases hclaim with hclaim | hclaim <;> simp [hclaim, hne.symm]

theorem servedAt_route (e : Engine) (event : Event) :
    e.arena.ServedAt event.token.index (e.route event).2.arena := by
  rcases e.route_cases event with hsame | ⟨-, -, hserved⟩
  · rw [hsame]
    exact .refl _ _
  · exact hserved

theorem servedAt_takeEvent (e : Engine) (index : Nat) :
    e.arena.ServedAt index (e.takeEvent index).2.arena := by
  unfold takeEvent
  split
  · exact .refl _ _
  next slot hslot =>
    split
    · exact .refl _ _
    next hphase =>
      rw [ne_eq, Decidable.not_not] at hphase
      split
      · exact .refl _ _
      next event arena hpop => exact Arena.servedAt_of_pop hpop
      next arena hpop =>
        exact (Arena.servedAt_of_pop hpop).setPhase hslot (by simp [hphase]) (by simp)

end Server.Engine

end KeyValueServer
