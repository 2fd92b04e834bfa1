import KeyValueServer.Proofs.Traffic.Workload
import Mathlib.Data.List.Pairwise

/-!
# Growing histories

A history stays linearized when a request is made, when a request takes effect behind all others,
and when a request returns that has taken effect. In an order that linearizes it the values stored
are those of the requests that stored a value for their keys last.
-/

namespace KeyValueServer

open Function (update)

variable {history : List TableEvent} {order : List Outcome} {event : TableEvent} {name later : Nat}
  {thread : ThreadId} {request : TableRequest} {result : Except Error Bytes} {key value : Bytes}

/-! ## The values stored -/

theorem replay_snoc (order : List Outcome) (outcome : Outcome) :
    replay (order ++ [outcome]) = outcome.request.apply (replay order) := by
  rw [replay, List.foldl_append]
  rfl

/-- A stored value is that of a request. -/
theorem exists_set_of_replay (h : replay order key = some value) :
    ∃ outcome ∈ order, outcome.request = .set key value := by
  induction order using List.reverseRecOn with
  | nil => contradiction
  | append_singleton order outcome ih =>
      rw [replay_snoc] at h
      have hold (hbefore : replay order key = some value) :
          ∃ found ∈ order ++ [outcome], found.request = .set key value := by
        obtain ⟨found, hmem, hfound⟩ := ih hbefore
        exact ⟨found, List.mem_append_left _ hmem, hfound⟩
      cases hrequest : outcome.request with
      | get other => exact hold (by rwa [hrequest] at h)
      | set other written =>
          rw [hrequest, TableRequest.apply] at h
          by_cases hkey : key = other
          · subst hkey
            rw [Function.update_self] at h
            obtain rfl := Option.some.inj h
            exact ⟨outcome, by simp, hrequest⟩
          · rw [Function.update_of_ne hkey] at h
            exact hold h

theorem isSome_replay_iff :
    (replay order key).isSome = true ↔
      ∃ outcome ∈ order, outcome.request.storedKey = some key := by
  constructor
  · intro h
    obtain ⟨value, hvalue⟩ := Option.isSome_iff_exists.mp h
    obtain ⟨outcome, hmem, hrequest⟩ := exists_set_of_replay hvalue
    exact ⟨outcome, hmem, by rw [hrequest]; rfl⟩
  · rintro ⟨outcome, hmem, hkey⟩
    induction order using List.reverseRecOn with
    | nil => contradiction
    | append_singleton order last ih =>
        rw [replay_snoc]
        cases hrequest : last.request with
        | get other =>
            rcases List.mem_append.mp hmem with hold | hlast
            · exact ih hold
            · obtain rfl := List.mem_singleton.mp hlast
              rw [hrequest] at hkey
              contradiction
        | set other written =>
            rw [TableRequest.apply]
            by_cases hsame : key = other
            · rw [hsame, Function.update_self]
              rfl
            · rw [Function.update_of_ne hsame]
              rcases List.mem_append.mp hmem with hold | hlast
              · exact ih hold
              · obtain rfl := List.mem_singleton.mp hlast
                rw [hrequest] at hkey
                exact absurd (Option.some.inj hkey).symm hsame

/-- A request for the value of a key yields that none was stored, or a value that a request stored.
-/
theorem IsSequential.get_cases (h : IsSequential order) (hmem : ⟨name, .get key, result⟩ ∈ order) :
    result = .error .notFound ∨
      ∃ value, result = .ok value ∧ ∃ outcome ∈ order, outcome.request = .set key value := by
  induction h with
  | nil => contradiction
  | @snoc order _ last request ih =>
      rcases List.mem_append.mp hmem with hold | hlast
      · rcases ih hold with hnone | ⟨value, hvalue, outcome, hset, hrequest⟩
        · exact .inl hnone
        · exact .inr ⟨value, hvalue, outcome, List.mem_append_left _ hset, hrequest⟩
      · obtain ⟨-, rfl, rfl⟩ := Outcome.mk.inj (List.mem_singleton.mp hlast)
        rw [TableRequest.answer]
        cases hstored : replay order key with
        | none => exact .inl rfl
        | some value =>
            obtain ⟨outcome, hset, hrequest⟩ := exists_set_of_replay hstored
            exact .inr ⟨value, rfl, outcome, List.mem_append_left _ hset, hrequest⟩

/-! ## Longer histories -/

theorem getElem?_snoc_of_some (h : history[name]? = some event) (next : TableEvent) :
    (history ++ [next])[name]? = some event := by
  rw [List.getElem?_append_left (List.getElem?_eq_some_iff.mp h).1, h]

theorem getElem?_snoc_cases {next : TableEvent} (h : (history ++ [next])[name]? = some event) :
    history[name]? = some event ∨ (name = history.length ∧ event = next) := by
  by_cases hlt : name < history.length
  · rw [List.getElem?_append_left hlt] at h
    exact .inl h
  · rw [List.getElem?_append_right (not_lt.mp hlt)] at h
    obtain ⟨hzero, hnext⟩ := List.getElem?_eq_some_iff.mp h
    rw [List.length_singleton, Nat.lt_one_iff, Nat.sub_eq_zero_iff_le] at hzero
    exact .inr ⟨le_antisymm hzero (not_lt.mp hlt), by simpa using hnext.symm⟩

theorem precedes_snoc_iff (hlater : later < history.length) (next : TableEvent) :
    Precedes (history ++ [next]) name later ↔ Precedes history name later := by
  rw [Precedes, Precedes, List.take_append_of_le_length hlater.le]

namespace Linearizes

theorem name_lt (h : Linearizes history order) {outcome : Outcome} (hmem : outcome ∈ order) :
    outcome.name < history.length := by
  obtain ⟨thread, hcalled⟩ := h.called outcome hmem
  exact (List.getElem?_eq_some_iff.mp hcalled).1

/-- A request is the one that was called under its name. -/
theorem request_eq (h : Linearizes history order) (hmem : ⟨name, request, result⟩ ∈ order)
    {called : TableRequest} (hcalled : history[name]? = some (.called thread called)) :
    request = called := by
  obtain ⟨other, hsame⟩ := h.called _ hmem
  have hevent := hsame.symm.trans hcalled
  injection hevent with hevent
  injection hevent

/-- One more event leaves a history linearized, unless a request returns without its result. -/
theorem snoc_event (h : Linearizes history order) (next : TableEvent)
    (hnext : ∀ name result, next = .returned name result →
      ∃ request, ⟨name, request, result⟩ ∈ order) :
    Linearizes (history ++ [next]) order where
  distinct := h.distinct
  called outcome hmem := by
    obtain ⟨thread, hcalled⟩ := h.called outcome hmem
    exact ⟨thread, getElem?_snoc_of_some hcalled next⟩
  complete name result hmem := by
    rcases List.mem_append.mp hmem with hold | hlast
    · exact h.complete name result hold
    · exact hnext name result (List.mem_singleton.mp hlast).symm
  sequential := h.sequential
  realTime := by
    refine h.realTime.imp_of_mem fun {earlier later} hmem _ hapart => ?_
    rwa [precedes_snoc_iff (h.name_lt hmem)]

/-- A request that has not returned can take effect behind all others. -/
theorem snoc_outcome (h : Linearizes history order)
    (hcalled : history[name]? = some (.called thread request))
    (hopen : ∀ result, .returned name result ∉ history)
    (hfresh : name ∉ order.map Outcome.name) :
    Linearizes history (order ++ [⟨name, request, request.answer (replay order)⟩]) where
  distinct := by
    rw [List.map_append]
    exact h.distinct.append (List.nodup_singleton _)
      (by simpa [List.disjoint_singleton] using hfresh)
  called outcome hmem := by
    rcases List.mem_append.mp hmem with hold | hlast
    · exact h.called outcome hold
    · obtain rfl := List.mem_singleton.mp hlast
      exact ⟨thread, hcalled⟩
  complete name result hmem := by
    obtain ⟨request, hrequest⟩ := h.complete name result hmem
    exact ⟨request, List.mem_append_left _ hrequest⟩
  sequential := .snoc h.sequential name request
  realTime := by
    refine List.pairwise_append.mpr ⟨h.realTime, List.pairwise_singleton _ _, ?_⟩
    intro earlier _ last hlast hprecedes
    obtain rfl := List.mem_singleton.mp hlast
    obtain ⟨result, hmem⟩ := hprecedes
    exact hopen result (List.mem_of_mem_take hmem)

/-- A returned request for a value yields that none was stored, or a value that a request stored. -/
theorem get_cases (h : Linearizes history order)
    (hcalled : history[name]? = some (.called thread (.get key)))
    (hreturned : .returned name result ∈ history) :
    result = .error .notFound ∨ ∃ value, result = .ok value ∧
      ∃ writer, .called writer (.set key value) ∈ history := by
  obtain ⟨request, hmem⟩ := h.complete name result hreturned
  obtain rfl := h.request_eq hmem hcalled
  rcases h.sequential.get_cases hmem with hnone | ⟨value, hvalue, outcome, hset, hrequest⟩
  · exact .inl hnone
  · obtain ⟨writer, hwriter⟩ := h.called outcome hset
    rw [hrequest] at hwriter
    exact .inr ⟨value, hvalue, writer, List.mem_of_getElem? hwriter⟩

end Linearizes

end KeyValueServer
