import WarmFeed.Proofs.Backend
import WarmFeed.Proofs.Course
import WarmFeed.Proofs.Table
import WarmFeed.Serving.Hydration

/-!
# What hydration gives

From statuses that exist, whatever their order and whatever comes along with them,
exactly the statuses of the identifiers asked for are taken, in the order of the
identifiers.
-/

namespace WarmFeed

/-- The statuses of different identifiers have different identifiers. -/
theorem nodup_ids_filterMap {held : ContentId → Option Status}
    (hid : ∀ id status, held id = some status → status.id = id) {ids : List ContentId}
    (h : ids.Nodup) : ((ids.filterMap held).map Status.id).Nodup := by
  have hheld : ∀ status ∈ ids.filterMap held, held status.id = some status := by
    intro status hstatus
    obtain ⟨id, -, hfound⟩ := List.mem_filterMap.mp hstatus
    rw [hid id status hfound]
    exact hfound
  refine List.Nodup.map_on (fun a ha b hb hab => ?_) (h.filterMap fun i j status hi hj => ?_)
  · rw [← Option.some_inj, ← hheld a ha, ← hheld b hb, hab]
  · rw [← hid i status hi, ← hid j status hj]

namespace Hydration

theorem foldl_distinct {seen ids : List ContentId} (h : (seen ++ ids).Nodup) :
    ids.foldl (fun seen id => if id ∈ seen then seen else seen ++ [id]) seen = seen ++ ids := by
  induction ids generalizing seen with
  | nil => rw [List.foldl_nil, List.append_nil]
  | cons id ids ih =>
    have hnew : id ∉ seen := by
      intro hmem
      exact (List.nodup_append.mp h).2.2 id hmem id List.mem_cons_self rfl
    rw [List.foldl_cons, if_neg hnew, ih, List.append_assoc]
    · rfl
    · rw [List.append_assoc]
      exact h

theorem distinct_of_nodup {ids : List ContentId} (h : ids.Nodup) : distinct ids = ids :=
  foldl_distinct h

/-- Statuses that exist, with all those of the identifiers among them, are arranged to
exactly the latter. -/
theorem arrange_eq {held : ContentId → Option Status} {ids : List ContentId}
    {fetched : List Status} (hid : ∀ id status, held id = some status → status.id = id)
    (hheld : ∀ status ∈ fetched, held status.id = some status)
    (hall : ∀ id ∈ ids, ∀ status, held id = some status → status ∈ fetched) :
    arrange ids fetched = ids.filterMap held := by
  have hpairs : ∀ p ∈ fetched.map (fun status => (status.id, status)), held p.1 = some p.2 := by
    intro p hp
    obtain ⟨status, hstatus, rfl⟩ := List.mem_map.mp hp
    exact hheld status hstatus
  unfold arrange
  apply List.filterMap_congr
  intro id hmem
  show (Table.setAll Table.empty _).get? id = held id
  rw [Table.get?_setAll_of_forall hpairs, List.map_map]
  by_cases hfetched : id ∈ fetched.map (Prod.fst ∘ fun status => (status.id, status))
  · rw [if_pos hfetched]
  · rw [if_neg hfetched, Table.get?_empty]
    cases hstatus : held id with
    | none => rfl
    | some status =>
      exfalso
      apply hfetched
      exact List.mem_map.mpr ⟨status, hall id hmem status hstatus, hid id status hstatus⟩

variable {σ : Type} {answer : Backend σ} {view : σ → FeedIndex}
  {held : ContentId → Option Status}

/-- Hydrating fetches and counts what is missing, and asks for nothing else. -/
theorem asks_hydrate (ids : List ContentId) : (hydrate ids).run.Asks fun c =>
    (∃ ids, c = .bulkFetch ids) ∨ ∃ metric n, c = .count metric n := by
  unfold hydrate
  split
  · exact trivial
  · refine Routine.asks_attempt_bind (Routine.asks_request (Or.inl ⟨_, rfl⟩)) fun fetched => ?_
    dsimp only
    split
    · refine Routine.asks_attempt_bind ?_ fun _ => trivial
      exact Routine.Asks.bind (Routine.asks_request (Or.inr ⟨_, _, rfl⟩)) fun _ => trivial
    · exact trivial

def placed (ids : List ContentId) (fetched : List Status) : Attempt ServiceError (List Status) := do
  let statuses := arrange ids fetched
  let missing := ids.length - statuses.length
  if 0 < missing then countMetric .misses missing
  return statuses

theorem hydrate_eq_bind {ids : List ContentId} (h : ids ≠ []) : hydrate ids =
    (ExceptT.mk (Routine.request (Call.bulkFetch (distinct ids))) >>= placed (distinct ids)) := by
  unfold hydrate
  rw [if_neg (by simpa using h)]
  rfl

theorem attempt_placed (answer : Backend σ) (s : σ) (ids : List ContentId) (fetched : List Status) :
    (Routine.attempt answer s (placed ids fetched)).1 = .ok (arrange ids fetched) := by
  unfold placed
  dsimp only
  split
  · rw [Routine.attempt_bind_ok (Routine.attempt_liftRoutine answer _ _)]
    rfl
  · rfl

theorem attempt_hydrate_eq (answer : Backend σ) (s : σ) {ids : List ContentId} (h : ids ≠ []) :
    (Routine.attempt answer s (hydrate ids)).1 =
      (answer s (.bulkFetch (distinct ids))).1.map (arrange (distinct ids)) := by
  have hfetch : Routine.attempt answer s
      (ExceptT.mk (Routine.request (Call.bulkFetch (distinct ids)))) =
        answer s (.bulkFetch (distinct ids)) := rfl
  rw [hydrate_eq_bind h, Routine.attempt_bind, hfetch]
  cases (answer s (.bulkFetch (distinct ids))).1 with
  | ok fetched => exact attempt_placed answer _ _ _
  | error e => rfl

/-- Hydrating distinct identifiers gives the statuses that exist, in their order. -/
theorem attempt_hydrate_of_fetches {s : σ} (h : Backend.Fetches answer held s)
    {ids : List ContentId} (hnodup : ids.Nodup) :
    (Routine.attempt answer s (hydrate ids)).1 = .ok (ids.filterMap held) := by
  by_cases hempty : ids = []
  · rw [hempty]
    rfl
  · obtain ⟨fetched, hreply, hheld, hall⟩ := h.fetch (distinct ids)
    have harrange : arrange (distinct ids) fetched = ids.filterMap held := by
      rw [arrange_eq h.id_eq hheld hall, distinct_of_nodup hnodup]
    rw [attempt_hydrate_eq answer s hempty, hreply, ← harrange]
    rfl

theorem view_hydrate (h : Backend.HoldsIndex answer view) (s : σ) (ids : List ContentId) :
    view (Routine.attempt answer s (hydrate ids)).2 = view s := by
  refine ((asks_hydrate ids).staysIn (P := fun t => view t = view s) (fun t c hc ht => ?_) rfl).2
  rcases hc with ⟨ids, rfl⟩ | ⟨metric, n, rfl⟩
  · exact (h.other t _ fun key r => Call.noConfusion).trans ht
  · exact (h.other t _ fun key r => Call.noConfusion).trans ht

theorem attempt_hydrate (h : Backend.HoldsIndex answer view)
    (hstatuses : Backend.HoldsStatuses answer held) (s : σ) {ids : List ContentId}
    (hnodup : ids.Nodup) :
    ∃ s', Routine.attempt answer s (hydrate ids) = (.ok (ids.filterMap held), s') ∧
      view s' = view s :=
  ⟨_, Prod.ext (attempt_hydrate_of_fetches (hstatuses.fetches s) hnodup) rfl,
    view_hydrate h s ids⟩

end Hydration
end WarmFeed
