import WarmFeed.Proofs.Occurrences
import WarmFeed.Proofs.Serving.Hydration

/-!
# Statuses in their places

The object store may answer a fetch as it likes: in any order, with statuses left out, with
statuses that nobody asked for and with several of one identifier.  What hydration makes of the
answer is told by the identifiers and the answer alone.  Each identifier stands where it comes up
first, with the last status that was given for it, and one that none was given for is left out.
-/

namespace WarmFeed

def Call.fetched? : Call → Option (List ContentId)
  | .bulkFetch ids => some ids
  | _ => none

def fetches {σ : Type} (ms : List (Moment σ Call)) : List (List ContentId) :=
  ms.filterMap fun m => m.request.fetched?

namespace Hydration

/-- The statuses that identifiers are given by what was fetched. -/
structure Arranged (ids : List ContentId) (fetched statuses : List Status) : Prop where
  ids_eq : statuses.map Status.id = ids.eraseDups.filter (· ∈ fetched.map Status.id)
  last : ∀ status ∈ statuses,
    (fetched.filter fun other => other.id = status.id).getLast? = some status
  nodup : (statuses.map Status.id).Nodup

/-! ## Identifiers once -/

section Distinct

variable {ids seen : List ContentId}

theorem foldl_distinct_eq :
    ids.foldl (fun seen id => if id ∈ seen then seen else seen ++ [id]) seen =
      seen ++ (ids.filter (· ∉ seen)).eraseDups := by
  induction ids generalizing seen with
  | nil => simp
  | cons id ids ih =>
    rw [List.foldl_cons]
    by_cases hid : id ∈ seen
    · rw [if_pos hid, ih, List.filter_cons_of_neg (by simp [hid])]
    · rw [if_neg hid, ih, eraseDups_unseen_cons (seen ++ [id]) hid (by simp [or_comm]),
        List.append_assoc, List.singleton_append]

theorem distinct_eq_eraseDups (ids : List ContentId) : distinct ids = ids.eraseDups := by
  rw [distinct, foldl_distinct_eq]
  simp

theorem nodup_distinct (ids : List ContentId) : (distinct ids).Nodup :=
  distinct_eq_eraseDups ids ▸ nodup_eraseDups ids

end Distinct

/-! ## The last status of each -/

section LastOf

variable {fetched fetched' : List Status} {id : ContentId} {status : Status}

def lastOf (fetched : List Status) (id : ContentId) : Option Status :=
  (fetched.filter fun status => status.id = id).getLast?

theorem arrange_eq_lastOf (ids : List ContentId) (fetched : List Status) :
    arrange ids fetched = ids.filterMap (lastOf fetched) := by
  refine List.filterMap_congr fun id _ => ?_
  show (Table.setAll Table.empty _).get? id = _
  rw [Table.get?_setAll, List.filter_map, List.getLast?_map, Table.get?_empty, Option.or_none,
    Option.map_map]
  exact Option.map_id_apply

theorem of_lastOf (h : lastOf fetched id = some status) : status ∈ fetched ∧ status.id = id := by
  simpa using List.mem_of_getLast? h

theorem isSome_lastOf (fetched : List Status) (id : ContentId) :
    (lastOf fetched id).isSome = decide (id ∈ fetched.map Status.id) := by
  rw [Bool.eq_iff_iff, decide_eq_true_eq, lastOf, List.getLast?_isSome]
  simp

/-- Where no identifier comes up twice, the order of the statuses does not matter. -/
theorem lastOf_eq_some_iff (h : (fetched.map Status.id).Nodup) :
    lastOf fetched id = some status ↔ status ∈ fetched ∧ status.id = id := by
  refine ⟨of_lastOf, fun ⟨hmem, hid⟩ => ?_⟩
  have hgiven : (lastOf fetched id).isSome := by
    rw [isSome_lastOf, decide_eq_true_eq]
    exact List.mem_map.mpr ⟨status, hmem, hid⟩
  obtain ⟨other, hother⟩ := Option.isSome_iff_exists.mp hgiven
  have hsame := of_lastOf hother
  rw [hother, List.inj_on_of_nodup_map h hsame.1 hmem (hsame.2.trans hid.symm)]

theorem lastOf_of_perm (hperm : fetched.Perm fetched') (h : (fetched.map Status.id).Nodup) :
    lastOf fetched = lastOf fetched' := by
  have h' : (fetched'.map Status.id).Nodup := (hperm.map Status.id).nodup_iff.mp h
  funext id
  apply Option.ext
  intro status
  rw [lastOf_eq_some_iff h, lastOf_eq_some_iff h', hperm.mem_iff]

theorem map_id_filterMap_lastOf (ids : List ContentId) (fetched : List Status) :
    (ids.filterMap (lastOf fetched)).map Status.id =
      ids.filter (· ∈ fetched.map Status.id) := by
  induction ids with
  | nil => rfl
  | cons id ids ih =>
    have hgiven := isSome_lastOf fetched id
    cases hlast : lastOf fetched id with
    | none =>
      rw [hlast] at hgiven
      rw [List.filterMap_cons_none hlast, ih, List.filter_cons, ← hgiven]
      rfl
    | some status =>
      rw [hlast] at hgiven
      rw [List.filterMap_cons_some hlast, List.map_cons, ih, (of_lastOf hlast).2,
        List.filter_cons, ← hgiven]
      rfl

theorem arranged_arrange (ids : List ContentId) (fetched : List Status) :
    Arranged ids fetched (arrange (distinct ids) fetched) := by
  have hids := map_id_filterMap_lastOf (distinct ids) fetched
  rw [← arrange_eq_lastOf] at hids
  refine ⟨?_, fun status hstatus => ?_, ?_⟩
  · rw [hids, distinct_eq_eraseDups]
  · rw [arrange_eq_lastOf] at hstatus
    obtain ⟨id, -, hlast⟩ := List.mem_filterMap.mp hstatus
    rw [(of_lastOf hlast).2]
    exact hlast
  · rw [hids]
    exact (nodup_distinct ids).filter _

end LastOf

/-! ## Hydrating -/

section Hydrate

variable {σ : Type} (answer : Backend σ) (s : σ) {ids : List ContentId}

theorem asks_placed (ids : List ContentId) (fetched : List Status) :
    (placed ids fetched).run.Asks fun c => c.fetched? = none := by
  unfold placed
  dsimp only
  split
  · refine Routine.asks_attempt_bind ?_ fun _ => trivial
    exact Routine.Asks.bind (Routine.asks_request rfl) fun _ => trivial
  · trivial

theorem fetches_hydrate (h : ids ≠ []) :
    fetches ((hydrate ids).run.course answer s) = [distinct ids] := by
  rw [hydrate_eq_bind h, Routine.course_attempt_bind]
  show fetches (⟨s, .bulkFetch (distinct ids)⟩ :: _) = _
  refine congrArg (distinct ids :: ·) ?_
  split
  · exact (asks_placed _ _).filterMap_course answer _
  · rfl

/-- Hydrating fetches at most once, and asks for each identifier once.  It fails as the fetch does,
and gives otherwise what the identifiers and the reply say, whatever the object store is.  Unless
the reply repeats an identifier, its order says nothing. -/
theorem hydrate_by_reply (ids : List ContentId) :
    (∀ {σ : Type} (answer : Backend σ) (s : σ),
      fetches ((hydrate ids).run.course answer s) = (if ids = [] then [] else [ids.eraseDups]) ∧
        (∀ e, ids ≠ [] → (answer s (.bulkFetch ids.eraseDups)).1 = .error e →
          (Routine.attempt answer s (hydrate ids)).1 = .error e) ∧
        ∀ fetched, (answer s (.bulkFetch ids.eraseDups)).1 = .ok fetched →
          ∃ statuses, (Routine.attempt answer s (hydrate ids)).1 = .ok statuses ∧
            Arranged ids fetched statuses) ∧
      ∀ {σ σ' : Type} (answer : Backend σ) (answer' : Backend σ') (s : σ) (s' : σ')
        (fetched fetched' : List Status),
        (answer s (.bulkFetch ids.eraseDups)).1 = .ok fetched →
        (answer' s' (.bulkFetch ids.eraseDups)).1 = .ok fetched' →
        fetched.Perm fetched' → (fetched.map Status.id).Nodup →
          (Routine.attempt answer s (hydrate ids)).1 =
            (Routine.attempt answer' s' (hydrate ids)).1 := by
  rcases eq_or_ne ids [] with rfl | hids
  · refine ⟨fun answer s => ⟨rfl, fun e hne => absurd rfl hne, fun fetched _ => ?_⟩, ?_⟩
    · exact ⟨[], rfl, arranged_arrange [] fetched⟩
    · exact fun _ _ _ _ _ _ _ _ _ _ => rfl
  · rw [← distinct_eq_eraseDups, if_neg hids]
    refine ⟨fun answer s => ⟨fetches_hydrate answer s hids, fun e _ he => ?_,
      fun fetched hfetched => ?_⟩, ?_⟩
    · rw [attempt_hydrate_eq answer s hids, he]
      rfl
    · refine ⟨_, ?_, arranged_arrange ids fetched⟩
      rw [attempt_hydrate_eq answer s hids, hfetched]
      rfl
    · intro σ σ' answer answer' s s' fetched fetched' h h' hperm hnodup
      rw [attempt_hydrate_eq answer s hids, attempt_hydrate_eq answer' s' hids, h, h']
      show Except.ok (arrange _ _) = Except.ok (arrange _ _)
      rw [arrange_eq_lastOf, arrange_eq_lastOf, lastOf_of_perm hperm hnodup]

def favoured (id : ContentId) (favourites : UInt32) : Status :=
  { (default : Status) with id, favourites }

def replying (fetched : List Status) : Backend Unit
  | (), .bulkFetch _ => (.ok fetched, ())
  | (), c => ((Backend.plain (fun _ => none) [] ∅ c).1, ())

/-- Of what is asked for, `5` is missing and `2` comes twice.  Nobody asked for `9`. -/
theorem hydrate_by_reply_jumbled :
    let fetched := [favoured 2 0, favoured 9 0, favoured 1 0, favoured 2 7]
    Arranged [2, 5, 1, 2] fetched [favoured 2 7, favoured 1 0] ∧
      (Routine.attempt (replying fetched) () (hydrate [2, 5, 1, 2])).1 =
        .ok [favoured 2 7, favoured 1 0] := by
  intro fetched
  obtain ⟨-, -, hreply⟩ := (hydrate_by_reply [2, 5, 1, 2]).1 (replying fetched) ()
  obtain ⟨statuses, hattempt, harranged⟩ := hreply fetched rfl
  have hgiven : (Routine.attempt (replying fetched) () (hydrate [2, 5, 1, 2])).1 =
      .ok [favoured 2 7, favoured 1 0] := by
    decide +kernel
  rw [hattempt] at hgiven
  exact ⟨Except.ok.inj hgiven ▸ harranged, hattempt.trans hgiven⟩

end Hydrate

end Hydration
end WarmFeed
