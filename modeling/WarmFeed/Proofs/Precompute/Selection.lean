import WarmFeed.Precompute.Selection
import WarmFeed.Proofs.Table

/-!
# What a selection is like

Whatever a source computes, what is selected from it names no identifier twice and
has only scores that can be stored, and there is no more of it than fits.  Before the
cut no identifier is lost that came up with such a score.
-/

namespace WarmFeed
namespace Selection

structure Clean (es : List Entry) : Prop where
  nodup : (es.map Entry.id).Nodup
  finite : ∀ e ∈ es, e.score.isFinite = true

theorem Clean.filter {es : List Entry} (h : Clean es) (test : Entry → Bool) :
    Clean (es.filter test) where
  nodup := h.nodup.sublist (List.filter_sublist.map _)
  finite e he := h.finite e (List.mem_filter.mp he).1

structure CleanTable (best : Table ContentId Score) : Prop where
  distinct : best.HasDistinctKeys
  finite : ∀ id score, best.get? id = some score → score.isFinite = true

theorem CleanTable.set {best : Table ContentId Score} (h : CleanTable best) {e : Entry}
    (he : e.score.isFinite = true) : CleanTable (best.set e.id e.score) where
  distinct := h.distinct.set _ _
  finite id score hget := by
    rw [Table.get?_set] at hget
    by_cases hid : id = e.id
    · rw [if_pos hid] at hget
      rw [← Option.some.inj hget]
      exact he
    · rw [if_neg hid] at hget
      exact h.finite id score hget

theorem CleanTable.enter {best : Table ContentId Score} (h : CleanTable best) (e : Entry) :
    CleanTable (enter best e) := by
  unfold Selection.enter
  cases he : e.score.isFinite with
  | false => exact h
  | true =>
    rw [Bool.not_true, if_neg Bool.false_ne_true]
    split
    · exact h.set he
    · split
      · exact h.set he
      · exact h

theorem CleanTable.foldl_enter {best : Table ContentId Score} (h : CleanTable best)
    (es : List Entry) : CleanTable (es.foldl Selection.enter best) := by
  induction es generalizing best with
  | nil => exact h
  | cons e es ih => exact ih (h.enter e)

theorem cleanTable_empty : CleanTable ∅ where
  distinct := Table.hasDistinctKeys_empty
  finite _ _ h := absurd h.symm (Option.some_ne_none _)

theorem clean_dedupe (es : List Entry) : Clean (dedupe es) := by
  have htable := cleanTable_empty.foldl_enter es
  unfold dedupe
  constructor
  · rw [List.map_map]
    exact htable.distinct
  · intro e he
    obtain ⟨p, hp, rfl⟩ := List.mem_map.mp he
    exact htable.finite p.1 p.2 (htable.distinct.mem_pairs_iff.mp hp)

/-! ## What is kept of the entries -/

/-- Taking an entry in changes at most its own score, to the one that it has. -/
theorem get?_enter (best : Table ContentId Score) (e : Entry) (id : ContentId) :
    (enter best e).get? id = best.get? id ∨ id = e.id ∧ (enter best e).get? id = some e.score := by
  have hset : (best.set e.id e.score).get? id = best.get? id ∨
      id = e.id ∧ (best.set e.id e.score).get? id = some e.score := by
    rw [Table.get?_set]
    by_cases hid : id = e.id
    · exact .inr ⟨hid, if_pos hid⟩
    · exact .inl (if_neg hid)
  unfold enter
  split
  · exact .inl rfl
  split
  · exact hset
  split
  · exact hset
  · exact .inl rfl

/-- An identifier has a score once it came up with a finite one. -/
theorem isSome_get?_enter (best : Table ContentId Score) (e : Entry) (id : ContentId) :
    ((enter best e).get? id).isSome = true ↔
      (best.get? id).isSome = true ∨ id = e.id ∧ e.score.isFinite = true := by
  have hset : ((best.set e.id e.score).get? id).isSome = true ↔
      (best.get? id).isSome = true ∨ id = e.id := by
    rw [Table.get?_set]
    by_cases hid : id = e.id
    · rw [if_pos hid]
      exact ⟨fun _ => .inr hid, fun _ => rfl⟩
    · rw [if_neg hid]
      exact ⟨.inl, fun h => h.resolve_right hid⟩
  unfold enter
  cases hfinite : e.score.isFinite with
  | false => simp
  | true =>
    rw [Bool.not_true, if_neg Bool.false_ne_true, and_iff_left rfl]
    split
    · exact hset
    · next score hscore =>
      split
      · exact hset
      · refine ⟨.inl, fun h => h.elim (fun hold => hold) fun hid => ?_⟩
        rw [hid, hscore]
        rfl

theorem get?_foldl_enter {best : Table ContentId Score} {es : List Entry} {id : ContentId}
    {score : Score} (h : (es.foldl enter best).get? id = some score) :
    best.get? id = some score ∨ ⟨id, score⟩ ∈ es := by
  induction es generalizing best with
  | nil => exact .inl h
  | cons e es ih =>
    obtain hbefore | hmem := ih h
    · obtain hsame | ⟨rfl, hscore⟩ := get?_enter best e id
      · exact .inl (hsame.symm.trans hbefore)
      · rw [hscore] at hbefore
        rw [← Option.some.inj hbefore]
        exact .inr List.mem_cons_self
    · exact .inr (List.mem_cons_of_mem e hmem)

theorem isSome_get?_foldl_enter (best : Table ContentId Score) (es : List Entry)
    (id : ContentId) :
    ((es.foldl enter best).get? id).isSome = true ↔
      (best.get? id).isSome = true ∨ ∃ e ∈ es, id = e.id ∧ e.score.isFinite = true := by
  induction es generalizing best with
  | nil => simp
  | cons e es ih =>
    rw [List.foldl_cons, ih, isSome_get?_enter, or_assoc]
    simp only [List.mem_cons, exists_eq_or_imp]

theorem mem_of_mem_dedupe {e : Entry} {es : List Entry} (h : e ∈ dedupe es) : e ∈ es := by
  have htable := cleanTable_empty.foldl_enter es
  obtain ⟨p, hp, rfl⟩ := List.mem_map.mp h
  obtain hnone | hmem := get?_foldl_enter (htable.distinct.mem_pairs_iff.mp hp)
  · exact absurd hnone.symm (Option.some_ne_none _)
  · exact hmem

/-- An identifier is kept if it comes up with a finite score. -/
theorem mem_ids_dedupe {id : ContentId} {es : List Entry} :
    id ∈ (dedupe es).map Entry.id ↔ ∃ e ∈ es, id = e.id ∧ e.score.isFinite = true := by
  have htable := cleanTable_empty.foldl_enter es
  have hfound := isSome_get?_foldl_enter ∅ es id
  rw [← hfound.trans (or_iff_right Bool.false_ne_true), Option.isSome_iff_exists, dedupe,
    List.map_map, List.mem_map]
  constructor
  · rintro ⟨p, hp, rfl⟩
    exact ⟨p.2, htable.distinct.mem_pairs_iff.mp hp⟩
  · rintro ⟨score, hscore⟩
    exact ⟨(id, score), htable.distinct.mem_pairs_iff.mpr hscore, rfl⟩

theorem foldl_enter_of_clean {best : Table ContentId Score} {es : List Entry} (h : Clean es)
    (hnew : ∀ e ∈ es, e.id ∉ best.pairs.map Prod.fst) :
    (es.foldl enter best).pairs = best.pairs ++ es.map fun e => (e.id, e.score) := by
  induction es generalizing best with
  | nil => exact (List.append_nil _).symm
  | cons e es ih =>
    obtain ⟨hfirst, hrest⟩ := List.nodup_cons.mp h.nodup
    have hid := hnew e List.mem_cons_self
    have hnone : best.get? e.id = none := by
      refine List.lookup_eq_none_iff.mpr fun p hp => ?_
      simpa using fun heq : e.id = p.1 => hid (heq ▸ List.mem_map_of_mem hp)
    have henter : (enter best e).pairs = best.pairs ++ [(e.id, e.score)] := by
      unfold enter
      rw [h.finite e List.mem_cons_self, Bool.not_true, if_neg Bool.false_ne_true, hnone]
      exact Table.setPairs_of_notMem e.score hid
    have hclean : Clean es := ⟨hrest, fun e' he' => h.finite e' (List.mem_cons_of_mem _ he')⟩
    rw [List.foldl_cons, ih hclean, henter, List.append_assoc]
    · rfl
    · intro e' he'
      rw [henter, List.map_append, List.mem_append, not_or]
      refine ⟨hnew e' (List.mem_cons_of_mem _ he'), fun hmem => hfirst ?_⟩
      have hsame : e'.id = e.id := List.mem_singleton.mp hmem
      rw [← hsame]
      exact List.mem_map_of_mem he'

/-- Where nothing has to be left out, nothing is. -/
theorem dedupe_of_clean {es : List Entry} (h : Clean es) : dedupe es = es := by
  have hpairs : (es.foldl enter ∅).pairs = [] ++ es.map fun e => (e.id, e.score) :=
    foldl_enter_of_clean h fun _ _ => List.not_mem_nil
  unfold dedupe
  rw [hpairs, List.nil_append, List.map_map]
  exact List.map_id es

theorem top_subperm (capacity : Nat) (es : List Entry) : (top capacity es).Subperm es := by
  unfold top
  by_cases hfits : es.length ≤ capacity
  · rw [if_pos hfits]
  · rw [if_neg hfits]
    exact (List.take_sublist _ _).subperm.trans (List.mergeSort_perm es notBelow).subperm

theorem length_top_le (capacity : Nat) (es : List Entry) : (top capacity es).length ≤ capacity := by
  unfold top
  by_cases hfits : es.length ≤ capacity
  · rw [if_pos hfits]
    exact hfits
  · rw [if_neg hfits]
    exact List.length_take_le _ _

theorem Clean.top {es : List Entry} (h : Clean es) (capacity : Nat) :
    Clean (top capacity es) where
  nodup := by
    obtain ⟨l, hperm, hsub⟩ := top_subperm capacity es
    rw [← (hperm.map Entry.id).nodup_iff]
    exact h.nodup.sublist (hsub.map Entry.id)
  finite e he := h.finite e ((top_subperm capacity es).subset he)

end Selection
end WarmFeed
