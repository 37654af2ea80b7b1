import Mathlib.Data.List.Nodup
import WarmFeed.Index.Sorted
import WarmFeed.Proofs.Index.Contents
import WarmFeed.Proofs.Index.Search
import WarmFeed.Proofs.Table

/-!
# The two structures of a feed stay in step

The array and the table of a feed describe the same entries.  The array is in
strictly ascending order, so every search in it is right, and a position is in
it exactly if the table has its score.  Each operation keeps that, and does to
the contents what it does to a finite map.
-/

namespace WarmFeed
namespace SortedEntries

/-- The array is in order, it has exactly the entries of the table, which has no
identifier twice, and all scores are such as can be held. -/
structure Consistent (s : SortedEntries) : Prop where
  ascending : s.ordered.toList.Pairwise fun p q => p.isBefore q = true
  distinct : s.scores.HasDistinctKeys
  mem_iff : ∀ p, p ∈ s.ordered.toList ↔ s.scores.get? p.id = some p.score
  stored : ∀ p ∈ s.ordered.toList, p.score.IsStored

def contents (s : SortedEntries) : Contents := s.scores.toFinmap

@[simp] theorem lookup_contents (s : SortedEntries) (id : ContentId) :
    s.contents.lookup id = s.scores.get? id := Table.lookup_toFinmap s.scores id

/-! ## Searching -/

theorem insertIdx_append (l m : List Position) (p : Position) :
    (l ++ m).insertIdx l.length p = l ++ p :: m := by
  induction l with
  | nil => rw [List.nil_append, List.length_nil, List.insertIdx_zero, List.nil_append]
  | cons q l ih =>
    rw [List.cons_append, List.length_cons, List.insertIdx_succ_cons, ih, List.cons_append]

section Ascending

variable {s : SortedEntries} (h : s.ordered.toList.Pairwise (· < ·))

include h

theorem splitBy_isBefore (p : Position) :
    SplitBy (fun q => q.isBefore p) s.ordered.toList := by
  refine h.imp fun {a b} hab hb => ?_
  rw [Position.isBefore_iff] at hb ⊢
  exact hab.trans hb

theorem placeOf_eq (p : Position) :
    s.placeOf p = (s.ordered.toList.filter fun q => q.isBefore p).length :=
  partitionPoint_eq (splitBy_isBefore h p)

theorem drop_placeOf (p : Position) :
    s.ordered.toList.drop (s.placeOf p) = s.ordered.toList.filter fun q => !q.isBefore p := by
  rw [placeOf_eq h, SplitBy.drop_length (splitBy_isBefore h p)]

theorem getElem?_placeOf {p : Position} (hp : p ∈ s.ordered.toList) :
    s.ordered[s.placeOf p]? = some p := by
  rw [← Array.getElem?_toList, ← List.head?_drop, drop_placeOf h]
  -- Of the positions that are not before `p`, the first is `p`.
  have hmem : p ∈ s.ordered.toList.filter fun q => !q.isBefore p := by
    rw [List.mem_filter, Bool.not_eq_true', ← Bool.not_eq_true, Position.isBefore_iff]
    exact ⟨hp, lt_irrefl p⟩
  have hsorted := h.filter fun q => !q.isBefore p
  have hall : ∀ q ∈ s.ordered.toList.filter fun q => !q.isBefore p, ¬ q < p := by
    intro q hq
    rw [List.mem_filter, Bool.not_eq_true', ← Bool.not_eq_true, Position.isBefore_iff] at hq
    exact hq.2
  revert hmem hsorted hall
  cases s.ordered.toList.filter fun q => !q.isBefore p with
  | nil => exact fun hmem => absurd hmem List.not_mem_nil
  | cons q l =>
    intro hmem hsorted hall
    rcases List.mem_cons.mp hmem with rfl | hp
    · rfl
    · exact absurd ((List.pairwise_cons.mp hsorted).1 p hp) (hall q List.mem_cons_self)

theorem find?_eq (p : Position) :
    s.find? p = if p ∈ s.ordered.toList then some (s.placeOf p) else none := by
  by_cases hp : p ∈ s.ordered.toList
  · rw [if_pos hp]
    exact if_pos (getElem?_placeOf h hp)
  · rw [if_neg hp]
    refine if_neg fun hget => hp ?_
    rw [Array.mem_toList_iff]
    exact Array.mem_of_getElem? hget

theorem dropPosition_ordered (p : Position) :
    (s.dropPosition p).ordered.toList = s.ordered.toList.filter fun q => q ≠ p := by
  by_cases hp : p ∈ s.ordered.toList
  · have hfind : s.find? p = some (s.placeOf p) := by rw [find?_eq h, if_pos hp]
    have hnodup : s.ordered.toList.Nodup := h.imp ne_of_lt
    have hget : s.ordered.toList[s.placeOf p]? = some p := by
      rw [Array.getElem?_toList, getElem?_placeOf h hp]
    obtain ⟨hlt, hget⟩ := List.getElem?_eq_some_iff.mp hget
    rw [dropPosition, hfind]
    simp only [Array.toList_eraseIdxIfInBounds]
    rw [← hnodup.erase_getElem _ hlt, hget, hnodup.erase_eq_filter]
    exact List.filter_congr fun q _ => by simp [beq_eq_decide, bne]
  · have hfind : s.find? p = none := by rw [find?_eq h, if_neg hp]
    rw [dropPosition, hfind]
    symm
    rw [List.filter_eq_self]
    exact fun q hq => decide_eq_true fun e => hp (e ▸ hq)

/-- A new position goes between those below it and those above it. -/
theorem addPosition_ordered {p : Position} :
    (s.addPosition p).ordered.toList =
      (s.ordered.toList.filter fun q => q.isBefore p) ++
        p :: s.ordered.toList.filter fun q => !q.isBefore p := by
  have hle : s.placeOf p ≤ s.ordered.size := by
    rw [placeOf_eq h, ← Array.length_toList]
    exact List.length_filter_le _ _
  rw [addPosition, Array.insertIdxIfInBounds, dif_pos hle]
  simp only [Array.toList_insertIdx]
  rw [placeOf_eq h]
  exact (congrArg (List.insertIdx · _ p) (splitBy_isBefore h p).append_filter.symm).trans
    (insertIdx_append _ _ p)

theorem pairwise_addPosition {p : Position} (hp : p ∉ s.ordered.toList) :
    (s.addPosition p).ordered.toList.Pairwise (· < ·) := by
  rw [addPosition_ordered h, List.pairwise_append, List.pairwise_cons]
  have habove : ∀ q ∈ s.ordered.toList.filter fun q => !q.isBefore p, p < q := by
    intro q hq
    rw [List.mem_filter, Bool.not_eq_true', ← Bool.not_eq_true, Position.isBefore_iff] at hq
    exact lt_of_le_of_ne (not_lt.mp hq.2) fun e => hp (e ▸ hq.1)
  have hbelow : ∀ q ∈ s.ordered.toList.filter fun q => q.isBefore p, q < p := by
    intro q hq
    exact Position.isBefore_iff.mp (List.mem_filter.mp hq).2
  refine ⟨h.filter _, ⟨habove, h.filter _⟩, fun a ha b hb => ?_⟩
  rcases List.mem_cons.mp hb with rfl | hb
  · exact hbelow a ha
  · exact (hbelow a ha).trans (habove b hb)

theorem mem_addPosition {p q : Position} :
    q ∈ (s.addPosition p).ordered.toList ↔ q = p ∨ q ∈ s.ordered.toList := by
  rw [addPosition_ordered h, List.mem_append, List.mem_cons, List.mem_filter, List.mem_filter]
  cases q.isBefore p <;> simp [or_comm]

end Ascending

@[simp] theorem dropPosition_scores (s : SortedEntries) (p : Position) :
    (s.dropPosition p).scores = s.scores := by
  unfold dropPosition
  split <;> rfl

@[simp] theorem addPosition_scores (s : SortedEntries) (p : Position) :
    (s.addPosition p).scores = s.scores.set p.id p.score := rfl

/-! ## Writing -/

theorem consistent_empty : empty.Consistent where
  ascending := List.Pairwise.nil
  distinct := Table.hasDistinctKeys_empty
  mem_iff p := by simp [empty, EmptyCollection.emptyCollection]
  stored p hp := absurd hp (by simp [empty])

theorem contents_upsert (s : SortedEntries) (e : Entry) :
    (s.upsert e).contents = s.contents.write e := by
  apply Finmap.ext_lookup
  intro id
  rw [Contents.lookup_write, lookup_contents, lookup_contents, upsert]
  split
  · simp [Entry.position]
  · rename_i current hcurrent
    split
    · rename_i heq
      by_cases hid : id = e.id
      · rw [if_pos hid, hid, hcurrent, heq]
      · rw [if_neg hid]
    · simp [Entry.position]

theorem contents_remove (s : SortedEntries) (id : ContentId) :
    (s.remove id).contents = s.contents.erase id := by
  apply Finmap.ext_lookup
  intro i
  rw [Contents.lookup_erase, lookup_contents, lookup_contents, remove]
  split
  · rename_i hnone
    by_cases hi : i = id
    · rw [if_pos hi, hi, hnone]
    · rw [if_neg hi]
  · simp

theorem contents_upsertAll (s : SortedEntries) (es : List Entry) :
    (s.upsertAll es).contents = s.contents.writeAll es := by
  induction es generalizing s with
  | nil => rfl
  | cons e es ih =>
    show ((s.upsert e).upsertAll es).contents = (s.contents.write e).writeAll es
    rw [ih, contents_upsert]

theorem contents_removeAll (s : SortedEntries) (ids : List ContentId) :
    (s.removeAll ids).contents = s.contents.eraseAll ids := by
  induction ids generalizing s with
  | nil => rfl
  | cons id ids ih =>
    show ((s.remove id).removeAll ids).contents = (s.contents.erase id).eraseAll ids
    rw [ih, contents_remove]

namespace Consistent

variable {s : SortedEntries}

theorem sorted (h : s.Consistent) : s.ordered.toList.Pairwise (· < ·) :=
  h.ascending.imp Position.isBefore_iff.mp

theorem ordered_eq (h : s.Consistent) : s.ordered.toList = s.contents.ascending :=
  Contents.eq_ascending h.sorted fun p => by rw [lookup_contents, h.mem_iff]

theorem stored_ascending (h : s.Consistent) : ∀ p ∈ s.contents.ascending, p.score.IsStored := by
  rw [← h.ordered_eq]
  exact h.stored

/-- Adding the position of an identifier that is not there keeps the two in step. -/
theorem addPosition (h : s.Consistent) {p : Position} (hnew : s.scores.get? p.id = none)
    (hp : p.score.IsStored) : (s.addPosition p).Consistent where
  ascending := by
    have habsent : p ∉ s.ordered.toList := by rw [h.mem_iff, hnew]; simp
    exact (pairwise_addPosition h.sorted habsent).imp Position.isBefore_iff.mpr
  distinct := h.distinct.set _ _
  mem_iff q := by
    rw [mem_addPosition h.sorted, addPosition_scores, Table.get?_set]
    by_cases hid : q.id = p.id
    · rw [if_pos hid, h.mem_iff, hid, hnew]
      obtain ⟨score, id⟩ := q
      obtain ⟨score', id'⟩ := p
      obtain rfl : id = id' := hid
      simp [eq_comm]
    · rw [if_neg hid, h.mem_iff]
      exact or_iff_right fun e => hid (e ▸ rfl)
  stored q hq := by
    rcases (mem_addPosition h.sorted).mp hq with rfl | hq
    · exact hp
    · exact h.stored q hq

/-- Taking a position out of the array and its identifier out of the table keeps the
two in step. -/
theorem dropPosition (h : s.Consistent) {p : Position} (hp : s.scores.get? p.id = some p.score) :
    SortedEntries.Consistent { s.dropPosition p with scores := s.scores.erase p.id } where
  ascending := by
    rw [dropPosition_ordered h.sorted]
    exact h.ascending.filter _
  distinct := h.distinct.erase _
  mem_iff q := by
    rw [dropPosition_ordered h.sorted, List.mem_filter, decide_eq_true_eq, h.mem_iff,
      Table.get?_erase]
    by_cases hid : q.id = p.id
    · rw [if_pos hid, hid, hp]
      obtain ⟨score, id⟩ := q
      obtain ⟨score', id'⟩ := p
      obtain rfl : id = id' := hid
      simp [eq_comm]
    · rw [if_neg hid]
      exact and_iff_left fun e => hid (e ▸ rfl)
  stored q hq := by
    rw [dropPosition_ordered h.sorted] at hq
    exact h.stored q (List.mem_filter.mp hq).1

/-- The order in which a table keeps its pairs does not matter. -/
theorem congr {t : SortedEntries} (h : s.Consistent) (hordered : t.ordered = s.ordered)
    (hdistinct : t.scores.HasDistinctKeys)
    (hscores : ∀ id, t.scores.get? id = s.scores.get? id) : t.Consistent where
  ascending := hordered ▸ h.ascending
  distinct := hdistinct
  mem_iff p := by rw [hordered, hscores, h.mem_iff]
  stored p hp := h.stored p (hordered ▸ hp)

theorem upsert (h : s.Consistent) {e : Entry} (he : e.score.IsStored) :
    (s.upsert e).Consistent := by
  unfold SortedEntries.upsert
  split
  · rename_i hnone
    exact h.addPosition hnone he
  · rename_i current hcurrent
    split
    · exact h
    · -- The entry leaves its old place before it takes the new one.
      have hdropped := h.dropPosition (p := ⟨current, e.id⟩) hcurrent
      have hadded := hdropped.addPosition (p := e.position) (by simp [Entry.position]) he
      have hdistinct : ((s.dropPosition ⟨current, e.id⟩).addPosition
          e.position).scores.HasDistinctKeys := by
        rw [addPosition_scores, dropPosition_scores]
        exact h.distinct.set _ _
      refine hadded.congr rfl hdistinct fun id => ?_
      rw [addPosition_scores, addPosition_scores, dropPosition_scores, Table.get?_set,
        Table.get?_set, Table.get?_erase]
      by_cases hid : id = e.position.id
      · rw [if_pos hid, if_pos hid]
      · rw [if_neg hid, if_neg hid, if_neg (show ¬ id = e.id from hid)]

theorem upsertAll (h : s.Consistent) {es : List Entry} (hes : ∀ e ∈ es, e.score.IsStored) :
    (s.upsertAll es).Consistent := by
  induction es generalizing s with
  | nil => exact h
  | cons e es ih =>
    exact ih (h.upsert (hes e List.mem_cons_self)) fun e' he' =>
      hes e' (List.mem_cons_of_mem _ he')

theorem remove (h : s.Consistent) (id : ContentId) : (s.remove id).Consistent := by
  unfold SortedEntries.remove
  split
  · exact h
  · rename_i current hcurrent
    exact h.dropPosition (p := ⟨current, id⟩) hcurrent

theorem removeAll (h : s.Consistent) (ids : List ContentId) : (s.removeAll ids).Consistent := by
  induction ids generalizing s with
  | nil => exact h
  | cons id ids ih => exact ih (h.remove id)

/-! ## Trimming -/

theorem size_eq (h : s.Consistent) : s.size = s.contents.size := by
  rw [← Contents.length_ascending, ← h.ordered_eq, Array.length_toList, SortedEntries.size]

theorem trim_ordered (s : SortedEntries) (capacity : Nat) :
    (s.trim capacity).2.ordered.toList = s.ordered.toList.drop (s.size - capacity) := by
  simp only [SortedEntries.trim, Array.toList_extract, List.extract_eq_take_drop]
  rw [List.take_of_length_le]
  rw [List.length_drop, Array.length_toList]

theorem contents_trim (h : s.Consistent) (capacity : Nat) :
    (s.trim capacity).2.contents = s.contents.greatest capacity := by
  rw [← Contents.eraseAll_lowest, ← h.ordered_eq, ← h.size_eq]
  apply Finmap.ext_lookup
  intro id
  rw [lookup_contents, Contents.lookup_eraseAll, lookup_contents]
  exact Table.get?_eraseAll _ _ _ _

theorem trim (h : s.Consistent) (capacity : Nat) : (s.trim capacity).2.Consistent where
  ascending := by
    rw [trim_ordered]
    exact h.ascending.sublist (List.drop_sublist _ _)
  distinct := h.distinct.eraseAll _ _
  mem_iff p := by
    rw [← lookup_contents, h.contents_trim, ← Contents.mem_ascending, Contents.ascending_greatest,
      ← h.ordered_eq, ← h.size_eq, trim_ordered]
  stored p hp := by
    rw [trim_ordered] at hp
    exact h.stored p (List.mem_of_mem_drop hp)

/-! ## Reading -/

theorem entries_eq (h : s.Consistent) : s.entries = s.contents.entryList := by
  rw [SortedEntries.entries, h.ordered_eq, Contents.entryList]

theorem rankWindow_eq (h : s.Consistent) (offset limit : Nat) :
    s.rankWindow offset limit = s.contents.rankWindow offset limit := by
  rw [SortedEntries.rankWindow, h.ordered_eq, Contents.rankWindow]

theorem rank?_eq (h : s.Consistent) (id : ContentId) : s.rank? id = s.contents.rank? id := by
  unfold SortedEntries.rank? Contents.rank?
  split
  · rename_i hnone
    symm
    rw [List.findIdx?_eq_none_iff, ← h.ordered_eq]
    rintro p hp
    rw [h.mem_iff] at hp
    refine decide_eq_false fun e => ?_
    rw [e, hnone] at hp
    exact Option.some_ne_none _ hp.symm
  · rename_i score hscore
    have hmem : (⟨score, id⟩ : Position) ∈ s.ordered.toList := (h.mem_iff _).mpr hscore
    have hget := getElem?_placeOf h.sorted hmem
    rw [find?_eq h.sorted, if_pos hmem]
    symm
    rw [List.findIdx?_eq_some_iff_getElem, ← h.ordered_eq]
    rw [← Array.getElem?_toList, List.getElem?_eq_some_iff] at hget
    obtain ⟨hlt, hget⟩ := hget
    refine ⟨hlt, by rw [hget]; exact decide_eq_true rfl, fun j hj => ?_⟩
    rw [decide_eq_true_eq]
    intro hid
    have hnodup : (s.ordered.toList.map Position.id).Nodup := h.ordered_eq ▸ s.contents.ids_nodup
    have hlength : (s.ordered.toList.map Position.id).length = s.ordered.toList.length :=
      List.length_map _
    have hj' : j < (s.ordered.toList.map Position.id).length := by omega
    have hlt' : s.placeOf ⟨score, id⟩ < (s.ordered.toList.map Position.id).length := by omega
    have hsame : (s.ordered.toList.map Position.id)[j] =
        (s.ordered.toList.map Position.id)[s.placeOf ⟨score, id⟩] := by
      rw [List.getElem_map, List.getElem_map, hget, hid]
    have hplace := hnodup.getElem_inj_iff.mp hsame
    omega

end Consistent

/-! ## Windows -/

def firstIndex (s : SortedEntries) : Bound → Nat
  | .unbounded => 0
  | .exclusive b => partitionPoint (fun p => !p.isAfter b) s.ordered

def lastIndex (s : SortedEntries) : Bound → Nat
  | .unbounded => s.ordered.size
  | .exclusive b => partitionPoint (fun p => p.isBefore b) s.ordered

theorem window_eq_slice (s : SortedEntries) (q : RangeQuery) :
    s.window q = (s.ordered.toList.take (s.lastIndex q.upper)).drop (s.firstIndex q.lower) := by
  have hwindow : s.window q =
      if s.lastIndex q.upper ≤ s.firstIndex q.lower then []
      else (s.ordered.extract (s.firstIndex q.lower) (s.lastIndex q.upper)).toList := by
    unfold window firstIndex lastIndex
    cases q.lower <;> cases q.upper <;> rfl
  rw [hwindow, List.drop_take]
  split
  · rename_i hle
    rw [Nat.sub_eq_zero_of_le hle, List.take_zero]
  · rw [Array.toList_extract, List.extract_eq_take_drop]

section Window

variable {s : SortedEntries} (h : s.ordered.toList.Pairwise (· < ·))

include h

theorem take_lastIndex (b : Bound) :
    s.ordered.toList.take (s.lastIndex b) = s.ordered.toList.filter b.isAbove := by
  cases b with
  | unbounded =>
    rw [lastIndex, List.take_of_length_le (Nat.le_of_eq Array.length_toList)]
    exact (List.filter_eq_self.mpr fun _ _ => rfl).symm
  | exclusive b =>
    rw [lastIndex, partitionPoint_eq (splitBy_isBefore h b), (splitBy_isBefore h b).take_length]
    rfl

/-- However much is cut off at the end, dropping what lies before the first index leaves
what is above the boundary. -/
theorem drop_firstIndex (b : Bound) (n : Nat) :
    (s.ordered.toList.take n).drop (s.firstIndex b) =
      (s.ordered.toList.take n).filter b.isBelow := by
  cases b with
  | unbounded => exact (List.filter_eq_self.mpr fun _ _ => rfl).symm
  | exclusive b =>
    have hsplit : SplitBy (fun p => !p.isAfter b) s.ordered.toList := by
      refine h.imp fun {p q} hpq hq => ?_
      rw [Bool.not_eq_true', ← Bool.not_eq_true, Position.isAfter_iff] at hq ⊢
      exact fun hp => hq (hp.trans hpq)
    rw [firstIndex, partitionPoint_eq hsplit, hsplit.drop_take]
    simp only [Bool.not_not]
    rfl

theorem window_eq (q : RangeQuery) : s.window q = s.ordered.toList.filter q.contains := by
  rw [window_eq_slice, drop_firstIndex h, take_lastIndex h, List.filter_filter]
  rfl

end Window

theorem Consistent.range_eq {s : SortedEntries} (h : s.Consistent) (q : RangeQuery) :
    s.range q = s.contents.range q := by
  rw [range, window_eq h.sorted, h.ordered_eq]
  rfl

end SortedEntries
end WarmFeed
