import WarmFeed.Proofs.Occurrences
import WarmFeed.Proofs.Precompute.Selection
import WarmFeed.Proofs.Score.Quotient

/-!
# The greatest score of an identifier

Of the entries that a source computes, those without a finite score are passed over.  The others
lead to one entry for each identifier, where it comes up first, with the greatest of its scores.
Greatest is meant numerically: of a zero and a minus zero the one that comes first is kept.

What is kept is kept as it is when it is selected once more, and entries that come in another
order lead to the same ones in another order.
-/

namespace WarmFeed
namespace Selection

variable {es es' : List Entry} {e : Entry}

def finiteOnes (es : List Entry) : List Entry := es.filter fun e => e.score.isFinite

theorem keys_enter (best : Table ContentId Score) (e : Entry) :
    (enter best e).keys =
      if e.score.isFinite = true ∧ e.id ∉ best.keys then best.keys ++ [e.id] else best.keys := by
  have hset := best.keys_set e.id e.score
  unfold enter
  cases hfinite : e.score.isFinite with
  | false => simp
  | true =>
    rw [Bool.not_true, if_neg Bool.false_ne_true]
    have hknown : e.id ∈ best.keys ↔ (best.get? e.id).isSome = true := Table.mem_keys_iff
    cases hget : best.get? e.id with
    | none => simp [hset, hknown, hget]
    | some score =>
      dsimp only
      split <;> simp [hset, hknown, hget]

/-- Identifiers are new where they come up for the first time. -/
theorem keys_foldl_enter (best : Table ContentId Score) (es : List Entry) :
    (es.foldl enter best).keys = best.keys ++
      (((finiteOnes es).map Entry.id).filter (· ∉ best.keys)).eraseDups := by
  induction es generalizing best with
  | nil => simp [finiteOnes]
  | cons e es ih =>
    rw [List.foldl_cons, ih, keys_enter]
    unfold finiteOnes
    cases hfinite : e.score.isFinite with
    | false =>
      rw [List.filter_cons_of_neg (by simp [hfinite]), if_neg (by simp)]
    | true =>
      rw [List.filter_cons_of_pos (l := es) (p := fun e => e.score.isFinite) hfinite, List.map_cons]
      by_cases hid : e.id ∈ best.keys
      · rw [if_neg (by simp [hid]), List.filter_cons_of_neg (by simp [hid])]
      · rw [if_pos ⟨rfl, hid⟩, eraseDups_unseen_cons (best.keys ++ [e.id]) hid (by simp [or_comm]),
          List.append_assoc, List.singleton_append]

/-- Each identifier is kept where it first comes up with a finite score. -/
theorem ids_dedupe (es : List Entry) :
    (dedupe es).map Entry.id = ((finiteOnes es).map Entry.id).eraseDups := by
  have hkeys := keys_foldl_enter ∅ es
  rw [dedupe, List.map_map]
  refine hkeys.trans ?_
  show [] ++ _ = _
  simp [Table.keys, EmptyCollection.emptyCollection, Table.empty]

/-- Taking an entry in leaves every identifier with a score that is numerically at least the one
before, and its own with one that is at least the new one. -/
theorem exists_get?_enter {best : Table ContentId Score} (hbest : CleanTable best) (e : Entry) :
    (∀ id old, best.get? id = some old → ∃ new, (enter best e).get? id = some new ∧
        old.signedMagnitude ≤ new.signedMagnitude) ∧
      (e.score.isFinite = true → ∃ new, (enter best e).get? e.id = some new ∧
        e.score.signedMagnitude ≤ new.signedMagnitude) := by
  have hset : (best.set e.id e.score).get? e.id = some e.score := by simp
  unfold enter
  cases hfinite : e.score.isFinite with
  | false => exact ⟨fun id old hold => ⟨old, hold, le_refl _⟩, fun h => absurd h Bool.false_ne_true⟩
  | true =>
    rw [Bool.not_true, if_neg Bool.false_ne_true]
    cases hget : best.get? e.id with
    | none =>
      refine ⟨fun id old hold => ⟨old, ?_, le_refl _⟩, fun _ => ⟨_, hset, le_refl _⟩⟩
      have hid : id ≠ e.id := fun h => by simp [h, hget] at hold
      simp [hid, hold]
    | some score =>
      have hbelow := Score.below_iff (hbest.finite _ _ hget) hfinite
      dsimp only
      split
      · next hless =>
        refine ⟨fun id old hold => ?_, fun _ => ⟨_, hset, le_refl _⟩⟩
        by_cases hid : id = e.id
        · subst hid
          obtain rfl := Option.some.inj (hget.symm.trans hold)
          exact ⟨_, hset, (hbelow.mp hless).le⟩
        · exact ⟨old, by simp [hid, hold], le_refl _⟩
      · next hnot =>
        exact ⟨fun id old hold => ⟨old, hold, le_refl _⟩,
          fun _ => ⟨score, hget, not_lt.mp (mt hbelow.mpr hnot)⟩⟩

theorem signedMagnitude_le_of_foldl_enter {best : Table ContentId Score} (hbest : CleanTable best)
    {id : ContentId} {score : Score} (h : (es.foldl enter best).get? id = some score) :
    (∀ old, best.get? id = some old → old.signedMagnitude ≤ score.signedMagnitude) ∧
      ∀ e ∈ es, e.id = id → e.score.isFinite = true →
        e.score.signedMagnitude ≤ score.signedMagnitude := by
  induction es generalizing best with
  | nil =>
    refine ⟨fun old hold => ?_, fun e he => absurd he List.not_mem_nil⟩
    rw [Option.some.inj (hold.symm.trans h)]
  | cons e es ih =>
    obtain ⟨hkept, hrest⟩ := ih (hbest.enter e) h
    obtain ⟨hold, hnew⟩ := exists_get?_enter hbest e
    refine ⟨fun old hget => ?_, fun e' he' hid hfinite => ?_⟩
    · obtain ⟨new, hafter, hle⟩ := hold id old hget
      exact hle.trans (hkept new hafter)
    · rcases List.mem_cons.mp he' with rfl | he'
      · obtain ⟨new, hafter, hle⟩ := hnew hfinite
        exact hle.trans (hkept new (hid ▸ hafter))
      · exact hrest e' he' hid hfinite

/-- The score that is kept of an identifier is the greatest of its finite ones. -/
theorem signedMagnitude_le_of_mem_dedupe (h : e ∈ dedupe es) {e' : Entry} (he' : e' ∈ es)
    (hid : e'.id = e.id) (hfinite : e'.score.isFinite = true) :
    e'.score.signedMagnitude ≤ e.score.signedMagnitude := by
  have htable := cleanTable_empty.foldl_enter es
  obtain ⟨p, hp, rfl⟩ := List.mem_map.mp h
  have hget := htable.distinct.mem_pairs_iff.mp hp
  exact (signedMagnitude_le_of_foldl_enter cleanTable_empty hget).2 e' he' hid hfinite

end Selection

def Entry.SameAs (a b : Entry) : Prop := a.id = b.id ∧ a.score.same b.score = true

namespace Selection

/-- Of entries in two orders, those that are kept of one identifier have numerically one score. -/
theorem sameAs_of_ids {kept : List Entry} (hperm : es.Perm es') (hkept : kept.Perm (dedupe es'))
    (hids : List.Forall₂ (fun a b => a.id = b.id) (dedupe es) kept) :
    List.Forall₂ Entry.SameAs (dedupe es) kept := by
  rw [List.forall₂_iff_zip] at hids ⊢
  refine ⟨hids.1, fun {a b} hab => ?_⟩
  obtain ⟨ha, hb⟩ := List.of_mem_zip hab
  have hb := hkept.subset hb
  have hid : a.id = b.id := hids.2 hab
  have hfinite := (clean_dedupe es).finite a ha
  have hfinite' := (clean_dedupe es').finite b hb
  refine ⟨hid, (Score.same_iff hfinite hfinite').mpr (le_antisymm ?_ ?_)⟩
  · exact signedMagnitude_le_of_mem_dedupe hb (hperm.subset (mem_of_mem_dedupe ha)) hid hfinite
  · exact signedMagnitude_le_of_mem_dedupe ha (hperm.symm.subset (mem_of_mem_dedupe hb)) hid.symm
      hfinite'

/-- The entries that are kept are told by the finite ones: by the order of their identifiers, and
by which entries there are at all. -/
theorem dedupe_sameAs (hids : (finiteOnes es).map Entry.id = (finiteOnes es').map Entry.id)
    (hperm : es.Perm es') : List.Forall₂ Entry.SameAs (dedupe es) (dedupe es') := by
  have hsame : (dedupe es).map Entry.id = (dedupe es').map Entry.id := by
    rw [ids_dedupe, ids_dedupe, hids]
  refine sameAs_of_ids hperm (.refl _) ?_
  rw [← List.forall₂_map_left_iff (f := Entry.id) (R := fun i (b : Entry) => i = b.id),
    ← List.forall₂_map_right_iff, List.forall₂_eq_eq_eq]
  exact hsame

/-! ## What is kept, and in which order -/

def firstPlace (es : List Entry) (id : ContentId) : Nat :=
  es.findIdx fun e => e.id = id ∧ e.score.isFinite = true

/-- What is kept of the entries: every identifier that comes up with a finite score, once, in the
order in which identifiers first do, with the entry that has the greatest of its finite scores. -/
structure KeepsGreatest (es kept : List Entry) : Prop where
  nodup : (kept.map Entry.id).Nodup
  mem_ids : ∀ id, id ∈ kept.map Entry.id ↔ ∃ e ∈ es, e.id = id ∧ e.score.isFinite = true
  first : kept.Pairwise fun a b => firstPlace es a.id < firstPlace es b.id
  mem : ∀ e ∈ kept, e ∈ es ∧ e.score.isFinite = true
  greatest : ∀ e ∈ kept, ∀ e' ∈ es, e'.id = e.id → e'.score.isFinite = true →
    e'.score.value ≤ e.score.value

def counted? (e : Entry) : Option ContentId :=
  (Option.guard (fun e => e.score.isFinite) e).map Entry.id

theorem counted?_eq_some {id : ContentId} :
    counted? e = some id ↔ e.id = id ∧ e.score.isFinite = true := by
  cases hfinite : e.score.isFinite <;> simp [counted?, Option.guard, hfinite]

theorem map_id_finiteOnes (es : List Entry) :
    (finiteOnes es).map Entry.id = es.filterMap counted? := by
  rw [finiteOnes, ← List.filterMap_eq_filter, List.map_filterMap]
  rfl

theorem pairwise_firstPlace (es : List Entry) :
    (dedupe es).Pairwise fun a b => firstPlace es a.id < firstPlace es b.id := by
  have hplaces := pairwise_findIdx_unseen counted? es []
  rw [← map_id_finiteOnes, List.filter_eq_self.mpr (by simp), ← ids_dedupe,
    List.pairwise_map] at hplaces
  simp only [counted?_eq_some] at hplaces
  exact hplaces

theorem keepsGreatest_dedupe (es : List Entry) : KeepsGreatest es (dedupe es) where
  nodup := (clean_dedupe es).nodup
  mem_ids id := by
    rw [mem_ids_dedupe]
    simp only [@eq_comm _ id]
  first := pairwise_firstPlace es
  mem e he := ⟨mem_of_mem_dedupe he, (clean_dedupe es).finite e he⟩
  greatest e he e' he' hid hfinite := by
    have hkept := (clean_dedupe es).finite e he
    have hle := signedMagnitude_le_of_mem_dedupe he he' hid hfinite
    rw [← not_lt, ← Score.below_iff hkept hfinite, Score.below_iff_value hkept hfinite] at hle
    exact not_lt.mp hle

theorem ids_dedupe_perm (hperm : es.Perm es') :
    ((dedupe es).map Entry.id).Perm ((dedupe es').map Entry.id) := by
  rw [List.perm_ext_iff_of_nodup (clean_dedupe es).nodup (clean_dedupe es').nodup]
  intro id
  simp only [mem_ids_dedupe, hperm.mem_iff]

/-- Of each identifier the greatest finite score is kept.  Keeping once more changes nothing, and
of the same entries in another order the same ones are kept in some order. -/
theorem dedupe_keeps_greatest (es : List Entry) :
    KeepsGreatest es (dedupe es) ∧ dedupe (dedupe es) = dedupe es ∧
      ∀ es', es.Perm es' → ∃ kept, kept.Perm (dedupe es') ∧
        List.Forall₂ Entry.SameAs (dedupe es) kept := by
  refine ⟨keepsGreatest_dedupe es, dedupe_of_clean (clean_dedupe es), fun es' hperm => ?_⟩
  have hids : List.Forall₂ (fun id e => id = e.id) ((dedupe es').map Entry.id) (dedupe es') := by
    rw [List.forall₂_map_left_iff]
    exact List.forall₂_same.mpr fun _ _ => rfl
  obtain ⟨kept, hmatch, hkept⟩ := List.perm_comp_forall₂ (ids_dedupe_perm hperm) hids
  rw [List.forall₂_map_left_iff] at hmatch
  exact ⟨kept, hkept, sameAs_of_ids hperm hkept hmatch⟩

/-- Two identifiers that come up in turns, one with both zeros, the other also with what is not
finite. -/
def turnsTaken : List Entry :=
  [⟨2, .notANumber⟩, ⟨1, .negativeZero⟩, ⟨2, .ofNat 3⟩, ⟨1, .zero⟩, ⟨2, .infinity⟩, ⟨2, .ofNat 5⟩]

/-- Read backwards, another order and another zero are kept. -/
theorem dedupe_keeps_greatest_backwards :
    turnsTaken.Perm turnsTaken.reverse ∧
      dedupe turnsTaken = [⟨1, .negativeZero⟩, ⟨2, .ofNat 5⟩] ∧
      dedupe turnsTaken.reverse = [⟨2, .ofNat 5⟩, ⟨1, .zero⟩] ∧
      ∃ kept, kept.Perm (dedupe turnsTaken.reverse) ∧
        List.Forall₂ Entry.SameAs (dedupe turnsTaken) kept :=
  ⟨(List.reverse_perm _).symm, by decide, by decide,
    (dedupe_keeps_greatest turnsTaken).2.2 _ (List.reverse_perm _).symm⟩

end Selection
end WarmFeed
