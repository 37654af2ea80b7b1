import WarmFeed.Precompute.Apply
import WarmFeed.Proofs.Backend
import WarmFeed.Proofs.Precompute.Selection

/-!
# Both ways of bringing entries in

Writing what differs and removing what is gone leaves the same contents as
replacing everything.  What differs is told by comparing numbers, and that agrees
with what is stored because minus zero is never stored.  The new entries fit into
the feed, so there is nothing left to trim.
-/

namespace WarmFeed

theorem Ledger.refused?_of_finite {es : List Entry} (h : ∀ e ∈ es, e.score.isFinite = true) :
    Ledger.refused? es = none := by
  unfold Ledger.refused?
  rw [List.find?_eq_none]
  intro s hs
  obtain ⟨e, he, rfl⟩ := List.mem_map.mp hs
  rw [h e he]
  decide

theorem Ledger.store_of_finite (m : Ledger) (key : StoreKey) (old : Contents) {es : List Entry}
    (h : ∀ e ∈ es, e.score.isFinite = true) :
    m.store key old es = (.ok (), Function.update m key (old.writeAll (es.map Entry.stored))) := by
  rw [Ledger.store, Ledger.refused?_of_finite h]

namespace Apply

def contentsOf (es : List Entry) : Contents := (∅ : Contents).writeAll (es.map Entry.stored)

theorem ids_stored (es : List Entry) : (es.map Entry.stored).map Entry.id = es.map Entry.id := by
  rw [List.map_map]
  rfl

theorem nodup_stored {es : List Entry} (h : Selection.Clean es) :
    ((es.map Entry.stored).map Entry.id).Nodup := by
  rw [ids_stored]
  exact h.nodup

theorem mentions_iff {es : List Entry} {id : ContentId} :
    mentions es id = true ↔ id ∈ es.map Entry.id := by
  unfold mentions
  rw [List.any_eq_true, List.mem_map]
  constructor
  · rintro ⟨e, he, hid⟩
    exact ⟨e, he, of_decide_eq_true hid⟩
  · rintro ⟨e, he, hid⟩
    exact ⟨e, he, decide_eq_true hid⟩

section Difference

variable {c : Contents} {es : List Entry}

theorem scoreIn_entryList (c : Contents) (id : ContentId) :
    scoreIn c.entryList id = c.lookup id := by
  unfold scoreIn
  cases hfind : c.entryList.find? fun e => decide (e.id = id) with
  | none =>
    cases hlookup : c.lookup id with
    | none => rfl
    | some score =>
      have hmem : (⟨id, score⟩ : Entry) ∈ c.entryList := Contents.mem_entryList.mpr hlookup
      exact absurd (decide_eq_true rfl) (List.find?_eq_none.mp hfind _ hmem)
  | some e =>
    have hfound := List.find?_some hfind
    have hid : e.id = id := of_decide_eq_true hfound
    have hmem := Contents.mem_entryList.mp (List.mem_of_find?_eq_some hfind)
    rw [← hid, hmem]
    rfl

/-- An entry counts as different exactly if the feed does not hold it as it is stored. -/
theorem differs_iff (hc : ∀ p ∈ c.ascending, p.score.IsStored) {e : Entry}
    (he : e.score.isFinite = true) :
    differs c.entryList e = true ↔ c.lookup e.id ≠ some e.stored.score := by
  unfold differs
  rw [scoreIn_entryList]
  cases hlookup : c.lookup e.id with
  | none => exact iff_of_true rfl (Option.some_ne_none _).symm
  | some score =>
    have hstored := hc ⟨score, e.id⟩ (Contents.mem_ascending.mpr hlookup)
    have hsame := Score.same_iff_eq_fold hstored he
    show (!score.same e.score) = true ↔ some score ≠ some e.score.fold
    rw [Bool.not_eq_true', ← Bool.not_eq_true, hsame, Ne, Option.some.injEq]

/-- An identifier of the new entries is not gone, and its entry is either written or was
there already. -/
theorem lookup_difference_of_mem (hc : ∀ p ∈ c.ascending, p.score.IsStored)
    (hes : Selection.Clean es) {e : Entry} (he : e ∈ es) :
    ((c.writeAll ((es.filter (differs c.entryList)).map Entry.stored)).eraseAll
        ((c.entryList.filter fun e => !mentions es e.id).map Entry.id)).lookup e.id =
      some e.stored.score := by
  have hkept : e.id ∉ (c.entryList.filter fun e => !mentions es e.id).map Entry.id := by
    intro hgone
    obtain ⟨e', he', hsame⟩ := List.mem_map.mp hgone
    have hmentions := (List.mem_filter.mp he').2
    rw [hsame, mentions_iff.mpr (List.mem_map_of_mem he)] at hmentions
    exact absurd hmentions (by decide)
  rw [Contents.lookup_eraseAll, if_neg hkept]
  by_cases hdiffers : differs c.entryList e = true
  · have hchanged : e.stored ∈ (es.filter (differs c.entryList)).map Entry.stored :=
      List.mem_map_of_mem (List.mem_filter.mpr ⟨he, hdiffers⟩)
    exact Contents.lookup_writeAll_of_mem (nodup_stored (hes.filter _)) hchanged
  · have hunchanged : e.id ∉ ((es.filter (differs c.entryList)).map Entry.stored).map Entry.id := by
      rw [ids_stored]
      intro hchanged
      obtain ⟨e', he', hsame⟩ := List.mem_map.mp hchanged
      obtain ⟨hmem, hdiffers'⟩ := List.mem_filter.mp he'
      obtain rfl := List.inj_on_of_nodup_map hes.nodup hmem he hsame
      exact hdiffers hdiffers'
    rw [Contents.lookup_writeAll_of_notMem hunchanged]
    rw [differs_iff hc (hes.finite e he), not_not] at hdiffers
    exact hdiffers

/-- Any other identifier is not written, and gone if it was there. -/
theorem lookup_difference_of_notMem {id : ContentId} (hid : id ∉ es.map Entry.id) :
    ((c.writeAll ((es.filter (differs c.entryList)).map Entry.stored)).eraseAll
        ((c.entryList.filter fun e => !mentions es e.id).map Entry.id)).lookup id = none := by
  have hunchanged : id ∉ ((es.filter (differs c.entryList)).map Entry.stored).map Entry.id := by
    rw [ids_stored]
    exact fun hchanged => hid ((List.filter_sublist.map _).subset hchanged)
  rw [Contents.lookup_eraseAll, Contents.lookup_writeAll_of_notMem hunchanged]
  by_cases hgone : id ∈ (c.entryList.filter fun e => !mentions es e.id).map Entry.id
  · rw [if_pos hgone]
  · rw [if_neg hgone]
    cases hlookup : c.lookup id with
    | none => rfl
    | some score =>
      exfalso
      apply hgone
      have hmentions : mentions es id = false := by
        rw [← Bool.not_eq_true, mentions_iff]
        exact hid
      refine List.mem_map.mpr ⟨⟨id, score⟩, List.mem_filter.mpr ⟨?_, ?_⟩, rfl⟩
      · exact Contents.mem_entryList.mpr hlookup
      · rw [hmentions, Bool.not_false]

theorem lookup_contentsOf_of_mem (hes : Selection.Clean es) {e : Entry} (he : e ∈ es) :
    (contentsOf es).lookup e.id = some e.stored.score :=
  Contents.lookup_writeAll_of_mem (nodup_stored hes) (List.mem_map_of_mem (f := Entry.stored) he)

/-- Writing what differs and removing what is gone leaves exactly the new entries. -/
theorem difference_eq (hc : ∀ p ∈ c.ascending, p.score.IsStored) (hes : Selection.Clean es) :
    (c.writeAll ((es.filter (differs c.entryList)).map Entry.stored)).eraseAll
        ((c.entryList.filter fun e => !mentions es e.id).map Entry.id) = contentsOf es := by
  apply Finmap.ext_lookup
  intro id
  by_cases hid : id ∈ es.map Entry.id
  · obtain ⟨e, he, rfl⟩ := List.mem_map.mp hid
    rw [lookup_difference_of_mem hc hes he, lookup_contentsOf_of_mem hes he]
  · rw [lookup_difference_of_notMem hid, contentsOf,
      Contents.lookup_writeAll_of_notMem (by rwa [ids_stored]), Finmap.lookup_empty]

end Difference

/-! ## Carrying it out -/

section Carrying

variable {σ : Type} {answer : Backend σ} {view : σ → FeedIndex} {s : σ} {key : StoreKey}
  {es : List Entry}

theorem attempt_trim (h : Backend.HoldsIndex answer view) {capacity : Nat}
    (hfits : ((view s).feed key).size ≤ capacity) :
    ∃ s', Routine.attempt answer s (askIndex key (.trim capacity)) = (.ok 0, s') ∧
      view s' = view s := by
  obtain ⟨s', hattempt, hview⟩ := h.attempt_askIndex s key (.trim capacity)
  have htrim : (view s).answer key (.trim capacity) = (.ok 0, view s) := by
    show (Except.ok ((view s).trim key capacity).1, ((view s).trim key capacity).2) = _
    rw [FeedIndex.trim_of_size_le hfits]
  rw [htrim] at hattempt hview
  exact ⟨s', hattempt, hview⟩

theorem size_contentsOf (hes : Selection.Clean es) : (contentsOf es).size = es.length := by
  rw [contentsOf, Contents.size_writeAll (nodup_stored hes), List.length_map]

theorem size_of_contents {x : FeedIndex} (hx : x.Consistent) (hes : Selection.Clean es)
    (hcontents : (x.feed key).contents = contentsOf es) : (x.feed key).size = es.length := by
  rw [(hx key).size_eq, hcontents, size_contentsOf hes]

theorem eq_nil_of_not_isEmpty {α : Type} {l : List α} (h : ¬ (!l.isEmpty) = true) : l = [] := by
  rw [Bool.not_eq_true', Bool.not_eq_false, List.isEmpty_iff] at h
  exact h

/-- The write of an incremental change, which is not made if there is nothing to write. -/
theorem attempt_upsertMany_unless_empty (h : Backend.HoldsIndex answer view)
    (hx : (view s).Consistent) (key : StoreKey) (hes : ∀ e ∈ es, e.score.isFinite = true) :
    ∃ s', (view s).ChangedTo key
        (((view s).feed key).contents.writeAll (es.map Entry.stored)) (view s') ∧
      ((!es.isEmpty) = true →
        Routine.attempt answer s (askIndex key (.upsertMany es)) = (.ok (), s')) ∧
      (¬ (!es.isEmpty) = true → s' = s) := by
  refine h.attempt_change_if hx _ (Ledger.store_of_finite _ key _ hes) fun hempty => ?_
  rw [eq_nil_of_not_isEmpty hempty]
  rfl

theorem attempt_removeMany_unless_empty (h : Backend.HoldsIndex answer view)
    (hx : (view s).Consistent) (key : StoreKey) (ids : List ContentId) :
    ∃ s', (view s).ChangedTo key (((view s).feed key).contents.eraseAll ids) (view s') ∧
      ((!ids.isEmpty) = true →
        Routine.attempt answer s (askIndex key (.removeMany ids)) = (.ok (), s')) ∧
      (¬ (!ids.isEmpty) = true → s' = s) := by
  refine h.attempt_change_if hx _ rfl fun hempty => ?_
  rw [eq_nil_of_not_isEmpty hempty]
  rfl

/-- What of a feed's entries has to be written. -/
abbrev changedIn (x : FeedIndex) (key : StoreKey) (es : List Entry) : List Entry :=
  es.filter (differs (x.feed key).entries)

abbrev goneFrom (x : FeedIndex) (key : StoreKey) (es : List Entry) : List Entry :=
  (x.feed key).entries.filter fun e => !mentions es e.id

/-- In steps: what differs is written, what is gone is removed, and the trim finds nothing
to do.  Without a difference the index stays as it is. -/
theorem attempt_incremental (h : Backend.HoldsIndex answer view) (hx : (view s).Consistent)
    (key : StoreKey) (hes : Selection.Clean es) {capacity : Nat} (hfits : es.length ≤ capacity) :
    ∃ s', Routine.attempt answer s (incremental capacity key es) =
        (.ok ⟨(changedIn (view s) key es).length, (goneFrom (view s) key es).length⟩, s') ∧
      (view s).ChangedTo key (contentsOf es) (view s') ∧
      (changedIn (view s) key es = [] → goneFrom (view s) key es = [] → view s' = view s) := by
  obtain ⟨s₀, hread, hview₀⟩ := h.attempt_read s key (r := .entries) rfl
  have hfinite : ∀ e ∈ changedIn (view s) key es, e.score.isFinite = true := (hes.filter _).finite
  obtain ⟨s₁, hwrite, hmade₁, hleft₁⟩ :=
    attempt_upsertMany_unless_empty h (hview₀ ▸ hx) key hfinite
  obtain ⟨s₂, hremove, hmade₂, hleft₂⟩ := attempt_removeMany_unless_empty h hwrite.consistent key
    ((goneFrom (view s) key es).map Entry.id)
  have hnew := hwrite.trans hremove
  rw [hwrite.contents, hview₀, changedIn, goneFrom, (hx key).entries_eq,
    difference_eq (hx key).stored_ascending hes] at hnew
  have hsize := size_of_contents hnew.consistent hes hnew.contents
  obtain ⟨s₃, htrim, hview₃⟩ := attempt_trim h (hsize.le.trans hfits)
  refine ⟨s₃, ?_, ?_, fun hsame hall => ?_⟩
  · unfold incremental
    rw [Routine.attempt_bind_ok hread]
    dsimp only
    rw [Routine.attempt_step hmade₁ hleft₁, Routine.attempt_step hmade₂ hleft₂,
      Routine.attempt_bind_ok htrim, List.length_map]
    rfl
  · rw [hview₃]
    exact hnew
  · rw [hsame] at hleft₁
    rw [hall] at hleft₂
    rw [hview₃, hleft₂ (by decide), hleft₁ (by decide), hview₀]

/-- At once: everything is replaced. -/
theorem attempt_swap (h : Backend.HoldsIndex answer view) (hx : (view s).Consistent)
    (key : StoreKey) (hes : Selection.Clean es) :
    ∃ s', Routine.attempt answer s (swap key es) =
        (.ok ⟨es.length, (goneFrom (view s) key es).length⟩, s') ∧
      (view s).ChangedTo key (contentsOf es) (view s') := by
  obtain ⟨s₀, hread, hview₀⟩ := h.attempt_read s key (r := .entries) rfl
  obtain ⟨s₁, hreplace, hnew⟩ := h.attempt_change (hview₀ ▸ hx) (r := .replace es)
    (Ledger.store_of_finite (view s₀).ledger key ∅ hes.finite)
  refine ⟨s₁, ?_, hview₀ ▸ hnew⟩
  unfold swap
  rw [Routine.attempt_bind_ok hread]
  exact Routine.attempt_bind_ok hreplace

end Carrying

/-! ## What is reported -/

def written (mode : ApplyMode) (x : FeedIndex) (key : StoreKey) (es : List Entry) : Nat :=
  match mode with
  | .swap => es.length
  | .incremental => es.countP fun e => decide (x.score? key e.id ≠ some e.stored.score)

def dropped (x : FeedIndex) (key : StoreKey) (es : List Entry) : Nat :=
  (x.feed key).entries.countP fun e => decide (e.id ∉ es.map Entry.id)

section Report

variable {x : FeedIndex} {es : List Entry} (hx : x.Consistent) (key : StoreKey)

theorem length_goneFrom (x : FeedIndex) (key : StoreKey) (es : List Entry) :
    (goneFrom x key es).length = dropped x key es := by
  rw [goneFrom, dropped, ← List.countP_eq_length_filter]
  refine List.countP_congr fun e _ => ?_
  rw [Bool.not_eq_true', ← Bool.not_eq_true, mentions_iff, decide_eq_true_eq]

include hx

theorem differs_iff_score? {e : Entry} (he : e.score.isFinite = true) :
    differs (x.feed key).entries e = true ↔ x.score? key e.id ≠ some e.stored.score := by
  rw [(hx key).entries_eq, differs_iff (hx key).stored_ascending he,
    SortedEntries.lookup_contents]
  exact Iff.rfl

theorem length_changedIn (hes : Selection.Clean es) :
    (changedIn x key es).length = written .incremental x key es := by
  rw [changedIn, written, ← List.countP_eq_length_filter]
  refine List.countP_congr fun e he => ?_
  rw [differs_iff_score? hx key (hes.finite e he), decide_eq_true_eq]

/-- In a feed that has exactly these entries nothing differs and nothing is gone. -/
theorem no_difference (hes : Selection.Clean es)
    (hcontents : (x.feed key).contents = contentsOf es) :
    changedIn x key es = [] ∧ goneFrom x key es = [] := by
  constructor
  · rw [changedIn, List.filter_eq_nil_iff]
    intro e he
    rw [differs_iff_score? hx key (hes.finite e he), not_not]
    have hlookup := lookup_contentsOf_of_mem hes he
    rw [← hcontents, SortedEntries.lookup_contents] at hlookup
    exact hlookup
  · rw [goneFrom, List.filter_eq_nil_iff]
    intro e he
    rw [Bool.not_eq_true', ← Bool.not_eq_true, mentions_iff, not_not]
    rw [(hx key).entries_eq, hcontents, contentsOf,
      (Contents.entryList_writeAll_perm (nodup_stored hes)).mem_iff] at he
    rw [← ids_stored]
    exact List.mem_map_of_mem he

end Report

/-- In either way: the feed has exactly the new entries afterwards, and both counts are
those of the change. -/
theorem attempt_apply {σ : Type} {answer : Backend σ} {view : σ → FeedIndex}
    (h : Backend.HoldsIndex answer view) {s : σ} (hx : (view s).Consistent) (mode : ApplyMode)
    (key : StoreKey) {es : List Entry} (hes : Selection.Clean es) {capacity : Nat}
    (hfits : es.length ≤ capacity) :
    ∃ s', Routine.attempt answer s (apply mode capacity key es) =
        (.ok ⟨written mode (view s) key es, dropped (view s) key es⟩, s') ∧
      (view s).ChangedTo key (contentsOf es) (view s') := by
  rw [← length_goneFrom]
  cases mode with
  | incremental =>
    obtain ⟨s', hattempt, hchanged, -⟩ := attempt_incremental h hx key hes hfits
    rw [length_changedIn hx key hes] at hattempt
    exact ⟨s', hattempt, hchanged⟩
  | swap => exact attempt_swap h hx key hes

/-- In steps, where the feed has exactly these entries already, nothing happens. -/
theorem attempt_apply_again {σ : Type} {answer : Backend σ} {view : σ → FeedIndex}
    (h : Backend.HoldsIndex answer view) {s : σ} (hx : (view s).Consistent) (key : StoreKey)
    {es : List Entry} (hes : Selection.Clean es) {capacity : Nat} (hfits : es.length ≤ capacity)
    (hcontents : ((view s).feed key).contents = contentsOf es) :
    ∃ s', Routine.attempt answer s (apply .incremental capacity key es) = (.ok ⟨0, 0⟩, s') ∧
      view s' = view s := by
  obtain ⟨hchanged, hgone⟩ := no_difference hx key hes hcontents
  obtain ⟨s', hattempt, -, hsame⟩ := attempt_incremental h hx key hes hfits
  rw [hchanged, hgone] at hattempt
  exact ⟨s', hattempt, hsame hchanged hgone⟩

end Apply
end WarmFeed
