import WarmFeed.Proofs.Index.Keeper
import WarmFeed.Proofs.Index.Sorted

/-!
# The index keeps what the ledger says

As long as the two structures of every feed are in step, the index answers each
request as the ledger of its contents does, and the request leaves the two
structures in step.  So whatever is asked of an index that was empty at first,
its answers are those of finite maps, and in each state that can be reached the
structures agree.
-/

namespace WarmFeed

/-! ## Checking a batch -/

theorem Score.validate_eq (s : Score) :
    s.validate = if s.isFinite then .ok s.fold else .error (.invalidScore s) := rfl

/-- A batch whose scores are checked one after the other is refused with the first one
that cannot be stored. -/
theorem Score.mapM_validate {α : Type} (f : Entry → Score → α) (es : List Entry) :
    (es.mapM fun e => do return f e (← e.score.validate) : Except StoreError (List α)) =
      match Ledger.refused? es with
      | some s => .error (.invalidScore s)
      | none => .ok (es.map fun e => f e e.score.fold) := by
  unfold Ledger.refused?
  induction es with
  | nil => rfl
  | cons e es ih =>
    rw [List.mapM_cons, ih, Score.validate_eq, List.map_cons, List.find?_cons]
    cases he : e.score.isFinite with
    | false => rfl
    | true =>
      simp only [if_true, Bool.not_true]
      cases (es.map Entry.score).find? fun s => !s.isFinite <;> rfl

theorem Entry.validateAll_eq (es : List Entry) :
    Entry.validateAll es =
      match Ledger.refused? es with
      | some s => .error (.invalidScore s)
      | none => .ok (es.map Entry.stored) :=
  Score.mapM_validate (fun e score => (⟨e.id, score⟩ : Entry)) es

theorem Ledger.isStored_of_refused? {es : List Entry} (h : Ledger.refused? es = none) :
    ∀ e ∈ es.map Entry.stored, e.score.IsStored := by
  intro e he
  obtain ⟨e, hmem, rfl⟩ := List.mem_map.mp he
  have hfinite := List.find?_eq_none.mp h e.score (List.mem_map_of_mem hmem)
  exact Score.isStored_fold (by simpa using hfinite)

namespace FeedIndex

def Consistent (x : FeedIndex) : Prop := ∀ key, (x.feed key).Consistent

def ledger (x : FeedIndex) : Ledger := fun key => (x.feed key).contents

theorem consistent_empty : (∅ : FeedIndex).Consistent := fun _ => SortedEntries.consistent_empty

theorem ledger_empty : (∅ : FeedIndex).ledger = Ledger.empty := rfl

/-! ## Changing one feed -/

theorem feed_setFeed (x : FeedIndex) (key : StoreKey) (s : SortedEntries) :
    (x.setFeed key s).feed = Function.update x.feed key s := by
  funext key'
  rw [Function.update_apply, feed, setFeed, Table.get?_set]
  by_cases h : key' = key
  · rw [if_pos h, if_pos h, Option.getD_some]
  · rw [if_neg h, if_neg h, feed]

theorem feed_erase (x : FeedIndex) (key : StoreKey) :
    feed ⟨x.feeds.erase key⟩ = Function.update x.feed key ∅ := by
  funext key'
  rw [Function.update_apply, feed, Table.get?_erase]
  by_cases h : key' = key
  · rw [if_pos h, if_pos h, Option.getD_none]
  · rw [if_neg h, if_neg h, feed]

theorem feed_modifyExisting (x : FeedIndex) (key : StoreKey) {f : SortedEntries → SortedEntries}
    (hf : f ∅ = ∅) :
    (x.modifyExisting key f).feed = Function.update x.feed key (f (x.feed key)) := by
  unfold modifyExisting
  split
  · rename_i hnone
    have hfeed : x.feed key = ∅ := by rw [feed, hnone, Option.getD_none]
    rw [hfeed, hf, ← hfeed, Function.update_eq_self]
  · rename_i s hs
    have hfeed : x.feed key = s := by rw [feed, hs, Option.getD_some]
    rw [feed_setFeed, hfeed]

theorem trim_eq (x : FeedIndex) (key : StoreKey) (capacity : Nat) :
    (x.trim key capacity).1 = ((x.feed key).trim capacity).1 ∧
      (x.trim key capacity).2.feed =
        Function.update x.feed key ((x.feed key).trim capacity).2 := by
  unfold trim
  split
  · rename_i hnone
    have hfeed : x.feed key = ∅ := by rw [feed, hnone, Option.getD_none]
    have htrim : (∅ : SortedEntries).trim capacity = (0, ∅) := by
      simp [SortedEntries.trim, SortedEntries.size, EmptyCollection.emptyCollection,
        SortedEntries.empty]
    rw [hfeed, htrim]
    exact ⟨rfl, (by rw [← hfeed, Function.update_eq_self])⟩
  · rename_i s hs
    have hfeed : x.feed key = s := by rw [feed, hs, Option.getD_some]
    rw [hfeed]
    exact ⟨rfl, feed_setFeed x key _⟩

theorem trim_of_size_le {x : FeedIndex} {key : StoreKey} {capacity : Nat}
    (h : (x.feed key).size ≤ capacity) : x.trim key capacity = (0, x) := by
  unfold trim
  split
  · rfl
  · rename_i s hs
    have hfeed : x.feed key = s := by rw [feed, hs, Option.getD_some]
    rw [hfeed] at h
    have htrim : s.trim capacity = (0, s) := by
      unfold SortedEntries.trim
      rw [Nat.sub_eq_zero_of_le h]
      show (0, (⟨s.ordered.extract 0 s.ordered.size, s.scores⟩ : SortedEntries)) = (0, s)
      rw [Array.extract_size]
    rw [htrim]
    show (0, (⟨x.feeds.set key s⟩ : FeedIndex)) = (0, x)
    rw [Table.set_get? hs]

theorem removeAll_empty (ids : List ContentId) : (∅ : SortedEntries).removeAll ids = ∅ := by
  induction ids with
  | nil => rfl
  | cons id ids ih => exact ih

section Update

variable {x y : FeedIndex} {key : StoreKey} {s : SortedEntries}

theorem ledger_update (h : y.feed = Function.update x.feed key s) :
    y.ledger = Function.update x.ledger key s.contents := by
  funext key'
  rw [ledger, h, Function.update_apply, Function.update_apply]
  split <;> rfl

theorem Consistent.update (hx : x.Consistent) (h : y.feed = Function.update x.feed key s)
    (hs : s.Consistent) : y.Consistent := by
  intro key'
  rw [h, Function.update_apply]
  split
  · exact hs
  · exact hx key'

end Update

/-! ## One request -/

/-- A checked batch is written over `old` or refused, as in the ledger. -/
theorem written_eq {x : FeedIndex} (hx : x.Consistent) {key : StoreKey} {old : SortedEntries}
    (hold : old.Consistent) (es : List Entry) {w : Except StoreError FeedIndex}
    (hw : w = (Entry.validateAll es).map fun es => x.setFeed key (old.upsertAll es)) :
    (x.written w).1 = (x.ledger.store key old.contents es).1 ∧
      (x.written w).2.ledger = (x.ledger.store key old.contents es).2 ∧
      (x.written w).2.Consistent := by
  rw [hw, Entry.validateAll_eq, Ledger.store]
  cases hrefused : Ledger.refused? es with
  | some s => exact ⟨rfl, rfl, hx⟩
  | none =>
    have hfeed := feed_setFeed x key (old.upsertAll (es.map Entry.stored))
    refine ⟨rfl, ?_, hx.update hfeed (hold.upsertAll (Ledger.isStored_of_refused? hrefused))⟩
    rw [← SortedEntries.contents_upsertAll]
    exact ledger_update hfeed

theorem upsert_eq (x : FeedIndex) (key : StoreKey) (e : Entry) :
    x.upsert key e =
      (Entry.validateAll [e]).map fun es => x.setFeed key ((x.feed key).upsertAll es) := by
  rw [upsert, Entry.validateAll, List.mapM_cons, Entry.validate]
  cases e.score.validate <;> rfl

theorem upsertMany_cons (x : FeedIndex) (key : StoreKey) (e : Entry) (es : List Entry) :
    x.upsertMany key (e :: es) =
      (Entry.validateAll (e :: es)).map fun es =>
        x.setFeed key ((x.feed key).upsertAll es) := by
  rw [upsertMany]
  cases Entry.validateAll (e :: es) <;> rfl

theorem replace_cons (x : FeedIndex) (key : StoreKey) (e : Entry) (es : List Entry) :
    x.replace key (e :: es) =
      (Entry.validateAll (e :: es)).map fun es =>
        x.setFeed key (SortedEntries.empty.upsertAll es) := by
  rw [replace]
  cases Entry.validateAll (e :: es) <;> rfl

/-- One request: the answer is that of the ledger, and so are the contents after it. -/
theorem answer_eq_ledger {x : FeedIndex} (hx : x.Consistent) (key : StoreKey)
    (r : IndexRequest) :
    (x.answer key r).1 = (Ledger.answer x.ledger key r).1 ∧
      (x.answer key r).2.ledger = (Ledger.answer x.ledger key r).2 ∧
      (x.answer key r).2.Consistent := by
  have hfeed := hx key
  cases r with
  | upsert e => exact written_eq hx hfeed [e] (x.upsert_eq key e)
  | upsertMany es =>
    cases es with
    | nil =>
      refine ⟨rfl, ?_, hx⟩
      exact (Function.update_eq_self key x.ledger).symm
    | cons e es => exact written_eq hx hfeed (e :: es) (x.upsertMany_cons key e es)
  | remove id =>
    have hremove := feed_modifyExisting x key (f := (·.remove id)) rfl
    refine ⟨rfl, ?_, hx.update hremove (hfeed.remove id)⟩
    rw [show (Ledger.answer x.ledger key (.remove id)).2 =
      Function.update x.ledger key ((x.feed key).contents.erase id) from rfl,
      ← SortedEntries.contents_remove]
    exact ledger_update hremove
  | removeMany ids =>
    have hremove := feed_modifyExisting x key (f := (·.removeAll ids)) (removeAll_empty ids)
    refine ⟨rfl, ?_, hx.update hremove (hfeed.removeAll ids)⟩
    rw [show (Ledger.answer x.ledger key (.removeMany ids)).2 =
      Function.update x.ledger key ((x.feed key).contents.eraseAll ids) from rfl,
      ← SortedEntries.contents_removeAll]
    exact ledger_update hremove
  | rank id => exact ⟨congrArg Except.ok (hfeed.rank?_eq id), rfl, hx⟩
  | score id =>
    exact ⟨congrArg Except.ok (SortedEntries.lookup_contents _ id).symm, rfl, hx⟩
  | range q => exact ⟨congrArg Except.ok (hfeed.range_eq q), rfl, hx⟩
  | rankWindow offset limit =>
    exact ⟨congrArg Except.ok (hfeed.rankWindow_eq offset limit), rfl, hx⟩
  | entries => exact ⟨congrArg Except.ok hfeed.entries_eq, rfl, hx⟩
  | replace es =>
    cases es with
    | nil =>
      have herase := feed_erase x key
      exact ⟨rfl, ledger_update herase, hx.update herase SortedEntries.consistent_empty⟩
    | cons e es =>
      exact written_eq hx SortedEntries.consistent_empty (e :: es) (x.replace_cons key e es)
  | size => exact ⟨congrArg Except.ok hfeed.size_eq, rfl, hx⟩
  | trim capacity =>
    obtain ⟨hdropped, htrim⟩ := trim_eq x key capacity
    refine ⟨?_, ?_, hx.update htrim (hfeed.trim capacity)⟩
    · show Except.ok (x.trim key capacity).1 = Except.ok (_ - _)
      rw [hdropped, SortedEntries.trim, hfeed.size_eq, Contents.size_greatest, ledger]
      congr 1
      omega
    · show (x.trim key capacity).2.ledger = Function.update x.ledger key _
      rw [ledger_update htrim, hfeed.contents_trim, ledger]

/-- A request that fails changes nothing. -/
theorem answer_of_error {x : FeedIndex} {key : StoreKey} {r : IndexRequest} {error : StoreError}
    (h : (x.answer key r).1 = .error error) : (x.answer key r).2 = x := by
  have hwritten : ∀ w, (x.written w).1 = .error error → (x.written w).2 = x := by
    rintro (_ | y) hw
    · rfl
    · nomatch hw
  cases r with
  | upsert e => exact hwritten _ h
  | upsertMany es => exact hwritten _ h
  | replace es => exact hwritten _ h
  | _ => nomatch h

/-! ## Other feeds -/

theorem written_feed_of_ne (x : FeedIndex) {key key' : StoreKey} (h : key' ≠ key)
    (f : List Entry → SortedEntries) (es : List Entry) {w : Except StoreError FeedIndex}
    (hw : w = (Entry.validateAll es).map fun es => x.setFeed key (f es)) :
    (x.written w).2.feed key' = x.feed key' := by
  rw [hw]
  cases Entry.validateAll es with
  | error e => rfl
  | ok es =>
    show (x.setFeed key (f es)).feed key' = x.feed key'
    rw [feed_setFeed, Function.update_of_ne h]

/-- A request about one feed leaves every other feed alone. -/
theorem answer_feed_of_ne (x : FeedIndex) {key key' : StoreKey} (h : key' ≠ key)
    (r : IndexRequest) : (x.answer key r).2.feed key' = x.feed key' := by
  cases r with
  | upsert e => exact x.written_feed_of_ne h _ [e] (x.upsert_eq key e)
  | upsertMany es =>
    cases es with
    | nil => rfl
    | cons e es => exact x.written_feed_of_ne h _ (e :: es) (x.upsertMany_cons key e es)
  | remove id =>
    have hremove := feed_modifyExisting x key (f := (·.remove id)) rfl
    exact (congrFun hremove key').trans (Function.update_of_ne h _ _)
  | removeMany ids =>
    have hremove := feed_modifyExisting x key (f := (·.removeAll ids)) (removeAll_empty ids)
    exact (congrFun hremove key').trans (Function.update_of_ne h _ _)
  | replace es =>
    cases es with
    | nil => exact (congrFun (feed_erase x key) key').trans (Function.update_of_ne h _ _)
    | cons e es => exact x.written_feed_of_ne h _ (e :: es) (x.replace_cons key e es)
  | trim capacity =>
    exact (congrFun (trim_eq x key capacity).2 key').trans (Function.update_of_ne h _ _)
  | _ => rfl

/-- The second index differs from the first one at most in the feed under a key, which
has the given contents there. -/
structure ChangedTo (x : FeedIndex) (key : StoreKey) (c : Contents) (y : FeedIndex) : Prop where
  consistent : y.Consistent
  contents : (y.feed key).contents = c
  others : ∀ key', key' ≠ key → y.feed key' = x.feed key'

theorem Consistent.changedTo_self {x : FeedIndex} (h : x.Consistent) (key : StoreKey) :
    x.ChangedTo key (x.feed key).contents x :=
  ⟨h, rfl, fun _ _ => rfl⟩

theorem ChangedTo.trans {x y z : FeedIndex} {key : StoreKey} {c d : Contents}
    (h : x.ChangedTo key c y) (h' : y.ChangedTo key d z) : x.ChangedTo key d z :=
  ⟨h'.consistent, h'.contents, fun key' hkey =>
    (h'.others key' hkey).trans (h.others key' hkey)⟩

theorem score?_eq_lookup (x : FeedIndex) (key : StoreKey) (id : ContentId) :
    x.score? key id = (x.feed key).contents.lookup id := by
  rw [SortedEntries.lookup_contents]
  rfl

theorem Consistent.entries_ne_nil_iff {x : FeedIndex} (hx : x.Consistent)
    (key : StoreKey) : (x.feed key).entries ≠ [] ↔ ∃ id, x.score? key id ≠ none := by
  rw [(hx key).entries_eq]
  constructor
  · intro hne
    obtain ⟨e, he⟩ := List.exists_mem_of_ne_nil _ hne
    have hlookup := Contents.mem_entryList.mp he
    rw [← x.score?_eq_lookup] at hlookup
    exact ⟨e.id, Option.ne_none_iff_exists'.mpr ⟨e.score, hlookup⟩⟩
  · rintro ⟨id, hid⟩
    obtain ⟨score, hscore⟩ := Option.ne_none_iff_exists'.mp hid
    rw [x.score?_eq_lookup] at hscore
    exact List.ne_nil_of_mem (a := ⟨id, score⟩) (Contents.mem_entryList.mpr hscore)

theorem ChangedTo.score?_eq {x y : FeedIndex} {key : StoreKey} {c : Contents}
    (h : x.ChangedTo key c y) (id : ContentId) : y.score? key id = c.lookup id := by
  rw [y.score?_eq_lookup, h.contents]

theorem Consistent.changedTo_answer {x : FeedIndex} (h : x.Consistent) (key : StoreKey)
    (r : IndexRequest) :
    x.ChangedTo key ((Ledger.answer x.ledger key r).2 key) (x.answer key r).2 := by
  obtain ⟨-, hledger, hconsistent⟩ := answer_eq_ledger h key r
  exact ⟨hconsistent, congrFun hledger key, fun key' hkey => x.answer_feed_of_ne hkey r⟩

/-! ## Runs -/

def Kept (x : FeedIndex) (m : Ledger) : Prop := x.Consistent ∧ x.ledger = m

theorem run_kept (calls : List (StoreKey × IndexRequest)) {x : FeedIndex} {m : Ledger}
    (h : x.Kept m) :
    (Keeper.run answer calls x).1 = (Keeper.run Ledger.answer calls m).1 ∧
      (Keeper.run answer calls x).2.Kept (Keeper.run Ledger.answer calls m).2 := by
  have hstep : ∀ x m key r, Kept x m → True →
      (answer x key r).1 = (Ledger.answer m key r).1 ∧
        (answer x key r).2.Kept (Ledger.answer m key r).2 := by
    rintro x m key r ⟨hx, rfl⟩ -
    obtain ⟨hanswer, hledger, hconsistent⟩ := answer_eq_ledger hx key r
    exact ⟨hanswer, hconsistent, hledger⟩
  exact Keeper.run_agrees hstep calls h (Keeper.allows_true _ _ _)

theorem kept_empty : (∅ : FeedIndex).Kept Ledger.empty := ⟨consistent_empty, ledger_empty⟩

def Reachable (x : FeedIndex) : Prop := ∃ calls, x = (Keeper.run answer calls ∅).2

theorem Reachable.consistent {x : FeedIndex} (h : x.Reachable) : x.Consistent := by
  obtain ⟨calls, rfl⟩ := h
  exact (run_kept calls kept_empty).2.1

/-- Whatever is asked of an index that was empty at first, it answers as finite maps
do, and a request that fails changes nothing.  At the end every feed is in order, its
two structures hold the same entries with scores that can be held, and it reports
exactly the map of its key. -/
theorem run_refines_ledger (calls : List (StoreKey × IndexRequest)) :
    let kept := Keeper.run FeedIndex.answer calls ∅
    let told := Keeper.run Ledger.answer calls Ledger.empty
    kept.1 = told.1 ∧
      (∀ key r error, (kept.2.answer key r).1 = .error error → (kept.2.answer key r).2 = kept.2) ∧
      ∀ key, (kept.2.feed key).Consistent ∧
        ((kept.2.feed key).ordered.toList.map Position.id).Nodup ∧
        (∀ id, kept.2.score? key id = (told.2 key).lookup id) ∧
        (kept.2.feed key).entries = (told.2 key).entryList ∧
        (kept.2.feed key).size = (told.2 key).size := by
  intro kept told
  obtain ⟨hanswers, hconsistent, hledger⟩ := run_kept calls kept_empty
  refine ⟨hanswers, fun key r error => answer_of_error, fun key => ?_⟩
  have hfeed : (kept.2.feed key).Consistent := hconsistent key
  have hcontents : (kept.2.feed key).contents = told.2 key := congrFun hledger key
  refine ⟨hfeed, ?_, fun id => ?_, ?_, ?_⟩
  · rw [hfeed.ordered_eq]
    exact Contents.ids_nodup _
  · rw [← hcontents, SortedEntries.lookup_contents]
    rfl
  · rw [hfeed.entries_eq, hcontents]
  · rw [hfeed.size_eq, hcontents]

end FeedIndex
end WarmFeed
