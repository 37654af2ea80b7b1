import WarmFeed.Proofs.Precompute.Run

/-!
# Which entries fall to the cut

When a source computes more entries than a feed keeps, the highest ones are selected
before any of them is stored.  An index would rather write them all and trim the feed
afterwards.  Both keep the same entries as long as storing does not change the order of
an entry that is kept and one that falls.  Storing folds minus zero into zero, and that
is the one case in which it does: the selection puts every zero above every minus zero,
and the index orders all of them by identifier.
-/

namespace WarmFeed

namespace Score

theorem rank_eq_neg_one_iff {s : Score} : s.rank = -1 ↔ s = negativeZero := by
  have h : negativeZero.rank = -1 := by decide
  rw [← h]
  exact ⟨rank_injective, congrArg rank⟩

theorem rank_eq_zero_iff {s : Score} : s.rank = 0 ↔ s = zero := by
  have h : zero.rank = 0 := by decide
  rw [← h]
  exact ⟨rank_injective, congrArg rank⟩

theorem rank_fold (s : Score) : s.fold.rank = if s.rank = -1 then 0 else s.rank := by
  unfold fold
  by_cases h : s = negativeZero
  · rw [if_pos h, if_pos (rank_eq_neg_one_iff.mpr h), rank_eq_zero_iff.mpr rfl]
  · rw [if_neg h, if_neg (mt rank_eq_neg_one_iff.mp h)]

end Score

/-- Storing changes the order of two entries only if the lower one has a minus zero, the
higher one a zero, and the identifiers stand the other way round. -/
theorem Entry.stored_lt_stored_iff {a b : Entry} (h : a.position < b.position)
    (hid : a.id ≠ b.id) :
    a.stored.position < b.stored.position ↔
      ¬ (a.score = Score.negativeZero ∧ b.score = Score.zero ∧ b.id < a.id) := by
  have hid' : a.id.toNat ≠ b.id.toNat := fun e => hid (UInt64.toNat_inj.mp e)
  have hab := Position.lt_iff.mp h
  have hstored : a.stored.position < b.stored.position ↔
      a.score.fold.rank < b.score.fold.rank ∨
        (a.score.fold.rank = b.score.fold.rank ∧ a.id.toNat < b.id.toNat) := by
    rw [Position.lt_iff]
    have hsame : a.score.fold = b.score.fold ↔ a.score.fold.rank = b.score.fold.rank :=
      ⟨congrArg Score.rank, Score.rank_injective⟩
    show a.score.fold.rank < b.score.fold.rank ∨
      (a.score.fold = b.score.fold ∧ a.id.toNat < b.id.toNat) ↔ _
    rw [hsame]
  have hranks : a.score.rank < b.score.rank ∨
      (a.score.rank = b.score.rank ∧ a.id.toNat < b.id.toNat) :=
    hab.imp_right fun hties => ⟨congrArg Score.rank hties.1, hties.2⟩
  rw [hstored, Score.rank_fold, Score.rank_fold, ← Score.rank_eq_neg_one_iff,
    ← Score.rank_eq_zero_iff, UInt64.lt_iff_toNat_lt]
  by_cases ha : a.score.rank = -1
  · by_cases hb : b.score.rank = -1
    · rw [if_pos ha, if_pos hb]
      omega
    · rw [if_pos ha, if_neg hb]
      omega
  · have hb : b.score.rank ≠ -1 ∨ a.score.rank < -1 := by omega
    rw [if_neg ha]
    split <;> omega

namespace Selection

/-- What falls to the cut, and where it stands. -/
theorem exists_dropped (capacity : Nat) (es : List Entry) :
    ∃ dropped, (top capacity es ++ dropped).Perm es ∧
      (dropped = [] ∨ (top capacity es).length = capacity) ∧
      ∀ kept ∈ top capacity es, ∀ e ∈ dropped, e.position ≤ kept.position := by
  unfold top
  by_cases hfits : es.length ≤ capacity
  · rw [if_pos hfits]
    exact ⟨[], by rw [List.append_nil], Or.inl rfl, fun _ _ e he => absurd he List.not_mem_nil⟩
  · rw [if_neg hfits]
    have hlength : (es.mergeSort notBelow).length = es.length := List.length_mergeSort es
    have hnotBelow : ∀ a b, notBelow a b = true ↔ b.position ≤ a.position := by
      intro a b
      rw [notBelow, Bool.not_eq_true', ← Bool.not_eq_true, Position.isBefore_iff, not_lt]
    have hsorted : (es.mergeSort notBelow).Pairwise fun a b => notBelow a b = true := by
      apply List.pairwise_mergeSort
      · intro a b c hab hbc
        rw [hnotBelow] at hab hbc ⊢
        exact hbc.trans hab
      · intro a b
        rw [Bool.or_eq_true, hnotBelow, hnotBelow]
        exact le_total _ _
    refine ⟨(es.mergeSort notBelow).drop capacity, ?_, Or.inr ?_, fun kept hkept e he => ?_⟩
    · rw [List.take_append_drop]
      exact List.mergeSort_perm es notBelow
    · rw [List.length_take]
      omega
    · rw [← List.take_append_drop capacity (es.mergeSort notBelow)] at hsorted
      exact (hnotBelow kept e).mp ((List.pairwise_append.mp hsorted).2.2 kept hkept e he)

/-- Entries that come in descending order are cut where they stand. -/
theorem top_of_descending {es : List Entry} (h : es.Pairwise fun a b => notBelow a b = true)
    (capacity : Nat) : top capacity es = es.take capacity := by
  unfold top
  by_cases hfits : es.length ≤ capacity
  · rw [if_pos hfits, List.take_of_length_le hfits]
  · rw [if_neg hfits, List.mergeSort_of_pairwise h]

/-- A minus zero falls while a zero of a lower identifier is kept. -/
def CutsZeros (capacity : Nat) (es : List Entry) : Prop :=
  ∃ kept ∈ top capacity es, ∃ e ∈ es, e ∉ top capacity es ∧
    e.score = Score.negativeZero ∧ kept.score = Score.zero ∧ kept.id < e.id

end Selection

namespace Apply

open Selection

theorem mem_ascending_contentsOf {es : List Entry} (hes : Clean es) {p : Position} :
    p ∈ (contentsOf es).ascending ↔ ∃ e ∈ es, e.stored.position = p := by
  have hperm := Contents.entryList_writeAll_perm (nodup_stored hes)
  have hentry : p ∈ (contentsOf es).ascending ↔ p.entry ∈ (contentsOf es).entryList := by
    rw [Contents.mem_entryList, Contents.mem_ascending]
    rfl
  rw [hentry, contentsOf, hperm.mem_iff, List.mem_map]
  constructor
  · rintro ⟨e, he, h⟩
    exact ⟨e, he, congrArg Entry.position h⟩
  · rintro ⟨e, he, rfl⟩
    exact ⟨e, he, rfl⟩

/-- If every entry that falls is stored below every entry that is kept, the stored
entries of the feed are those that fall and, above them, those that are kept. -/
theorem ascending_contentsOf_append {kept dropped es : List Entry} (hes : Clean es)
    (hkept : Clean kept) (hdropped : Clean dropped) (hperm : (kept ++ dropped).Perm es)
    (hbelow : ∀ a ∈ dropped, ∀ b ∈ kept, a.stored.position < b.stored.position) :
    (contentsOf es).ascending = (contentsOf dropped).ascending ++ (contentsOf kept).ascending := by
  symm
  apply Contents.eq_ascending
  · rw [List.pairwise_append]
    refine ⟨Contents.pairwise_ascending _, Contents.pairwise_ascending _, fun p hp q hq => ?_⟩
    obtain ⟨a, ha, rfl⟩ := (mem_ascending_contentsOf hdropped).mp hp
    obtain ⟨b, hb, rfl⟩ := (mem_ascending_contentsOf hkept).mp hq
    exact hbelow a ha b hb
  · intro p
    rw [← Contents.mem_ascending, List.mem_append, mem_ascending_contentsOf hes,
      mem_ascending_contentsOf hdropped, mem_ascending_contentsOf hkept]
    constructor
    · rintro (⟨e, he, h⟩ | ⟨e, he, h⟩)
      · exact ⟨e, hperm.subset (List.mem_append_right _ he), h⟩
      · exact ⟨e, hperm.subset (List.mem_append_left _ he), h⟩
    · rintro ⟨e, he, h⟩
      rcases List.mem_append.mp (hperm.symm.subset he) with hmem | hmem
      · exact Or.inr ⟨e, hmem, h⟩
      · exact Or.inl ⟨e, hmem, h⟩

/-- The minus zero that falls is stored above the zero that is kept, so a trim that keeps
the one keeps the other. -/
theorem contentsOf_top_ne_of_cutsZeros {es : List Entry} (hes : Clean es) {capacity : Nat}
    (hzeros : CutsZeros capacity es) :
    contentsOf (top capacity es) ≠ (contentsOf es).greatest capacity := by
  obtain ⟨kept, hmem, e, he, hfalls, hminus, hzero, hid⟩ := hzeros
  intro heq
  have hkept := hes.top capacity
  have hposition : kept.stored.position < e.stored.position := by
    rw [Position.lt_iff]
    refine Or.inr ⟨?_, UInt64.lt_iff_toNat_lt.mp hid⟩
    show kept.score.fold = e.score.fold
    rw [hminus, hzero]
    decide
  have hin : kept.stored.position ∈ ((contentsOf es).greatest capacity).ascending := by
    rw [← heq]
    exact (mem_ascending_contentsOf hkept).mpr ⟨kept, hmem, rfl⟩
  have hout := Contents.mem_ascending_greatest_of_lt hposition hin
    ((mem_ascending_contentsOf hes).mpr ⟨e, he, rfl⟩)
  rw [← heq] at hout
  obtain ⟨e', he', hsame⟩ := (mem_ascending_contentsOf hkept).mp hout
  have hes' : e' ∈ es := (top_subperm capacity es).subset he'
  have hid' : e'.id = e.id := congrArg Position.id hsame
  obtain rfl := List.inj_on_of_nodup_map hes.nodup hes' he hid'
  exact hfalls he'

/-- Whatever falls is then also stored below whatever is kept. -/
theorem stored_lt_of_not_cutsZeros {es dropped : List Entry} (hes : Clean es) {capacity : Nat}
    (hzeros : ¬ CutsZeros capacity es) (hperm : (top capacity es ++ dropped).Perm es)
    (hbelow : ∀ kept ∈ top capacity es, ∀ e ∈ dropped, e.position ≤ kept.position) :
    ∀ a ∈ dropped, ∀ b ∈ top capacity es, a.stored.position < b.stored.position := by
  have hnodup : ((top capacity es ++ dropped).map Entry.id).Nodup :=
    (hperm.map Entry.id).nodup_iff.mpr hes.nodup
  rw [List.map_append, List.nodup_append] at hnodup
  obtain ⟨-, -, hapart⟩ := hnodup
  intro a ha b hb
  have hid : a.id ≠ b.id := fun e =>
    hapart b.id (List.mem_map_of_mem hb) a.id (List.mem_map_of_mem ha) e.symm
  have hlt : a.position < b.position :=
    lt_of_le_of_ne (hbelow b hb a ha) fun e => hid (congrArg Position.id e)
  rw [Entry.stored_lt_stored_iff hlt hid]
  rintro ⟨hminus, hzero, hless⟩
  have hfalls : a ∉ top capacity es := fun hmem =>
    hapart a.id (List.mem_map_of_mem hmem) a.id (List.mem_map_of_mem ha) rfl
  exact hzeros ⟨b, hb, a, hperm.subset (List.mem_append_right _ ha), hfalls, hminus, hzero, hless⟩

theorem contentsOf_top_of_not_cutsZeros {es : List Entry} (hes : Clean es) {capacity : Nat}
    (hzeros : ¬ CutsZeros capacity es) :
    contentsOf (top capacity es) = (contentsOf es).greatest capacity := by
  obtain ⟨dropped, hperm, hfull, hbelow⟩ := exists_dropped capacity es
  have hkept := hes.top capacity
  have hnodup : ((top capacity es ++ dropped).map Entry.id).Nodup :=
    (hperm.map Entry.id).nodup_iff.mpr hes.nodup
  rw [List.map_append, List.nodup_append] at hnodup
  have hdropped : Clean dropped :=
    ⟨hnodup.2.1, fun e he => hes.finite e (hperm.subset (List.mem_append_right _ he))⟩
  have hsplit := ascending_contentsOf_append hes hkept hdropped hperm
    (stored_lt_of_not_cutsZeros hes hzeros hperm hbelow)
  rcases hfull with hnone | hfull
  · subst hnone
    have hempty : (contentsOf []).ascending = [] := by
      apply List.eq_nil_of_length_eq_zero
      rw [Contents.length_ascending, size_contentsOf hdropped, List.length_nil]
    rw [hempty, List.nil_append] at hsplit
    have hall : contentsOf (top capacity es) = contentsOf es :=
      Contents.eq_of_ascending hsplit.symm
    have hsize : (contentsOf es).size ≤ capacity := by
      rw [← hall, size_contentsOf hkept]
      exact length_top_le capacity es
    rw [Contents.greatest_of_size_le hsize, hall]
  · have hgreatest := Contents.greatest_of_ascending_append hsplit
    rw [size_contentsOf hkept, hfull] at hgreatest
    exact hgreatest.symm

/-- The selected entries are those that a trim would leave, unless the cut goes between
zeros. -/
theorem contentsOf_top_iff {es : List Entry} (hes : Clean es) (capacity : Nat) :
    contentsOf (top capacity es) = (contentsOf es).greatest capacity ↔
      ¬ CutsZeros capacity es :=
  ⟨fun heq hzeros => contentsOf_top_ne_of_cutsZeros hes hzeros heq,
    contentsOf_top_of_not_cutsZeros hes⟩

end Apply

namespace FeedIndex

def writtenAndTrimmed (key : StoreKey) (capacity : Nat) (es : List Entry) : FeedIndex :=
  (Keeper.run answer [(key, .upsertMany es), (key, .trim capacity)] ∅).2

theorem consistent_writtenAndTrimmed (key : StoreKey) (capacity : Nat) (es : List Entry) :
    (writtenAndTrimmed key capacity es).Consistent :=
  (run_kept _ kept_empty).2.1

theorem contents_writtenAndTrimmed (key : StoreKey) (capacity : Nat) {es : List Entry}
    (hes : ∀ e ∈ es, e.score.isFinite = true) :
    ((writtenAndTrimmed key capacity es).feed key).contents =
      (Apply.contentsOf es).greatest capacity := by
  have hledger := congrFun (run_kept [(key, .upsertMany es), (key, .trim capacity)]
    kept_empty).2.2 key
  have hwrite := Ledger.store_of_finite Ledger.empty key (Ledger.empty key) hes
  refine hledger.trans ?_
  show (Ledger.answer (Ledger.store Ledger.empty key (Ledger.empty key) es).2 key
    (.trim capacity)).2 key = _
  rw [hwrite]
  refine (Function.update_self ..).trans ?_
  exact congrArg (Contents.greatest · capacity) (Function.update_self ..)

end FeedIndex

namespace Worker

variable {σ : Type} {answer : Backend σ} {view : σ → FeedIndex} {w : Worker} {kind : FeedKind}
  {subject : Subject} {computed : List Entry} {s : σ}

/-- A run that gets entries ends well and leaves exactly the selected ones in its feed. -/
theorem run_brings_in (h : Backend.HoldsIndex answer view) (hs : (view s).Consistent)
    (hrun : w.Computes answer kind subject computed s) :
    ∃ report s', (w.run kind subject).run answer s = (.ok report, s') ∧
      (view s).ChangedTo (.index kind subject) (Apply.contentsOf (w.selected computed))
        (view s') := by
  have hclean := w.clean_selected computed
  have hfits : (w.selected computed).length ≤ w.settings.capacity := Selection.length_top_le _ _
  obtain ⟨s', hdone, hchanged⟩ := run_of_apply h hrun
    (P := (view s).ChangedTo (.index kind subject) (Apply.contentsOf (w.selected computed)))
    (fun t ht => by
      have happly := Apply.attempt_apply h (ht ▸ hs) w.settings.applyMode
        (.index kind subject) hclean hfits
      rwa [ht] at happly)
  exact ⟨_, s', hdone, hchanged⟩

/-- What a run leaves in its feed is what an index keeps that is given all entries and
then trimmed, exactly if no minus zero falls to the cut while a zero of a lower identifier
is kept. -/
theorem run_keeps_highest_iff (h : Backend.HoldsIndex answer view) (hs : (view s).Reachable)
    (hrun : w.Computes answer kind subject computed s) :
    ∃ report s', (w.run kind subject).run answer s = (.ok report, s') ∧
      (((view s').feed (.index kind subject)).entries =
          ((FeedIndex.writtenAndTrimmed (.index kind subject) w.settings.capacity
            (Selection.dedupe computed)).feed (.index kind subject)).entries ↔
        ¬ Selection.CutsZeros w.settings.capacity (Selection.dedupe computed)) := by
  obtain ⟨report, s', hdone, hchanged⟩ := run_brings_in h hs.consistent hrun
  refine ⟨report, s', hdone, ?_⟩
  have hclean := Selection.clean_dedupe computed
  have htrimmed := FeedIndex.consistent_writtenAndTrimmed (.index kind subject)
    w.settings.capacity (Selection.dedupe computed)
  rw [← Apply.contentsOf_top_iff hclean, (hchanged.consistent _).entries_eq,
    (htrimmed _).entries_eq, hchanged.contents,
    FeedIndex.contents_writtenAndTrimmed _ _ hclean.finite]
  exact Contents.entryList_inj

def zeros : List Entry := [⟨3, Score.zero⟩, ⟨5, Score.negativeZero⟩]

def narrowWorker : Worker := ⟨[.home], { PrecomputeSettings.default with capacity := 1 }⟩

def aboveZeros : List Entry := ⟨4, ⟨9⟩⟩ :: zeros

/-- Where both zeros fall, the run keeps what the index would keep. -/
theorem run_keeps_highest_above_zeros :
    ∃ report x, (narrowWorker.run .home (.account 7)).run
        (Backend.plain (fun _ => none) aboveZeros) ∅ = (.ok report, x) ∧
      (x.feed (.index .home (.account 7))).entries =
        ((FeedIndex.writtenAndTrimmed (.index .home (.account 7)) 1
          (Selection.dedupe aboveZeros)).feed (.index .home (.account 7))).entries := by
  have hcomputes : narrowWorker.Computes (Backend.plain (fun _ => none) aboveZeros) .home
      (.account 7) aboveZeros (∅ : FeedIndex) := ⟨by decide, rfl, rfl⟩
  obtain ⟨report, x, hrun, hiff⟩ := run_keeps_highest_iff
    (Backend.holdsIndex_plain (fun _ => none) aboveZeros) ⟨[], rfl⟩ hcomputes
  refine ⟨report, x, hrun, hiff.mpr ?_⟩
  rintro ⟨kept, hkept, e, -, -, -, hzero, -⟩
  have hdedupe : Selection.dedupe aboveZeros = aboveZeros := by decide +kernel
  rw [hdedupe, Selection.top_of_descending (by decide +kernel)] at hkept
  have hfirst : kept = ⟨4, ⟨9⟩⟩ := List.mem_singleton.mp hkept
  rw [hfirst] at hzero
  exact absurd hzero (by decide)

/-- Of two zeros the run keeps the lower one, where the index would keep the other. -/
theorem run_keeps_lower_zero :
    ∃ report x, (narrowWorker.run .home (.account 7)).run
        (Backend.plain (fun _ => none) zeros) ∅ = (.ok report, x) ∧
      (x.feed (.index .home (.account 7))).entries = [⟨3, Score.zero⟩] ∧
      ((FeedIndex.writtenAndTrimmed (.index .home (.account 7)) 1
        (Selection.dedupe zeros)).feed (.index .home (.account 7))).entries =
          [⟨5, Score.zero⟩] := by
  have hcomputes : narrowWorker.Computes (Backend.plain (fun _ => none) zeros) .home
      (.account 7) zeros (∅ : FeedIndex) := ⟨by decide, rfl, rfl⟩
  obtain ⟨report, x, hrun, hchanged⟩ := run_brings_in
    (Backend.holdsIndex_plain (fun _ => none) zeros) FeedIndex.consistent_empty hcomputes
  refine ⟨report, x, hrun, ?_, by decide +kernel⟩
  have hselected : narrowWorker.selected zeros = [⟨3, Score.zero⟩] := by
    have hdedupe : Selection.dedupe zeros = zeros := by decide +kernel
    unfold selected
    rw [hdedupe, Selection.top_of_descending (by decide +kernel)]
    rfl
  have hperm := Contents.entryList_writeAll_perm
    (Apply.nodup_stored (narrowWorker.clean_selected zeros))
  rw [hselected] at hperm hchanged
  have hentries := (hchanged.consistent (.index .home (.account 7))).entries_eq
  rw [hchanged.contents] at hentries
  exact hentries.trans (List.perm_singleton.mp hperm)

end Worker
end WarmFeed
