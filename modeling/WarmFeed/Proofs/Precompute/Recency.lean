import Mathlib.Data.List.Dedup
import WarmFeed.Proofs.Precompute.Cut
import WarmFeed.Proofs.Precompute.Sourced
import WarmFeed.Proofs.Score.Nearest
import WarmFeed.Proofs.Serving.Walk
import WarmFeed.Source.Timelines

/-!
# Home feeds in the order of identifiers

The source of home feeds makes the score of an entry from its identifier.  Great identifiers are
rounded and can fall together, but never change places, and entries of one score stand in the
order of their identifiers.  So all of the feed stands in that order, the cut leaves the greatest
identifiers, and who reads the feed backward meets them one by one.
-/

namespace WarmFeed

/-- The numerically greatest of the identifiers, as many as fit, the greatest first. -/
structure GreatestIds (capacity : Nat) (ids kept : List ContentId) : Prop where
  descending : kept.Pairwise fun a b => b < a
  subset : ∀ id ∈ kept, id ∈ ids
  length : kept.length = min capacity ids.dedup.length
  dropped : ∀ id ∈ ids, id ∉ kept → ∀ other ∈ kept, id < other

namespace GreatestIds

variable {capacity : Nat} {ids kept others : List ContentId}

theorem nodup (h : GreatestIds capacity ids kept) : kept.Nodup :=
  h.descending.imp fun hless => (UInt64.ne_of_lt hless).symm

theorem subset_other (h : GreatestIds capacity ids kept) (h' : GreatestIds capacity ids others) :
    kept ⊆ others := by
  intro id hid
  by_contra hnot
  -- All others are then above the identifier, so none of them was dropped for it.
  have hothers : others ⊆ kept.erase id := by
    intro other hother
    have habove := h'.dropped id (h.subset id hid) hnot other hother
    rw [h.nodup.mem_erase_iff]
    refine ⟨fun heq => hnot (heq ▸ hother), ?_⟩
    by_contra hmissing
    exact UInt64.lt_asymm habove (h.dropped other (h'.subset other hother) hmissing id hid)
  have hfewer := (h'.nodup.subperm hothers).length_le
  have hpos := List.length_pos_of_mem hid
  rw [List.length_erase_of_mem hid, h'.length, ← h.length] at hfewer
  omega

theorem unique (h : GreatestIds capacity ids kept) (h' : GreatestIds capacity ids others) :
    kept = others := by
  have hperm : kept.Perm others := by
    rw [List.perm_ext_iff_of_nodup h.nodup h'.nodup]
    exact fun id => ⟨fun hid => h.subset_other h' hid, fun hid => h'.subset_other h hid⟩
  exact List.Perm.eq_of_pairwise (fun _ _ _ _ hab hba => absurd hab (UInt64.lt_asymm hba))
    h.descending h'.descending hperm

/-- A walk over the two lists tells.  There are too many identifiers to try them all. -/
instance : Decidable (GreatestIds capacity ids kept) :=
  decidable_of_iff (kept.Pairwise (fun a b => b < a) ∧ (kept.all fun id => id ∈ ids) ∧
      kept.length = min capacity ids.dedup.length ∧
      (ids.all fun id => id ∈ kept ∨ kept.all fun other => id < other)) <| by
    simp only [List.all_eq_true, decide_eq_true_eq]
    refine ⟨fun ⟨hdescending, hsubset, hlength, hdropped⟩ => ⟨hdescending, hsubset, hlength,
      fun id hid hnot => (hdropped id hid).resolve_left hnot⟩, fun h => ⟨h.descending, h.subset,
      h.length, fun id hid => or_iff_not_imp_left.mpr (h.dropped id hid)⟩⟩

end GreatestIds

namespace Source

def recent (id : ContentId) : Entry := ⟨id, .ofNat id.toNat⟩

theorem isFinite_recent (id : ContentId) : (recent id).score.isFinite = true :=
  Score.isFinite_ofNat_word id.toNat_lt

theorem stored_recent (id : ContentId) : (recent id).stored = recent id := by
  have hscore : (Score.ofNat id.toNat).fold = Score.ofNat id.toNat := by
    unfold Score.fold
    refine if_neg fun hzero => ?_
    have hsign := Score.isNegative_ofNat id.toNat
    rw [hzero, Score.isNegative_negativeZero] at hsign
    cases hsign
  exact congrArg (Entry.mk id) hscore

/-- Entries stand in the order of their identifiers, also where their scores fall together. -/
theorem position_recent_lt_iff {a b : ContentId} :
    (recent a).position < (recent b).position ↔ a < b := by
  have hforward : ∀ {a b : ContentId}, a < b → (recent a).position < (recent b).position := by
    intro a b h
    have hless := UInt64.lt_iff_toNat_lt.mp h
    rw [Position.lt_iff]
    obtain hrank | hrank := lt_or_eq_of_le (Score.rank_ofNat_mono hless.le)
    · exact .inl hrank
    · exact .inr ⟨Score.rank_injective hrank, hless⟩
  refine ⟨fun h => ?_, hforward⟩
  rw [UInt64.lt_iff_toNat_lt]
  by_contra hnot
  obtain hless | hsame := lt_or_eq_of_le (not_lt.mp hnot)
  · exact lt_asymm h (hforward (UInt64.lt_iff_toNat_lt.mpr hless))
  · rw [UInt64.toNat_inj.mp hsame] at h
    exact lt_irrefl _ h

section Entries

variable (cs : List Candidate)

theorem mem_recencyEntries {e : Entry} (h : e ∈ recencyEntries cs) : e = recent e.id := by
  obtain ⟨c, -, rfl⟩ := List.mem_map.mp (Selection.mem_of_mem_dedupe h)
  rfl

theorem mem_ids_recencyEntries {id : ContentId} :
    id ∈ (recencyEntries cs).map Entry.id ↔ id ∈ cs.map Candidate.statusId := by
  rw [recencyEntries, Selection.mem_ids_dedupe]
  constructor
  · rintro ⟨e, he, rfl, -⟩
    obtain ⟨c, hc, rfl⟩ := List.mem_map.mp he
    exact List.mem_map.mpr ⟨c, hc, rfl⟩
  · intro h
    obtain ⟨c, hc, rfl⟩ := List.mem_map.mp h
    exact ⟨recent c.statusId, List.mem_map.mpr ⟨c, hc, rfl⟩, rfl, isFinite_recent _⟩

theorem clean_recencyEntries : Selection.Clean (recencyEntries cs) := Selection.clean_dedupe _

theorem length_recencyEntries :
    (recencyEntries cs).length = (cs.map Candidate.statusId).dedup.length := by
  have hperm : ((recencyEntries cs).map Entry.id).Perm (cs.map Candidate.statusId).dedup := by
    rw [List.perm_ext_iff_of_nodup (clean_recencyEntries cs).nodup (List.nodup_dedup _)]
    intro id
    rw [mem_ids_recencyEntries, List.mem_dedup]
  rw [← hperm.length_eq, List.length_map]

section Kept

variable (capacity : Nat)

def keptRecent : List Entry := Selection.top capacity (recencyEntries cs)

theorem clean_keptRecent : Selection.Clean (keptRecent cs capacity) :=
  (clean_recencyEntries cs).top capacity

theorem length_keptRecent :
    (keptRecent cs capacity).length = min capacity (recencyEntries cs).length := by
  have hle := Selection.length_top_le capacity (recencyEntries cs)
  obtain ⟨dropped, hperm, hfull, -⟩ := Selection.exists_dropped capacity (recencyEntries cs)
  have hsum := hperm.length_eq
  rw [List.length_append] at hsum
  unfold keptRecent
  obtain rfl | hfull := hfull
  · rw [List.length_nil] at hsum
    omega
  · omega

theorem mem_keptRecent {e : Entry} (h : e ∈ keptRecent cs capacity) :
    e ∈ recencyEntries cs ∧ e = recent e.id := by
  have hmem := (Selection.top_subperm capacity (recencyEntries cs)).subset h
  exact ⟨hmem, mem_recencyEntries cs hmem⟩

theorem mem_ascending_keptRecent {p : Position} :
    p ∈ (Apply.contentsOf (keptRecent cs capacity)).ascending ↔
      ∃ e ∈ keptRecent cs capacity, p = (recent e.id).position := by
  rw [Apply.mem_ascending_contentsOf (clean_keptRecent cs capacity)]
  refine exists_congr fun e => and_congr_right fun he => ?_
  have hstored : e.stored = recent e.id := by
    rw [(mem_keptRecent cs capacity he).2]
    exact stored_recent _
  rw [hstored, eq_comm]

/-- The identifiers of a feed that holds the entries that are kept. -/
theorem greatestIds_keptRecent {x : FeedIndex} {key : StoreKey} (hx : x.Consistent)
    (hcontents : x.ledger key = Apply.contentsOf (keptRecent cs capacity)) :
    GreatestIds capacity (cs.map Candidate.statusId) (x.descendingIds key) := by
  obtain ⟨dropped, hperm, -, hbelow⟩ := Selection.exists_dropped capacity (recencyEntries cs)
  have hids : x.descendingIds key =
      ((Apply.contentsOf (keptRecent cs capacity)).ascending.reverse.map Position.id) := by
    rw [hx.descendingIds_eq, hcontents]
  have hmem : ∀ id, id ∈ x.descendingIds key ↔ ∃ e ∈ keptRecent cs capacity, id = e.id := by
    intro id
    rw [hids, List.mem_map]
    constructor
    · rintro ⟨p, hp, rfl⟩
      obtain ⟨e, he, rfl⟩ :=
        (mem_ascending_keptRecent cs capacity).mp (List.mem_reverse.mp hp)
      exact ⟨e, he, rfl⟩
    · rintro ⟨e, he, rfl⟩
      exact ⟨_, List.mem_reverse.mpr ((mem_ascending_keptRecent cs capacity).mpr ⟨e, he, rfl⟩), rfl⟩
  refine ⟨?_, ?_, ?_, ?_⟩
  · rw [hids, List.pairwise_map, List.pairwise_reverse]
    refine (Contents.pairwise_ascending _).imp_of_mem fun {p q} hp hq hless => ?_
    obtain ⟨e, -, rfl⟩ := (mem_ascending_keptRecent cs capacity).mp hp
    obtain ⟨f, -, rfl⟩ := (mem_ascending_keptRecent cs capacity).mp hq
    exact position_recent_lt_iff.mp hless
  · intro id hid
    obtain ⟨e, he, rfl⟩ := (hmem id).mp hid
    exact (mem_ids_recencyEntries cs).mp
      (List.mem_map_of_mem (mem_keptRecent cs capacity he).1)
  · rw [hids, List.length_map, List.length_reverse, Contents.length_ascending,
      Apply.size_contentsOf (clean_keptRecent cs capacity), length_keptRecent,
      length_recencyEntries]
  · intro id hid hnot other hother
    obtain ⟨e, he, rfl⟩ := List.mem_map.mp ((mem_ids_recencyEntries cs).mpr hid)
    obtain ⟨f, hf, rfl⟩ := (hmem other).mp hother
    obtain hkept | hdropped := List.mem_append.mp (hperm.mem_iff.mpr he)
    · exact absurd ((hmem e.id).mpr ⟨e, hkept, rfl⟩) hnot
    · have hle := hbelow f hf e hdropped
      rw [mem_recencyEntries cs he, (mem_keptRecent cs capacity hf).2] at hle
      obtain hless | hsame := lt_or_eq_of_le hle
      · exact position_recent_lt_iff.mp hless
      · exact absurd ((hmem e.id).mpr ⟨f, hf, congrArg Position.id hsame⟩) hnot

end Kept

end Entries

/-! ## The run and the walk -/

/-- The source asks for candidates and does nothing else. -/
theorem recency_account (limit : Nat) (account : AccountId) :
    recency limit (.account account) =
      (ExceptT.mk (Routine.request (Call.candidates account limit)) >>= fun cs =>
        pure (recencyEntries cs) : Attempt ServiceError (List Entry)) := rfl

theorem aside_recency (limit : Nat) : Sources.Aside (recency limit) where
  steady subject := by
    cases subject with
    | account id =>
      exact Routine.steady_attempt_bind (Routine.steady_request _) fun _ => trivial
    | trending => trivial
  asks subject := by
    cases subject with
    | account id =>
      exact Routine.asks_attempt_bind (Routine.asks_request fun _ _ => Call.noConfusion)
        fun _ => trivial
    | trending => trivial

/-- A source that only asks for candidates fails with them or has their entries. -/
theorem attempt_candidates {σ : Type} (answer : Backend σ) (s : σ) (limit : Nat)
    (account : AccountId) (entriesOf : List Candidate → List Entry) :
    (Routine.attempt answer s (ExceptT.mk (Routine.request (Call.candidates account limit)) >>=
        fun cs => pure (entriesOf cs) : Attempt ServiceError (List Entry))).1 =
      (answer s (.candidates account limit)).1.map entriesOf := by
  rw [Routine.attempt_bind]
  have hasked : Routine.attempt answer s (ExceptT.mk (Routine.request
      (Call.candidates account limit)) : Attempt ServiceError (List Candidate)) =
      answer s (.candidates account limit) := rfl
  rw [hasked]
  cases (answer s (.candidates account limit)).1 <;> rfl

theorem attempt_recency {σ : Type} (answer : Backend σ) (s : σ) (limit : Nat)
    (account : AccountId) :
    (Routine.attempt answer s (recency limit (.account account))).1 =
      (answer s (.candidates account limit)).1.map recencyEntries := by
  rw [recency_account, attempt_candidates]

/-- Of identifiers that all have a status, the statuses are found in their order. -/
theorem ids_filterMap_held {held : ContentId → Option Status}
    (hid : ∀ id status, held id = some status → status.id = id) {ids : List ContentId}
    (hall : ∀ id ∈ ids, (held id).isSome = true) : (ids.filterMap held).map Status.id = ids := by
  induction ids with
  | nil => rfl
  | cons id ids ih =>
    obtain ⟨status, hstatus⟩ := Option.isSome_iff_exists.mp (hall id List.mem_cons_self)
    rw [List.filterMap_cons_some hstatus, List.map_cons, hid id status hstatus,
      ih fun other hother => hall other (List.mem_cons_of_mem id hother)]

section Run

variable {σ : Type} {answer : Backend σ} {view : σ → FeedIndex}
  {held : ContentId → Option Status}

/-- A home run that ends well has got candidates, and brings in the entries of them that are
kept. -/
theorem changedTo_of_run (h : Backend.HoldsIndex answer view) {s : σ} (hx : (view s).Consistent)
    {w : Worker} {sources : Sources} {limit : Nat}
    (hregistered : sources.get? .home = some (recency limit)) {account : AccountId}
    {report : Report} {s' : σ}
    (hrun : (sources.run (w.run .home (.account account))).run answer s = (.ok report, s')) :
    ∃ cs, (answer (answer s (.mark (.account account) w.settings.markSeconds)).2
        (.candidates account limit)).1 = .ok cs ∧
      (view s).ChangedTo (.index .home (.account account))
        (Apply.contentsOf (keptRecent cs w.settings.capacity)) (view s') := by
  obtain ⟨computed, hcomputed, hchanged⟩ :=
    Worker.changedTo_of_run_sources h hx hregistered (aside_recency limit) hrun
  rw [attempt_recency] at hcomputed
  cases hcandidates : (answer (answer s (.mark (.account account) w.settings.markSeconds)).2
    (.candidates account limit)).1 with
  | error e =>
    rw [hcandidates] at hcomputed
    nomatch hcomputed
  | ok cs =>
    rw [hcandidates] at hcomputed
    rw [← Except.ok.inj hcomputed, Worker.selected,
      Selection.dedupe_of_clean (clean_recencyEntries cs)] at hchanged
    exact ⟨cs, rfl, hchanged⟩

/-- The entries of a feed that holds what is kept have their identifiers as scores. -/
theorem score_of_mem_entries {x : FeedIndex} {key : StoreKey} {cs : List Candidate}
    {capacity : Nat} (hx : x.Consistent)
    (hcontents : x.ledger key = Apply.contentsOf (keptRecent cs capacity)) {e : Entry}
    (he : e ∈ (x.feed key).entries) : e.score = .ofNat e.id.toNat := by
  rw [(hx key).entries_eq, Contents.entryList, List.mem_map] at he
  obtain ⟨p, hp, rfl⟩ := he
  have hledger : p ∈ (x.ledger key).ascending := hp
  rw [hcontents, mem_ascending_keptRecent] at hledger
  obtain ⟨kept, -, rfl⟩ := hledger
  rfl

/-- A home run that ends well keeps the numerically greatest identifiers of the candidates, as
many as the feed holds, whatever it held before.  Their scores are the ones nearest to them, and
a walk back through the feed shows their statuses one by one, the greatest first. -/
theorem home_lists_greatest_ids (h : Backend.HoldsIndex answer view)
    (hstatuses : Backend.HoldsStatuses answer held) {s : σ} (hx : (view s).Reachable)
    {w : Worker} {sources : Sources} {limit : Nat}
    (hregistered : sources.get? .home = some (recency limit)) {account : AccountId}
    {report : Report} {s' : σ}
    (hrun : (sources.run (w.run .home (.account account))).run answer s = (.ok report, s')) :
    (∀ id : ContentId, Score.NearestEven id.toNat (.ofNat id.toNat)) ∧
    ∃ cs, (answer (answer s (.mark (.account account) w.settings.markSeconds)).2
        (.candidates account limit)).1 = .ok cs ∧
      (∀ e ∈ ((view s').feed (.index .home (.account account))).entries,
        e.score = .ofNat e.id.toNat) ∧
      GreatestIds w.settings.capacity (cs.map Candidate.statusId)
        ((view s').descendingIds (.index .home (.account account))) ∧
      ((∀ c ∈ cs, (held c.statusId).isSome = true) →
        ∀ (serving : ServingSettings) (asked : Option Nat), serving.homeEnabled = true →
          ∃ pages,
            (∀ others, Timeline.WalksBack answer
              (fun cursor => Timeline.home serving account ⟨asked, cursor, none, none⟩) s' none
              others ↔ others = pages) ∧
            (pages.flatMap FeedPage.statuses).map Status.id =
              (view s').descendingIds (.index .home (.account account))) := by
  obtain ⟨cs, hcandidates, hchanged⟩ := changedTo_of_run h hx.consistent hregistered hrun
  have hgreatest :=
    greatestIds_keptRecent cs w.settings.capacity hchanged.consistent hchanged.contents
  refine ⟨fun id => Score.nearestEven_ofNat id.toNat_lt, cs, hcandidates,
    fun e => score_of_mem_entries hchanged.consistent hchanged.contents, hgreatest,
    fun hall serving asked henabled => ?_⟩
  have hkind : FeedKind.home.isPagedByOffset = false := rfl
  have hthrough := Timeline.goesThrough_page h hstatuses hkind serving account asked
    hchanged.consistent
  obtain ⟨pages, hwalk⟩ := hthrough.ends
  have hheld : ∀ id ∈ (view s').descendingIds (.index .home (.account account)),
      (held id).isSome = true := by
    intro id hid
    obtain ⟨c, hc, rfl⟩ := List.mem_map.mp (hgreatest.subset id hid)
    exact hall c hc
  unfold Timeline.home
  simp only [henabled, if_true]
  refine ⟨pages, fun others => ⟨hwalk.unique, fun heq => heq ▸ hwalk⟩, ?_⟩
  rw [(hthrough.covers pages hwalk).statuses]
  exact ids_filterMap_held hstatuses.id_eq hheld

def offering (held : ContentId → Option Status) (cs : List Candidate) : Backend FeedIndex
  | x, .candidates _ _ => (.ok cs, x)
  | x, c => Backend.plain held [] x c

theorem holdsIndex_offering (held : ContentId → Option Status) (cs : List Candidate) :
    Backend.HoldsIndex (offering held cs) id where
  request _ _ _ := ⟨rfl, rfl⟩
  other x c h := by
    cases c with
    | index key r => exact absurd rfl (h key r)
    | _ => rfl

theorem holdsStatuses_offering {held : ContentId → Option Status} (cs : List Candidate)
    (hid : ∀ id status, held id = some status → status.id = id) :
    Backend.HoldsStatuses (offering held cs) held where
  id_eq := hid
  fetch x ids := (Backend.holdsStatuses_plain [] hid).fetch x ids

/-- Candidates of which the two greatest have one score, as have the two beyond 53 bits; one
comes up twice. -/
def roundedCandidates : List Candidate :=
  [3, 9007199254740992, 18446744073709551615, 9007199254740993, 18446744073709551614, 3,
    18446744073709551615].map fun id => ⟨id, "", "", ∅⟩

def everyStatus (id : ContentId) : Option Status := some { (default : Status) with id }

def shortWorker : Worker := ⟨[.home], { PrecomputeSettings.default with capacity := 3 }⟩

def recentSources : Sources := ⟨[(.home, recency 400)]⟩

def staleCalls : List (StoreKey × IndexRequest) :=
  [(.index .home (.account 7), .upsertMany [⟨1, ⟨5⟩⟩, ⟨9007199254740993, ⟨5⟩⟩])]

theorem home_lists_greatest_ids_rounded :
    (recent 18446744073709551615).score = (recent 18446744073709551614).score ∧
      (recent 9007199254740993).score = (recent 9007199254740992).score ∧
      ∃ report y, (recentSources.run (shortWorker.run .home (.account 7))).run
          (offering everyStatus roundedCandidates)
          (Keeper.run FeedIndex.answer staleCalls ∅).2 = (.ok report, y) ∧
        ∃ pages, Timeline.WalksBack (offering everyStatus roundedCandidates)
            (fun cursor => Timeline.home .default 7 ⟨some 2, cursor, none, none⟩) y none pages ∧
          (pages.flatMap FeedPage.statuses).map Status.id =
            [18446744073709551615, 18446744073709551614, 9007199254740993] := by
  have hindex := holdsIndex_offering everyStatus roundedCandidates
  have hid : ∀ id status, everyStatus id = some status → status.id = id := by
    intro id status h
    rw [← Option.some.inj h]
  have hreachable : (Keeper.run FeedIndex.answer staleCalls ∅).2.Reachable := ⟨staleCalls, rfl⟩
  have hregistered : recentSources.get? .home = some (recency 400) := rfl
  have hcomes : shortWorker.Comes .home (.account 7) _ _ _ _ := Worker.run_sources_comes hindex
    hreachable.consistent hregistered (aside_recency 400) (by decide) rfl
  rw [attempt_recency] at hcomes
  generalize hresult : (recentSources.run (shortWorker.run .home (.account 7))).run
    (offering everyStatus roundedCandidates) (Keeper.run FeedIndex.answer staleCalls ∅).2 = ended
    at hcomes
  obtain ⟨result, y⟩ := ended
  obtain ⟨rfl, -⟩ : result = .ok _ ∧ _ := hcomes
  obtain ⟨-, cs, hcs, -, hgreatest, hwalks⟩ := home_lists_greatest_ids hindex
    (holdsStatuses_offering roundedCandidates hid) hreachable hregistered hresult
  obtain rfl : roundedCandidates = cs := Except.ok.inj hcs
  obtain ⟨pages, hwalk, hshown⟩ := hwalks (fun _ _ => rfl) .default (some 2) rfl
  refine ⟨by decide +kernel, by decide +kernel, _, y, rfl, pages, (hwalk pages).mpr rfl, ?_⟩
  rw [hshown]
  exact hgreatest.unique (by decide +kernel)

end Run

end Source
end WarmFeed
