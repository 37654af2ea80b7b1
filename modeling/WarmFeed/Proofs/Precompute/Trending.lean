import WarmFeed.Proofs.Precompute.Cut
import WarmFeed.Proofs.Precompute.Sourced
import WarmFeed.Proofs.Serving.Offsets
import WarmFeed.Proofs.Source.Trends

/-!
# What becomes of the trending feed

A run of the trending feed asks its source, and the source asks for candidates and for what
they are resolved to.  Where scores are places the entries come in descending order, each
identifier once.  The selection then only cuts them off, the index holds them in their order,
and the pages of the feed show them in the order of the candidates.

A run that has candidates but no identifier for any of them leaves the feed as it is if every
candidate failed.  One that has no local form is enough for the feed to be emptied instead.
-/

namespace WarmFeed

/-! ## Entries in descending order -/

namespace Apply

/-- Entries that come in descending order are the feed from its upper end. -/
theorem ascending_contentsOf {es : List Entry} (hes : Selection.Clean es)
    (hdescending : es.Pairwise fun a b => b.stored.position < a.stored.position) :
    (contentsOf es).ascending = (es.map fun e => e.stored.position).reverse := by
  symm
  apply Contents.eq_ascending
  · rw [List.pairwise_reverse, List.pairwise_map]
    exact hdescending
  · intro p
    rw [List.mem_reverse, List.mem_map, ← Contents.mem_ascending, mem_ascending_contentsOf hes]

theorem descendingIds_of_changedTo {x y : FeedIndex} {key : StoreKey} {es : List Entry}
    (hes : Selection.Clean es)
    (hdescending : es.Pairwise fun a b => b.stored.position < a.stored.position)
    (h : x.ChangedTo key (contentsOf es) y) : y.descendingIds key = es.map Entry.id := by
  have hledger : y.ledger key = contentsOf es := h.contents
  rw [h.consistent.descendingIds_eq key, hledger, ascending_contentsOf hes hdescending,
    List.reverse_reverse, List.map_map]
  rfl

theorem entries_of_changedTo_nil {x y : FeedIndex} {key : StoreKey}
    (h : x.ChangedTo key (contentsOf []) y) : (y.feed key).entries = [] := by
  rw [(h.consistent key).entries_eq, h.contents]
  exact List.eq_nil_of_length_eq_zero (Contents.length_entryList _)

end Apply

namespace Trends

def Descending (es : List Entry) : Prop :=
  es.Pairwise fun a b => b.score.signedMagnitude < a.score.signedMagnitude

section Places

variable {cs : List TrendCandidate} {rs : List Call.Resolution}

theorem not_allFailed {found : Option ContentId} (h : .ok found ∈ rs) : ¬ AllFailed rs := by
  rintro ⟨-, hfailed⟩
  obtain ⟨e, he⟩ := hfailed _ h
  nomatch he

theorem allScored_eq_false {c : TrendCandidate} (hc : c ∈ cs)
    (hscore : c.externalScore.any Score.isFinite = false) : allScored cs = false := by
  rw [allScored, Bool.and_eq_false_iff]
  exact Or.inr (List.all_eq_false.mpr ⟨c, hc, by rw [hscore]; exact Bool.false_ne_true⟩)

theorem clean_entriesOf (hlength : rs.length = cs.length) (hplaces : allScored cs = false)
    (hfew : cs.length < 2 ^ 53) : Selection.Clean (entriesOf cs rs) where
  nodup := by
    rw [ids_entriesOf hlength]
    exact nodup_eraseDups _
  finite e he := by
    rw [entriesOf, hplaces] at he
    obtain ⟨n, hpos, hle, hscore⟩ := (scores_judge [] (cs.zip rs)).1 e he
    rw [List.length_zip, hlength, Nat.min_self] at hle
    rw [hscore]
    exact Score.isFinite_ofNat hpos (by omega)

theorem descending_entriesOf (hlength : rs.length = cs.length) (hplaces : allScored cs = false)
    (hfew : cs.length < 2 ^ 53) : Descending (entriesOf cs rs) := by
  rw [entriesOf, hplaces]
  refine (scores_judge [] (cs.zip rs)).2.imp fun {a b} h => ?_
  obtain ⟨m, n, hpos, hless, hle, hm, hn⟩ := h
  rw [List.length_zip, hlength, Nat.min_self] at hle
  rw [hm, hn]
  exact Score.signedMagnitude_ofNat_lt hpos hless (by omega)

theorem Descending.stored {es : List Entry} (h : Descending es) :
    es.Pairwise fun a b => b.stored.position < a.stored.position := by
  refine List.Pairwise.imp (fun {a b} hab => ?_) h
  apply Position.lt_of_signedMagnitude_lt
  show b.score.fold.signedMagnitude < a.score.fold.signedMagnitude
  rw [Score.signedMagnitude_fold, Score.signedMagnitude_fold]
  exact hab

theorem selected_of_descending (w : Worker) {es : List Entry} (hes : Selection.Clean es)
    (h : Descending es) : w.selected es = es.take w.settings.capacity := by
  rw [Worker.selected, Selection.dedupe_of_clean hes]
  refine Selection.top_of_descending (List.Pairwise.imp (fun {a b} hab => ?_) h) _
  have hlt : b.position < a.position := Position.lt_of_signedMagnitude_lt hab
  rw [Selection.notBelow, Bool.not_eq_true', ← Bool.not_eq_true, Position.isBefore_iff]
  exact lt_asymm hlt

theorem selected_without_ids (w : Worker) (hlength : rs.length = cs.length)
    (hnone : ∀ r ∈ rs, resolved? r = none) : w.selected (entriesOf cs rs) = [] := by
  have hids : (entriesOf cs rs).map Entry.id = [] := by
    rw [ids_entriesOf hlength, List.filterMap_eq_nil_iff.mpr hnone]
    rfl
  rw [List.map_eq_nil_iff.mp hids]
  rfl

end Places

/-! ## The run -/

/-- The worker has this source for the trending feed, and it can mark the feed. -/
structure Ready {σ : Type} (answer : Backend σ) (w : Worker) (sources : Sources)
    (settings : TrendsSettings) (s : σ) : Prop where
  source : w.hasSource .trending = true
  registered : sources.get? .trending = some (Trends.source settings)
  marked : (answer s (.mark .trending w.settings.markSeconds)).1 = .ok ()

def run (w : Worker) (sources : Sources) : Work (Except RunError Report) :=
  sources.run (w.run .trending .trending)

def allFailedError (count : Nat) : RunError :=
  .source ("Upstream error: all " ++ toString count ++ " trend candidates failed to resolve")

section Run

variable {σ : Type} {answer : Backend σ} {view : σ → FeedIndex} {w : Worker} {sources : Sources}
  {settings : TrendsSettings} {s : σ} {cs : List TrendCandidate} {rs : List Call.Resolution}

/-- What the run comes to, by what becomes of the candidates. -/
theorem run_comes (h : Backend.HoldsIndex answer view) (hx : (view s).Consistent)
    (hready : Ready answer w sources settings s)
    (hresolves : Resolves answer settings
      (answer s (.mark .trending w.settings.markSeconds)).2 cs rs) :
    (AllFailed rs → w.Comes .trending .trending (view s) ((run w sources).run answer s).1
      (view ((run w sources).run answer s).2) (.error (allFailedError cs.length))) ∧
    (¬ AllFailed rs → w.Comes .trending .trending (view s) ((run w sources).run answer s).1
      (view ((run w sources).run answer s).2) (.ok (w.selected (entriesOf cs rs)))) := by
  have hcomes : w.Comes .trending .trending (view s) ((run w sources).run answer s).1
      (view ((run w sources).run answer s).2) _ :=
    Worker.run_sources_comes h hx hready.registered (aside_source settings) hready.source
      hready.marked
  obtain ⟨hfailed, hresolved⟩ := attempt_source hresolves
  constructor
  · intro hall
    rw [hfailed hall] at hcomes
    exact hcomes
  · intro hsome
    rw [hresolved hsome] at hcomes
    exact hcomes

theorem Lists.resolves {list : List TrendCandidate} (h : Lists answer list)
    (hresolved : (answer (Routine.attempt answer s (fetch settings)).2
      (.resolveAll (max settings.concurrency 1) (list.take settings.fetchLimit))).1 = rs)
    (hlength : rs.length = (list.take settings.fetchLimit).length) :
    Resolves answer settings s (list.take settings.fetchLimit) rs :=
  ⟨attempt_fetch h settings, hresolved, hlength⟩

theorem descendingIds_run (h : Backend.HoldsIndex answer view) (hx : (view s).Consistent)
    (hready : Ready answer w sources settings s)
    (hresolves : Resolves answer settings
      (answer s (.mark .trending w.settings.markSeconds)).2 cs rs) (hsome : ¬ AllFailed rs)
    (hplaces : allScored cs = false) (hfew : cs.length < 2 ^ 53) :
    ∃ report s', (run w sources).run answer s = (.ok report, s') ∧ (view s').Consistent ∧
      (view s').descendingIds Trending.key =
        (rs.filterMap resolved?).eraseDups.take w.settings.capacity := by
  obtain ⟨hreport, hchanged⟩ := (run_comes h hx hready hresolves).2 hsome
  have hclean := clean_entriesOf hresolves.length_eq hplaces hfew
  have hdescending := descending_entriesOf hresolves.length_eq hplaces hfew
  have hselected := selected_of_descending w hclean hdescending
  have hcut : ((entriesOf cs rs).take w.settings.capacity).Pairwise
      fun a b => b.stored.position < a.stored.position :=
    hdescending.stored.sublist (List.take_sublist _ _)
  refine ⟨_, _, Prod.ext hreport rfl, hchanged.consistent, ?_⟩
  rw [← hselected] at hcut
  rw [Apply.descendingIds_of_changedTo (w.clean_selected _) hcut hchanged, hselected,
    List.map_take, ids_entriesOf hresolves.length_eq]

/-- Where at least one fetched candidate has no score of its own, the pages of the feed show
the candidates in their order: after a run, the walk from the first page shows the statuses
that exist of the identifiers that came up first, as many as the feed holds, each once. -/
theorem pages_follow_candidates {held : σ → ContentId → Option Status}
    (h : Backend.HoldsIndex answer view) (hstatuses : Backend.StocksStatuses answer held)
    (hx : (view s).Reachable) (hready : Ready answer w sources settings s)
    {list : List TrendCandidate} (hlist : Lists answer list)
    (hresolved : (answer
      (Routine.attempt answer (answer s (.mark .trending w.settings.markSeconds)).2
        (fetch settings)).2
      (.resolveAll (max settings.concurrency 1) (list.take settings.fetchLimit))).1 = rs)
    (hlength : rs.length = (list.take settings.fetchLimit).length) (hsome : ¬ AllFailed rs)
    (hunscored : ∃ c ∈ list.take settings.fetchLimit,
      c.externalScore.any Score.isFinite = false)
    (hfew : (list.take settings.fetchLimit).length < 2 ^ 53) :
    ∃ report s', (run w sources).run answer s = (.ok report, s') ∧
      ∀ (serving : ServingSettings) (asked : Option Nat), ∃ pages,
        (∀ others, Trending.WalksOn answer
          (fun offset => Trending.page serving true offset asked) s' 0 others ↔ others = pages) ∧
        pages.flatMap TrendingPage.statuses =
          ((rs.filterMap resolved?).eraseDups.take w.settings.capacity).filterMap (held s') ∧
        ((pages.flatMap TrendingPage.statuses).map Status.id).Nodup := by
  obtain ⟨c, hc, hscore⟩ := hunscored
  obtain ⟨report, s', hrun, hconsistent, hids⟩ := descendingIds_run h hx.consistent hready
    (hlist.resolves hresolved hlength) hsome (allScored_eq_false hc hscore) hfew
  refine ⟨report, s', hrun, fun serving asked => ?_⟩
  obtain ⟨pages, hwalk, hshown⟩ :=
    Trending.exists_walksOn h hstatuses serving asked hconsistent 0
  rw [List.drop_zero, hids] at hshown
  refine ⟨pages, fun others => ⟨hwalk.unique, fun heq => heq ▸ hwalk⟩, hshown, ?_⟩
  rw [hshown]
  exact nodup_ids_filterMap (hstatuses.fetches s').id_eq
    ((nodup_eraseDups _).sublist (List.take_sublist _ _))

section Listing

def listing (held : ContentId → Option Status) (list : List TrendCandidate)
    (rs : List Call.Resolution) : Backend FeedIndex
  | x, .fetchPage limit offset => (.ok ((list.drop offset).take limit), x)
  | x, .resolveAll _ _ => (rs, x)
  | x, c => Backend.plain held [] x c

variable (held : ContentId → Option Status) (list : List TrendCandidate)
  (rs : List Call.Resolution)

theorem holdsIndex_listing : Backend.HoldsIndex (listing held list rs) id where
  request _ _ _ := ⟨rfl, rfl⟩
  other x c h := by
    cases c with
    | index key r => exact absurd rfl (h key r)
    | _ => rfl

theorem lists_listing : Lists (listing held list rs) list := fun _ _ _ => rfl

theorem stocksStatuses_listing (hid : ∀ id status, held id = some status → status.id = id) :
    Backend.StocksStatuses (listing held list rs) fun _ => held where
  fetches x := ⟨hid, ((Backend.holdsStatuses_plain [] hid).fetch x)⟩
  other _ _ _ := rfl

theorem resolves_listing (settings : TrendsSettings) (x : FeedIndex)
    (hlength : rs.length = (list.take settings.fetchLimit).length) :
    Resolves (listing held list rs) settings x (list.take settings.fetchLimit) rs :=
  (lists_listing held list rs).resolves rfl hlength

end Listing

def mixedTrends : List TrendCandidate :=
  ⟨"a", some ⟨7⟩, none⟩ :: List.replicate 7 ⟨"b", none, none⟩

def mixedOutcomes : List Call.Resolution :=
  [.ok (some 5), .error (.collaborator "down"), .ok (some 8), .ok none, .ok (some 5), .ok (some 3),
    .ok (some 9)]

def formerTrends : List (StoreKey × IndexRequest) :=
  [(Trending.key, .upsertMany [⟨5, ⟨1⟩⟩, ⟨42, ⟨9⟩⟩])]

def sevenTrends : TrendsSettings := ⟨true, "", 7, 2, 4, 10⟩

def trendsWorker : Worker := ⟨[.trending], { PrecomputeSettings.default with capacity := 3 }⟩

def trendsSources : Sources := ⟨[(.trending, source sevenTrends)]⟩

theorem ready_listing (held : ContentId → Option Status) (list : List TrendCandidate)
    (rs : List Call.Resolution) (x : FeedIndex) :
    Ready (listing held list rs) trendsWorker trendsSources sevenTrends x := ⟨by decide, rfl, rfl⟩

theorem pages_follow_candidates_mixed :
    ∃ report s', (run trendsWorker trendsSources).run
        (listing Timeline.oddStatuses mixedTrends mixedOutcomes)
        (Keeper.run FeedIndex.answer formerTrends ∅).2 = (.ok report, s') ∧
      ∃ pages, Trending.WalksOn (listing Timeline.oddStatuses mixedTrends mixedOutcomes)
          (fun offset => Trending.page .default true offset (some 2)) s' 0 pages ∧
        (pages.flatMap TrendingPage.statuses).map Status.id = [5, 3] := by
  have hsome : ¬ AllFailed mixedOutcomes :=
    not_allFailed (show .ok none ∈ mixedOutcomes by decide)
  obtain ⟨report, s', hrun, hpages⟩ := pages_follow_candidates
    (holdsIndex_listing Timeline.oddStatuses mixedTrends mixedOutcomes)
    (stocksStatuses_listing Timeline.oddStatuses mixedTrends mixedOutcomes
      Timeline.id_of_oddStatuses) ⟨formerTrends, rfl⟩
    (ready_listing Timeline.oddStatuses mixedTrends mixedOutcomes _)
    (lists_listing Timeline.oddStatuses mixedTrends mixedOutcomes) rfl rfl hsome
    ⟨⟨"b", none, none⟩, by decide, rfl⟩ (by decide)
  obtain ⟨pages, hwalk, hshown, -⟩ := hpages .default (some 2)
  have hstatuses : (((mixedOutcomes.filterMap resolved?).eraseDups.take
      trendsWorker.settings.capacity).filterMap Timeline.oddStatuses).map Status.id = [5, 3] := by
    decide +kernel
  exact ⟨report, s', hrun, pages, (hwalk pages).mpr rfl, hshown ▸ hstatuses⟩

/-- Where no candidate leads to an identifier, the run fails and keeps the feed exactly if
every candidate failed.  Otherwise it ends well and empties the feed. -/
theorem run_keeps_feed_iff (h : Backend.HoldsIndex answer view) (hx : (view s).Reachable)
    (hready : Ready answer w sources settings s)
    (hresolves : Resolves answer settings
      (answer s (.mark .trending w.settings.markSeconds)).2 cs rs)
    (hnone : ∀ r ∈ rs, resolved? r = none) :
    ∃ result s', (run w sources).run answer s = (result, s') ∧
      (result = .error (allFailedError cs.length) ∧ view s' = view s ↔ AllFailed rs) ∧
      (¬ AllFailed rs → (∃ report, result = .ok report) ∧
        ((view s').feed Trending.key).entries = [] ∧
        ∀ other, other ≠ Trending.key → (view s').feed other = (view s).feed other) := by
  obtain ⟨hfailed, hsome⟩ := run_comes h hx.consistent hready hresolves
  generalize (run w sources).run answer s = ended at hfailed hsome ⊢
  obtain ⟨result, s'⟩ := ended
  refine ⟨result, s', rfl, ⟨fun ⟨herror, _⟩ => ?_, hfailed⟩, fun hnot => ?_⟩
  · by_contra hnot
    obtain ⟨hreport, -⟩ := hsome hnot
    nomatch hreport.symm.trans herror
  · obtain ⟨hreport, hchanged⟩ := hsome hnot
    rw [selected_without_ids w hresolves.length_eq hnone] at hreport hchanged
    exact ⟨⟨_, hreport⟩, Apply.entries_of_changedTo_nil hchanged, hchanged.others⟩

def bothTrends : List TrendCandidate := List.replicate 2 ⟨"b", none, none⟩

def fullOutage : List Call.Resolution := List.replicate 2 (.error (.collaborator "down"))

theorem run_keeps_feed_iff_outage :
    ∃ y, (run trendsWorker trendsSources).run
        (listing Timeline.oddStatuses bothTrends fullOutage)
        (Keeper.run FeedIndex.answer formerTrends ∅).2 = (.error (allFailedError 2), y) ∧
      y = (Keeper.run FeedIndex.answer formerTrends ∅).2 := by
  obtain ⟨result, y, hrun, hiff, -⟩ := run_keeps_feed_iff
    (holdsIndex_listing Timeline.oddStatuses bothTrends fullOutage) ⟨formerTrends, rfl⟩
    (ready_listing Timeline.oddStatuses bothTrends fullOutage _)
    (resolves_listing Timeline.oddStatuses bothTrends fullOutage sevenTrends _ rfl) (by decide)
  obtain ⟨rfl, hkept⟩ := hiff.mpr
    ⟨List.cons_ne_nil _ _, fun r hr => ⟨_, (List.mem_replicate.mp hr).2⟩⟩
  exact ⟨y, hrun, hkept⟩

def partialOutage : List Call.Resolution := [.error (.collaborator "down"), .ok none]

/-- Though a candidate failed and none leads to an identifier, the run ends well and a feed
with two entries is empty after it. -/
theorem partial_outage_empties_feed :
    ((Keeper.run FeedIndex.answer formerTrends ∅).2.feed Trending.key).entries.map Entry.id =
        [5, 42] ∧
      (∃ e, .error e ∈ partialOutage) ∧ (∀ r ∈ partialOutage, resolved? r = none) ∧
      ∃ report y, (run trendsWorker trendsSources).run
          (listing Timeline.oddStatuses bothTrends partialOutage)
          (Keeper.run FeedIndex.answer formerTrends ∅).2 = (.ok report, y) ∧
        (y.feed Trending.key).entries = [] := by
  have hsome : ¬ AllFailed partialOutage :=
    not_allFailed (show .ok none ∈ partialOutage by decide)
  obtain ⟨hreport, hchanged⟩ := (run_comes
    (holdsIndex_listing Timeline.oddStatuses bothTrends partialOutage)
    (FeedIndex.Reachable.consistent ⟨formerTrends, rfl⟩)
    (ready_listing Timeline.oddStatuses bothTrends partialOutage _)
    (resolves_listing Timeline.oddStatuses bothTrends partialOutage sevenTrends _ rfl)).2 hsome
  rw [selected_without_ids trendsWorker rfl (by decide)] at hchanged
  refine ⟨by decide +kernel, ⟨_, List.mem_cons_self⟩, by decide, _, _, Prod.ext hreport rfl, ?_⟩
  exact Apply.entries_of_changedTo_nil hchanged

end Run

end Trends
end WarmFeed
