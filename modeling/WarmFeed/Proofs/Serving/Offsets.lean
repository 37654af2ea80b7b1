import WarmFeed.Proofs.Serving.Walk

/-!
# Going on through the trending feed

A page of the trending feed is a window of the feed by rank, and the next page begins where
it ends.  There is a next page after every full window, so the walk stops at the first window
that is not full.  What is not left of the statuses makes a page shorter, but not its window.
-/

namespace WarmFeed

/-- There are not more identifiers than words. -/
theorem length_le_wordBound {ids : List ContentId} (h : ids.Nodup) : ids.length ≤ wordBound := by
  have hnodup : (ids.map UInt64.toNat).Nodup := h.map fun a b hab => UInt64.toNat_inj.mp hab
  have hsub : ids.map UInt64.toNat ⊆ List.range wordBound := by
    intro n hn
    obtain ⟨id, -, rfl⟩ := List.mem_map.mp hn
    exact List.mem_range.mpr id.toNat_lt
  have hle := (hnodup.subperm hsub).length_le
  rwa [List.length_map, List.length_range] at hle

theorem FeedIndex.Consistent.rankWindow_eq {x : FeedIndex} (h : x.Consistent) (key : StoreKey)
    (offset limit : Nat) :
    (x.feed key).rankWindow offset limit = ((x.descendingIds key).drop offset).take limit := by
  rw [(h key).rankWindow_eq, h.descendingIds_eq key, Contents.rankWindow, ← List.map_drop,
    ← List.map_take]
  rfl

structure TrendingPage.Shows (held : ContentId → Option Status) (offset limit : Nat)
    (ids : List ContentId) (page : TrendingPage) : Prop where
  statuses : page.statuses = ids.filterMap held
  cursors : page.cursors = .ofPage offset limit ids.length

namespace Trending

abbrev key : StoreKey := .index .trending .trending

variable {σ : Type} {answer : Backend σ} {view : σ → FeedIndex}
  {held : σ → ContentId → Option Status}

theorem attempt_readOffset (h : Backend.HoldsIndex answer view) {s : σ}
    (hx : (view s).Consistent) (offset limit : Nat) :
    Routine.attempt answer s (Reader.readOffset .trending .trending offset limit) =
      (.ok (((view s).descendingIds key).drop offset |>.take limit),
        (answer s (.index key (.rankWindow offset limit))).2) := by
  have hreply := (h.request s key (.rankWindow offset limit)).1
  have hwindow : ((view s).answer key (.rankWindow offset limit)).1 =
      .ok ((((view s).descendingIds key).drop offset).take limit) :=
    congrArg Except.ok (hx.rankWindow_eq key offset limit)
  unfold Reader.readOffset Attempt.mapError
  rw [if_pos (by decide), Routine.attempt_mapError]
  show (((answer s (.index key (.rankWindow offset limit))).1).mapError ServiceError.store, _) = _
  rw [hreply, hwindow]
  rfl

theorem held_hydrate (hstatuses : Backend.StocksStatuses answer held) (s : σ)
    (ids : List ContentId) :
    held (Routine.attempt answer s (Hydration.hydrate ids)).2 = held s := by
  refine ((Hydration.asks_hydrate ids).staysIn (P := fun t => held t = held s)
    (fun t c hc ht => ?_) rfl).2
  rcases hc with ⟨ids, rfl⟩ | ⟨metric, n, rfl⟩
  · exact (hstatuses.other t _ fun _ _ => Call.noConfusion).trans ht
  · exact (hstatuses.other t _ fun _ _ => Call.noConfusion).trans ht

def window (x : FeedIndex) (offset limit : Nat) : List ContentId :=
  ((x.descendingIds key).drop offset).take limit

/-- One page, where the feed is served: it shows the window at its offset. -/
theorem attempt_page (h : Backend.HoldsIndex answer view)
    (hstatuses : Backend.StocksStatuses answer held) (settings : ServingSettings)
    (asked : Option Nat) {s : σ} (hx : (view s).Consistent) (offset : Nat) {limit : Nat}
    (hlimit : clampLimit asked settings.defaultLimit settings.maxLimit = limit) :
    ∃ shown s', Routine.attempt answer s (page settings true offset asked) = (.ok shown, s') ∧
      view s' = view s ∧ held s' = held s ∧
      shown.Shows (held s) offset limit (window (view s) offset limit) := by
  obtain ⟨marked, s₁, hs₁, hmarked⟩ : ∃ marked s₁, (answer s (.isMarked .trending)).2 = s₁ ∧
      Routine.attempt answer s (liftM (isRegenerating .trending) : Attempt ServiceError Bool) =
        (.ok marked, s₁) :=
    ⟨_, _, (congrArg Prod.snd (Timeline.run_isRegenerating answer s .trending)).symm,
      Routine.attempt_liftRoutine answer s _⟩
  have hview₁ : view s₁ = view s := hs₁ ▸ h.other s _ fun _ _ => Call.noConfusion
  have hheld₁ : held s₁ = held s := hs₁ ▸ hstatuses.other s _ fun _ _ => Call.noConfusion
  have hread := attempt_readOffset h (hview₁ ▸ hx) offset limit
  rw [hview₁] at hread
  generalize hs₂ : (answer s₁ (.index key (.rankWindow offset limit))).2 = s₂ at hread
  have hview₂ : view s₂ = view s :=
    hs₂ ▸ (h.request s₁ key (.rankWindow offset limit)).2.trans hview₁
  have hheld₂ : held s₂ = held s :=
    hs₂ ▸ (hstatuses.other s₁ _ fun _ _ => Call.noConfusion).trans hheld₁
  have hnodup : (window (view s) offset limit).Nodup :=
    (hx.nodup_descendingIds key).sublist
      ((List.take_sublist _ _).trans (List.drop_sublist _ _))
  have hfetches : Backend.Fetches answer (held s) s₂ := hheld₂ ▸ hstatuses.fetches s₂
  have hhydrate := Hydration.attempt_hydrate_of_fetches hfetches hnodup
  refine ⟨⟨_, .ofRegenerating marked, .ofPage offset limit _⟩, _, ?_,
    (Hydration.view_hydrate h s₂ (window (view s) offset limit)).trans hview₂,
    (held_hydrate hstatuses s₂ (window (view s) offset limit)).trans hheld₂, ⟨rfl, rfl⟩⟩
  unfold page
  rw [hlimit]
  refine (Routine.attempt_bind_ok hmarked).trans ?_
  refine (Routine.attempt_bind_ok hread).trans ?_
  exact Routine.attempt_bind_ok (Prod.ext hhydrate rfl)

/-- The pages of a walk on.  Each page but the first is asked for at the offset that the page
before it names, and only the last one names none. -/
inductive WalksOn (answer : Backend σ) (ask : Nat → Attempt ServiceError TrendingPage) :
    σ → Nat → List TrendingPage → Prop where
  | last {s s' : σ} {offset : Nat} {page : TrendingPage}
      (hpage : Routine.attempt answer s (ask offset) = (.ok page, s'))
      (hend : page.cursors.nextOffset = none) : WalksOn answer ask s offset [page]
  | next {s s' : σ} {offset next : Nat} {page : TrendingPage} {pages : List TrendingPage}
      (hpage : Routine.attempt answer s (ask offset) = (.ok page, s'))
      (hnext : page.cursors.nextOffset = some next)
      (hrest : WalksOn answer ask s' next pages) : WalksOn answer ask s offset (page :: pages)

theorem WalksOn.unique {ask : Nat → Attempt ServiceError TrendingPage} {s : σ} {offset : Nat}
    {pages others : List TrendingPage} (h : WalksOn answer ask s offset pages)
    (hothers : WalksOn answer ask s offset others) : others = pages := by
  induction h generalizing others with
  | last hpage hend =>
    cases hothers with
    | last hpage' hend' =>
      rw [hpage] at hpage'
      rw [Except.ok.inj (congrArg Prod.fst hpage')]
    | next hpage' hnext' hrest' =>
      rw [hpage] at hpage'
      rw [← Except.ok.inj (congrArg Prod.fst hpage'), hend] at hnext'
      exact absurd hnext' (Option.some_ne_none _).symm
  | next hpage hnext hrest ih =>
    cases hothers with
    | last hpage' hend' =>
      rw [hpage] at hpage'
      rw [← Except.ok.inj (congrArg Prod.fst hpage'), hnext] at hend'
      exact absurd hend' (Option.some_ne_none _)
    | next hpage' hnext' hrest' =>
      rw [hpage] at hpage'
      obtain ⟨hsame, rfl⟩ := Prod.mk.inj hpage'
      obtain rfl := Except.ok.inj hsame
      rw [hnext] at hnext'
      obtain rfl := Option.some.inj hnext'
      rw [ih hrest']

/-- The highest offset that a walk can come to: the end of the feed, as far as it can be
written. -/
def lastOffset (x : FeedIndex) : Nat := min (x.descendingIds key).length (wordBound - 1)

/-- A page has a next one as long as a whole window lies between it and the last offset. -/
theorem nextOffset_window (x : FeedIndex) (offset : Nat) {limit : Nat} (hlimit : 0 < limit) :
    (OffsetCursors.ofPage offset limit (window x offset limit).length).nextOffset =
      if offset + limit ≤ lastOffset x then some (offset + limit) else none := by
  have hpos : 0 < wordBound := by decide
  unfold OffsetCursors.ofPage lastOffset
  rw [window, List.length_take, List.length_drop]
  by_cases hnext : offset + limit ≤ min (x.descendingIds key).length (wordBound - 1)
  · rw [if_pos hnext, if_pos (by omega)]
  · rw [if_neg hnext, if_neg (by omega)]

/-- Nothing stands in the feed after the last offset. -/
theorem drop_eq_nil_of_lastOffset_lt {x : FeedIndex} (hx : x.Consistent) {offset : Nat}
    (h : lastOffset x < offset) : (x.descendingIds key).drop offset = [] := by
  have hwords := length_le_wordBound (hx.nodup_descendingIds key)
  unfold lastOffset at h
  rw [List.drop_eq_nil_iff]
  omega

theorem window_append_window (x : FeedIndex) (offset n m : Nat) :
    window x offset n ++ window x (offset + n) m = window x offset (n + m) := by
  unfold window
  rw [← List.drop_drop, List.take_add]

/-- Pages that show a feed from an offset on in windows of `limit`, one after the other. -/
structure Covers (held : ContentId → Option Status) (limit : Nat) (x : FeedIndex) (offset : Nat)
    (pages : List TrendingPage) : Prop where
  count : pages.length = (lastOffset x - offset) / limit + 1
  shows : ∀ i (hi : i < pages.length), (pages[i]).Shows held (offset + i * limit) limit
    (window x (offset + i * limit) limit)
  statuses : pages.flatMap TrendingPage.statuses =
    ((x.descendingIds key).drop offset).filterMap held

section Covers

variable {held : ContentId → Option Status} {limit offset : Nat} {x : FeedIndex}
  {page : TrendingPage} {pages : List TrendingPage}

theorem Covers.last (hx : x.Consistent) (hend : lastOffset x < offset + limit)
    (h : page.Shows held offset limit (window x offset limit)) :
    Covers held limit x offset [page] where
  count := by
    have hzero : (lastOffset x - offset) / limit = 0 := Nat.div_eq_zero_iff.mpr (by omega)
    rw [hzero, List.length_singleton]
  shows i hi := by
    obtain rfl : i = 0 := Nat.lt_one_iff.mp hi
    rw [Nat.zero_mul, Nat.add_zero]
    exact h
  statuses := by
    have hwhole : window x offset limit = (x.descendingIds key).drop offset := by
      rw [window, List.take_eq_self_iff, ← Nat.sub_eq_zero_iff_le, ← List.length_drop,
        List.drop_drop, drop_eq_nil_of_lastOffset_lt hx hend, List.length_nil]
    rw [List.flatMap_singleton, h.statuses, hwhole]

theorem Covers.cons (hlimit : 0 < limit) (hnext : offset + limit ≤ lastOffset x)
    (h : page.Shows held offset limit (window x offset limit))
    (hrest : Covers held limit x (offset + limit) pages) :
    Covers held limit x offset (page :: pages) where
  count := by
    have hsum : lastOffset x - offset = lastOffset x - (offset + limit) + limit := by omega
    rw [List.length_cons, hrest.count, hsum, Nat.add_div_right _ hlimit]
  shows i hi := by
    cases i with
    | zero =>
      rw [Nat.zero_mul, Nat.add_zero]
      exact h
    | succ i =>
      have hshows := hrest.shows i (Nat.lt_of_succ_lt_succ hi)
      have hoffset : offset + limit + i * limit = offset + (i + 1) * limit := by
        rw [Nat.succ_mul, Nat.add_assoc, Nat.add_comm limit]
      rw [hoffset] at hshows
      exact hshows
  statuses := by
    rw [List.flatMap_cons, h.statuses, hrest.statuses, ← List.filterMap_append, window,
      ← List.drop_drop, List.take_append_drop]

/-- Whether a page is followed by another depends on its window alone, and not on what is left
of the statuses in it. -/
theorem Covers.lt_length_iff (h : Covers held limit x 0 pages) (hlimit : 0 < limit) {i : Nat} :
    i + 1 < pages.length ↔
      (window x (i * limit) limit).length = limit ∧ (i + 1) * limit < wordBound := by
  have hpos : 0 < wordBound := by decide
  have hsucc : (i + 1) * limit = i * limit + limit := Nat.succ_mul i limit
  rw [h.count, Nat.sub_zero, Nat.succ_lt_succ_iff, Nat.lt_iff_add_one_le,
    Nat.le_div_iff_mul_le hlimit, lastOffset, window, List.length_take, List.length_drop]
  omega

end Covers

/-- From any offset the walk ends, and its pages cover the rest of the feed. -/
theorem exists_walksOn_covers (h : Backend.HoldsIndex answer view)
    (hstatuses : Backend.StocksStatuses answer held) (settings : ServingSettings)
    (asked : Option Nat) {s : σ} (hx : (view s).Consistent) (offset : Nat) :
    ∃ pages, WalksOn answer (fun offset => page settings true offset asked) s offset pages ∧
      Covers (held s) (clampLimit asked settings.defaultLimit settings.maxLimit) (view s) offset
        pages := by
  -- Each page that has a next one brings the walk nearer to the last offset.
  induction hrest : lastOffset (view s) - offset using Nat.strong_induction_on
    generalizing s offset with
  | _ n ih =>
    have hlimit := clampLimit_pos asked settings.defaultLimit settings.maxLimit
    obtain ⟨shown, s', hpage, hview, hheld, hshows⟩ :=
      attempt_page h hstatuses settings asked hx offset rfl
    have hcursor := nextOffset_window (view s) offset hlimit
    rw [← hshows.cursors] at hcursor
    generalize clampLimit asked settings.defaultLimit settings.maxLimit = limit at *
    by_cases hnext : offset + limit ≤ lastOffset (view s)
    · rw [if_pos hnext] at hcursor
      have hless : lastOffset (view s') - (offset + limit) < n := by
        rw [hview]
        omega
      obtain ⟨pages, hwalk, hcovers⟩ := ih _ hless (hview ▸ hx) _ rfl
      rw [hview, hheld] at hcovers
      exact ⟨shown :: pages, .next hpage hcursor hwalk, .cons hlimit hnext hshows hcovers⟩
    · rw [if_neg hnext] at hcursor
      exact ⟨[shown], .last hpage hcursor, .last hx (Nat.lt_of_not_le hnext) hshows⟩

theorem exists_walksOn (h : Backend.HoldsIndex answer view)
    (hstatuses : Backend.StocksStatuses answer held) (settings : ServingSettings)
    (asked : Option Nat) {s : σ} (hx : (view s).Consistent) (offset : Nat) :
    ∃ pages, WalksOn answer (fun offset => page settings true offset asked) s offset pages ∧
      pages.flatMap TrendingPage.statuses =
        (((view s).descendingIds key).drop offset).filterMap (held s) := by
  obtain ⟨pages, hwalk, hcovers⟩ := exists_walksOn_covers h hstatuses settings asked hx offset
  exact ⟨pages, hwalk, hcovers.statuses⟩

/-- A walk on from offset zero ends, and goes through the feed from the highest position to the
lowest. -/
structure GoesThrough (answer : Backend σ) (held : ContentId → Option Status) (limit : Nat)
    (x : FeedIndex) (s : σ) (ask : Nat → Attempt ServiceError TrendingPage) : Prop where
  ends : ∃ pages, WalksOn answer ask s 0 pages
  descending : (x.feed key).entries.reverse.Pairwise fun a b => b.position.isBefore a.position
  covers : ∀ pages, WalksOn answer ask s 0 pages → Covers held limit x 0 pages
  goesOn : ∀ pages, WalksOn answer ask s 0 pages → ∀ i, i + 1 < pages.length ↔
    (window x (i * limit) limit).length = limit ∧ (i + 1) * limit < wordBound
  once : ∀ pages, WalksOn answer ask s 0 pages →
    ((pages.flatMap TrendingPage.statuses).map Status.id).Nodup

theorem goesThrough_page (h : Backend.HoldsIndex answer view)
    (hstatuses : Backend.StocksStatuses answer held) (settings : ServingSettings)
    (asked : Option Nat) {s : σ} (hx : (view s).Consistent) :
    GoesThrough answer (held s) (clampLimit asked settings.defaultLimit settings.maxLimit) (view s)
      s (fun offset => page settings true offset asked) := by
  obtain ⟨pages, hwalk, hcovers⟩ := exists_walksOn_covers h hstatuses settings asked hx 0
  refine ⟨⟨pages, hwalk⟩, hx.descending_entries key, ?_, ?_, ?_⟩
  · intro others hothers
    rw [hwalk.unique hothers]
    exact hcovers
  · intro others hothers i
    rw [hwalk.unique hothers]
    exact hcovers.lt_length_iff (clampLimit_pos asked settings.defaultLimit settings.maxLimit)
  · intro others hothers
    rw [hwalk.unique hothers, hcovers.statuses, List.drop_zero]
    exact nodup_ids_filterMap (hstatuses.fetches s).id_eq (hx.nodup_descendingIds key)

/-- Offsets at which a reader can go on from a page: both can be written, the next page follows
without a gap, and the previous one ends where this one begins. -/
structure Continues (x : FeedIndex) (offset limit returned : Nat) (cursors : OffsetCursors) :
    Prop where
  next : ∀ next, cursors.nextOffset = some next → next < wordBound ∧ next = offset + returned ∧
    ∀ more, window x offset returned ++ window x next more = window x offset (returned + more)
  previous : ∀ previous, cursors.prevOffset = some previous →
    previous < wordBound ∧ previous + limit = offset

theorem continues_ofPage (x : FeedIndex) {offset : Nat} (hoffset : offset < wordBound)
    (limit returned : Nat) :
    Continues x offset limit returned (.ofPage offset limit returned) where
  next next h := by
    obtain ⟨⟨-, hfull, hword⟩, hnext⟩ := Option.ite_none_right_eq_some.mp h
    obtain rfl : offset + limit = next := Option.some.inj hnext
    rw [hfull]
    exact ⟨hword, rfl, window_append_window x offset limit⟩
  previous previous h := by
    obtain ⟨hless, hprevious⟩ := Option.ite_none_right_eq_some.mp h
    obtain rfl : offset - limit = previous := Option.some.inj hprevious
    omega

/-- The walk through the trending feed ends, and shows the statuses that exist for the feed from
the highest position to the lowest, whatever the limits, the marks and the gaps in the store.
The offsets of a page never leave the range of offsets, and lead on right after the page. -/
theorem walks_on_through_feed (h : Backend.HoldsIndex answer view)
    (hstatuses : Backend.StocksStatuses answer held) (settings : ServingSettings)
    (asked : Option Nat) (s : σ) (hs : (view s).Reachable) :
    GoesThrough answer (held s) (clampLimit asked settings.defaultLimit settings.maxLimit) (view s)
        s (fun offset => page settings true offset asked) ∧
      ∀ offset limit returned, offset < wordBound →
        Continues (view s) offset limit returned (.ofPage offset limit returned) :=
  ⟨goesThrough_page h hstatuses settings asked hs.consistent,
    fun _ limit returned hoffset => continues_ofPage (view s) hoffset limit returned⟩

def pairedCalls : List (StoreKey × IndexRequest) :=
  [(key, .upsertMany [⟨1, ⟨5⟩⟩, ⟨2, ⟨5⟩⟩, ⟨3, ⟨9⟩⟩, ⟨4, ⟨9⟩⟩])]

/-- One entry a page, every second of which has no status. -/
theorem walks_on_through_paired_feed :
    ∃ pages, WalksOn (Backend.plain Timeline.oddStatuses [])
        (fun offset => page .default true offset (some 1))
        (Keeper.run FeedIndex.answer pairedCalls ∅).2 0 pages ∧
      pages.length = 5 ∧ (pages.flatMap TrendingPage.statuses).map Status.id = [3, 1] ∧
      ∀ next, (OffsetCursors.ofPage 3 1 1).nextOffset = some next → next = 4 := by
  obtain ⟨hwalks, hcontinues⟩ := walks_on_through_feed
    (Backend.holdsIndex_plain Timeline.oddStatuses [])
    (Backend.holdsStatuses_plain [] Timeline.id_of_oddStatuses).stocks .default (some 1)
    (Keeper.run FeedIndex.answer pairedCalls ∅).2 ⟨pairedCalls, rfl⟩
  obtain ⟨pages, hwalk⟩ := hwalks.ends
  have hcovers := hwalks.covers pages hwalk
  have hids : FeedIndex.descendingIds (Keeper.run FeedIndex.answer pairedCalls ∅).2 key =
      [4, 3, 2, 1] := by
    decide +kernel
  refine ⟨pages, hwalk, ?_, ?_, fun next hnext => ?_⟩
  · rw [hcovers.count, lastOffset, id_eq, hids]
    decide
  · rw [hcovers.statuses, id_eq, hids]
    show (([4, 3, 2, 1].drop 0).filterMap Timeline.oddStatuses).map Status.id = [3, 1]
    decide +kernel
  · exact ((hcontinues 3 1 1 (by decide)).next next hnext).2.1

end Trending
end WarmFeed
