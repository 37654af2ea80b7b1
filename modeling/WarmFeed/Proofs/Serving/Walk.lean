import WarmFeed.Proofs.Serving.Hydration
import WarmFeed.Proofs.Serving.Reader
import WarmFeed.Serving.Timeline

/-!
# Going back through a timeline

A page is asked for below the oldest identifier of the window before it.  That
identifier stays in the index, so the next window begins right below its position,
whatever scores are equal there and whatever became of its status.  The windows
follow each other without gaps until one of them is empty.
-/

namespace WarmFeed

theorem clampLimit_pos (asked : Option Nat) (usual most : Nat) :
    0 < clampLimit asked usual most := by
  unfold clampLimit
  omega

def FeedIndex.descendingIds (x : FeedIndex) (key : StoreKey) : List ContentId :=
  (x.feed key).entries.reverse.map Entry.id

theorem FeedIndex.Consistent.descendingIds_eq {x : FeedIndex} (h : x.Consistent) (key : StoreKey) :
    x.descendingIds key = (x.ledger key).ascending.reverse.map Position.id := by
  unfold FeedIndex.descendingIds
  rw [(h key).entries_eq, Contents.entryList, ← List.map_reverse, List.map_map]
  rfl

theorem FeedIndex.Consistent.nodup_descendingIds {x : FeedIndex} (h : x.Consistent)
    (key : StoreKey) : (x.descendingIds key).Nodup := by
  rw [h.descendingIds_eq key, List.map_reverse]
  exact List.nodup_reverse.mpr (Contents.ids_nodup _)

theorem FeedIndex.Consistent.descending_entries {x : FeedIndex} (h : x.Consistent)
    (key : StoreKey) :
    (x.feed key).entries.reverse.Pairwise fun a b => b.position.isBefore a.position := by
  rw [(h key).entries_eq, Contents.entryList, List.pairwise_reverse, List.pairwise_map]
  exact (Contents.pairwise_ascending _).imp fun hlt => Position.isBefore_iff.mpr hlt

/-! ## The window below a cursor -/

namespace Reader

variable {x : FeedIndex} {key : StoreKey} {before rest : List Position}

/-- The cursor at the end of what was read stands for the last position that was read. -/
theorem boundAt_getLast?
    (hsplit : (x.ledger key).ascending.reverse = before ++ rest) :
    boundAt x key (before.getLast?.map Position.id) =
      match before.getLast? with
      | none => .unbounded
      | some p => .exclusive p := by
  cases hlast : before.getLast? with
  | none => rfl
  | some p =>
    have hmem : p ∈ (x.ledger key).ascending := by
      rw [← List.mem_reverse, hsplit]
      exact List.mem_append_left _ (List.mem_of_getLast? hlast)
    have hscore : x.score? key p.id = some p.score := by
      rw [← Contents.mem_ascending.mp hmem, FeedIndex.ledger, SortedEntries.lookup_contents]
      rfl
    have hposition : x.position? key p.id = some p := by
      unfold FeedIndex.position?
      rw [hscore, Option.map_some]
    unfold boundAt
    rw [Option.map_some, Option.bind_some, hposition]

/-- Below the last position that was read stands exactly what was not read yet. -/
theorem filter_isAbove_getLast? (hsplit : (x.ledger key).ascending.reverse = before ++ rest)
    (b : Bound) (hb : b = match before.getLast? with
      | none => .unbounded
      | some p => .exclusive p) :
    (before ++ rest).filter b.isAbove = rest := by
  have hdescending : (before ++ rest).Pairwise fun p q => q < p := by
    rw [← hsplit]
    exact List.pairwise_reverse.mpr (Contents.pairwise_ascending _)
  obtain ⟨hbefore, -, hacross⟩ := List.pairwise_append.mp hdescending
  rw [List.filter_append]
  cases hlast : before.getLast? with
  | none =>
    rw [hlast] at hb
    rw [List.getLast?_eq_none_iff.mp hlast, List.filter_nil, List.nil_append, hb,
      List.filter_eq_self]
    exact fun p _ => rfl
  | some p =>
    rw [hlast] at hb
    obtain ⟨init, rfl⟩ := List.getLast?_eq_some_iff.mp hlast
    have hread : (init ++ [p]).filter b.isAbove = [] := by
      rw [List.filter_eq_nil_iff]
      intro q hq
      have hle : p ≤ q := by
        rcases List.mem_append.mp hq with hq | hq
        · exact le_of_lt ((List.pairwise_append.mp hbefore).2.2 q hq p (List.mem_singleton_self p))
        · exact (List.mem_singleton.mp hq).symm.le
      rw [hb]
      show ¬ q.isBefore p = true
      rw [Position.isBefore_iff]
      exact not_lt.mpr hle
    have hunread : rest.filter b.isAbove = rest := by
      rw [List.filter_eq_self]
      intro q hq
      rw [hb]
      exact Position.isBefore_iff.mpr
        (hacross p (List.mem_append_right _ (List.mem_singleton_self p)) q hq)
    rw [hread, hunread, List.nil_append]

theorem range_queryAt (hx : x.Consistent)
    (hsplit : (x.ledger key).ascending.reverse = before ++ rest) (asked : Option Nat)
    (limit : Nat) :
    (x.feed key).range
        (queryAt x key ⟨asked, before.getLast?.map Position.id, none, none⟩ limit) =
      (rest.take limit).map Position.id := by
  have hbound := boundAt_getLast? hsplit
  have hcontains : (RangeQuery.down (boundAt x key (before.getLast?.map Position.id)) .unbounded
      limit).contains = (boundAt x key (before.getLast?.map Position.id)).isAbove := by
    funext p
    exact Bool.true_and _
  rw [(hx key).range_eq]
  show (((x.ledger key).window (RangeQuery.down
    (boundAt x key (before.getLast?.map Position.id)) .unbounded limit)).reverse.take limit).map
      Position.id = _
  rw [Contents.window, hcontains, ← List.filter_reverse, hsplit,
    filter_isAbove_getLast? hsplit _ hbound]

end Reader

/-! ## One page -/

structure FeedPage.Shows (held : ContentId → Option Status) (ids : List ContentId)
    (page : FeedPage) : Prop where
  statuses : page.statuses = ids.filterMap held
  cursors : page.cursors = .ofWindow ⟨ids, .descending⟩

namespace Timeline

variable {σ : Type} {answer : Backend σ} {view : σ → FeedIndex}
  {held : ContentId → Option Status}

theorem run_isRegenerating (answer : Backend σ) (s : σ) (subject : Subject) :
    (isRegenerating subject).run answer s =
      ((answer s (.isMarked subject)).1.toOption.getD false,
        (answer s (.isMarked subject)).2) := by
  unfold isRegenerating
  rw [Routine.bind_eq, Routine.run_bind, Routine.run_request]
  cases (answer s (.isMarked subject)).1 <;> rfl

theorem attempt_isRegenerating (h : Backend.HoldsIndex answer view) (s : σ) (subject : Subject) :
    ∃ marked s', Routine.attempt answer s
        (liftM (isRegenerating subject) : Attempt ServiceError Bool) = (.ok marked, s') ∧
      view s' = view s := by
  refine ⟨_, _, Routine.attempt_liftRoutine answer s _, ?_⟩
  rw [run_isRegenerating]
  exact h.other s (.isMarked subject) fun key r => Call.noConfusion

/-- One page: it shows the window right below what was read before. -/
theorem attempt_page (h : Backend.HoldsIndex answer view)
    (hstatuses : Backend.HoldsStatuses answer held) {kind : FeedKind}
    (hkind : kind.isPagedByOffset = false) (settings : ServingSettings) (account : AccountId)
    (asked : Option Nat) {s : σ} (hx : (view s).Consistent) {before rest : List Position}
    (hsplit : ((view s).ledger (.index kind (.account account))).ascending.reverse =
      before ++ rest) :
    ∃ shown s', Routine.attempt answer s (page settings kind account
        ⟨asked, before.getLast?.map Position.id, none, none⟩) = (.ok shown, s') ∧
      view s' = view s ∧
      shown.Shows held ((rest.map Position.id).take
        (clampLimit asked settings.defaultLimit settings.maxLimit)) := by
  obtain ⟨marked, s₁, hmarked, hview₁⟩ := attempt_isRegenerating h s (.account account)
  obtain ⟨s₂, hread, hview₂⟩ := Reader.attempt_read h s₁ hkind (.account account)
    ⟨asked, before.getLast?.map Position.id, none, none⟩
    (clampLimit asked settings.defaultLimit settings.maxLimit)
  rw [hview₁, Reader.range_queryAt hx hsplit, List.map_take] at hread
  have hids : ((view s).ledger (.index kind (.account account))).ascending.reverse.map Position.id =
      before.map Position.id ++ rest.map Position.id := by
    rw [hsplit, List.map_append]
  have hnodup : ((rest.map Position.id).take
      (clampLimit asked settings.defaultLimit settings.maxLimit)).Nodup := by
    have hall := List.nodup_reverse.mpr (Contents.ids_nodup
      ((view s).ledger (.index kind (.account account))))
    rw [← List.map_reverse, hids] at hall
    exact (List.nodup_append.mp hall).2.1.sublist (List.take_sublist _ _)
  obtain ⟨s₃, hhydrate, hview₃⟩ := Hydration.attempt_hydrate h hstatuses s₂ hnodup
  refine ⟨⟨_, .ofRegenerating marked, .ofWindow ⟨_, .descending⟩⟩, s₃, ?_, ?_, ⟨rfl, rfl⟩⟩
  · unfold page
    rw [Routine.attempt_bind_ok hmarked]
    refine (Routine.attempt_bind_ok hread).trans ?_
    exact Routine.attempt_bind_ok hhydrate
  · rw [hview₃, hview₂, hview₁]

/-! ## The whole walk -/

/-- The pages of a walk back.  Each page but the first is asked for by the cursor of the
page before it, and only the last one has no cursor to an older page. -/
inductive WalksBack (answer : Backend σ) (ask : Option ContentId → Attempt ServiceError FeedPage) :
    σ → Option ContentId → List FeedPage → Prop where
  | last {s s' : σ} {cursor : Option ContentId} {page : FeedPage}
      (hpage : Routine.attempt answer s (ask cursor) = (.ok page, s'))
      (hend : page.cursors.nextMaxId = none) : WalksBack answer ask s cursor [page]
  | older {s s' : σ} {cursor : Option ContentId} {page : FeedPage} {id : ContentId}
      {pages : List FeedPage} (hpage : Routine.attempt answer s (ask cursor) = (.ok page, s'))
      (hnext : page.cursors.nextMaxId = some id)
      (hrest : WalksBack answer ask s' (some id) pages) :
      WalksBack answer ask s cursor (page :: pages)

theorem WalksBack.unique {ask : Option ContentId → Attempt ServiceError FeedPage} {s : σ}
    {cursor : Option ContentId} {pages others : List FeedPage}
    (h : WalksBack answer ask s cursor pages) (hothers : WalksBack answer ask s cursor others) :
    others = pages := by
  induction h generalizing others with
  | last hpage hend =>
    cases hothers with
    | last hpage' hend' =>
      rw [hpage] at hpage'
      rw [Except.ok.inj (congrArg Prod.fst hpage')]
    | older hpage' hnext' hrest' =>
      rw [hpage] at hpage'
      rw [← Except.ok.inj (congrArg Prod.fst hpage'), hend] at hnext'
      exact absurd hnext' (Option.some_ne_none _).symm
  | older hpage hnext hrest ih =>
    cases hothers with
    | last hpage' hend' =>
      rw [hpage] at hpage'
      rw [← Except.ok.inj (congrArg Prod.fst hpage'), hnext] at hend'
      exact absurd hend' (Option.some_ne_none _)
    | older hpage' hnext' hrest' =>
      rw [hpage] at hpage'
      obtain ⟨hsame, rfl⟩ := Prod.mk.inj hpage'
      obtain rfl := Except.ok.inj hsame
      rw [hnext] at hnext'
      obtain rfl := Option.some.inj hnext'
      rw [ih hrest']

/-- Pages that show a list of identifiers in windows of `limit`, one after the other, and
then an empty window. -/
structure Covers (held : ContentId → Option Status) (limit : Nat) (ids : List ContentId)
    (pages : List FeedPage) : Prop where
  count : pages.length = (ids.length + limit - 1) / limit + 1
  shows : ∀ i (hi : i < pages.length),
    (pages[i]).Shows held ((ids.drop (i * limit)).take limit)
  statuses : pages.flatMap FeedPage.statuses = ids.filterMap held

theorem Covers.nil {limit : Nat} (hlimit : 0 < limit) {page : FeedPage} (h : page.Shows held []) :
    Covers held limit [] [page] where
  count := by
    have hzero : (0 + limit - 1) / limit = 0 := Nat.div_eq_of_lt (by omega)
    rw [List.length_nil, hzero, List.length_singleton]
  shows i hi := by
    have hi0 : i = 0 := by simpa using hi
    subst hi0
    rw [List.drop_nil, List.take_nil]
    exact h
  statuses := by
    rw [List.flatMap_singleton, h.statuses]

theorem Covers.cons {limit : Nat} (hlimit : 0 < limit) {ids : List ContentId} (hids : ids ≠ [])
    {page : FeedPage} {pages : List FeedPage} (h : page.Shows held (ids.take limit))
    (hrest : Covers held limit (ids.drop limit) pages) :
    Covers held limit ids (page :: pages) where
  count := by
    have hpos : 0 < ids.length := List.length_pos_iff.mpr hids
    rw [List.length_cons, hrest.count, List.length_drop]
    congr 1
    rcases Nat.le_total ids.length limit with hle | hle
    · have hzero : (ids.length - limit + limit - 1) / limit = 0 := Nat.div_eq_of_lt (by omega)
      have hone : (ids.length + limit - 1) / limit = 1 := by
        rw [Nat.div_eq_iff hlimit]
        omega
      rw [hzero, hone]
    · have hsum : ids.length + limit - 1 = ids.length - limit + limit - 1 + limit := by omega
      rw [hsum, Nat.add_div_right _ hlimit]
  shows i hi := by
    cases i with
    | zero =>
      rw [Nat.zero_mul, List.drop_zero]
      exact h
    | succ i =>
      have hshows := hrest.shows i (Nat.lt_of_succ_lt_succ hi)
      rw [List.drop_drop] at hshows
      have hindex : limit + i * limit = (i + 1) * limit := by rw [Nat.succ_mul, Nat.add_comm]
      rw [hindex] at hshows
      exact hshows
  statuses := by
    rw [List.flatMap_cons, h.statuses, hrest.statuses, ← List.filterMap_append,
      List.take_append_drop]

/-- From wherever the walk has come to, it goes on through the rest of the feed. -/
theorem exists_walksBack (h : Backend.HoldsIndex answer view)
    (hstatuses : Backend.HoldsStatuses answer held) {kind : FeedKind}
    (hkind : kind.isPagedByOffset = false) (settings : ServingSettings) (account : AccountId)
    (asked : Option Nat) {s : σ} (hx : (view s).Consistent) {before rest : List Position}
    (hsplit : ((view s).ledger (.index kind (.account account))).ascending.reverse =
      before ++ rest) :
    ∃ pages, WalksBack answer
        (fun cursor => page settings kind account ⟨asked, cursor, none, none⟩) s
        (before.getLast?.map Position.id) pages ∧
      Covers held (clampLimit asked settings.defaultLimit settings.maxLimit)
        (rest.map Position.id) pages := by
  -- Each window that is not empty makes the rest shorter.
  induction hlength : rest.length using Nat.strong_induction_on generalizing s before rest with
  | _ n ih =>
    have hlimit := clampLimit_pos asked settings.defaultLimit settings.maxLimit
    obtain ⟨shown, s', hpage, hview, hshows⟩ :=
      attempt_page h hstatuses hkind settings account asked hx hsplit
    generalize clampLimit asked settings.defaultLimit settings.maxLimit = limit at *
    by_cases hrest : rest = []
    · subst hrest
      rw [List.map_nil, List.take_nil] at hshows
      have hend : shown.cursors.nextMaxId = none := by rw [hshows.cursors]; rfl
      exact ⟨[shown], .last hpage hend, Covers.nil hlimit hshows⟩
    · have hfirst : rest.take limit ≠ [] := by
        rw [Ne, List.take_eq_nil_iff, not_or]
        exact ⟨by omega, hrest⟩
      have hshorter : (rest.drop limit).length < n := by
        have hpos : 0 < rest.length := List.length_pos_iff.mpr hrest
        rw [List.length_drop]
        omega
      have hsplit' : ((view s').ledger (.index kind (.account account))).ascending.reverse =
          (before ++ rest.take limit) ++ rest.drop limit := by
        rw [hview, hsplit, List.append_assoc, List.take_append_drop]
      obtain ⟨pages, hwalk, hcovers⟩ := ih _ hshorter (hview ▸ hx) hsplit' rfl
      have hlast := List.getLast?_append_of_ne_nil before hfirst
      have hnext : shown.cursors.nextMaxId =
          (before ++ rest.take limit).getLast?.map Position.id := by
        rw [hshows.cursors, hlast, ← List.map_take]
        exact List.getLast?_map
      rw [List.getLast?_eq_some_getLast hfirst] at hlast
      rw [hlast, Option.map_some] at hnext hwalk
      refine ⟨shown :: pages, .older hpage hnext hwalk, Covers.cons hlimit ?_ hshows ?_⟩
      · rwa [Ne, List.map_eq_nil_iff]
      · rw [← List.map_drop]
        exact hcovers

/-- A walk back that starts without a cursor ends, and goes through a feed of the index
from the highest position to the lowest. -/
structure GoesThrough (answer : Backend σ) (held : ContentId → Option Status) (limit : Nat)
    (x : FeedIndex) (key : StoreKey) (s : σ)
    (ask : Option ContentId → Attempt ServiceError FeedPage) : Prop where
  ends : ∃ pages, WalksBack answer ask s none pages
  descending : (x.feed key).entries.reverse.Pairwise fun a b => b.position.isBefore a.position
  covers : ∀ pages, WalksBack answer ask s none pages →
    Covers held limit (x.descendingIds key) pages
  fits : ∀ pages, WalksBack answer ask s none pages → ∀ page ∈ pages, page.statuses.length ≤ limit
  once : ∀ pages, WalksBack answer ask s none pages → (pages.flatMap FeedPage.statuses).Nodup

theorem Covers.length_le {limit : Nat} {ids : List ContentId} {pages : List FeedPage}
    (h : Covers held limit ids pages) {page : FeedPage} (hpage : page ∈ pages) :
    page.statuses.length ≤ limit := by
  obtain ⟨i, hi, rfl⟩ := List.getElem_of_mem hpage
  rw [(h.shows i hi).statuses]
  exact (List.length_filterMap_le _ _).trans (List.length_take_le _ _)

theorem goesThrough_page (h : Backend.HoldsIndex answer view)
    (hstatuses : Backend.HoldsStatuses answer held) {kind : FeedKind}
    (hkind : kind.isPagedByOffset = false) (settings : ServingSettings) (account : AccountId)
    (asked : Option Nat) {s : σ} (hx : (view s).Consistent) :
    GoesThrough answer held (clampLimit asked settings.defaultLimit settings.maxLimit) (view s)
      (.index kind (.account account)) s
      (fun cursor => page settings kind account ⟨asked, cursor, none, none⟩) := by
  have hids := hx.descendingIds_eq (.index kind (.account account))
  obtain ⟨pages, hwalk, hcovers⟩ := exists_walksBack h hstatuses hkind settings account asked hx
    (List.nil_append ((view s).ledger (.index kind (.account account))).ascending.reverse).symm
  rw [← hids] at hcovers
  refine ⟨⟨pages, hwalk⟩, hx.descending_entries _, ?_, ?_, ?_⟩
  · intro others hothers
    rw [hwalk.unique hothers]
    exact hcovers
  · intro others hothers page hpage
    rw [hwalk.unique hothers] at hpage
    exact hcovers.length_le hpage
  · intro others hothers
    rw [hwalk.unique hothers, hcovers.statuses]
    refine (hx.nodup_descendingIds _).filterMap fun i j status hi hj => ?_
    rw [← hstatuses.id_eq i status hi, hstatuses.id_eq j status hj]

/-- Both timelines, where they are served: the walk back ends after one page for each
window and an empty one, and shows the statuses that exist for the feed from the highest
position to the lowest, whatever the limits, the marks and the gaps in the store. -/
theorem walks_back_through_feed (h : Backend.HoldsIndex answer view)
    (hstatuses : Backend.HoldsStatuses answer held) (settings : ServingSettings)
    (account : AccountId) (asked : Option Nat) (s : σ) (hs : (view s).Reachable) :
    (settings.homeEnabled = true →
      GoesThrough answer held (clampLimit asked settings.defaultLimit settings.maxLimit) (view s)
        (.index .home (.account account)) s
        (fun cursor => home settings account ⟨asked, cursor, none, none⟩)) ∧
    (settings.forYouEnabled = true →
      GoesThrough answer held (clampLimit asked settings.defaultLimit settings.maxLimit) (view s)
        (.index .forYou (.account account)) s
        (fun cursor => forYou settings account ⟨asked, cursor, none, none⟩)) := by
  constructor
  · intro henabled
    unfold home
    simp only [henabled, if_true]
    exact goesThrough_page h hstatuses rfl settings account asked hs.consistent
  · intro henabled
    unfold forYou
    simp only [henabled, if_true]
    exact goesThrough_page h hstatuses rfl settings account asked hs.consistent

def tiedCalls : List (StoreKey × IndexRequest) :=
  [(.index .home (.account 7), .upsertMany [⟨1, ⟨5⟩⟩, ⟨2, ⟨5⟩⟩, ⟨3, ⟨9⟩⟩])]

def oddStatuses (id : ContentId) : Option Status :=
  if id % 2 = 1 then some { (default : Status) with id } else none

theorem id_of_oddStatuses (id : ContentId) (status : Status) (h : oddStatuses id = some status) :
    status.id = id := by
  unfold oddStatuses at h
  split at h
  · rw [← Option.some.inj h]
  · exact absurd h.symm (Option.some_ne_none _)

theorem walks_back_through_tied_feed :
    GoesThrough (Backend.plain oddStatuses []) oddStatuses 2
      (Keeper.run FeedIndex.answer tiedCalls ∅).2 (.index .home (.account 7))
      (Keeper.run FeedIndex.answer tiedCalls ∅).2
      (fun cursor => home .default 7 ⟨some 2, cursor, none, none⟩) :=
  (walks_back_through_feed (Backend.holdsIndex_plain oddStatuses [])
    (Backend.holdsStatuses_plain [] id_of_oddStatuses) .default 7 (some 2) _ ⟨tiedCalls, rfl⟩).1 rfl

end Timeline
end WarmFeed
