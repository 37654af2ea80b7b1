import Mathlib.Algebra.GroupWithZero.Nat
import WarmFeed.Proofs.Index.Windows
import WarmFeed.Proofs.Serving.Drift

/-!
# Going forward through a feed

A page is asked for above the newest identifier of the window before it.  The next window begins
with the entry right above that one, so a walk from an entry goes through all entries above it,
the lowest first.

Going forward undoes going back: above the newest entry of the next page stands the page that
came before it, if that page was full.
-/

namespace WarmFeed

theorem Bound.isBelow_of_lt {b : Bound} {p q : Position} (hp : b.isBelow p = true) (h : p < q) :
    b.isBelow q = true := by
  cases b with
  | unbounded => rfl
  | exclusive r => exact Position.isAfter_iff.mpr ((Position.isAfter_iff.mp hp).trans h)

/-- What a query asks for stands together. -/
theorem exists_window_split (c : Contents) (q : RangeQuery) :
    ∃ before after, c.ascending = before ++ (c.window q ++ after) := by
  have hsorted := c.pairwise_ascending
  have hupper : SplitBy q.upper.isAbove c.ascending :=
    hsorted.imp fun hlt habove => Bound.isAbove_of_lt habove hlt
  have hlower : SplitBy (fun p => !q.lower.isBelow p) (c.ascending.filter q.upper.isAbove) := by
    refine (hsorted.filter _).imp fun {a b} hlt hb => ?_
    rw [Bool.not_eq_true', ← Bool.not_eq_true] at hb ⊢
    exact fun ha => hb (Bound.isBelow_of_lt ha hlt)
  have hwindow : (c.ascending.filter q.upper.isAbove).filter (fun p => !!q.lower.isBelow p) =
      c.window q := by
    rw [List.filter_filter, Contents.window]
    refine List.filter_congr fun p _ => ?_
    rw [Bool.not_not, RangeQuery.contains]
  refine ⟨(c.ascending.filter q.upper.isAbove).filter fun p => !q.lower.isBelow p,
    c.ascending.filter fun p => !q.upper.isAbove p, ?_⟩
  rw [← hwindow, ← List.append_assoc, hlower.append_filter, hupper.append_filter]

/-- Whatever is left out at the lower end, the highest position stays, if any does. -/
theorem getLast?_filter_isBelow {ps : List Position} (hsorted : ps.Pairwise (· < ·)) {b : Bound}
    {p : Position} (h : (ps.filter b.isBelow).getLast? = some p) : ps.getLast? = some p := by
  obtain ⟨hmem, hp⟩ := List.mem_filter.mp (List.mem_of_getLast? h)
  obtain rfl | ⟨init, q, rfl⟩ := List.eq_nil_or_concat ps
  · exact absurd hmem List.not_mem_nil
  rw [List.concat_eq_append] at *
  obtain hinit | hlast := List.mem_append.mp hmem
  · -- Then the last one passes as well, and would have been the last of those that pass.
    have hless := (List.pairwise_append.mp hsorted).2.2 p hinit q (List.mem_singleton_self q)
    have hpasses : [q].filter b.isBelow = [q] := by
      rw [List.filter_cons_of_pos (Bound.isBelow_of_lt hp hless), List.filter_nil]
    rw [List.filter_append, hpasses, List.getLast?_concat] at h
    rw [List.getLast?_concat, h]
  · rw [List.getLast?_concat, List.mem_singleton.mp hlast]

namespace FeedIndex

variable {x : FeedIndex} {key : StoreKey} {lower upper : List Position} {p : Position}

theorem score?_of_mem_ascending (hp : p ∈ (x.ledger key).ascending) :
    x.score? key p.id = some p.score := by
  rw [x.score?_eq_lookup]
  exact Contents.mem_ascending.mp hp

theorem boundAt_of_split (hsplit : (x.ledger key).ascending = lower ++ p :: upper) :
    Reader.boundAt x key (some p.id) = .exclusive p := by
  refine Reader.boundAt_of_score? (score?_of_mem_ascending ?_)
  rw [hsplit]
  exact List.mem_append_right lower List.mem_cons_self

theorem range_up_of_split (hx : x.Consistent)
    (hsplit : (x.ledger key).ascending = lower ++ p :: upper) (limit : Nat) :
    (x.feed key).range (.up (.exclusive p) .unbounded limit) =
      (upper.take limit).map Position.id := by
  have hcontains : (RangeQuery.up (.exclusive p) .unbounded limit).contains =
      (Bound.exclusive p).isBelow := by
    funext q
    exact Bool.and_true _
  have hsorted := (x.ledger key).pairwise_ascending
  rw [hsplit] at hsorted
  rw [(hx key).range_eq]
  show (((x.ledger key).window (.up (.exclusive p) .unbounded limit)).take limit).map _ = _
  rw [Contents.window, hcontains, hsplit, filter_isBelow_exclusive hsorted]

def entriesAbove (x : FeedIndex) (key : StoreKey) (p : Position) : List Entry :=
  (x.feed key).entries.filter fun e => p.isBefore e.position

theorem entriesAbove_of_split (hx : x.Consistent)
    (hsplit : (x.ledger key).ascending = lower ++ p :: upper) :
    x.entriesAbove key p = upper.map Position.entry := by
  have hsorted := (x.ledger key).pairwise_ascending
  rw [hsplit] at hsorted
  have habove : (fun e : Entry => p.isBefore e.position) ∘ Position.entry =
      (Bound.exclusive p).isBelow := by
    funext q
    exact Bool.eq_iff_iff.mpr (Position.isBefore_iff.trans Position.isAfter_iff.symm)
  rw [entriesAbove, (hx key).entries_eq, Contents.entryList, List.filter_map, habove]
  show (((x.ledger key).ascending).filter _).map _ = _
  rw [hsplit, filter_isBelow_exclusive hsorted]

theorem range_down_eq (hx : x.Consistent) (key : StoreKey) (upper lower : Bound) (limit : Nat) :
    (x.feed key).range (.down upper lower limit) =
      (((x.ledger key).window (.down upper lower limit)).reverse.take limit).map Position.id := by
  rw [(hx key).range_eq]
  rfl

end FeedIndex

namespace Reader

/-- Read windows from an identifier upwards, with the given limits, each from the newest
identifier of the one before, until one is empty. -/
def walkUp (kind : FeedKind) (subject : Subject) :
    List Nat → ContentId → Attempt ServiceError (List FeedWindow)
  | [], _ => return []
  | limit :: limits, id => do
    let window ← read kind subject ⟨none, none, none, some id⟩ limit
    match (IdCursors.ofWindow window).prevMinId with
    | none => return [window]
    | some next => return window :: (← walkUp kind subject limits next)

theorem EndsEmpty.cons {windows : List FeedWindow} (h : EndsEmpty windows) (w : FeedWindow) :
    EndsEmpty (w :: windows) := by
  obtain ⟨last, hlast, hempty⟩ := h
  refine ⟨last, ?_, hempty⟩
  rw [List.getLast?_cons, hlast]
  rfl

/-- Windows that go through what stands above a position, with the given limits. -/
structure Climbs (x : FeedIndex) (key : StoreKey) (p : Position) (limits : List Nat)
    (windows : List FeedWindow) : Prop where
  ascending : (x.entriesAbove key p).Pairwise fun a b => a.position.isBefore b.position
  ids : windows.flatMap FeedWindow.ids =
    ((x.entriesAbove key p).take limits.sum).map Entry.id
  once : (windows.flatMap FeedWindow.ids).Nodup
  complete : (x.entriesAbove key p).length < limits.length → EndsEmpty windows ∧
    windows.flatMap FeedWindow.ids = (x.entriesAbove key p).map Entry.id

theorem climbs_of_split {x : FeedIndex} (hx : x.Consistent) {key : StoreKey}
    {lower upper : List Position} {p : Position}
    (hsplit : (x.ledger key).ascending = lower ++ p :: upper) {limits : List Nat}
    (hlimits : ∀ limit ∈ limits, 0 < limit) {windows : List FeedWindow}
    (hids : windows.flatMap FeedWindow.ids = (upper.take limits.sum).map Position.id)
    (hend : upper.length < limits.length → EndsEmpty windows) :
    Climbs x key p limits windows := by
  have habove := FeedIndex.entriesAbove_of_split hx hsplit
  have hnodup : (upper.map Position.id).Nodup := by
    have hall := Contents.ids_nodup (x.ledger key)
    rw [hsplit, List.map_append, List.map_cons, List.nodup_append] at hall
    exact (List.nodup_cons.mp hall.2.1).2
  have hentries : ∀ l : List Position, (l.map Position.entry).map Entry.id = l.map Position.id :=
    fun l => List.map_map
  constructor
  · have hsorted := (x.ledger key).pairwise_ascending
    rw [hsplit] at hsorted
    rw [habove, List.pairwise_map]
    exact (List.pairwise_cons.mp (List.pairwise_append.mp hsorted).2.1).2.imp
      fun hlt => Position.isBefore_iff.mpr hlt
  · rw [hids, habove, ← List.map_take, hentries]
  · rw [hids, List.map_take]
    exact hnodup.sublist (List.take_sublist _ _)
  · rw [habove, List.length_map]
    intro hless
    have hsum := List.length_le_sum_of_one_le limits hlimits
    refine ⟨hend hless, ?_⟩
    rw [hids, List.take_of_length_le (by omega), hentries]

section Walk

variable {σ : Type} {answer : Backend σ} {view : σ → FeedIndex} (h : Backend.HoldsIndex answer view)
  {kind : FeedKind} (hkind : kind.isPagedByOffset = false) (subject : Subject)

include h hkind

/-- One page upwards: it begins right above its cursor. -/
theorem attempt_read_up {s : σ} (hx : (view s).Consistent) {lower upper : List Position}
    {p : Position}
    (hsplit : ((view s).ledger (.index kind subject)).ascending = lower ++ p :: upper)
    (asked : Option Nat) (since : Option ContentId) (limit : Nat) :
    ∃ s', Routine.attempt answer s (read kind subject ⟨asked, none, since, some p.id⟩ limit) =
        (.ok ⟨(upper.take limit).map Position.id, .ascending⟩, s') ∧ view s' = view s := by
  obtain ⟨s', hread, hview⟩ := attempt_read h s hkind subject ⟨asked, none, since, some p.id⟩ limit
  refine ⟨s', hread.trans ?_, hview⟩
  have hquery : queryAt (view s) (.index kind subject) ⟨asked, none, since, some p.id⟩ limit =
      .up (.exclusive p) .unbounded limit := by
    rw [← FeedIndex.boundAt_of_split hsplit]
    rfl
  rw [hquery, FeedIndex.range_up_of_split hx hsplit]
  rfl

/-- The walk upwards from an entry delivers what stands above it, and is at its end once there
were more windows than entries. -/
theorem attempt_walkUp {limits : List Nat} (hlimits : ∀ limit ∈ limits, 0 < limit) {s : σ}
    (hx : (view s).Consistent) {lower upper : List Position} {p : Position}
    (hsplit : ((view s).ledger (.index kind subject)).ascending = lower ++ p :: upper) :
    ∃ windows s', Routine.attempt answer s (walkUp kind subject limits p.id) =
        (.ok windows, s') ∧ view s' = view s ∧
      windows.flatMap FeedWindow.ids = (upper.take limits.sum).map Position.id ∧
      (upper.length < limits.length → EndsEmpty windows) := by
  induction limits generalizing s lower p upper with
  | nil => exact ⟨[], s, rfl, rfl, rfl, fun hless => absurd hless (Nat.not_lt_zero _)⟩
  | cons limit limits ih =>
    have hlimit := hlimits limit List.mem_cons_self
    obtain ⟨s₁, hread, hview₁⟩ := attempt_read_up h hkind subject hx hsplit none none limit
    unfold walkUp
    rw [Routine.attempt_bind_ok hread]
    obtain hnone | ⟨init, q, hfirst⟩ := List.eq_nil_or_concat (upper.take limit)
    · have hupper : upper = [] :=
        (List.take_eq_nil_iff.mp hnone).resolve_left (Nat.ne_of_gt hlimit)
      rw [hupper, List.take_nil, List.take_nil]
      exact ⟨_, s₁, rfl, hview₁, rfl, fun _ => ⟨_, rfl, rfl⟩⟩
    · have hnext : (IdCursors.ofWindow ⟨(upper.take limit).map Position.id, .ascending⟩).prevMinId =
          some q.id := by
        rw [hfirst, List.concat_eq_append, List.map_append]
        exact List.getLast?_concat
      have hsplit₁ : ((view s₁).ledger (.index kind subject)).ascending =
          (lower ++ p :: init) ++ q :: upper.drop limit := by
        rw [hview₁, hsplit, List.append_assoc, List.cons_append, List.append_cons init,
          ← List.concat_eq_append, ← hfirst, List.take_append_drop]
      obtain ⟨windows, s₂, hwalk, hview₂, hids, hend⟩ :=
        ih (fun limit' hmem => hlimits limit' (List.mem_cons_of_mem limit hmem)) (hview₁ ▸ hx)
          hsplit₁
      rw [hnext]
      refine ⟨_, s₂, Routine.attempt_bind_ok hwalk, hview₂.trans hview₁, ?_, fun hless => ?_⟩
      · rw [List.flatMap_cons, hids, List.sum_cons, ← List.map_append, ← List.take_add]
      · have hsome : upper ≠ [] := by
          rintro rfl
          rw [List.take_nil, List.concat_eq_append] at hfirst
          exact List.append_ne_nil_of_right_ne_nil init (List.cons_ne_nil q []) hfirst.symm
        have hpos := List.length_pos_iff.mpr hsome
        rw [List.length_cons] at hless
        exact (hend (by rw [List.length_drop]; omega)).cons _

theorem attempt_read_down (s : σ) (hx : (view s).Consistent) (asked : Option Nat)
    (cursor since : Option ContentId) (limit : Nat) :
    ∃ s', Routine.attempt answer s (read kind subject ⟨asked, cursor, since, none⟩ limit) =
        (.ok ⟨((((view s).ledger (.index kind subject)).window
          (.down (boundAt (view s) (.index kind subject) cursor)
            (boundAt (view s) (.index kind subject) since) limit)).reverse.take limit).map
              Position.id, .descending⟩, s') ∧ view s' = view s := by
  obtain ⟨s', hread, hview⟩ :=
    attempt_read h s hkind subject ⟨asked, cursor, since, none⟩ limit
  refine ⟨s', hread.trans ?_, hview⟩
  have hquery : queryAt (view s) (.index kind subject) ⟨asked, cursor, since, none⟩ limit =
      .down (boundAt (view s) (.index kind subject) cursor)
        (boundAt (view s) (.index kind subject) since) limit := rfl
  rw [hquery, FeedIndex.range_down_eq hx]
  rfl

end Walk

/-! ## Back and forth -/

/-- A window that was read from its other end has the same cursors. -/
theorem ofWindow_reverse (ids : List ContentId) :
    IdCursors.ofWindow ⟨ids.reverse, .ascending⟩ = IdCursors.ofWindow ⟨ids, .descending⟩ := by
  show IdCursors.mk ids.reverse.head? ids.reverse.getLast? = ⟨ids.getLast?, ids.head?⟩
  rw [List.head?_reverse, List.getLast?_reverse]

section Window

variable {x : FeedIndex} {key : StoreKey}

/-- A full page stands together in the feed, its oldest entry the lowest. -/
theorem exists_split_of_full {q : RangeQuery} {limit : Nat} (hlimit : 0 < limit)
    (hfull : (((x.ledger key).window q).reverse.take limit).length = limit) :
    ∃ before p shown after, (x.ledger key).ascending = before ++ p :: (shown ++ after) ∧
      ((x.ledger key).window q).reverse.take limit = (p :: shown).reverse := by
  obtain ⟨before, after, hascending⟩ := exists_window_split (x.ledger key) q
  generalize (x.ledger key).window q = ps at *
  rw [List.take_reverse] at hfull ⊢
  cases hshown : ps.drop (ps.length - limit) with
  | nil =>
    rw [hshown] at hfull
    exact absurd hfull (Nat.ne_of_lt hlimit)
  | cons p shown =>
    refine ⟨before ++ ps.take (ps.length - limit), p, shown, after, ?_, rfl⟩
    rw [hascending, List.append_assoc, ← List.cons_append, ← hshown,
      ← List.append_assoc (ps.take _), List.take_append_drop]

/-- Below an entry the next page begins with the entry right below it, wherever it ends. -/
theorem getLast?_window_down {lower upper : List Position} {p q : Position}
    (hsplit : (x.ledger key).ascending = lower ++ p :: upper) {since : Bound} {limit : Nat}
    (hq : ((x.ledger key).window (.down (.exclusive p) since limit)).getLast? = some q) :
    lower.getLast? = some q := by
  have hsorted := (x.ledger key).pairwise_ascending
  have hwindow : (x.ledger key).window (.down (.exclusive p) since limit) =
      lower.filter since.isBelow := by
    rw [hsplit] at hsorted
    rw [← filter_isAbove_exclusive hsorted, ← hsplit, List.filter_filter]
    rfl
  rw [hwindow] at hq
  rw [hsplit] at hsorted
  exact getLast?_filter_isBelow (List.pairwise_append.mp hsorted).1 hq

end Window

section Forth

variable {σ : Type} {answer : Backend σ} {view : σ → FeedIndex} (h : Backend.HoldsIndex answer view)
  {kind : FeedKind} (hkind : kind.isPagedByOffset = false) (subject : Subject)

include h hkind

/-- A page below an entry that is not empty names the entry right below as its newest. -/
theorem exists_newest_of_read {s : σ} (hx : (view s).Consistent) {lower upper : List Position}
    {p : Position}
    (hsplit : ((view s).ledger (.index kind subject)).ascending = lower ++ p :: upper)
    {asked : Option Nat} {since : Option ContentId} {limit : Nat} {older : FeedWindow}
    (hread : (Routine.attempt answer s
      (read kind subject ⟨asked, some p.id, since, none⟩ limit)).1 = .ok older)
    (hsome : older.ids ≠ []) :
    ∃ rest q, lower = rest ++ [q] ∧ older.newest = some q.id := by
  obtain ⟨s', hdown, -⟩ := attempt_read_down h hkind subject s hx asked (some p.id) since limit
  rw [hdown, FeedIndex.boundAt_of_split hsplit] at hread
  obtain rfl := Except.ok.inj hread
  generalize boundAt (view s) (.index kind subject) since = b at *
  have hbelow : ∀ q, (((view s).ledger (.index kind subject)).window
      (.down (.exclusive p) b limit)).getLast? = some q → lower.getLast? = some q :=
    fun q hq => getLast?_window_down hsplit hq
  generalize ((view s).ledger (.index kind subject)).window
    (.down (.exclusive p) b limit) = ps at *
  obtain ⟨hlimit, hps⟩ : limit ≠ 0 ∧ ps ≠ [] := by
    constructor
    · rintro rfl
      exact hsome rfl
    · rintro rfl
      exact hsome (List.map_eq_nil_iff.mpr List.take_nil)
  have hlast := List.getLast?_eq_some_getLast hps
  obtain ⟨rest, hrest⟩ := List.getLast?_eq_some_iff.mp (hbelow _ hlast)
  refine ⟨rest, ps.getLast hps, hrest, ?_⟩
  show ((ps.reverse.take limit).map Position.id).head? = _
  rw [List.head?_map, List.head?_take, if_neg hlimit, List.head?_reverse, hlast, Option.map_some]

/-- From a full page down to the next one and up again: the same page comes back, from its
other end. -/
theorem attempt_read_back {s t u : σ} (hx : (view s).Consistent) (ht : view t = view s)
    (hu : view u = view s) (asked : Option Nat) {cursor since : Option ContentId} {limit : Nat}
    (hlimit : 0 < limit) {page older : FeedWindow}
    (hpage : (Routine.attempt answer s
      (read kind subject ⟨asked, cursor, since, none⟩ limit)).1 = .ok page)
    (hfull : page.ids.length = limit)
    (holder : (Routine.attempt answer t (read kind subject
      ⟨asked, (IdCursors.ofWindow page).nextMaxId, since, none⟩ limit)).1 = .ok older)
    (hsome : older.ids ≠ []) :
    ∃ u', Routine.attempt answer u (read kind subject
        ⟨asked, none, since, (IdCursors.ofWindow older).prevMinId⟩ limit) =
        (.ok ⟨page.ids.reverse, .ascending⟩, u') ∧ view u' = view u ∧
      IdCursors.ofWindow ⟨page.ids.reverse, .ascending⟩ = IdCursors.ofWindow page := by
  obtain ⟨s', hdown, -⟩ := attempt_read_down h hkind subject s hx asked cursor since limit
  rw [hdown] at hpage
  obtain rfl := Except.ok.inj hpage
  rw [List.length_map] at hfull
  obtain ⟨before, p, shown, after, hsplit, hshown⟩ := exists_split_of_full hlimit hfull
  rw [hshown] at hfull holder ⊢
  have holdest : (IdCursors.ofWindow ⟨(p :: shown).reverse.map Position.id, .descending⟩).nextMaxId
      = some p.id := by
    show ((p :: shown).reverse.map Position.id).getLast? = _
    rw [List.getLast?_map, List.getLast?_reverse, List.head?_cons, Option.map_some]
  rw [holdest] at holder
  obtain ⟨rest, q, rfl, hnewest⟩ :=
    exists_newest_of_read h hkind subject (ht ▸ hx) (ht ▸ hsplit) holder hsome
  have hsplit' : ((view u).ledger (.index kind subject)).ascending =
      rest ++ q :: (p :: (shown ++ after)) := by
    rw [hu, hsplit, List.append_assoc, List.singleton_append]
  obtain ⟨u', hup, hview⟩ := attempt_read_up h hkind subject (hu ▸ hx) hsplit' asked since limit
  refine ⟨u', ?_, hview, ofWindow_reverse _⟩
  have htake : (p :: (shown ++ after)).take limit = p :: shown := by
    rw [← hfull, List.length_reverse, ← List.cons_append, List.take_left]
  rw [htake] at hup
  rw [← List.map_reverse, List.reverse_reverse, ← hup, ← hnewest]
  rfl

/-- Up from any entry of a feed all that stands above it is delivered, the lowest first, and
each page that is full is what comes back from the next older one, from its other end and with
the same cursors. -/
theorem walkUp_climbs_and_turns_back (s : σ) (hs : (view s).Reachable) :
    (∀ id score, (view s).score? (.index kind subject) id = some score →
      ∀ limits : List Nat, (∀ limit ∈ limits, 0 < limit) →
        ∃ windows s', Routine.attempt answer s (walkUp kind subject limits id) =
            (.ok windows, s') ∧
          Climbs (view s) (.index kind subject) ⟨score, id⟩ limits windows) ∧
    (∀ (asked : Option Nat) (cursor since : Option ContentId) (limit : Nat), 0 < limit →
      ∀ (t u : σ) (page older : FeedWindow), view t = view s → view u = view s →
        (Routine.attempt answer s
          (read kind subject ⟨asked, cursor, since, none⟩ limit)).1 = .ok page →
        page.ids.length = limit →
        (Routine.attempt answer t (read kind subject
          ⟨asked, (IdCursors.ofWindow page).nextMaxId, since, none⟩ limit)).1 = .ok older →
        older.ids ≠ [] →
        ∃ u', Routine.attempt answer u (read kind subject
            ⟨asked, none, since, (IdCursors.ofWindow older).prevMinId⟩ limit) =
            (.ok ⟨page.ids.reverse, .ascending⟩, u') ∧
          IdCursors.ofWindow ⟨page.ids.reverse, .ascending⟩ = IdCursors.ofWindow page) := by
  refine ⟨fun id score hscore limits hlimits => ?_, ?_⟩
  · have hp : (⟨score, id⟩ : Position) ∈ ((view s).ledger (.index kind subject)).ascending := by
      rw [Contents.mem_ascending, FeedIndex.ledger, ← FeedIndex.score?_eq_lookup]
      exact hscore
    obtain ⟨lower, upper, hsplit⟩ := List.append_of_mem hp
    obtain ⟨windows, s', hwalk, -, hids, hend⟩ :=
      attempt_walkUp h hkind subject hlimits hs.consistent hsplit
    exact ⟨windows, s', hwalk, climbs_of_split hs.consistent hsplit hlimits hids hend⟩
  · intro asked cursor since limit hlimit t u page older ht hu hpage hfull holder hsome
    obtain ⟨u', hback, -, hcursors⟩ := attempt_read_back h hkind subject hs.consistent ht hu asked
      hlimit hpage hfull holder hsome
    exact ⟨u', hback, hcursors⟩

end Forth

/-- Up and down the entries that `Backend.restless` begins with, two of which have one score. -/
theorem walkUp_climbs_and_turns_back_tied :
    (∃ windows s', Routine.attempt (Backend.plain (fun _ => none) [])
        (Backend.indexAfter restless 1) (walkUp .home (.account 7) [1, 1, 1] 1) =
          (.ok windows, s') ∧
      windows.flatMap FeedWindow.ids = [2, 3] ∧ EndsEmpty windows) ∧
    ∃ u', Routine.attempt (Backend.plain (fun _ => none) []) (Backend.indexAfter restless 1)
        (read .home (.account 7) ⟨none, none, none, some 1⟩ 2) =
        (.ok ⟨[2, 3], .ascending⟩, u') ∧
      IdCursors.ofWindow ⟨[2, 3], .ascending⟩ = ⟨some 2, some 3⟩ := by
  have hkind : FeedKind.home.isPagedByOffset = false := rfl
  obtain ⟨hclimbs, hback⟩ := walkUp_climbs_and_turns_back
    (Backend.holdsIndex_plain (fun _ => none) []) hkind (.account 7)
    (Backend.indexAfter restless 1) ⟨restless.take 1, rfl⟩
  constructor
  · obtain ⟨windows, s', hwalk, hup⟩ := hclimbs 1 ⟨5⟩ (by decide +kernel) [1, 1, 1] (by decide)
    have habove : (Backend.indexAfter restless 1).entriesAbove (.index .home (.account 7))
        ⟨⟨5⟩, 1⟩ = [⟨2, ⟨5⟩⟩, ⟨3, ⟨9⟩⟩] := by
      decide +kernel
    obtain ⟨hend, hids⟩ := hup.complete (by rw [id_eq, habove]; decide)
    rw [id_eq, habove] at hids
    exact ⟨windows, s', hwalk, hids, hend⟩
  · exact hback none none none 2 (by decide) _ _ ⟨[3, 2], .descending⟩ ⟨[1], .descending⟩ rfl rfl
      (by decide +kernel) rfl (by decide +kernel) (by decide)

end Reader
end WarmFeed
