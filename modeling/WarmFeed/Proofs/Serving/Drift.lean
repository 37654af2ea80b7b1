import WarmFeed.Proofs.Course
import WarmFeed.Proofs.Serving.Reader

/-!
# Going back through a feed that changes

Between two requests of a reader the feed can become any other one.  A cursor that still
has its score when it is looked up stands for the lowest position that was delivered, and
the next window lies below it, whatever else has come and gone.  So all that is delivered
later stands below all that was delivered before.  An entry that keeps its place is above
the boundary or below it, and gets above only by being delivered.
-/

namespace WarmFeed

/-- A request about feeds is answered by the index as it is at its moment.  Nothing is said
of the index at the next one, except that it can be reached. -/
structure Backend.Drifts {σ : Type} (answer : Backend σ) (view : σ → FeedIndex) : Prop where
  reachable : ∀ s, (view s).Reachable
  reply : ∀ s key r, (answer s (.index key r)).1 = ((view s).answer key r).1

namespace Backend

/-- What others have made of the index after so many of their requests. -/
def indexAfter (others : List (StoreKey × IndexRequest)) (n : Nat) : FeedIndex :=
  (Keeper.run FeedIndex.answer (others.take n) ∅).2

def busy (others : List (StoreKey × IndexRequest)) : Backend Nat := fun n c =>
  ((plain (fun _ => none) [] (indexAfter others n) c).1, n + 1)

theorem drifts_busy (others : List (StoreKey × IndexRequest)) :
    Drifts (busy others) (indexAfter others) where
  reachable n := ⟨others.take n, rfl⟩
  reply _ _ _ := rfl

end Backend

def Moment.delivers {σ : Type} (view : σ → FeedIndex) (m : Moment σ Call) : List Position :=
  match m.request with
  | .index key (.range q) =>
    (((view m.state).feed key).range q).filterMap ((view m.state).position? key)
  | _ => []

def delivered {σ : Type} (view : σ → FeedIndex) (ms : List (Moment σ Call)) : List Position :=
  ms.flatMap (Moment.delivers view)

/-! ## What stands below a boundary -/

theorem Bound.isAbove_of_lt {b : Bound} {p q : Position} (hp : b.isAbove p = true) (h : q < p) :
    b.isAbove q = true := by
  cases b with
  | unbounded => rfl
  | exclusive r => exact Position.isBefore_iff.mpr (h.trans (Position.isBefore_iff.mp hp))

namespace FeedIndex

def below (x : FeedIndex) (key : StoreKey) (b : Bound) : List Position :=
  (x.ledger key).ascending.reverse.filter b.isAbove

variable {x : FeedIndex} {key : StoreKey} {b : Bound}

theorem mem_below {p : Position} :
    p ∈ x.below key b ↔ x.score? key p.id = some p.score ∧ b.isAbove p = true := by
  unfold below
  rw [List.mem_filter, List.mem_reverse, Contents.mem_ascending, ledger, x.score?_eq_lookup]

theorem pairwise_below (x : FeedIndex) (key : StoreKey) (b : Bound) :
    (x.below key b).Pairwise fun p q => q < p :=
  (List.pairwise_reverse.mpr (Contents.pairwise_ascending _)).filter _

theorem range_down (hx : x.Consistent) (key : StoreKey) (b : Bound) (limit : Nat) :
    (x.feed key).range (.down b .unbounded limit) =
      ((x.below key b).take limit).map Position.id := by
  have hcontains : (RangeQuery.down b .unbounded limit).contains = b.isAbove := by
    funext p
    exact Bool.true_and _
  rw [(hx key).range_eq]
  show (((x.ledger key).window (.down b .unbounded limit)).reverse.take limit).map _ = _
  rw [Contents.window, hcontains, ← List.filter_reverse]
  rfl

/-- The identifiers of positions of a feed have these positions. -/
theorem filterMap_position? {l : List Position}
    (hl : ∀ p ∈ l, x.score? key p.id = some p.score) :
    (l.map Position.id).filterMap (x.position? key) = l := by
  induction l with
  | nil => rfl
  | cons p l ih =>
    have hp : x.position? key p.id = some p := by
      unfold position?
      rw [hl p List.mem_cons_self, Option.map_some]
    rw [List.map_cons, List.filterMap_cons_some hp,
      ih fun q hq => hl q (List.mem_cons_of_mem _ hq)]

end FeedIndex

theorem Moment.delivers_range {σ : Type} {view : σ → FeedIndex} {t : σ}
    (ht : (view t).Consistent) (key : StoreKey) (b : Bound) (limit : Nat) :
    Moment.delivers view ⟨t, .index key (.range (.down b .unbounded limit))⟩ =
      ((view t).below key b).take limit := by
  show (((view t).feed key).range (.down b .unbounded limit)).filterMap _ = _
  rw [FeedIndex.range_down ht]
  exact FeedIndex.filterMap_position? fun p hp =>
    (FeedIndex.mem_below.mp (List.mem_of_mem_take hp)).1

namespace Reader

/-- Read windows from a cursor downwards, with the given limits, each from the oldest
identifier of the one before, until one is empty. -/
def walkDown (kind : FeedKind) (subject : Subject) :
    List Nat → Option ContentId → Attempt ServiceError (List FeedWindow)
  | [], _ => return []
  | limit :: limits, cursor => do
    let window ← read kind subject ⟨none, cursor, none, none⟩ limit
    match window.oldest with
    | none => return [window]
    | some id => return window :: (← walkDown kind subject limits (some id))

/-- Whenever a cursor is looked up it has the score that it had at the request before, which
delivered it. -/
def KeepsCursors {σ : Type} (view : σ → FeedIndex) (key : StoreKey)
    (ms : List (Moment σ Call)) : Prop :=
  ms.IsChain fun m m' => ∀ id, m'.request = .index key (.score id) →
    (view m'.state).score? key id = (view m.state).score? key id

variable {σ : Type} {answer : Backend σ} {view : σ → FeedIndex}

/-! ## One window -/

section Window

variable (h : Backend.Drifts answer view)

include h

theorem records_askIndex {s : σ} {key : StoreKey} {r : IndexRequest} {x : r.Answer}
    (hx : ((view s).answer key r).1 = .ok x) :
    Routine.Records answer s (askIndex key r) x (answer s (.index key r)).2
      [⟨s, .index key r⟩] where
  attempt_eq := Prod.ext ((h.reply s key r).trans hx) rfl
  course_eq := rfl

/-- A cursor is looked up by one request, if there is one, and stands for a boundary of the
index at that moment. -/
theorem records_resolveCursor (s : σ) (key : StoreKey) (cursor : Option ContentId) :
    ∃ s', Routine.Records answer s (resolveCursor key cursor) (boundAt (view s) key cursor) s'
      (cursor.toList.map fun id => ⟨s, .index key (.score id)⟩) := by
  cases cursor with
  | none => exact ⟨s, Routine.records_pure _ s⟩
  | some id =>
    have hscore := records_askIndex h (rfl : ((view s).answer key (.score id)).1 = _)
    refine ⟨(answer s (.index key (.score id))).2, ?_⟩
    unfold resolveCursor
    refine hscore.bind ?_
    unfold boundAt FeedIndex.position?
    rw [Option.bind_some]
    cases (view s).score? key id with
    | none => exact Routine.records_pure _ _
    | some score => exact Routine.records_pure _ _

/-- A window is read by one request more, from whatever the feed is by then. -/
theorem records_readWindow (s : σ) (key : StoreKey) (cursor : Option ContentId) (limit : Nat) :
    ∃ t, Routine.Records answer s (readWindow key ⟨none, cursor, none, none⟩ limit)
      ⟨((view t).feed key).range (.down (boundAt (view s) key cursor) .unbounded limit),
        .descending⟩
      (answer t (.index key
        (.range (.down (boundAt (view s) key cursor) .unbounded limit)))).2
      (cursor.toList.map (fun id => ⟨s, .index key (.score id)⟩) ++
        [⟨t, .index key (.range (.down (boundAt (view s) key cursor) .unbounded limit))⟩]) := by
  obtain ⟨t, hcursor⟩ := records_resolveCursor h s key cursor
  have hrange := records_askIndex h (rfl : ((view t).answer key
    (.range (.down (boundAt (view s) key cursor) .unbounded limit))).1 = _)
  have hquery : Routine.Records answer s (resolveQuery key ⟨none, cursor, none, none⟩ limit)
      (.down (boundAt (view s) key cursor) .unbounded limit) t
      (cursor.toList.map fun id => ⟨s, .index key (.score id)⟩) :=
    hcursor.map (f := fun upper => RangeQuery.down upper .unbounded limit)
  refine ⟨t, ?_⟩
  unfold readWindow
  exact hquery.bind (hrange.map (f := fun ids => (⟨ids, .descending⟩ : FeedWindow)))

/-- The window of a page: what stands below the boundary of the cursor by the time of the
second request. -/
theorem records_read {kind : FeedKind} (hkind : kind.isPagedByOffset = false) (subject : Subject)
    (s : σ) (cursor : Option ContentId) (limit : Nat) {b : Bound}
    (hb : boundAt (view s) (.index kind subject) cursor = b) :
    ∃ t, Routine.Records answer s (read kind subject ⟨none, cursor, none, none⟩ limit)
      ⟨(((view t).below (.index kind subject) b).take limit).map Position.id, .descending⟩
      (answer t (.index (.index kind subject) (.range (.down b .unbounded limit)))).2
      (cursor.toList.map (fun id => ⟨s, .index (.index kind subject) (.score id)⟩) ++
        [⟨t, .index (.index kind subject) (.range (.down b .unbounded limit))⟩]) := by
  obtain ⟨t, hwindow⟩ := records_readWindow h s (.index kind subject) cursor limit
  rw [hb, FeedIndex.range_down (h.reachable t).consistent] at hwindow
  refine ⟨t, ?_⟩
  unfold read
  rw [hkind, if_neg Bool.false_ne_true]
  exact hwindow.mapError _

end Window

/-! ## Window after window -/

def EndsEmpty (windows : List FeedWindow) : Prop := ∃ w, windows.getLast? = some w ∧ w.ids = []

/-- Windows that a list of requests delivers from a boundary downwards. -/
structure Descends (view : σ → FeedIndex) (key : StoreKey) (b : Bound)
    (ms : List (Moment σ Call)) (windows : List FeedWindow) : Prop where
  ids : windows.flatMap FeedWindow.ids = (delivered view ms).map Position.id
  decreasing : (delivered view ms).Pairwise fun p q => q < p
  below : ∀ p ∈ delivered view ms, b.isAbove p = true
  placed : ∀ p ∈ delivered view ms, ∃ m ∈ ms, (view m.state).score? key p.id = some p.score
  complete : EndsEmpty windows → ∀ p, b.isAbove p = true →
    (∀ m ∈ ms, (view m.state).score? key p.id = some p.score) → p ∈ delivered view ms

theorem descends_nil (key : StoreKey) (b : Bound) : Descends view key b [] [] where
  ids := rfl
  decreasing := .nil
  below _ hp := absurd hp List.not_mem_nil
  placed _ hp := absurd hp List.not_mem_nil
  complete hend := by
    obtain ⟨w, hw, -⟩ := hend
    nomatch hw

section Page

variable {lead ms : List (Moment σ Call)} {t : σ} {key : StoreKey} {b : Bound} {limit : Nat}
  {windows : List FeedWindow}

/-- An empty window: nothing stands below the boundary. -/
theorem descends_last (hlead : delivered view lead = []) (ht : (view t).Consistent)
    (hlimit : 0 < limit) (hnone : ((view t).below key b).take limit = []) :
    Descends view key b
      (lead ++ [⟨t, .index key (.range (.down b .unbounded limit))⟩]) [⟨[], .descending⟩] := by
  have hdelivered : delivered view
      (lead ++ [⟨t, .index key (.range (.down b .unbounded limit))⟩]) = [] := by
    unfold delivered at hlead ⊢
    rw [List.flatMap_append, hlead, List.flatMap_singleton, Moment.delivers_range ht, hnone]
    rfl
  refine ⟨?_, ?_, ?_, ?_, fun _ p hp hkept => ?_⟩
  · rw [hdelivered]
    rfl
  · rw [hdelivered]
    exact .nil
  · rw [hdelivered]
    exact fun _ hp => absurd hp List.not_mem_nil
  · rw [hdelivered]
    exact fun _ hp => absurd hp List.not_mem_nil
  · have hmem := FeedIndex.mem_below.mpr
      ⟨hkept _ (List.mem_append_right _ (List.mem_singleton_self _)), hp⟩
    rcases List.take_eq_nil_iff.mp hnone with hzero | hnil
    · omega
    · rw [hnil] at hmem
      exact absurd hmem List.not_mem_nil

theorem EndsEmpty.of_cons {w : FeedWindow} (h : EndsEmpty (w :: windows)) (hw : w.ids ≠ []) :
    EndsEmpty windows := by
  obtain ⟨last, hlast, hempty⟩ := h
  cases windows with
  | nil =>
    have hsame : w = last := Option.some.inj hlast
    exact absurd (hsame ▸ hempty) hw
  | cons w' windows =>
    rw [List.getLast?_cons_cons] at hlast
    exact ⟨last, hlast, hempty⟩

/-- A window that is not empty, and what is delivered below its last position.  What stands
below the boundary and is not in the window stands below that position. -/
theorem descends_older (hlead : delivered view lead = []) (ht : (view t).Consistent)
    {p : Position} (hlast : (((view t).below key b).take limit).getLast? = some p)
    (hrest : Descends view key (.exclusive p) ms windows) :
    Descends view key b
      ((lead ++ [⟨t, .index key (.range (.down b .unbounded limit))⟩]) ++ ms)
      (⟨(((view t).below key b).take limit).map Position.id, .descending⟩ :: windows) := by
  have hdelivered : delivered view
      ((lead ++ [⟨t, .index key (.range (.down b .unbounded limit))⟩]) ++ ms) =
        ((view t).below key b).take limit ++ delivered view ms := by
    unfold delivered at hlead ⊢
    rw [List.flatMap_append, List.flatMap_append, hlead, List.flatMap_singleton,
      Moment.delivers_range ht]
    rfl
  have hpairwise := FeedIndex.pairwise_below (view t) key b
  have hwindow := hpairwise.sublist (List.take_sublist limit _)
  have hmem : ∀ q ∈ ((view t).below key b).take limit,
      (view t).score? key q.id = some q.score ∧ b.isAbove q = true :=
    fun q hq => FeedIndex.mem_below.mp (List.mem_of_mem_take hq)
  have hp := List.mem_of_getLast? hlast
  have hlowest : ∀ q ∈ ((view t).below key b).take limit, p ≤ q := by
    obtain ⟨init, hinit⟩ := List.getLast?_eq_some_iff.mp hlast
    rw [hinit] at hwindow ⊢
    intro q hq
    rcases List.mem_append.mp hq with hq | hq
    · exact le_of_lt ((List.pairwise_append.mp hwindow).2.2 q hq p (List.mem_singleton_self p))
    · exact (List.mem_singleton.mp hq).symm.le
  have hlower : ∀ q ∈ delivered view ms, q < p :=
    fun q hq => Position.isBefore_iff.mp (hrest.below q hq)
  refine ⟨?_, ?_, ?_, ?_, ?_⟩
  · rw [hdelivered, List.flatMap_cons, List.map_append, hrest.ids]
  · rw [hdelivered]
    exact List.pairwise_append.mpr ⟨hwindow, hrest.decreasing,
      fun q hq q' hq' => lt_of_lt_of_le (hlower q' hq') (hlowest q hq)⟩
  · rw [hdelivered]
    intro q hq
    rcases List.mem_append.mp hq with hq | hq
    · exact (hmem q hq).2
    · exact Bound.isAbove_of_lt (hmem p hp).2 (hlower q hq)
  · rw [hdelivered]
    intro q hq
    rcases List.mem_append.mp hq with hq | hq
    · exact ⟨_, List.mem_append_left _ (List.mem_append_right _ (List.mem_singleton_self _)),
        (hmem q hq).1⟩
    · obtain ⟨m, hm, hscore⟩ := hrest.placed q hq
      exact ⟨m, List.mem_append_right _ hm, hscore⟩
  · rw [hdelivered]
    intro hend q hq hkept
    have hthere := FeedIndex.mem_below.mpr ⟨hkept _ (List.mem_append_left _
      (List.mem_append_right _ (List.mem_singleton_self _))), hq⟩
    rw [← List.take_append_drop limit ((view t).below key b), List.mem_append] at hthere
    rw [List.mem_append]
    rcases hthere with hnow | hlater
    · exact Or.inl hnow
    · rw [← List.take_append_drop limit ((view t).below key b)] at hpairwise
      have hlt := (List.pairwise_append.mp hpairwise).2.2 p hp q hlater
      have hrestEnd := hend.of_cons (by
        rw [Ne, List.map_eq_nil_iff]
        exact List.ne_nil_of_mem hp)
      exact Or.inr (hrest.complete hrestEnd q (Position.isBefore_iff.mpr hlt)
        fun m hm => hkept m (List.mem_append_right _ hm))

end Page

/-! ## The whole walk -/

section Walk

variable {kind : FeedKind} {subject : Subject} {cursor : Option ContentId} {limit : Nat}
  {limits : List Nat} {s s' s'' : σ} {window : FeedWindow} {windows : List FeedWindow}
  {ms ms' : List (Moment σ Call)} {id : ContentId}

theorem records_walkDown_last
    (hread : Routine.Records answer s (read kind subject ⟨none, cursor, none, none⟩ limit) window
      s' ms) (holdest : window.oldest = none) :
    Routine.Records answer s (walkDown kind subject (limit :: limits) cursor) [window] s' ms := by
  rw [← List.append_nil ms]
  unfold walkDown
  refine hread.bind ?_
  rw [holdest]
  exact Routine.records_pure _ s'

theorem records_walkDown_older
    (hread : Routine.Records answer s (read kind subject ⟨none, cursor, none, none⟩ limit) window
      s' ms) (holdest : window.oldest = some id)
    (hrest : Routine.Records answer s' (walkDown kind subject limits (some id)) windows s'' ms') :
    Routine.Records answer s (walkDown kind subject (limit :: limits) cursor) (window :: windows)
      s'' (ms ++ ms') := by
  unfold walkDown
  refine hread.bind ?_
  rw [holdest]
  exact hrest.map

theorem course_walkDown_older
    (hread : Routine.Records answer s (read kind subject ⟨none, cursor, none, none⟩ limit) window
      s' ms) (holdest : window.oldest = some id) :
    (walkDown kind subject (limit :: limits) cursor).run.course answer s =
      ms ++ (walkDown kind subject limits (some id)).run.course answer s' := by
  refine (Routine.course_attempt_bind answer s
    (read kind subject ⟨none, cursor, none, none⟩ limit) _).trans ?_
  rw [hread.attempt_eq, hread.course_eq]
  dsimp only
  rw [holdest]
  exact congrArg (ms ++ ·) (Routine.course_attempt_map answer s' _ _)

/-- The first request of a walk that has a cursor looks it up. -/
theorem head?_course_walkDown (h : Backend.Drifts answer view)
    (hkind : kind.isPagedByOffset = false) (limit : Nat) (limits : List Nat) (s : σ)
    (id : ContentId) :
    ((walkDown kind subject (limit :: limits) (some id)).run.course answer s).head? =
      some ⟨s, .index (.index kind subject) (.score id)⟩ := by
  obtain ⟨t, hread⟩ := records_read h hkind subject s (some id) limit rfl
  unfold walkDown
  rw [Routine.course_attempt_bind, hread.course_eq]
  rfl

theorem boundAt_of_score? {x : FeedIndex} {key : StoreKey} {p : Position}
    (hp : x.score? key p.id = some p.score) : boundAt x key (some p.id) = .exclusive p := by
  unfold boundAt FeedIndex.position?
  rw [Option.bind_some, hp, Option.map_some]

theorem delivered_lookUps (s : σ) (key : StoreKey) (cursor : Option ContentId) :
    delivered view (cursor.toList.map fun id => (⟨s, .index key (.score id)⟩ : Moment σ Call)) =
      [] := by
  cases cursor <;> rfl

/-- A walk that keeps its cursors descends from the boundary of the first one. -/
theorem exists_descends (h : Backend.Drifts answer view) (hkind : kind.isPagedByOffset = false)
    (subject : Subject) (limits : List Nat) (hlimits : ∀ limit ∈ limits, 0 < limit) (s : σ)
    (cursor : Option ContentId) (b : Bound)
    (hb : limits ≠ [] → boundAt (view s) (.index kind subject) cursor = b)
    (hcursors : KeepsCursors view (.index kind subject)
      ((walkDown kind subject limits cursor).run.course answer s)) :
    ∃ windows s' ms, Routine.Records answer s (walkDown kind subject limits cursor) windows s' ms ∧
      Descends view (.index kind subject) b ms windows := by
  induction limits generalizing s cursor b with
  | nil => exact ⟨[], s, [], Routine.records_pure _ s, descends_nil _ b⟩
  | cons limit limits ih =>
    obtain ⟨t, hread⟩ := records_read h hkind subject s cursor limit (hb (List.cons_ne_nil _ _))
    have ht := (h.reachable t).consistent
    have hlead : delivered view _ = [] := delivered_lookUps s (.index kind subject) cursor
    have hlimit := hlimits limit List.mem_cons_self
    have holdest : (FeedWindow.mk ((((view t).below (.index kind subject) b).take limit).map
        Position.id) .descending).oldest =
          (((view t).below (.index kind subject) b).take limit).getLast?.map Position.id :=
      List.getLast?_map
    cases hlast : (((view t).below (.index kind subject) b).take limit).getLast? with
    | none =>
      rw [hlast] at holdest
      have hend : Routine.Records answer s (walkDown kind subject (limit :: limits) cursor) _ _ _ :=
        records_walkDown_last hread holdest
      have hnone := List.getLast?_eq_none_iff.mp hlast
      rw [hnone] at hend
      exact ⟨_, _, _, hend, descends_last hlead ht hlimit hnone⟩
    | some p =>
      rw [hlast] at holdest
      rw [course_walkDown_older hread holdest] at hcursors
      obtain ⟨-, hrestCursors, hnext⟩ := List.isChain_append.mp hcursors
      have hp := FeedIndex.mem_below.mp (List.mem_of_mem_take (List.mem_of_getLast? hlast))
      have hnextBound : limits ≠ [] → boundAt
          (view (answer t (.index (.index kind subject) (.range (.down b .unbounded limit)))).2)
          (.index kind subject) (some p.id) = .exclusive p := by
        intro hmore
        obtain ⟨limit', limits', rfl⟩ := List.exists_cons_of_ne_nil hmore
        have hkept := hnext _ List.getLast?_concat _
          (head?_course_walkDown h hkind limit' limits' _ p.id) p.id rfl
        exact boundAt_of_score? (hkept.trans hp.1)
      obtain ⟨windows, s', ms, hrest, hdescends⟩ := ih
        (fun limit hmem => hlimits limit (List.mem_cons_of_mem _ hmem)) _ (some p.id)
        (.exclusive p) hnextBound hrestCursors
      exact ⟨_, _, _, records_walkDown_older hread holdest hrest,
        descends_older hlead ht hlast hdescends⟩

/-- An entry that never moves is delivered once, if it is delivered at all. -/
theorem Descends.count_eq_one {key : StoreKey} {b : Bound} (h : Descends view key b ms windows)
    {p : Position} (hp : p ∈ delivered view ms)
    (hkept : ∀ m ∈ ms, (view m.state).score? key p.id = some p.score) :
    (windows.flatMap FeedWindow.ids).count p.id = 1 := by
  have hnodup : (delivered view ms).Nodup := h.decreasing.imp fun hlt => hlt.ne'
  have honly : ∀ q ∈ delivered view ms, q.id = p.id ↔ q = p := by
    intro q hq
    constructor
    · intro hid
      obtain ⟨m, hm, hscore⟩ := h.placed q hq
      rw [hid, hkept m hm] at hscore
      exact congrArg₂ Position.mk (Option.some.inj hscore).symm hid
    · exact congrArg Position.id
  rw [h.ids, List.count, List.countP_map]
  have hcount : (delivered view ms).countP ((· == p.id) ∘ Position.id) =
      (delivered view ms).count p := by
    refine List.countP_congr fun q hq => ?_
    rw [Function.comp_apply, beq_iff_eq, beq_iff_eq]
    exact honly q hq
  rw [hcount]
  exact List.count_eq_one_of_mem hnodup hp

end Walk

/-- Whatever happens to the feed between two requests of a walk, as long as each cursor
keeps its score until it is looked up: the positions that are delivered fall all the way,
and once a window is empty, every entry that kept its place all along has been delivered
exactly once. -/
theorem walkDown_descends (h : Backend.Drifts answer view) {kind : FeedKind}
    (hkind : kind.isPagedByOffset = false) (subject : Subject) {limits : List Nat}
    (hlimits : ∀ limit ∈ limits, 0 < limit) (s : σ)
    (hcursors : KeepsCursors view (.index kind subject)
      ((walkDown kind subject limits none).run.course answer s)) :
    ∃ windows s', Routine.attempt answer s (walkDown kind subject limits none) =
        (.ok windows, s') ∧
      windows.flatMap FeedWindow.ids =
        (delivered view ((walkDown kind subject limits none).run.course answer s)).map
          Position.id ∧
      (delivered view ((walkDown kind subject limits none).run.course answer s)).Pairwise
        (fun p q => q.isBefore p = true) ∧
      (EndsEmpty windows → ∀ id score,
        (∀ m ∈ (walkDown kind subject limits none).run.course answer s,
          (view m.state).score? (.index kind subject) id = some score) →
        (windows.flatMap FeedWindow.ids).count id = 1) := by
  obtain ⟨windows, s', ms, hwalk, hdescends⟩ :=
    exists_descends h hkind subject limits hlimits s none .unbounded (fun _ => rfl) hcursors
  rw [hwalk.course_eq]
  refine ⟨windows, s', hwalk.attempt_eq, hdescends.ids, ?_, fun hend id score hkept => ?_⟩
  · exact hdescends.decreasing.imp fun hlt => Position.isBefore_iff.mpr hlt
  · have hmem := hdescends.complete hend ⟨score, id⟩ rfl hkept
    exact hdescends.count_eq_one hmem hkept

def restless : List (StoreKey × IndexRequest) :=
  [(.index .home (.account 7), .upsertMany [⟨1, ⟨5⟩⟩, ⟨2, ⟨5⟩⟩, ⟨3, ⟨9⟩⟩]),
    (.index .home (.account 7), .upsert ⟨4, ⟨7⟩⟩), (.index .home (.account 7), .remove 3),
    (.index .home (.account 7), .upsert ⟨2, ⟨8⟩⟩)]

theorem walkDown_descends_restless :
    ∃ windows s', Routine.attempt (Backend.busy restless) 1
        (walkDown .home (.account 7) [2, 2, 2] none) = (.ok windows, s') ∧
      windows.map FeedWindow.ids = [[3, 2], [1], []] ∧
      (windows.flatMap FeedWindow.ids).count 1 = 1 := by
  have hcourse : (walkDown .home (.account 7) [2, 2, 2] none).run.course
      (Backend.busy restless) 1 =
        [⟨1, .index (.index .home (.account 7)) (.range (.down .unbounded .unbounded 2))⟩,
          ⟨2, .index (.index .home (.account 7)) (.score 2)⟩,
          ⟨3, .index (.index .home (.account 7))
            (.range (.down (.exclusive ⟨⟨5⟩, 2⟩) .unbounded 2))⟩,
          ⟨4, .index (.index .home (.account 7)) (.score 1)⟩,
          ⟨5, .index (.index .home (.account 7))
            (.range (.down (.exclusive ⟨⟨5⟩, 1⟩) .unbounded 2))⟩] := by
    decide +kernel
  have hcursors : KeepsCursors (Backend.indexAfter restless) (.index .home (.account 7))
      ((walkDown .home (.account 7) [2, 2, 2] none).run.course (Backend.busy restless) 1) := by
    rw [hcourse]
    refine .cons_cons ?_ (.cons_cons ?_ (.cons_cons ?_ (.cons_cons ?_ (.singleton _))))
    · intro id hid
      obtain rfl : 2 = id := by injection hid with _ hid; injection hid
      decide +kernel
    · intro id hid
      nomatch hid
    · intro id hid
      obtain rfl : 1 = id := by injection hid with _ hid; injection hid
      decide +kernel
    · intro id hid
      nomatch hid
  obtain ⟨windows, s', hwalk, -, -, honce⟩ := walkDown_descends (Backend.drifts_busy restless)
    rfl (.account 7) (by decide) 1 hcursors
  have hwindows : (Routine.attempt (Backend.busy restless) 1
      (walkDown .home (.account 7) [2, 2, 2] none)).1 =
        .ok [⟨[3, 2], .descending⟩, ⟨[1], .descending⟩, ⟨[], .descending⟩] := by
    decide +kernel
  rw [hwalk] at hwindows
  obtain rfl := Except.ok.inj hwindows
  refine ⟨_, s', hwalk, rfl, honce ⟨_, rfl, rfl⟩ 1 ⟨5⟩ ?_⟩
  rw [hcourse]
  decide +kernel

end Reader
end WarmFeed
