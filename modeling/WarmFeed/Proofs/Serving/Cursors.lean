import WarmFeed.Proofs.Index.Windows
import WarmFeed.Proofs.Serving.Reader

/-!
# Which entries a page shows

A page may be asked for with any of three identifiers.  What it shows is told by the entries of
the feed alone: those that stand above every entry that the lower identifier names and below every
entry that the upper one names.  There is at most one of either, and none if the identifier is
not in the feed, which is why such an identifier bounds nothing.
-/

namespace WarmFeed
namespace Reader

/-- The entry stands above the one that a cursor names among the entries, if it names one. -/
def IsAboveCursor (es : List Entry) (cursor : Option ContentId) (e : Entry) : Prop :=
  ∀ c ∈ es, cursor = some c.id → c.position.isBefore e.position

def IsBelowCursor (es : List Entry) (cursor : Option ContentId) (e : Entry) : Prop :=
  ∀ c ∈ es, cursor = some c.id → e.position.isBefore c.position

instance (es : List Entry) (cursor : Option ContentId) : DecidablePred (IsAboveCursor es cursor) :=
  fun e => inferInstanceAs (Decidable (∀ c ∈ es, _ → c.position.isBefore e.position))

instance (es : List Entry) (cursor : Option ContentId) : DecidablePred (IsBelowCursor es cursor) :=
  fun e => inferInstanceAs (Decidable (∀ c ∈ es, _ → e.position.isBefore c.position))

def windowOf (es : List Entry) (page : PageRequest) (limit : Nat) : FeedWindow :=
  match page.minId with
  | none =>
    let shown := es.reverse.filter fun e =>
      IsAboveCursor es page.sinceId e ∧ IsBelowCursor es page.maxId e
    ⟨(shown.take limit).map Entry.id, .descending⟩
  | some id =>
    let shown := es.filter fun e =>
      IsAboveCursor es (some id) e ∧ IsBelowCursor es page.maxId e
    ⟨(shown.take limit).map Entry.id, .ascending⟩

/-! ## Cursors that bound nothing -/

section Unknown

variable {es : List Entry} {id : ContentId} (hid : id ∉ es.map Entry.id)

include hid

theorem some_ne_of_notMem : ∀ c ∈ es, some id ≠ some c.id := by
  intro c hc hcursor
  rw [Option.some.inj hcursor] at hid
  exact hid (List.mem_map_of_mem hc)

theorem isAboveCursor_of_notMem : IsAboveCursor es (some id) = IsAboveCursor es none := by
  funext e
  have hunknown : IsAboveCursor es (some id) e := fun c hc hcursor =>
    absurd hcursor (some_ne_of_notMem hid c hc)
  exact propext (iff_of_true hunknown nofun)

theorem isBelowCursor_of_notMem : IsBelowCursor es (some id) = IsBelowCursor es none := by
  funext e
  have hunknown : IsBelowCursor es (some id) e := fun c hc hcursor =>
    absurd hcursor (some_ne_of_notMem hid c hc)
  exact propext (iff_of_true hunknown nofun)

end Unknown

/-! ## Cursors that are looked up -/

theorem isBelow_iff_forall {b : Bound} {p : Position} :
    b.isBelow p = true ↔ ∀ q, b = .exclusive q → q < p := by
  cases b <;> simp [Bound.isBelow]

theorem isAbove_iff_forall {b : Bound} {p : Position} :
    b.isAbove p = true ↔ ∀ q, b = .exclusive q → p < q := by
  cases b <;> simp [Bound.isAbove]

section Bounds

variable {x : FeedIndex} (hx : x.Consistent) (key : StoreKey)

include hx

/-- The boundary of a cursor is the entry that it names. -/
theorem boundAt_eq_exclusive_iff (cursor : Option ContentId) (p : Position) :
    boundAt x key cursor = .exclusive p ↔
      p.entry ∈ (x.feed key).entries ∧ cursor = some p.id := by
  have hmem : p.entry ∈ (x.feed key).entries ↔ x.score? key p.id = some p.score :=
    (hx key).mem_entries_iff p.entry
  rw [hmem]
  cases cursor with
  | none => simp [boundAt]
  | some id =>
    rw [boundAt, Option.bind_some, FeedIndex.position?]
    cases hscore : x.score? key id with
    | none =>
      refine iff_of_false (fun hbound => nomatch hbound) fun ⟨hp, hid⟩ => ?_
      rw [← Option.some.inj hid, hscore] at hp
      nomatch hp
    | some score =>
      constructor
      · intro hbound
        obtain rfl := Bound.exclusive.inj hbound
        exact ⟨hscore, rfl⟩
      · rintro ⟨hp, hid⟩
        obtain rfl := Option.some.inj hid
        rw [hscore] at hp
        obtain rfl := Option.some.inj hp
        rfl

variable (e : Entry)

theorem isBelow_boundAt (cursor : Option ContentId) :
    (boundAt x key cursor).isBelow e.position =
      decide (IsAboveCursor (x.feed key).entries cursor e) := by
  rw [Bool.eq_iff_iff, decide_eq_true_iff, isBelow_iff_forall]
  constructor
  · intro hbelow c hc hcursor
    have hbound := (boundAt_eq_exclusive_iff hx key cursor c.position).mpr ⟨hc, hcursor⟩
    exact Position.isBefore_iff.mpr (hbelow c.position hbound)
  · intro habove q hbound
    obtain ⟨hq, hcursor⟩ := (boundAt_eq_exclusive_iff hx key cursor q).mp hbound
    exact Position.isBefore_iff.mp (habove q.entry hq hcursor)

theorem isAbove_boundAt (cursor : Option ContentId) :
    (boundAt x key cursor).isAbove e.position =
      decide (IsBelowCursor (x.feed key).entries cursor e) := by
  rw [Bool.eq_iff_iff, decide_eq_true_iff, isAbove_iff_forall]
  constructor
  · intro habove c hc hcursor
    have hbound := (boundAt_eq_exclusive_iff hx key cursor c.position).mpr ⟨hc, hcursor⟩
    exact Position.isBefore_iff.mpr (habove c.position hbound)
  · intro hbelow q hbound
    obtain ⟨hq, hcursor⟩ := (boundAt_eq_exclusive_iff hx key cursor q).mp hbound
    exact Position.isBefore_iff.mp (hbelow q.entry hq hcursor)

/-- Between the boundaries of two cursors stand the entries between those that they name. -/
theorem contains_boundAt (lower upper : Option ContentId) {q : RangeQuery}
    (hlower : q.lower = boundAt x key lower) (hupper : q.upper = boundAt x key upper) :
    q.contains e.position = decide (IsAboveCursor (x.feed key).entries lower e ∧
      IsBelowCursor (x.feed key).entries upper e) := by
  rw [RangeQuery.contains, hlower, hupper, isBelow_boundAt hx, isAbove_boundAt hx,
    Bool.decide_and]

theorem windowOf_eq_range (page : PageRequest) (limit : Nat) :
    windowOf (x.feed key).entries page limit =
      ⟨(x.feed key).range (queryAt x key page limit), (queryAt x key page limit).direction⟩ := by
  rw [(hx key).range_eq_filter]
  unfold queryAt windowOf
  cases page.minId with
  | none =>
    have hcontains := fun e => contains_boundAt hx key e page.sinceId page.maxId
      (q := .down (boundAt x key page.maxId) (boundAt x key page.sinceId) limit) rfl rfl
    simp only [hcontains]
    rfl
  | some id =>
    have hcontains := fun e => contains_boundAt hx key e (some id) page.maxId
      (q := .up (boundAt x key (some id)) (boundAt x key page.maxId) limit) rfl rfl
    simp only [hcontains]
    rfl

end Bounds

/-! ## Reading a page -/

section Read

variable {σ : Type} {answer : Backend σ} {view : σ → FeedIndex} (h : Backend.HoldsIndex answer view)
  {kind : FeedKind} (hkind : kind.isPagedByOffset = false) (subject : Subject)

include h hkind

theorem attempt_read_windowOf (s : σ) (hs : (view s).Consistent) (page : PageRequest)
    (limit : Nat) :
    ∃ s', Routine.attempt answer s (read kind subject page limit) =
        (.ok (windowOf ((view s).feed (.index kind subject)).entries page limit), s') ∧
      view s' = view s := by
  obtain ⟨s', hread, hview⟩ := attempt_read h s hkind subject page limit
  rw [windowOf_eq_range hs]
  exact ⟨s', hread, hview⟩

theorem read_eq_read (s : σ) (hs : (view s).Consistent) {page page' : PageRequest}
    (limit : Nat)
    (hsame : windowOf ((view s).feed (.index kind subject)).entries page limit =
      windowOf ((view s).feed (.index kind subject)).entries page' limit) :
    (Routine.attempt answer s (read kind subject page limit)).1 =
      (Routine.attempt answer s (read kind subject page' limit)).1 := by
  obtain ⟨t, hread, -⟩ := attempt_read_windowOf h hkind subject s hs page limit
  obtain ⟨t', hread', -⟩ := attempt_read_windowOf h hkind subject s hs page' limit
  rw [hread, hread', hsame]

/-- Whatever identifiers a page is asked for with, it shows the entries between those that are
named, from the newest down, or from the oldest up if there is a `minId`.  Then `sinceId` does
not matter, and an identifier that is not in the feed may be left out, or replaced by another
such one in the case of `minId`. -/
theorem read_between_cursors (s : σ) (hs : (view s).Reachable) :
    let entries := ((view s).feed (.index kind subject)).entries
    let shown := fun page limit =>
      (Routine.attempt answer s (read kind subject page limit)).1
    (∀ page limit, ∃ s', Routine.attempt answer s (read kind subject page limit) =
        (.ok (windowOf entries page limit), s') ∧ view s' = view s) ∧
      (∀ page limit since, page.minId ≠ none →
        shown page limit = shown { page with sinceId := since } limit) ∧
      (∀ page limit, ∀ id ∉ entries.map Entry.id, page.maxId = some id →
        shown page limit = shown { page with maxId := none } limit) ∧
      (∀ page limit, ∀ id ∉ entries.map Entry.id, page.sinceId = some id →
        shown page limit = shown { page with sinceId := none } limit) ∧
      ∀ page limit, ∀ id ∉ entries.map Entry.id, ∀ id' ∉ entries.map Entry.id,
        page.minId = some id → shown page limit = shown { page with minId := some id' } limit := by
  intro entries shown
  have hsame : ∀ {page page'} limit, windowOf entries page limit = windowOf entries page' limit →
      shown page limit = shown page' limit :=
    read_eq_read h hkind subject s hs.consistent
  refine ⟨fun page limit => attempt_read_windowOf h hkind subject s hs.consistent page limit,
    fun page limit since hmin => hsame limit ?_, fun page limit id hid hmax => hsame limit ?_,
    fun page limit id hid hsince => hsame limit ?_,
    fun page limit id hid id' hid' hmin => hsame limit ?_⟩
  · unfold windowOf
    cases hcase : page.minId with
    | none => exact absurd hcase hmin
    | some id => rfl
  · simp only [windowOf, hmax, isBelowCursor_of_notMem hid]
  · simp only [windowOf, hsince, isAboveCursor_of_notMem hid]
  · simp only [windowOf, hmin, isAboveCursor_of_notMem hid, isAboveCursor_of_notMem hid']

end Read

/-- Between entries of one score, with cursors that cross and with one that is unknown. -/
theorem read_between_cursors_tied :
    let x := (Keeper.run FeedIndex.answer FeedIndex.tiedCalls ∅).2
    let shown := fun page limit => (Routine.attempt (Backend.plain (fun _ => none) []) x
      (read .home (.account 7) page limit)).1
    shown ⟨none, some 4, some 9, none⟩ 5 = .ok ⟨[3, 2], .descending⟩ ∧
      shown ⟨none, some 2, some 4, none⟩ 5 = .ok ⟨[], .descending⟩ ∧
      shown ⟨none, some 4, some 3, some 9⟩ 1 = .ok ⟨[2], .ascending⟩ ∧
      shown ⟨none, some 77, some 3, none⟩ 5 = shown ⟨none, none, some 3, none⟩ 5 := by
  intro x shown
  have hkind : FeedKind.home.isPagedByOffset = false := rfl
  obtain ⟨hread, -, hmax, -, -⟩ := read_between_cursors
    (Backend.holdsIndex_plain (fun _ => none) []) hkind (.account 7) x
    ⟨FeedIndex.tiedCalls, rfl⟩
  have hentries : (x.feed (.index .home (.account 7))).entries =
      [⟨9, ⟨2⟩⟩, ⟨2, ⟨5⟩⟩, ⟨3, ⟨5⟩⟩, ⟨4, ⟨5⟩⟩, ⟨1, ⟨8⟩⟩] := by decide +kernel
  have hshown : ∀ page limit window, windowOf (x.feed (.index .home (.account 7))).entries page
      limit = window → shown page limit = .ok window := by
    intro page limit window hwindow
    obtain ⟨s', hattempt, -⟩ := hread page limit
    rw [id_eq, hwindow] at hattempt
    exact congrArg Prod.fst hattempt
  refine ⟨hshown _ _ _ ?_, hshown _ _ _ ?_, hshown _ _ _ ?_,
    hmax ⟨none, some 77, some 3, none⟩ 5 77 ?_ rfl⟩
  · rw [hentries]
    decide +kernel
  · rw [hentries]
    decide +kernel
  · rw [hentries]
    decide +kernel
  · rw [id_eq, hentries]
    decide

end Reader
end WarmFeed
