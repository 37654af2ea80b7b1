import WarmFeed.Proofs.Index.Refinement

/-!
# What an index answers about a list of entries

A window is cut out of the array between two boundaries that are searched for separately, by
comparisons of their own.  All that is seen of it from outside is a filter over the entries of
the feed: the same entries in the same order, whichever boundaries there are and wherever they
stand, if they stand in the feed at all.
-/

namespace WarmFeed

def Direction.along {α : Type} (d : Direction) (l : List α) : List α :=
  match d with
  | .ascending => l
  | .descending => l.reverse

namespace Direction

variable {α β : Type}

@[simp] theorem mem_along {d : Direction} {l : List α} {a : α} : a ∈ d.along l ↔ a ∈ l := by
  cases d <;> simp [along]

theorem along_map (d : Direction) (f : α → β) (l : List α) :
    d.along (l.map f) = (d.along l).map f := by
  cases d <;> simp [along]

theorem along_filter (d : Direction) (keep : α → Bool) (l : List α) :
    d.along (l.filter keep) = (d.along l).filter keep := by
  cases d <;> simp [along]

end Direction

/-! ## The two sides of a position -/

section Sides

variable {lower upper : List Position} {p : Position}
  (hsorted : (lower ++ p :: upper).Pairwise (· < ·))

include hsorted

theorem lt_of_mem_lower {q : Position} (hq : q ∈ lower) : q < p :=
  (List.pairwise_append.mp hsorted).2.2 q hq p List.mem_cons_self

theorem lt_of_mem_upper {q : Position} (hq : q ∈ upper) : p < q :=
  (List.pairwise_cons.mp (List.pairwise_append.mp hsorted).2.1).1 q hq

theorem filter_isBelow_exclusive :
    (lower ++ p :: upper).filter (Bound.exclusive p).isBelow = upper := by
  have hbelow : ∀ q, (Bound.exclusive p).isBelow q = true ↔ p < q := fun q => Position.isAfter_iff
  have hlower : lower.filter (Bound.exclusive p).isBelow = [] := by
    rw [List.filter_eq_nil_iff]
    intro q hq
    rw [hbelow]
    exact lt_asymm (lt_of_mem_lower hsorted hq)
  have hupper : upper.filter (Bound.exclusive p).isBelow = upper := by
    rw [List.filter_eq_self]
    exact fun q hq => (hbelow q).mpr (lt_of_mem_upper hsorted hq)
  rw [List.filter_append, hlower, List.nil_append,
    List.filter_cons_of_neg (by rw [hbelow]; exact lt_irrefl p), hupper]

theorem filter_isAbove_exclusive :
    (lower ++ p :: upper).filter (Bound.exclusive p).isAbove = lower := by
  have habove : ∀ q, (Bound.exclusive p).isAbove q = true ↔ q < p := fun q => Position.isBefore_iff
  have hlower : lower.filter (Bound.exclusive p).isAbove = lower := by
    rw [List.filter_eq_self]
    exact fun q hq => (habove q).mpr (lt_of_mem_lower hsorted hq)
  have hupper : upper.filter (Bound.exclusive p).isAbove = [] := by
    rw [List.filter_eq_nil_iff]
    intro q hq
    rw [habove]
    exact lt_asymm (lt_of_mem_upper hsorted hq)
  rw [List.filter_append, hlower,
    List.filter_cons_of_neg (by rw [habove]; exact lt_irrefl p), hupper, List.append_nil]

end Sides

/-- No position lies strictly between boundaries of which it is one. -/
theorem RangeQuery.contains_of_bound {q : RangeQuery} {p : Position}
    (h : q.lower = .exclusive p ∨ q.upper = .exclusive p) : q.contains p = false := by
  rw [← Bool.not_eq_true, RangeQuery.contains, Bool.and_eq_true]
  rintro ⟨hlower, hupper⟩
  rcases h with h | h
  · rw [h] at hlower
    exact lt_irrefl p (Position.isAfter_iff.mp hlower)
  · rw [h] at hupper
    exact lt_irrefl p (Position.isBefore_iff.mp hupper)

/-! ## One feed -/

theorem SortedEntries.rankWindow_eq_drop_take (s : SortedEntries) (offset limit : Nat) :
    s.rankWindow offset limit = ((s.entries.reverse.drop offset).take limit).map Entry.id := by
  rw [SortedEntries.entries, ← List.map_reverse, ← List.map_drop, ← List.map_take, List.map_map]
  rfl

namespace SortedEntries.Consistent

variable {s : SortedEntries} (h : s.Consistent)

include h

theorem pairwise_entries : s.entries.Pairwise fun a b => a.position.isBefore b.position := by
  rw [SortedEntries.entries, List.pairwise_map]
  exact h.ascending

theorem nodup_ids_entries : (s.entries.map Entry.id).Nodup := by
  rw [h.entries_eq, Contents.entryList, List.map_map]
  exact Contents.ids_nodup s.contents

theorem mem_entries_iff (e : Entry) : e ∈ s.entries ↔ s.scores.get? e.id = some e.score := by
  rw [h.entries_eq, Contents.mem_entryList, lookup_contents]

theorem range_eq_filter (q : RangeQuery) :
    s.range q = (((q.direction.along s.entries).filter fun e => q.contains e.position).take
      q.limit).map Entry.id := by
  have hrange : s.range q =
      ((q.direction.along (s.ordered.toList.filter q.contains)).take q.limit).map Position.id := by
    rw [SortedEntries.range, window_eq h.sorted]
    cases q.direction <;> rfl
  rw [hrange, SortedEntries.entries, ← Direction.along_filter, List.filter_map,
    Direction.along_map, ← List.map_take, List.map_map]
  rfl

theorem rank?_eq_some_iff (id : ContentId) (k : Nat) :
    s.rank? id = some k ↔ s.entries[k]?.map Entry.id = some id := by
  have hget : s.entries[k]?.map Entry.id = (s.contents.ascending[k]?).map Position.id := by
    rw [h.entries_eq, Contents.entryList, List.getElem?_map, Option.map_map]
    rfl
  rw [h.rank?_eq, Contents.rank?, List.findIdx?_eq_some_iff_getElem, hget]
  constructor
  · rintro ⟨hk, hid, -⟩
    rw [List.getElem?_eq_getElem hk, Option.map_some, of_decide_eq_true hid]
  · intro hid
    obtain ⟨p, hp, rfl⟩ := Option.map_eq_some_iff.mp hid
    obtain ⟨hk, rfl⟩ := List.getElem?_eq_some_iff.mp hp
    -- An earlier place with this identifier would be the same place.
    refine ⟨hk, decide_eq_true rfl, fun j hj => ?_⟩
    intro hsame
    have hlength : (s.contents.ascending.map Position.id).length =
        s.contents.ascending.length := List.length_map _
    have hj' : j < (s.contents.ascending.map Position.id).length := by omega
    have hk' : k < (s.contents.ascending.map Position.id).length := by omega
    have hids : (s.contents.ascending.map Position.id)[j] =
        (s.contents.ascending.map Position.id)[k] := by
      rw [List.getElem_map, List.getElem_map, of_decide_eq_true hsame]
    have hplace := s.contents.ids_nodup.getElem_inj_iff.mp hids
    omega

theorem notMem_range_of_bound {e : Entry} (he : e ∈ s.entries) {q : RangeQuery}
    (hq : q.lower = .exclusive e.position ∨ q.upper = .exclusive e.position) :
    e.id ∉ s.range q := by
  rw [h.range_eq_filter]
  intro hmem
  obtain ⟨e', he', hid⟩ := List.mem_map.mp hmem
  obtain ⟨hmem', hcontains⟩ := List.mem_filter.mp (List.mem_of_mem_take he')
  obtain rfl : e' = e :=
    List.inj_on_of_nodup_map h.nodup_ids_entries (Direction.mem_along.mp hmem') he hid
  rw [RangeQuery.contains_of_bound hq] at hcontains
  exact Bool.false_ne_true hcontains

/-- What is below an entry, the entry and what is above it are the whole feed. -/
theorem range_sides {e : Entry} (he : e ∈ s.entries) {limit : Nat}
    (hlimit : s.entries.length ≤ limit) :
    (s.range (.down (.exclusive e.position) .unbounded limit)).reverse ++
        e.id :: s.range (.up (.exclusive e.position) .unbounded limit) =
      s.entries.map Entry.id := by
  obtain ⟨p, hp, rfl⟩ := List.mem_map.mp he
  obtain ⟨lower, upper, hsplit⟩ := List.append_of_mem hp
  have hsorted := h.sorted
  rw [hsplit] at hsorted
  have hlength : s.entries.length = lower.length + (upper.length + 1) := by
    rw [SortedEntries.entries, List.length_map, hsplit, List.length_append, List.length_cons]
  have hbelow : s.window (.down (.exclusive p) .unbounded limit) = lower := by
    rw [window_eq h.sorted, hsplit]
    exact filter_isAbove_exclusive hsorted
  have habove : s.window (.up (.exclusive p) .unbounded limit) = upper := by
    have hcontains : (RangeQuery.up (.exclusive p) .unbounded limit).contains =
        (Bound.exclusive p).isBelow := by
      funext q
      exact Bool.and_true _
    rw [window_eq h.sorted, hsplit, hcontains]
    exact filter_isBelow_exclusive hsorted
  have hdown : s.range (.down (.exclusive p) .unbounded limit) = (lower.map Position.id).reverse :=
    calc s.range (.down (.exclusive p) .unbounded limit)
        = ((s.window (.down (.exclusive p) .unbounded limit)).reverse.take limit).map
            Position.id := rfl
      _ = (lower.map Position.id).reverse := by
        rw [hbelow, List.take_of_length_le (by rw [List.length_reverse]; omega), List.map_reverse]
  have hup : s.range (.up (.exclusive p) .unbounded limit) = upper.map Position.id :=
    calc s.range (.up (.exclusive p) .unbounded limit)
        = ((s.window (.up (.exclusive p) .unbounded limit)).take limit).map Position.id := rfl
      _ = upper.map Position.id := by rw [habove, List.take_of_length_le (by omega)]
  show (s.range (.down (.exclusive p) .unbounded limit)).reverse ++
      p.id :: s.range (.up (.exclusive p) .unbounded limit) = s.entries.map Entry.id
  rw [hdown, hup, List.reverse_reverse, ← List.map_cons, ← List.map_append, ← hsplit,
    SortedEntries.entries, List.map_map]
  rfl

end SortedEntries.Consistent

/-! ## An index -/

namespace FeedIndex

/-- Under a key the index answers as the list of entries says, and stays as it is. -/
structure Lists (x : FeedIndex) (key : StoreKey) (es : List Entry) : Prop where
  entries : x.answer key .entries = (.ok es, x)
  ascending : es.Pairwise fun a b => a.position.isBefore b.position
  score : ∀ id, ∃ r, x.answer key (.score id) = (.ok r, x) ∧
    ∀ score, r = some score ↔ ⟨id, score⟩ ∈ es
  range : ∀ q, x.answer key (.range q) =
    (.ok ((((q.direction.along es).filter fun e => q.contains e.position).take q.limit).map
      Entry.id), x)
  rank : ∀ id, ∃ r, x.answer key (.rank id) = (.ok r, x) ∧
    ∀ k, r = some k ↔ es[k]?.map Entry.id = some id
  rankWindow : ∀ offset limit, x.answer key (.rankWindow offset limit) =
    (.ok (((es.reverse.drop offset).take limit).map Entry.id), x)

theorem Consistent.lists {x : FeedIndex} (hx : x.Consistent) (key : StoreKey) :
    x.Lists key (x.feed key).entries where
  entries := rfl
  ascending := (hx key).pairwise_entries
  score id := ⟨_, rfl, fun score => ((hx key).mem_entries_iff ⟨id, score⟩).symm⟩
  range q := by rw [← (hx key).range_eq_filter]; rfl
  rank id := ⟨_, rfl, (hx key).rank?_eq_some_iff id⟩
  rankWindow offset limit := by rw [← (x.feed key).rankWindow_eq_drop_take]; rfl

/-- The answers about a feed are those of the list of its entries.  An entry is in no window of
which it is a boundary; the window below it and the one above it, if nothing is cut off, make up
the feed together with it. -/
theorem lists_and_sides {x : FeedIndex} (hx : x.Reachable) (key : StoreKey) :
    ∃ es, x.Lists key es ∧
      (∀ e ∈ es, ∀ q : RangeQuery,
        q.lower = .exclusive e.position ∨ q.upper = .exclusive e.position →
          ∃ ids, x.answer key (.range q) = (.ok ids, x) ∧ e.id ∉ ids) ∧
      ∀ e ∈ es, ∀ limit, es.length ≤ limit →
        ∃ below above,
          x.answer key (.range (.down (.exclusive e.position) .unbounded limit)) =
            (.ok below, x) ∧
          x.answer key (.range (.up (.exclusive e.position) .unbounded limit)) =
            (.ok above, x) ∧
          below.reverse ++ e.id :: above = es.map Entry.id := by
  have hfeed := hx.consistent key
  refine ⟨(x.feed key).entries, hx.consistent.lists key, fun e he q hq => ?_,
    fun e he limit hlimit => ?_⟩
  · exact ⟨_, rfl, hfeed.notMem_range_of_bound he hq⟩
  · exact ⟨_, _, rfl, rfl, hfeed.range_sides he hlimit⟩

def tiedCalls : List (StoreKey × IndexRequest) :=
  [(.index .home (.account 7),
    .upsertMany [⟨4, ⟨5⟩⟩, ⟨9, ⟨2⟩⟩, ⟨2, ⟨5⟩⟩, ⟨1, ⟨8⟩⟩, ⟨3, ⟨5⟩⟩])]

theorem lists_and_sides_tied :
    let x := (Keeper.run answer tiedCalls ∅).2
    let key := StoreKey.index .home (.account 7)
    x.answer key (.range (.down (.exclusive ⟨⟨5⟩, 4⟩) (.exclusive ⟨⟨2⟩, 9⟩) 7)) =
        (.ok [3, 2], x) ∧
      x.answer key (.range (.up (.exclusive ⟨⟨5⟩, 4⟩) (.exclusive ⟨⟨5⟩, 2⟩) 7)) = (.ok [], x) ∧
      x.answer key (.rankWindow 1 2) = (.ok [4, 3], x) ∧
      ∃ below above,
        x.answer key (.range (.down (.exclusive ⟨⟨5⟩, 3⟩) .unbounded 5)) = (.ok below, x) ∧
        x.answer key (.range (.up (.exclusive ⟨⟨5⟩, 3⟩) .unbounded 5)) = (.ok above, x) ∧
        below.reverse ++ 3 :: above = [9, 2, 3, 4, 1] := by
  intro x key
  obtain ⟨es, hlists, -, hsides⟩ := lists_and_sides (x := x) ⟨tiedCalls, rfl⟩ key
  have hes : (x.answer key .entries).1 =
      .ok [⟨9, ⟨2⟩⟩, ⟨2, ⟨5⟩⟩, ⟨3, ⟨5⟩⟩, ⟨4, ⟨5⟩⟩, ⟨1, ⟨8⟩⟩] := by decide +kernel
  rw [hlists.entries] at hes
  obtain rfl := Except.ok.inj hes
  refine ⟨?_, ?_, ?_, hsides ⟨3, ⟨5⟩⟩ (by decide) 5 (by decide)⟩
  · rw [hlists.range]
    decide +kernel
  · rw [hlists.range]
    decide +kernel
  · rw [hlists.rankWindow]
    rfl

end FeedIndex
end WarmFeed
