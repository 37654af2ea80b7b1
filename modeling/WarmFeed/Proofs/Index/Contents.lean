import Mathlib.Data.Finmap
import Mathlib.Data.Finset.Sort
import WarmFeed.Proofs.Index.Order

/-!
# What a feed holds

Apart from how it is kept, a feed is a finite map from identifiers to scores.
The positions of its entries form a finite set, which is listed in ascending
order; windows, ranks and trims are described by that list.
-/

namespace WarmFeed

/-- The scores of one feed, by identifier. -/
abbrev Contents := Finmap fun _ : ContentId => Score

namespace Contents

def write (c : Contents) (e : Entry) : Contents := c.insert e.id e.score

def writeAll (c : Contents) (es : List Entry) : Contents := es.foldl write c

def erase (c : Contents) (id : ContentId) : Contents := Finmap.erase id c

def eraseAll (c : Contents) (ids : List ContentId) : Contents := ids.foldl erase c

def size (c : Contents) : Nat := c.keys.card

def positions (c : Contents) : Finset Position :=
  (c.entries.map fun e => (⟨e.2, e.1⟩ : Position)).toFinset

def ascending (c : Contents) : List Position := c.positions.sort

def restrict (c : Contents) (keep : Position → Prop) [DecidablePred keep] : Contents where
  entries := c.entries.filter fun e => keep ⟨e.2, e.1⟩
  nodupKeys := by
    rw [← Multiset.nodup_keys]
    exact Multiset.nodup_of_le (Multiset.map_le_map (Multiset.filter_le _ _))
      (Multiset.nodup_keys.mpr c.nodupKeys)

def above (c : Contents) (p : Position) : Nat := (c.positions.filter (p < ·)).card

/-- The highest entries: those with fewer than `n` others above them. -/
def greatest (c : Contents) (n : Nat) : Contents := c.restrict fun p => c.above p < n

def entryList (c : Contents) : List Entry := c.ascending.map Position.entry

def rank? (c : Contents) (id : ContentId) : Option Nat :=
  c.ascending.findIdx? fun p => decide (p.id = id)

/-- The positions that a query asks for, the lowest first and without its limit. -/
def window (c : Contents) (q : RangeQuery) : List Position := c.ascending.filter q.contains

def range (c : Contents) (q : RangeQuery) : List ContentId :=
  let ps := match q.direction with
    | .ascending => c.window q
    | .descending => (c.window q).reverse
  (ps.take q.limit).map Position.id

def rankWindow (c : Contents) (offset limit : Nat) : List ContentId :=
  ((c.ascending.reverse.drop offset).take limit).map Position.id

theorem lookup_write (c : Contents) (e : Entry) (id : ContentId) :
    (c.write e).lookup id = if id = e.id then some e.score else c.lookup id := by
  by_cases h : id = e.id
  · rw [if_pos h, h]
    exact Finmap.lookup_insert c
  · rw [if_neg h]
    exact Finmap.lookup_insert_of_ne c h

theorem lookup_erase (c : Contents) (i id : ContentId) :
    (c.erase i).lookup id = if id = i then none else c.lookup id := by
  by_cases h : id = i
  · rw [if_pos h, h]
    exact Finmap.lookup_erase i c
  · rw [if_neg h]
    exact Finmap.lookup_erase_ne h

theorem lookup_eraseAll (c : Contents) (ids : List ContentId) (id : ContentId) :
    (c.eraseAll ids).lookup id = if id ∈ ids then none else c.lookup id := by
  induction ids generalizing c with
  | nil => rfl
  | cons i ids ih =>
    show ((c.erase i).eraseAll ids).lookup id = _
    rw [ih, lookup_erase]
    by_cases h₁ : id ∈ ids <;> by_cases h₂ : id = i <;> simp [h₁, h₂]

theorem lookup_writeAll_of_notMem {c : Contents} {es : List Entry} {id : ContentId}
    (h : id ∉ es.map Entry.id) : (c.writeAll es).lookup id = c.lookup id := by
  induction es generalizing c with
  | nil => rfl
  | cons e es ih =>
    rw [List.map_cons, List.mem_cons, not_or] at h
    show ((c.write e).writeAll es).lookup id = c.lookup id
    rw [ih h.2, lookup_write, if_neg h.1]

theorem lookup_writeAll_of_mem {c : Contents} {es : List Entry} (hnodup : (es.map Entry.id).Nodup)
    {e : Entry} (he : e ∈ es) : (c.writeAll es).lookup e.id = some e.score := by
  induction es generalizing c with
  | nil => exact absurd he List.not_mem_nil
  | cons e' es ih =>
    rw [List.map_cons, List.nodup_cons] at hnodup
    show ((c.write e').writeAll es).lookup e.id = some e.score
    rcases List.mem_cons.mp he with rfl | he
    · rw [lookup_writeAll_of_notMem hnodup.1, lookup_write, if_pos rfl]
    · exact ih hnodup.2 he

theorem lookup_writeAll_or {c : Contents} {es : List Entry}
    (hnodup : (es.map Entry.id).Nodup) (id : ContentId) :
    (∃ score, (⟨id, score⟩ : Entry) ∈ es ∧ (c.writeAll es).lookup id = some score) ∨
      id ∉ es.map Entry.id ∧ (c.writeAll es).lookup id = c.lookup id := by
  by_cases hid : id ∈ es.map Entry.id
  · obtain ⟨e, he, rfl⟩ := List.mem_map.mp hid
    exact Or.inl ⟨e.score, he, lookup_writeAll_of_mem hnodup he⟩
  · exact Or.inr ⟨hid, lookup_writeAll_of_notMem hid⟩

@[simp] theorem mem_positions {c : Contents} {p : Position} :
    p ∈ c.positions ↔ c.lookup p.id = some p.score := by
  rw [positions, Multiset.mem_toFinset, Multiset.mem_map, Finmap.lookup_eq_some_iff]
  constructor
  · rintro ⟨⟨id, score⟩, h, rfl⟩
    exact h
  · intro h
    exact ⟨⟨p.id, p.score⟩, h, rfl⟩

theorem mem_ascending {c : Contents} {p : Position} :
    p ∈ c.ascending ↔ c.lookup p.id = some p.score := by
  rw [ascending, Finset.mem_sort, mem_positions]

theorem pairwise_ascending (c : Contents) : c.ascending.Pairwise (· < ·) :=
  (Finset.sortedLT_sort c.positions).pairwise

/-- An ascending list with the right members is the list of the entries. -/
theorem eq_ascending {c : Contents} {l : List Position} (hl : l.Pairwise (· < ·))
    (hmem : ∀ p, p ∈ l ↔ c.lookup p.id = some p.score) : l = c.ascending := by
  refine List.Perm.eq_of_pairwise (fun p q _ _ hpq hqp => absurd hpq (lt_asymm hqp)) hl
    c.pairwise_ascending ?_
  rw [List.perm_ext_iff_of_nodup (hl.imp ne_of_lt) (c.pairwise_ascending.imp ne_of_lt)]
  intro p
  rw [hmem, mem_ascending]

theorem ids_nodup (c : Contents) : (c.ascending.map Position.id).Nodup := by
  rw [List.nodup_map_iff_inj_on (c.pairwise_ascending.imp ne_of_lt)]
  rintro ⟨s, i⟩ hp ⟨t, j⟩ hq h
  obtain rfl : i = j := h
  have hs : some s = some t := (mem_ascending.mp hp).symm.trans (mem_ascending.mp hq)
  rw [Option.some.inj hs]

theorem length_ascending (c : Contents) : c.ascending.length = c.size := by
  have hkeys : (c.ascending.map Position.id).toFinset = c.keys := by
    ext id
    rw [List.mem_toFinset, List.mem_map, Finmap.mem_keys, Finmap.mem_iff]
    constructor
    · rintro ⟨p, hp, rfl⟩
      exact ⟨p.score, mem_ascending.mp hp⟩
    · rintro ⟨s, hs⟩
      exact ⟨⟨s, id⟩, mem_ascending.mpr hs, rfl⟩
  rw [size, ← hkeys, List.toFinset_card_of_nodup c.ids_nodup, List.length_map]

theorem lookup_restrict (c : Contents) (keep : Position → Prop) [DecidablePred keep]
    (id : ContentId) :
    (c.restrict keep).lookup id = (c.lookup id).filter fun s => keep ⟨s, id⟩ := by
  apply Option.ext
  intro s
  rw [Finmap.lookup_eq_some_iff, Option.filter_eq_some_iff, Finmap.lookup_eq_some_iff, restrict,
    Multiset.mem_filter, decide_eq_true_eq]

theorem ascending_restrict (c : Contents) (keep : Position → Prop) [DecidablePred keep] :
    (c.restrict keep).ascending = c.ascending.filter fun p => keep p := by
  refine (eq_ascending (c.pairwise_ascending.filter _) fun p => ?_).symm
  rw [List.mem_filter, mem_ascending, lookup_restrict, Option.filter_eq_some_iff]

/-- In an ascending list the elements with fewer than `n` others above them are the
last `n`. -/
theorem filter_countP_lt {l : List Position} (hl : l.Pairwise (· < ·)) (n : Nat) :
    l.filter (fun p => l.countP (p < ·) < n) = l.drop (l.length - n) := by
  induction l with
  | nil => rw [List.filter_nil, List.drop_nil]
  | cons a l ih =>
    obtain ⟨ha, hrest⟩ := List.pairwise_cons.mp hl
    have hhead : (a :: l).countP (a < ·) = l.length := by
      rw [List.countP_cons_of_neg (by simp), List.countP_eq_length]
      exact fun b hb => decide_eq_true (ha b hb)
    have htail : l.filter (fun p => (a :: l).countP (p < ·) < n) = l.drop (l.length - n) := by
      rw [← ih hrest]
      refine List.filter_congr fun p hp => ?_
      rw [List.countP_cons_of_neg (by simpa using (ha p hp).le)]
    by_cases hn : l.length < n
    · rw [List.filter_cons_of_pos (by rw [hhead]; exact decide_eq_true hn), htail]
      have h₁ : l.length - n = 0 := by omega
      have h₂ : (a :: l).length - n = 0 := by rw [List.length_cons]; omega
      rw [h₁, h₂, List.drop_zero, List.drop_zero]
    · rw [List.filter_cons_of_neg (by rw [hhead]; simpa using hn), htail]
      have h : (a :: l).length - n = (l.length - n) + 1 := by rw [List.length_cons]; omega
      rw [h, List.drop_succ_cons]

theorem above_eq_countP (c : Contents) (p : Position) :
    c.above p = c.ascending.countP (p < ·) := by
  have hset : c.positions.filter (p < ·) = (c.ascending.filter (p < ·)).toFinset := by
    ext q
    simp [mem_ascending]
  rw [above, hset, List.toFinset_card_of_nodup ((c.pairwise_ascending.imp ne_of_lt).filter _),
    List.countP_eq_length_filter]

/-- The highest `n` entries are the last `n` of the ascending list. -/
theorem ascending_greatest (c : Contents) (n : Nat) :
    (c.greatest n).ascending = c.ascending.drop (c.size - n) := by
  rw [greatest, ascending_restrict, ← length_ascending]
  simp only [above_eq_countP]
  exact filter_countP_lt c.pairwise_ascending n

theorem size_greatest (c : Contents) (n : Nat) : (c.greatest n).size = min c.size n := by
  rw [← length_ascending, ascending_greatest, List.length_drop, length_ascending]
  omega

theorem greatest_of_size_le {c : Contents} {n : Nat} (h : c.size ≤ n) : c.greatest n = c := by
  apply Finmap.ext_lookup
  intro id
  apply Option.ext
  intro s
  rw [← mem_ascending (p := ⟨s, id⟩), ascending_greatest, Nat.sub_eq_zero_of_le h, List.drop_zero,
    mem_ascending]

theorem eq_of_ascending {c d : Contents} (h : c.ascending = d.ascending) : c = d := by
  apply Finmap.ext_lookup
  intro id
  apply Option.ext
  intro score
  rw [← mem_ascending (p := ⟨score, id⟩), h, mem_ascending]

/-- What stands at the upper end of a feed are its highest entries. -/
theorem greatest_of_ascending_append {c d : Contents} {low : List Position}
    (h : c.ascending = low ++ d.ascending) : c.greatest d.size = d := by
  have hsize : c.size = low.length + d.size := by
    rw [← length_ascending, ← length_ascending, h, List.length_append]
  have hlow : c.size - d.size = low.length := by omega
  apply eq_of_ascending
  rw [ascending_greatest, hlow, h, List.drop_left]

theorem greatest_greatest {c : Contents} {n k : Nat} (hkn : k ≤ n) (hn : n ≤ c.size) :
    (c.greatest n).greatest k = c.greatest k := by
  apply eq_of_ascending
  rw [ascending_greatest, ascending_greatest, ascending_greatest, size_greatest,
    Nat.min_eq_right hn, List.drop_drop]
  congr 1
  omega

theorem above_le_of_lt (c : Contents) {p q : Position} (h : p < q) : c.above q ≤ c.above p := by
  apply Finset.card_le_card
  intro r hr
  rw [Finset.mem_filter] at hr ⊢
  exact ⟨hr.1, h.trans hr.2⟩

/-- What stands above one of the highest entries is one of them too. -/
theorem mem_ascending_greatest_of_lt {c : Contents} {n : Nat} {p q : Position} (hpq : p < q)
    (hp : p ∈ (c.greatest n).ascending) (hq : q ∈ c.ascending) : q ∈ (c.greatest n).ascending := by
  rw [greatest, ascending_restrict, List.mem_filter, decide_eq_true_eq] at hp ⊢
  have habove := above_le_of_lt c hpq
  exact ⟨hq, by omega⟩

/-- Without its lowest entries a feed holds the highest ones. -/
theorem eraseAll_lowest (c : Contents) (n : Nat) :
    c.eraseAll ((c.ascending.take (c.size - n)).map Position.id) = c.greatest n := by
  have hsplit := List.take_append_drop (c.size - n) c.ascending
  have hnodup := c.ids_nodup
  rw [← hsplit, List.map_append, List.nodup_append] at hnodup
  apply Finmap.ext_lookup
  intro id
  apply Option.ext
  intro score
  have hgreatest : (c.greatest n).lookup id = some score ↔
      ⟨score, id⟩ ∈ c.ascending.drop (c.size - n) := by
    rw [← ascending_greatest, mem_ascending]
  rw [hgreatest, lookup_eraseAll]
  by_cases hid : id ∈ (c.ascending.take (c.size - n)).map Position.id
  · rw [if_pos hid]
    refine iff_of_false (by simp) fun hmem => ?_
    exact hnodup.2.2 id hid id (List.mem_map_of_mem (f := Position.id) hmem) rfl
  · rw [if_neg hid, ← mem_ascending (p := ⟨score, id⟩)]
    constructor
    · intro hmem
      rw [← hsplit, List.mem_append] at hmem
      exact hmem.resolve_left fun hmem => hid (List.mem_map_of_mem (f := Position.id) hmem)
    · exact List.mem_of_mem_drop

theorem mem_entryList {c : Contents} {e : Entry} :
    e ∈ c.entryList ↔ c.lookup e.id = some e.score := by
  rw [entryList, List.mem_map]
  constructor
  · rintro ⟨p, hp, rfl⟩
    exact mem_ascending.mp hp
  · intro h
    exact ⟨e.position, mem_ascending.mpr h, rfl⟩

theorem entryList_inj {c d : Contents} : c.entryList = d.entryList ↔ c = d := by
  refine ⟨fun h => eq_of_ascending ?_, fun h => h ▸ rfl⟩
  have hentry : Function.Injective Position.entry := by
    rintro ⟨s, i⟩ ⟨t, j⟩ heq
    obtain ⟨rfl, rfl⟩ := Entry.mk.inj heq
    rfl
  exact hentry.list_map h

theorem nodup_ids_entryList (c : Contents) : (c.entryList.map Entry.id).Nodup := by
  rw [entryList, List.map_map]
  exact c.ids_nodup

theorem length_entryList (c : Contents) : c.entryList.length = c.size := by
  rw [entryList, List.length_map, length_ascending]

/-- Entries with distinct identifiers, written into nothing, are the entries that are
there. -/
theorem entryList_writeAll_perm {es : List Entry} (hnodup : (es.map Entry.id).Nodup) :
    ((∅ : Contents).writeAll es).entryList.Perm es := by
  rw [List.perm_ext_iff_of_nodup (nodup_ids_entryList _).of_map hnodup.of_map]
  intro e
  rw [mem_entryList]
  constructor
  · intro h
    by_cases hid : e.id ∈ es.map Entry.id
    · obtain ⟨e', he', hsame⟩ := List.mem_map.mp hid
      rw [← hsame, lookup_writeAll_of_mem hnodup he'] at h
      obtain ⟨i, s⟩ := e
      obtain ⟨j, t⟩ := e'
      obtain rfl : j = i := hsame
      obtain rfl : t = s := Option.some.inj h
      exact he'
    · rw [lookup_writeAll_of_notMem hid, Finmap.lookup_empty] at h
      exact absurd h.symm (Option.some_ne_none _)
  · exact lookup_writeAll_of_mem hnodup

theorem size_writeAll {es : List Entry} (hnodup : (es.map Entry.id).Nodup) :
    ((∅ : Contents).writeAll es).size = es.length := by
  rw [← length_entryList]
  exact (entryList_writeAll_perm hnodup).length_eq

end Contents
end WarmFeed
