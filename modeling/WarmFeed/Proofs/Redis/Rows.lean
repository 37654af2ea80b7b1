import WarmFeed.Proofs.Index.Contents
import WarmFeed.Proofs.Index.Search
import WarmFeed.Proofs.Redis.Member
import WarmFeed.Proofs.Table
import WarmFeed.Redis.Index
import WarmFeed.Redis.Server

/-!
# Sorted sets as contents of feeds

A sorted set represents the contents of a feed if it has a member with the right
score for each entry and no other.  Scores that can be held compare as numbers
as they do in the total order, and members compare as identifiers, so the rows
of the set are the ascending entries.
-/

namespace WarmFeed
namespace Redis

open SortedSet

def rowOf (p : Position) : Row := (encodeMember p.id, p.score)

theorem rowOf_injective : Function.Injective rowOf := by
  rintro ⟨s, i⟩ ⟨t, j⟩ h
  obtain ⟨hmember, hscore⟩ := Prod.mk.inj h
  exact congrArg₂ Position.mk hscore (encodeMember_injective hmember)

/-- The set has a member for each entry and no other, and its scores are such as can be
held. -/
structure Represents (ms : Table String Score) (c : Contents) : Prop where
  distinct : ms.HasDistinctKeys
  get?_eq : ∀ id, ms.get? (encodeMember id) = c.lookup id
  isMember : ∀ m ∈ ms.keys, ∃ id, encodeMember id = m
  stored : ∀ p ∈ c.ascending, p.score.IsStored

theorem notAfter_rowOf {p q : Position} (hp : p.score.IsStored) (hq : q.score.IsStored) :
    notAfter (rowOf p) (rowOf q) = decide (p ≤ q) := by
  rw [Bool.eq_iff_iff, decide_eq_true_eq, notAfter, Bool.or_eq_true, Bool.and_eq_true,
    decide_eq_true_eq]
  simp only [rowOf]
  rw [Score.below_iff hp.1 hq.1, Score.same_iff hp.1 hq.1, Score.signedMagnitude_inj hp hq,
    Score.signedMagnitude_lt_iff hp, encodeMember_lt_iff, ← not_lt, Position.lt_iff]
  constructor
  · rintro (h | ⟨h, hid⟩)
    · rintro (h' | ⟨h', -⟩)
      · omega
      · rw [h'] at h
        exact lt_irrefl _ h
    · rintro (h' | ⟨-, h'⟩)
      · rw [h] at h'
        exact lt_irrefl _ h'
      · exact hid h'
  · intro h
    rw [not_or] at h
    rcases lt_or_eq_of_le (not_lt.mp h.1) with hlt | heq
    · exact Or.inl hlt
    · have hscore := Score.rank_injective heq
      exact Or.inr ⟨hscore, fun hid => h.2 ⟨hscore.symm, hid⟩⟩

namespace Represents

variable {ms : Table String Score} {c : Contents}

theorem empty : Represents ∅ ∅ where
  distinct := Table.hasDistinctKeys_empty
  get?_eq id := by rw [Finmap.lookup_empty]; rfl
  isMember m hm := absurd hm List.not_mem_nil
  stored p hp := by
    rw [Contents.mem_ascending, Finmap.lookup_empty] at hp
    exact absurd hp.symm (Option.some_ne_none _)

/-- The pairs of the set are the rows of the entries, in some order. -/
theorem pairs_eq (h : Represents ms c) :
    ∃ l : List Position, ms.pairs = l.map rowOf ∧ l.Perm c.ascending := by
  have hrow : ∀ r ∈ ms.pairs, ∃ p, rowOf p = r := by
    rintro ⟨m, s⟩ hr
    obtain ⟨id, rfl⟩ := h.isMember m (List.mem_map.mpr ⟨(m, s), hr, rfl⟩)
    exact ⟨⟨s, id⟩, rfl⟩
  obtain ⟨l, hl⟩ : ∃ l : List Position, l.map rowOf = ms.pairs := by
    have hrange : ms.pairs ∈ Set.range (List.map rowOf) := by
      rw [Set.range_list_map]
      exact hrow
    exact hrange
  refine ⟨l, hl.symm, ?_⟩
  have hnodup : l.Nodup := by
    have hkeys : (ms.pairs.map Prod.fst).Nodup := h.distinct
    rw [← hl] at hkeys
    exact (hkeys.of_map _).of_map _
  rw [List.perm_ext_iff_of_nodup hnodup (c.pairwise_ascending.imp ne_of_lt)]
  intro p
  rw [← List.mem_map_of_injective rowOf_injective, hl, rowOf, h.distinct.mem_pairs_iff, h.get?_eq,
    Contents.mem_ascending]

theorem rows_eq (h : Represents ms c) : rows ms = c.ascending.map rowOf := by
  obtain ⟨l, hpairs, hperm⟩ := h.pairs_eq
  have hsort : (l.mergeSort fun p q => decide (p ≤ q)).map rowOf =
      (l.map rowOf).mergeSort notAfter := by
    refine List.map_mergeSort fun p hp q hq => ?_
    rw [notAfter_rowOf (h.stored p (hperm.mem_iff.mp hp)) (h.stored q (hperm.mem_iff.mp hq))]
  have hsorted : l.mergeSort (fun p q => decide (p ≤ q)) = c.ascending := by
    refine List.Perm.eq_of_pairwise (fun p q _ _ hpq hqp => le_antisymm hpq hqp) ?_
      (c.pairwise_ascending.imp le_of_lt) ((List.mergeSort_perm l _).trans hperm)
    refine (List.pairwise_mergeSort ?_ ?_ l).imp fun hpq => of_decide_eq_true hpq
    · intro p q r hpq hqr
      exact decide_eq_true ((of_decide_eq_true hpq).trans (of_decide_eq_true hqr))
    · intro p q
      rw [Bool.or_eq_true, decide_eq_true_eq, decide_eq_true_eq]
      exact le_total p q
  rw [rows, hpairs, ← hsort, hsorted]

theorem length_pairs (h : Represents ms c) : ms.pairs.length = c.size := by
  obtain ⟨l, hpairs, hperm⟩ := h.pairs_eq
  rw [hpairs, List.length_map, hperm.length_eq, Contents.length_ascending]

theorem findIdx?_rows (h : Represents ms c) (id : ContentId) :
    ((rows ms).findIdx? fun r => decide (r.1 = encodeMember id)) = c.rank? id := by
  have htest : (fun r : Row => decide (r.1 = encodeMember id)) ∘ rowOf =
      fun p => decide (p.id = id) := by
    funext p
    simp only [Function.comp_apply, rowOf, encodeMember_injective.eq_iff]
  rw [h.rows_eq, List.findIdx?_map, htest, Contents.rank?]

/-! ## Changes -/

theorem write (h : Represents ms c) {e : Entry} (he : e.score.IsStored) :
    Represents (ms.set (encodeMember e.id) e.score) (c.write e) where
  distinct := h.distinct.set _ _
  get?_eq id := by
    rw [Table.get?_set, Contents.lookup_write, h.get?_eq]
    simp only [encodeMember_injective.eq_iff]
  isMember m hm := by
    rcases Table.mem_keys_set hm with rfl | hm
    · exact ⟨e.id, rfl⟩
    · exact h.isMember m hm
  stored p hp := by
    rw [Contents.mem_ascending, Contents.lookup_write] at hp
    by_cases hid : p.id = e.id
    · rw [if_pos hid, Option.some.injEq] at hp
      exact hp ▸ he
    · rw [if_neg hid, ← Contents.mem_ascending] at hp
      exact h.stored p hp

theorem writeAll (h : Represents ms c) {es : List Entry} (hes : ∀ e ∈ es, e.score.IsStored) :
    Represents (ms.setAll (es.map fun e => (encodeMember e.id, e.score))) (c.writeAll es) := by
  induction es generalizing ms c with
  | nil => exact h
  | cons e es ih =>
    exact ih (h.write (hes e List.mem_cons_self)) fun e' he' =>
      hes e' (List.mem_cons_of_mem _ he')

theorem erase (h : Represents ms c) (id : ContentId) :
    Represents (ms.erase (encodeMember id)) (c.erase id) where
  distinct := h.distinct.erase _
  get?_eq id' := by
    rw [Table.get?_erase, Contents.lookup_erase, h.get?_eq]
    simp only [encodeMember_injective.eq_iff]
  isMember m hm := h.isMember m (Table.mem_keys_erase hm)
  stored p hp := by
    rw [Contents.mem_ascending, Contents.lookup_erase] at hp
    split at hp
    · exact absurd hp.symm (Option.some_ne_none _)
    · exact h.stored p (Contents.mem_ascending.mpr hp)

theorem eraseAll (h : Represents ms c) (ids : List ContentId) :
    Represents ((ids.map encodeMember).foldl (fun ms m => ms.erase m) ms) (c.eraseAll ids) := by
  induction ids generalizing ms c with
  | nil => exact h
  | cons id ids ih => exact ih (h.erase id)

end Represents

/-! ## Members read back -/

theorem mapM_decode {α β γ : Type} (f : α → Except StoreError β) (g : γ → α)
    (k : γ → β) (hf : ∀ p, f (g p) = .ok (k p)) (l : List γ) :
    (l.map g).mapM f = .ok (l.map k) := by
  induction l with
  | nil => rfl
  | cons p l ih =>
    rw [List.map_cons, List.mapM_cons, hf, ih]
    rfl

theorem collectWindow_rowOf (q : RangeQuery) (room : Nat) (l : List Position) :
    collectWindow q room (l.map rowOf) =
      .ok (((l.filter q.contains).take room).map Position.id) := by
  induction l generalizing room with
  | nil =>
    rw [List.map_nil, collectWindow, List.filter_nil, List.take_nil, List.map_nil]
  | cons p l ih =>
    cases room with
    | zero => rw [List.map_cons, collectWindow, List.take_zero, List.map_nil]
    | succ room =>
      rw [List.map_cons, rowOf, collectWindow, decodeMember_encodeMember]
      simp only [bind, Except.bind]
      cases hp : q.contains p with
      | true =>
        rw [if_pos rfl, ih, List.filter_cons_of_pos hp, List.take_succ_cons, List.map_cons]
        rfl
      | false =>
        rw [if_neg Bool.false_ne_true, ih, List.filter_cons_of_neg (by simp [hp])]

end Redis
end WarmFeed
