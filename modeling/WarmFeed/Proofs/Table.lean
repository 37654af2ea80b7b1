import Mathlib.Data.Finmap
import WarmFeed.Table

/-!
# Tables as finite maps

A table stands for the finite map with the same look-ups.  Setting and erasing
keep the keys apart, and in a table whose keys are apart the pairs are exactly
what the look-ups say.
-/

namespace WarmFeed
namespace Table

variable {κ β α : Type} [DecidableEq κ]

def toFinmap (t : Table κ β) : Finmap fun _ : κ => β :=
  (t.pairs.map fun p => (⟨p.1, p.2⟩ : (_ : κ) × β)).toFinmap

@[simp] theorem lookup_toFinmap (t : Table κ β) (k : κ) : t.toFinmap.lookup k = t.get? k := by
  rw [toFinmap, Finmap.dlookup_list_toFinmap, get?]
  induction t.pairs with
  | nil => rfl
  | cons p ps ih =>
    obtain ⟨a, b⟩ := p
    rw [lookup_cons_pair, List.map_cons]
    by_cases h : k = a
    · subst h
      rw [if_pos rfl, List.dlookup_cons_eq]
    · rw [if_neg h, List.dlookup_cons_ne _ _ h, ih]

theorem get?_eraseAll (f : α → κ) (l : List α) (t : Table κ β) (k : κ) :
    (l.foldl (fun t a => t.erase (f a)) t).get? k = if k ∈ l.map f then none else t.get? k := by
  induction l generalizing t with
  | nil => rfl
  | cons a l ih =>
    rw [List.foldl_cons, ih, get?_erase]
    by_cases h₁ : k ∈ l.map f <;> by_cases h₂ : k = f a <;> simp_all

def HasDistinctKeys (t : Table κ β) : Prop := t.keys.Nodup

theorem keys_setPairs (k : κ) (v : β) (ps : List (κ × β)) :
    (setPairs k v ps).map Prod.fst =
      if k ∈ ps.map Prod.fst then ps.map Prod.fst else ps.map Prod.fst ++ [k] := by
  induction ps with
  | nil => rfl
  | cons p ps ih =>
    by_cases h : p.1 = k
    · simp [setPairs, h]
    · have h' : ¬ k = p.1 := fun e => h e.symm
      by_cases hk : k ∈ ps.map Prod.fst
      · rw [if_pos hk] at ih
        rw [if_pos (by simp only [List.map_cons, List.mem_cons, hk, or_true])]
        simp only [setPairs, if_neg h, List.map_cons, ih]
      · rw [if_neg hk] at ih
        have hnew : k ∉ (p :: ps).map Prod.fst := by
          rw [List.map_cons, List.mem_cons, not_or]
          exact ⟨h', hk⟩
        rw [if_neg hnew]
        simp only [setPairs, if_neg h, List.map_cons, ih, List.cons_append]

theorem keys_set (t : Table κ β) (k : κ) (v : β) :
    (t.set k v).keys = if k ∈ t.keys then t.keys else t.keys ++ [k] := keys_setPairs k v t.pairs

theorem mem_keys_iff {t : Table κ β} {k : κ} : k ∈ t.keys ↔ (t.get? k).isSome = true := by
  rw [← Option.ne_none_iff_isSome, get?, ne_eq, List.lookup_eq_none_iff]
  simp [keys, @eq_comm _ k]

theorem setPairs_of_notMem {k : κ} (v : β) {ps : List (κ × β)} (h : k ∉ ps.map Prod.fst) :
    setPairs k v ps = ps ++ [(k, v)] := by
  induction ps with
  | nil => rfl
  | cons p ps ih =>
    rw [List.map_cons, List.mem_cons, not_or] at h
    rw [setPairs, if_neg (Ne.symm h.1), ih h.2]
    rfl

theorem mem_keys_set {t : Table κ β} {k k' : κ} {v : β} (h : k' ∈ (t.set k v).keys) :
    k' = k ∨ k' ∈ t.keys := by
  rw [keys_set] at h
  split at h
  · exact Or.inr h
  · rcases List.mem_append.mp h with h | h
    · exact Or.inr h
    · exact Or.inl (List.mem_singleton.mp h)

theorem mem_keys_erase {t : Table κ β} {k k' : κ} (h : k' ∈ (t.erase k).keys) : k' ∈ t.keys :=
  (List.Sublist.map Prod.fst List.filter_sublist).subset h

theorem HasDistinctKeys.set {t : Table κ β} (h : t.HasDistinctKeys) (k : κ) (v : β) :
    (t.set k v).HasDistinctKeys := by
  unfold HasDistinctKeys
  rw [keys_set]
  by_cases hk : k ∈ t.keys
  · rw [if_pos hk]
    exact h
  · rw [if_neg hk, List.nodup_append]
    refine ⟨h, List.nodup_singleton k, ?_⟩
    rintro a ha b hb rfl
    exact hk (List.mem_singleton.mp hb ▸ ha)

theorem HasDistinctKeys.erase {t : Table κ β} (h : t.HasDistinctKeys) (k : κ) :
    (t.erase k).HasDistinctKeys :=
  List.Nodup.sublist (List.Sublist.map Prod.fst List.filter_sublist) h

theorem HasDistinctKeys.eraseAll {t : Table κ β} (h : t.HasDistinctKeys) (f : α → κ)
    (l : List α) : (l.foldl (fun t a => t.erase (f a)) t).HasDistinctKeys := by
  induction l generalizing t with
  | nil => exact h
  | cons a l ih => exact ih (h.erase (f a))

omit [DecidableEq κ] in
theorem hasDistinctKeys_empty : (∅ : Table κ β).HasDistinctKeys := List.nodup_nil

theorem HasDistinctKeys.mem_pairs_iff {t : Table κ β} (h : t.HasDistinctKeys) {k : κ} {v : β} :
    (k, v) ∈ t.pairs ↔ t.get? k = some v := by
  obtain ⟨ps⟩ := t
  change (ps.map Prod.fst).Nodup at h
  show _ ∈ ps ↔ ps.lookup k = some v
  induction ps with
  | nil => simp
  | cons p ps ih =>
    obtain ⟨a, b⟩ := p
    rw [List.map_cons, List.nodup_cons] at h
    rw [List.mem_cons, lookup_cons_pair]
    by_cases hk : k = a
    · subst hk
      have hps : (k, v) ∉ ps := fun hmem => h.1 (List.mem_map.mpr ⟨(k, v), hmem, rfl⟩)
      simp [hps, eq_comm]
    · simp [hk, ih h.2]

/-- Of several pairs with one key in the list the last one counts. -/
theorem get?_setAll (t : Table κ β) (ps : List (κ × β)) (k : κ) :
    (t.setAll ps).get? k = ((ps.filter fun p => p.1 = k).getLast?.map Prod.snd).or (t.get? k) := by
  induction ps generalizing t with
  | nil => simp [setAll]
  | cons p ps ih =>
    show ((t.set p.1 p.2).setAll ps).get? k = _
    rw [ih, get?_set]
    by_cases hk : p.1 = k
    · cases hlast : (ps.filter fun p => p.1 = k).getLast? <;>
        simp [hk, hlast, List.getLast?_cons]
    · simp [hk, Ne.symm hk]

/-- If every pair of the list is one of a function, the keys of the list get the values
of that function. -/
theorem get?_setAll_of_forall {f : κ → Option β} {ps : List (κ × β)}
    (h : ∀ p ∈ ps, f p.1 = some p.2) (t : Table κ β) (k : κ) :
    (t.setAll ps).get? k = if k ∈ ps.map Prod.fst then f k else t.get? k := by
  induction ps generalizing t with
  | nil => rfl
  | cons p ps ih =>
    have hrest := ih (fun p' hp' => h p' (List.mem_cons_of_mem _ hp')) (t.set p.1 p.2)
    show ((t.set p.1 p.2).setAll ps).get? k = _
    rw [hrest, List.map_cons]
    by_cases hmem : k ∈ ps.map Prod.fst
    · rw [if_pos hmem, if_pos (List.mem_cons_of_mem _ hmem)]
    · rw [if_neg hmem, get?_set]
      by_cases hk : k = p.1
      · rw [if_pos hk, if_pos (hk ▸ List.mem_cons_self), hk, h p List.mem_cons_self]
      · rw [if_neg hk, if_neg]
        rw [List.mem_cons, not_or]
        exact ⟨hk, hmem⟩

theorem pairs_set_ne_nil (t : Table κ β) (k : κ) (v : β) : (t.set k v).pairs ≠ [] := by
  obtain ⟨ps⟩ := t
  cases ps with
  | nil => exact List.cons_ne_nil _ _
  | cons p ps =>
    unfold Table.set setPairs
    split <;> exact List.cons_ne_nil _ _

theorem pairs_setAll_ne_nil {t : Table κ β} {ps : List (κ × β)} (h : t.pairs ≠ [] ∨ ps ≠ []) :
    (t.setAll ps).pairs ≠ [] := by
  induction ps generalizing t with
  | nil => exact h.resolve_right fun hne => hne rfl
  | cons p ps ih => exact ih (Or.inl (t.pairs_set_ne_nil p.1 p.2))

theorem set_get? {t : Table κ β} {k : κ} {v : β} (h : t.get? k = some v) : t.set k v = t := by
  have hpairs : ∀ ps : List (κ × β), ps.lookup k = some v → setPairs k v ps = ps := by
    intro ps
    induction ps with
    | nil => simp
    | cons p ps ih =>
      obtain ⟨a, b⟩ := p
      intro hlookup
      rw [lookup_cons_pair] at hlookup
      by_cases hk : k = a
      · subst hk
        rw [if_pos rfl, Option.some.injEq] at hlookup
        simp only [setPairs, if_true, hlookup]
      · rw [if_neg hk] at hlookup
        simp only [setPairs, if_neg (Ne.symm hk), ih hlookup]
  exact congrArg Table.mk (hpairs t.pairs h)

end Table
end WarmFeed
