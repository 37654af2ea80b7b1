import Mathlib.Data.List.Basic

/-!
# First occurrences

Several passes go through a list once and keep each thing where it comes up first, with a list of
what was seen before.  What they keep is the list without repeats, `eraseDups`, and in it things
stand in the order of the places where they came up.
-/

namespace WarmFeed

variable {α β : Type} [DecidableEq β]

theorem nodup_eraseDups (l : List β) : l.eraseDups.Nodup := by
  match l with
  | [] => exact .nil
  | b :: rest =>
    rw [List.eraseDups_cons, List.nodup_cons, List.mem_eraseDups, List.mem_filter]
    exact ⟨by simp, nodup_eraseDups _⟩
termination_by l.length
decreasing_by exact Nat.lt_succ_of_le (List.length_filter_le _ _)

/-- What is not seen yet is kept, and is seen from there on. -/
theorem eraseDups_unseen_cons {b : β} {seen : List β} (seen' : List β) (hb : b ∉ seen)
    (hseen : ∀ c, c ∈ seen' ↔ c = b ∨ c ∈ seen) (l : List β) :
    ((b :: l).filter (· ∉ seen)).eraseDups = b :: (l.filter (· ∉ seen')).eraseDups := by
  rw [List.filter_cons_of_pos (by simpa using hb), List.eraseDups_cons, List.filter_filter]
  congr 2
  refine List.filter_congr fun c _ => ?_
  by_cases hc : c = b <;> simp [hc, hseen]

section Places

variable {f : α → Option β} {a : α} {b : β}

theorem findIdx_cons_of_ne (h : f a ≠ some b) (l : List α) :
    (a :: l).findIdx (fun x => f x = some b) = l.findIdx (fun x => f x = some b) + 1 := by
  simp [List.findIdx_cons, h]

theorem findIdx_cons_of_eq (h : f a = some b) (l : List α) :
    (a :: l).findIdx (fun x => f x = some b) = 0 := by
  simp [List.findIdx_cons, h]

/-- Of what was not seen before, each stands after those that come up before it. -/
theorem pairwise_findIdx_unseen (f : α → Option β) (l : List α) (seen : List β) :
    ((l.filterMap f).filter (· ∉ seen)).eraseDups.Pairwise fun b c =>
      l.findIdx (fun x => f x = some b) < l.findIdx (fun x => f x = some c) := by
  induction l generalizing seen with
  | nil => exact .nil
  | cons a l ih =>
    -- What the head leads to is among what is seen, so it only moves the places of the others.
    have hlater : ∀ seen' : List β, (∀ b, f a = some b → b ∈ seen') →
        ((l.filterMap f).filter (· ∉ seen')).eraseDups.Pairwise fun b c =>
          (a :: l).findIdx (fun x => f x = some b) < (a :: l).findIdx (fun x => f x = some c) := by
      intro seen' hseen
      refine (ih seen').imp_of_mem fun {b c} hb hc hless => ?_
      simp only [List.mem_eraseDups, List.mem_filter, decide_eq_true_eq] at hb hc
      rw [findIdx_cons_of_ne fun h => hb.2 (hseen b h), findIdx_cons_of_ne fun h => hc.2 (hseen c h)]
      exact Nat.succ_lt_succ hless
    cases ha : f a with
    | none =>
      rw [List.filterMap_cons_none ha]
      exact hlater seen fun b hb => absurd (ha.symm.trans hb) (Option.some_ne_none b).symm
    | some b =>
      have hhead : ∀ c, f a = some c → c = b := fun c hc => Option.some.inj (hc.symm.trans ha)
      rw [List.filterMap_cons_some ha]
      by_cases hb : b ∈ seen
      · rw [List.filter_cons_of_neg (by simpa using hb)]
        exact hlater seen fun c hc => hhead c hc ▸ hb
      · rw [eraseDups_unseen_cons (b :: seen) hb fun _ => List.mem_cons]
        have hrest := hlater (b :: seen) fun c hc => hhead c hc ▸ List.mem_cons_self
        refine List.pairwise_cons.mpr ⟨fun c hc => ?_, hrest⟩
        simp only [List.mem_eraseDups, List.mem_filter, decide_eq_true_eq] at hc
        have hne : f a ≠ some c := fun h => hc.2 (hhead c h ▸ List.mem_cons_self)
        rw [findIdx_cons_of_eq ha, findIdx_cons_of_ne hne]
        exact Nat.succ_pos _

end Places
end WarmFeed
