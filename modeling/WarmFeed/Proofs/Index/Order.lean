import Mathlib.Data.Prod.Lex
import Mathlib.Order.Compare
import WarmFeed.Index.Query

/-!
# The order of positions and of stored scores

Positions are linearly ordered: by the place of the score in the total order,
and for equal scores by identifier.  `isBefore` and `isAfter` are the two strict
sides of that order.

A score that is kept in an index is finite and not minus zero.  On such scores
the numeric comparisons are those of the total order, which is what makes a
store that compares numbers agree with one that compares positions.
-/

namespace WarmFeed

namespace Score

def IsStored (s : Score) : Prop := s.isFinite = true ∧ s ≠ negativeZero

theorem magnitude_negativeZero : negativeZero.magnitude = 0 := by decide

theorem isNegative_negativeZero : negativeZero.isNegative = true := by decide

theorem isFinite_zero : zero.isFinite = true := by decide

/-- Folding makes a finite score one that can be held. -/
theorem isStored_fold {s : Score} (h : s.isFinite = true) : s.fold.IsStored := by
  unfold fold
  by_cases hz : s = negativeZero
  · rw [if_pos hz]
    exact ⟨isFinite_zero, by decide⟩
  · rw [if_neg hz]
    exact ⟨h, hz⟩

/-- The only score of magnitude zero with a sign is minus zero. -/
theorem eq_negativeZero {s : Score} (hneg : s.isNegative = true) (hmag : s.magnitude = 0) :
    s = negativeZero := by
  apply rank_injective
  unfold rank
  rw [if_pos hneg, if_pos isNegative_negativeZero, hmag, magnitude_negativeZero]

theorem not_isNotANumber {s : Score} (h : s.isFinite = true) : s.isNotANumber = false := by
  simp only [isFinite, decide_eq_true_eq] at h
  simp only [isNotANumber, decide_eq_false_iff_not]
  omega

theorem below_eq {a b : Score} (ha : a.isNotANumber = false) (hb : b.isNotANumber = false) :
    a.below b = decide (a.signedMagnitude < b.signedMagnitude) := by
  simp [below, ha, hb]

theorem same_eq {a b : Score} (ha : a.isNotANumber = false) (hb : b.isNotANumber = false) :
    a.same b = decide (a.signedMagnitude = b.signedMagnitude) := by
  simp [same, ha, hb]

theorem below_iff {a b : Score} (ha : a.isFinite = true) (hb : b.isFinite = true) :
    a.below b = true ↔ a.signedMagnitude < b.signedMagnitude := by
  rw [below_eq (not_isNotANumber ha) (not_isNotANumber hb), decide_eq_true_eq]

theorem same_iff {a b : Score} (ha : a.isFinite = true) (hb : b.isFinite = true) :
    a.same b = true ↔ a.signedMagnitude = b.signedMagnitude := by
  rw [same_eq (not_isNotANumber ha) (not_isNotANumber hb), decide_eq_true_eq]

/-- The rank lies one below the signed magnitude exactly for scores with a sign. -/
theorem rank_eq (s : Score) :
    s.rank = if s.isNegative then s.signedMagnitude - 1 else s.signedMagnitude := by
  unfold rank signedMagnitude
  split <;> rfl

theorem signedMagnitude_nonneg {s : Score} (h : s.isNegative = false) : 0 ≤ s.signedMagnitude := by
  unfold signedMagnitude
  rw [h, if_neg Bool.false_ne_true]
  exact Int.natCast_nonneg _

theorem signedMagnitude_nonpos {s : Score} (h : s.isNegative = true) : s.signedMagnitude ≤ 0 := by
  unfold signedMagnitude
  rw [if_pos h]
  omega

/-- A held score with a sign is really negative. -/
theorem signedMagnitude_neg {s : Score} (hs : s.IsStored) (h : s.isNegative = true) :
    s.signedMagnitude < 0 := by
  have hmag : s.magnitude ≠ 0 := fun hz => hs.2 (eq_negativeZero h hz)
  unfold signedMagnitude
  rw [if_pos h]
  omega

/-- A score that is numerically lower stands lower in the total order, whatever zeros
are about. -/
theorem rank_lt_of_signedMagnitude_lt {a b : Score}
    (h : a.signedMagnitude < b.signedMagnitude) : a.rank < b.rank := by
  rw [rank_eq, rank_eq]
  cases ha : a.isNegative <;> cases hb : b.isNegative
  · simpa using h
  · have h₁ := signedMagnitude_nonneg ha
    have h₂ := signedMagnitude_nonpos hb
    omega
  · simp only [if_true, Bool.false_eq_true, if_false]
    omega
  · simpa using h

/-- A held score is numerically below another one exactly if it stands below it. -/
theorem signedMagnitude_lt_iff {a b : Score} (ha : a.IsStored) :
    a.signedMagnitude < b.signedMagnitude ↔ a.rank < b.rank := by
  refine ⟨rank_lt_of_signedMagnitude_lt, fun h => ?_⟩
  rw [rank_eq, rank_eq] at h
  cases hna : a.isNegative <;> cases hnb : b.isNegative <;>
    simp only [hna, hnb, if_true, Bool.false_eq_true, if_false] at h
  · exact h
  · have h₁ := signedMagnitude_nonneg hna
    have h₂ := signedMagnitude_nonpos hnb
    omega
  · have h₁ := signedMagnitude_neg ha hna
    have h₂ := signedMagnitude_nonneg hnb
    omega
  · omega

theorem signedMagnitude_inj {a b : Score} (ha : a.IsStored) (hb : b.IsStored) :
    a.signedMagnitude = b.signedMagnitude ↔ a = b := by
  refine ⟨fun h => rank_injective ?_, fun h => h ▸ rfl⟩
  have h₁ := (signedMagnitude_lt_iff (b := b) ha).not
  have h₂ := (signedMagnitude_lt_iff (b := a) hb).not
  omega

theorem signedMagnitude_fold (s : Score) : s.fold.signedMagnitude = s.signedMagnitude := by
  unfold fold
  by_cases h : s = negativeZero
  · rw [if_pos h, h]
    decide
  · rw [if_neg h]

/-- A held score is the same number as a finite one exactly when that one is held as it. -/
theorem same_iff_eq_fold {a b : Score} (ha : a.IsStored) (hb : b.isFinite = true) :
    a.same b = true ↔ a = b.fold := by
  rw [same_iff ha.1 hb, ← signedMagnitude_fold b, signedMagnitude_inj ha (isStored_fold hb)]

end Score

namespace Position

def sortKey (p : Position) : ℤ ×ₗ ℕ := toLex (p.score.rank, p.id.toNat)

theorem sortKey_injective : Function.Injective sortKey := by
  rintro ⟨s, i⟩ ⟨t, j⟩ h
  obtain ⟨hs, hi⟩ := Prod.mk.inj (toLex.injective h)
  exact congrArg₂ mk (Score.rank_injective hs) (UInt64.toNat_inj.mp hi)

instance : LinearOrder Position := LinearOrder.lift' sortKey sortKey_injective

theorem lt_iff {a b : Position} :
    a < b ↔ a.score.rank < b.score.rank ∨ (a.score = b.score ∧ a.id.toNat < b.id.toNat) := by
  show a.sortKey < b.sortKey ↔ _
  rw [Prod.Lex.lt_iff]
  simp only [sortKey, ofLex_toLex]
  exact or_congr_right (and_congr_left fun _ => ⟨Score.rank_injective, fun h => by rw [h]⟩)

theorem compare_id (i j : ContentId) : compare i j = compare i.toNat j.toNat := by
  simp only [compare, compareOfLessAndEq, UInt64.lt_iff_toNat_lt, ← UInt64.toNat_inj]

theorem order_eq_compare (a b : Position) : a.order b = compare a b := by
  show _ = compare a.sortKey b.sortKey
  rw [order, Score.order, compare_id]
  simp only [sortKey, Prod.Lex.compare_def, compareLex, compareOn, ofLex_toLex]

@[simp] theorem isBefore_iff {a b : Position} : a.isBefore b = true ↔ a < b := by
  rw [isBefore, order_eq_compare, beq_iff_eq, compare_lt_iff_lt]

@[simp] theorem isAfter_iff {a b : Position} : a.isAfter b = true ↔ b < a := by
  rw [isAfter, order_eq_compare, beq_iff_eq, compare_gt_iff_gt]

/-- Lower positions have no greater scores. -/
theorem signedMagnitude_le_of_lt {a b : Position} (h : a < b) :
    a.score.signedMagnitude ≤ b.score.signedMagnitude := by
  by_contra hlt
  have hrank := Score.rank_lt_of_signedMagnitude_lt (not_le.mp hlt)
  rcases lt_iff.mp h with h | ⟨h, -⟩
  · exact lt_asymm h hrank
  · rw [h] at hrank
    exact lt_irrefl _ hrank

theorem lt_of_signedMagnitude_lt {a b : Position}
    (h : a.score.signedMagnitude < b.score.signedMagnitude) : a < b :=
  lt_iff.mpr (Or.inl (Score.rank_lt_of_signedMagnitude_lt h))

end Position
end WarmFeed
