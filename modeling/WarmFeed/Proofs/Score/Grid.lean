import WarmFeed.Proofs.Score.Quotient

/-!
# Coarse scores and shrinking ones

A whole multiple of a power of two stays one when it is rounded.  So scores that are made of coarse
numbers by sums and products are zero or not very close to zero, and such a score comes closer to
zero with every factor that is clearly below one.  Factors that are close to one, or scores that
are close to zero, can be lost in the rounding.
-/

namespace WarmFeed
namespace Score

/-- A score that is a whole multiple of two to the `g`, if it is finite. -/
def OnGrid (g : ℤ) (s : Score) : Prop := s.isFinite = true → ∃ k : ℤ, s.value = k * 2 ^ g

section Coarse

variable {a b s : Score} {g : ℤ}

theorem onGrid_of_abs (h : s.isFinite = true → ∃ k : ℤ, |s.value| = k * 2 ^ g) : OnGrid g s := by
  intro hfinite
  obtain ⟨k, hk⟩ := h hfinite
  cases hneg : s.isNegative with
  | false => exact ⟨k, (value_of_not_isNegative hneg).trans hk⟩
  | true =>
    refine ⟨-k, (value_of_isNegative hneg).trans ?_⟩
    rw [hk]
    push_cast
    ring

theorem onGrid_of_exponent (h : s.significand = 0 ∨ g ≤ s.exponent) : OnGrid g s := by
  intro _
  obtain hzero | hcoarse := h
  · exact ⟨0, by simp [value, hzero]⟩
  · exact exists_multiple hcoarse

/-- Rounding does not leave the grid: the last bit that is kept is no finer, or nothing is
rounded. -/
theorem onGrid_round (negative : Bool) {q : ℚ} {k : ℤ} (hq : 0 ≤ q) (hk : q = k * 2 ^ g) :
    OnGrid g (ofMagnitude negative (roundMagnitude q)) := by
  refine onGrid_of_abs fun hfinite => ?_
  rw [isFinite_iff, magnitude_ofMagnitude (roundMagnitude_lt_sign q)] at hfinite
  rw [abs_value_round negative hq hfinite]
  obtain hfine | hcoarse := le_total (gridExponent q) g
  · obtain ⟨n, hn⟩ := Int.eq_ofNat_of_zero_le (sub_nonneg.mpr hfine)
    have hpower : (2 : ℚ) ^ g = 2 ^ n * 2 ^ gridExponent q := by
      rw [← zpow_natCast, ← hn, ← zpow_add₀ two_ne_zero, sub_add_cancel]
    have hkpos : 0 ≤ k := by
      by_contra hneg
      have hkq : (k : ℚ) < 0 := by exact_mod_cast not_le.mp hneg
      have := mul_neg_of_neg_of_pos hkq (zpow_pos (two_pos : (0 : ℚ) < 2) g)
      linarith
    obtain ⟨m, rfl⟩ := Int.eq_ofNat_of_zero_le hkpos
    have hwhole : q / 2 ^ gridExponent q = (m * 2 ^ n : ℕ) := by
      rw [div_eq_iff (zpow_pos two_pos _).ne']
      refine hk.trans ?_
      rw [hpower]
      push_cast
      ring
    refine ⟨m, ?_⟩
    rw [gridSignificand, hwhole, nearestTo_natCast, hpower]
    push_cast
    ring
  · obtain ⟨n, hn⟩ := Int.eq_ofNat_of_zero_le (sub_nonneg.mpr hcoarse)
    refine ⟨gridSignificand q * 2 ^ n, ?_⟩
    push_cast
    rw [← zpow_natCast, ← hn, mul_assoc, ← zpow_add₀ two_ne_zero, sub_add_cancel]

theorem onGrid_ofInt (n : ℤ) : OnGrid 0 (ofInt n) := by
  unfold ofInt
  rw [ofRatio_eq _ _ one_pos]
  exact onGrid_round _ (by positivity) (k := n.natAbs) (by simp)

theorem OnGrid.mul (ha : OnGrid g a) (hb : OnGrid 0 b) : OnGrid g (a * b) := by
  intro hfinite
  obtain ⟨hfa, hfb⟩ := finite_of_mul hfinite
  obtain ⟨k, hk⟩ := ha hfa
  obtain ⟨l, hl⟩ := hb hfb
  rw [mul_eq hfa hfb] at hfinite ⊢
  refine onGrid_round _ (mul_nonneg (abs_nonneg _) (abs_nonneg _)) (k := |k * l|) ?_ hfinite
  rw [hk, hl, ← abs_mul, zpow_zero, mul_one, mul_right_comm, abs_mul _ (2 ^ g),
    abs_of_pos (zpow_pos (two_pos : (0 : ℚ) < 2) g)]
  push_cast
  rfl

theorem OnGrid.add (ha : OnGrid g a) (hb : OnGrid g b) : OnGrid g (a + b) := by
  intro hfinite
  obtain ⟨hfa, hfb⟩ := finite_of_add hfinite
  obtain ⟨k, hk⟩ := ha hfa
  obtain ⟨l, hl⟩ := hb hfb
  obtain ⟨negative, hsum⟩ := add_eq hfa hfb
  rw [hsum] at hfinite ⊢
  refine onGrid_round _ (abs_nonneg _) (k := |k + l|) ?_ hfinite
  rw [hk, hl, ← add_mul, abs_mul, abs_of_pos (zpow_pos (two_pos : (0 : ℚ) < 2) g)]
  push_cast
  rfl

/-- A score of the grid that is not zero is as far from zero as the grid is wide. -/
theorem OnGrid.le_abs_value (h : OnGrid g s) (hfinite : s.isFinite = true) (hs : s.value ≠ 0) :
    2 ^ g ≤ |s.value| := by
  obtain ⟨k, hk⟩ := h hfinite
  have hk0 : k ≠ 0 := by
    rintro rfl
    simp [hk] at hs
  have hone : (1 : ℚ) ≤ |(k : ℚ)| := by exact_mod_cast Int.one_le_abs hk0
  rw [hk, abs_mul, abs_of_pos (zpow_pos (two_pos : (0 : ℚ) < 2) g)]
  exact le_mul_of_one_le_left (zpow_pos two_pos g).le hone

end Coarse

/-! ## Shrinking -/

section Shrinking

variable {a b f g : Score} {q : ℚ}

/-- Rounding goes up by at most half of the last bit. -/
theorem round_le (hq : 0 ≤ q) :
    gridSignificand q * 2 ^ gridExponent q ≤ q + 2 ^ gridExponent q / 2 := by
  have hpower : (0 : ℚ) < 2 ^ gridExponent q := zpow_pos two_pos _
  have hnear := nearestTo_le (div_nonneg hq hpower.le)
  calc (gridSignificand q : ℚ) * 2 ^ gridExponent q
      ≤ (q / 2 ^ gridExponent q + 1 / 2) * 2 ^ gridExponent q :=
        mul_le_mul_of_nonneg_right hnear hpower.le
    _ = q + 2 ^ gridExponent q / 2 := by
        rw [add_mul, div_mul_cancel₀ _ hpower.ne', one_div_mul_eq_div]

/-- The last bit of a number that is not very close to zero is small beside it. -/
theorem pow_gridExponent_le (hq : 2 ^ (-1000 : ℤ) ≤ q) : 2 ^ gridExponent q ≤ q / 2 := by
  have hpos : 0 < q := (zpow_pos two_pos _).trans_le hq
  have hlog : -1000 ≤ Int.log 2 q := by
    rw [← Int.zpow_le_iff_le_log one_lt_two hpos]
    exact_mod_cast hq
  have hlow : ((2 : ℕ) : ℚ) ^ Int.log 2 q ≤ q := Int.zpow_log_le_self one_lt_two hpos
  have hpower : (2 : ℚ) ^ gridExponent q ≤ 2 ^ (Int.log 2 q - 1) := by
    refine zpow_le_zpow_right₀ one_le_two ?_
    unfold gridExponent
    omega
  rw [Nat.cast_ofNat] at hlow
  rw [zpow_sub_one₀ two_ne_zero] at hpower
  linarith

/-- A score that is not very close to zero is above what is left when a quarter of it is taken
away. -/
theorem roundMagnitude_lt (ha : a.isFinite = true) (hlarge : 2 ^ (-999 : ℤ) ≤ |a.value|)
    (hq : 0 ≤ q) (h : q ≤ 3 / 4 * |a.value|) : roundMagnitude q < a.magnitude := by
  have hpos : 0 < |a.value| := (zpow_pos two_pos _).trans_le hlarge
  refine (roundMagnitude_mono hq h).trans_lt ?_
  generalize hp : 3 / 4 * |a.value| = p
  have hp0 : 0 ≤ p := by linarith
  have hlarge' : 2 ^ (-1000 : ℤ) ≤ p := by
    have hhalf : (2 : ℚ) ^ (-1000 : ℤ) = 2 ^ (-999 : ℤ) / 2 := by
      rw [show (-1000 : ℤ) = -999 - 1 by decide, zpow_sub_one₀ two_ne_zero, div_eq_mul_inv]
    linarith
  by_contra hge
  have hmono : roundMagnitude p ≤ a.magnitude := by
    rw [← roundMagnitude_value ha]
    exact roundMagnitude_mono hp0 (by linarith)
  have hsame : (ofMagnitude false (roundMagnitude p)).magnitude = roundMagnitude p :=
    magnitude_ofMagnitude (roundMagnitude_lt_sign p)
  have hsmall : roundMagnitude p < infiniteMagnitude := hmono.trans_lt (isFinite_iff.mp ha)
  have hle := (magnitude_le_iff ha (isFinite_iff.mpr (hsame.trans_lt hsmall))).mp
    ((not_lt.mp hge).trans_eq hsame.symm)
  rw [abs_value_round false hp0 hsmall] at hle
  have hround := round_le hp0
  have hbit := pow_gridExponent_le hlarge'
  linarith

/-- A factor that brings scores towards zero: at most three quarters, and without a sign. -/
structure Shrinks (f : Score) : Prop where
  finite : f.isFinite = true
  nonneg : f.isNegative = false
  le : f.value ≤ 3 / 4

namespace Shrinks

variable (hf : Shrinks f) (ha : a.isFinite = true)

include hf

theorem value_nonneg : 0 ≤ f.value := Score.value_nonneg hf.nonneg

include ha

theorem mul_eq : a * f = ofMagnitude a.isNegative (roundMagnitude (|a.value| * f.value)) := by
  rw [Score.mul_eq ha hf.finite, hf.nonneg, Bool.bne_false, abs_of_nonneg hf.value_nonneg]

theorem isNegative_mul : (a * f).isNegative = a.isNegative := by
  rw [hf.mul_eq ha, isNegative_ofMagnitude (roundMagnitude_lt_sign _)]

theorem magnitude_mul : (a * f).magnitude = roundMagnitude (|a.value| * f.value) := by
  rw [hf.mul_eq ha, magnitude_ofMagnitude (roundMagnitude_lt_sign _)]

theorem magnitude_mul_le : (a * f).magnitude ≤ a.magnitude := by
  have hle := hf.le
  have hexact : |a.value| * f.value ≤ |a.value| :=
    mul_le_of_le_one_right (abs_nonneg _) (by linarith)
  rw [hf.magnitude_mul ha, ← roundMagnitude_value ha]
  exact roundMagnitude_mono (mul_nonneg (abs_nonneg _) hf.value_nonneg) hexact

theorem isFinite_mul : (a * f).isFinite = true :=
  isFinite_iff.mpr ((hf.magnitude_mul_le ha).trans_lt (isFinite_iff.mp ha))

/-- Only a score that is very close to zero can stay as it is. -/
theorem magnitude_mul_lt (hlarge : 2 ^ (-999 : ℤ) ≤ |a.value|) :
    (a * f).magnitude < a.magnitude := by
  rw [hf.magnitude_mul ha]
  refine roundMagnitude_lt ha hlarge (mul_nonneg (abs_nonneg _) hf.value_nonneg) ?_
  rw [mul_comm]
  exact mul_le_mul_of_nonneg_right hf.le (abs_nonneg _)

end Shrinks

theorem Shrinks.mul (hf : Shrinks f) (ha : Shrinks a) : Shrinks (f * a) where
  finite := ha.isFinite_mul hf.finite
  nonneg := (ha.isNegative_mul hf.finite).trans hf.nonneg
  le := by
    have hless := (magnitude_le_iff (ha.isFinite_mul hf.finite) hf.finite).mp
      (ha.magnitude_mul_le hf.finite)
    rw [abs_of_nonneg hf.value_nonneg] at hless
    exact (le_abs_self _).trans (hless.trans hf.le)

/-- Products stand in the order of what is multiplied. -/
theorem Shrinks.magnitude_mul_mono (hf : Shrinks f) (hg : Shrinks g) (ha : a.isFinite = true)
    (hb : b.isFinite = true) (hle : |a.value| ≤ |b.value|) (hfg : f.value ≤ g.value) :
    (a * f).magnitude ≤ (b * g).magnitude := by
  rw [hf.magnitude_mul ha, hg.magnitude_mul hb]
  exact roundMagnitude_mono (mul_nonneg (abs_nonneg _) hf.value_nonneg)
    (mul_le_mul hle hfg hf.value_nonneg (abs_nonneg _))

end Shrinking

end Score
end WarmFeed
