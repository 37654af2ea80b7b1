import Mathlib.Algebra.Order.Field.Rat
import Mathlib.Algebra.Order.Floor.Semifield
import Mathlib.Data.Int.Log
import Mathlib.Data.Rat.Floor
import Mathlib.Tactic.Linarith
import Mathlib.Tactic.Positivity
import Mathlib.Tactic.Ring
import WarmFeed.Proofs.Score.Whole

/-!
# Rounding a quotient

Every result of the arithmetic is an exact quotient that is rounded once, and what it is rounded to
is told by the quotient alone: `roundMagnitude`.  Rounding keeps the order of quotients, and the
value of a finite score is rounded to that score.  So products and sums can be compared by their
values.
-/

namespace WarmFeed
namespace Score

/-! ## The parts of a score -/

section Parts

variable {s : Score} {negative : Bool} {m : Nat}

def value (s : Score) : ℚ :=
  (if s.isNegative then -1 else 1) * s.significand * 2 ^ s.exponent

theorem significand_lt (s : Score) : s.significand < 2 ^ 53 := by
  have hbit : 2 * hiddenBit = 2 ^ 53 := by decide
  have hmod : s.magnitude % hiddenBit < hiddenBit := Nat.mod_lt _ (by decide)
  have hdiv := Nat.div_add_mod s.magnitude hiddenBit
  unfold significand
  split
  · next hzero =>
    rw [hzero, Nat.mul_zero, Nat.zero_add] at hdiv
    omega
  · omega

/-- The parts of a score that is not a number close to zero. -/
theorem parts_of_magnitude {e f : Nat} (h : s.magnitude = (e + 1) * hiddenBit + f)
    (hf : f < hiddenBit) : s.significand = hiddenBit + f ∧ s.exponent = (e : ℤ) - 1074 := by
  have hbit : 0 < hiddenBit := by decide
  have hdiv : s.magnitude / hiddenBit = e + 1 := by
    rw [h, Nat.mul_comm, Nat.mul_add_div hbit, Nat.div_eq_of_lt hf, Nat.add_zero]
  have hmod : s.magnitude % hiddenBit = f := by
    rw [h, Nat.mul_comm, Nat.mul_add_mod, Nat.mod_eq_of_lt hf]
  unfold significand exponent
  rw [hdiv, hmod, if_neg (Nat.succ_ne_zero e), if_neg (Nat.succ_ne_zero e)]
  exact ⟨rfl, by omega⟩

theorem parts_of_small (h : s.magnitude < hiddenBit) :
    s.significand = s.magnitude ∧ s.exponent = -1074 := by
  unfold significand exponent
  rw [Nat.div_eq_of_lt h, if_pos rfl, if_pos rfl]
  exact ⟨rfl, rfl⟩

/-- The parts make up the magnitude, and below the hidden bit the exponent is the least one. -/
theorem magnitude_eq_parts (s : Score) :
    s.magnitude = (s.exponent + 1074).toNat * hiddenBit + s.significand ∧
      -1074 ≤ s.exponent ∧ (hiddenBit ≤ s.significand ∨ s.exponent = -1074) := by
  have hdiv := Nat.div_add_mod s.magnitude hiddenBit
  unfold significand exponent
  by_cases hsmall : s.magnitude / hiddenBit = 0
  · rw [if_pos hsmall, if_pos hsmall]
    simp
  · obtain ⟨e, he⟩ := Nat.exists_eq_succ_of_ne_zero hsmall
    rw [if_neg hsmall, if_neg hsmall, he]
    rw [he, Nat.mul_comm, Nat.succ_mul] at hdiv
    have hexponent : (((e + 1 : ℕ) : ℤ) - 1075 + 1074).toNat = e := by omega
    rw [hexponent]
    exact ⟨by omega, by omega, .inl (Nat.le_add_right _ _)⟩

theorem abs_value (s : Score) : |s.value| = s.significand * 2 ^ s.exponent := by
  have hsign : |(if s.isNegative then (-1 : ℚ) else 1)| = 1 := by
    split
    · rw [abs_neg, abs_one]
    · exact abs_one
  rw [value, abs_mul, abs_mul, hsign, one_mul, Nat.abs_cast, abs_of_pos (zpow_pos two_pos _)]

/-- A score is a whole multiple of every power of two that is no greater than its last bit. -/
theorem exists_multiple {g : ℤ} (h : g ≤ s.exponent) : ∃ k : ℤ, s.value = k * 2 ^ g := by
  obtain ⟨n, hn⟩ := Int.eq_ofNat_of_zero_le (sub_nonneg.mpr h)
  have hexponent : s.exponent = n + g := by omega
  refine ⟨(if s.isNegative then -1 else 1) * s.significand * 2 ^ n, ?_⟩
  rw [value, hexponent, zpow_add₀ two_ne_zero, zpow_natCast]
  push_cast
  ring

theorem value_of_isNegative (h : s.isNegative = true) : s.value = -|s.value| := by
  rw [abs_value, value, if_pos h]
  ring

theorem value_of_not_isNegative (h : s.isNegative = false) : s.value = |s.value| := by
  rw [abs_value, value, if_neg (by simp [h])]
  ring

theorem value_nonneg (h : s.isNegative = false) : 0 ≤ s.value :=
  (abs_nonneg _).trans_eq (value_of_not_isNegative h).symm

theorem value_nonpos (h : s.isNegative = true) : s.value ≤ 0 := by
  rw [value_of_isNegative h]
  exact neg_nonpos.mpr (abs_nonneg _)

theorem value_zero : zero.value = 0 := by
  have hsignificand : zero.significand = 0 := by decide
  rw [value, hsignificand, Nat.cast_zero, mul_zero, zero_mul]

theorem toNat_bits_ofMagnitude (hm : m < 0x8000000000000000) :
    (ofMagnitude negative m).bits.toNat = if negative then 0x8000000000000000 + m else m := by
  refine UInt64.toNat_ofNat'.trans (Nat.mod_eq_of_lt ?_)
  split <;> omega

theorem magnitude_ofMagnitude (hm : m < 0x8000000000000000) :
    (ofMagnitude negative m).magnitude = m := by
  rw [magnitude, toNat_bits_ofMagnitude hm]
  split <;> omega

theorem isNegative_ofMagnitude (hm : m < 0x8000000000000000) :
    (ofMagnitude negative m).isNegative = negative := by
  rw [isNegative, toNat_bits_ofMagnitude hm]
  cases negative
  · simpa using hm
  · simp

end Parts

/-! ## The nearest whole number -/

/-- The whole number nearest to a quotient, a half going to the even neighbour. -/
def nearestTo (q : ℚ) : ℕ :=
  if 2 * (q - ⌊q⌋₊) < 1 then ⌊q⌋₊
  else if 1 < 2 * (q - ⌊q⌋₊) then ⌊q⌋₊ + 1
  else ⌊q⌋₊ + ⌊q⌋₊ % 2

section NearestTo

variable {p q : ℚ}

theorem nearestTo_div (a : ℕ) {b : ℕ} (hb : 0 < b) : nearestTo (a / b) = nearest a b := by
  have hpos : (0 : ℚ) < b := by exact_mod_cast hb
  have hrest : (a / b : ℚ) - (a / b : ℕ) = (a % b : ℕ) / b := by
    rw [eq_div_iff hpos.ne', sub_mul, div_mul_cancel₀ _ hpos.ne', sub_eq_iff_eq_add']
    exact_mod_cast (Nat.div_add_mod' a b).symm
  have hdouble : 2 * ((a % b : ℕ) / b : ℚ) = (2 * (a % b) : ℕ) / b := by
    push_cast
    ring
  unfold nearestTo nearest
  rw [Nat.floor_div_eq_div, hrest, hdouble]
  simp only [div_lt_one hpos, one_lt_div hpos, Nat.cast_lt]

theorem floor_le_nearestTo (q : ℚ) : ⌊q⌋₊ ≤ nearestTo q := by
  unfold nearestTo
  split
  · exact le_refl _
  · split <;> omega

theorem nearestTo_le_floor (q : ℚ) : nearestTo q ≤ ⌊q⌋₊ + 1 := by
  unfold nearestTo
  split
  · omega
  · split <;> omega

theorem nearestTo_mono (h : p ≤ q) : nearestTo p ≤ nearestTo q := by
  obtain hless | hsame := Nat.lt_or_eq_of_le (Nat.floor_mono h)
  · exact (nearestTo_le_floor p).trans (hless.trans_le (floor_le_nearestTo q))
  · have hrest : p - ⌊q⌋₊ ≤ q - ⌊q⌋₊ := by linarith
    unfold nearestTo
    rw [hsame]
    split
    · split
      · exact le_refl _
      · split <;> omega
    · split
      · split
        · linarith
        · split
          · exact le_refl _
          · linarith
      · split
        · linarith
        · split <;> omega

@[simp] theorem nearestTo_natCast (n : ℕ) : nearestTo n = n := by
  simp [nearestTo]

/-- Rounding goes up by at most a half. -/
theorem nearestTo_le (hq : 0 ≤ q) : (nearestTo q : ℚ) ≤ q + 1 / 2 := by
  have hfloor := Nat.floor_le hq
  have hparity : ((⌊q⌋₊ % 2 : ℕ) : ℚ) ≤ 1 := by
    exact_mod_cast Nat.le_of_lt_succ (Nat.mod_lt ⌊q⌋₊ two_pos)
  unfold nearestTo
  split
  · linarith
  · split
    · push_cast
      linarith
    · push_cast at hparity ⊢
      linarith

end NearestTo

/-! ## The exponent -/

/-- The exponent of the last bit that a score nearest to the quotient has. -/
def gridExponent (q : ℚ) : ℤ := max (Int.log 2 q - 52) (-1074)

theorem gridExponent_mono {p q : ℚ} (hp : 0 < p) (h : p ≤ q) :
    gridExponent p ≤ gridExponent q := by
  have hlog := Int.log_mono_right (b := 2) hp h
  unfold gridExponent
  omega

theorem scaleDown_div (a : ℕ) {b : ℕ} (hb : 0 < b) (e : ℤ) :
    0 < (scaleDown a b e).2 ∧
      ((scaleDown a b e).1 : ℚ) / (scaleDown a b e).2 = a / b / 2 ^ e := by
  unfold scaleDown
  by_cases he : 0 ≤ e
  · rw [if_pos he]
    obtain ⟨n, rfl⟩ := Int.eq_ofNat_of_zero_le he
    refine ⟨Nat.mul_pos hb (Nat.two_pow_pos _), ?_⟩
    rw [Int.toNat_natCast, zpow_natCast, div_div]
    push_cast [Nat.pow_eq]
    rfl
  · rw [if_neg he]
    obtain ⟨n, hn⟩ := Int.eq_ofNat_of_zero_le (show 0 ≤ -e by omega)
    obtain rfl : e = -(n : ℤ) := by omega
    refine ⟨hb, ?_⟩
    rw [neg_neg, Int.toNat_natCast, zpow_neg, zpow_natCast, div_inv_eq_mul]
    push_cast [Nat.pow_eq]
    ring

theorem exponentFor_eq {a b : ℕ} (ha : 0 < a) (hb : 0 < b) :
    exponentFor a b = gridExponent (a / b) := by
  have haq : (0 : ℚ) < a := by exact_mod_cast ha
  have hbq : (0 : ℚ) < b := by exact_mod_cast hb
  have hq : (0 : ℚ) < a / b := div_pos haq hbq
  obtain ⟨hpos, hscaled⟩ := scaleDown_div a hb ((Nat.log2 a : ℤ) - Nat.log2 b)
  generalize hl : (Nat.log2 a : ℤ) - Nat.log2 b = l at hpos hscaled
  have hposq : (0 : ℚ) < (scaleDown a b l).2 := by exact_mod_cast hpos
  -- The logarithm of the quotient is the difference of the two logarithms or one less.
  have hlow : l - 1 ≤ Int.log 2 (a / b : ℚ) := by
    rw [← Int.zpow_le_iff_le_log one_lt_two hq, le_div_iff₀ hbq]
    have hb2 : (b : ℚ) < 2 ^ ((Nat.log2 b : ℤ) + 1) := by
      exact_mod_cast Nat.lt_log2_self
    have ha2 : (2 : ℚ) ^ (Nat.log2 a : ℤ) ≤ a := by
      exact_mod_cast Nat.log2_self_le ha.ne'
    calc ((2 : ℕ) : ℚ) ^ (l - 1) * b
        ≤ 2 ^ (l - 1) * 2 ^ ((Nat.log2 b : ℤ) + 1) := by
          rw [Nat.cast_ofNat]
          exact mul_le_mul_of_nonneg_left hb2.le (zpow_pos two_pos _).le
      _ = 2 ^ (Nat.log2 a : ℤ) := by
          rw [← zpow_add₀ two_ne_zero]
          congr 1
          omega
      _ ≤ a := ha2
  have hhigh : Int.log 2 (a / b : ℚ) < l + 1 := by
    rw [← Int.lt_zpow_iff_log_lt one_lt_two hq, div_lt_iff₀ hbq]
    have ha2 : (a : ℚ) < 2 ^ ((Nat.log2 a : ℤ) + 1) := by
      exact_mod_cast Nat.lt_log2_self
    have hb2 : (2 : ℚ) ^ (Nat.log2 b : ℤ) ≤ b := by
      exact_mod_cast Nat.log2_self_le hb.ne'
    calc (a : ℚ) < 2 ^ ((Nat.log2 a : ℤ) + 1) := ha2
      _ = 2 ^ (l + 1) * 2 ^ (Nat.log2 b : ℤ) := by
          rw [← zpow_add₀ two_ne_zero]
          congr 1
          omega
      _ ≤ ((2 : ℕ) : ℚ) ^ (l + 1) * b := by
          rw [Nat.cast_ofNat]
          exact mul_le_mul_of_nonneg_left hb2 (zpow_pos two_pos _).le
  have htest : (scaleDown a b l).2 ≤ (scaleDown a b l).1 ↔ l ≤ Int.log 2 (a / b : ℚ) := by
    rw [← Int.zpow_le_iff_le_log one_lt_two hq, Nat.cast_ofNat,
      ← one_le_div (zpow_pos (two_pos : (0 : ℚ) < 2) l), ← hscaled, one_le_div hposq, Nat.cast_le]
  unfold exponentFor gridExponent
  dsimp only
  rw [hl]
  by_cases hle : l ≤ Int.log 2 (a / b : ℚ)
  · rw [if_pos (htest.mpr hle)]
    omega
  · rw [if_neg (mt htest.mp hle)]
    omega

/-! ## The rounded quotient -/

/-- The significand of the score nearest to a quotient, before it carries into the exponent. -/
def gridSignificand (q : ℚ) : ℕ := nearestTo (q / 2 ^ gridExponent q)

def roundMagnitude (q : ℚ) : ℕ :=
  if q = 0 then 0
  else min ((gridExponent q + 1074).toNat * hiddenBit + gridSignificand q) infiniteMagnitude

theorem ofRatio_eq (negative : Bool) (a : ℕ) {b : ℕ} (hb : 0 < b) :
    ofRatio negative a b = ofMagnitude negative (roundMagnitude (a / b)) := by
  have hbq : (b : ℚ) ≠ 0 := by exact_mod_cast hb.ne'
  unfold ofRatio roundMagnitude gridSignificand
  by_cases ha : a = 0
  · simp [ha]
  · have hq : (a / b : ℚ) ≠ 0 := div_ne_zero (by exact_mod_cast ha) hbq
    obtain ⟨hpos, hscaled⟩ := scaleDown_div a hb (exponentFor a b)
    rw [if_neg ha, if_neg hq]
    dsimp only
    rw [← nearestTo_div _ hpos, hscaled, exponentFor_eq (Nat.pos_of_ne_zero ha) hb]

section Rounding

variable {p q : ℚ}

theorem roundMagnitude_le_infinite (q : ℚ) : roundMagnitude q ≤ infiniteMagnitude := by
  unfold roundMagnitude
  split
  · exact Nat.zero_le _
  · exact Nat.min_le_right _ _

theorem roundMagnitude_lt_sign (q : ℚ) : roundMagnitude q < 0x8000000000000000 :=
  (roundMagnitude_le_infinite q).trans_lt (by decide)

theorem gridSignificand_le (q : ℚ) : gridSignificand q ≤ 2 * hiddenBit := by
  have hbit : ((2 * hiddenBit : ℕ) : ℚ) = 2 ^ (53 : ℤ) := by norm_num [hiddenBit]
  have hlog : q < (2 : ℕ) ^ (Int.log 2 q + 1) := Int.lt_zpow_succ_log_self one_lt_two q
  have hscaled : q / 2 ^ gridExponent q ≤ (2 * hiddenBit : ℕ) := by
    rw [div_le_iff₀ (zpow_pos two_pos _), hbit, ← zpow_add₀ two_ne_zero]
    refine hlog.le.trans ?_
    rw [Nat.cast_ofNat]
    refine zpow_le_zpow_right₀ one_le_two ?_
    unfold gridExponent
    omega
  exact (nearestTo_mono hscaled).trans_eq (nearestTo_natCast _)

/-- Above the least exponent, significands have all their bits. -/
theorem le_gridSignificand (hq : 0 < q) (h : -1074 < gridExponent q) :
    hiddenBit ≤ gridSignificand q := by
  have hbit : (hiddenBit : ℚ) = 2 ^ (52 : ℤ) := by norm_num [hiddenBit]
  have hlog : (2 : ℕ) ^ Int.log 2 q ≤ q := Int.zpow_log_le_self one_lt_two hq
  have hscaled : (hiddenBit : ℚ) ≤ q / 2 ^ gridExponent q := by
    rw [le_div_iff₀ (zpow_pos two_pos _), hbit, ← zpow_add₀ two_ne_zero]
    refine le_trans ?_ hlog
    rw [Nat.cast_ofNat]
    refine zpow_le_zpow_right₀ one_le_two ?_
    unfold gridExponent at h ⊢
    omega
  exact (nearestTo_natCast _).symm.trans_le (nearestTo_mono hscaled)

/-- Rounding never puts two quotients out of order. -/
theorem roundMagnitude_mono (hp : 0 ≤ p) (h : p ≤ q) : roundMagnitude p ≤ roundMagnitude q := by
  obtain rfl | hpos := hp.eq_or_lt
  · exact (if_pos rfl : roundMagnitude 0 = 0).trans_le (Nat.zero_le _)
  have hq : 0 < q := hpos.trans_le h
  have hhigh := gridSignificand_le p
  have hleast : ∀ x, -1074 ≤ gridExponent x := fun x => le_max_right _ _
  have hlow := hleast p
  unfold roundMagnitude
  rw [if_neg hpos.ne', if_neg hq.ne']
  refine min_le_min_right _ ?_
  obtain hsame | hless := (gridExponent_mono hpos h).eq_or_lt
  · unfold gridSignificand
    rw [hsame]
    exact Nat.add_le_add_left
      (nearestTo_mono (div_le_div_of_nonneg_right h (zpow_pos two_pos _).le)) _
  · -- A carry of the lesser significand reaches the next exponent and no further.
    have hbits := le_gridSignificand hq (hlow.trans_lt hless)
    have hexponent : ((gridExponent p + 1074).toNat + 1) * hiddenBit ≤
        (gridExponent q + 1074).toNat * hiddenBit := Nat.mul_le_mul_right _ (by omega)
    rw [Nat.add_mul, Nat.one_mul] at hexponent
    omega

/-- What a quotient is rounded to, as long as it is not too large.  A carry into the exponent
leaves an even significand. -/
theorem round_spec (negative : Bool) (hq : 0 ≤ q) (hsmall : roundMagnitude q < infiniteMagnitude) :
    |(ofMagnitude negative (roundMagnitude q)).value| =
        gridSignificand q * 2 ^ gridExponent q ∧
      (ofMagnitude negative (roundMagnitude q)).significand % 2 = gridSignificand q % 2 := by
  have hmagnitude : (ofMagnitude negative (roundMagnitude q)).magnitude = roundMagnitude q :=
    magnitude_ofMagnitude (roundMagnitude_lt_sign q)
  generalize ofMagnitude negative (roundMagnitude q) = s at hmagnitude
  rw [abs_value]
  obtain rfl | hpos := hq.eq_or_lt
  · have hzero : roundMagnitude 0 = 0 := if_pos rfl
    have hnone : gridSignificand 0 = 0 := by
      rw [gridSignificand, zero_div]
      exact nearestTo_natCast 0
    rw [hzero] at hmagnitude
    have hsmall : s.magnitude < hiddenBit := hmagnitude.trans_lt (by decide)
    rw [(parts_of_small hsmall).1, hmagnitude, hnone, Nat.cast_zero, zero_mul, zero_mul]
    exact ⟨rfl, rfl⟩
  have hhigh := gridSignificand_le q
  have hleast : -1074 ≤ gridExponent q := le_max_right _ _
  unfold roundMagnitude at hmagnitude hsmall
  rw [if_neg hpos.ne'] at hmagnitude hsmall
  rw [min_eq_left (by omega)] at hmagnitude
  obtain ⟨n, hn⟩ := Int.eq_ofNat_of_zero_le (show 0 ≤ gridExponent q + 1074 by omega)
  have hexponent : gridExponent q = (n : ℤ) - 1074 := by omega
  rw [hn, Int.toNat_natCast] at hmagnitude
  obtain hfew | hfull := Nat.lt_or_ge (gridSignificand q) hiddenBit
  · -- Below the hidden bit, the exponent is the least one.
    have hn0 : n = 0 := by
      by_contra hne
      exact (le_gridSignificand hpos (by omega)).not_gt hfew
    subst hn0
    rw [Nat.zero_mul, Nat.zero_add] at hmagnitude
    obtain ⟨hsignificand, hleast⟩ := parts_of_small (hmagnitude.trans_lt hfew)
    rw [hsignificand, hleast, hmagnitude, hexponent]
    norm_num
  obtain hless | hcarry := Nat.lt_or_eq_of_le hhigh
  · have hparts : s.magnitude = (n + 1) * hiddenBit + (gridSignificand q - hiddenBit) := by
      rw [hmagnitude, Nat.add_mul n, Nat.one_mul]
      omega
    obtain ⟨hsignificand, hpower⟩ := parts_of_magnitude hparts (by omega)
    rw [hsignificand, hpower, hexponent, Nat.add_sub_cancel' hfull]
    exact ⟨rfl, rfl⟩
  · have hparts : s.magnitude = (n + 1 + 1) * hiddenBit + 0 := by
      rw [hmagnitude, hcarry, Nat.add_mul (n + 1), Nat.add_mul n]
      omega
    obtain ⟨hsignificand, hpower⟩ := parts_of_magnitude hparts (by decide)
    rw [hsignificand, hpower, hexponent, hcarry]
    refine ⟨?_, by decide⟩
    push_cast
    rw [add_sub_right_comm, zpow_add_one₀ two_ne_zero]
    ring

theorem abs_value_round (negative : Bool) (hq : 0 ≤ q)
    (hsmall : roundMagnitude q < infiniteMagnitude) :
    |(ofMagnitude negative (roundMagnitude q)).value| =
      gridSignificand q * 2 ^ gridExponent q :=
  (round_spec negative hq hsmall).1

end Rounding

/-! ## The values of scores -/

section Values

variable {a b s : Score}

theorem isFinite_iff : s.isFinite = true ↔ s.magnitude < infiniteMagnitude := decide_eq_true_iff

/-- A finite score is what its value is rounded to. -/
theorem roundMagnitude_value (h : s.isFinite = true) : roundMagnitude |s.value| = s.magnitude := by
  obtain ⟨hmagnitude, hleast, hbits⟩ := s.magnitude_eq_parts
  have hfinite := isFinite_iff.mp h
  have hfew := s.significand_lt
  rw [abs_value]
  unfold roundMagnitude
  obtain hzero | hpos := Nat.eq_zero_or_pos s.significand
  · obtain hfull | hexponent := hbits
    · exact absurd (hfull.trans_eq hzero) (by decide)
    · rw [hzero, hexponent] at hmagnitude
      rw [hzero, Nat.cast_zero, zero_mul, if_pos rfl, hmagnitude]
      rfl
  have hposq : (0 : ℚ) < s.significand := by exact_mod_cast hpos
  have hq : 0 < (s.significand : ℚ) * 2 ^ s.exponent := mul_pos hposq (zpow_pos two_pos _)
  have hhigh : Int.log 2 ((s.significand : ℚ) * 2 ^ s.exponent) < 53 + s.exponent := by
    rw [← Int.lt_zpow_iff_log_lt one_lt_two hq, Nat.cast_ofNat, zpow_add₀ two_ne_zero]
    exact mul_lt_mul_of_pos_right (by exact_mod_cast hfew) (zpow_pos two_pos _)
  have hexponent : gridExponent ((s.significand : ℚ) * 2 ^ s.exponent) = s.exponent := by
    unfold gridExponent
    obtain hfull | hsmall := hbits
    · have hlow : 52 + s.exponent ≤ Int.log 2 ((s.significand : ℚ) * 2 ^ s.exponent) := by
        rw [← Int.zpow_le_iff_le_log one_lt_two hq, Nat.cast_ofNat, zpow_add₀ two_ne_zero]
        exact mul_le_mul_of_nonneg_right (by exact_mod_cast hfull) (zpow_pos two_pos _).le
      omega
    · omega
  rw [if_neg hq.ne', hexponent, gridSignificand, hexponent,
    mul_div_cancel_right₀ _ (zpow_pos two_pos _).ne', nearestTo_natCast, ← hmagnitude]
  exact min_eq_left hfinite.le

/-- Of two finite scores, the one with the greater value has the greater magnitude. -/
theorem magnitude_le_iff (ha : a.isFinite = true) (hb : b.isFinite = true) :
    a.magnitude ≤ b.magnitude ↔ |a.value| ≤ |b.value| := by
  have hround : ∀ {s t : Score}, s.isFinite = true → t.isFinite = true → |s.value| ≤ |t.value| →
      s.magnitude ≤ t.magnitude := by
    intro s t hs ht h
    rw [← roundMagnitude_value hs, ← roundMagnitude_value ht]
    exact roundMagnitude_mono (abs_nonneg _) h
  refine ⟨fun h => ?_, hround ha hb⟩
  by_contra hless
  have hsame : a.magnitude = b.magnitude :=
    le_antisymm h (hround hb ha (not_le.mp hless).le)
  have hparts : |a.value| = |b.value| := by
    rw [abs_value, abs_value]
    unfold significand exponent
    rw [hsame]
  exact hless hparts.le

theorem magnitude_eq_zero_iff (h : s.isFinite = true) : s.magnitude = 0 ↔ s.value = 0 := by
  have hzero := magnitude_le_iff h isFinite_zero
  have hnone : zero.magnitude = 0 := by decide
  rw [hnone, value_zero, Nat.le_zero] at hzero
  simpa using hzero

/-- Numeric comparison is comparison of the values. -/
theorem below_iff_value (ha : a.isFinite = true) (hb : b.isFinite = true) :
    a.below b = true ↔ a.value < b.value := by
  have hle := magnitude_le_iff hb ha
  rw [below_iff ha hb]
  unfold signedMagnitude
  cases hna : a.isNegative <;> cases hnb : b.isNegative
  · rw [value_of_not_isNegative hna, value_of_not_isNegative hnb, ← not_le (a := |b.value|), ← hle]
    simp
  · have hlow := value_nonneg hna
    have hhigh := value_nonpos hnb
    simp only [Bool.false_eq_true, if_false, if_true]
    constructor
    · omega
    · intro h
      linarith
  · have hlow := value_nonpos hna
    have hhigh := value_nonneg hnb
    have hzero := magnitude_eq_zero_iff ha
    have hzero' := magnitude_eq_zero_iff hb
    simp only [Bool.false_eq_true, if_false, if_true]
    by_cases hboth : a.value = 0 ∧ b.value = 0
    · simp [hboth, hzero.mpr hboth.1, hzero'.mpr hboth.2]
    · have hless : a.value < b.value :=
        lt_of_le_of_ne (hlow.trans hhigh) fun h => hboth ⟨by linarith, by linarith⟩
      rw [← hzero, ← hzero'] at hboth
      simp only [hless, iff_true]
      omega
  · have hge := magnitude_le_iff ha hb
    rw [value_of_isNegative hna, value_of_isNegative hnb, neg_lt_neg_iff,
      ← not_le (a := |a.value|), ← hge]
    simp

theorem below_zero_iff (h : s.isFinite = true) : s.below zero = true ↔ s.value < 0 := by
  rw [below_iff_value h isFinite_zero, value_zero]

end Values

/-! ## Products and sums -/

section Operations

variable {a b s : Score}

theorem ofScaled_eq (negative : Bool) (m : ℕ) (e : ℤ) :
    ofScaled negative m e = ofMagnitude negative (roundMagnitude (m * 2 ^ e)) := by
  obtain ⟨hpos, hscaled⟩ := scaleDown_div m one_pos (-e)
  unfold ofScaled
  dsimp only
  rw [ofRatio_eq _ _ hpos, hscaled, Nat.cast_one, div_one, zpow_neg, div_inv_eq_mul]

theorem not_isInfinite (h : s.isFinite = true) : s.isInfinite = false :=
  decide_eq_false (isFinite_iff.mp h).ne

theorem mul_eq (ha : a.isFinite = true) (hb : b.isFinite = true) :
    a * b = ofMagnitude (a.isNegative != b.isNegative)
      (roundMagnitude (|a.value| * |b.value|)) := by
  have hexact : ((a.significand * b.significand : ℕ) : ℚ) * 2 ^ (a.exponent + b.exponent) =
      |a.value| * |b.value| := by
    rw [abs_value, abs_value, zpow_add₀ two_ne_zero]
    push_cast
    ring
  show mul a b = _
  unfold mul
  simp only [not_isNotANumber ha, not_isNotANumber hb, not_isInfinite ha, not_isInfinite hb,
    Bool.or_self, Bool.false_eq_true, if_false]
  rw [ofScaled_eq, hexact]

theorem units_mul {e : ℤ} (he : e ≤ s.exponent) : (s.units e : ℚ) * 2 ^ e = s.value := by
  obtain ⟨n, hn⟩ := Int.eq_ofNat_of_zero_le (sub_nonneg.mpr he)
  have hexponent : s.exponent = n + e := by omega
  unfold units value
  rw [hn, Int.toNat_natCast, hexponent, zpow_add₀ two_ne_zero, zpow_natCast]
  dsimp only
  split
  · push_cast [Nat.pow_eq]
    ring
  · push_cast [Nat.pow_eq]
    ring

theorem add_eq (ha : a.isFinite = true) (hb : b.isFinite = true) :
    ∃ negative, a + b = ofMagnitude negative (roundMagnitude |a.value + b.value|) := by
  have hsum : |a.value + b.value| =
      (a.units (min a.exponent b.exponent) + b.units (min a.exponent b.exponent)).natAbs *
        2 ^ min a.exponent b.exponent := by
    rw [← units_mul (min_le_left a.exponent b.exponent),
      ← units_mul (min_le_right a.exponent b.exponent), ← add_mul, abs_mul,
      abs_of_pos (zpow_pos (two_pos : (0 : ℚ) < 2) _), Nat.cast_natAbs]
    push_cast
    rfl
  show ∃ negative, add a b = _
  unfold add
  simp only [not_isNotANumber ha, not_isNotANumber hb, not_isInfinite ha, not_isInfinite hb,
    Bool.false_eq_true, if_false]
  rw [hsum]
  split
  · next hzero =>
    rw [hzero, Int.natAbs_zero, Nat.cast_zero, zero_mul]
    exact ⟨_, rfl⟩
  · exact ⟨_, ofScaled_eq _ _ _⟩

theorem not_isFinite_quiet (h : s.isNotANumber = true) : s.quiet.isFinite = false := by
  have hlarge : infiniteMagnitude < s.magnitude := of_decide_eq_true h
  have hroom : s.magnitude ||| 0x8000000000000 < 2 ^ 63 :=
    Nat.or_lt_two_pow s.magnitude_lt (by decide)
  have hle : s.magnitude ≤ s.magnitude ||| 0x8000000000000 := Nat.left_le_or
  unfold quiet
  rw [isFinite, magnitude_ofMagnitude hroom]
  exact decide_eq_false (by omega)

theorem isFinite_of_not (hnumber : s.isNotANumber = false) (hinfinite : s.isInfinite = false) :
    s.isFinite = true := by
  have hle := of_decide_eq_false hnumber
  have hne := of_decide_eq_false hinfinite
  exact isFinite_iff.mpr (by omega)

theorem not_isFinite_infinite (negative : Bool) :
    (ofMagnitude negative infiniteMagnitude).isFinite = false := by
  rw [isFinite, magnitude_ofMagnitude (by decide)]
  exact decide_eq_false (lt_irrefl _)

theorem not_isFinite_of_isInfinite (h : s.isInfinite = true) : s.isFinite = false :=
  decide_eq_false (of_decide_eq_true h).not_lt

/-- Only finite scores have a finite product. -/
theorem finite_of_mul (h : (a * b).isFinite = true) : a.isFinite = true ∧ b.isFinite = true := by
  revert h
  show (mul a b).isFinite = true → _
  unfold mul
  cases hna : a.isNotANumber
  · cases hnb : b.isNotANumber
    · by_cases hinfinite : (a.isInfinite || b.isInfinite) = true
      · have hinvalid : invalid.isFinite = false := by decide
        rw [if_neg Bool.false_ne_true, if_neg Bool.false_ne_true, if_pos hinfinite]
        split
        · simp [hinvalid]
        · simp [not_isFinite_infinite]
      · rw [Bool.or_eq_true, not_or, Bool.not_eq_true, Bool.not_eq_true] at hinfinite
        exact fun _ => ⟨isFinite_of_not hna hinfinite.1, isFinite_of_not hnb hinfinite.2⟩
    · simp [not_isFinite_quiet hnb]
  · simp [not_isFinite_quiet hna]

/-- Only finite scores have a finite sum. -/
theorem finite_of_add (h : (a + b).isFinite = true) : a.isFinite = true ∧ b.isFinite = true := by
  revert h
  show (add a b).isFinite = true → _
  unfold add
  cases hna : a.isNotANumber
  · cases hnb : b.isNotANumber
    · cases hia : a.isInfinite
      · cases hib : b.isInfinite
        · exact fun _ => ⟨isFinite_of_not hna hia, isFinite_of_not hnb hib⟩
        · simp [not_isFinite_of_isInfinite hib]
      · have hinvalid : invalid.isFinite = false := by decide
        rw [if_neg Bool.false_ne_true, if_neg Bool.false_ne_true, if_pos rfl]
        split
        · simp [hinvalid]
        · simp [not_isFinite_of_isInfinite hia]
    · simp [not_isFinite_quiet hnb]
  · simp [not_isFinite_quiet hna]

end Operations

end Score
end WarmFeed
