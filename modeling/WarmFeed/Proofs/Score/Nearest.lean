import WarmFeed.Proofs.Score.Quotient

/-!
# Whole numbers of 64 bits as scores

A whole number of more than 53 bits is rounded.  The score it becomes is the one nearest to it,
and of two that are equally near the one with the even significand: `nearestEven_ofNat`.  So
different numbers can become one score, but never scores that stand the other way round.
-/

namespace WarmFeed
namespace Score

/-! ## How far a whole number is from a quotient -/

section Quotient

variable {a d : Nat}

/-- How far the result is below or above the quotient, in parts of the denominator. -/
theorem nearest_cases (a d : Nat) :
    ((nearest a d : ℤ) * d - a = -(a % d : ℕ) ∧ 2 * (a % d) ≤ d ∨
      (nearest a d : ℤ) * d - a = d - (a % d : ℕ) ∧ d ≤ 2 * (a % d)) ∧
    (2 * (a % d) = d → nearest a d % 2 = 0) := by
  have hwhole : (a / d : ℕ) * (d : ℤ) + (a % d : ℕ) = a := by
    rw [mul_comm]
    exact_mod_cast Nat.div_add_mod a d
  have hdown : ((a / d : ℕ) : ℤ) * d - a = -(a % d : ℕ) := by linarith
  have hup : ((a / d + 1 : ℕ) : ℤ) * d - a = d - (a % d : ℕ) := by
    push_cast at hwhole ⊢
    linarith
  unfold nearest
  dsimp only
  split
  · exact ⟨.inl ⟨hdown, by omega⟩, by omega⟩
  split
  · exact ⟨.inr ⟨hup, by omega⟩, by omega⟩
  · obtain heven | hodd := Nat.mod_two_eq_zero_or_one (a / d)
    · rw [heven, Nat.add_zero]
      exact ⟨.inl ⟨hdown, by omega⟩, fun _ => heven⟩
    · rw [hodd]
      exact ⟨.inr ⟨hup, by omega⟩, by omega⟩

theorem nearest_error (hd : 0 < d) : 2 * |(nearest a d : ℤ) * d - a| ≤ d := by
  have hmod := Nat.mod_lt a hd
  obtain ⟨⟨herror, hhalf⟩ | ⟨herror, hhalf⟩, -⟩ := nearest_cases a d
  · rw [herror, abs_neg, Nat.abs_cast]
    omega
  · rw [herror, abs_of_nonneg (by omega)]
    omega

theorem nearest_even (hd : 0 < d) (h : 2 * |(nearest a d : ℤ) * d - a| = d) :
    nearest a d % 2 = 0 := by
  have hmod := Nat.mod_lt a hd
  obtain ⟨⟨herror, -⟩ | ⟨herror, -⟩, heven⟩ := nearest_cases a d
  · rw [herror, abs_neg, Nat.abs_cast] at h
    exact heven (by omega)
  · rw [herror, abs_of_nonneg (by omega)] at h
    exact heven (by omega)

/-- Every other whole number is further away by the rest of one. -/
theorem nearest_others {k : ℤ} (hk : k ≠ nearest a d) :
    (d : ℤ) - |(nearest a d : ℤ) * d - a| ≤ |k * d - a| := by
  have hapart : (d : ℤ) ≤ |(k - nearest a d) * d| := by
    rw [abs_mul, Nat.abs_cast]
    exact le_mul_of_one_le_left (Int.natCast_nonneg d) (Int.one_le_abs (sub_ne_zero.mpr hk))
  have hsplit : (k - nearest a d) * d = (k * d - a) - ((nearest a d : ℤ) * d - a) := by ring
  have htriangle := abs_sub (k * d - a) ((nearest a d : ℤ) * d - a)
  rw [hsplit] at hapart
  linarith

end Quotient

/-! ## Numbers of 64 bits -/

/-- The significand of a whole number: its highest 53 bits, rounded by those below. -/
def roundedSignificand (n : Nat) : Nat :=
  nearest (n * 2 ^ (52 - Nat.log2 n)) (2 ^ (Nat.log2 n - 52))

def roundedMagnitude (n : Nat) : Nat :=
  (Nat.log2 n + 1022) * hiddenBit + roundedSignificand n

section Rounded

variable {m n : Nat}

/-- The unit of the last bit of a number's significand. -/
theorem unit_eq (n : Nat) : (2 : ℚ) ^ ((Nat.log2 n : ℤ) - 52) =
    (2 ^ (Nat.log2 n - 52) : ℕ) / (2 ^ (52 - Nat.log2 n) : ℕ) := by
  have hshift : (Nat.log2 n : ℤ) - 52 = ((Nat.log2 n - 52 : ℕ) : ℤ) - (52 - Nat.log2 n : ℕ) := by
    omega
  rw [hshift, zpow_sub₀ two_ne_zero, zpow_natCast, zpow_natCast]
  push_cast
  rfl

theorem gridExponent_natCast (hpos : 0 < n) : gridExponent n = (Nat.log2 n : ℤ) - 52 := by
  have hexponent := exponentFor_eq hpos one_pos
  rw [exponentFor_one hpos, Nat.cast_one, div_one] at hexponent
  exact hexponent.symm

theorem gridSignificand_natCast (hpos : 0 < n) : gridSignificand n = roundedSignificand n := by
  have hscaled : (n : ℚ) / 2 ^ ((Nat.log2 n : ℤ) - 52) =
      (n * 2 ^ (52 - Nat.log2 n) : ℕ) / (2 ^ (Nat.log2 n - 52) : ℕ) := by
    rw [unit_eq, div_div_eq_mul_div]
    push_cast
    rfl
  rw [gridSignificand, gridExponent_natCast hpos, hscaled, nearestTo_div _ (Nat.two_pow_pos _)]
  rfl

theorem roundMagnitude_natCast (hpos : 0 < n) :
    roundMagnitude n = min (roundedMagnitude n) infiniteMagnitude := by
  have hexponent : ((Nat.log2 n : ℤ) - 52 + 1074).toNat = Nat.log2 n + 1022 := by omega
  rw [roundMagnitude, if_neg (by exact_mod_cast hpos.ne'), gridSignificand_natCast hpos,
    gridExponent_natCast hpos, hexponent]
  rfl

/-- The significand has 53 bits, unless it is rounded up to the next power of two. -/
theorem roundedSignificand_bounds (hpos : 0 < n) :
    hiddenBit ≤ roundedSignificand n ∧ roundedSignificand n ≤ 2 * hiddenBit := by
  rw [← gridSignificand_natCast hpos]
  refine ⟨le_gridSignificand (by exact_mod_cast hpos) ?_, gridSignificand_le _⟩
  rw [gridExponent_natCast hpos]
  omega

theorem log2_lt_of_word (hn : n < 2 ^ 64) : Nat.log2 n < 64 := by
  obtain rfl | hpos := Nat.eq_zero_or_pos n
  · decide
  · exact (Nat.log2_lt hpos.ne').mpr hn

theorem roundedMagnitude_lt (hpos : 0 < n) (hn : n < 2 ^ 64) :
    roundedMagnitude n < infiniteMagnitude := by
  have hlog := log2_lt_of_word hn
  have hsignificand := (roundedSignificand_bounds hpos).2
  have hexponent : (Nat.log2 n + 1022) * hiddenBit ≤ 1085 * hiddenBit :=
    Nat.mul_le_mul_right _ (by omega)
  have hroom : 1085 * hiddenBit + 2 * hiddenBit < infiniteMagnitude := by decide
  unfold roundedMagnitude
  omega

theorem ofNat_eq_round (n : Nat) : ofNat n = ofMagnitude false (roundMagnitude n) := by
  rw [ofNat, ofRatio_eq _ _ one_pos, Nat.cast_one, div_one]

theorem isNegative_ofNat (n : Nat) : (ofNat n).isNegative = false := by
  rw [ofNat_eq_round, isNegative_ofMagnitude (roundMagnitude_lt_sign _)]

theorem magnitude_ofNat_eq_round (n : Nat) : (ofNat n).magnitude = roundMagnitude n := by
  rw [ofNat_eq_round, magnitude_ofMagnitude (roundMagnitude_lt_sign _)]

theorem isFinite_ofNat_word (hn : n < 2 ^ 64) : (ofNat n).isFinite = true := by
  obtain rfl | hpos := Nat.eq_zero_or_pos n
  · decide
  · rw [isFinite_iff, magnitude_ofNat_eq_round, roundMagnitude_natCast hpos]
    exact min_lt_of_left_lt (roundedMagnitude_lt hpos hn)

/-- Whole numbers are rounded, but never out of order. -/
theorem rank_ofNat_mono (h : m ≤ n) : (ofNat m).rank ≤ (ofNat n).rank := by
  have hmono : roundMagnitude m ≤ roundMagnitude n :=
    roundMagnitude_mono (Nat.cast_nonneg m) (by exact_mod_cast h)
  rw [rank, rank, isNegative_ofNat, isNegative_ofNat, magnitude_ofNat_eq_round,
    magnitude_ofNat_eq_round]
  simpa using hmono

/-! ## Numbers of any size -/

theorem below_ofNat_iff : (ofNat m).below (ofNat n) = true ↔
    roundMagnitude m < roundMagnitude n := by
  have hnumber : ∀ k, (ofNat k).isNotANumber = false := by
    intro k
    rw [isNotANumber, magnitude_ofNat_eq_round]
    exact decide_eq_false (not_lt.mpr (roundMagnitude_le_infinite k))
  rw [below, hnumber, hnumber, signedMagnitude, signedMagnitude, isNegative_ofNat,
    isNegative_ofNat, magnitude_ofNat_eq_round, magnitude_ofNat_eq_round]
  simp

/-- A number that is not less never becomes a score below. -/
theorem not_below_ofNat (h : m ≤ n) : (ofNat n).below (ofNat m) = false := by
  rw [← Bool.not_eq_true, below_ofNat_iff, not_lt]
  exact roundMagnitude_mono (Nat.cast_nonneg m) (by exact_mod_cast h)

theorem roundedMagnitude_lt_of_small (hm : 0 < m) (h : m < n) (hsmall : m < 2 ^ 53) :
    roundedMagnitude m < roundedMagnitude n := by
  have hfew := log2_le_of_lt hsmall
  have hexact : ∀ k, Nat.log2 k ≤ 52 → roundedSignificand k = k * 2 ^ (52 - Nat.log2 k) := by
    intro k hk
    rw [roundedSignificand, Nat.sub_eq_zero_of_le hk, Nat.pow_zero, nearest_one]
  have hlog : Nat.log2 m ≤ Nat.log2 n := by
    rw [← Nat.lt_succ_iff, Nat.log2_lt hm.ne']
    exact h.trans Nat.lt_log2_self
  unfold roundedMagnitude
  obtain hsame | hless := Nat.eq_or_lt_of_le hlog
  · rw [hexact m hfew, hexact n (hsame ▸ hfew), hsame]
    exact Nat.add_lt_add_left (Nat.mul_lt_mul_of_pos_right h (Nat.two_pow_pos _)) _
  · -- The significand of the smaller number is exact, so it is not rounded up.
    have hlow := (significand_bounds hm hsmall).2
    have hhigh := (roundedSignificand_bounds (hm.trans h)).1
    have hexponent : (Nat.log2 m + 1 + 1022) * hiddenBit ≤ (Nat.log2 n + 1022) * hiddenBit :=
      Nat.mul_le_mul_right _ (by omega)
    rw [Nat.add_right_comm, Nat.succ_mul] at hexponent
    rw [hexact m hfew]
    omega

/-- A number of at most 53 bits becomes a score below that of every greater number. -/
theorem below_ofNat (hm : 0 < m) (h : m < n) (hsmall : m < 2 ^ 53) :
    (ofNat m).below (ofNat n) = true := by
  rw [below_ofNat_iff, roundMagnitude_natCast hm, roundMagnitude_natCast (hm.trans h)]
  have hless := roundedMagnitude_lt_of_small hm h hsmall
  have hfinite := roundedMagnitude_lt hm (hsmall.trans (by decide))
  omega

end Rounded

/-! ## The nearest score -/

/-- No finite score is nearer, and where another value is equally near the significand is even. -/
structure NearestEven (x : ℚ) (s : Score) : Prop where
  finite : s.isFinite = true
  nearest : ∀ t : Score, t.isFinite = true → |s.value - x| ≤ |t.value - x|
  even : ∀ t : Score, t.isFinite = true → t.value ≠ s.value → |t.value - x| = |s.value - x| →
    s.significand % 2 = 0

theorem value_rounded {n : Nat} (hpos : 0 < n) (hn : n < 2 ^ 64) :
    (ofNat n).value = roundedSignificand n * 2 ^ ((Nat.log2 n : ℤ) - 52) ∧
      (ofNat n).significand % 2 = roundedSignificand n % 2 := by
  have hsmall : roundMagnitude n < infiniteMagnitude := by
    rw [← magnitude_ofNat_eq_round]
    exact isFinite_iff.mp (isFinite_ofNat_word hn)
  have hround := round_spec false (Nat.cast_nonneg n) hsmall
  rw [← ofNat_eq_round, gridSignificand_natCast hpos, gridExponent_natCast hpos] at hround
  exact ⟨(value_of_not_isNegative (isNegative_ofNat n)).trans hround.1, hround.2⟩

/-- A score is a whole multiple of the unit of numbers with so many bits, or it is below all of
them. -/
theorem value_multiple_or_small (t : Score) (l : Nat) :
    (∃ k : ℤ, t.value = k * 2 ^ ((l : ℤ) - 52)) ∨ |t.value| < 2 ^ l := by
  obtain hcoarse | hfine := le_or_gt ((l : ℤ) - 52) t.exponent
  · exact .inl (exists_multiple hcoarse)
  · right
    have hsignificand : (t.significand : ℚ) < 2 ^ 53 := by exact_mod_cast t.significand_lt
    have hpower : (2 : ℚ) ^ t.exponent ≤ 2 ^ ((l : ℤ) - 53) :=
      zpow_le_zpow_right₀ one_le_two (by omega)
    have hunit : (2 : ℚ) ^ 53 * 2 ^ ((l : ℤ) - 53) = 2 ^ l := by
      rw [← zpow_natCast, ← zpow_natCast, ← zpow_add₀ two_ne_zero]
      congr 1
      omega
    rw [abs_value, ← hunit]
    exact mul_lt_mul hsignificand hpower (zpow_pos two_pos _) (by positivity)

section Distance

variable (n : Nat)

/-- How far a whole multiple of the unit is from the number. -/
theorem distance_multiple (k : ℤ) :
    |(k : ℚ) * 2 ^ ((Nat.log2 n : ℤ) - 52) - n| =
      (|k * (2 ^ (Nat.log2 n - 52) : ℕ) - (n * 2 ^ (52 - Nat.log2 n) : ℕ)| : ℤ) /
        (2 ^ (52 - Nat.log2 n) : ℕ) := by
  have hc : (0 : ℚ) < (2 ^ (52 - Nat.log2 n) : ℕ) := by exact_mod_cast Nat.two_pow_pos _
  rw [unit_eq, eq_div_iff hc.ne', ← abs_of_pos hc, ← abs_mul, abs_of_pos hc, sub_mul, mul_assoc,
    div_mul_cancel₀ _ hc.ne']
  push_cast
  rfl

variable {n} (hpos : 0 < n) (hn : n < 2 ^ 64)

include hpos hn

/-- No multiple of the unit is nearer, and another is as near only to a number halfway between
two, of which the even one was taken. -/
theorem nearest_multiple (k : ℤ) :
    |(ofNat n).value - n| ≤ |(k : ℚ) * 2 ^ ((Nat.log2 n : ℤ) - 52) - n| ∧
      (k ≠ roundedSignificand n →
        |(k : ℚ) * 2 ^ ((Nat.log2 n : ℤ) - 52) - n| = |(ofNat n).value - n| →
        (ofNat n).significand % 2 = 0) := by
  have hd : 0 < 2 ^ (Nat.log2 n - 52) := Nat.two_pow_pos _
  have hc : (0 : ℚ) < (2 ^ (52 - Nat.log2 n) : ℕ) := by exact_mod_cast Nat.two_pow_pos _
  obtain ⟨hvalue, hparity⟩ := value_rounded hpos hn
  have hown := distance_multiple n (roundedSignificand n)
  rw [Int.cast_natCast, ← hvalue] at hown
  rw [hown, distance_multiple, hparity, div_le_div_iff_of_pos_right hc, Int.cast_le,
    div_left_inj' hc.ne', Int.cast_inj]
  have herror := nearest_error (a := n * 2 ^ (52 - Nat.log2 n)) hd
  have heven := nearest_even (a := n * 2 ^ (52 - Nat.log2 n)) hd
  by_cases hk : k = roundedSignificand n
  · rw [hk]
    exact ⟨le_refl _, fun hother => absurd rfl hother⟩
  · have hother := nearest_others (a := n * 2 ^ (52 - Nat.log2 n)) hk
    unfold roundedSignificand at *
    exact ⟨by omega, fun _ htie => heven (by omega)⟩

/-- No score below all numbers with as many bits is as near. -/
theorem nearest_small {t : Score} (ht : |t.value| < 2 ^ Nat.log2 n) :
    |(ofNat n).value - n| < |t.value - n| := by
  have hleast : ((hiddenBit : ℤ) : ℚ) * 2 ^ ((Nat.log2 n : ℤ) - 52) = 2 ^ Nat.log2 n := by
    have hbit : ((hiddenBit : ℤ) : ℚ) = 2 ^ (52 : ℤ) := by norm_num [hiddenBit]
    rw [hbit, ← zpow_add₀ two_ne_zero, ← zpow_natCast]
    congr 1
    omega
  have hbelow : (2 : ℚ) ^ Nat.log2 n ≤ n := by exact_mod_cast Nat.log2_self_le hpos.ne'
  have hnear := (nearest_multiple hpos hn hiddenBit).1
  rw [hleast, abs_of_nonpos (sub_nonpos.mpr hbelow)] at hnear
  have hfar := neg_le_abs (t.value - n)
  have habs := le_abs_self t.value
  linarith

end Distance

/-- A whole number of 64 bits becomes the score nearest to it. -/
theorem nearestEven_ofNat {n : Nat} (hn : n < 2 ^ 64) : NearestEven n (ofNat n) := by
  have hfinite := isFinite_ofNat_word hn
  obtain rfl | hpos := Nat.eq_zero_or_pos n
  · have hzero : (ofNat 0).value = 0 := (magnitude_eq_zero_iff hfinite).mp (by decide)
    rw [Nat.cast_zero]
    refine ⟨hfinite, fun t _ => ?_, fun t _ hother htie => ?_⟩
    · rw [hzero, sub_zero, abs_zero]
      exact abs_nonneg _
    · rw [hzero, sub_zero, sub_zero, abs_zero, abs_eq_zero] at htie
      exact absurd (htie.trans hzero.symm) hother
  refine ⟨hfinite, fun t _ => ?_, fun t _ hother htie => ?_⟩
  · obtain ⟨k, hk⟩ | hsmall := value_multiple_or_small t (Nat.log2 n)
    · rw [hk]
      exact (nearest_multiple hpos hn k).1
    · exact (nearest_small hpos hn hsmall).le
  · obtain ⟨k, hk⟩ | hsmall := value_multiple_or_small t (Nat.log2 n)
    · rw [hk] at hother htie
      refine (nearest_multiple hpos hn k).2 (fun heq => hother ?_) htie
      rw [heq, (value_rounded hpos hn).1, Int.cast_natCast]
    · exact absurd htie (nearest_small hpos hn hsmall).ne'

end Score
end WarmFeed
