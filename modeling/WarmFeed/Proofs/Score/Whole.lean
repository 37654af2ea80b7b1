import Mathlib.Algebra.Group.Nat.Defs
import WarmFeed.Proofs.Index.Order
import WarmFeed.Score.Rounding

/-!
# Whole numbers as scores

A whole number of at most 53 bits is a score without rounding.  Its exponent is that of its
highest bit, and its significand is the number, moved up to 53 bits.  So such scores are
finite, and they stand in the order of the numbers.
-/

namespace WarmFeed
namespace Score

theorem nearest_one (n : Nat) : nearest n 1 = n := by
  unfold nearest
  rw [Nat.mod_one, if_pos (by decide), Nat.div_one]

theorem exponentFor_one {n : Nat} (hn : 0 < n) : exponentFor n 1 = (Nat.log2 n : Int) - 52 := by
  have hlog : Nat.log2 1 = 0 := by decide
  have hle : Nat.pow 2 (Nat.log2 n) ≤ n := Nat.log2_self_le hn.ne'
  unfold exponentFor
  simp only [hlog, Int.natCast_zero, Int.sub_zero]
  rw [scaleDown, if_pos (Int.natCast_nonneg _), Int.toNat_natCast]
  dsimp only
  rw [Nat.one_mul, if_pos hle]
  omega

/-- The bits of a whole number: exponent above, significand below.  The highest bit of the
significand, which is not stored, adds one to the exponent. -/
def wholeMagnitude (n : Nat) : Nat :=
  (Nat.log2 n + 1022) * hiddenBit + n * 2 ^ (52 - Nat.log2 n)

section Whole

variable {n : Nat}

theorem log2_le_of_lt (hn : n < 2 ^ 53) : Nat.log2 n ≤ 52 := by
  rcases Nat.eq_zero_or_pos n with rfl | hpos
  · decide
  · exact Nat.lt_succ_iff.mp ((Nat.log2_lt hpos.ne').mpr hn)

/-- The significand of a whole number has 53 bits. -/
theorem significand_bounds (hpos : 0 < n) (hn : n < 2 ^ 53) :
    hiddenBit ≤ n * 2 ^ (52 - Nat.log2 n) ∧ n * 2 ^ (52 - Nat.log2 n) < 2 * hiddenBit := by
  have hlog := log2_le_of_lt hn
  have hsum : Nat.log2 n + (52 - Nat.log2 n) = 52 := Nat.add_sub_cancel' hlog
  constructor
  · calc hiddenBit = 2 ^ Nat.log2 n * 2 ^ (52 - Nat.log2 n) := by rw [← Nat.pow_add, hsum]; rfl
      _ ≤ n * 2 ^ (52 - Nat.log2 n) := Nat.mul_le_mul_right _ (Nat.log2_self_le hpos.ne')
  · calc n * 2 ^ (52 - Nat.log2 n) < 2 ^ (Nat.log2 n + 1) * 2 ^ (52 - Nat.log2 n) :=
          Nat.mul_lt_mul_of_pos_right Nat.lt_log2_self (Nat.two_pow_pos _)
      _ = 2 * hiddenBit := by rw [← Nat.pow_add, Nat.add_right_comm, hsum]; rfl

theorem wholeMagnitude_lt (hpos : 0 < n) (hn : n < 2 ^ 53) :
    wholeMagnitude n < infiniteMagnitude := by
  have hlog := log2_le_of_lt hn
  have hsignificand := (significand_bounds hpos hn).2
  have hexponent : (Nat.log2 n + 1022) * hiddenBit ≤ 1074 * hiddenBit :=
    Nat.mul_le_mul_right _ (by omega)
  have hroom : 1074 * hiddenBit + 2 * hiddenBit ≤ infiniteMagnitude := by decide
  unfold wholeMagnitude
  omega

theorem ofNat_eq (hpos : 0 < n) (hn : n < 2 ^ 53) :
    ofNat n = ofMagnitude false (wholeMagnitude n) := by
  have hlog := log2_le_of_lt hn
  have hscaled : scaleDown n 1 ((Nat.log2 n : Int) - 52) = (n * 2 ^ (52 - Nat.log2 n), 1) := by
    unfold scaleDown
    by_cases hfull : Nat.log2 n = 52
    · rw [hfull, if_pos (by decide)]
      exact congrArg (·, 1) (Nat.mul_one n).symm
    · rw [if_neg (by omega)]
      have hshift : (-((Nat.log2 n : Int) - 52)).toNat = 52 - Nat.log2 n := by omega
      rw [hshift]
      rfl
  have hexponent : ((Nat.log2 n : Int) - 52 + 1074).toNat = Nat.log2 n + 1022 := by omega
  unfold ofNat ofRatio
  rw [if_neg hpos.ne', exponentFor_one hpos]
  dsimp only
  rw [hscaled]
  dsimp only
  rw [nearest_one, hexponent]
  exact congrArg (ofMagnitude false) (Nat.min_eq_left (wholeMagnitude_lt hpos hn).le)

theorem toNat_bits_ofNat (hpos : 0 < n) (hn : n < 2 ^ 53) :
    (ofNat n).bits.toNat = wholeMagnitude n := by
  have hword : wholeMagnitude n < 2 ^ 64 :=
    Nat.lt_trans (wholeMagnitude_lt hpos hn) (by decide)
  rw [ofNat_eq hpos hn]
  exact (UInt64.toNat_ofNat').trans (Nat.mod_eq_of_lt hword)

theorem magnitude_ofNat (hpos : 0 < n) (hn : n < 2 ^ 53) :
    (ofNat n).magnitude = wholeMagnitude n := by
  have hword : wholeMagnitude n < 0x8000000000000000 :=
    Nat.lt_trans (wholeMagnitude_lt hpos hn) (by decide)
  rw [magnitude, toNat_bits_ofNat hpos hn, Nat.mod_eq_of_lt hword]

theorem isFinite_ofNat (hpos : 0 < n) (hn : n < 2 ^ 53) : (ofNat n).isFinite = true := by
  rw [isFinite, magnitude_ofNat hpos hn]
  exact decide_eq_true (wholeMagnitude_lt hpos hn)

theorem signedMagnitude_ofNat (hpos : 0 < n) (hn : n < 2 ^ 53) :
    (ofNat n).signedMagnitude = wholeMagnitude n := by
  have hsign : (ofNat n).isNegative = false := by
    rw [isNegative, toNat_bits_ofNat hpos hn, decide_eq_false_iff_not, not_le]
    exact Nat.lt_trans (wholeMagnitude_lt hpos hn) (by decide)
  rw [signedMagnitude, hsign, if_neg Bool.false_ne_true, magnitude_ofNat hpos hn]

end Whole

theorem wholeMagnitude_lt_wholeMagnitude {m n : Nat} (hm : 0 < m) (hmn : m < n)
    (hn : n < 2 ^ 53) : wholeMagnitude m < wholeMagnitude n := by
  have hlog : Nat.log2 m ≤ Nat.log2 n := by
    rw [← Nat.lt_succ_iff, Nat.log2_lt hm.ne']
    exact Nat.lt_trans hmn Nat.lt_log2_self
  have hlow := (significand_bounds hm (Nat.lt_trans hmn hn)).2
  have hhigh := (significand_bounds (Nat.lt_trans hm hmn) hn).1
  unfold wholeMagnitude
  rcases Nat.eq_or_lt_of_le hlog with hsame | hless
  · rw [hsame]
    exact Nat.add_lt_add_left (Nat.mul_lt_mul_of_pos_right hmn (Nat.two_pow_pos _)) _
  · have hexponent : (Nat.log2 m + 1 + 1022) * hiddenBit ≤ (Nat.log2 n + 1022) * hiddenBit :=
      Nat.mul_le_mul_right _ (by omega)
    rw [Nat.add_right_comm, Nat.succ_mul] at hexponent
    omega

/-- Whole numbers keep their order. -/
theorem signedMagnitude_ofNat_lt {m n : Nat} (hm : 0 < m) (hmn : m < n) (hn : n < 2 ^ 53) :
    (ofNat m).signedMagnitude < (ofNat n).signedMagnitude := by
  rw [signedMagnitude_ofNat hm (Nat.lt_trans hmn hn),
    signedMagnitude_ofNat (Nat.lt_trans hm hmn) hn]
  exact Int.ofNat_lt.mpr (wholeMagnitude_lt_wholeMagnitude hm hmn hn)

end Score
end WarmFeed
