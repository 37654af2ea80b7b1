/-!
# Scores

A score is a binary64 value, kept as its 64 bits.  Two orders are used on
scores.  The total order compares bit patterns: it puts minus zero below zero
and gives every not-a-number a place of its own, so it can sort anything.  The
numeric order is that of the values: the two zeros are equal and a
not-a-number is neither above nor below any score.

Only finite scores are stored in an index, and minus zero is folded into zero
before that; on stored scores the two orders agree.
-/

namespace WarmFeed

/-- A binary64 value by its bit pattern. -/
structure Score where
  bits : UInt64
deriving DecidableEq, Inhabited

namespace Score

/-- The sign bit. -/
def isNegative (s : Score) : Bool := decide (0x8000000000000000 ≤ s.bits.toNat)

/-- The bits below the sign.  They grow with the absolute value. -/
def magnitude (s : Score) : Nat := s.bits.toNat % 0x8000000000000000

/-- The magnitude of both infinities; above it lie the values that are no number. -/
def infiniteMagnitude : Nat := 0x7ff0000000000000

def ofMagnitude (negative : Bool) (m : Nat) : Score :=
  ⟨UInt64.ofNat (if negative then 0x8000000000000000 + m else m)⟩

def zero : Score := ⟨0⟩
def negativeZero : Score := ofMagnitude true 0
def infinity : Score := ofMagnitude false infiniteMagnitude
def negativeInfinity : Score := ofMagnitude true infiniteMagnitude

/-- The value that a reader of the word `nan` gets. -/
def notANumber : Score := ofMagnitude false 0x7ff8000000000000

def isNotANumber (s : Score) : Bool := decide (infiniteMagnitude < s.magnitude)
def isInfinite (s : Score) : Bool := decide (s.magnitude = infiniteMagnitude)
def isFinite (s : Score) : Bool := decide (s.magnitude < infiniteMagnitude)
def isZero (s : Score) : Bool := decide (s.magnitude = 0)

/-- Place in the total order: from the greatest negative magnitude up to minus
zero, and from zero up to the greatest positive magnitude. -/
def rank (s : Score) : Int :=
  if s.isNegative then -(s.magnitude : Int) - 1 else s.magnitude

/-- Comparison in the total order. -/
def order (a b : Score) : Ordering := compare a.rank b.rank

/-- The magnitude with its sign.  Numeric comparisons are comparisons of this
number, in which the two zeros fall together. -/
def signedMagnitude (s : Score) : Int :=
  if s.isNegative then -(s.magnitude : Int) else s.magnitude

/-- Whether `a` is numerically below `b`. -/
def below (a b : Score) : Bool :=
  !a.isNotANumber && !b.isNotANumber && decide (a.signedMagnitude < b.signedMagnitude)

/-- Whether `a` and `b` are the same number. -/
def same (a b : Score) : Bool :=
  !a.isNotANumber && !b.isNotANumber && decide (a.signedMagnitude = b.signedMagnitude)

/-- Add zero: minus zero becomes zero and every other number stays as it is. -/
def fold (s : Score) : Score := if s = negativeZero then zero else s

def neg (s : Score) : Score := ofMagnitude (!s.isNegative) s.magnitude

/-- The bit of a significand above the fifty-two that are stored. -/
def hiddenBit : Nat := 0x10000000000000

/-- The significand of a finite score, an integer below 2^53.  The value is the
significand times two to the `exponent`. -/
def significand (s : Score) : Nat :=
  if s.magnitude / hiddenBit = 0 then s.magnitude else hiddenBit + s.magnitude % hiddenBit

def exponent (s : Score) : Int :=
  if s.magnitude / hiddenBit = 0 then -1074 else (s.magnitude / hiddenBit : Nat) - 1075

theorem magnitude_lt (s : Score) : s.magnitude < 0x8000000000000000 := Nat.mod_lt _ (by decide)

/-- The total order tells any two scores apart. -/
theorem rank_injective {a b : Score} (h : a.rank = b.rank) : a = b := by
  have ha := a.bits.toNat_lt
  have hb := b.bits.toNat_lt
  have hbits : a.bits.toNat = b.bits.toNat := by
    simp only [rank, isNegative, magnitude, decide_eq_true_eq] at h
    split at h <;> split at h <;> omega
  cases a
  cases b
  simpa using UInt64.toNat_inj.mp hbits

end Score
end WarmFeed
