import WarmFeed.Score.Basic

/-!
# Arithmetic on scores

Every result is the exact rational result rounded to the nearest score, a half
going to the even significand.  `ofRatio` is that rounding; products, sums and
quotients of finite scores, and the conversions from whole numbers, are exact
quotients of natural numbers handed to it.
-/

namespace WarmFeed
namespace Score

/-- The integer nearest to `num / den`, a half going to the even neighbour. -/
def nearest (num den : Nat) : Nat :=
  let q := num / den
  let r := num % den
  if 2 * r < den then q else if den < 2 * r then q + 1 else q + q % 2

/-- The quotient of `num / den` and two to the `e`, as a quotient of natural numbers. -/
def scaleDown (num den : Nat) (e : Int) : Nat × Nat :=
  if 0 ≤ e then (num, den * Nat.pow 2 e.toNat) else (num * Nat.pow 2 (-e).toNat, den)

/-- The exponent of the score nearest to the positive `num / den`: the one that
leaves a significand of 53 bits, or the least exponent there is. -/
def exponentFor (num den : Nat) : Int :=
  let l : Int := (Nat.log2 num : Int) - Nat.log2 den
  let scaled := scaleDown num den l
  max (if scaled.2 ≤ scaled.1 then l - 52 else l - 53) (-1074)

/-- The score nearest to `num / den` with the given sign.  A significand that
rounds up to 2^53 carries into the exponent, and what does not fit is infinite. -/
def ofRatio (negative : Bool) (num den : Nat) : Score :=
  if num = 0 then ofMagnitude negative 0
  else
    let e := exponentFor num den
    let scaled := scaleDown num den e
    let m := (e + 1074).toNat * hiddenBit + nearest scaled.1 scaled.2
    ofMagnitude negative (min m infiniteMagnitude)

/-- The score nearest to `m` times two to the `e`. -/
def ofScaled (negative : Bool) (m : Nat) (e : Int) : Score :=
  let scaled := scaleDown m 1 (-e)
  ofRatio negative scaled.1 scaled.2

def ofNat (n : Nat) : Score := ofRatio false n 1

def ofInt (n : Int) : Score := ofRatio (decide (n < 0)) n.natAbs 1

/-- The result of an operation that has none, such as zero times infinity. -/
def invalid : Score := ofMagnitude true 0x7ff8000000000000

/-- A value that is no number passes through every operation. -/
def quiet (s : Score) : Score := ofMagnitude s.isNegative (s.magnitude ||| 0x8000000000000)

def mul (a b : Score) : Score :=
  let negative := a.isNegative != b.isNegative
  if a.isNotANumber then a.quiet
  else if b.isNotANumber then b.quiet
  else if a.isInfinite || b.isInfinite then
    if a.isZero || b.isZero then invalid else ofMagnitude negative infiniteMagnitude
  else ofScaled negative (a.significand * b.significand) (a.exponent + b.exponent)

/-- The value of a finite score in units of two to the `e`, for an `e` that is at
most the score's exponent. -/
def units (s : Score) (e : Int) : Int :=
  let m : Int := (s.significand * Nat.pow 2 (s.exponent - e).toNat : Nat)
  if s.isNegative then -m else m

/-- The sum.  A sum that is exactly zero is minus zero only if both terms are. -/
def add (a b : Score) : Score :=
  if a.isNotANumber then a.quiet
  else if b.isNotANumber then b.quiet
  else if a.isInfinite then
    if b.isInfinite && a.isNegative != b.isNegative then invalid else a
  else if b.isInfinite then b
  else
    let e := min a.exponent b.exponent
    let sum := a.units e + b.units e
    if sum = 0 then ofMagnitude (a.isNegative && b.isNegative && a.isZero) 0
    else ofScaled (decide (sum < 0)) sum.natAbs e

def div (a b : Score) : Score :=
  let negative := a.isNegative != b.isNegative
  if a.isNotANumber then a.quiet
  else if b.isNotANumber then b.quiet
  else if a.isInfinite then
    if b.isInfinite then invalid else ofMagnitude negative infiniteMagnitude
  else if b.isInfinite then ofMagnitude negative 0
  else if b.isZero then
    if a.isZero then invalid else ofMagnitude negative infiniteMagnitude
  else
    let scaled := scaleDown a.significand b.significand (b.exponent - a.exponent)
    ofRatio negative scaled.1 scaled.2

/-- The score nearest to ten to the `n`. -/
def powerOfTen (n : Nat) : Score := ofNat (Nat.pow 10 n)

instance : Mul Score := ⟨mul⟩
instance : Add Score := ⟨add⟩
instance : Div Score := ⟨div⟩
instance : Neg Score := ⟨neg⟩

end Score
end WarmFeed
