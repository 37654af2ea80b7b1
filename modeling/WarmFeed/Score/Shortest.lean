import WarmFeed.Score.Basic

/-!
# The fewest digits of a score

A finite score other than zero is written with the fewest decimal digits that
read back as the same score and, of those, with the ones nearest to it.  The
reals that read back as a score form an interval around it, whose ends belong
to it exactly when the significand is even.  For one digit, two digits and so on
up to seventeen, the two neighbours of the value on the decimal grid of that
many digits are tried; the first grid that has a neighbour in the interval gives
the answer.
-/

namespace WarmFeed
namespace Score

/-- Which neighbour is taken when a score lies halfway between two texts. -/
inductive Tie where
  | up
  | even
deriving DecidableEq

/-- The number `digits` times ten to the `exponent`. -/
structure Decimal where
  digits : Nat
  exponent : Int
deriving DecidableEq

/-- The value and the two ends of the interval that reads back as it, over a
common denominator. -/
structure Neighbourhood where
  low : Nat
  value : Nat
  high : Nat
  denominator : Nat
  closed : Bool

/-- The interval of a finite score other than zero.  The lower half is shorter at
a power of two, where the scores below lie twice as dense. -/
def neighbourhood (s : Score) : Neighbourhood :=
  let m := s.significand
  let dense := decide (m = hiddenBit) && decide (-1074 < s.exponent)
  let e := s.exponent - 2
  let num := if 0 ≤ e then Nat.pow 2 e.toNat else 1
  let den := if 0 ≤ e then 1 else Nat.pow 2 (-e).toNat
  { low := (if dense then 4 * m - 1 else 4 * m - 2) * num
    value := 4 * m * num
    high := (4 * m + 2) * num
    denominator := den
    closed := decide (m % 2 = 0) }

/-- Whether `d` times ten to the `k` reads back as the score. -/
def Neighbourhood.covers (n : Neighbourhood) (d : Nat) (k : Int) : Bool :=
  let x := if 0 ≤ k then d * Nat.pow 10 k.toNat * n.denominator else d * n.denominator
  let unit := if 0 ≤ k then 1 else Nat.pow 10 (-k).toNat
  if n.closed then decide (n.low * unit ≤ x) && decide (x ≤ n.high * unit)
  else decide (n.low * unit < x) && decide (x < n.high * unit)

/-- The text of the neighbourhood's value on the grid of multiples of ten to the
`k`, if one of the value's two neighbours there reads back as it. -/
def Neighbourhood.onGrid (n : Neighbourhood) (tie : Tie) (k : Int) : Option Decimal :=
  let num := if 0 ≤ k then n.value else n.value * Nat.pow 10 (-k).toNat
  let den := if 0 ≤ k then n.denominator * Nat.pow 10 k.toNat else n.denominator
  let d := num / den
  let r := num % den
  let lower := n.covers d k && decide (d ≠ 0)
  let upper := n.covers (d + 1) k
  let takeUpper :=
    decide (den < 2 * r) || (decide (2 * r = den) && (decide (tie = .up) || decide (d % 2 = 1)))
  if lower && upper then some ⟨if takeUpper then d + 1 else d, k⟩
  else if lower then some ⟨d, k⟩
  else if upper then some ⟨d + 1, k⟩
  else none

/-- The place of the first digit: the greatest `p` with ten to the `p` at most
`num / den`, found by a guess from the binary length and at most a few steps. -/
def decimalPlace (num den : Nat) : Int :=
  let guess : Int := ((Nat.log2 num : Int) - Nat.log2 den) * 30103 / 100000 - 1
  let reaches (p : Int) : Bool :=
    if 0 ≤ p then decide (den * Nat.pow 10 p.toNat ≤ num)
    else decide (den ≤ num * Nat.pow 10 (-p).toNat)
  if reaches (guess + 2) then guess + 2
  else if reaches (guess + 1) then guess + 1
  else if reaches guess then guess
  else guess - 1

/-- A neighbour above nine is ten, which is one in the next place. -/
def Decimal.carried (d : Decimal) : Decimal :=
  if d.digits = 10 then ⟨1, d.exponent + 1⟩ else d

/-- The fewest digits of a finite score other than zero, without its sign.  Only on
the first grid can a neighbour end in a zero: on a finer one it would lie on the
grid before, too. -/
def shortest (tie : Tie) (s : Score) : Decimal :=
  let n := s.neighbourhood
  let p := decimalPlace n.value n.denominator
  let found := (List.range 17).findSome? fun (i : Nat) => n.onGrid tie (p - i)
  (found.getD ⟨n.value / n.denominator, 0⟩).carried

end Score
end WarmFeed
