import WarmFeed.Json.Basic

/-!
# Reading JSON numbers

A number without fraction and exponent that fits in 64 bits, with or without a
sign, is a whole number.  Every other number becomes a score: the leading digits
that fit in 64 bits are rounded to a score, and that score is multiplied or
divided by a power of ten.  These are two roundings, so the last bit can differ
from that of the nearest score.  A number beyond all scores cannot be taken but
can be passed over.
-/

namespace WarmFeed
namespace Json

def digitValue (c : Char) : Nat := c.toNat - 48

/-- Append digits to `m` as long as the result fits in 64 bits, and count the ones
left over. -/
def absorb (m : Nat) : List Char → Nat × Nat
  | [] => (m, 0)
  | c :: cs =>
    let next := 10 * m + digitValue c
    if 0x10000000000000000 ≤ next then (m, cs.length + 1) else absorb next cs

/-- The greatest power of ten that is a score. -/
def greatestPower : Nat := 308

/-- Divide by a power of ten, in steps of the greatest one. -/
def divideByPower (f : Score) (e : Nat) : Score :=
  if e ≤ greatestPower then f / Score.powerOfTen e
  else if f.isZero then f
  else divideByPower (f / Score.powerOfTen greatestPower) (e - greatestPower)
termination_by e
decreasing_by simp only [greatestPower] at *; omega

/-- The score of `m` times ten to the `e`, if there is one. -/
def scaled (m : Nat) (e : Int) : Option Score :=
  let f := Score.ofNat m
  if e < 0 then some (divideByPower f (-e).toNat)
  else if e ≤ greatestPower then
    let product := f * Score.powerOfTen e.toNat
    if product.isInfinite then none else some product
  else if f.isZero then some f
  else none

/-- The value of a number by its parts.  The exponent is absent in a number that
has neither a fraction nor an exponent. -/
def numberOf (negative : Bool) (whole fraction : List Char) (exponent : Option Int) : Json :=
  let (m, dropped) := absorb 0 whole
  let signed (s : Score) : Json := real (if negative then -s else s)
  match exponent with
  | none =>
    if dropped ≠ 0 then
      match scaled m dropped with
      | some s => signed s
      | none => unreadable .other .malformed none
    else if !negative then number (.whole m)
    else if m = 0 || 0x8000000000000000 < m then signed (Score.ofNat m)
    else number (.whole (-(m : Int)))
  | some e =>
    let (m, unread) := absorb m fraction
    match scaled m (e + dropped - (fraction.length - unread : Nat)) with
    | some s => signed s
    | none => unreadable .other .malformed none

/-- A number that breaks off.  One that ends with the text is truncated for whoever
takes it and malformed for whoever passes over it. -/
def brokenNumber (rest : List Char) : Json :=
  unreadable .other (if rest.isEmpty then .truncated else .malformed) (some .malformed)

/-- The exponent after its letter. -/
def readExponent (cs : List Char) : Except Json (Int × List Char) :=
  let negative := cs.head? = some '-'
  let cs := if cs.head? = some '-' || cs.head? = some '+' then cs.drop 1 else cs
  let digits := cs.takeWhile Char.isDigit
  if digits.isEmpty then .error (brokenNumber cs)
  else
    let e : Int := digits.foldl (fun n c => 10 * n + digitValue c) 0
    .ok (if negative then -e else e, cs.dropWhile Char.isDigit)

/-- What may follow the whole part: a fraction, an exponent, or both. -/
def readTail (cs : List Char) : Except Json (List Char × Option Int × List Char) := do
  let (fraction, afterFraction, hasFraction) ← match cs with
    | '.' :: rest =>
      let digits := rest.takeWhile Char.isDigit
      if digits.isEmpty then throw (brokenNumber rest)
      else pure (digits, rest.dropWhile Char.isDigit, true)
    | _ => pure ([], cs, false)
  match afterFraction with
  | c :: rest =>
    if c = 'e' || c = 'E' then
      let (e, rest) ← readExponent rest
      return (fraction, some e, rest)
    else return (fraction, if hasFraction then some 0 else none, afterFraction)
  | [] => return (fraction, if hasFraction then some 0 else none, afterFraction)

/-- A number and what follows it, or nothing if the number breaks off. -/
def readNumber (cs : List Char) : Json × Option (List Char) :=
  let negative := cs.head? = some '-'
  let cs := if negative then cs.drop 1 else cs
  let whole := cs.takeWhile Char.isDigit
  let rest := cs.dropWhile Char.isDigit
  if whole.isEmpty then (brokenNumber cs, none)
  else if whole.head? = some '0' && whole.length ≠ 1 then (junk, none)
  else
    match readTail rest with
    | .error broken => (broken, none)
    | .ok (fraction, exponent, rest) => (numberOf negative whole fraction exponent, some rest)

end Json
end WarmFeed
