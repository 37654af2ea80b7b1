import WarmFeed.Score.Shortest

/-!
# Scores as text

Two written forms of a score are in use.  Messages and the bounds of score
ranges use the plain form, which never has an exponent; members are stored with
the scientific form, which keeps a fraction digit and switches to an exponent
for very large and very small scores.  Both write the fewest digits that read
back.
-/

namespace WarmFeed
namespace Score

/-- The decisions of a written form. -/
structure Layout where
  /-- Which neighbour is written when a score is halfway between two texts. -/
  tie : Tie
  /-- Whether a whole number is written with the digit after the point. -/
  keepsFraction : Bool
  /-- For the place of the decimal point counted from the first digit: whether
  the score is written without exponent. -/
  isPlain : Int → Bool
  notANumber : String

/-- The form of `100`, `0.25` and `1000000000000000000000`. -/
def plain : Layout :=
  { tie := .up, keepsFraction := false, isPlain := fun _ => true, notANumber := "NaN" }

/-- The form of `100.0`, `0.00001`, `1e16` and `1.5e-7`. -/
def scientific : Layout :=
  { tie := .even, keepsFraction := true
    isPlain := fun p => decide (-5 < p) && decide (p ≤ 16), notANumber := "NaN" }

def zeros (n : Nat) : String := String.ofList (List.replicate n '0')

/-- The digits with the point `place` digits after the first one's left side. -/
def Layout.positional (l : Layout) (digits : List Char) (place : Int) : String :=
  let n := digits.length
  if (n : Int) ≤ place then
    String.ofList digits ++ zeros (place - n).toNat ++ (if l.keepsFraction then ".0" else "")
  else if 0 < place then
    String.ofList (digits.take place.toNat) ++ "." ++ String.ofList (digits.drop place.toNat)
  else "0." ++ zeros (-place).toNat ++ String.ofList digits

/-- One digit, the rest behind a point, and the exponent. -/
def exponential (digits : List Char) (place : Int) : String :=
  let head := String.ofList (digits.take 1)
  let tail := digits.drop 1
  let point := if tail.isEmpty then "" else "." ++ String.ofList tail
  head ++ point ++ "e" ++ toString (place - 1)

def Layout.unsigned (l : Layout) (s : Score) : String :=
  if s.isInfinite then "inf"
  else if s.isZero then if l.keepsFraction then "0.0" else "0"
  else
    let d := s.shortest l.tie
    let digits := Nat.toDigits 10 d.digits
    let place := digits.length + d.exponent
    if l.isPlain place then l.positional digits place else exponential digits place

def text (s : Score) (l : Layout) : String :=
  if s.isNotANumber then l.notANumber
  else (if s.isNegative then "-" else "") ++ l.unsigned s

end Score
end WarmFeed
