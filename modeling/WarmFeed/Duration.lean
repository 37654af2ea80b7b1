/-!
# Lengths of time

A length of time is a number of whole seconds and nanoseconds below one second.
Its text takes the largest unit with a whole part and writes the rest as a
decimal fraction.
-/

namespace WarmFeed

structure Duration where
  seconds : Nat
  nanos : Nat
deriving DecidableEq, Inhabited

namespace Duration

def ofSeconds (n : Nat) : Duration := ⟨n, 0⟩

/-- Digits of a fraction of `width` digits, without trailing zeros. -/
def fractionDigits (width n : Nat) : List Char :=
  let digits := Nat.toDigits 10 n
  let padded := List.replicate (width - digits.length) '0' ++ digits
  (padded.reverse.dropWhile (· = '0')).reverse

/-- A whole part and a fraction of `width` digits. -/
def inUnit (whole fraction width : Nat) (unit : String) : String :=
  let digits := if fraction = 0 then [] else fractionDigits width fraction
  toString whole ++ (if digits.isEmpty then "" else "." ++ String.ofList digits) ++ unit

/-- The text of a length of time, such as `30s`, `1.5s`, `400ms`, `1.5µs` or `0ns`. -/
def text (d : Duration) : String :=
  if 0 < d.seconds then inUnit d.seconds d.nanos 9 "s"
  else if 1000000 ≤ d.nanos then inUnit (d.nanos / 1000000) (d.nanos % 1000000) 6 "ms"
  else if 1000 ≤ d.nanos then inUnit (d.nanos / 1000) (d.nanos % 1000) 3 "µs"
  else inUnit d.nanos 0 0 "ns"

end Duration
end WarmFeed
