/-!
# Words in decimal

A word is a natural number of 64 bits.  It is written in decimal, with or without
a plus sign.  Digits are read from left to right, and the first thing wrong is the
one that is reported: a character that is no digit, or a number that has grown too
large.
-/

namespace WarmFeed
namespace Text

inductive WordFault where
  | empty
  | invalidDigit
  | tooLarge
deriving DecidableEq, Inhabited

def WordFault.message : WordFault → String
  | empty => "cannot parse integer from empty string"
  | invalidDigit => "invalid digit found in string"
  | tooLarge => "number too large to fit in target type"

/-- Append decimal digits to `n` as long as the result fits in 64 bits. -/
def appendDigits (n : Nat) : List Char → Except WordFault Nat
  | [] => .ok n
  | c :: rest =>
    if !c.isDigit then .error .invalidDigit
    else
      let next := 10 * n + (c.toNat - 48)
      if 0x10000000000000000 ≤ next then .error .tooLarge else appendDigits next rest

def parseWord (s : String) : Except WordFault Nat :=
  match s.toList with
  | [] => .error .empty
  | ['+'] => .error .invalidDigit
  | '+' :: digits => appendDigits 0 digits
  | digits => appendDigits 0 digits

/-- A whole number with an optional minus sign. -/
def parseWhole? (s : String) : Option Int :=
  match s.toList with
  | '-' :: digits => (parseWord (String.ofList digits)).toOption.map fun n => -(n : Int)
  | _ => (parseWord s).toOption.map Int.ofNat

end Text
end WarmFeed
