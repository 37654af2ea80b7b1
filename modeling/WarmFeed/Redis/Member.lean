import WarmFeed.Error
import WarmFeed.Text.Word

/-!
# Members of sorted sets

An identifier is stored as a member of twenty digits.  Sets order members of one
score by their bytes, and with leading zeros that is the order of the identifiers.
-/

namespace WarmFeed
namespace Redis

/-- How many digits a member has; the greatest identifier needs all of them. -/
def memberLength : Nat := 20

/-- The last `width` digits of a number, with leading zeros. -/
def digitsOf : Nat → Nat → List Char
  | 0, _ => []
  | width + 1, n => digitsOf width (n / 10) ++ [Nat.digitChar (n % 10)]

def encodeMember (id : ContentId) : String := String.ofList (digitsOf memberLength id.toNat)

def decodeMember (member : String) : Except StoreError ContentId :=
  match Text.parseWord member with
  | .ok n => .ok (UInt64.ofNat n)
  | .error _ => .error (.invalidMember member)

end Redis
end WarmFeed
