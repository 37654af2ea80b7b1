import WarmFeed.Key
import WarmFeed.Timestamp

/-!
# Identifiers by time

The identifier of a new status has the milliseconds of its creation in its high
bits and the low bits of a sequence number below them.  A status from before 1970
counts as one of its first moment.
-/

namespace WarmFeed
namespace Snowflake

/-- How many low bits the sequence takes. -/
def sequenceBits : Nat := 16

/-- The identifier of so many milliseconds and a sequence number. -/
def ofMillis (millis : Int) (sequence : UInt64) : ContentId :=
  UInt64.ofNat (millis.toNat * Nat.pow 2 sequenceBits + sequence.toNat % Nat.pow 2 sequenceBits)

def id (createdAt : Timestamp) (sequence : UInt64) : ContentId :=
  ofMillis createdAt.millis sequence

end Snowflake

namespace Timestamp

/-- Whether the moment so many milliseconds from the first of 1970 has a date. -/
def coversMillis (millis : Int) : Bool :=
  let first : Date := ⟨Date.firstYear, 1, 1⟩
  let last : Date := ⟨Date.lastYear, 12, 31⟩
  decide (first.dayNumber * 86400000 ≤ millis) &&
    decide (millis < (last.dayNumber + 1) * 86400000)

end Timestamp
end WarmFeed
