import WarmFeed.Key
import WarmFeed.Redis.Connection
import WarmFeed.Text.Word

/-!
# Active accounts

Accounts stand in a sorted set by the time at which they were last seen.
-/

namespace WarmFeed
namespace Redis
namespace Accounts

/-- The last rank that is asked for: one below the limit, both taken as signed words
of 64 bits. -/
def lastRank (limit : Nat) : Int := Int.bmod ((limit : Int) - 1) 0x10000000000000000

def readAccount (text : String) : Except StoreError AccountId :=
  match Text.parseWord text with
  | .ok n => .ok (UInt64.ofNat n)
  | .error why => .error (.backend why.message)

/-- The accounts seen last, the latest first. -/
def active (limit : Nat) : Attempt (List AccountId) := do
  if limit = 0 then return []
  let texts ← ask (.zrevrange StoreKey.activeAccounts.text 0 (lastRank limit))
  (texts.mapM readAccount : Except StoreError (List AccountId))

end Accounts
end Redis
end WarmFeed
