import WarmFeed.Key
import WarmFeed.Redis.Connection

/-!
# Marks of subjects as expiring values

The mark of a subject is a value that vanishes by itself.  A value cannot vanish
after no time at all, so a mark stays for at least a second.
-/

namespace WarmFeed
namespace Redis
namespace Marks

/-- The seconds that a mark of so many milliseconds stays. -/
def expiry (millis : Nat) : Nat := max (millis / 1000) 1

def mark (subject : Subject) (millis : Nat) : Attempt Unit :=
  send "signal_mark" .write
    (.setExpiring (StoreKey.regeneration subject).text (expiry millis) "1")

def clear (subject : Subject) : Attempt Unit :=
  send "signal_clear" .write (.delete (StoreKey.regeneration subject).text)

def isMarked (subject : Subject) : Attempt Bool :=
  send "signal_read" .read (.isPresent (StoreKey.regeneration subject).text)

end Marks
end Redis
end WarmFeed
