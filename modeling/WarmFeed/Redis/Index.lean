import WarmFeed.Index.Request
import WarmFeed.Redis.Connection
import WarmFeed.Redis.Member

/-!
# The feed index in sorted sets

A feed is a sorted set of members with their scores.  A boundary of a query is a
position, but sets can only be asked for ranges of scores.  So the entries that
share the score of the leading boundary are read in full, together with the rest
of the window, and the entries that do not belong to it are dropped here.
-/

namespace WarmFeed
namespace Redis

/-- Ranks are signed, so nothing beyond this one can be asked for. -/
def greatestRank : Nat := 0x7fffffffffffffff

/-- The first and last rank of a window, both inclusive.  Negative ranks would count
from the other end, so neither may wrap around. -/
def rankBounds (offset limit : Nat) : Option (Nat × Nat) :=
  if limit = 0 ∨ greatestRank < offset then none
  else some (offset, min (offset + (limit - 1)) greatestRank)

/-- The entries of a query among the rows, up to its limit. -/
def collectWindow (q : RangeQuery) :
    Nat → List (String × Score) → Except StoreError (List ContentId)
  | _, [] => .ok []
  | 0, _ :: _ => .ok []
  | room + 1, (member, score) :: rest => do
    let id ← decodeMember member
    if q.contains ⟨score, id⟩ then return id :: (← collectWindow q room rest)
    else collectWindow q (room + 1) rest

/-- The members of entries, if all their scores can be stored. -/
def scoredMembers (es : List Entry) : Except StoreError (List (Score × String)) :=
  es.mapM fun e => return (← e.score.validate, encodeMember e.id)

namespace Index

def limitOf (b : Bound) (unbounded : ScoreLimit) : ScoreLimit :=
  match b with
  | .unbounded => unbounded
  | .exclusive p => .inclusive p.score

/-- The rows of a query: those that share the leading score, if there is one, and
then the rest. -/
def rows (key : String) (q : RangeQuery) : Attempt (List (String × Score)) := do
  let fetch := some (min q.limit greatestRank)
  let low := limitOf q.lower .lowest
  let high := limitOf q.upper .highest
  let up := decide (q.direction = .ascending)
  match q.leading with
  | .unbounded => send "range" .read (.zrangeByScore up key low high fetch)
  | .exclusive p =>
    let beyond := ScoreLimit.exclusive p.score
    let (restLow, restHigh) := if up then (beyond, high) else (low, beyond)
    let (ties, rest, ()) ← sendAll "range" .read
      [.zrangeByScore up key (.tied p.score) (.tied p.score) none,
        .zrangeByScore up key restLow restHigh fetch]
    return ties ++ rest

def upsert (key : String) (e : Entry) : Attempt Unit := do
  let score ← (e.score.validate : Except StoreError Score)
  send "upsert" .write (.zadd key [(score, encodeMember e.id)])

def upsertMany (key : String) (es : List Entry) : Attempt Unit := do
  if es.isEmpty then return ()
  let items ← (scoredMembers es : Except StoreError (List (Score × String)))
  send "upsert_many" .write (.zadd key items)

def removeMany (key : String) (ids : List ContentId) : Attempt Unit := do
  if ids.isEmpty then return ()
  send "remove_many" .write (.zrem key (ids.map encodeMember))

def range (key : String) (q : RangeQuery) : Attempt (List ContentId) := do
  if q.limit = 0 then return []
  let found ← rows key q
  (collectWindow q q.limit found : Except StoreError (List ContentId))

def rankWindow (key : String) (offset limit : Nat) : Attempt (List ContentId) := do
  match rankBounds offset limit with
  | none => return []
  | some (start, stop) =>
    let members ← send "rank_window" .read (.zrevrange key start stop)
    (members.mapM decodeMember : Except StoreError (List ContentId))

def entries (key : String) : Attempt (List Entry) := do
  let found ← send "entries" .read (.zrange key 0 (-1))
  (found.mapM fun row => return ⟨← decodeMember row.1, row.2⟩ :
    Except StoreError (List Entry))

/-- Build the contents under the staging key and move them over the old ones. -/
def replace (key : StoreKey) (es : List Entry) : Attempt Unit := do
  let items ← (scoredMembers es : Except StoreError (List (Score × String)))
  if items.isEmpty then
    let _ ← sendAll "replace" .write [.delete key.text]
  else
    let staging := key.staging.text
    let _ ← sendAll "replace" .write
      [.delete staging, .zadd staging items, .rename staging key.text]

def size (key : String) : Attempt Nat := send "len" .uncounted (.zcard key)

/-- Look how many entries there are, and remove the lowest ones by their ranks. -/
def trim (key : String) (capacity : Nat) : Attempt Nat := do
  let n ← size key
  if n ≤ capacity then return 0
  send "trim" .write (.zremrangeByRank key 0 ((n - capacity : Nat) - 1))

/-- Carry a request about a feed out. -/
def answer (key : StoreKey) : (r : IndexRequest) → Attempt r.Answer
  | .upsert e => upsert key.text e
  | .upsertMany es => upsertMany key.text es
  | .remove id => send "remove" .write (.zrem key.text [encodeMember id])
  | .removeMany ids => removeMany key.text ids
  | .rank id => send "rank" .read (.zrank key.text (encodeMember id))
  | .score id => send "score" .read (.zscore key.text (encodeMember id))
  | .range q => range key.text q
  | .rankWindow offset limit => rankWindow key.text offset limit
  | .entries => entries key.text
  | .replace es => replace key es
  | .size => size key.text
  | .trim capacity => trim key.text capacity

end Index
end Redis
end WarmFeed
