import WarmFeed.Content.Candidate
import WarmFeed.Content.Snowflake
import WarmFeed.Redis.Connection
import WarmFeed.Text.Word

/-!
# The object store

Statuses are stored as JSON under their identifiers, and references as the
identifiers of their statuses.

A reference that is not known yet gets a new identifier.  The status is stored
first, and then the reference is claimed.  Whoever comes too late with a claim
takes the own status away again and returns the identifier that won.
-/

namespace WarmFeed
namespace Redis
namespace Objects

/-- The statuses of the identifiers; one whose text cannot be read is left out. -/
def bulkFetch (ids : List ContentId) : Attempt (List Status) := do
  if ids.isEmpty then return []
  let texts ← ask (.mget (ids.map fun id => (StoreKey.status id).text))
  return texts.filterMap fun text => text.bind Status.decode?

def put (s : Status) : Attempt Unit := ask (.set (StoreKey.status s.id).text s.encode)

/-- The identifier that a stored text stands for. -/
def readId : Option String → Except StoreError (Option ContentId)
  | none => .ok none
  | some text =>
    match Text.parseWord text with
    | .ok n => .ok (some (UInt64.ofNat n))
    | .error why => .error (.backend why.message)

def lookUp (reference : String) : Attempt (Option ContentId) := do
  let text ← ask (.get (StoreKey.statusReference reference).text)
  (readId text : Except StoreError (Option ContentId))

/-- Store a status that came along with a reference, and claim the reference for it. -/
def create (reference : String) (remote : RemoteStatus) : Attempt (Option ContentId) := do
  let sequence ← ask (.increment StoreKey.statusSequence.text)
  let id := Snowflake.id remote.createdAt (UInt64.ofInt sequence)
  put (remote.toLocal id)
  let claimed ← ask (.setNew (StoreKey.statusReference reference).text (toString id.toNat))
  if claimed then return some id
  ask (.delete (StoreKey.status id).text)
  lookUp reference

def resolveOrCreate (c : TrendCandidate) : Attempt (Option ContentId) := do
  match ← lookUp c.reference with
  | some id => return some id
  | none =>
    match c.remote with
    | none => return none
    | some remote => create c.reference remote

end Objects
end Redis
end WarmFeed
