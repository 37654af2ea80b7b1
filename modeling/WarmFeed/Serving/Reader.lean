import WarmFeed.Call
import WarmFeed.Page

/-!
# Reading windows of a feed

The cursors of a request are identifiers.  Each is looked up in the feed and
becomes an exclusive boundary; an identifier that is not there bounds nothing.
Without `minId` the window is read downwards from `maxId` to `sinceId`, and with
it upwards from `minId` to `maxId`.
-/

namespace WarmFeed
namespace Reader

/-- The boundary at an identifier, if there is one and the feed has it. -/
def resolveCursor (key : StoreKey) : Option ContentId → Attempt StoreError Bound
  | none => return .unbounded
  | some id => do
    match ← askIndex key (.score id) with
    | some score => return .exclusive ⟨score, id⟩
    | none => return .unbounded

/-- The query that a page request stands for. -/
def resolveQuery (key : StoreKey) (page : PageRequest) (limit : Nat) :
    Attempt StoreError RangeQuery := do
  let upper ← resolveCursor key page.maxId
  match page.minId with
  | none => return .down upper (← resolveCursor key page.sinceId) limit
  | some id => return .up (← resolveCursor key (some id)) upper limit

/-- The window of a page; the limit has been settled before. -/
def readWindow (key : StoreKey) (page : PageRequest) (limit : Nat) :
    Attempt StoreError FeedWindow := do
  let query ← resolveQuery key page limit
  return ⟨← askIndex key (.range query), query.direction⟩

def read (kind : FeedKind) (subject : Subject) (page : PageRequest) (limit : Nat) :
    Attempt ServiceError FeedWindow :=
  if kind.isPagedByOffset then
    throw (.internal (kind.name ++ " feed is paged by offset, not by id cursor"))
  else (readWindow (.index kind subject) page limit).mapError .store

/-- The identifiers from an offset on, the highest score first. -/
def readOffset (kind : FeedKind) (subject : Subject) (offset limit : Nat) :
    Attempt ServiceError (List ContentId) :=
  if kind.isPagedByOffset then
    Attempt.mapError (askIndex (.index kind subject) (.rankWindow offset limit)) .store
  else throw (.internal (kind.name ++ " feed is paged by id cursor, not by offset"))

end Reader
end WarmFeed
