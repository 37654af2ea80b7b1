import WarmFeed.Source.Basic
import WarmFeed.Source.Ranking

/-!
# Sources of timelines

Both timelines are made of the candidates for one account.  The home feed is
ordered by recency: identifiers grow with time, so the identifier is the score.
Great identifiers are rounded when they become scores, but never out of order,
and entries of one score are ordered by identifier again.  The other timeline is
ordered by rank.
-/

namespace WarmFeed
namespace Source

def accountOf (kind : FeedKind) : Subject → Except ServiceError AccountId
  | .account id => .ok id
  | .trending =>
    .error (.internal (kind.name ++ " feeds are per account, got " ++ Subject.trending.name))

def candidatesFor (kind : FeedKind) (limit : Nat) (subject : Subject) :
    Attempt ServiceError (List Candidate) := do
  let account ← (accountOf kind subject : Except ServiceError AccountId)
  ExceptT.mk (Routine.request (Call.candidates account limit))

def recencyEntries (cs : List Candidate) : List Entry :=
  Selection.dedupe (cs.map fun c => ⟨c.statusId, .ofNat c.statusId.toNat⟩)

/-- The source of home feeds. -/
def recency (limit : Nat) : Source := fun subject => do
  return recencyEntries (← candidatesFor .home limit subject)

/-- The source of ranked feeds. -/
def ranked (ranker : Ranker) (limit : Nat) : Source := fun subject => do
  return RankedCandidate.entries (ranker.rank (← candidatesFor .forYou limit subject))

end Source
end WarmFeed
