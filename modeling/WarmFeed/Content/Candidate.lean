import WarmFeed.Content.Status
import WarmFeed.Table

/-!
# Candidates

Two collaborators propose statuses for feeds.  A trend source names statuses by
references that have yet to be resolved, in the order of their popularity.  The
candidate service names local statuses together with counts of what the account
and others did, from which a rank is computed.
-/

namespace WarmFeed

structure TrendCandidate where
  reference : String
  externalScore : Option Score
  /-- The status itself, where the source sent it along. -/
  remote : Option RemoteStatus
deriving DecidableEq, Inhabited

namespace TrendCandidate

def ofRemote (s : RemoteStatus) : TrendCandidate :=
  { reference := s.reference, externalScore := none, remote := some s }

def toJson (c : TrendCandidate) : Json :=
  .record
    [("reference", .string c.reference), ("external_score", .optional .real c.externalScore),
      ("remote", .optional RemoteStatus.toJson c.remote)]

def shape : Json.Shape TrendCandidate :=
  mk <$> .required "reference" Json.takeString
    <*> .optional "external_score" Json.takeScore
    <*> .optional "remote" RemoteStatus.shape.take

end TrendCandidate

/-- A status with its counts for one account. -/
structure Candidate where
  statusId : ContentId
  username : String
  /-- Empty for local authors. -/
  domain : String
  aggregates : Table String Int
deriving DecidableEq, Inhabited

namespace Candidate

/-- The author, as told apart from other authors when ranks are lowered. -/
def authorKey (c : Candidate) : String := c.username ++ "@" ++ c.domain

def toJson (c : Candidate) : Json :=
  .record
    [("status_id", .natural c.statusId.toNat), ("author_username", .string c.username),
      ("author_domain", .string c.domain),
      ("aggregates", .record (c.aggregates.pairs.map fun p => (p.1, .number (.whole p.2))))]

/-- Counts of 64 bits by name; of two with one name the later holds. -/
def takeAggregates : Json.Reading (Table String Int) := fun j => do
  let takeCount := Json.takeWhole (-0x8000000000000000) 0x7fffffffffffffff
  return Table.ofList (← Json.takeMembers takeCount j)

def shape : Json.Shape Candidate :=
  mk <$> .required "status_id" Json.takeId
    <*> .required "author_username" Json.takeString
    <*> .withDefault "author_domain" "" Json.takeString
    <*> .withDefault "aggregates" ∅ takeAggregates

end Candidate

structure RankedCandidate where
  rank : Score
  candidate : Candidate
deriving DecidableEq, Inhabited

namespace RankedCandidate

def toJson (c : RankedCandidate) : Json :=
  .record [("rank", .real c.rank), ("candidate", c.candidate.toJson)]

def shape : Json.Shape RankedCandidate :=
  mk <$> .required "rank" Json.takeScore <*> .required "candidate" Candidate.shape.take

end RankedCandidate
end WarmFeed
