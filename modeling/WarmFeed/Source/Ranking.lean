import WarmFeed.Content.Candidate
import WarmFeed.Precompute.Selection
import WarmFeed.Score.Rounding

/-!
# Ranking candidates

A candidate's rank is the weighted sum of its counts.  So that no author fills a
feed, only the strongest candidate of each author keeps its rank: every further
one is multiplied by a factor that shrinks from one to the next.
-/

namespace WarmFeed

structure Ranker where
  /-- A count without a weight weighs nothing. -/
  weights : Table String Score
  /-- What the factor of an author is multiplied by after each use. -/
  decay : Score
deriving DecidableEq

namespace Ranker

/-- A decimal fraction with `places` places. -/
def fraction (num places : Nat) : Score := .ofRatio false num (Nat.pow 10 places)

def usualDecay : Score := fraction 75 2

def usualWeights : List (String × Score) :=
  [("account_liked_author_status_count", fraction 10 0),
    ("account_liked_status_count", fraction 0 0),
    ("account_liked_tag_status_count", fraction 10 0),
    ("account_rebloged_author_status_count", fraction 30 0),
    ("account_rebloged_status_count", fraction 0 0),
    ("account_rebloged_tag_status_count", fraction 20 0),
    ("author_follower_count", fraction 4 3),
    ("author_like_count", fraction 4 1),
    ("author_reblog_count", fraction 8 1),
    ("author_reply_count", fraction 6 1),
    ("candidate_status_like_count", fraction 1 0),
    ("candidate_status_reblog_count", fraction 2 0),
    ("candidate_status_reply_count", fraction 15 1),
    ("average_like_embedding_similarity", fraction 2 0),
    ("average_reblog_embedding_similarity", fraction 3 0),
    ("account_liked_status_with_similar_embedding", fraction 8 0),
    ("account_rebloged_status_with_similar_embedding", fraction 15 0)]

def usual : Ranker := { weights := Table.ofList usualWeights, decay := usualDecay }

/-- The weighted sum of the counts, added up from minus zero. -/
def score (r : Ranker) (c : Candidate) : Score :=
  let terms := c.aggregates.pairs.filterMap fun p =>
    (r.weights.get? p.1).map fun weight => weight * Score.ofInt p.2
  terms.foldl (· + ·) .negativeZero

/-- Whether `a` stands before or beside `b`: by rank and then by identifier, the
greater first. -/
def notAfter (a b : RankedCandidate) : Bool :=
  ((b.rank.order a.rank).then (compare b.candidate.statusId a.candidate.statusId)) != .gt

/-- Multiply the ranks of authors met before by their factors. -/
def penalize (decay : Score) (factors : Table String Score) :
    List RankedCandidate → List RankedCandidate
  | [] => []
  | c :: rest =>
    let author := c.candidate.authorKey
    match factors.get? author with
    | none => c :: penalize decay (factors.set author decay) rest
    | some factor =>
      { c with rank := c.rank * factor } ::
        penalize decay (factors.set author (factor * decay)) rest

/-- Order by rank and lower the ranks of repeated authors. -/
def downrankAuthors (r : Ranker) (cs : List RankedCandidate) : List RankedCandidate :=
  penalize r.decay ∅ (cs.mergeSort notAfter)

def rank (r : Ranker) (cs : List Candidate) : List RankedCandidate :=
  r.downrankAuthors (cs.map fun c => ⟨r.score c, c⟩)

end Ranker

/-- The entries of ranked candidates, one for each status. -/
def RankedCandidate.entries (cs : List RankedCandidate) : List Entry :=
  Selection.dedupe (cs.map fun c => ⟨c.candidate.statusId, c.rank⟩)

end WarmFeed
