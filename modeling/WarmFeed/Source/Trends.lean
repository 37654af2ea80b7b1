import WarmFeed.Settings.Basic
import WarmFeed.Source.Basic

/-!
# The source of the trending feed

Candidates are fetched from the trend source in pages, resolved to local statuses
and scored: by the scores of the trend source if every candidate brought one, and
otherwise by their places, so that the first candidate scores highest.

A candidate that cannot be resolved is left out, and of two candidates that are
the same status the first one counts.  Only if there were candidates and every one
of them failed, resolving fails, so that a failing store never empties the feed.
-/

namespace WarmFeed
namespace Trends

/-- Pages are fetched until there are enough candidates or a page is short.  Every
full page brings at least one candidate, so as many pages suffice as candidates
are wanted. -/
def fetchFrom (pageSize wanted : Nat) :
    Nat → List TrendCandidate → Attempt ServiceError (List TrendCandidate)
  | 0, got => return got
  | pages + 1, got => do
    if wanted ≤ got.length then return got
    let limit := min pageSize (wanted - got.length)
    let page ← ExceptT.mk (Routine.request (Call.fetchPage limit got.length))
    if page.length < limit then return got ++ page
    fetchFrom pageSize wanted pages (got ++ page)

/-- The first candidates of the trend source, as many as are wanted. -/
def fetch (s : TrendsSettings) : Attempt ServiceError (List TrendCandidate) := do
  let got ← fetchFrom (max s.pageSize 1) s.fetchLimit s.fetchLimit []
  return got.take s.fetchLimit

/-- Every candidate brought a score that can be stored. -/
def allScored (cs : List TrendCandidate) : Bool :=
  !cs.isEmpty && cs.all fun c => c.externalScore.any Score.isFinite

/-- What became of each candidate, and the entry it leads to.  Without external
scores a candidate scores one more than there are candidates after it. -/
def judge (external : Bool) (seen : List ContentId) :
    List (TrendCandidate × Call.Resolution) → List (TrendOutcome × Option Entry)
  | [] => []
  | (_, .error _) :: rest => (.failed, none) :: judge external seen rest
  | (_, .ok none) :: rest => (.unresolved, none) :: judge external seen rest
  | (c, .ok (some id)) :: rest =>
    if id ∈ seen then (.duplicate, none) :: judge external seen rest
    else
      let place := Score.ofNat (rest.length + 1)
      let score := if external then c.externalScore.getD place else place
      (.resolved, some ⟨id, score⟩) :: judge external (id :: seen) rest

def countOutcomes : List TrendOutcome → Work Unit
  | [] => return ()
  | o :: rest => do
    countMetric (.trendCandidates o) 1
    countOutcomes rest

def resolve (concurrency : Nat) (cs : List TrendCandidate) :
    Attempt ServiceError (List Entry) := do
  let resolutions ← (Routine.request (Call.resolveAll (max concurrency 1) cs) :
    Work (List Call.Resolution))
  let verdicts := judge (allScored cs) [] (cs.zip resolutions)
  countOutcomes (verdicts.map Prod.fst)
  if !cs.isEmpty && verdicts.all (fun v => v.1 = .failed) then
    throw (.collaborator ("all " ++ toString cs.length ++ " trend candidates failed to resolve"))
  return verdicts.filterMap Prod.snd

/-- The source of the trending feed. -/
def source (s : TrendsSettings) : Source := fun subject => do
  if subject ≠ .trending then
    throw (.internal ("trending merge only serves the shared subject, got " ++ subject.name))
  resolve s.concurrency (← fetch s)

end Trends
end WarmFeed
