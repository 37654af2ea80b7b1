import WarmFeed.Key

/-!
# Metrics

What the service counts.  A metric is a name with labels; its text lists the
labels by name.
-/

namespace WarmFeed

inductive RunOutcome where
  | success
  | error
  | timeout
deriving DecidableEq, Inhabited

def RunOutcome.name : RunOutcome → String
  | success => "success"
  | error => "error"
  | timeout => "timeout"

/-- What became of a trend candidate. -/
inductive TrendOutcome where
  | resolved
  | unresolved
  | failed
  | duplicate
deriving DecidableEq, Inhabited

def TrendOutcome.name : TrendOutcome → String
  | resolved => "resolved"
  | unresolved => "unresolved"
  | failed => "failed"
  | duplicate => "duplicate"

inductive Metric where
  | runs (kind : FeedKind) (outcome : RunOutcome)
  /-- How often a run's duration was measured. -/
  | durations (kind : FeedKind)
  /-- Statuses that an index names and the object store does not have. -/
  | misses
  | trendCandidates (outcome : TrendOutcome)
  /-- Reads and writes of the store that went through, and operations that failed. -/
  | reads (operation : String)
  | writes (operation : String)
  | failures (operation : String)
deriving DecidableEq, Inhabited

namespace Metric

def family : Metric → String
  | runs _ _ => "feed_precompute_runs_total"
  | durations _ => "feed_precompute_duration_seconds"
  | misses => "feed_hydration_misses_total"
  | trendCandidates _ => "feed_trending_candidates_total"
  | reads _ => "feed_store_reads_total"
  | writes _ => "feed_store_writes_total"
  | failures _ => "feed_store_errors_total"

/-- The labels with their values, by name. -/
def labels : Metric → List (String × String)
  | runs kind outcome => [("kind", kind.name), ("outcome", outcome.name)]
  | durations kind => [("kind", kind.name)]
  | misses => []
  | trendCandidates outcome => [("outcome", outcome.name)]
  | reads operation => [("op", operation)]
  | writes operation => [("op", operation)]
  | failures operation => [("op", operation)]

def text (m : Metric) : String :=
  let pairs := m.labels.map fun l => l.1 ++ "=" ++ l.2
  m.family ++ "\x7b" ++ ",".intercalate pairs ++ "\x7d"

end Metric
end WarmFeed
