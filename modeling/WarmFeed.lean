import WarmFeed.Content.Snowflake
import WarmFeed.Http.Client
import WarmFeed.Json.Whole
import WarmFeed.Page.Json
import WarmFeed.Redis.Accounts
import WarmFeed.Redis.Index
import WarmFeed.Redis.Marks
import WarmFeed.Redis.Objects
import WarmFeed.Redis.Server
import WarmFeed.Rehearsal.Runs
import WarmFeed.Routine.Buffered
import WarmFeed.Routine.Interleaving
import WarmFeed.Serving.Timeline
import WarmFeed.Settings.Environment
import WarmFeed.Settings.Json
import WarmFeed.Proofs.Backend
import WarmFeed.Proofs.Buffered
import WarmFeed.Proofs.Course
import WarmFeed.Proofs.Digits
import WarmFeed.Proofs.Dropping
import WarmFeed.Proofs.Ending
import WarmFeed.Proofs.Index.Contents
import WarmFeed.Proofs.Index.Keeper
import WarmFeed.Proofs.Index.Order
import WarmFeed.Proofs.Index.Refinement
import WarmFeed.Proofs.Index.Search
import WarmFeed.Proofs.Index.Sorted
import WarmFeed.Proofs.Index.Windows
import WarmFeed.Proofs.Interleaving
import WarmFeed.Proofs.Json.Number
import WarmFeed.Proofs.Json.Quoted
import WarmFeed.Proofs.Json.RoundTrip
import WarmFeed.Proofs.Json.Shape
import WarmFeed.Proofs.Key
import WarmFeed.Proofs.Occurrences
import WarmFeed.Proofs.Precompute.Apply
import WarmFeed.Proofs.Precompute.Convergence
import WarmFeed.Proofs.Precompute.Cut
import WarmFeed.Proofs.Precompute.Cycle
import WarmFeed.Proofs.Precompute.Dropped
import WarmFeed.Proofs.Precompute.Effect
import WarmFeed.Proofs.Precompute.Greatest
import WarmFeed.Proofs.Precompute.Mark
import WarmFeed.Proofs.Precompute.Outcome
import WarmFeed.Proofs.Precompute.Overlap
import WarmFeed.Proofs.Precompute.Passage
import WarmFeed.Proofs.Precompute.Ranked
import WarmFeed.Proofs.Precompute.Recency
import WarmFeed.Proofs.Precompute.Run
import WarmFeed.Proofs.Precompute.Selection
import WarmFeed.Proofs.Precompute.Sourced
import WarmFeed.Proofs.Precompute.Trending
import WarmFeed.Proofs.Redis.Accounts
import WarmFeed.Proofs.Redis.Bytes
import WarmFeed.Proofs.Redis.Calls
import WarmFeed.Proofs.Redis.Member
import WarmFeed.Proofs.Redis.References
import WarmFeed.Proofs.Redis.Refinement
import WarmFeed.Proofs.Redis.Rows
import WarmFeed.Proofs.Redis.Session
import WarmFeed.Proofs.Redis.Statuses
import WarmFeed.Proofs.Redis.Stored
import WarmFeed.Proofs.Redis.Trimming
import WarmFeed.Proofs.Redis.Window
import WarmFeed.Proofs.Routine
import WarmFeed.Proofs.Score.Grid
import WarmFeed.Proofs.Score.Nearest
import WarmFeed.Proofs.Score.Quotient
import WarmFeed.Proofs.Score.Whole
import WarmFeed.Proofs.Serving.Arrangement
import WarmFeed.Proofs.Serving.Beside
import WarmFeed.Proofs.Serving.Cursors
import WarmFeed.Proofs.Serving.Drift
import WarmFeed.Proofs.Serving.Hydration
import WarmFeed.Proofs.Serving.Neighbours
import WarmFeed.Proofs.Serving.Offsets
import WarmFeed.Proofs.Serving.Reader
import WarmFeed.Proofs.Serving.Walk
import WarmFeed.Proofs.Snowflake
import WarmFeed.Proofs.Source.Answers
import WarmFeed.Proofs.Source.Fetching
import WarmFeed.Proofs.Source.Penalty
import WarmFeed.Proofs.Source.Ranking
import WarmFeed.Proofs.Source.Resolution
import WarmFeed.Proofs.Source.Trends
import WarmFeed.Proofs.Status
import WarmFeed.Proofs.Table
import WarmFeed.Proofs.Timestamp
