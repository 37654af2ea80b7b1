import WarmFeed.Duration
import WarmFeed.Key
import WarmFeed.Score.Text

/-!
# What can go wrong

The store refuses scores and members it cannot keep in order.  The service adds
the failures of its collaborators, and a precompute run reports either a failure
of the store or one of the source it asked.  An error is its cause; the text is
written by `message` alone.
-/

namespace WarmFeed

inductive StoreError where
  /-- The backend did not answer, or not with what was asked for. -/
  | backend (detail : String)
  /-- A score without a place among the numbers. -/
  | invalidScore (score : Score)
  /-- A member that is no identifier. -/
  | invalidMember (member : String)
deriving DecidableEq, Inhabited

def StoreError.message : StoreError → String
  | backend detail => "Redis error: " ++ detail
  | invalidScore score => "Invalid score: " ++ score.text Score.plain
  | invalidMember member => "Invalid index member: " ++ member

inductive ServiceError where
  | store (cause : StoreError)
  /-- A collaborator outside the store failed. -/
  | collaborator (detail : String)
  | timeout (after : Duration)
  | config (detail : String)
  | internal (detail : String)
deriving DecidableEq, Inhabited

def ServiceError.message : ServiceError → String
  | store cause => "Store error: " ++ cause.message
  | collaborator detail => "Upstream error: " ++ detail
  | timeout after => "Operation timed out after " ++ after.text
  | config detail => "Configuration error: " ++ detail
  | internal detail => "Internal error: " ++ detail

/-- Why a precompute run failed. -/
inductive RunError where
  | noSource (kind : FeedKind)
  /-- The source failed; the text says how. -/
  | source (detail : String)
  | timeout (after : Duration)
  | store (cause : StoreError)
deriving DecidableEq, Inhabited

namespace RunError

def message : RunError → String
  | noSource kind => "No source registered for " ++ kind.name ++ " feeds"
  | source detail => "Source fetch failed: " ++ detail
  | timeout after => "Source fetch timed out after " ++ after.text
  | store cause => "Store error: " ++ cause.message

/-- A failing source fails the run with its own cause where the run has a case for
it, and with its text otherwise. -/
def ofServiceError : ServiceError → RunError
  | .store cause => store cause
  | .timeout after => timeout after
  | e => source e.message

end RunError
end WarmFeed
