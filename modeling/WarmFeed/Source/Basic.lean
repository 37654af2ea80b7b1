import WarmFeed.Call

/-!
# Sources of feeds

A source computes the whole contents of a subject's feed.
-/

namespace WarmFeed

abbrev Source := Subject → Attempt ServiceError (List Entry)

/-- The sources that are registered, by the kind of feed they compute. -/
abbrev Sources := Table FeedKind Source

namespace Sources

/-- Answer the calls for a feed's contents by the registered sources and pass every
other call on.  A source that takes too long is dropped. -/
def serve (sources : Sources) : (c : Call) → Work c.Reply
  | .compute kind subject seconds =>
    match sources.get? kind with
    | none => return none
    | some source => (source subject).run.within (1000 * seconds)
  | c => Routine.request c

/-- The routine with the sources in the place of the calls for them. -/
def run {α : Type} (sources : Sources) (work : Work α) : Work α := work.serve id sources.serve

end Sources
end WarmFeed
