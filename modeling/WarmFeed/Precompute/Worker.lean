import WarmFeed.Precompute.Apply
import WarmFeed.Precompute.Selection

/-!
# Computing feeds

A run computes one feed of one subject: it marks the subject, asks the source of
the kind, brings the entries into the index and takes the mark back.  The mark is
taken back whatever failed in between, and also when the run is dropped after it
was marked and before it takes the mark back itself.  A failure to take it back
changes nothing about the result, since the mark runs out by itself.

An account is populated under one mark: first its home feed, then its ranked
feed, which is not computed if the first has failed.
-/

namespace WarmFeed

/-- What a run did. -/
structure Report where
  kind : FeedKind
  subject : Subject
  applied : Nat
  removed : Nat
deriving DecidableEq, Inhabited

/-- Computes feeds of the kinds that have a source. -/
structure Worker where
  kinds : List FeedKind
  settings : PrecomputeSettings
deriving DecidableEq, Inhabited

namespace Worker

def hasSource (w : Worker) (kind : FeedKind) : Bool := decide (kind ∈ w.kinds)

/-- Work on a subject under a mark, unless the subject cannot be marked. -/
def underMark {α : Type} (seconds : Nat) (subject : Subject) (work : Work α) :
    Work (Except StoreError α) := do
  match ← Routine.request (Call.mark subject seconds) with
  | .error e => return .error e
  | .ok () =>
    let result ← work.guarded [Call.clear subject]
    let _ ← Routine.request (Call.clear subject)
    return .ok result

/-- The entries of a source, cut down to what the feed keeps. -/
def compute (w : Worker) (kind : FeedKind) (subject : Subject) :
    Attempt RunError (List Entry) := do
  if !w.hasSource kind then throw (.noSource kind)
  match ← (Routine.request (Call.compute kind subject w.settings.timeoutSeconds) :
      Work (Option (Except ServiceError (List Entry)))) with
  | none => throw (.timeout w.settings.timeout)
  | some (.error e) => throw (.ofServiceError e)
  | some (.ok entries) => return Selection.top w.settings.capacity (Selection.dedupe entries)

def computeAndApply (w : Worker) (kind : FeedKind) (subject : Subject) :
    Attempt RunError Report := do
  let entries ← w.compute kind subject
  let key := StoreKey.index kind subject
  let done ← (Apply.apply w.settings.applyMode w.settings.capacity key entries).mapError .store
  return ⟨kind, subject, done.applied, done.removed⟩

def outcome {α : Type} : Except RunError α → RunOutcome
  | .ok _ => .success
  | .error (.timeout _) => .timeout
  | .error _ => .error

/-- Compute and apply, and count what came of it. -/
def regenerate (w : Worker) (kind : FeedKind) (subject : Subject) :
    Work (Except RunError Report) := do
  let result ← (w.computeAndApply kind subject).run
  countMetric (.durations kind) 1
  countMetric (.runs kind (outcome result)) 1
  return result

/-- Compute one feed of one subject. -/
def run (w : Worker) (kind : FeedKind) (subject : Subject) : Work (Except RunError Report) := do
  match ← underMark w.settings.markSeconds subject (w.regenerate kind subject) with
  | .ok result => return result
  | .error e => return .error (.store e)

/-- Compute the feeds of the given kinds that have a source, up to the first failure. -/
def regenerateAll (w : Worker) (subject : Subject) :
    List FeedKind → Work (Except RunError (List Report))
  | [] => return .ok []
  | kind :: rest => do
    if w.hasSource kind then
      match ← w.regenerate kind subject with
      | .error e => return .error e
      | .ok report => return (← w.regenerateAll subject rest).map (report :: ·)
    else w.regenerateAll subject rest

/-- Compute the feeds of an account. -/
def populate (w : Worker) (account : AccountId) : Work (Except RunError (List Report)) := do
  let subject : Subject := .account account
  match ← underMark w.settings.markSeconds subject
      (w.regenerateAll subject [.home, .forYou]) with
  | .ok result => return result
  | .error e => return .error (.store e)

end Worker
end WarmFeed
