import WarmFeed.Marks
import WarmFeed.Rehearsal.Act
import WarmFeed.Settings.Basic

/-!
# The stage of a rehearsal

The stage holds the feeds, the marks and the scripts of all collaborators.  It
answers every act, keeps a log of what it was asked, and counts metrics.  A write
is logged before anything else; then a fault may be set for it, and only if there
is none it takes effect.  Reads are not logged.

Marks are read at a clock that stands still, so a mark of zero seconds never
counts and every longer one stays.
-/

namespace WarmFeed
namespace Rehearsal

inductive LogLine where
  /-- A write of the feed under a key. -/
  | write (key : StoreKey) (r : IndexRequest)
  | mark (subject : Subject) (seconds : Nat)
  | clear (subject : Subject)
  | bulkFetch (ids : List ContentId)
  | resolve (reference : String)
  | fetchPage (limit offset : Nat)
  | candidates (account : AccountId) (limit : Nat)
  | activeAccounts (limit : Nat)
  /-- A source started; the flag says whether its subject was marked, if that can
  be told. -/
  | compute (kind : FeedKind) (subject : Subject) (marked : Option Bool)
deriving DecidableEq

/-- How the trend source answers. -/
structure TrendScript where
  candidates : List TrendCandidate
  pageCap : Option Nat
  ignoreLimit : Bool
  /-- Pages from this offset on fail. -/
  errorAt : Option (Nat × ServiceError)

/-- A run in the background that waits for its time. -/
structure Slot where
  run : Nat
  wakeAt : Nat
  /-- Whether the run goes before the foreground where both are due. -/
  first : Bool
  rest : Unit → Acting Unit

structure Stage where
  index : FeedIndex
  marks : Marks
  statuses : Table ContentId Status
  /-- What references resolve to. -/
  references : Table String Call.Resolution
  nextId : ContentId
  /-- How long a resolution takes. -/
  resolveMillis : Nat
  /-- Statuses that the object store returns without being asked. -/
  extras : List Status
  trend : TrendScript
  candidates : Table AccountId (List Candidate)
  accounts : List AccountId
  storeFaults : Table String StoreError
  serviceFaults : Table String ServiceError
  scripts : Table FeedKind Script
  serving : ServingSettings
  precompute : PrecomputeSettings
  trends : TrendsSettings
  /-- The latest line first. -/
  log : List LogLine
  counts : Table Metric Nat
  now : Nat
  /-- Runs in the background, each started by the one before it. -/
  slots : List Slot
  /-- What dropped routines left behind, the oldest first. -/
  leftBehind : List Act
  /-- Someone began to wait for several things at once, and looks at them once more. -/
  restless : Bool
  results : Table Nat (Except RunError Report)
  runs : Nat

namespace Stage

def firstCreatedId : ContentId := 1001

def empty : Stage :=
  { index := ∅, marks := ∅, statuses := ∅, references := ∅, nextId := firstCreatedId
    resolveMillis := 0, extras := []
    trend := { candidates := [], pageCap := none, ignoreLimit := false, errorAt := none }
    candidates := ∅, accounts := [], storeFaults := ∅, serviceFaults := ∅, scripts := ∅
    serving := .default, precompute := .default, trends := .default
    log := [], counts := ∅, now := 0, slots := [], leftBehind := [], restless := false
    results := ∅, runs := 0 }

/-- A plain local status with the given identifier. -/
def plainStatus (id : ContentId) : Status :=
  { id, uri := "https://local.example/statuses/" ++ toString id.toNat, url := none
    author := { username := "ana", domain := none }, content := "status " ++ toString id.toNat
    createdAt := ⟨⟨2023, 11, 14⟩, 80000, 0, by decide⟩
    replies := 0, reblogs := 0, favourites := 0 }

def putStatuses (w : Stage) (ss : List Status) : Stage :=
  { w with statuses := w.statuses.setAll (ss.map fun s => (s.id, s)) }

def deleteIds (w : Stage) (ids : List ContentId) : Stage :=
  { w with statuses := ids.foldl (fun t id => t.erase id) w.statuses }

def note (w : Stage) (line : LogLine) : Stage := { w with log := line :: w.log }

def count (w : Stage) (metric : Metric) (n : Nat) : Stage :=
  { w with counts := w.counts.set metric ((w.counts.get? metric).getD 0 + n) }

/-- The answer of something that may have been set to fail. -/
def unlessStoreFault {α : Type} (w : Stage) (target : String)
    (answer : Except StoreError α × Stage) : Except StoreError α × Stage :=
  match w.storeFaults.get? target with
  | some e => (.error e, w)
  | none => answer

def unlessServiceFault {α : Type} (w : Stage) (target : String)
    (answer : Except ServiceError α × Stage) : Except ServiceError α × Stage :=
  match w.serviceFaults.get? target with
  | some e => (.error e, w)
  | none => answer

def isWrite : IndexRequest → Bool
  | .upsert _ | .upsertMany _ | .remove _ | .removeMany _ | .replace _ | .trim _ => true
  | _ => false

def onIndex (w : Stage) (key : StoreKey) (r : IndexRequest) :
    Except StoreError r.Answer × Stage :=
  let w := if isWrite r then w.note (.write key r) else w
  let (answer, index) := w.index.answer key r
  w.unlessStoreFault r.name (answer, { w with index })

/-- The moment at which marks are set and read. -/
def markMoment : Nat := 0

def readMark (w : Stage) (subject : Subject) : Except StoreError Bool :=
  (w.unlessStoreFault "is_regenerating" (.ok (w.marks.isMarked subject markMoment), w)).1

def trendPage (s : TrendScript) (limit offset : Nat) : Except ServiceError (List TrendCandidate) :=
  let failure := s.errorAt.filter fun e => decide (e.1 ≤ offset)
  match failure with
  | some (_, e) => .error e
  | none =>
    let page := s.candidates.drop offset
    let page := if s.ignoreLimit then page else page.take limit
    .ok (match s.pageCap with
      | some cap => page.take cap
      | none => page)

/-- The answer to a call, and the stage after it.  Calls that take time come as
other acts. -/
def answerCall (w : Stage) : (c : Call) → c.Reply × Stage
  | .index key r => w.onIndex key r
  | .mark subject seconds =>
    let w := w.note (.mark subject seconds)
    w.unlessStoreFault "mark"
      (.ok (), { w with marks := w.marks.mark subject markMoment seconds })
  | .clear subject =>
    let w := w.note (.clear subject)
    w.unlessStoreFault "clear" (.ok (), { w with marks := w.marks.clear subject })
  | .isMarked subject => (w.readMark subject, w)
  | .compute _ _ _ => (none, w)
  | .bulkFetch ids =>
    let w := w.note (.bulkFetch ids)
    w.unlessServiceFault "bulk_fetch"
      (.ok (ids.reverse.filterMap w.statuses.get? ++ w.extras), w)
  | .resolveAll _ _ => ([], w)
  | .fetchPage limit offset => (trendPage w.trend limit offset, w.note (.fetchPage limit offset))
  | .candidates account limit =>
    let w := w.note (.candidates account limit)
    w.unlessServiceFault "candidates"
      (.ok (((w.candidates.get? account).getD []).take limit), w)
  | .activeAccounts limit =>
    let w := w.note (.activeAccounts limit)
    w.unlessServiceFault "active_accounts" (.ok w.accounts, w)
  | .count metric n => ((), w.count metric n)

/-- Resolve a candidate.  A reference that is not known yet gets the next local
identifier, if the status came along. -/
def settle (w : Stage) (c : TrendCandidate) : Call.Resolution × Stage :=
  match w.references.get? c.reference with
  | some outcome => (outcome, w)
  | none =>
    match c.remote with
    | none => (.ok none, w)
    | some remote =>
      let id := w.nextId
      (.ok (some id),
        { w with
          nextId := id + 1
          statuses := w.statuses.set id (remote.toLocal id)
          references := w.references.set c.reference (.ok (some id)) })

def answer (w : Stage) : (a : Act) → a.Reply × Stage
  | .call c => w.answerCall c
  | .announce kind subject =>
    ((), w.note (.compute kind subject (w.readMark subject).toOption))
  | .begin reference =>
    let w := w.note (.resolve reference)
    (w.resolveMillis, { w with restless := w.restless || decide (0 < w.resolveMillis) })
  | .settle c => w.settle c
  | .finish run result => ((), { w with results := w.results.set run result })

end Stage
end Rehearsal
end WarmFeed
