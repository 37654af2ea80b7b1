import WarmFeed.Content.Status
import WarmFeed.Index.Query

/-!
# Pages

A page of a timeline is asked for by a limit and by identifiers that the page
should lie beside, and hands back the identifiers at its two ends.  A page of
the trending feed is asked for and continued by offset.  Either says whether a
new computation of the feed is under way.
-/

namespace WarmFeed

/-- Offsets, limits and counts lie below this bound. -/
def wordBound : Nat := 0x10000000000000000

structure PageRequest where
  limit : Option Nat
  maxId : Option ContentId
  sinceId : Option ContentId
  minId : Option ContentId
deriving DecidableEq, Inhabited

/-- The limit asked for, or the usual one, moved into the range from 1 to `most`. -/
def clampLimit (asked : Option Nat) (usual most : Nat) : Nat :=
  min (max (asked.getD usual) 1) (max most 1)

namespace PageRequest

def effectiveLimit (r : PageRequest) (usual most : Nat) : Nat := clampLimit r.limit usual most

end PageRequest

inductive FeedStatus where
  | complete
  /-- A new computation is under way, so the page may be out of date. -/
  | regenerating
deriving DecidableEq, Inhabited

namespace FeedStatus

def ofRegenerating (b : Bool) : FeedStatus := if b then regenerating else complete

/-- The status code of a response that carries the page. -/
def code : FeedStatus → Nat
  | complete => 200
  | regenerating => 206

def name : FeedStatus → String
  | complete => "complete"
  | regenerating => "regenerating"

def all : List FeedStatus := [complete, regenerating]

end FeedStatus

/-- The identifiers of one page, in the order in which the index was walked. -/
structure FeedWindow where
  ids : List ContentId
  direction : Direction
deriving DecidableEq, Inhabited

namespace FeedWindow

def oldest (w : FeedWindow) : Option ContentId :=
  match w.direction with
  | .descending => w.ids.getLast?
  | .ascending => w.ids.head?

def newest (w : FeedWindow) : Option ContentId :=
  match w.direction with
  | .descending => w.ids.head?
  | .ascending => w.ids.getLast?

end FeedWindow

/-- Where to go on from a timeline page. -/
structure IdCursors where
  /-- The `maxId` of the older page. -/
  nextMaxId : Option ContentId
  /-- The `minId` of the newer page. -/
  prevMinId : Option ContentId
deriving DecidableEq, Inhabited

namespace IdCursors

def none : IdCursors := ⟨.none, .none⟩

/-- The cursors are the ends of the window that was read, whatever became of the
statuses in it. -/
def ofWindow (w : FeedWindow) : IdCursors := ⟨w.oldest, w.newest⟩

end IdCursors

/-- Where to go on from a trending page. -/
structure OffsetCursors where
  nextOffset : Option Nat
  prevOffset : Option Nat
deriving DecidableEq, Inhabited

namespace OffsetCursors

def none : OffsetCursors := ⟨.none, .none⟩

/-- There is a next page after a full one, as long as its offset can be written,
and a previous page as soon as a whole page lies before this one. -/
def ofPage (offset limit returned : Nat) : OffsetCursors :=
  { nextOffset :=
      if 0 < limit ∧ returned = limit ∧ offset + limit < wordBound then some (offset + limit)
      else .none
    prevOffset := if limit < offset then some (offset - limit) else .none }

end OffsetCursors

structure FeedPage where
  statuses : List Status
  status : FeedStatus
  cursors : IdCursors
deriving DecidableEq, Inhabited

def FeedPage.empty (status : FeedStatus) : FeedPage := ⟨[], status, .none⟩

structure TrendingPage where
  statuses : List Status
  status : FeedStatus
  cursors : OffsetCursors
deriving DecidableEq, Inhabited

def TrendingPage.empty : TrendingPage := ⟨[], .complete, .none⟩

end WarmFeed
