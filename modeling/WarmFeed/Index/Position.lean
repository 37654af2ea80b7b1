import WarmFeed.Key
import WarmFeed.Score.Basic

/-!
# Positions in an index

An entry is an identifier with a score.  Its position is the same pair read the
other way: entries stand in ascending order of score, and entries of one score
in ascending order of identifier.  The order is total, so a position can serve
as the boundary of a page.
-/

namespace WarmFeed

structure Entry where
  id : ContentId
  score : Score
deriving DecidableEq, Inhabited

structure Position where
  score : Score
  id : ContentId
deriving DecidableEq, Inhabited

def Entry.position (e : Entry) : Position := ⟨e.score, e.id⟩

namespace Position

def entry (p : Position) : Entry := ⟨p.id, p.score⟩

def order (a b : Position) : Ordering := (a.score.order b.score).then (compare a.id b.id)

/-- Whether `a` stands strictly before `b`. -/
def isBefore (a b : Position) : Bool := a.order b == .lt

/-- Whether `a` stands strictly after `b`. -/
def isAfter (a b : Position) : Bool := a.order b == .gt

end Position
end WarmFeed
