import WarmFeed.Index.Position

/-!
# Windows of an index

A query asks for the entries strictly between two positions, either of which may
be missing, walking up or down, and at most so many of them.  The boundaries are
positions rather than scores, so an entry that serves as a cursor never shows up
in its own page and entries of its score are neither lost nor repeated.
-/

namespace WarmFeed

inductive Bound where
  | unbounded
  | exclusive (p : Position)
deriving DecidableEq, Inhabited

inductive Direction where
  | ascending
  | descending
deriving DecidableEq, Inhabited

structure RangeQuery where
  lower : Bound
  upper : Bound
  limit : Nat
  direction : Direction
deriving DecidableEq, Inhabited

namespace Bound

def isAbove (b : Bound) (p : Position) : Bool :=
  match b with
  | unbounded => true
  | exclusive q => p.isBefore q

def isBelow (b : Bound) (p : Position) : Bool :=
  match b with
  | unbounded => true
  | exclusive q => p.isAfter q

end Bound

namespace RangeQuery

/-- Newest first, walking down from `upper`. -/
def down (upper lower : Bound) (limit : Nat) : RangeQuery := ⟨lower, upper, limit, .descending⟩

/-- Oldest first, walking up from `lower`. -/
def up (lower upper : Bound) (limit : Nat) : RangeQuery := ⟨lower, upper, limit, .ascending⟩

/-- Whether a position lies strictly between both boundaries. -/
def contains (q : RangeQuery) (p : Position) : Bool := q.lower.isBelow p && q.upper.isAbove p

/-- The boundary that the walk starts from. -/
def leading (q : RangeQuery) : Bound :=
  match q.direction with
  | .ascending => q.lower
  | .descending => q.upper

end RangeQuery
end WarmFeed
