import WarmFeed.Index.Query
import WarmFeed.Index.Search
import WarmFeed.Table

/-!
# The contents of one feed

A feed's contents are kept twice: as an array of positions in ascending order,
which serves windows and ranks, and as a table from identifiers to scores, which
finds where an identifier stands.  Every operation changes both.  The array is
searched by halving, so it has to be in order before and after every change.
-/

namespace WarmFeed

structure SortedEntries where
  ordered : Array Position
  scores : Table ContentId Score
deriving DecidableEq

namespace SortedEntries

def empty : SortedEntries := ⟨#[], ∅⟩

instance : EmptyCollection SortedEntries := ⟨empty⟩
instance : Inhabited SortedEntries := ⟨empty⟩

/-- The number of entries that stand before `p`. -/
def placeOf (s : SortedEntries) (p : Position) : Nat :=
  partitionPoint (fun q => q.isBefore p) s.ordered

/-- Where `p` stands, if it is there. -/
def find? (s : SortedEntries) (p : Position) : Option Nat :=
  let i := s.placeOf p
  if s.ordered[i]? = some p then some i else none

def dropPosition (s : SortedEntries) (p : Position) : SortedEntries :=
  match s.find? p with
  | some i => { s with ordered := s.ordered.eraseIdxIfInBounds i }
  | none => s

def addPosition (s : SortedEntries) (p : Position) : SortedEntries :=
  { ordered := s.ordered.insertIdxIfInBounds (s.placeOf p) p
    scores := s.scores.set p.id p.score }

/-- Add an entry, or move it when it stands elsewhere. -/
def upsert (s : SortedEntries) (e : Entry) : SortedEntries :=
  match s.scores.get? e.id with
  | none => s.addPosition e.position
  | some current =>
    if current = e.score then s
    else (s.dropPosition ⟨current, e.id⟩).addPosition e.position

def upsertAll (s : SortedEntries) (es : List Entry) : SortedEntries := es.foldl upsert s

def remove (s : SortedEntries) (id : ContentId) : SortedEntries :=
  match s.scores.get? id with
  | none => s
  | some current => { s.dropPosition ⟨current, id⟩ with scores := s.scores.erase id }

def removeAll (s : SortedEntries) (ids : List ContentId) : SortedEntries := ids.foldl remove s

def size (s : SortedEntries) : Nat := s.ordered.size

def entries (s : SortedEntries) : List Entry := s.ordered.toList.map Position.entry

/-- The number of entries before that of `id`. -/
def rank? (s : SortedEntries) (id : ContentId) : Option Nat :=
  match s.scores.get? id with
  | none => none
  | some score => s.find? ⟨score, id⟩

/-- The window of a query, cut out of the array between the first entry above the
lower boundary and the first that is not below the upper one. -/
def window (s : SortedEntries) (q : RangeQuery) : List Position :=
  let first := match q.lower with
    | .unbounded => 0
    | .exclusive b => partitionPoint (fun p => !p.isAfter b) s.ordered
  let last := match q.upper with
    | .unbounded => s.ordered.size
    | .exclusive b => partitionPoint (fun p => p.isBefore b) s.ordered
  if last ≤ first then [] else (s.ordered.extract first last).toList

def range (s : SortedEntries) (q : RangeQuery) : List ContentId :=
  let ps := match q.direction with
    | .ascending => s.window q
    | .descending => (s.window q).reverse
  (ps.take q.limit).map Position.id

/-- The highest entries, without the first `offset` and at most `limit`. -/
def rankWindow (s : SortedEntries) (offset limit : Nat) : List ContentId :=
  ((s.ordered.toList.reverse.drop offset).take limit).map Position.id

/-- Drop the lowest entries beyond `capacity`. -/
def trim (s : SortedEntries) (capacity : Nat) : Nat × SortedEntries :=
  let excess := s.size - capacity
  (excess,
    { ordered := s.ordered.extract excess s.ordered.size
      scores := (s.ordered.toList.take excess).foldl (fun t p => t.erase p.id) s.scores })

end SortedEntries
end WarmFeed
