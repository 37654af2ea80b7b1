import WarmFeed.Index.Position
import WarmFeed.Table

/-!
# Selecting the entries of a feed

A source may name an identifier several times and give scores that are no finite
numbers.  `dedupe` keeps one entry for each identifier, with its numerically
greatest finite score, in the order in which the identifiers first came up with
one.  `top` cuts the entries down to the capacity of the feed.
-/

namespace WarmFeed
namespace Selection

/-- Take the entry in: as a new identifier at the end, or as a greater score of an
identifier that is already there. -/
def enter (best : Table ContentId Score) (e : Entry) : Table ContentId Score :=
  if !e.score.isFinite then best
  else
    match best.get? e.id with
    | none => best.set e.id e.score
    | some score => if score.below e.score then best.set e.id e.score else best

def dedupe (es : List Entry) : List Entry :=
  (es.foldl enter ∅).pairs.map fun p => ⟨p.1, p.2⟩

/-- Whether `a` stands above or beside `b`. -/
def notBelow (a b : Entry) : Bool := !a.position.isBefore b.position

/-- The highest entries, as many as fit.  When all of them fit they stay in the
order in which they came. -/
def top (capacity : Nat) (es : List Entry) : List Entry :=
  if es.length ≤ capacity then es else (es.mergeSort notBelow).take capacity

end Selection
end WarmFeed
