/-!
# Search by halving

In an array whose elements satisfy a test up to some place and no longer after
it, that place is found by looking at the middle of what is left.
-/

namespace WarmFeed

/-- The first place in `[lo, hi)` whose element fails the test, or `hi`. -/
def firstFailing {α : Type} (test : α → Bool) (xs : Array α) (lo hi : Nat) (h : hi ≤ xs.size) :
    Nat :=
  if hlt : lo < hi then
    let mid := lo + (hi - lo) / 2
    if test (xs[mid]) then firstFailing test xs (mid + 1) hi h
    else firstFailing test xs lo mid (by omega)
  else lo
termination_by hi - lo

/-- How many elements satisfy the test, if those that do come first. -/
def partitionPoint {α : Type} (test : α → Bool) (xs : Array α) : Nat :=
  firstFailing test xs 0 xs.size (Nat.le_refl _)

end WarmFeed
