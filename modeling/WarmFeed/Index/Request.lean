import WarmFeed.Index.Basic

/-!
# Requests to an index

Whoever keeps the feeds answers these requests; each is about the feed under one
key.  A write answers nothing, apart from a trim, which says how much it dropped.
-/

namespace WarmFeed

inductive IndexRequest where
  | upsert (e : Entry)
  | upsertMany (es : List Entry)
  | remove (id : ContentId)
  | removeMany (ids : List ContentId)
  | rank (id : ContentId)
  | score (id : ContentId)
  | range (q : RangeQuery)
  | rankWindow (offset limit : Nat)
  | entries
  | replace (es : List Entry)
  | size
  | trim (capacity : Nat)
deriving DecidableEq, Inhabited

namespace IndexRequest

@[reducible] def Answer : IndexRequest → Type
  | upsert _ => Unit
  | upsertMany _ => Unit
  | remove _ => Unit
  | removeMany _ => Unit
  | rank _ => Option Nat
  | score _ => Option Score
  | range _ => List ContentId
  | rankWindow _ _ => List ContentId
  | entries => List Entry
  | replace _ => Unit
  | size => Nat
  | trim _ => Nat

def name : IndexRequest → String
  | upsert _ => "upsert"
  | upsertMany _ => "upsert_many"
  | remove _ => "remove"
  | removeMany _ => "remove_many"
  | rank _ => "rank"
  | score _ => "score"
  | range _ => "range"
  | rankWindow _ _ => "rank_window"
  | entries => "entries"
  | replace _ => "replace"
  | size => "len"
  | trim _ => "trim"

/-- The names of all requests. -/
def names : List String :=
  ["upsert", "upsert_many", "remove", "remove_many", "rank", "score", "range", "rank_window",
    "entries", "replace", "len", "trim"]

end IndexRequest

namespace FeedIndex

/-- The answer of a write, and the index after it.  A refused write changes nothing. -/
def written (x : FeedIndex) : Except StoreError FeedIndex → Except StoreError Unit × FeedIndex
  | .ok y => (.ok (), y)
  | .error e => (.error e, x)

/-- Answer a request about the feed under a key. -/
def answer (x : FeedIndex) (key : StoreKey) :
    (r : IndexRequest) → Except StoreError r.Answer × FeedIndex
  | .upsert e => x.written (x.upsert key e)
  | .upsertMany es => x.written (x.upsertMany key es)
  | .remove id => (.ok (), x.remove key id)
  | .removeMany ids => (.ok (), x.removeMany key ids)
  | .rank id => (.ok ((x.feed key).rank? id), x)
  | .score id => (.ok (x.score? key id), x)
  | .range q => (.ok ((x.feed key).range q), x)
  | .rankWindow offset limit => (.ok ((x.feed key).rankWindow offset limit), x)
  | .entries => (.ok (x.feed key).entries, x)
  | .replace es => x.written (x.replace key es)
  | .size => (.ok (x.feed key).size, x)
  | .trim capacity =>
    let (dropped, x) := x.trim key capacity
    (.ok dropped, x)

end FeedIndex
end WarmFeed
