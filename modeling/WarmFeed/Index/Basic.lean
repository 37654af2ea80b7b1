import WarmFeed.Error
import WarmFeed.Index.Sorted

/-!
# The feed index

The index holds the contents of every feed under its key.  A feed comes into
being with its first entry and a key that was never written is an empty feed.

A score has to be finite to be stored, and minus zero is stored as zero.  A
batch is checked as a whole before anything is written, and the first score that
fails the check is the one reported.
-/

namespace WarmFeed

namespace Score

/-- The score as it is stored, if it can be. -/
def validate (s : Score) : Except StoreError Score :=
  if s.isFinite then .ok s.fold else .error (.invalidScore s)

end Score

namespace Entry

def validate (e : Entry) : Except StoreError Entry := do
  return { e with score := (← e.score.validate) }

def validateAll (es : List Entry) : Except StoreError (List Entry) := es.mapM validate

end Entry

structure FeedIndex where
  feeds : Table StoreKey SortedEntries
deriving DecidableEq, Inhabited

namespace FeedIndex

def empty : FeedIndex := ⟨∅⟩

instance : EmptyCollection FeedIndex := ⟨empty⟩

/-- The contents under a key. -/
def feed (x : FeedIndex) (key : StoreKey) : SortedEntries := (x.feeds.get? key).getD ∅

def setFeed (x : FeedIndex) (key : StoreKey) (s : SortedEntries) : FeedIndex :=
  ⟨x.feeds.set key s⟩

/-- Change a feed that exists and leave one that does not alone. -/
def modifyExisting (x : FeedIndex) (key : StoreKey) (f : SortedEntries → SortedEntries) :
    FeedIndex :=
  match x.feeds.get? key with
  | none => x
  | some s => x.setFeed key (f s)

def upsert (x : FeedIndex) (key : StoreKey) (e : Entry) : Except StoreError FeedIndex := do
  let e ← e.validate
  return x.setFeed key ((x.feed key).upsert e)

def upsertMany (x : FeedIndex) (key : StoreKey) (es : List Entry) :
    Except StoreError FeedIndex := do
  if es.isEmpty then return x
  let es ← Entry.validateAll es
  return x.setFeed key ((x.feed key).upsertAll es)

def remove (x : FeedIndex) (key : StoreKey) (id : ContentId) : FeedIndex :=
  x.modifyExisting key (·.remove id)

def removeMany (x : FeedIndex) (key : StoreKey) (ids : List ContentId) : FeedIndex :=
  x.modifyExisting key (·.removeAll ids)

/-- Put new contents in the place of the old. -/
def replace (x : FeedIndex) (key : StoreKey) (es : List Entry) :
    Except StoreError FeedIndex := do
  if es.isEmpty then return ⟨x.feeds.erase key⟩
  let es ← Entry.validateAll es
  return x.setFeed key (SortedEntries.empty.upsertAll es)

def trim (x : FeedIndex) (key : StoreKey) (capacity : Nat) : Nat × FeedIndex :=
  match x.feeds.get? key with
  | none => (0, x)
  | some s =>
    let (dropped, s) := s.trim capacity
    (dropped, x.setFeed key s)

def score? (x : FeedIndex) (key : StoreKey) (id : ContentId) : Option Score :=
  (x.feed key).scores.get? id

def position? (x : FeedIndex) (key : StoreKey) (id : ContentId) : Option Position :=
  (x.score? key id).map (⟨·, id⟩)

end FeedIndex
end WarmFeed
