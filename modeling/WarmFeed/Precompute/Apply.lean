import WarmFeed.Call
import WarmFeed.Settings.Basic

/-!
# Bringing computed entries into the index

Entries are brought in without ever leaving a feed empty that was not and will
not be.  In steps: what is new or has another score is written, then what is no
longer there is removed, then the feed is trimmed, and writes that would write
nothing are not made.  Or by a swap: the contents are replaced as a whole.
-/

namespace WarmFeed

/-- How many entries were written, and how many were dropped. -/
structure Applied where
  applied : Nat
  removed : Nat
deriving DecidableEq, Inhabited

namespace Apply

/-- The score of an identifier in a list of entries. -/
def scoreIn (es : List Entry) (id : ContentId) : Option Score :=
  (es.find? fun e => e.id = id).map Entry.score

def mentions (es : List Entry) (id : ContentId) : Bool := es.any fun e => e.id = id

/-- Whether an entry is not in the feed with numerically the same score. -/
def differs (existing : List Entry) (e : Entry) : Bool :=
  match scoreIn existing e.id with
  | none => true
  | some score => !score.same e.score

def incremental (capacity : Nat) (key : StoreKey) (entries : List Entry) :
    Attempt StoreError Applied := do
  let existing ← askIndex key .entries
  let changed := entries.filter (differs existing)
  let stale := (existing.filter fun e => !mentions entries e.id).map Entry.id
  if !changed.isEmpty then askIndex key (.upsertMany changed)
  if !stale.isEmpty then askIndex key (.removeMany stale)
  let trimmed ← askIndex key (.trim capacity)
  return ⟨changed.length, stale.length + trimmed⟩

def swap (key : StoreKey) (entries : List Entry) : Attempt StoreError Applied := do
  let existing ← askIndex key .entries
  let stale := existing.filter fun e => !mentions entries e.id
  askIndex key (.replace entries)
  return ⟨entries.length, stale.length⟩

def apply (mode : ApplyMode) (capacity : Nat) (key : StoreKey) (entries : List Entry) :
    Attempt StoreError Applied :=
  match mode with
  | .incremental => incremental capacity key entries
  | .swap => swap key entries

end Apply
end WarmFeed
