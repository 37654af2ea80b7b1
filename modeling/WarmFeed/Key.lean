/-!
# Feeds, subjects and the keys of the store

A feed is named by its kind and the subject it is computed for.  Everything the
service keeps in a shared store lies under a key built here: a version, a word
for what is kept, and then the subject, the identifier or the reference it is
kept for, all joined by colons.
-/

namespace WarmFeed

/-- Identifier of a status; later ones are greater. -/
abbrev ContentId := UInt64

/-- Identifier of an account. -/
abbrev AccountId := UInt64

inductive FeedKind where
  /-- Statuses by recency. -/
  | home
  /-- Statuses ranked for one account. -/
  | forYou
  /-- The one feed that everybody shares. -/
  | trending
deriving DecidableEq, Inhabited

namespace FeedKind

def name : FeedKind → String
  | home => "home"
  | forYou => "for_you"
  | trending => "trending"

def all : List FeedKind := [home, forYou, trending]

/-- Trending pages are addressed by offset, the other feeds by identifiers. -/
def isPagedByOffset (k : FeedKind) : Bool := k = trending

end FeedKind

/-- What a feed is computed for. -/
inductive Subject where
  | account (id : AccountId)
  | trending
deriving DecidableEq, Inhabited

def Subject.name : Subject → String
  | account id => "account:" ++ toString id.toNat
  | trending => "trending"

/-- A key of the store, by its text. -/
structure StoreKey where
  text : String
deriving DecidableEq, Inhabited

namespace StoreKey

/-- Grows whenever the format of a key changes. -/
def version : Nat := 1

def build (parts : List String) : StoreKey :=
  ⟨":".intercalate (("v" ++ toString version) :: parts)⟩

/-- The index of a feed. -/
def index (kind : FeedKind) (subject : Subject) : StoreKey :=
  build ["feed", kind.name, subject.name]

/-- Where the next contents of an index are built before they replace it. -/
def staging (k : StoreKey) : StoreKey := ⟨k.text ++ ":staging"⟩

/-- The mark of a subject whose feeds are being computed. -/
def regeneration (subject : Subject) : StoreKey := build ["regen", subject.name]

def status (id : ContentId) : StoreKey := build ["status", toString id.toNat]

/-- The local identifier of a status known elsewhere by `reference`. -/
def statusReference (reference : String) : StoreKey := build ["status", "uri", reference]

/-- The counter that new identifiers take their low bits from. -/
def statusSequence : StoreKey := build ["status", "sequence"]

/-- Accounts by the time they were last seen. -/
def activeAccounts : StoreKey := build ["accounts", "active"]

end StoreKey
end WarmFeed
