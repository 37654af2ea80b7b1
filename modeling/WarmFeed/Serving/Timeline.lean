import WarmFeed.Serving.Hydration
import WarmFeed.Serving.Reader
import WarmFeed.Settings.Basic

/-!
# Pages of timelines and of the trending feed

A page is read from the index as it stands and never waits for a computation.
Whether one is under way is asked before the window is read, so a computation
that ends in between still shows.  That the marks cannot be read is no reason to
refuse a page: the page then counts as complete.
-/

namespace WarmFeed

/-- Whether the subject's feeds are being computed, as far as can be told. -/
def isRegenerating (subject : Subject) : Work Bool := do
  match ← Routine.request (Call.isMarked subject) with
  | .ok marked => return marked
  | .error _ => return false

namespace Timeline

def page (settings : ServingSettings) (kind : FeedKind) (account : AccountId)
    (request : PageRequest) : Attempt ServiceError FeedPage := do
  let subject : Subject := .account account
  let limit := request.effectiveLimit settings.defaultLimit settings.maxLimit
  let regenerating ← isRegenerating subject
  let window ← Reader.read kind subject request limit
  let statuses ← Hydration.hydrate window.ids
  return ⟨statuses, .ofRegenerating regenerating, .ofWindow window⟩

def home (settings : ServingSettings) (account : AccountId) (request : PageRequest) :
    Attempt ServiceError FeedPage :=
  if settings.homeEnabled then page settings .home account request
  else return .empty .complete

def forYou (settings : ServingSettings) (account : AccountId) (request : PageRequest) :
    Attempt ServiceError FeedPage :=
  if settings.forYouEnabled then page settings .forYou account request
  else return .empty .complete

end Timeline

namespace Trending

def page (settings : ServingSettings) (enabled : Bool) (offset : Nat) (limit : Option Nat) :
    Attempt ServiceError TrendingPage := do
  if !enabled then return .empty
  let limit := clampLimit limit settings.defaultLimit settings.maxLimit
  let regenerating ← isRegenerating .trending
  let ids ← Reader.readOffset .trending .trending offset limit
  let statuses ← Hydration.hydrate ids
  return ⟨statuses, .ofRegenerating regenerating, .ofPage offset limit ids.length⟩

end Trending
end WarmFeed
