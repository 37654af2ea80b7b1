import WarmFeed.Page

/-!
# Pages as JSON

The kinds of feeds, their subjects and the pages read from them, as JSON.
-/

namespace WarmFeed

namespace FeedKind

def toJson (k : FeedKind) : Json := .string k.name

def take : Json.Reading FeedKind := Json.takeNamed name all

end FeedKind

namespace Subject

def toJson : Subject → Json
  | account id => .record [("account", .natural id.toNat)]
  | trending => .string "trending"

def take : Json.Reading Subject :=
  Json.takeAlternative fun tag =>
    if tag = "account" then some (.carrying fun j => return account (← Json.takeId j))
    else if tag = "trending" then some (.plain trending)
    else none

end Subject

namespace FeedStatus

def toJson (s : FeedStatus) : Json := .string s.name

def take : Json.Reading FeedStatus := Json.takeNamed name all

end FeedStatus

namespace IdCursors

def toJson (c : IdCursors) : Json :=
  let id (i : ContentId) : Json := .natural i.toNat
  .record [("next_max_id", .optional id c.nextMaxId), ("prev_min_id", .optional id c.prevMinId)]

def shape : Json.Shape IdCursors :=
  mk <$> .optionalByName "next_max_id" Json.takeId <*> .optionalByName "prev_min_id" Json.takeId

end IdCursors

namespace OffsetCursors

def toJson (c : OffsetCursors) : Json :=
  .record
    [("next_offset", .optional .natural c.nextOffset),
      ("prev_offset", .optional .natural c.prevOffset)]

def shape : Json.Shape OffsetCursors :=
  mk <$> .optionalByName "next_offset" Json.takeWord
    <*> .optionalByName "prev_offset" Json.takeWord

end OffsetCursors

namespace FeedPage

def toJson (p : FeedPage) : Json :=
  .record
    [("statuses", .list (p.statuses.map Status.toJson)), ("status", p.status.toJson),
      ("cursors", p.cursors.toJson)]

def shape : Json.Shape FeedPage :=
  mk <$> .required "statuses" (Json.takeList Status.shape.take)
    <*> .required "status" FeedStatus.take
    <*> .required "cursors" IdCursors.shape.take

end FeedPage

namespace TrendingPage

def toJson (p : TrendingPage) : Json :=
  .record
    [("statuses", .list (p.statuses.map Status.toJson)), ("status", p.status.toJson),
      ("cursors", p.cursors.toJson)]

def shape : Json.Shape TrendingPage :=
  mk <$> .required "statuses" (Json.takeList Status.shape.take)
    <*> .required "status" FeedStatus.take
    <*> .required "cursors" OffsetCursors.shape.take

end TrendingPage
end WarmFeed
