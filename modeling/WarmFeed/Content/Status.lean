import WarmFeed.Json.Printer
import WarmFeed.Json.Take
import WarmFeed.Key
import WarmFeed.Timestamp

/-!
# Statuses

A status is what a feed shows: an author's post with its counts.  A status made
elsewhere arrives as a `RemoteStatus`, whose identifier means nothing here, and
gets its local form under a local identifier.
-/

namespace WarmFeed

/-- An author as seen from here; local authors have no domain. -/
structure Author where
  username : String
  domain : Option String
deriving DecidableEq, Inhabited

structure Status where
  id : ContentId
  /-- The reference under which the status is known everywhere. -/
  uri : String
  url : Option String
  author : Author
  content : String
  createdAt : Timestamp
  replies : UInt32
  reblogs : UInt32
  favourites : UInt32
deriving DecidableEq, Inhabited

/-- An author as named by another place: `user@domain`, or the bare name if the
author belongs there. -/
structure RemoteAuthor where
  username : String
  address : String
deriving DecidableEq, Inhabited

structure RemoteStatus where
  id : String
  uri : String
  url : Option String
  createdAt : Timestamp
  content : String
  author : RemoteAuthor
  replies : UInt32
  reblogs : UInt32
  favourites : UInt32
deriving DecidableEq, Inhabited

/-- What follows the first at-sign of an address. -/
def RemoteAuthor.domain (a : RemoteAuthor) : Option String :=
  match a.address.toList.dropWhile (· ≠ '@') with
  | [] => none
  | _ :: rest => some (String.ofList rest)

namespace RemoteStatus

/-- The reference under which the status is resolved here. -/
def reference (s : RemoteStatus) : String := s.url.getD s.uri

def toLocal (s : RemoteStatus) (id : ContentId) : Status :=
  { id, uri := s.uri, url := s.url
    author := { username := s.author.username, domain := s.author.domain }
    content := s.content, createdAt := s.createdAt
    replies := s.replies, reblogs := s.reblogs, favourites := s.favourites }

end RemoteStatus

/-! ## As JSON -/

namespace Timestamp

def toJson (t : Timestamp) : Json := .string t.text

def take : Json.Reading Timestamp := fun j => do
  match parse? (← Json.takeString j).toList with
  | some t => return t
  | none => throw .unsuitable

end Timestamp

namespace Author

def toJson (a : Author) : Json :=
  .record [("username", .string a.username), ("domain", .optional .string a.domain)]

def shape : Json.Shape Author :=
  mk <$> .required "username" Json.takeString <*> .optional "domain" Json.takeString

end Author

namespace Status

def toJson (s : Status) : Json :=
  .record
    [("id", .natural s.id.toNat), ("uri", .string s.uri), ("url", .optional .string s.url),
      ("account", s.author.toJson), ("content", .string s.content),
      ("created_at", s.createdAt.toJson), ("replies_count", .natural s.replies.toNat),
      ("reblogs_count", .natural s.reblogs.toNat),
      ("favourites_count", .natural s.favourites.toNat)]

def shape : Json.Shape Status :=
  mk <$> .required "id" Json.takeId
    <*> .required "uri" Json.takeString
    <*> .optional "url" Json.takeString
    <*> .required "account" Author.shape.take
    <*> .required "content" Json.takeString
    <*> .required "created_at" Timestamp.take
    <*> .withDefault "replies_count" 0 Json.takeCount
    <*> .withDefault "reblogs_count" 0 Json.takeCount
    <*> .withDefault "favourites_count" 0 Json.takeCount

/-- The text under which a status is stored. -/
def encode (s : Status) : String := s.toJson.text

def decode? (text : String) : Option Status := (Json.readAs shape.take text).toOption

end Status

namespace RemoteAuthor

def toJson (a : RemoteAuthor) : Json :=
  .record [("username", .string a.username), ("acct", .string a.address)]

def shape : Json.Shape RemoteAuthor :=
  mk <$> .required "username" Json.takeString <*> .required "acct" Json.takeString

end RemoteAuthor

namespace RemoteStatus

def toJson (s : RemoteStatus) : Json :=
  .record
    [("id", .string s.id), ("uri", .string s.uri), ("url", .optional .string s.url),
      ("created_at", s.createdAt.toJson), ("content", .string s.content),
      ("account", s.author.toJson), ("replies_count", .natural s.replies.toNat),
      ("reblogs_count", .natural s.reblogs.toNat),
      ("favourites_count", .natural s.favourites.toNat)]

def shape : Json.Shape RemoteStatus :=
  mk <$> .required "id" Json.takeString
    <*> .required "uri" Json.takeString
    <*> .optional "url" Json.takeString
    <*> .required "created_at" Timestamp.take
    <*> .withDefault "content" "" Json.takeString
    <*> .required "account" RemoteAuthor.shape.take
    <*> .withDefault "replies_count" 0 Json.takeCount
    <*> .withDefault "reblogs_count" 0 Json.takeCount
    <*> .withDefault "favourites_count" 0 Json.takeCount

end RemoteStatus
end WarmFeed
