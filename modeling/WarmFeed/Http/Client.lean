import WarmFeed.Content.Candidate
import WarmFeed.Error
import WarmFeed.Routine.Basic

/-!
# Fetching over HTTP

The trend source and the candidate service are asked by plain requests and answer
with a list as JSON.  No answer, an answer that reports an error and an answer
that is no such list all count as a failure of the other side.
-/

namespace WarmFeed
namespace Http

structure Response where
  status : Nat
  body : String
deriving DecidableEq, Inhabited

/-- A request for a url; there is no response if the other side cannot be reached or
takes too long. -/
abbrev Exchange := Routine fun (_ : String) => Option Response

/-- The url of a service without slashes at its end, followed by a path. -/
def join (base path : String) : String :=
  String.ofList ((base.toList.reverse.dropWhile (· = '/')).reverse) ++ path

/-- The url with parameters after those that it has. -/
def withQuery (url : String) (parameters : List (String × Nat)) : String :=
  let pairs := parameters.map fun p => p.1 ++ "=" ++ toString p.2
  url ++ (if '?' ∈ url.toList then "&" else "?") ++ "&".intercalate pairs

/-- Whether a status reports an error. -/
def isFailure (status : Nat) : Bool := decide (400 ≤ status) && decide (status < 600)

/-- The list in a response. -/
def readList {α : Type} (take : Json.Reading α) :
    Option Response → Except ServiceError (List α)
  | none => .error (.collaborator "no response")
  | some r =>
    if isFailure r.status then .error (.collaborator ("status " ++ toString r.status))
    else
      match Json.readAs (Json.takeList take) r.body with
      | .ok items => .ok items
      | .error f => .error (.collaborator ("unreadable response: " ++ f.name))

def getList {α : Type} (take : Json.Reading α) (url : String) :
    Exchange (Except ServiceError (List α)) := do
  return readList take (← Routine.request url)

def trendsUrl (base : String) (limit offset : Nat) : String :=
  withQuery (join base "/api/v1/trends/statuses") [("limit", limit), ("offset", offset)]

/-- A page of the trend source. -/
def fetchPage (base : String) (limit offset : Nat) :
    Exchange (Except ServiceError (List TrendCandidate)) := do
  let statuses ← getList RemoteStatus.shape.take (trendsUrl base limit offset)
  return statuses.map fun ss => ss.map TrendCandidate.ofRemote

def candidatesUrl (base : String) (account : AccountId) (limit : Nat) : String :=
  withQuery (join base ("/accounts/" ++ toString account.toNat ++ "/candidates"))
    [("limit", limit)]

/-- The candidates for an account. -/
def candidates (base : String) (account : AccountId) (limit : Nat) :
    Exchange (Except ServiceError (List Candidate)) :=
  getList Candidate.shape.take (candidatesUrl base account limit)

end Http
end WarmFeed
