import WarmFeed.Error
import WarmFeed.Json.Take

/-!
# Settings

Settings fall into groups: where feeds are stored, how pages are served, how
feeds are computed, how trends are fetched and how candidates are fetched.  Most
groups have defaults.  Lengths of time are whole seconds.
-/

namespace WarmFeed

structure AppSettings where
  environment : String
  logLevel : String
deriving DecidableEq, Inhabited

inductive StoreBackend where
  | redis
  | memory
deriving DecidableEq, Inhabited

structure StoreSettings where
  backend : StoreBackend
  redisUrl : String
deriving DecidableEq, Inhabited

/-- How pages are served. -/
structure ServingSettings where
  defaultLimit : Nat
  maxLimit : Nat
  forYouEnabled : Bool
  homeEnabled : Bool
deriving DecidableEq, Inhabited

/-- How computed entries get into the index. -/
inductive ApplyMode where
  /-- Write what changed, then remove what is no longer there. -/
  | incremental
  /-- Build the contents aside and put them in the place of the old. -/
  | swap
deriving DecidableEq, Inhabited

/-- How feeds are computed. -/
structure PrecomputeSettings where
  /-- After this time a mark vanishes by itself. -/
  markSeconds : Nat
  timeoutSeconds : Nat
  /-- How many entries a feed keeps. -/
  capacity : Nat
  applyMode : ApplyMode
  /-- The pause between two cycles; zero turns cycles off. -/
  intervalSeconds : Nat
  maxAccounts : Nat
  candidateLimit : Nat
deriving DecidableEq, Inhabited

/-- How trends are fetched and resolved. -/
structure TrendsSettings where
  enabled : Bool
  sourceUrl : String
  fetchLimit : Nat
  pageSize : Nat
  concurrency : Nat
  timeoutSeconds : Nat
deriving DecidableEq, Inhabited

/-- How candidates are fetched; without a url there are none. -/
structure CandidatesSettings where
  url : Option String
  timeoutSeconds : Nat
deriving DecidableEq, Inhabited

structure Settings where
  app : AppSettings
  store : StoreSettings
  serving : ServingSettings
  precompute : PrecomputeSettings
  trends : TrendsSettings
  candidates : CandidatesSettings
deriving DecidableEq, Inhabited

namespace StoreBackend

def name : StoreBackend → String
  | redis => "redis"
  | memory => "memory"

def all : List StoreBackend := [redis, memory]

end StoreBackend

namespace ApplyMode

def name : ApplyMode → String
  | incremental => "incremental"
  | swap => "swap"

def all : List ApplyMode := [incremental, swap]

end ApplyMode

/-- Find a value by its name, without regard to case. -/
def parseName {α : Type} (what : String) (name : α → String) (all : List α) (text : String) :
    Except ServiceError α :=
  let lower := text.map Char.toLower
  match all.find? fun a => name a = lower with
  | some a => .ok a
  | none => .error (.config ("unknown " ++ what ++ ": " ++ lower))

def StoreBackend.parse : String → Except ServiceError StoreBackend :=
  parseName "store backend" name all

def ApplyMode.parse : String → Except ServiceError ApplyMode := parseName "apply mode" name all

/-! ## Defaults -/

def ServingSettings.default : ServingSettings :=
  { defaultLimit := 20, maxLimit := 40, forYouEnabled := true, homeEnabled := true }

def PrecomputeSettings.default : PrecomputeSettings :=
  { markSeconds := 3600, timeoutSeconds := 30, capacity := 800, applyMode := .incremental
    intervalSeconds := 300, maxAccounts := 500, candidateLimit := 400 }

def TrendsSettings.default : TrendsSettings :=
  { enabled := true, sourceUrl := "https://sfba.social", fetchLimit := 40, pageSize := 20
    concurrency := 8, timeoutSeconds := 10 }

namespace CandidatesSettings

/-- The settings where nothing is said about candidates. -/
def off : CandidatesSettings := { url := none, timeoutSeconds := 0 }

/-- The timeout where candidates are spoken of but their timeout is not. -/
def usualTimeoutSeconds : Nat := 10

end CandidatesSettings

namespace PrecomputeSettings

def timeout (s : PrecomputeSettings) : Duration := .ofSeconds s.timeoutSeconds

end PrecomputeSettings
end WarmFeed
