import WarmFeed.Settings.Basic
import WarmFeed.Table
import WarmFeed.Text.Blank
import WarmFeed.Text.Word

/-!
# Settings from the environment

Each setting is read from a variable of the environment and has its default when
the variable is not set.  A variable that holds no text counts as not set.  The
variables are read in a fixed order and the first one that cannot be understood
is reported.
-/

namespace WarmFeed

/-- The variables that are set, by name. -/
structure Environment where
  values : Table String ByteArray

namespace Environment

def text? (env : Environment) (name : String) : Option String :=
  (env.values.get? name).bind String.fromUTF8?

/-- A text is taken as it is. -/
def text (env : Environment) (name default : String) : String := (env.text? name).getD default

/-- Any other setting is parsed after the blanks around it are dropped. -/
def setting {α : Type} (env : Environment) (parse : String → Except String α) (name : String)
    (default : α) : Except ServiceError α :=
  match env.text? name with
  | none => .ok default
  | some raw =>
    match parse (String.ofList (Text.trim raw.toList)) with
    | .ok a => .ok a
    | .error why => .error (.config (name ++ " is invalid: " ++ why))

/-- A natural number of 64 bits. -/
def parseWord (s : String) : Except String Nat :=
  (Text.parseWord s).mapError Text.WordFault.message

def parseBool (s : String) : Except String Bool :=
  if s = "true" then .ok true
  else if s = "false" then .ok false
  else .error "provided string was not `true` or `false`"

/-- A setting whose parser has an error of its own. -/
def worded {α : Type} (parse : String → Except ServiceError α) (s : String) : Except String α :=
  (parse s).mapError ServiceError.message

/-- The names of all variables that are read. -/
def names : List String :=
  ["APP_ENV", "LOG_LEVEL", "FEED_STORE_BACKEND", "REDIS_URL", "FEED_DEFAULT_LIMIT",
    "FEED_MAX_LIMIT", "FOR_YOU_ENABLED", "HOME_FEED_ENABLED", "REGENERATION_TTL_SECS",
    "PRECOMPUTE_SOURCE_TIMEOUT_SECS", "FEED_CAPACITY", "PRECOMPUTE_APPLY_MODE",
    "PRECOMPUTE_INTERVAL_SECS", "PRECOMPUTE_MAX_ACCOUNTS_PER_CYCLE",
    "PRECOMPUTE_CANDIDATE_LIMIT", "TRENDS_ENABLED", "TRENDS_SOURCE_URL", "TRENDS_FETCH_LIMIT",
    "TRENDS_PAGE_SIZE", "TRENDS_RESOLVE_CONCURRENCY", "TRENDS_HTTP_TIMEOUT_SECS",
    "CANDIDATES_URL", "CANDIDATES_TIMEOUT_SECS"]

def serving (env : Environment) : Except ServiceError ServingSettings := do
  let usual := ServingSettings.default
  return {
    defaultLimit := ← env.setting parseWord "FEED_DEFAULT_LIMIT" usual.defaultLimit
    maxLimit := ← env.setting parseWord "FEED_MAX_LIMIT" usual.maxLimit
    forYouEnabled := ← env.setting parseBool "FOR_YOU_ENABLED" usual.forYouEnabled
    homeEnabled := ← env.setting parseBool "HOME_FEED_ENABLED" usual.homeEnabled }

def precompute (env : Environment) : Except ServiceError PrecomputeSettings := do
  let usual := PrecomputeSettings.default
  return {
    markSeconds := ← env.setting parseWord "REGENERATION_TTL_SECS" usual.markSeconds
    timeoutSeconds :=
      ← env.setting parseWord "PRECOMPUTE_SOURCE_TIMEOUT_SECS" usual.timeoutSeconds
    capacity := ← env.setting parseWord "FEED_CAPACITY" usual.capacity
    applyMode := ← env.setting (worded ApplyMode.parse) "PRECOMPUTE_APPLY_MODE" usual.applyMode
    intervalSeconds := ← env.setting parseWord "PRECOMPUTE_INTERVAL_SECS" usual.intervalSeconds
    maxAccounts := ← env.setting parseWord "PRECOMPUTE_MAX_ACCOUNTS_PER_CYCLE" usual.maxAccounts
    candidateLimit := ← env.setting parseWord "PRECOMPUTE_CANDIDATE_LIMIT" usual.candidateLimit }

def trends (env : Environment) : Except ServiceError TrendsSettings := do
  let usual := TrendsSettings.default
  return {
    enabled := ← env.setting parseBool "TRENDS_ENABLED" usual.enabled
    sourceUrl := env.text "TRENDS_SOURCE_URL" usual.sourceUrl
    fetchLimit := ← env.setting parseWord "TRENDS_FETCH_LIMIT" usual.fetchLimit
    pageSize := ← env.setting parseWord "TRENDS_PAGE_SIZE" usual.pageSize
    concurrency := ← env.setting parseWord "TRENDS_RESOLVE_CONCURRENCY" usual.concurrency
    timeoutSeconds := ← env.setting parseWord "TRENDS_HTTP_TIMEOUT_SECS" usual.timeoutSeconds }

/-- An empty url counts as none. -/
def candidates (env : Environment) : Except ServiceError CandidatesSettings := do
  return {
    url := (env.text? "CANDIDATES_URL").filter fun url => !url.isEmpty
    timeoutSeconds :=
      ← env.setting parseWord "CANDIDATES_TIMEOUT_SECS" CandidatesSettings.usualTimeoutSeconds }

def settings (env : Environment) : Except ServiceError Settings := do
  return {
    app := {
      environment := env.text "APP_ENV" "development"
      logLevel := env.text "LOG_LEVEL" "info" }
    store := {
      backend := ← env.setting (worded StoreBackend.parse) "FEED_STORE_BACKEND" .redis
      redisUrl := env.text "REDIS_URL" "redis://127.0.0.1:6379" }
    serving := ← env.serving
    precompute := ← env.precompute
    trends := ← env.trends
    candidates := ← env.candidates }

end Environment
end WarmFeed
