import WarmFeed.Json.Printer
import WarmFeed.Settings.Basic

/-!
# Settings as JSON

Every setting of a group has to be given, except those of the candidates.
-/

namespace WarmFeed

namespace AppSettings

def toJson (s : AppSettings) : Json :=
  .record [("env", .string s.environment), ("log_level", .string s.logLevel)]

def shape : Json.Shape AppSettings :=
  mk <$> .required "env" Json.takeString <*> .required "log_level" Json.takeString

end AppSettings

namespace StoreSettings

def toJson (s : StoreSettings) : Json :=
  .record [("backend", .string s.backend.name), ("redis_url", .string s.redisUrl)]

def shape : Json.Shape StoreSettings :=
  mk <$> .required "backend" (Json.takeNamed StoreBackend.name StoreBackend.all)
    <*> .required "redis_url" Json.takeString

end StoreSettings

namespace ServingSettings

def toJson (s : ServingSettings) : Json :=
  .record
    [("default_limit", .natural s.defaultLimit), ("max_limit", .natural s.maxLimit),
      ("for_you_enabled", .bool s.forYouEnabled), ("home_enabled", .bool s.homeEnabled)]

def shape : Json.Shape ServingSettings :=
  mk <$> .required "default_limit" Json.takeWord
    <*> .required "max_limit" Json.takeWord
    <*> .required "for_you_enabled" Json.takeBool
    <*> .required "home_enabled" Json.takeBool

end ServingSettings

namespace PrecomputeSettings

def toJson (s : PrecomputeSettings) : Json :=
  .record
    [("regeneration_ttl_secs", .natural s.markSeconds),
      ("source_timeout_secs", .natural s.timeoutSeconds), ("capacity", .natural s.capacity),
      ("apply_mode", .string s.applyMode.name), ("interval_secs", .natural s.intervalSeconds),
      ("max_accounts_per_cycle", .natural s.maxAccounts),
      ("candidate_limit", .natural s.candidateLimit)]

def shape : Json.Shape PrecomputeSettings :=
  mk <$> .required "regeneration_ttl_secs" Json.takeWord
    <*> .required "source_timeout_secs" Json.takeWord
    <*> .required "capacity" Json.takeWord
    <*> .required "apply_mode" (Json.takeNamed ApplyMode.name ApplyMode.all)
    <*> .required "interval_secs" Json.takeWord
    <*> .required "max_accounts_per_cycle" Json.takeWord
    <*> .required "candidate_limit" Json.takeWord

end PrecomputeSettings

namespace TrendsSettings

def toJson (s : TrendsSettings) : Json :=
  .record
    [("enabled", .bool s.enabled), ("source_url", .string s.sourceUrl),
      ("fetch_limit", .natural s.fetchLimit), ("page_size", .natural s.pageSize),
      ("resolve_concurrency", .natural s.concurrency),
      ("http_timeout_secs", .natural s.timeoutSeconds)]

def shape : Json.Shape TrendsSettings :=
  mk <$> .required "enabled" Json.takeBool
    <*> .required "source_url" Json.takeString
    <*> .required "fetch_limit" Json.takeWord
    <*> .required "page_size" Json.takeWord
    <*> .required "resolve_concurrency" Json.takeWord
    <*> .required "http_timeout_secs" Json.takeWord

end TrendsSettings

namespace CandidatesSettings

def toJson (s : CandidatesSettings) : Json :=
  .record [("url", .optional .string s.url), ("timeout_secs", .natural s.timeoutSeconds)]

def shape : Json.Shape CandidatesSettings :=
  mk <$> .optional "url" Json.takeString
    <*> .withDefault "timeout_secs" usualTimeoutSeconds Json.takeWord

end CandidatesSettings

namespace Settings

def toJson (s : Settings) : Json :=
  .record
    [("app", s.app.toJson), ("store", s.store.toJson), ("feed", s.serving.toJson),
      ("precompute", s.precompute.toJson), ("trends", s.trends.toJson),
      ("candidates", s.candidates.toJson)]

def shape : Json.Shape Settings :=
  mk <$> .required "app" AppSettings.shape.take
    <*> .required "store" StoreSettings.shape.take
    <*> .required "feed" ServingSettings.shape.take
    <*> .required "precompute" PrecomputeSettings.shape.take
    <*> .required "trends" TrendsSettings.shape.take
    <*> .withDefault "candidates" .off CandidatesSettings.shape.take

end Settings
end WarmFeed
