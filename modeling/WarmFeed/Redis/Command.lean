import WarmFeed.Error
import WarmFeed.Metric
import WarmFeed.Score.Text

/-!
# Commands

The commands that the stores send, with the answers they expect.  A command is
sent as a list of words.  Commands of one transaction are carried out together,
with nothing of other clients in between.
-/

namespace WarmFeed
namespace Redis

/-- One end of a range of scores. -/
inductive ScoreLimit where
  | lowest
  | highest
  | inclusive (s : Score)
  | exclusive (s : Score)
  /-- Inclusive, where both ends are the same score. -/
  | tied (s : Score)
deriving DecidableEq, Inhabited

def ScoreLimit.text : ScoreLimit → String
  | lowest => "-inf"
  | highest => "+inf"
  | inclusive s => s.text Score.plain
  | exclusive s => "(" ++ s.text Score.plain
  | tied s => s.text Score.scientific

inductive Command where
  | zadd (key : String) (items : List (Score × String))
  | zrem (key : String) (members : List String)
  | zrank (key member : String)
  | zscore (key member : String)
  | zcard (key : String)
  /-- Members with scores between two ranks, the lowest first. -/
  | zrange (key : String) (start stop : Int)
  /-- Members between two ranks, counted from the highest. -/
  | zrevrange (key : String) (start stop : Int)
  /-- Members with scores in a range of scores, walking up or down. -/
  | zrangeByScore (up : Bool) (key : String) (low high : ScoreLimit) (limit : Option Nat)
  | zremrangeByRank (key : String) (start stop : Int)
  | get (key : String)
  | mget (keys : List String)
  | set (key value : String)
  /-- Set a value that vanishes after so many seconds. -/
  | setExpiring (key : String) (seconds : Nat) (value : String)
  /-- Set a value where there is none. -/
  | setNew (key value : String)
  | increment (key : String)
  | delete (key : String)
  | isPresent (key : String)
  | rename (source target : String)
deriving DecidableEq, Inhabited

namespace Command

@[reducible] def Reply : Command → Type
  | zadd _ _ => Unit
  | zrem _ _ => Unit
  | zrank _ _ => Option Nat
  | zscore _ _ => Option Score
  | zcard _ => Nat
  | zrange _ _ _ => List (String × Score)
  | zrevrange _ _ _ => List String
  | zrangeByScore _ _ _ _ _ => List (String × Score)
  | zremrangeByRank _ _ _ => Nat
  | get _ => Option String
  | mget _ => List (Option String)
  | set _ _ => Unit
  | setExpiring _ _ _ => Unit
  | setNew _ _ => Bool
  | increment _ => Int
  | delete _ => Unit
  | isPresent _ => Bool
  | rename _ _ => Unit

def scoreWord (s : Score) : String := s.text Score.scientific

/-- The command as it is sent. -/
def words : Command → List String
  | zadd key items => "ZADD" :: key :: items.flatMap fun i => [scoreWord i.1, i.2]
  | zrem key members => "ZREM" :: key :: members
  | zrank key member => ["ZRANK", key, member]
  | zscore key member => ["ZSCORE", key, member]
  | zcard key => ["ZCARD", key]
  | zrange key start stop => ["ZRANGE", key, toString start, toString stop, "WITHSCORES"]
  | zrevrange key start stop => ["ZREVRANGE", key, toString start, toString stop]
  | zrangeByScore up key low high limit =>
    let ends := if up then ["ZRANGEBYSCORE", key, low.text, high.text]
      else ["ZREVRANGEBYSCORE", key, high.text, low.text]
    let count := match limit with
      | none => []
      | some n => ["LIMIT", "0", toString n]
    ends ++ "WITHSCORES" :: count
  | zremrangeByRank key start stop => ["ZREMRANGEBYRANK", key, toString start, toString stop]
  | get key => ["GET", key]
  | mget keys => "MGET" :: keys
  | set key value => ["SET", key, value]
  | setExpiring key seconds value => ["SETEX", key, toString seconds, value]
  | setNew key value => ["SET", key, value, "NX"]
  | increment key => ["INCRBY", key, "1"]
  | delete key => ["DEL", key]
  | isPresent key => ["EXISTS", key]
  | rename source target => ["RENAME", source, target]

/-- The answers of several commands. -/
@[reducible] def Replies : List Command → Type
  | [] => Unit
  | c :: rest => c.Reply × Replies rest

end Command

/-- What a store asks of its connection. -/
inductive Request where
  | single (c : Command)
  | transaction (cs : List Command)
  | count (metric : Metric)
deriving DecidableEq, Inhabited

namespace Request

@[reducible] def Reply : Request → Type
  | single c => Except StoreError c.Reply
  | transaction cs => Except StoreError (Command.Replies cs)
  | count _ => Unit

/-- The commands that are sent, each as its words. -/
def sent : Request → List (List String)
  | single c => [c.words]
  | transaction cs => ["MULTI"] :: (cs.map Command.words) ++ [["EXEC"]]
  | count _ => []

end Request
end Redis
end WarmFeed
