import WarmFeed.Redis.Command
import WarmFeed.Table
import WarmFeed.Text.Word

/-!
# The server

What the server does with each command.  Its values are texts and sorted sets.  A
sorted set keeps one score for each member; its members stand in ascending order
of score, and members of one score in ascending order of their bytes.  Ranks count
from zero, and negative ranks from the last member.  A set without members is not
there at all.  The clock stands still, so values that expire stay.
-/

namespace WarmFeed
namespace Redis

inductive Stored where
  | text (s : String)
  | sorted (members : Table String Score)
deriving DecidableEq

structure Server where
  values : Table String Stored
deriving DecidableEq

namespace SortedSet

abbrev Row := String × Score

/-- Whether `a` stands before or beside `b`. -/
def notAfter (a b : Row) : Bool :=
  a.2.below b.2 || (a.2.same b.2 && decide (¬ b.1 < a.1))

def rows (members : Table String Score) : List Row := members.pairs.mergeSort notAfter

/-- The slice between two inclusive ranks. -/
def slice {α : Type} (start stop : Int) (xs : List α) : List α :=
  let n : Int := xs.length
  let first := (if start < 0 then max (n + start) 0 else start).toNat
  let last := if stop < 0 then n + stop else stop
  (xs.take (last + 1).toNat).drop first

/-- The score is not below the limit. -/
def isFrom (low : ScoreLimit) (s : Score) : Bool :=
  match low with
  | .lowest => true
  | .highest => false
  | .inclusive t | .tied t => !s.below t
  | .exclusive t => t.below s

/-- The score is not above the limit. -/
def isUpTo (high : ScoreLimit) (s : Score) : Bool :=
  match high with
  | .lowest => false
  | .highest => true
  | .inclusive t | .tied t => !t.below s
  | .exclusive t => s.below t

def inRange (up : Bool) (low high : ScoreLimit) (limit : Option Nat)
    (members : Table String Score) : List Row :=
  let found := (rows members).filter fun r => isFrom low r.2 && isUpTo high r.2
  let found := if up then found else found.reverse
  match limit with
  | none => found
  | some n => found.take n

end SortedSet

namespace Server

def empty : Server := ⟨∅⟩

instance : EmptyCollection Server := ⟨empty⟩

/-- The refusal of a command on a value of another kind. -/
def wrongKind : StoreError :=
  .backend "WRONGTYPE Operation against a key holding the wrong kind of value"

def notANumber : StoreError := .backend "ERR value is not an integer or out of range"

def noSuchKey : StoreError := .backend "ERR no such key"

/-- The members under a key; a key that is not there is an empty set. -/
def members (v : Server) (key : String) : Except StoreError (Table String Score) :=
  match v.values.get? key with
  | none => .ok ∅
  | some (.sorted members) => .ok members
  | some (.text _) => .error wrongKind

def setMembers (v : Server) (key : String) (members : Table String Score) : Server :=
  if members.pairs.isEmpty then ⟨v.values.erase key⟩
  else ⟨v.values.set key (.sorted members)⟩

def text (v : Server) (key : String) : Except StoreError (Option String) :=
  match v.values.get? key with
  | none => .ok none
  | some (.text s) => .ok (some s)
  | some (.sorted _) => .error wrongKind

def setText (v : Server) (key s : String) : Server := ⟨v.values.set key (.text s)⟩

/-- A read of the members under a key. -/
def reading {α : Type} (v : Server) (key : String) (f : Table String Score → α) :
    Except StoreError α × Server :=
  ((v.members key).map f, v)

/-- A change of the members under a key. -/
def changing {α : Type} (v : Server) (key : String)
    (f : Table String Score → α × Table String Score) : Except StoreError α × Server :=
  match v.members key with
  | .error e => (.error e, v)
  | .ok ms =>
    let (a, ms) := f ms
    (.ok a, v.setMembers key ms)

/-- Add one to the whole number under a key, zero if there is none. -/
def increment (v : Server) (key : String) : Except StoreError Int × Server :=
  match v.text key with
  | .error e => (.error e, v)
  | .ok s =>
    match Text.parseWhole? (s.getD "0") with
    | none => (.error notANumber, v)
    | some n =>
      if n + 1 < 0x8000000000000000 then (.ok (n + 1), v.setText key (toString (n + 1)))
      else (.error notANumber, v)

open SortedSet in
/-- The answer to a command, and the server after it. -/
def answer (v : Server) : (c : Command) → Except StoreError c.Reply × Server
  | .zadd key items =>
    v.changing key fun ms => ((), ms.setAll (items.map fun i => (i.2, i.1)))
  | .zrem key gone => v.changing key fun ms => ((), gone.foldl (fun ms m => ms.erase m) ms)
  | .zrank key member =>
    v.reading key fun ms => (rows ms).findIdx? fun r => r.1 = member
  | .zscore key member => v.reading key fun ms => ms.get? member
  | .zcard key => v.reading key fun ms => ms.pairs.length
  | .zrange key start stop => v.reading key fun ms => slice start stop (rows ms)
  | .zrevrange key start stop =>
    v.reading key fun ms => (slice start stop (rows ms).reverse).map Prod.fst
  | .zrangeByScore up key low high limit => v.reading key (inRange up low high limit)
  | .zremrangeByRank key start stop =>
    v.changing key fun ms =>
      let gone := (slice start stop (rows ms)).map Prod.fst
      (gone.length, gone.foldl (fun ms m => ms.erase m) ms)
  | .get key => (v.text key, v)
  | .mget keys =>
    (.ok (keys.map fun key => match v.values.get? key with
      | some (.text s) => some s
      | _ => none), v)
  | .set key s => (.ok (), v.setText key s)
  | .setExpiring key _ s => (.ok (), v.setText key s)
  | .setNew key s =>
    if v.values.contains key then (.ok false, v) else (.ok true, v.setText key s)
  | .increment key => v.increment key
  | .delete key => (.ok (), ⟨v.values.erase key⟩)
  | .isPresent key => (.ok (v.values.contains key), v)
  | .rename source target =>
    match v.values.get? source with
    | none => (.error noSuchKey, v)
    | some s => (.ok (), ⟨(v.values.erase source).set target s⟩)

/-- The answers to the commands of a transaction.  All of them are carried out, also
after one that fails, and the first failure is the answer then. -/
def answerAll (v : Server) :
    (cs : List Command) → Except StoreError (Command.Replies cs) × Server
  | [] => (.ok (), v)
  | c :: rest =>
    let (first, v) := v.answer c
    let (others, v) := v.answerAll rest
    (match first, others with
      | .ok a, .ok as => .ok (a, as)
      | .error e, _ => .error e
      | _, .error e => .error e, v)

def answerRequest (v : Server) : (r : Request) → r.Reply × Server
  | .single c => v.answer c
  | .transaction cs => v.answerAll cs
  | .count _ => ((), v)

end Server
end Redis
end WarmFeed
