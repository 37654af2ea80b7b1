import WarmFeed.Redis.Command
import WarmFeed.Routine.Basic

/-!
# Work over a connection

Every operation on the store is counted: as a read or a write when its command
went through, and as an error when it did not.
-/

namespace WarmFeed
namespace Redis

abbrev Exchange := Routine Request.Reply

abbrev Attempt (α : Type) := ExceptT StoreError Exchange α

/-- How an operation is counted when its command went through. -/
inductive Counting where
  | read
  | write
  | uncounted
deriving DecidableEq

def Counting.metric? (operation : String) : Counting → Option Metric
  | read => some (.reads operation)
  | write => some (.writes operation)
  | uncounted => none

/-- Pass a result on after it was counted. -/
def counted {α : Type} (operation : String) (counting : Counting) (result : Except StoreError α) :
    Attempt α := do
  match result with
  | .error e => do
    let _ ← (Routine.request (Request.count (.failures operation)) : Exchange Unit)
    throw e
  | .ok a => do
    match counting.metric? operation with
    | some m =>
      let _ ← (Routine.request (Request.count m) : Exchange Unit)
      return a
    | none => return a

/-- Send a command and count it. -/
def send (operation : String) (counting : Counting) (c : Command) : Attempt c.Reply :=
  ExceptT.mk do
    let result ← Routine.request (Request.single c)
    (counted operation counting result).run

/-- Send a transaction and count it. -/
def sendAll (operation : String) (counting : Counting) (cs : List Command) :
    Attempt (Command.Replies cs) :=
  ExceptT.mk do
    let result ← Routine.request (Request.transaction cs)
    (counted operation counting result).run

/-- Send a command that is not counted. -/
def ask (c : Command) : Attempt c.Reply := ExceptT.mk (Routine.request (Request.single c))

end Redis
end WarmFeed
