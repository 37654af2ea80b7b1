import WarmFeed.Content.Candidate
import WarmFeed.Index.Request
import WarmFeed.Metric
import WarmFeed.Routine.Basic

/-!
# Calls of the service

Everything the service does, it does by calls: to the index, to the marks of
subjects, to the sources of feeds and to the collaborators behind them.
-/

namespace WarmFeed

inductive Call where
  | index (key : StoreKey) (r : IndexRequest)
  /-- Mark a subject for so many seconds. -/
  | mark (subject : Subject) (seconds : Nat)
  | clear (subject : Subject)
  | isMarked (subject : Subject)
  /-- Ask the source of a kind for the contents of a subject's feed, and wait at most
  so many seconds for them. -/
  | compute (kind : FeedKind) (subject : Subject) (seconds : Nat)
  /-- The statuses that still exist, in any order. -/
  | bulkFetch (ids : List ContentId)
  /-- Resolve candidates to local identifiers, creating statuses that came along,
  with at most `concurrency` of them in work at a time. -/
  | resolveAll (concurrency : Nat) (candidates : List TrendCandidate)
  /-- A page of trend candidates in the order of their source. -/
  | fetchPage (limit offset : Nat)
  | candidates (account : AccountId) (limit : Nat)
  /-- The accounts that were active last, the latest first. -/
  | activeAccounts (limit : Nat)
  | count (metric : Metric) (n : Nat)
deriving DecidableEq, Inhabited

namespace Call

/-- The outcome of resolving one candidate; it may have no local form. -/
abbrev Resolution := Except ServiceError (Option ContentId)

@[reducible] def Reply : Call → Type
  | index _ r => Except StoreError r.Answer
  | mark _ _ => Except StoreError Unit
  | clear _ => Except StoreError Unit
  | isMarked _ => Except StoreError Bool
  /- Nothing if the time ran out. -/
  | compute _ _ _ => Option (Except ServiceError (List Entry))
  | bulkFetch _ => Except ServiceError (List Status)
  | resolveAll _ _ => List Resolution
  | fetchPage _ _ => Except ServiceError (List TrendCandidate)
  | candidates _ _ => Except ServiceError (List Candidate)
  | activeAccounts _ => Except ServiceError (List AccountId)
  | count _ _ => Unit

end Call

/-- A routine of the service. -/
abbrev Work := Routine Call.Reply

/-- A routine of the service that can fail. -/
abbrev Attempt (ε α : Type) := ExceptT ε Work α

namespace Attempt

variable {ε ε' α : Type}

/-- Turn the failures of an attempt into others. -/
def mapError (p : Attempt ε α) (f : ε → ε') : Attempt ε' α := ExceptT.adapt f p

end Attempt

def askIndex (key : StoreKey) (r : IndexRequest) : Attempt StoreError r.Answer :=
  ExceptT.mk (Routine.request (Call.index key r))

def countMetric (metric : Metric) (n : Nat) : Work Unit := Routine.request (Call.count metric n)

end WarmFeed
