import WarmFeed.Precompute.Worker

/-!
# Keeping feeds warm

A cycle computes the trending feed and then the feeds of the accounts that were
active last.  Whatever fails is left for the next cycle.  The first cycle starts
after a delay in which collaborators can come up, and cycles are separated by a
pause of fixed length.
-/

namespace WarmFeed

structure Schedule where
  enabled : Bool
  intervalSeconds : Nat
  maxAccounts : Nat
  delaySeconds : Nat
deriving DecidableEq, Inhabited

structure CycleSummary where
  trendingRefreshed : Bool
  accountsRefreshed : Nat
  accountsFailed : Nat
deriving DecidableEq, Inhabited

namespace Schedule

def default : Schedule :=
  { enabled := true, intervalSeconds := 300, maxAccounts := 500, delaySeconds := 5 }

/-- An interval of zero turns cycles off. -/
def ofSettings (s : PrecomputeSettings) : Schedule :=
  { default with
    enabled := decide (0 < s.intervalSeconds), intervalSeconds := s.intervalSeconds
    maxAccounts := s.maxAccounts }

def isOk {ε α : Type} : Except ε α → Bool
  | .ok _ => true
  | .error _ => false

/-- Populate accounts one after the other, and say for each whether it went well. -/
def populateAll (w : Worker) : List AccountId → Work (List Bool)
  | [] => return []
  | account :: rest => do
    let result ← w.populate account
    return isOk result :: (← populateAll w rest)

/-- Compute the trending feed if it has a source, and say whether that went well. -/
def refreshTrending (w : Worker) : Work Bool := do
  if w.hasSource .trending then return isOk (← w.run .trending .trending) else return false

/-- One cycle.  `registry` says whether there is a registry of active accounts. -/
def runCycle (s : Schedule) (w : Worker) (registry : Bool) : Work CycleSummary := do
  let trending ← refreshTrending w
  if registry && (w.hasSource .home || w.hasSource .forYou) then
    match ← (Routine.request (Call.activeAccounts s.maxAccounts) :
        Work (Except ServiceError (List AccountId))) with
    | .error _ => return ⟨trending, 0, 0⟩
    | .ok accounts =>
      let results ← populateAll w (accounts.take s.maxAccounts)
      return ⟨trending, results.count true, results.count false⟩
  else return ⟨trending, 0, 0⟩

/-- So many cycles, each followed by the pause. -/
def cycles (s : Schedule) (w : Worker) (registry : Bool) : Nat → Work Unit
  | 0 => return ()
  | n + 1 => do
    let _ ← s.runCycle w registry
    Routine.sleep (1000 * s.intervalSeconds)
    s.cycles w registry n

/-- The start of the schedule, up to its first `n` cycles. -/
def start (s : Schedule) (w : Worker) (registry : Bool) (n : Nat) : Work Unit := do
  if s.enabled then
    Routine.sleep (1000 * s.delaySeconds)
    s.cycles w registry n

end Schedule
end WarmFeed
