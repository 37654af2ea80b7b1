import WarmFeed.Precompute.Schedule
import WarmFeed.Rehearsal.Rounds

/-!
# Runs on the stage

Runs of the worker and its schedule, with the sources and settings that the stage
has when they start.  A run can be dropped when it takes too long, it can go on in
the background while other things happen, and the schedule runs until it is
dropped.
-/

namespace WarmFeed
namespace Rehearsal
namespace Stage

def worker (w : Stage) : Worker := { kinds := w.scripts.keys, settings := w.precompute }

/-- A routine of the service as acts, with the sources of the stage. -/
def acting {α : Type} (w : Stage) (work : Work α) : Acting α :=
  work.serve Act.call (performWith w.scripts)

/-- Run acts until they end or have to be dropped.  What they leave behind is made up
for when the foreground waits. -/
def playWithin {α : Type} (w : Stage) (millis : Nat) (acts : Acting α) : Option α × Stage :=
  match play (acts.cut millis) w with
  | (.ok a, w) => (some a, w)
  | (.error left, w) => (none, { w with leftBehind := w.leftBehind ++ left })

/-- How long to wait after a run was dropped. -/
def settleMillis : Nat := 1000

/-- A run, or nothing if it is dropped. -/
def runWithin (w : Stage) (millis : Nat) (kind : FeedKind) (subject : Subject) :
    Option (Except RunError Report) × Stage :=
  match w.playWithin millis (w.acting (w.worker.run kind subject)) with
  | (some result, w) => (some result, w)
  | (none, w) => (none, w.elapse settleMillis)

/-- Start a run in the background, before the foreground in this round, and let a
second pass. -/
def launch (w : Stage) (kind : FeedKind) (subject : Subject) : Nat × Stage :=
  let run := w.runs
  let acts : Acting Unit := do
    let result ← w.acting (w.worker.run kind subject)
    act (.finish run result)
  let slot : Slot := { run, wakeAt := w.now, first := true, rest := fun _ => acts }
  let w := { w with runs := run + 1, slots := w.slots ++ [slot] }
  (run, (w.resume slot).elapse 1000)

/-- Wait for a run in the background to end.  It is the foreground from now on. -/
def await (w : Stage) (run : Nat) : Option (Except RunError Report) × Stage :=
  match w.slots.find? fun s => s.run = run with
  | none => (w.results.get? run, w)
  | some s =>
    let w := { w with slots := w.slots.filter fun t => t.run ≠ run }
    let (_, w) := play (s.rest ()) (w.elapse (s.wakeAt - w.now))
    (w.results.get? run, w)

/-- Run the schedule for some milliseconds and then drop it.  The answer says whether
it came back by itself.  A cycle and its pause take at least a second, which
bounds the cycles. -/
def runSchedule (w : Stage) (accounts : Option (List AccountId)) (schedule : Schedule)
    (millis : Nat) : Bool × Stage :=
  let w := { w with accounts := accounts.getD [] }
  let work := schedule.start w.worker accounts.isSome (millis / 1000 + 2)
  let (result, w) := w.playWithin millis (w.acting work)
  (result.isSome, w)

def runCycle (w : Stage) (accounts : Option (List AccountId)) : CycleSummary × Stage :=
  let w := { w with accounts := accounts.getD [] }
  w.perform ((Schedule.ofSettings w.precompute).runCycle w.worker accounts.isSome)

end Stage
end Rehearsal
end WarmFeed
