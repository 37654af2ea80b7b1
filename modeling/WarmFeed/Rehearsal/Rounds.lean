import WarmFeed.Rehearsal.Stage

/-!
# Time on the stage

What happens at one moment is a round: the runs in the background and the foreground
go on, one after the other, until all of them wait.  When they do, the requests that
dropped routines left behind are made, and time passes up to the next moment at
which one of them is due.

A run and the foreground that started it take turns in going first.  The run goes
first in the round in which it starts, the foreground in the next one, and so on.
-/

namespace WarmFeed
namespace Rehearsal
namespace Stage

/-- Run a background routine up to its next wait. -/
def background : Acting Unit → Stage → Option (Nat × (Unit → Acting Unit)) × Stage
  | .done _, w => (none, w)
  | .ask a _ next, w =>
    let (r, w) := w.answer a
    background (next r) w
  | .pause millis _ next, w =>
    if millis = 0 then background (next ()) w else (some (millis, next), w)

/-- Let a run go on, and keep its place among the others while it has not ended. -/
def resume (w : Stage) (s : Slot) : Stage :=
  match background (s.rest ()) w with
  | (none, w) => { w with slots := w.slots.filter fun t => t.run ≠ s.run }
  | (some (millis, rest), w) =>
    { w with
      slots := w.slots.map fun t =>
        if t.run = s.run then { t with wakeAt := w.now + millis, rest } else t }

/-- Let a run go on if it is due and its turn is before the foreground, or after it. -/
def resumeDue (first : Bool) (w : Stage) (s : Slot) : Stage :=
  if s.first = first && decide (s.wakeAt ≤ w.now) then w.resume s else w

/-- Let every run change its turn. -/
def takeTurns (w : Stage) : Stage :=
  { w with slots := w.slots.map fun s => { s with first := !s.first } }

/-- Make the requests that dropped routines left behind. -/
def sweep (w : Stage) : Stage :=
  w.leftBehind.foldl (fun w a => (w.answer a).2) { w with leftBehind := [] }

/-- The part of a round before the foreground. -/
def beginRound (w : Stage) : Stage :=
  let w := w.takeTurns
  w.slots.foldl (resumeDue true) w

/-- The part of a round after the foreground.  A restless round is followed by one
more in which nothing is due. -/
def endRound (w : Stage) : Stage :=
  let w := (w.slots.reverse.foldl (resumeDue false) w).sweep
  if w.restless then { w with restless := false }.takeTurns else w

/-- The moment at which the first slot wakes that does so before `target`. -/
def nextWake? (target : Nat) (slots : List Slot) : Option Nat :=
  ((slots.map Slot.wakeAt).filter fun t => decide (t < target)).min?

/-- Let time pass up to the part of the round at `target` that is before the
foreground.  Rounds are at least a millisecond apart, which bounds the steps. -/
def elapseUntil (target : Nat) : Nat → Stage → Stage
  | 0, w => w
  | steps + 1, w =>
    let w := w.endRound
    match nextWake? target w.slots with
    | none => { w with now := target }.beginRound
    | some t => elapseUntil target steps { w with now := t }.beginRound

/-- Let time pass while the foreground waits. -/
def elapse (w : Stage) (millis : Nat) : Stage :=
  if millis = 0 then w else elapseUntil (w.now + millis) millis w

/-- Run acts in the foreground, to their end. -/
def play {α : Type} : Acting α → Stage → α × Stage
  | .done a, w => (a, w)
  | .ask a _ next, w =>
    let (r, w) := w.answer a
    play (next r) w
  | .pause millis _ next, w => play (next ()) (w.elapse millis)

/-- Run a routine of the service on the stage. -/
def perform {α : Type} (w : Stage) (work : Work α) : α × Stage :=
  play (work.serve Act.call (performWith w.scripts)) w

end Stage
end Rehearsal
end WarmFeed
