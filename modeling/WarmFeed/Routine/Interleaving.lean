import WarmFeed.Routine.Basic

/-!
# Routines side by side

Several routines share one state and take turns.  A turn is one request with its
answer; a schedule says whose turn it is.  What a schedule leaves unsaid can be
anything: a routine whose turn never comes again has stopped for good.
-/

namespace WarmFeed
namespace Routine

variable {Q : Type} {R : Q → Type} {α σ : Type}

/-- One turn of a routine. -/
def turn (answer : σ → (q : Q) → R q × σ) : Routine R α → σ → Routine R α × σ
  | done a, s => (done a, s)
  | ask q _ next, s =>
    let (r, s) := answer s q
    (next r, s)
  | pause _ _ next, s => (next (), s)

/-- The turns of a schedule, one after the other. -/
def interleave (answer : σ → (q : Q) → R q × σ) :
    List Nat → List (Routine R α) → σ → List (Routine R α) × σ
  | [], ps, s => (ps, s)
  | i :: schedule, ps, s =>
    match ps[i]? with
    | none => interleave answer schedule ps s
    | some p =>
      let (p, s) := p.turn answer s
      interleave answer schedule (ps.set i p) s

/-- The value of a routine that has ended. -/
def value? : Routine R α → Option α
  | done a => some a
  | _ => none

end Routine
end WarmFeed
