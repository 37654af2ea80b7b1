import WarmFeed.Precompute.Worker
import WarmFeed.Source.Timelines
import WarmFeed.Source.Trends

/-!
# Acts of a rehearsal

In a rehearsal the service works against scripted collaborators.  What it does is
a sequence of acts: the calls that its collaborators answer at once, and the steps
of calls that take time.  A source announces itself before it follows its script,
and candidates are resolved in waves: as many as may be in work at a time begin
together, and when their time is over they settle in their order.
-/

namespace WarmFeed
namespace Rehearsal

inductive Act where
  | call (c : Call)
  /-- A source starts to compute. -/
  | announce (kind : FeedKind) (subject : Subject)
  /-- A candidate begins to be resolved; the answer is how long that takes. -/
  | begin (reference : String)
  | settle (c : TrendCandidate)
  /-- A run in the background has ended. -/
  | finish (run : Nat) (result : Except RunError Report)

namespace Act

@[reducible] def Reply : Act → Type
  | call c => c.Reply
  | announce _ _ => Unit
  | begin _ => Nat
  | settle _ => Call.Resolution
  | finish _ _ => Unit

end Act

abbrev Acting := Routine Act.Reply

def act (a : Act) : Acting a.Reply := Routine.request a

/-- How a scripted source computes a feed. -/
inductive Script where
  | entries (es : List Entry)
  | fails (e : ServiceError)
  /-- The entries come after so many seconds. -/
  | late (seconds : Nat) (es : List Entry)
  /-- The account itself is the only entry; some accounts fail. -/
  | echo (failing : List AccountId)
  /-- A source of the service, at work on scripted collaborators. -/
  | own (source : Source)

/-- The entry of the trending feed where accounts are echoed. -/
def echoedTrend : ContentId := 99

def echo (failing : List AccountId) : Subject → Except ServiceError (List Entry)
  | .account id =>
    if id ∈ failing then .error (.collaborator "candidates down") else .ok [⟨id, .ofNat 1⟩]
  | .trending => .ok [⟨echoedTrend, .ofNat 1⟩]

/-- Let all candidates of a wave begin, and find out how long they take. -/
def beginAll : List TrendCandidate → Acting Nat
  | [] => return 0
  | c :: rest => do
    let millis ← act (.begin c.reference)
    return max millis (← beginAll rest)

def settleAll : List TrendCandidate → Acting (List Call.Resolution)
  | [] => return []
  | c :: rest => do
    let r ← act (.settle c)
    return r :: (← settleAll rest)

/-- Resolve candidates in waves of the given size.  Each wave takes at least one
candidate, so as many waves as candidates suffice. -/
def resolveWaves (size : Nat) : Nat → List TrendCandidate → Acting (List Call.Resolution)
  | 0, _ => return []
  | _, [] => return []
  | waves + 1, cs => do
    let wave := cs.take size
    let millis ← beginAll wave
    if 0 < millis then Routine.sleep millis
    let first ← settleAll wave
    return first ++ (← resolveWaves size waves (cs.drop size))

/-- A call as acts. -/
def perform : (c : Call) → Acting c.Reply
  | .resolveAll concurrency cs => resolveWaves (max concurrency 1) cs.length cs
  | c => act (.call c)

/-- A routine of the service as acts. -/
def performed {α : Type} (work : Work α) : Acting α := work.serve Act.call perform

/-- Announce the source and follow its script. -/
def Script.follow (kind : FeedKind) (subject : Subject) (s : Script) :
    Acting (Except ServiceError (List Entry)) := do
  act (.announce kind subject)
  match s with
  | entries es => return .ok es
  | fails e => return .error e
  | late seconds es => do
    Routine.sleep (1000 * seconds)
    return .ok es
  | echo failing => return Rehearsal.echo failing subject
  | own source => performed (source subject).run

/-- A call as acts, with the scripted sources in the place of calls for contents. -/
def performWith (scripts : Table FeedKind Script) : (c : Call) → Acting c.Reply
  | .compute kind subject seconds =>
    match scripts.get? kind with
    | none => return none
    | some s => (s.follow kind subject).within (1000 * seconds)
  | c => perform c

end Rehearsal
end WarmFeed
