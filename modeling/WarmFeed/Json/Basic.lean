import WarmFeed.Score.Rounding

/-!
# JSON values as they were read

A text is read into one tree of values whether or not it is well formed.  Where
reading cannot go on, the tree ends in the fault that stopped it, and whoever
walks the tree from left to right meets that fault only if nothing before it
was already unsuitable.  So the first thing wrong with a text is found by the
walk, and not by the reader.

Some values can be passed over though they cannot be taken: a number beyond the
range of scores, and a text with half of a surrogate pair.
-/

namespace WarmFeed
namespace Json

/-- What is wrong with a text. -/
inductive Fault where
  /-- Not JSON. -/
  | malformed
  /-- The text ends too early. -/
  | truncated
  /-- JSON, but not of the kind that was asked for. -/
  | unsuitable
deriving DecidableEq, Inhabited

def Fault.name : Fault → String
  | malformed => "syntax"
  | truncated => "eof"
  | unsuitable => "data"

/-- How an unreadable value starts. -/
inductive Start where
  /-- Not at all: the text has ended. -/
  | nothing
  | quote
  | other
deriving DecidableEq, Inhabited

/-- A whole number that fits in 64 bits, or any other number. -/
inductive Number where
  | whole (n : Int)
  | real (s : Score)
deriving DecidableEq, Inhabited

end Json

open Json in
/-- A value as it was read.  The end of an array or object holds a fault when its
last part is followed by neither a comma nor the closing bracket. -/
inductive Json where
  | null
  | bool (b : Bool)
  | number (n : Number)
  | string (s : String)
  | array (items : List Json) (stop : Option Fault)
  | object (members : List (Json × Json)) (stop : Option Fault)
  /-- No value: the fault of taking it, and the fault of passing over it if it
  cannot be passed over. -/
  | unreadable (start : Start) (taken : Fault) (passed : Option Fault)
deriving Inhabited

namespace Json

/-- The text ended where a value should start. -/
def missing : Json := unreadable .nothing .truncated (some .truncated)

/-- Something that starts no value. -/
def junk : Json := unreadable .other .malformed (some .malformed)

def natural (n : Nat) : Json := number (.whole n)

def real (s : Score) : Json := number (.real s)

def list (items : List Json) : Json := array items none

/-- An object with the given members, in this order. -/
def record (members : List (String × Json)) : Json :=
  object (members.map fun m => (string m.1, m.2)) none

def optional {α : Type} (write : α → Json) : Option α → Json
  | none => null
  | some a => write a

/-- The fault of taking a name that is followed by a colon. -/
def nameFault : Json → Option Fault
  | string _ => none
  | unreadable .quote taken _ => some taken
  | unreadable .nothing taken _ => some taken
  | _ => some .malformed

/-- The fault of passing over such a name. -/
def passedNameFault : Json → Option Fault
  | string _ => none
  | unreadable .quote _ passed => passed
  | unreadable .nothing _ passed => passed
  | _ => some .malformed

mutual

/-- The first fault met when the value is passed over. -/
def passedFault : Json → Option Fault
  | unreadable _ _ passed => passed
  | array items stop => (passedItemsFault items).or stop
  | object members stop => (passedMembersFault members).or stop
  | _ => none

def passedItemsFault : List Json → Option Fault
  | [] => none
  | v :: rest => (passedFault v).or (passedItemsFault rest)

def passedMembersFault : List (Json × Json) → Option Fault
  | [] => none
  | m :: rest => (passedMemberFault m).or (passedMembersFault rest)

def passedMemberFault : Json × Json → Option Fault
  | (name, v) => (passedNameFault name).or (passedFault v)

end

end Json
end WarmFeed
