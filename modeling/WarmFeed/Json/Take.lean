import WarmFeed.Json.Reader

/-!
# Taking values out of JSON

Each reading takes one kind of value and refuses everything else.  An array or
object in the place of a plain value is refused as soon as it opens; any other
value has to be readable before it can be unsuitable.

A `Shape` describes a record by its fields.  The members of an object are met
from left to right: a name that occurs a second time is refused before its
value, unknown members are passed over, and a field that is still missing is
noticed at the closing bracket.  A record can also stand as an array of its
fields in their order.
-/

namespace WarmFeed
namespace Json

abbrev Reading (α : Type) := Json → Except Fault α

/-- The refusal of a value that is of another kind. -/
def refusal : Json → Fault
  | unreadable _ taken _ => taken
  | _ => .unsuitable

/-- A whole number from `low` up to `high`. -/
def takeWhole (low high : Int) : Reading Int
  | number (.whole n) => if low ≤ n ∧ n ≤ high then .ok n else .error .unsuitable
  | j => .error j.refusal

/-- A natural number below `bound`. -/
def takeNatural (bound : Nat) : Reading Nat := fun j => do
  return (← takeWhole 0 ((bound : Int) - 1) j).toNat

/-- A natural number of 64 bits. -/
def takeWord : Reading Nat := takeNatural 0x10000000000000000

def takeCount : Reading UInt32 := fun j => return UInt32.ofNat (← takeNatural 0x100000000 j)

def takeId : Reading UInt64 := fun j => return UInt64.ofNat (← takeWord j)

/-- Any number, as the nearest score. -/
def takeScore : Reading Score
  | number (.whole n) => .ok (Score.ofInt n)
  | number (.real s) => .ok s
  | j => .error j.refusal

def takeBool : Reading Bool
  | bool b => .ok b
  | j => .error j.refusal

def takeString : Reading String
  | string s => .ok s
  | j => .error j.refusal

def takeNull : Reading Unit
  | null => .ok ()
  | j => .error j.refusal

/-- Null, or a value. -/
def takeOptional {α : Type} (take : Reading α) : Reading (Option α)
  | null => .ok none
  | j => return some (← take j)

def stopWith {α : Type} (a : α) : Option Fault → Except Fault α
  | none => .ok a
  | some f => .error f

def takeList {α : Type} (take : Reading α) : Reading (List α)
  | array items stop => do stopWith (← items.mapM take) stop
  | j => .error j.refusal

/-- The name of a member. -/
def takeName (j : Json) : Except Fault String :=
  match j.nameFault with
  | some f => .error f
  | none => takeString j

/-- An object as a list of names with their values. -/
def takeMembers {α : Type} (take : Reading α) : Reading (List (String × α))
  | object members stop => do
    stopWith (← members.mapM fun m => return (← takeName m.1, ← take m.2)) stop
  | j => .error j.refusal

/-! ## Records -/

/-- What a field stands for where it is not given. -/
inductive Absence where
  /-- Nothing: it has to be given. -/
  | refused
  /-- No value, but only in an object. -/
  | allowedByName
  /-- A default. -/
  | allowed
deriving DecidableEq

structure Field where
  name : String
  absence : Absence
  /-- The fault of taking a value for the field. -/
  fault : Json → Option Fault

def faultOf {α : Type} (take : Reading α) (j : Json) : Option Fault :=
  match take j with
  | .ok _ => none
  | .error f => some f

/-- The fields of a record, and the record made of their values. -/
structure Shape (α : Type) where
  fields : List Field
  build : (String → Option Json) → Except Fault α

namespace Shape

variable {α β : Type}

instance : Applicative Shape where
  pure a := ⟨[], fun _ => .ok a⟩
  seq f x :=
    let x := x ()
    ⟨f.fields ++ x.fields, fun given => do return (← f.build given) (← x.build given)⟩

/-- A field that has to be given. -/
def required (name : String) (take : Reading α) : Shape α :=
  { fields := [⟨name, .refused, faultOf take⟩]
    build := fun given => match given name with
      | some j => take j
      | none => .error .unsuitable }

/-- A field with a value for the case that it is not given. -/
def withDefault (name : String) (default : α) (take : Reading α) : Shape α :=
  { fields := [⟨name, .allowed, faultOf take⟩]
    build := fun given => match given name with
      | some j => take j
      | none => .ok default }

/-- A field that may be null or missing. -/
def optional (name : String) (take : Reading α) : Shape (Option α) :=
  withDefault name none (takeOptional take)

/-- A field that may be null, and missing from an object. -/
def optionalByName (name : String) (take : Reading α) : Shape (Option α) :=
  { fields := [⟨name, .allowedByName, faultOf (takeOptional take)⟩]
    build := (withDefault name none (takeOptional take)).build }

/-- The known members of an object, met from left to right, those already met first. -/
def gather (fields : List Field) (met : List (String × Json)) :
    List (Json × Json) → Except Fault (List (String × Json))
  | [] => .ok met
  | (name, v) :: rest => do
    let name ← takeName name
    match fields.find? (fun f => f.name = name) with
    | none => stopWith () v.passedFault
    | some f =>
      if (met.lookup name).isSome then throw .unsuitable
      stopWith () (f.fault v)
    gather fields ((name, v) :: met) rest

/-- The items of an array, each for the field at its place. -/
def line : List Field → List Json → Option Fault → Except Fault (List (String × Json))
  | [], [], stop => stopWith [] stop
  | [], _ :: _, _ => .error .malformed
  | f :: fields, [], stop => do
    stopWith () stop
    if f.absence = .allowed then line fields [] stop else .error .unsuitable
  | f :: fields, v :: rest, stop => do
    stopWith () (f.fault v)
    return (f.name, v) :: (← line fields rest stop)

/-- Take a record that has this shape. -/
def take (s : Shape α) : Reading α
  | object members stop => do
    let given ← gather s.fields [] members
    stopWith () stop
    if s.fields.any fun f => f.absence = .refused && (given.lookup f.name).isNone then
      throw .unsuitable
    s.build fun name => given.lookup name
  | array items stop => do
    let given ← line s.fields items stop
    s.build fun name => given.lookup name
  | j => .error j.refusal

end Shape

/-! ## Alternatives -/

/-- One of several named alternatives. -/
inductive Alternative (α : Type) where
  | plain (value : α)
  /-- One that carries a value of its own. -/
  | carrying (take : Reading α)

/-- A text names a plain alternative; an object with one member names any
alternative and holds its value, which is null for a plain one. -/
def takeAlternative {α : Type} (find : String → Option (Alternative α)) : Reading α
  | string s =>
    match find s with
    | some (.plain a) => .ok a
    | _ => .error .unsuitable
  | object [] stop => .error (stop.getD .malformed)
  | object ((tag, v) :: more) stop => do
    let a ← match find (← takeName tag) with
      | none => throw .unsuitable
      | some (.plain a) => (do takeNull v; return a)
      | some (.carrying take) => take v
    if more.isEmpty then stopWith a stop else throw .malformed
  | unreadable .quote taken _ => .error taken
  | unreadable .nothing taken _ => .error taken
  | _ => .error .malformed

/-- An alternative among plain ones, each by its name. -/
def takeNamed {α : Type} (name : α → String) (all : List α) : Reading α :=
  takeAlternative fun s => (all.find? fun a => name a = s).map Alternative.plain

end Json
end WarmFeed
