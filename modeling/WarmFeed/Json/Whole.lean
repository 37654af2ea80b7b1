import WarmFeed.Json.Take
import WarmFeed.Table

/-!
# Whole JSON texts

Where every part of a text is looked at, the text has to be JSON from its start to
its end.  Arrays and objects may be nested to a limited depth, and of two members
with one name the later holds.
-/

namespace WarmFeed
namespace Json

/-- How deep arrays and objects may be nested. -/
def depthLimit : Nat := 127

mutual

/-- The value with one member for each name, if nothing in it is unreadable and it
is nested at most so deep. -/
def whole? : Nat → Json → Option Json
  | _, null => some null
  | _, bool b => some (bool b)
  | _, number n => some (number n)
  | _, string s => some (string s)
  | depth, array items stop =>
    if depth = 0 || stop.isSome then none else (wholeItems? (depth - 1) items).map list
  | depth, object members stop =>
    if depth = 0 || stop.isSome then none
    else (wholeMembers? (depth - 1) members).map fun ms => record (Table.ofList ms).pairs
  | _, unreadable _ _ _ => none

def wholeItems? : Nat → List Json → Option (List Json)
  | _, [] => some []
  | depth, v :: rest => do return (← whole? depth v) :: (← wholeItems? depth rest)

def wholeMembers? : Nat → List (Json × Json) → Option (List (String × Json))
  | _, [] => some []
  | depth, m :: rest => do return (← wholeMember? depth m) :: (← wholeMembers? depth rest)

def wholeMember? : Nat → Json × Json → Option (String × Json)
  | depth, (string name, v) => (whole? depth v).map fun v => (name, v)
  | _, _ => none

end

/-- The value of a text that is JSON as a whole. -/
def parse? (text : String) : Option Json :=
  (readAs (fun j => .ok j) text).toOption.bind (whole? depthLimit)

/-- The value of a member, unless it is null. -/
def member? (j : Json) (name : String) : Option Json :=
  match j with
  | object members _ =>
    match members.find? fun m => match m.1 with
        | string s => s = name
        | _ => false with
    | some (_, null) => none
    | some (_, v) => some v
    | none => none
  | _ => none

/-- The object with the members of another in the place of its own. -/
def overlay (j changes : Json) : Json :=
  match j, changes with
  | object members _, object more _ =>
    let table : Table String Json := Table.ofList (members.filterMap named)
    record (table.setAll (more.filterMap named)).pairs
  | _, _ => j
where
  named : Json × Json → Option (String × Json)
    | (string name, v) => some (name, v)
    | _ => none

end Json
end WarmFeed
