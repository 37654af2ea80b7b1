import WarmFeed.Json.Number
import WarmFeed.Json.Quoted

/-!
# Reading JSON

The reader goes from left to right and never goes back.  It returns the value
together with what follows it, or with nothing when it had to stop inside.
-/

namespace WarmFeed
namespace Json

def isBlank (c : Char) : Bool := c = ' ' || c = '\n' || c = '\t' || c = '\r'

def skipBlanks (cs : List Char) : List Char := cs.dropWhile isBlank

/-- The rest of a word such as `null`, after its first letter. -/
def readWord (value : Json) : List Char → List Char → Json × Option (List Char)
  | [], cs => (value, some cs)
  | _ :: _, [] => (unreadable .other .truncated (some .truncated), none)
  | c :: word, d :: cs => if c = d then readWord value word cs else (junk, none)

/-- What was read of an array or object, after its opening bracket. -/
structure Parts (α : Type) where
  parts : List α
  stop : Option Fault
  rest : Option (List Char)

namespace Parts

/-- The text stopped inside the last part. -/
def broken {α : Type} (a : α) : Parts α := ⟨[a], none, none⟩

def cons {α : Type} (a : α) (p : Parts α) : Parts α := { p with parts := a :: p.parts }

end Parts

mutual

/-- A value and what follows it.  The fuel bounds the calls; a text of `n`
characters takes at most two for each of them and two more. -/
def readValue : Nat → List Char → Json × Option (List Char)
  | 0, _ => (missing, none)
  | fuel + 1, cs =>
    match skipBlanks cs with
    | [] => (missing, none)
    | c :: rest =>
      if c = '"' then readString rest
      else if c = '[' then
        match skipBlanks rest with
        | [] => (array [] (some .truncated), none)
        | d :: after =>
          if d = ']' then (list [], some after)
          else
            let items := readItems fuel rest
            (array items.parts items.stop, items.rest)
      else if c = '{' then
        match skipBlanks rest with
        | [] => (object [] (some .truncated), none)
        | d :: after =>
          if d = '}' then (record [], some after)
          else
            let members := readMembers fuel rest
            (object members.parts members.stop, members.rest)
      else if c = 'n' then readWord null "ull".toList rest
      else if c = 't' then readWord (bool true) "rue".toList rest
      else if c = 'f' then readWord (bool false) "alse".toList rest
      else if c = '-' || c.isDigit then readNumber (c :: rest)
      else (junk, none)

/-- The items of an array, of which there is at least one. -/
def readItems : Nat → List Char → Parts Json
  | 0, _ => .broken missing
  | fuel + 1, cs =>
    match readValue fuel cs with
    | (v, none) => .broken v
    | (v, some rest) =>
      match skipBlanks rest with
      | [] => ⟨[v], some .truncated, none⟩
      | c :: rest =>
        if c = ',' then (readItems fuel rest).cons v
        else if c = ']' then ⟨[v], none, some rest⟩
        else ⟨[v], some .malformed, none⟩

/-- The members of an object, of which there is at least one.  What stands in the
place of a name is read as a value, and nothing more if it is no text. -/
def readMembers : Nat → List Char → Parts (Json × Json)
  | 0, _ => .broken (missing, missing)
  | fuel + 1, cs =>
    match readValue fuel cs with
    | (name, none) => .broken (name, missing)
    | (name, some rest) =>
      if name.passedNameFault.isSome then .broken (name, missing)
      else
        match skipBlanks rest with
        | [] => .broken (name, missing)
        | c :: rest =>
          if c ≠ ':' then .broken (name, junk)
          else
            match readValue fuel rest with
            | (v, none) => .broken (name, v)
            | (v, some rest) =>
              match skipBlanks rest with
              | [] => ⟨[(name, v)], some .truncated, none⟩
              | c :: rest =>
                if c = ',' then (readMembers fuel rest).cons (name, v)
                else if c = '}' then ⟨[(name, v)], none, some rest⟩
                else ⟨[(name, v)], some .malformed, none⟩

end

/-- The value at the start of a text, and what follows it. -/
def read (cs : List Char) : Json × Option (List Char) := readValue (2 * cs.length + 2) cs

/-- Read a whole text and take from it what is asked for.  The value has to be
suitable before it matters whether anything follows it. -/
def readAs {α : Type} (take : Json → Except Fault α) (text : String) : Except Fault α := do
  let (v, rest) := read text.toList
  let a ← take v
  if (rest.map skipBlanks) = some [] then return a else throw .malformed

end Json
end WarmFeed
