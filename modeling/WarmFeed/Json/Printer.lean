import WarmFeed.Json.Basic
import WarmFeed.Score.Text

/-!
# Writing JSON

Values are written without blanks, members in the order in which they stand.
Quotes, backslashes and the characters below the blank are escaped, the common
ones by a letter; every other character stands for itself.
-/

namespace WarmFeed
namespace Json

def hexDigit (n : Nat) : Char := Char.ofNat (if n < 10 then 48 + n else 87 + n)

/-- A character as it stands between quotes. -/
def escaped (c : Char) : List Char :=
  if c = '"' then ['\\', '"']
  else if c = '\\' then ['\\', '\\']
  else if 32 ≤ c.toNat then [c]
  else if c.toNat = 8 then ['\\', 'b']
  else if c.toNat = 12 then ['\\', 'f']
  else if c = '\n' then ['\\', 'n']
  else if c = '\r' then ['\\', 'r']
  else if c = '\t' then ['\\', 't']
  else ['\\', 'u', '0', '0', hexDigit (c.toNat / 16), hexDigit (c.toNat % 16)]

def quoted (s : String) : List Char := '"' :: s.toList.flatMap escaped ++ ['"']

/-- A number that is not finite has no written form and becomes null. -/
def Number.chars : Number → List Char
  | whole n => (toString n).toList
  | real s => if s.isFinite then (s.text Score.scientific).toList else "null".toList

mutual

def chars : Json → List Char
  | null => "null".toList
  | bool b => (if b then "true" else "false").toList
  | number n => n.chars
  | string s => quoted s
  | array items _ => '[' :: itemsChars items ++ [']']
  | object members _ => '{' :: membersChars members ++ ['}']
  | unreadable _ _ _ => []

def itemsChars : List Json → List Char
  | [] => []
  | v :: rest => chars v ++ laterItemsChars rest

def laterItemsChars : List Json → List Char
  | [] => []
  | v :: rest => ',' :: chars v ++ laterItemsChars rest

def membersChars : List (Json × Json) → List Char
  | [] => []
  | m :: rest => memberChars m ++ laterMembersChars rest

def laterMembersChars : List (Json × Json) → List Char
  | [] => []
  | m :: rest => ',' :: memberChars m ++ laterMembersChars rest

def memberChars : Json × Json → List Char
  | (name, v) => chars name ++ ':' :: chars v

end

def text (j : Json) : String := String.ofList j.chars

end Json
end WarmFeed
