import WarmFeed.Json.Basic

/-!
# Reading JSON texts

A text stands between quotes and knows the usual escapes.  A character beyond
the basic plane may be written as two escapes, the halves of a surrogate pair;
one half alone is no character, so a text with such a half cannot be taken.  It
can be passed over, since whoever does so looks at the escapes alone.
-/

namespace WarmFeed
namespace Json

def hexValue (c : Char) : Option Nat :=
  if c.isDigit then some (c.toNat - 48)
  else if 'a' ≤ c && c ≤ 'f' then some (c.toNat - 87)
  else if 'A' ≤ c && c ≤ 'F' then some (c.toNat - 55)
  else none

/-- The bytes that a text takes up. -/
def byteCount (cs : List Char) : Nat := cs.foldl (fun n c => n + c.utf8Size) 0

/-- The four hexadecimal digits of an escape.  With fewer than four bytes left the
text has ended, whatever those bytes are. -/
def readUnit (cs : List Char) : Except Fault (Nat × List Char) :=
  match cs with
  | a :: b :: c :: d :: rest =>
    match hexValue a, hexValue b, hexValue c, hexValue d with
    | some a, some b, some c, some d => .ok (a * 4096 + b * 256 + c * 16 + d, rest)
    | _, _, _, _ => .error .malformed
  | _ => .error (if byteCount cs < 4 then .truncated else .malformed)

def isLeadingHalf (n : Nat) : Bool := decide (0xd800 ≤ n) && decide (n ≤ 0xdbff)
def isTrailingHalf (n : Nat) : Bool := decide (0xdc00 ≤ n) && decide (n ≤ 0xdfff)

/-- The character that a letter after a backslash stands for. -/
def unescaped (c : Char) : Option Char :=
  if c = '"' || c = '\\' || c = '/' then some c
  else if c = 'b' then some (Char.ofNat 8)
  else if c = 'f' then some (Char.ofNat 12)
  else if c = 'n' then some '\n'
  else if c = 'r' then some '\r'
  else if c = 't' then some '\t'
  else none

/-- The first step of a text: its next character, a half that stands alone, its
end, or a fault. -/
inductive Step where
  | char (c : Char) (rest : List Char)
  | half (rest : List Char)
  | close (rest : List Char)
  | stop (f : Fault)

/-- A step that starts with the four digits of an escape. -/
def unitStep (cs : List Char) : Step :=
  match readUnit cs with
  | .error f => .stop f
  | .ok (n, rest) =>
    if isTrailingHalf n then .half rest
    else if isLeadingHalf n then
      match rest with
      | [] | ['\\'] => .stop .truncated
      | '\\' :: 'u' :: afterMark =>
        match readUnit afterMark with
        | .error f => .stop f
        | .ok (m, after) =>
          if isTrailingHalf m then
            .char (Char.ofNat (0x10000 + (n - 0xd800) * 1024 + (m - 0xdc00))) after
          else .half rest
      | _ => .half rest
    else .char (Char.ofNat n) rest

def step (cs : List Char) : Step :=
  match cs with
  | [] => .stop .truncated
  | '"' :: rest => .close rest
  | '\\' :: rest =>
    match rest with
    | [] => .stop .truncated
    | 'u' :: rest => unitStep rest
    | c :: rest =>
      match unescaped c with
      | some d => .char d rest
      | none => .stop .malformed
  | c :: rest => if c.toNat < 32 then .stop .malformed else .char c rest

/-- The characters up to the closing quote, after those already read.  The fuel
bounds the number of steps; every step takes at least one character. -/
def readQuoted : Nat → Bool → List Char → List Char → Json × Option (List Char)
  | 0, _, _, _ => (missing, none)
  | fuel + 1, whole, before, cs =>
    match step cs with
    | .char c rest => readQuoted fuel whole (c :: before) rest
    | .half rest => readQuoted fuel false before rest
    | .close rest =>
      (if whole then string (String.ofList before.reverse)
        else unreadable .quote .malformed none, some rest)
    | .stop f => (unreadable .quote (if whole then f else .malformed) (some f), none)

/-- A text after its opening quote. -/
def readString (cs : List Char) : Json × Option (List Char) :=
  readQuoted (cs.length + 1) true [] cs

end Json
end WarmFeed
