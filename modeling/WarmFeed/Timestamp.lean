import WarmFeed.Text.Blank

/-!
# Timestamps

A timestamp is a date of the Gregorian calendar, extended to all years, and a
time of that day in UTC down to the nanosecond.  A second that was inserted at
the end of a minute is kept as nanoseconds beyond one second.

Timestamps are written with a `Z` and with no, three, six or nine fraction
digits, the fewest that lose nothing.  They are read more freely: with any
offset, with a blank or a small letter in the place of the `T`, with blanks
between the parts and with fewer digits than usual.
-/

namespace WarmFeed

structure Date where
  year : Int
  month : Nat
  day : Nat
deriving DecidableEq, Inhabited

namespace Date

def isLeapYear (year : Int) : Bool :=
  decide (year % 4 = 0) && (decide (year % 100 ≠ 0) || decide (year % 400 = 0))

def daysInMonth (year : Int) (month : Nat) : Nat :=
  if month = 2 then if isLeapYear year then 29 else 28
  else if month = 4 ∨ month = 6 ∨ month = 9 ∨ month = 11 then 30
  else 31

def firstYear : Int := -262143
def lastYear : Int := 262142

/-- The date exists and lies in the years that timestamps cover. -/
def isValid (d : Date) : Bool :=
  decide (firstYear ≤ d.year) && decide (d.year ≤ lastYear) &&
    decide (1 ≤ d.month) && decide (d.month ≤ 12) &&
    decide (1 ≤ d.day) && decide (d.day ≤ daysInMonth d.year d.month)

def next (d : Date) : Date :=
  if d.day < daysInMonth d.year d.month then { d with day := d.day + 1 }
  else if d.month < 12 then ⟨d.year, d.month + 1, 1⟩
  else ⟨d.year + 1, 1, 1⟩

def previous (d : Date) : Date :=
  if 1 < d.day then { d with day := d.day - 1 }
  else if 1 < d.month then ⟨d.year, d.month - 1, daysInMonth d.year (d.month - 1)⟩
  else ⟨d.year - 1, 12, 31⟩

/-- Days before the first of the month, in the given year. -/
def daysBeforeMonth (year : Int) (month : Nat) : Nat :=
  (List.range (month - 1)).foldl (fun days m => days + daysInMonth year (m + 1)) 0

/-- Days from the first day of 1970. -/
def dayNumber (d : Date) : Int :=
  let y := d.year - 1
  365 * y + y / 4 - y / 100 + y / 400 - 719162 + daysBeforeMonth d.year d.month + (d.day - 1 : Nat)

/-- A second of the date, with nanoseconds that may go beyond one second for the sake
of an inserted second. -/
def hasMoment (d : Date) (second nanos : Nat) : Bool :=
  d.isValid && decide (second < 86400) && decide (nanos < 2000000000)

end Date

structure Timestamp where
  date : Date
  /-- Seconds since midnight. -/
  second : Nat
  nanos : Nat
  hasMoment : date.hasMoment second nanos = true
deriving DecidableEq

namespace Timestamp

/-- The first moment of 1970. -/
def epoch : Timestamp := ⟨⟨1970, 1, 1⟩, 0, 0, by decide⟩

instance : Inhabited Timestamp := ⟨epoch⟩

def ofParts? (date : Date) (second nanos : Nat) : Option Timestamp :=
  if h : date.hasMoment second nanos = true then some ⟨date, second, nanos, h⟩ else none

/-- Whole milliseconds from the first moment of 1970. -/
def millis (t : Timestamp) : Int :=
  (t.date.dayNumber * 86400 + t.second) * 1000 + (t.nanos / 1000000 : Nat)

/-- Digits of `n` with zeros in front, `width` characters in all. -/
def padded (width n : Nat) : List Char :=
  let digits := Nat.toDigits 10 n
  List.replicate (width - digits.length) '0' ++ digits

/-- Four digits from year 0 to year 9999, and a sign before all other years. -/
def yearText (year : Int) : List Char :=
  if 0 ≤ year ∧ year ≤ 9999 then padded 4 year.toNat
  else (if year < 0 then '-' else '+') :: padded 4 year.natAbs

def fractionText (nanos : Nat) : List Char :=
  if nanos = 0 then []
  else if nanos % 1000000 = 0 then '.' :: padded 3 (nanos / 1000000)
  else if nanos % 1000 = 0 then '.' :: padded 6 (nanos / 1000)
  else '.' :: padded 9 nanos

def chars (t : Timestamp) : List Char :=
  let inserted := decide (1000000000 ≤ t.nanos)
  let second := t.second % 60 + (if inserted then 1 else 0)
  let nanos := if inserted then t.nanos - 1000000000 else t.nanos
  yearText t.date.year ++ '-' :: padded 2 t.date.month ++ '-' :: padded 2 t.date.day ++
    'T' :: padded 2 (t.second / 3600) ++ ':' :: padded 2 (t.second / 60 % 60) ++
    ':' :: padded 2 second ++ fractionText nanos ++ ['Z']

def text (t : Timestamp) : String := String.ofList t.chars

/-! ## Reading -/

/-- The number written by leading digits, most significant first. -/
def valueOf (digits : List Char) : Nat :=
  digits.foldl (fun n c => 10 * n + (c.toNat - 48)) 0

/-- At least one and at most `most` digits. -/
def readDigits (most : Nat) (cs : List Char) : Option (Nat × List Char) :=
  let digits := (cs.take most).takeWhile Char.isDigit
  if digits.isEmpty then none else some (valueOf digits, cs.drop digits.length)

def readChar (c : Char) : List Char → Option (List Char)
  | [] => none
  | d :: rest => if d = c then some rest else none

/-- Up to two digits, with blanks allowed in front. -/
def readField (cs : List Char) : Option (Nat × List Char) := readDigits 2 (Text.trimStart cs)

/-- The mark between two fields, with blanks allowed in front, and the second of them. -/
def readNext (mark : Char) (cs : List Char) : Option (Nat × List Char) := do
  readField (← readChar mark (Text.trimStart cs))

/-- Up to four digits, or any number of them after a sign. -/
def readYear (cs : List Char) : Option (Int × List Char) :=
  match Text.trimStart cs with
  | '-' :: rest => (readDigits rest.length rest).map fun r => (-(r.1 : Int), r.2)
  | '+' :: rest => (readDigits rest.length rest).map fun r => ((r.1 : Int), r.2)
  | cs => (readDigits 4 cs).map fun r => ((r.1 : Int), r.2)

/-- The nanoseconds after a point, if there is one; digits beyond the ninth are dropped. -/
def readFraction : List Char → Option (Nat × List Char)
  | '.' :: rest => do
    let (n, after) ← readDigits 9 rest
    return (n * Nat.pow 10 (9 - (rest.length - after.length)), after.dropWhile Char.isDigit)
  | cs => some (0, cs)

/-- Two digits that stand for an offset's hours or minutes. -/
def readPair : List Char → Option (Nat × List Char)
  | a :: b :: rest =>
    if a.isDigit && b.isDigit then some (valueOf [a, b], rest) else none
  | _ => none

/-- Seconds that local time is ahead of UTC. -/
def readOffset (cs : List Char) : Option (Int × List Char) :=
  match cs with
  | [] => none
  | c :: rest =>
    if c = 'Z' || c = 'z' then some (0, rest)
    else if (cs.take 3).map Char.toLower = ['u', 't', 'c'] then some (0, cs.drop 3)
    else if c = '+' || c = '-' || c = '−' then do
      let (hours, rest) ← readPair rest
      let (minutes, rest) ← readPair (rest.dropWhile fun c => c = ':' || Text.isBlank c)
      if 60 ≤ minutes then none
      else
        let seconds : Int := (hours * 3600 + minutes * 60 : Nat)
        some (if c = '+' then seconds else -seconds, rest)
    else none

/-- Move a local time back by its offset, over midnight if need be. -/
def ofLocal? (date : Date) (second nanos : Nat) (offset : Int) : Option Timestamp :=
  let s := (second : Int) - offset
  if s < 0 then ofParts? date.previous (s + 86400).toNat nanos
  else if 86400 ≤ s then ofParts? date.next (s - 86400).toNat nanos
  else ofParts? date s.toNat nanos

def parse? (cs : List Char) : Option Timestamp := do
  let (year, cs) ← readYear cs
  let (month, cs) ← readNext '-' cs
  let (day, cs) ← readNext '-' cs
  let cs ← match cs with
    | c :: rest => if c = 'T' || c = 't' || c = ' ' then some rest else none
    | [] => none
  let (hour, cs) ← readField cs
  let (minute, cs) ← readNext ':' cs
  let (second, cs) ← readNext ':' cs
  let (nanos, cs) ← readFraction cs
  let (offset, cs) ← readOffset (Text.trimStart cs)
  let date : Date := ⟨year, month, day⟩
  let inserted := decide (second = 60)
  if !(Text.trimStart cs).isEmpty || !date.isValid || 24 ≤ hour || 60 ≤ minute || 60 < second ||
      86400 ≤ offset.natAbs then none
  else
    let ofDay := hour * 3600 + minute * 60 + (if inserted then 59 else second)
    ofLocal? date ofDay (if inserted then nanos + 1000000000 else nanos) offset

end Timestamp
end WarmFeed
