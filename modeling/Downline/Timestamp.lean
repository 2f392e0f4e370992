/-!
Points in time as they are written in records: a date and a time of day in UTC, to the nanosecond.
A time is kept in the parts in which it is written, so that a second 60 stays what it is.
-/

namespace Downline

/-- A point in time in UTC. -/
structure Timestamp where
  year : Int
  month : Nat
  day : Nat
  hour : Nat
  minute : Nat
  /-- Up to 60, which a leap second has. -/
  second : Nat
  nanos : Nat
deriving DecidableEq, Inhabited, Repr

namespace Timestamp

/-! ### The calendar -/

def isLeapYear (y : Int) : Bool :=
  y % 4 == 0 && (y % 100 != 0 || y % 400 == 0)

def daysInMonth (y : Int) (m : Nat) : Nat :=
  match m with
  | 2 => if isLeapYear y then 29 else 28
  | 4 | 6 | 9 | 11 => 30
  | _ => 31

def minYear : Int := -262143
def maxYear : Int := 262142

def isValid (t : Timestamp) : Bool :=
  decide (minYear ≤ t.year) && decide (t.year ≤ maxYear) &&
  decide (1 ≤ t.month) && decide (t.month ≤ 12) &&
  decide (1 ≤ t.day) && decide (t.day ≤ daysInMonth t.year t.month) &&
  decide (t.hour < 24) && decide (t.minute < 60) && decide (t.second ≤ 60) &&
  decide (t.nanos < 1000000000)

/-- The same time on the day after. -/
def nextDay (t : Timestamp) : Timestamp :=
  if t.day < daysInMonth t.year t.month then { t with day := t.day + 1 }
  else if t.month < 12 then { t with month := t.month + 1, day := 1 }
  else { t with year := t.year + 1, month := 1, day := 1 }

/-- The same time on the day before. -/
def previousDay (t : Timestamp) : Timestamp :=
  if 1 < t.day then { t with day := t.day - 1 }
  else if 1 < t.month then
    { t with month := t.month - 1, day := daysInMonth t.year (t.month - 1) }
  else { t with year := t.year - 1, month := 12, day := 31 }

/-- The time some minutes earlier, less than a day away. -/
def minusMinutes (t : Timestamp) (minutes : Int) : Timestamp :=
  let total := (t.hour * 60 + t.minute : Int) - minutes
  let within := (total % 1440).toNat
  let moved := { t with hour := within / 60, minute := within % 60 }
  if total < 0 then moved.previousDay
  else if 1440 ≤ total then moved.nextDay
  else moved

/-- The number of days from the first day of year 0 to a date, the months counted from March. -/
def dayNumber (t : Timestamp) : Int :=
  let y := if t.month ≤ 2 then t.year - 1 else t.year
  let m : Int := (t.month + 9) % 12
  365 * y + y / 4 - y / 100 + y / 400 + (153 * m + 2) / 5 + t.day - 1

/-! ### Spans of time -/

/-- Whole seconds of the day, where a leap second counts as the one before. -/
def secondOfDay (t : Timestamp) : Int :=
  t.hour * 3600 + t.minute * 60 + min t.second 59

/-- Nanoseconds beyond the whole seconds; a leap second has more than a thousand million of them. -/
def fraction (t : Timestamp) : Int :=
  t.nanos + (if t.second = 60 then 1000000000 else 0)

/-- Nanoseconds from `s` to `t`. A leap second counts only if it lies between them on the clock. -/
def nanosSince (t s : Timestamp) : Int :=
  let leap : Int :=
    if s.secondOfDay < t.secondOfDay then (if s.second = 60 then 1 else 0)
    else if t.secondOfDay < s.secondOfDay then (if t.second = 60 then -1 else 0)
    else 0
  let seconds := (t.dayNumber - s.dayNumber) * 86400 + t.secondOfDay - s.secondOfDay + leap
  seconds * 1000000000 + t.fraction - s.fraction

/-- Whole milliseconds from `s` to `t`, the rest cut off. -/
def millisSince (t s : Timestamp) : Int := (t.nanosSince s).tdiv 1000000

/-! ### Writing -/

/-- A number with zeros in front up to a width. -/
def padded (width n : Nat) : List Char :=
  let ds := Nat.toDigits 10 n
  List.replicate (width - ds.length) '0' ++ ds

/-- A year: four digits, and a sign where they do not do. -/
def yearChars (y : Int) : List Char :=
  if 0 ≤ y && y ≤ 9999 then padded 4 y.toNat
  else (if y < 0 then '-' else '+') :: padded 4 y.natAbs

/-- A fraction of a second with its point, in as few groups of three digits as lose nothing. -/
def fractionChars (nanos : Nat) : List Char :=
  if nanos = 0 then []
  else if nanos % 1000000 = 0 then '.' :: padded 3 (nanos / 1000000)
  else if nanos % 1000 = 0 then '.' :: padded 6 (nanos / 1000)
  else '.' :: padded 9 nanos

/-- A point in time, in UTC. -/
def chars (t : Timestamp) : List Char :=
  yearChars t.year ++ '-' :: padded 2 t.month ++ '-' :: padded 2 t.day ++
  'T' :: padded 2 t.hour ++ ':' :: padded 2 t.minute ++ ':' :: padded 2 t.second ++
  fractionChars t.nanos ++ ['Z']

def text (t : Timestamp) : String := String.ofList t.chars

/-- The date as directories: year, month and day. -/
def datePath (t : Timestamp) : List String :=
  [String.ofList (yearChars t.year), String.ofList (padded 2 t.month),
    String.ofList (padded 2 t.day)]

/-! ### Reading -/

def isSpace (c : Char) : Bool :=
  let n := c.toNat
  (9 ≤ n && n ≤ 13) || n == 0x20 || n == 0x85 || n == 0xA0 || n == 0x1680 ||
  (0x2000 ≤ n && n ≤ 0x200A) || n == 0x2028 || n == 0x2029 || n == 0x202F || n == 0x205F ||
  n == 0x3000

/-- The text from the first character that is no white space. -/
def skipSpace (cs : List Char) : List Char := cs.dropWhile isSpace

/-- The number that digits stand for. -/
def value (cs : List Char) : Nat := cs.foldl (fun n c => n * 10 + (c.toNat - 48)) 0

/-- A number of at least one and at most `max` digits, and the text behind it. -/
def readNumber (max : Nat) (cs : List Char) : Option (Nat × List Char) :=
  let ds := (cs.take max).takeWhile Char.isDigit
  if ds = [] then none else some (value ds, cs.drop ds.length)

/-- A number of up to two digits after white space. -/
def readPart (cs : List Char) : Option (Nat × List Char) := readNumber 2 (skipSpace cs)

/-- A year after white space: up to four digits, or any number of them behind a sign. -/
def readYear (cs : List Char) : Option (Int × List Char) :=
  match skipSpace cs with
  | '-' :: rest => (readNumber rest.length rest).map fun (n, rest) => (-(n : Int), rest)
  | '+' :: rest => (readNumber rest.length rest).map fun (n, rest) => ((n : Int), rest)
  | cs => (readNumber 4 cs).map fun (n, rest) => ((n : Int), rest)

/-- One given character after white space. -/
def readMark (mark : Char) (cs : List Char) : Option (List Char) :=
  match skipSpace cs with
  | c :: rest => if c = mark then some rest else none
  | [] => none

/-- A fraction of a second, if one stands here. Digits beyond the ninth are cut off. -/
def readFraction (cs : List Char) : Option (Nat × List Char) :=
  match cs with
  | '.' :: rest =>
    let ds := (rest.take 9).takeWhile Char.isDigit
    if ds = [] then none
    else some (value ds * Nat.pow 10 (9 - ds.length), (rest.drop ds.length).dropWhile Char.isDigit)
  | cs => some (0, cs)

def readTwo : List Char → Option (Nat × List Char)
  | a :: b :: rest => if a.isDigit && b.isDigit then some (value [a, b], rest) else none
  | _ => none

/-- The distance from UTC in minutes: `Z` or `UTC` in either case, or hours and minutes. -/
def readOffset (cs : List Char) : Option (Int × List Char) :=
  match skipSpace cs with
  | c :: rest =>
    if (c == 'U' || c == 'u') && (rest.take 2 == ['T', 'C'] || rest.take 2 == ['t', 'c'] ||
        rest.take 2 == ['T', 'c'] || rest.take 2 == ['t', 'C']) then
      some (0, rest.drop 2)
    else if c == 'Z' || c == 'z' then some (0, rest)
    else if c == '+' || c == '-' || c == '\u2212' then do
      let (hours, rest) ← readTwo rest
      let (minutes, rest) ← readTwo (rest.dropWhile fun c => c == ':' || isSpace c)
      if 59 < minutes then none
      let total : Int := hours * 60 + minutes
      return (if c == '+' then total else -total, rest)
    else none
  | [] => none

/-- The point in time that a text gives: date, `T` or a blank, time of day and distance from UTC. -/
def ofChars? (cs : List Char) : Option Timestamp := do
  let (year, cs) ← readYear cs
  let cs ← readMark '-' cs
  let (month, cs) ← readPart cs
  let cs ← readMark '-' cs
  let (day, cs) ← readPart cs
  let cs ← match cs with
    | c :: rest => if c == 'T' || c == 't' || c == ' ' then some rest else none
    | [] => none
  let (hour, cs) ← readPart cs
  let cs ← readMark ':' cs
  let (minute, cs) ← readPart cs
  let cs ← readMark ':' cs
  let (second, cs) ← readPart cs
  let (nanos, cs) ← readFraction cs
  let (offset, cs) ← readOffset cs
  if skipSpace cs ≠ [] then none
  let t : Timestamp := { year, month, day, hour, minute, second, nanos }
  if !t.isValid || 1440 ≤ offset.natAbs then none
  let t := t.minusMinutes offset
  if t.isValid then some t else none

def ofString? (s : String) : Option Timestamp := ofChars? s.toList

end Timestamp

end Downline
