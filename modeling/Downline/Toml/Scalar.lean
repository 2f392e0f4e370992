import Downline.Config.Setting
import Downline.HexDigit
import Downline.Timestamp

/-!
Numbers and dates in TOML. A date, a time of day or both are kept as a text in one form.
-/

namespace Downline.Toml

/-! ### Digits -/

/-- Digits behind the first one. An underscore may stand between any two. -/
def moreDigits (isDigit : Char → Bool) : List Char → Option (List Char × List Char)
  | [] => some ([], [])
  | '_' :: [] => none
  | '_' :: c :: rest =>
    if isDigit c then (moreDigits isDigit rest).map fun (ds, rest) => (c :: ds, rest) else none
  | c :: rest =>
    if isDigit c then (moreDigits isDigit rest).map fun (ds, rest) => (c :: ds, rest)
    else some ([], c :: rest)

/-- At least one digit, with underscores between digits left out. -/
def readDigits (isDigit : Char → Bool) : List Char → Option (List Char × List Char)
  | c :: rest =>
    if isDigit c then (moreDigits isDigit rest).map fun (ds, rest) => (c :: ds, rest) else none
  | [] => none

/-- A number of exactly so many digits. -/
def readFixed (count : Nat) (cs : List Char) : Option (Nat × List Char) :=
  let ds := cs.take count
  if ds.length = count && ds.all Char.isDigit then some (Literal.digitsValue ds, cs.drop count)
  else none

/-! ### Numbers -/

/-- A whole number in another base than ten, behind its mark. It must fit 63 bits. -/
def readInBase (base : Nat) (cs : List Char) : Option (Setting × List Char) := do
  let below (c : Char) : Bool := match HexDigit.ofChar? c with
    | some d => d.val < base
    | none => false
  let (ds, rest) ← readDigits below cs
  let n := (ds.filterMap HexDigit.ofChar?).foldl (fun n d => n * base + d.val) 0
  if Literal.fitsInt64 n then some (.int n, rest) else none

/-- The whole part of a decimal number: a zero alone, or digits that start with another one. -/
def readWhole : List Char → Option (List Char × List Char)
  | '0' :: rest => some (['0'], rest)
  | cs => readDigits Char.isDigit cs

/-- The digits of a fraction behind its point, if one stands here. -/
def readFraction : List Char → Option (Option (List Char) × List Char)
  | '.' :: rest => (readDigits Char.isDigit rest).map fun (ds, rest) => (some ds, rest)
  | cs => some (none, cs)

/-- The sign and the digits of an exponent, if one stands here. -/
def readExponent : List Char → Option (Option (Bool × List Char) × List Char)
  | [] => some (none, [])
  | c :: rest =>
    if c = 'e' || c = 'E' then
      let (negative, rest) := match rest with
        | '-' :: rest => (true, rest)
        | '+' :: rest => (false, rest)
        | rest => (false, rest)
      (readDigits Char.isDigit rest).map fun (ds, rest) => (some (negative, ds), rest)
    else some (none, c :: rest)

/-- The value of a decimal number. A whole one must fit 64 bits with a sign, and any other must not
be too large. -/
def numberValue (l : Literal) : Option Setting :=
  if l.isWhole then
    if Literal.fitsInt64 l.wholeValue then some (.int l.wholeValue) else none
  else
    let f := l.nearest
    if f == 1.0 / 0.0 then none else some (.float f)

/-- A decimal number, or a word for one that has no digits. -/
def readDecimal (cs : List Char) : Option (Setting × List Char) :=
  let (negative, cs) := match cs with
    | '-' :: rest => (true, rest)
    | '+' :: rest => (false, rest)
    | cs => (false, cs)
  match cs with
  | 'i' :: 'n' :: 'f' :: rest => some (.float (Literal.signed negative (1.0 / 0.0)), rest)
  | 'n' :: 'a' :: 'n' :: rest => some (.float (Literal.signed negative (0.0 / 0.0)), rest)
  | _ => do
    let (whole, cs) ← readWhole cs
    let (fraction, cs) ← readFraction cs
    let (exponent, cs) ← readExponent cs
    let value ← numberValue { negative, whole, fraction, exponent }
    return (value, cs)

def readNumber : List Char → Option (Setting × List Char)
  | '0' :: 'x' :: rest => readInBase 16 rest
  | '0' :: 'o' :: rest => readInBase 8 rest
  | '0' :: 'b' :: rest => readInBase 2 rest
  | cs => readDecimal cs

/-! ### Dates and times -/

/-- A number of two digits up to a bound, written out again. -/
def readPair (low high : Nat) (cs : List Char) : Option (List Char × List Char) := do
  let (n, rest) ← readFixed 2 cs
  if low ≤ n && n ≤ high then some (Timestamp.padded 2 n, rest) else none

/-- A part behind a mark, written out again with the mark. -/
def readBehind (mark : Char) (part : List Char → Option (List Char × List Char)) :
    List Char → Option (List Char × List Char)
  | c :: rest =>
    if c = mark then (part rest).map fun (cs, rest) => (mark :: cs, rest) else none
  | [] => none

def readDate (cs : List Char) : Option (List Char × List Char) := do
  let (year, rest) ← readFixed 4 cs
  let (month, rest) ← readBehind '-' (readPair 1 12) rest
  let days := Timestamp.daysInMonth year (Literal.digitsValue (month.drop 1))
  let (day, rest) ← readBehind '-' (readPair 1 days) rest
  return (Timestamp.padded 4 year ++ month ++ day, rest)

/-- The fraction of a second, if one stands here: up to nine digits, without zeros at the end. -/
def readSecondFraction (cs : List Char) : List Char × List Char :=
  match cs with
  | '.' :: rest =>
    match rest.takeWhile Char.isDigit with
    | [] => ([], cs)
    | ds =>
      let kept := ((ds.take 9).reverse.dropWhile (· == '0')).reverse
      (if kept = [] then [] else '.' :: kept, rest.dropWhile Char.isDigit)
  | _ => ([], cs)

def readTime (cs : List Char) : Option (List Char × List Char) := do
  let (hour, rest) ← readPair 0 23 cs
  let (minute, rest) ← readBehind ':' (readPair 0 59) rest
  let (second, rest) ← readBehind ':' (readPair 0 60) rest
  let (fraction, rest) := readSecondFraction rest
  return (hour ++ minute ++ second ++ fraction, rest)

/-- The distance from UTC, if one stands here. One of nothing is written with a plus sign. -/
def readOffset (cs : List Char) : List Char × List Char :=
  match cs with
  | 'Z' :: rest => (['Z'], rest)
  | 'z' :: rest => (['Z'], rest)
  | c :: rest =>
    if c = '+' || c = '-' then
      let distance := do
        let (hours, rest) ← readPair 0 23 rest
        let (minutes, rest) ← readBehind ':' (readPair 0 59) rest
        return (hours ++ minutes, rest)
      match distance with
      | some (distance, rest) =>
        ((if distance = "00:00".toList then '+' else c) :: distance, rest)
      | none => ([], cs)
    else ([], cs)
  | [] => ([], [])

/-- A date, a time of day, or a date with a time of day and perhaps a distance from UTC. -/
def readMoment (cs : List Char) : Option (List Char × List Char) :=
  match readDate cs with
  | none => readTime cs
  | some (date, rest) =>
    match rest with
    | c :: behind =>
      if c = 'T' || c = 't' || c = ' ' then
        match readTime behind with
        | none => some (date, rest)
        | some (time, rest) =>
          let (offset, rest) := readOffset rest
          some (date ++ 'T' :: time ++ offset, rest)
      else some (date, rest)
    | [] => some (date, [])

end Downline.Toml
