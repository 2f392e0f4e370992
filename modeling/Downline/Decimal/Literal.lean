import Downline.Decimal.Shortest

/-!
Numbers as they are written: sign, whole part, fraction and exponent, and the floating-point numbers
that they stand for.
-/

namespace Downline

/-- A number taken apart as it is written. The parts hold digits only. -/
structure Literal where
  negative : Bool := false
  whole : List Char
  fraction : Option (List Char) := none
  exponent : Option (Bool × List Char) := none
deriving DecidableEq, Inhabited, Repr

namespace Literal

def digitsValue (cs : List Char) : Nat :=
  cs.foldl (fun n c => n * 10 + (c.toNat - 48)) 0

/-- The exponent, or zero where none is written. -/
def exponentValue (l : Literal) : Int :=
  match l.exponent with
  | none => 0
  | some (negative, ds) => if negative then -(digitsValue ds : Int) else digitsValue ds

/-- Splits off a sign, and says whether it is a minus. -/
def splitSign : List Char → Bool × List Char
  | '-' :: rest => (true, rest)
  | '+' :: rest => (false, rest)
  | cs => (false, cs)

def ofChars (cs : List Char) : Literal :=
  let (negative, cs) := splitSign cs
  let whole := cs.takeWhile Char.isDigit
  let cs := cs.dropWhile Char.isDigit
  let (fraction, cs) := match cs with
    | '.' :: rest => (some (rest.takeWhile Char.isDigit), rest.dropWhile Char.isDigit)
    | cs => (none, cs)
  let exponent := match cs with
    | _ :: '-' :: ds => some (true, ds)
    | _ :: '+' :: ds => some (false, ds)
    | _ :: ds => some (false, ds)
    | [] => none
  { negative, whole, fraction, exponent }

def ofString (s : String) : Literal := ofChars s.toList

def isWhole (l : Literal) : Bool := l.fraction.isNone && l.exponent.isNone

/-- The value of a number without fraction and exponent. -/
def wholeValue (l : Literal) : Int :=
  if l.negative then -(digitsValue l.whole : Int) else digitsValue l.whole

/-- Whether a number fits 64 bits with a sign. -/
def fitsInt64 (n : Int) : Bool := -9223372036854775808 ≤ n && n ≤ 9223372036854775807

/-- The 64-bit number with a sign that a text spells in digits. -/
def int64? (cs : List Char) : Option Int :=
  let (negative, ds) := splitSign cs
  if ds.isEmpty || !ds.all Char.isDigit then none
  else
    let n := ({ negative, whole := ds : Literal }).wholeValue
    if fitsInt64 n then some n else none

def signed (negative : Bool) (f : Float) : Float := if negative then -f else f

/-- The nearest floating-point number; infinite when there is none near. -/
def nearest (l : Literal) : Float :=
  let fraction := l.fraction.getD []
  let m := digitsValue (l.whole ++ fraction)
  let e := l.exponentValue - fraction.length
  -- far outside the range of exponents the value is settled, whatever the digits
  let size : Int := (toString m).length
  let f :=
    if m = 0 then 0
    else if 400 < e + size then 1.0 / 0.0
    else if e + size < -400 then 0
    else if 0 ≤ e then Float.ofScientific m false e.toNat
    else Float.ofScientific m true (-e).toNat
  signed l.negative f

/-- The leading digits of a number as far as they fit a 64-bit word, the number of digits that were
left off before the point, and whether digits were left off at all. -/
def leading (n : Nat) : List Char → Nat × List Char
  | [] => (n, [])
  | c :: rest =>
    let m := n * 10 + (c.toNat - 48)
    if m < UInt64.size then leading m rest else (n, c :: rest)

/-- The power of ten as a floating-point number, up to `10 ^ 308`. -/
def tenTo (k : Nat) : Float := Float.ofScientific 1 false k

/-- Scales by a power of ten in as few floating-point operations as possible: none for `10 ^ 0`, one up
to `10 ^ 308` either way, and one more for every further `10 ^ -308`. `none` if the result is
infinite. -/
def scaled : (fuel : Nat) → Float → Int → Option Float
  | 0, f, _ => some f
  | fuel + 1, f, e =>
    if e = 0 then some f
    else if e.natAbs ≤ 308 then
      if 0 ≤ e then
        let g := f * tenTo e.toNat
        if g.isInf then none else some g
      else some (f / tenTo e.natAbs)
    else if f == 0 then some f
    else if 0 ≤ e then none
    else scaled fuel (f / tenTo 308) (e + 308)

/-- The floating-point number that a number in a JSON text is read as: its leading digits that fit a
64-bit word, scaled by a power of ten. So it may be a neighbour of the nearest one. `none` if it is
too large. -/
def scaledWord (l : Literal) : Option Float :=
  let (m, cut) := leading 0 l.whole
  let fraction := l.fraction.getD []
  let (m, used) :=
    let (m', left) := leading m fraction
    (m', fraction.length - left.length)
  let shift : Int := (cut.length : Int) - used
  let e := l.exponentValue
  let f : Option Float :=
    -- an exponent beyond 32 bits settles the value
    if 2147483647 < e.natAbs then
      if m != 0 && 0 < e then none else some 0
    else
      let e := shift + e
      scaled ((e.natAbs / 308) + 2) (Float.ofNat m) e
  f.map (signed l.negative)

end Literal

end Downline
